import Mathlib.Data.List.InsertIdx
import ContextFree.Proofs.Edit.Replacement
import ContextFree.Proofs.Grammar.WellFormed

namespace ContextFree.Grammar.WellFormed

open Edit

variable {g h : Grammar} {p : Production} {symbol source target : Symbol}

section Tables

theorem keeps_addNonterminal (name : String) : (addNonterminal name).Keeps WellFormed := by
  refine keeps_bind_of_succeeds (keeps_require _) fun g _ h _ checked wellFormed => ?_
  obtain ⟨legal, rfl⟩ := succeeds_require.1 checked
  exact @putSymbol _ (.nonterminal name) wellFormed legal

theorem keeps_addTerminal (name : String) : (addTerminal name).Keeps WellFormed := by
  refine keeps_bind_of_succeeds (keeps_require _) fun g _ h _ checked wellFormed => ?_
  obtain ⟨legal, rfl⟩ := succeeds_require.1 checked
  exact @putSymbol _ (.terminal name) wellFormed legal

theorem keeps_setStart (name : String) : (setStart name).Keeps WellFormed := by
  refine keeps_bind_of_succeeds (keeps_addNonterminal name) fun g _ h _ added wellFormed => ?_
  obtain rfl := eq_of_addNonterminal added
  apply wellFormed.started
  intro other same
  cases same
  exact Table.mem_add.2 (Or.inl rfl)

theorem keeps_removeUnused : removeUnused.Keeps WellFormed := fun _ wellFormed => wellFormed.pruned

theorem keeps_clear : clear.Keeps WellFormed :=
  fun g _ => (Grounded.new g.kind).wellFormed_of_no_productions rfl

end Tables

section Productions

theorem keeps_addProduction (p : Production) : (addProduction p).Keeps WellFormed :=
  Edit.keeps_addProduction fun _ filled legal wellFormed => wellFormed.added filled legal

theorem keeps_insertProduction (index : Nat) (p : Production) : (insertProduction index p).Keeps WellFormed := by
  apply Edit.keeps_insertProduction
  intro g filled legal wellFormed
  apply (wellFormed.added filled legal).with_productions
  intro q listed
  rw [productions_added]
  rcases List.eq_or_mem_of_mem_insertIdx listed with rfl | old
  · exact List.mem_append_right _ (List.mem_singleton_self q)
  · exact List.mem_append_left _ old

theorem keeps_removeProduction (index : Nat) : (removeProduction index).Keeps WellFormed := by
  refine keeps_bind (keeps_productionAt index) fun p => keeps_bind (keeps_change fun g wellFormed => ?_) fun _ =>
    keeps_pure _
  exact wellFormed.with_productions List.eraseIdx_subset

theorem keeps_keepProductions (keep : Production → Bool) : (keepProductions keep).Keeps WellFormed :=
  fun _ wellFormed => wellFormed.with_productions List.filter_sublist.subset

theorem keeps_removeProductionsOf (head : String) : (removeProductionsOf head).Keeps WellFormed :=
  keeps_bind keeps_grammar fun _ => keeps_bind (keeps_keepProductions _) fun _ => keeps_pure _

theorem keeps_takeProductions : takeProductions.Keeps WellFormed :=
  fun _ wellFormed => wellFormed.with_productions (List.nil_subset _)

end Productions

section Replacement

theorem substituted (wellFormed : g.WellFormed) (known : g.hasSymbol target) :
    (Edit.substituted source target g).WellFormed := by
  have closed : (Edit.substituted source target g).Closed := by
    apply Closed.with_productions
    intro q listed
    obtain ⟨p, rule, rfl⟩ := List.mem_map.1 listed
    obtain ⟨head, body⟩ := wellFormed.closed p rule
    constructor
    · rcases head_substituteIn source target p with old | new
      · rw [old]
        exact head
      · rw [new] at known
        exact known
    · intro symbol inBody
      rcases mem_body_substituteIn inBody with rfl | ⟨old, -⟩
      · exact known
      · exact body symbol old
  refine ⟨(wellFormed.toGrounded.with_productions _).lawful closed fun q listed => ?_, fun q listed => ?_⟩
  · obtain ⟨p, rule, rfl⟩ := List.mem_map.1 listed
    exact (wellFormed.legal p rule).weight
  · obtain ⟨p, rule, rfl⟩ := List.mem_map.1 listed
    intro none
    exact wellFormed.filled p rule (List.map_eq_nil_iff.1 none)

/-- When no production mentions the source any more, it goes and the target starts in its place. -/
theorem restarted (wellFormed : g.WellFormed) (differs : source ≠ target) (known : g.hasSymbol target)
    (free : ∀ p ∈ g.productions, .nonterminal p.head ≠ source ∧ source ∉ p.body) :
    (restart source target (Edit.dropSymbol source g)).WellFormed := by
  rw [restart_dropSymbol]
  by_cases here : g.start = source.nonterminal?
  · have moved : ({ g with start := target.nonterminal? } : Grammar).WellFormed := by
      apply wellFormed.started
      intro name same
      cases target <;> cases same
      exact known
    rw [restart, if_pos here]
    apply moved.dropSymbol _ free
    rintro name rfl same
    cases target <;> cases same
    exact differs rfl
  · rw [restart, if_neg here]
    apply wellFormed.dropSymbol _ free
    rintro name rfl same
    exact here same

theorem keeps_replaceSymbol (source target : Symbol) (removeSource : Bool) :
    (replaceSymbol source target removeSource).Keeps WellFormed := by
  intro g wellFormed
  have known : (replaced source target g).hasSymbol target := hasSymbol_replaced.2 (Or.inl rfl)
  have made : Name.check target = .ok () → (replaced source target g).WellFormed := fun legal =>
    (wellFormed.putSymbol legal).substituted (hasSymbol_putSymbol.2 (Or.inl rfl))
  have course := replaceSymbol_replaces source target removeSource g
  generalize replaceSymbol source target removeSource g = outcome at course
  cases course with
  | blocked | illegal => exact wellFormed
  | unknown _ legal | kept _ legal => exact made legal
  | removed free legal removes =>
    have differs : source ≠ target := bne_iff_ne.1 (Bool.and_eq_true_iff.1 removes).2
    apply (made legal).restarted differs known
    intro q listed
    have productions : (Edit.putSymbol target g).productions = g.productions := by cases target <;> rfl
    obtain ⟨p, rule, rfl⟩ := List.mem_map.1 listed
    rw [productions] at rule
    exact avoids_substituteIn differs free rule

end Replacement

section Attributes

theorem keeps_addInherited (name : String) (letter : Char) : (addInherited name letter).Keeps WellFormed :=
  keeps_addInherited_of_step (fun _ _ known lowercase apart wellFormed =>
    wellFormed.merged known lowercase apart) letter

theorem keeps_addSynthesized (name : String) (letter : Char) : (addSynthesized name letter).Keeps WellFormed :=
  keeps_addSynthesized_of_step (fun _ _ known lowercase apart wellFormed =>
    wellFormed.merged known lowercase apart) letter

theorem keeps_mergeAttributes (name : String) (source : Attributes) : (mergeAttributes name source).Keeps WellFormed :=
  keeps_mergeAttributes_of_step (fun _ _ known lowercase apart wellFormed =>
    wellFormed.merged known lowercase apart) source

end Attributes

end ContextFree.Grammar.WellFormed
