import ContextFree.Proofs.Edit.WellFormed
import ContextFree.Proofs.Pass.SplitBodies
import ContextFree.Proofs.Pass.Stable

namespace ContextFree.Pass

open Edit

open Grammar (Grounded Lawful WellFormed)

variable {g h : Grammar} {u : Unit}

theorem keeps_zeroWeights_wellFormed : removeZeroWeights.Keeps WellFormed :=
  keeps_bind (WellFormed.keeps_keepProductions _) fun _ => keeps_report _ _

theorem keeps_removeUseless_wellFormed : removeUseless.Keeps WellFormed :=
  keeps_removeUseless_of_kept WellFormed.keeps_keepProductions WellFormed.keeps_removeUnused

theorem keeps_addNewRule_wellFormed (p : Production) : (addNewRule p).Keeps WellFormed :=
  keeps_addNewRule fun _ filled legal wellFormed => wellFormed.added filled legal

theorem keeps_helper_wellFormed (base told : String) (body : Body) : (helper base body told).Keeps WellFormed :=
  keeps_helper_of_fresh fun _ filled legal wellFormed => wellFormed.added filled legal

section Copying

theorem additive_grounded : Additive Grounded where
  productions _ productions _ grounded := grounded.with_productions productions
  dropped _ _ bare grounded := grounded.dropSymbol fun name same => (bare name same).1
  helped _ _ _ _ legal _ grounded := grounded.added legal
  added _ _ _ legal grounded := grounded.added legal

-- Productions may mention a name that has gone with its empty ones, until they are taken out in turn.
theorem wellFormed_of_removeEmptyString (grounded : g.Grounded) (ran : removeEmptyString.Succeeds g u h) :
    h.WellFormed := by
  simp only [removeEmptyString, succeeds_bind, succeeds_grammar, succeeds_debug, succeeds_takeProductions] at ran
  obtain ⟨_, _, ⟨rfl, rfl⟩, ⟨direct, deleted⟩, k, removed, ran⟩ := ran
  obtain ⟨_, _, ⟨rfl, rfl⟩, _, _, rfl, _, l, warned, _, _, ⟨rfl, rfl⟩, looped⟩ := ran
  have left : k.Grounded := (additive_grounded.keeps_removeEpsilons _).of_succeeds removed grounded
  have told : l.Grounded := (keeps_warnOfStart _ _).of_succeeds warned left
  have taken : ({ l with productions := [] } : Grammar).WellFormed :=
    (told.with_productions []).wellFormed_of_no_productions rfl
  exact (keeps_forM fun _ _ => keeps_forM fun q _ => keeps_addNewRule_wellFormed q).of_succeeds looped taken

theorem keeps_removeUnits_wellFormed : removeUnits.Keeps WellFormed := by
  refine keeps_bind WellFormed.keeps_takeProductions fun _ => keeps_bind keeps_grammar fun _ => ?_
  refine keeps_bind (keeps_forM fun (name, _) _ => keeps_forM fun _ _ => ?_) fun _ => ?_
  · exact keeps_takeOver (WellFormed.keeps_mergeAttributes name) fun q _ => keeps_addNewRule_wellFormed q
  · exact keeps_bind WellFormed.keeps_removeUnused fun _ => keeps_reportSymbols _ _ _

end Copying

section SeparateTerminals

theorem wellFormed_separated {terminal name : String} (wellFormed : g.WellFormed) (known : name ∈ g.nonterminals) :
    (separated terminal name g).WellFormed := by
  have closed : (separated terminal name g).Closed := closed_separated wellFormed.closed known
  refine ⟨(wellFormed.toGrounded.with_productions _).lawful closed fun q listed => ?_, fun q listed => ?_⟩
  all_goals obtain ⟨p, rule, rfl⟩ := List.mem_map.1 listed
  · have same : (separateIn terminal name p).weight = p.weight :=
      congrArg Prod.snd (Robust.frame_separateIn terminal name p)
    rw [same]
    exact (wellFormed.legal p rule).weight
  · have filled := wellFormed.filled p rule
    unfold separateIn
    split
    · exact fun none => filled (List.map_eq_nil_iff.1 none)
    · exact filled

theorem wellFormed_of_separate {terminal : String} (ran : (separate terminal).Succeeds g u h)
    (wellFormed : g.WellFormed) :
    h.WellFormed := by
  simp only [separate, succeeds_bind, succeeds_change] at ran
  obtain ⟨name, k, helped, rfl⟩ := ran
  have before : k.WellFormed := (keeps_helper_wellFormed _ _ _).of_succeeds helped wellFormed
  exact wellFormed_separated before (helped_of_helper wellFormed.closed helped).known

theorem wellFormed_of_separateAll (wellFormed : g.WellFormed) (ran : separateAll.Succeeds g u h) : h.WellFormed :=
  (succeeds_separateAll.1 ran).forM_induction wellFormed fun _ _ {_ _} one => wellFormed_of_separate one

end SeparateTerminals

section SplitBodies

variable {pairs more : Pairs} {index : Nat} {body : Body}

def Remembered (pairs : Pairs) (g : Grammar) : Prop := ∀ entry ∈ pairs, entry.2 ∈ g.nonterminals

/-- Well-formed, but that the production at one place may stand without a body. -/
structure Splitting (index : Nat) (g : Grammar) : Prop extends Lawful g where
  filled : ∀ (place : Nat) p, g.productions[place]? = some p → p.body = [] → place = index

theorem lawful_withBody (lawful : g.Lawful) (known : ∀ symbol ∈ body, g.hasSymbol symbol) :
    (withBody index body g).Lawful := by
  have closed : (withBody index body g).Closed := closed_withBody lawful.closed known
  apply (lawful.toGrounded.with_productions _).lawful closed
  intro q listed
  obtain ⟨place, found⟩ := List.mem_iff_getElem?.1 listed
  obtain ⟨p, old, rfl⟩ := getElem?_withBody found
  have legal := lawful.legal p (List.mem_of_getElem? old)
  split <;> exact legal.weight

theorem splitting_emptied (wellFormed : g.WellFormed) (index : Nat) : Splitting index (withBody index [] g) where
  toLawful := lawful_withBody wellFormed.toLawful nofun
  filled place q found none := by
    obtain ⟨p, old, rfl⟩ := getElem?_withBody found
    split at none
    · next here => exact here.symm
    · exact absurd none (wellFormed.filled p (List.mem_of_getElem? old))

theorem Splitting.added (splitting : Splitting index g) {p : Production} (filled : p.body ≠ []) (legal : p.Legal) :
    Splitting index (g.added p) where
  toLawful := splitting.toLawful.added legal
  filled place q found none := by
    rw [Grammar.productions_added, List.getElem?_append] at found
    split at found
    · exact splitting.filled place q found none
    · have single := List.mem_of_getElem? found
      rw [List.mem_singleton.1 single] at none
      exact absurd none filled

theorem Splitting.closing (splitting : Splitting index g) (known : ∀ symbol ∈ body, g.hasSymbol symbol)
    (filled : body ≠ []) :
    (withBody index body g).WellFormed where
  toLawful := lawful_withBody splitting.toLawful known
  filled q listed := by
    obtain ⟨place, found⟩ := List.mem_iff_getElem?.1 listed
    obtain ⟨p, old, rfl⟩ := getElem?_withBody found
    split
    · exact filled
    · next elsewhere => exact fun none => elsewhere (splitting.filled place p old none).symm

structure Splits (index : Nat) (more : Pairs) (g h : Grammar) : Prop where
  splitting : Splitting index h
  remembered : Remembered more h
  symbols : ∀ symbol, g.hasSymbol symbol → h.hasSymbol symbol

theorem splits_of_pairHelper {left right : Symbol} {name : String} (splitting : Splitting index g)
    (remembered : Remembered pairs g) (ran : (pairHelper pairs left right).Succeeds g (name, more) h) :
    Splits index more g h ∧ name ∈ h.nonterminals := by
  obtain ⟨found, rfl, rfl⟩ | ⟨-, rfl, added⟩ := pairHelper_cases ran
  · exact ⟨⟨splitting, remembered, fun _ => id⟩, remembered _ (mem_of_lookup found)⟩
  · have after : Splitting index h :=
      (keeps_helper_of_fresh fun _ filled legal before => before.added filled legal).of_succeeds added splitting
    have helped := helped_of_helper splitting.closed added
    refine ⟨⟨after, fun entry listed => ?_, helped.grows.symbols⟩, helped.known⟩
    rcases List.mem_cons.1 listed with rfl | old
    · exact helped.known
    · exact helped.grows.symbols (.nonterminal entry.2) (remembered entry old)

theorem splits_of_splitFrom {before : List Symbol} {last : Symbol} (splitting : Splitting index g)
    (remembered : Remembered pairs g) (known : ∀ symbol ∈ last :: before, g.hasSymbol symbol)
    (ran : (splitFrom pairs last before).Succeeds g (body, more) h) :
    Splits index more g h ∧ ∀ symbol ∈ body, h.hasSymbol symbol := by
  fun_induction splitFrom pairs last before generalizing g with
  | case1 pairs last =>
    obtain ⟨same, rfl⟩ := succeeds_pure.1 ran
    cases same
    exact ⟨⟨splitting, remembered, fun _ => id⟩, known⟩
  | case2 pairs last first =>
    obtain ⟨same, rfl⟩ := succeeds_pure.1 ran
    cases same
    refine ⟨⟨splitting, remembered, fun _ => id⟩, fun symbol inBody => known symbol ?_⟩
    exact (List.Perm.swap last first []).subset inBody
  | case3 pairs last left next before ih =>
    obtain ⟨⟨name, between⟩, k, helped, ran⟩ := succeeds_bind.1 ran
    obtain ⟨first, helper⟩ := splits_of_pairHelper splitting remembered helped
    have still : ∀ symbol ∈ .nonterminal name :: next :: before, k.hasSymbol symbol := by
      intro symbol member
      rcases List.mem_cons.1 member with rfl | old
      · exact helper
      · exact first.symbols symbol (known symbol (List.mem_cons_of_mem _ (List.mem_cons_of_mem _ old)))
    obtain ⟨rest, filled⟩ := ih name between first.splitting first.remembered still ran
    exact ⟨⟨rest.splitting, rest.remembered, fun symbol old => rest.symbols symbol (first.symbols symbol old)⟩, filled⟩

theorem wellFormed_of_splitAt (wellFormed : g.WellFormed) (remembered : Remembered pairs g)
    (ran : (splitAt pairs index).Succeeds g more h) : h.WellFormed ∧ Remembered more h := by
  obtain ⟨p, found⟩ := found_of_splitAt ran
  obtain ⟨-, rfl, rfl⟩ | ⟨-, before, last, body, k, some, whole, folds, rfl⟩ := splitAt_opened found ran
  · exact ⟨wellFormed, remembered⟩
  · have known : ∀ symbol ∈ last :: before, (withBody index [] g).hasSymbol symbol := by
      intro symbol member
      apply Grammar.hasSymbol_productions.2
      apply (wellFormed.closed p (List.mem_of_getElem? found)).2
      rw [whole, List.mem_append, List.mem_reverse, List.mem_singleton]
      exact (List.mem_cons.1 member).symm
    obtain ⟨splits, inBody⟩ := splits_of_splitFrom (splitting_emptied wellFormed index) remembered known folds
    have filled : body ≠ [] := List.ne_nil_of_length_eq_add_one (length_of_splitFrom some folds)
    exact ⟨splits.splitting.closing inBody filled, splits.remembered⟩

theorem wellFormed_of_splitEach {places : List Nat} (wellFormed : g.WellFormed) (remembered : Remembered pairs g)
    (ran : (splitEach pairs places).Succeeds g u h) : h.WellFormed := by
  induction places generalizing g pairs with
  | nil =>
    rw [← (succeeds_pure.1 ran).2]
    exact wellFormed
  | cons index rest ih =>
    obtain ⟨more, k, one, others⟩ := succeeds_bind.1 ran
    obtain ⟨between, known⟩ := wellFormed_of_splitAt wellFormed remembered one
    exact ih between known others

end SplitBodies

theorem wellFormed_of_pass {pass : Pass} (listed : pass ∈ Pipeline.standard .weighted) (wellFormed : g.WellFormed)
    (ran : pass.run.Succeeds g u h) : h.WellFormed := by
  simp only [Pipeline.standard, List.mem_cons, List.not_mem_nil, or_false] at listed
  rcases listed with rfl | rfl | rfl | rfl | rfl | rfl
  · exact keeps_zeroWeights_wellFormed.of_succeeds ran wellFormed
  · exact wellFormed_of_removeEmptyString wellFormed.toGrounded ran
  · exact keeps_removeUnits_wellFormed.of_succeeds ran wellFormed
  · exact keeps_removeUseless_wellFormed.of_succeeds ran wellFormed
  · exact wellFormed_of_separateAll wellFormed ran
  · exact wellFormed_of_splitEach wellFormed (by simp [Remembered]) (succeeds_splitAll.1 ran)

end ContextFree.Pass
