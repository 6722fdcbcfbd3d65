import ContextFree.Pipeline
import ContextFree.Proofs.Pass.EmptyString
import ContextFree.Proofs.Pass.UnitProductions

namespace ContextFree

open Edit

/-- What stands around the body. -/
def Production.frame (p : Production) : String × Weight := (p.head, p.weight)

theorem Production.origin_of_frames {ps qs : List Production} (frames : (ps.map frame).Sublist (qs.map frame))
    {p : Production}
    (rule : p ∈ ps) : ∃ q ∈ qs, p.head = q.head ∧ p.weight = q.weight := by
  obtain ⟨q, member, same⟩ := List.mem_map.1 (frames.subset (List.mem_map_of_mem rule))
  exact ⟨q, member, (congrArg Prod.fst same).symm, (congrArg Prod.snd same).symm⟩

structure Pass.Robust (P : Grammar → Prop) : Prop where
  productions : ∀ g productions, (productions.map Production.frame).Sublist (g.productions.map Production.frame) →
    P g → P { g with productions }
  dropped : ∀ g symbol, (∀ name, symbol = .nonterminal name → g.start ≠ some name ∧
    ∀ p ∈ g.productions, p.head ≠ name) →
    P g → P (dropSymbol symbol g)
  helped : ∀ g p, p.head ∉ g.nonterminals → p.body ≠ [] → p.Legal → p.weight = .one → P g → P (g.added p)

structure Pass.Additive (P : Grammar → Prop) : Prop extends Pass.Robust P where
  added : ∀ g p, p.body ≠ [] → p.Legal → P g → P (g.added p)

structure Pass.Stable (P : Grammar → Prop) : Prop extends Pass.Additive P where
  attributes : ∀ g attributes, P g → P { g with attributes }

namespace Pass

variable {P : Grammar → Prop} {g h : Grammar}

theorem stable_legal : Stable Grammar.Legal where
  productions _ _ frames legal := legal.with_productions fun p rule =>
    have ⟨q, old, same⟩ := Production.origin_of_frames frames rule
    ⟨q, old, same.2⟩
  dropped g symbol _ legal := by
    refine ⟨fun other present => ?_, fun p rule => legal.weights p ?_⟩
    · exact legal.names other (Grammar.hasSymbol_of_dropSymbol present)
    · cases symbol <;> exact rule
  helped _ _ _ _ new _ legal := legal.added new
  attributes _ attributes legal := legal.attributed attributes
  added _ _ _ new legal := legal.added new

theorem stable_kind (kind : Kind) : Stable fun g => g.kind = kind where
  productions _ _ _ same := same
  dropped g symbol _ same := by cases symbol <;> exact same
  helped _ _ _ _ _ _ same := Grammar.kind_added.trans same
  attributes _ _ same := same
  added _ _ _ _ same := Grammar.kind_added.trans same

theorem keeps_helper_of_fresh {base told : String} {body : Body}
    (step : ∀ g, body ≠ [] → ({ head := g.freshName base, body } : Production).Legal → P g →
      P (g.added { head := g.freshName base, body })) : (helper base body told).Keeps P := by
  refine keeps_bind_of_succeeds keeps_grammar fun g k h holds found _ => ?_
  obtain ⟨rfl, rfl⟩ := succeeds_grammar.1 found
  split
  · exact holds
  · dsimp only
    rw [grammar_bind (succeeds_debug (u := ()) |>.2 rfl)]
    refine holds_bind ?_ fun _ => keeps_pure _
    exact holds_addProduction (fun filled legal => step g filled legal holds) holds

theorem keeps_pairHelper_of_helper {left right : Symbol} (pairs : Pairs)
    (keeps : (helper (Name.escape (left.value ++ "-" ++ right.value)) [left, right] "").Keeps P) :
    (pairHelper pairs left right).Keeps P := by
  unfold pairHelper
  split
  · exact keeps_pure _
  · exact keeps_bind keeps fun _ => keeps_pure _

theorem keeps_splitFrom_of_pairHelper (each : ∀ pairs left right, (pairHelper pairs left right).Keeps P)
    (before : List Symbol) (pairs : Pairs) (last : Symbol) : (splitFrom pairs last before).Keeps P := by
  fun_induction splitFrom pairs last before with
  | case1 => exact keeps_pure _
  | case2 => exact keeps_pure _
  | case3 pairs last left next before ih =>
    exact keeps_bind (each pairs left last) fun (name, more) => ih name more

theorem keeps_removeUseless_of_kept (kept : ∀ test, (keepProductions test).Keeps P) (pruned : removeUnused.Keeps P) :
    removeUseless.Keeps P := by
  refine keeps_bind keeps_grammar fun _ => keeps_bind (kept _) fun _ => ?_
  refine keeps_bind (keeps_report _ _) fun _ => keeps_bind keeps_grammar fun _ => ?_
  refine keeps_bind (kept _) fun _ => keeps_bind (keeps_report _ _) fun _ => ?_
  refine keeps_bind pruned fun _ => keeps_bind (keeps_reportSymbols _ _ _) fun _ => ?_
  refine keeps_bind keeps_grammar fun _ => ?_
  split
  · exact keeps_report _ _
  · exact keeps_pure _

namespace Robust

theorem keeps_keepProductions (robust : Robust P) (test : Production → Bool) : (keepProductions test).Keeps P := by
  refine keeps_bind keeps_grammar fun _ => keeps_bind (keeps_change fun g holds => ?_) fun _ => ?_
  · exact robust.productions g _ (List.filter_sublist.map _) holds
  · exact keeps_bind keeps_grammar fun _ => keeps_pure _

theorem keeps_takeProductions (robust : Robust P) : takeProductions.Keeps P := by
  refine keeps_bind keeps_grammar fun _ => keeps_bind (keeps_change fun g holds => ?_) fun _ => keeps_pure _
  exact robust.productions g [] (List.nil_sublist _) holds

theorem pruned (robust : Robust P) (holds : P g) : P g.pruned := Grammar.pruned_induction robust.dropped holds

theorem keeps_removeUnused (robust : Robust P) : removeUnused.Keeps P := by
  intro g holds
  exact robust.pruned holds

theorem keeps_zeroWeights (robust : Robust P) : removeZeroWeights.Keeps P :=
  keeps_bind (robust.keeps_keepProductions _) fun _ => keeps_report _ _

theorem removeNonterminal (robust : Robust P) {name : String} (other : g.start ≠ some name)
    (bare : ∀ p ∈ g.productions, p.head ≠ name) (holds : P g) : P (removeNonterminal name g).grammar := by
  rw [Edit.removeNonterminal, bind_of_ok (grammar_run g)]
  split
  · refine robust.dropped g (.nonterminal name) (fun _ same => ?_) holds
    cases same
    exact ⟨other, bare⟩
  · exact holds

theorem keeps_removeEpsilons (robust : Robust P) (names : List String) : (removeEpsilons names).Keeps P := by
  induction names with
  | nil => exact keeps_pure _
  | cons name rest ih =>
    rw [removeEpsilons]
    refine keeps_bind (robust.keeps_keepProductions _) fun removed => ?_
    split
    · exact ih
    · refine keeps_bind_of_succeeds keeps_grammar fun g k h holds found _ => ?_
      obtain ⟨rfl, rfl⟩ := succeeds_grammar.1 found
      dsimp only
      split
      · next gone =>
        rw [Bool.and_eq_true, bne_iff_ne] at gone
        have bare : ∀ p ∈ g.productions, p.head ≠ name := by
          intro p rule same
          have listed : p ∈ g.productionsOf name := List.mem_filter.2 ⟨rule, beq_iff_eq.2 same⟩
          rw [List.isEmpty_iff.1 gone.1] at listed
          cases listed
        rw [grammar_bind (succeeds_debug (u := ()) |>.2 rfl)]
        exact holds_bind (robust.removeNonterminal gone.2 bare holds) fun _ => keeps_bind ih fun _ => keeps_pure _
      · exact keeps_bind ih (fun _ => keeps_pure _) g holds

theorem keeps_removeUseless (robust : Robust P) : removeUseless.Keeps P :=
  keeps_removeUseless_of_kept robust.keeps_keepProductions robust.keeps_removeUnused

theorem keeps_helper (robust : Robust P) (base : String) (body : Body) (told : String) :
    (helper base body told).Keeps P :=
  keeps_helper_of_fresh fun g filled legal holds =>
    robust.helped g _ (g.freshName_not_mem base) filled legal rfl holds

theorem frame_separateIn (terminal name : String) (p : Production) : (separateIn terminal name p).frame = p.frame := by
  unfold separateIn
  split <;> rfl

theorem keeps_separateAll (robust : Robust P) : separateAll.Keeps P := by
  refine keeps_bind keeps_grammar fun _ => keeps_forM fun terminal _ => ?_
  refine keeps_bind (robust.keeps_helper _ _ _) fun name => keeps_change fun k holds => ?_
  have same : (k.productions.map (separateIn terminal name)).map Production.frame =
      k.productions.map Production.frame := by
    rw [List.map_map, show Production.frame ∘ separateIn terminal name = Production.frame from
      funext (frame_separateIn terminal name)]
  exact robust.productions k _ (same ▸ List.Sublist.refl _) holds

theorem keeps_pairHelper (robust : Robust P) (pairs : Pairs) (left right : Symbol) :
    (pairHelper pairs left right).Keeps P :=
  keeps_pairHelper_of_helper pairs (robust.keeps_helper _ _ _)

theorem keeps_splitFrom (robust : Robust P) (before : List Symbol) (pairs : Pairs) (last : Symbol) :
    (splitFrom pairs last before).Keeps P :=
  keeps_splitFrom_of_pairHelper robust.keeps_pairHelper before pairs last

theorem frames_setBody (productions : List Production) (index : Nat) (body : Body) :
    (productions.modify index fun p => { p with body }).map Production.frame = productions.map Production.frame := by
  refine List.ext_getElem? fun place => ?_
  rw [List.getElem?_map, List.getElem?_modify, List.getElem?_map]
  cases productions[place]? with
  | none => rfl
  | some p => by_cases here : index = place <;> simp [here, Production.frame]

theorem keeps_setBody (robust : Robust P) (index : Nat) (body : Body) : (setBody index body).Keeps P := by
  apply keeps_change
  intro k holds
  exact robust.productions k _ (frames_setBody k.productions index body ▸ List.Sublist.refl _) holds

theorem keeps_splitAt (robust : Robust P) (pairs : Pairs) (index : Nat) : (splitAt pairs index).Keeps P := by
  refine keeps_bind (keeps_productionAt index) fun p => ?_
  split
  · refine keeps_bind (robust.keeps_setBody _ _) fun _ => ?_
    refine keeps_bind (robust.keeps_splitFrom _ _ _) fun (body, more) => ?_
    exact keeps_bind (robust.keeps_setBody _ _) fun _ => keeps_pure _
  · exact keeps_pure _

theorem keeps_splitEach (robust : Robust P) (pairs : Pairs) (places : List Nat) : (splitEach pairs places).Keeps P := by
  induction places generalizing pairs with
  | nil => exact keeps_pure _
  | cons index rest ih => exact keeps_bind (robust.keeps_splitAt pairs index) fun more => ih more

theorem keeps_splitAll (robust : Robust P) : splitAll.Keeps P :=
  keeps_bind keeps_grammar fun _ => robust.keeps_splitEach _ _

theorem keeps_late (robust : Robust P) {pass : Pass} (late : pass ∈ [uselessSymbols, separateTerminals, splitBodies]) :
    pass.run.Keeps P := by
  simp only [List.mem_cons, List.not_mem_nil, or_false] at late
  rcases late with rfl | rfl | rfl
  · exact robust.keeps_removeUseless
  · exact robust.keeps_separateAll
  · exact robust.keeps_splitAll

end Robust

namespace Additive

theorem keeps_addNewRule (additive : Additive P) (p : Production) : (addNewRule p).Keeps P :=
  Edit.keeps_addNewRule fun g filled legal holds => additive.added g p filled legal holds

theorem keeps_removeEmptyString (additive : Additive P) : removeEmptyString.Keeps P := by
  refine keeps_bind keeps_grammar fun _ => keeps_bind (additive.keeps_removeEpsilons _) fun (_, _) => ?_
  refine keeps_bind keeps_grammar fun _ => keeps_bind (keeps_report _ _) fun _ => ?_
  refine keeps_bind (keeps_warnOfStart _ _) fun _ => keeps_bind additive.keeps_takeProductions fun _ => ?_
  exact keeps_forM fun _ _ => keeps_forM fun q _ => additive.keeps_addNewRule q

end Additive

namespace Stable

theorem keeps_removeUnits (stable : Stable P) : removeUnits.Keeps P := by
  refine keeps_bind stable.keeps_takeProductions fun _ => keeps_bind keeps_grammar fun _ => ?_
  refine keeps_bind (keeps_forM fun (_, _) _ => keeps_forM fun _ _ => ?_) fun _ => ?_
  · exact keeps_takeOver (keeps_mergeAttributes stable.attributes _) fun q _ => stable.keeps_addNewRule q
  · exact keeps_bind stable.keeps_removeUnused fun _ => keeps_reportSymbols _ _ _

theorem keeps_pass (stable : Stable P) {kind : Kind} {pass : Pass} (listed : pass ∈ Pipeline.standard kind) :
    pass.run.Keeps P := by
  have passes : pass = zeroWeights ∨ pass ∈ Pipeline.standard .plain := by
    cases kind with
    | plain => exact Or.inr listed
    | weighted => exact List.mem_cons.1 listed
  rw [Pipeline.standard, List.mem_cons, List.mem_cons] at passes
  rcases passes with rfl | rfl | rfl | late
  · exact stable.keeps_zeroWeights
  · exact stable.keeps_removeEmptyString
  · exact stable.keeps_removeUnits
  · exact stable.keeps_late late

end Stable

end Pass

end ContextFree
