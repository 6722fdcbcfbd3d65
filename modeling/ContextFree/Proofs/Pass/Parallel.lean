import ContextFree.Pipeline
import ContextFree.Proofs.Edit.Parallel

namespace ContextFree

open Edit Production

variable {g h : Grammar} {p q : Production} {ps qs : List Production}

namespace Pass

theorem parallel_reportSymbols (before after : String) (symbols : List Symbol) :
    Parallel Eq (reportSymbols before after symbols) (reportSymbols before after symbols) :=
  parallel_forM_eq symbols fun _ => parallel_report _ _

/-- A helper that is there is told by its body, whatever its weight. -/
theorem parallel_helper (base : String) (body : Body) (told : String) :
    Parallel Eq (helper base body told) (helper base body told) := by
  apply parallel_bind parallel_grammar
  intro g h alike
  rw [alike.isHelper, alike.freshName]
  split
  · exact parallel_pure rfl
  · apply parallel_bind_eq (parallel_report _ _)
    intro _
    apply parallel_bind_eq (parallel_addProduction rfl)
    intro _
    exact parallel_pure rfl

theorem parallel_removeZeroWeights : Parallel Eq removeZeroWeights removeZeroWeights := by
  apply parallel_bind_eq (parallel_keepProductions fun p => by rw [p.isZero_blank])
  intro removed
  exact parallel_report _ _

section EmptyString

theorem parallel_removeEpsilons (names : List String) :
    Parallel Eq (removeEpsilons names) (removeEpsilons names) := by
  induction names with
  | nil => exact parallel_pure rfl
  | cons name rest ih =>
    apply parallel_bind_eq (parallel_keepProductions fun _ => rfl)
    intro removed
    split
    · exact ih
    · apply parallel_bind parallel_grammar
      intro g h alike
      have gone : (g.productionsOf name).isEmpty = (h.productionsOf name).isEmpty :=
        blind List.isEmpty (fun _ => List.isEmpty_map) (alike.productionsOf name)
      rw [gone, alike.start]
      dsimp only
      split
      · apply parallel_bind_eq (parallel_report _ _)
        intro _
        apply parallel_bind_eq (parallel_removeNonterminal name)
        intro _
        exact parallel_bind_eq ih fun _ => parallel_pure rfl
      · exact parallel_bind_eq ih fun _ => parallel_pure rfl

theorem parallel_warnOfStart (alike : Alike g h) (nullable : List String) :
    Parallel Eq (warnOfStart g nullable) (warnOfStart h nullable) := by
  rw [warnOfStart, warnOfStart, alike.start]
  split
  · split
    · exact parallel_report _ _
    · exact parallel_unit
  · exact parallel_unit

theorem map_blank_variants (nullable deleted : List String) (p : Production) :
    (variants nullable deleted p).map blank = variants nullable deleted p.blank := by
  rw [variants, List.map_map]
  rfl

theorem parallel_removeEmptyString : Parallel Eq removeEmptyString removeEmptyString := by
  apply parallel_bind parallel_grammar
  intro g h alike
  rw [alike.nonterminals]
  apply parallel_bind_eq (parallel_removeEpsilons _)
  intro (direct, deleted)
  apply parallel_bind parallel_grammar
  intro k l alike
  dsimp only
  rw [alike.nullable]
  apply parallel_bind_eq (parallel_report _ _)
  intro _
  apply parallel_bind_eq (parallel_warnOfStart alike _)
  intro _
  apply parallel_bind parallel_takeProductions
  intro ps qs same
  apply parallel_forM_blank same
  intro p q same
  apply parallel_forM_blank
  · rw [map_blank_variants, same, map_blank_variants]
  · exact fun p q => parallel_addNewRule

end EmptyString

section UnitProductions

theorem map_blank_copies (ps : List Production) (name reached : String) :
    (copies ps name reached).map blank = copies (ps.map blank) name reached := by
  rw [copies, copies, ← map_blank_filter (fun _ => rfl), List.map_map, List.map_map]
  rfl

theorem parallel_takeOver (same : ps.map blank = qs.map blank) (name reached : String) :
    Parallel Eq (takeOver ps name reached) (takeOver qs name reached) := by
  have copied : Parallel Eq ((copies ps name reached).forM addNewRule) ((copies qs name reached).forM addNewRule) := by
    apply parallel_forM_blank
    · rw [map_blank_copies, same, map_blank_copies]
    · exact fun p q => parallel_addNewRule
  unfold takeOver
  split
  · apply parallel_bind_eq (parallel_report _ _)
    intro _
    apply parallel_bind parallel_grammar
    intro g h alike
    rw [alike.attributes reached]
    cases h.attributesOf? reached with
    | none => exact parallel_bind_eq parallel_unit fun _ => copied
    | some attributes => exact parallel_bind_eq (parallel_mergeAttributes name attributes) fun _ => copied
  · exact parallel_bind_eq parallel_unit fun _ => copied

theorem parallel_removeUnits : Parallel Eq removeUnits removeUnits := by
  apply parallel_bind parallel_takeProductions
  intro ps qs same
  apply parallel_bind parallel_grammar
  intro g h alike
  rw [alike.pairs same]
  apply parallel_bind_eq
  · apply parallel_forM_eq
    intro (name, reach)
    exact parallel_forM_eq reach (parallel_takeOver same name)
  · intro _
    exact parallel_bind_eq parallel_removeUnused fun unused => parallel_reportSymbols _ _ unused

end UnitProductions

theorem parallel_removeUseless : Parallel Eq removeUseless removeUseless := by
  apply parallel_bind parallel_grammar
  intro g h alike
  rw [alike.generating]
  apply parallel_bind_eq (parallel_keepProductions fun _ => rfl)
  intro removed
  apply parallel_bind_eq (parallel_report _ _)
  intro _
  apply parallel_bind parallel_grammar
  intro k l alike
  rw [alike.reachable]
  apply parallel_bind_eq (parallel_keepProductions fun _ => rfl)
  intro removed
  apply parallel_bind_eq (parallel_report _ _)
  intro _
  apply parallel_bind_eq parallel_removeUnused
  intro unused
  apply parallel_bind_eq (parallel_reportSymbols _ _ _)
  intro _
  apply parallel_bind parallel_grammar
  intro m n alike
  rw [alike.isEmpty]
  split
  · exact parallel_report _ _
  · exact parallel_unit

section SeparateTerminals

theorem blank_separateIn (terminal name : String) (p : Production) :
    (separateIn terminal name p).blank = separateIn terminal name p.blank := by
  rw [separateIn, separateIn, body_blank]
  split
  · rfl
  · rfl

theorem parallel_separate (terminal : String) : Parallel Eq (separate terminal) (separate terminal) := by
  apply parallel_bind_eq (parallel_helper _ _ _)
  intro name
  apply parallel_change
  intro g h alike
  have blanked : blank ∘ separateIn terminal name = separateIn terminal name ∘ blank :=
    funext (blank_separateIn terminal name)
  apply alike.with_productions
  rw [List.map_map, List.map_map, blanked, ← List.map_map, ← List.map_map, alike.productions]

theorem parallel_separateAll : Parallel Eq separateAll separateAll := by
  apply parallel_bind parallel_grammar
  intro g h alike
  rw [alike.longTerminals]
  exact parallel_forM_eq _ parallel_separate

end SeparateTerminals

section SplitBodies

theorem parallel_pairHelper (pairs : Pairs) (left right : Symbol) :
    Parallel Eq (pairHelper pairs left right) (pairHelper pairs left right) := by
  unfold pairHelper
  split
  · exact parallel_pure rfl
  · apply parallel_bind_eq (parallel_helper _ _ _)
    intro name
    exact parallel_pure rfl

theorem parallel_splitFrom (before : List Symbol) (pairs : Pairs) (last : Symbol) :
    Parallel Eq (splitFrom pairs last before) (splitFrom pairs last before) := by
  fun_induction splitFrom pairs last before with
  | case1 => exact parallel_pure rfl
  | case2 => exact parallel_pure rfl
  | case3 pairs last left next before ih =>
    apply parallel_bind_eq (parallel_pairHelper pairs left last)
    intro (name, pairs)
    exact ih name pairs

theorem parallel_splitAt (pairs : Pairs) (index : Nat) : Parallel Eq (splitAt pairs index) (splitAt pairs index) := by
  apply parallel_bind (parallel_productionAt index)
  intro p q same
  rw [body_eq same]
  split
  · apply parallel_bind_eq (parallel_setBody index [])
    intro _
    apply parallel_bind_eq (parallel_splitFrom _ pairs _)
    intro (body, pairs)
    apply parallel_bind_eq (parallel_setBody index body)
    intro _
    exact parallel_pure rfl
  · exact parallel_pure rfl

theorem parallel_splitEach (pairs : Pairs) (indices : List Nat) :
    Parallel Eq (splitEach pairs indices) (splitEach pairs indices) := by
  induction indices generalizing pairs with
  | nil => exact parallel_unit
  | cons index rest ih =>
    apply parallel_bind_eq (parallel_splitAt pairs index)
    intro more
    exact ih more

theorem parallel_splitAll : Parallel Eq splitAll splitAll := by
  apply parallel_bind parallel_grammar
  intro g h alike
  rw [alike.length]
  exact parallel_splitEach [] _

end SplitBodies

end Pass

namespace Pipeline

open Pass

theorem parallel_of_standard {kind : Kind} {pass : Pass} (member : pass ∈ standard kind) :
    Parallel Eq pass.run pass.run := by
  have passes : pass ∈ standard .weighted := by
    cases kind with
    | plain => exact List.mem_cons_of_mem _ member
    | weighted => exact member
  simp only [standard, List.mem_cons, List.not_mem_nil, or_false] at passes
  rcases passes with rfl | rfl | rfl | rfl | rfl | rfl
  · exact parallel_removeZeroWeights
  · exact parallel_removeEmptyString
  · exact parallel_removeUnits
  · exact parallel_removeUseless
  · exact parallel_separateAll
  · exact parallel_splitAll

theorem run_alike {goOn : Bool} {passes : List Pass} (parallel : ∀ pass ∈ passes, Parallel Eq pass.run pass.run)
    (alike : Alike g h) : Agrees Alike (run goOn passes g).result (run goOn passes h).result ∧
      (run goOn passes g).log = (run goOn passes h).log := by
  induction passes generalizing g h with
  | nil => exact ⟨.ok alike, rfl⟩
  | cons pass rest ih =>
    obtain ⟨results, grammars, logs⟩ := parallel pass List.mem_cons_self g h alike
    unfold run
    dsimp only
    generalize pass.run g = first at *
    generalize pass.run h = second at *
    obtain ⟨result, k, log⟩ := first
    obtain ⟨result', k', log'⟩ := second
    obtain ⟨answers, more⟩ := ih (fun other member => parallel other (List.mem_cons_of_mem pass member)) grammars
    dsimp only at results logs answers more
    cases results with
    | ok _ => exact ⟨answers, by rw [logs, alike.size, grammars.size, more]⟩
    | error fault =>
      dsimp only
      split
      · exact ⟨answers, by rw [logs, more]⟩
      · exact ⟨.error _, by rw [logs]⟩

end Pipeline

end ContextFree
