import ContextFree.Proofs.Pass.Marks
import ContextFree.Proofs.Pass.UselessSymbols

namespace ContextFree.Pass

open Edit

variable {g h : Grammar}

theorem runs_reportSymbols (before after : String) (symbols : List Symbol) (g : Grammar) :
    (reportSymbols before after symbols).Runs g :=
  runs_forM (P := fun _ => True) trivial (fun _ _ _ _ => runs_report _ _ _) fun _ _ _ _ _ _ => trivial

theorem runs_removeUseless (g : Grammar) : removeUseless.Runs g := ⟨(), _, succeeds_removeUseless.2 rfl⟩

section EmptyString

theorem runs_removeEpsilons {names : List String} (distinct : names.Nodup)
    (known : ∀ name ∈ names, name ∈ g.nonterminals) : (removeEpsilons names).Runs g := by
  induction names generalizing g with
  | nil => exact runs_pure _ g
  | cons name rest ih =>
    rw [List.nodup_cons] at distinct
    rw [removeEpsilons]
    refine runs_bind ⟨_, _, succeeds_keepProductions.2 ⟨rfl, rfl⟩⟩ fun removed k kept => ?_
    obtain ⟨-, rfl⟩ := succeeds_keepProductions.1 kept
    split
    · exact ih distinct.2 fun other listed => known other (List.mem_cons_of_mem name listed)
    · refine runs_bind ⟨_, _, succeeds_grammar.2 ⟨rfl, rfl⟩⟩ fun l m found => ?_
      obtain ⟨rfl, rfl⟩ := succeeds_grammar.1 found
      dsimp only
      split
      · refine runs_bind (runs_report _ _ _) fun _ m told => ?_
        rw [← succeeds_report.1 told]
        have present := known name List.mem_cons_self
        refine runs_bind ⟨(), _, succeeds_removeNonterminal.2 ⟨present, rfl⟩⟩ fun _ m dropped => ?_
        rw [(succeeds_removeNonterminal.1 dropped).2]
        refine runs_bind (ih distinct.2 fun other listed => ?_) fun _ _ _ => runs_pure _ _
        refine Table.mem_remove.2 ⟨?_, known other (List.mem_cons_of_mem name listed)⟩
        rintro rfl
        exact distinct.1 listed
      · refine runs_bind (ih distinct.2 fun other listed => ?_) fun _ _ _ => runs_pure _ _
        exact known other (List.mem_cons_of_mem name listed)

theorem sublist_of_mem_expansions {nullable deleted : List String} {body kept : Body}
    (variant : kept ∈ Nullable.expansions nullable deleted body) : kept.Sublist body := by
  induction body generalizing kept with
  | nil =>
    rw [Nullable.expansions, List.mem_singleton] at variant
    subst variant
    exact List.Sublist.refl []
  | cons symbol rest ih =>
    have taken : kept ∈ (Nullable.expansions nullable deleted rest).map (symbol :: ·) →
        kept.Sublist (symbol :: rest) := by
      intro inMap
      obtain ⟨tail, inRest, rfl⟩ := List.mem_map.1 inMap
      exact (ih inRest).cons_cons symbol
    rw [Nullable.expansions] at variant
    split at variant
    · exact (ih variant).cons symbol
    · split at variant
      · rcases List.mem_append.1 variant with inMap | inRest
        · exact taken inMap
        · exact (ih inRest).cons symbol
      · exact taken variant

theorem legal_of_mem_variants {nullable deleted : List String} {p q : Production} (legal : p.Legal)
    (variant : q ∈ variants nullable deleted p) : q.body ≠ [] ∧ q.Legal := by
  obtain ⟨kept, member, rfl⟩ := List.mem_map.1 variant
  obtain ⟨expanded, filled⟩ := List.mem_filter.1 member
  rw [Bool.not_eq_true', List.isEmpty_eq_false_iff] at filled
  refine ⟨filled, legal.head, fun symbol inBody => ?_, legal.weight⟩
  exact legal.body symbol ((sublist_of_mem_expansions expanded).subset inBody)

theorem runs_warnOfStart (k : Grammar) (nullable : List String) (g : Grammar) : (warnOfStart k nullable).Runs g := by
  unfold warnOfStart
  split
  · split
    · exact runs_report _ _ _
    · exact runs_pure _ _
  · exact runs_pure _ _

theorem runs_removeEmptyString (legal : ∀ p ∈ g.productions, p.Legal) : removeEmptyString.Runs g := by
  refine runs_bind ⟨_, _, succeeds_grammar.2 ⟨rfl, rfl⟩⟩ fun _ _ found => ?_
  obtain ⟨rfl, rfl⟩ := succeeds_grammar.1 found
  have known : ∀ name ∈ g.nonterminals.names, name ∈ g.nonterminals := fun _ listed => listed
  refine runs_bind (runs_removeEpsilons g.nonterminals.distinct known) fun (direct, deleted) k cleared => ?_
  have rules : ∀ p ∈ k.productions, p.Legal := by
    intro p rule
    exact legal p (((cleared_of_removeEpsilons cleared).mem_productions p).1 rule).1
  refine runs_bind ⟨_, _, succeeds_grammar.2 ⟨rfl, rfl⟩⟩ fun _ _ found => ?_
  obtain ⟨rfl, rfl⟩ := succeeds_grammar.1 found
  refine runs_bind (runs_report _ _ _) fun _ _ told => ?_
  rw [← succeeds_report.1 told]
  refine runs_bind (runs_warnOfStart _ _ _) fun _ l warned => ?_
  have same : l = k := (@keeps_warnOfStart (fun x => x = k) k _).of_succeeds warned rfl
  subst same
  refine runs_bind ⟨_, _, succeeds_takeProductions.2 ⟨rfl, rfl⟩⟩ fun _ _ taken => ?_
  obtain ⟨rfl, rfl⟩ := succeeds_takeProductions.1 taken
  refine runs_forM (P := fun _ => True) trivial (fun p rule m _ => ?_) fun _ _ _ _ _ _ => trivial
  exact runs_addNewRules (fun q variant => legal_of_mem_variants (rules p rule) variant) m

end EmptyString

section SeparateTerminals

theorem runs_separate {terminal : String} (legal : Name.checkValue terminal = .ok ()) (g : Grammar) :
    (separate terminal).Runs g := by
  have free : Name.isMarked ("T-" ++ terminal) = false := (Name.isMarked_append (by decide) terminal).trans (by decide)
  have filled : ("T-" ++ terminal).toList ≠ [] := by
    rw [String.toList_append]
    exact List.append_ne_nil_of_left_ne_nil (by decide) _
  refine runs_bind (runs_helper (Name.checkNonterminal_escape filled free) (List.cons_ne_nil _ _) (fun symbol member =>
    ?_) g)
    fun _ _ _ => ?_
  · rw [List.mem_singleton.1 member]
    exact legal
  · exact ⟨(), _, succeeds_change.2 rfl⟩

theorem runs_separateAll (legal : ∀ p ∈ g.productions, ∀ symbol ∈ p.body, Name.check symbol = .ok ()) :
    separateAll.Runs g := by
  refine runs_bind ⟨_, _, succeeds_grammar.2 ⟨rfl, rfl⟩⟩ fun _ _ found => ?_
  obtain ⟨rfl, rfl⟩ := succeeds_grammar.1 found
  refine runs_forM (P := fun _ => True) trivial (fun terminal listed k _ => ?_) fun _ _ _ _ _ _ => trivial
  obtain ⟨p, rule, -, inBody⟩ := mem_longTerminals.1 listed
  exact runs_separate (legal p rule _ inBody) k

end SeparateTerminals

section SplitBodies

theorem unmarked_of_separated {body : Body} (separated : Separated [] body)
    (legal : ∀ symbol ∈ body, Name.check symbol = .ok ()) : Unmarked (inner body) := by
  intro symbol inside
  have inBody : symbol ∈ body := List.mem_of_mem_tail (List.dropLast_subset _ inside)
  rcases separated with ⟨token, rfl⟩ | ⟨-, symbols⟩
  · cases inside
  · obtain ⟨name, rfl⟩ := overNames_of_symbols symbols symbol inBody
    exact Name.not_marked_of_legal (legal _ inBody)

theorem runs_splitAll (closed : g.Closed) (legal : g.Legal) (separated : ∀ p ∈ g.productions, Separated [] p.body) :
    splitAll.Runs g := by
  have rules : ∀ p ∈ g.productions, p.Legal := fun p => legal.production closed
  exact runs_splitAll_of_unmarked closed rules fun p rule =>
    unmarked_of_separated (separated p rule) (rules p rule).body

end SplitBodies

end ContextFree.Pass
