import ContextFree.Analysis.Reach
import ContextFree.Proofs.Derivation.Basic

namespace ContextFree.Useful

variable {g : Grammar} {body : Body} {sentence : Sentence}

theorem mem_nonterminalsOf {name : String} : name ∈ nonterminalsOf body ↔ .nonterminal name ∈ body := by
  simp only [nonterminalsOf, List.mem_filterMap]
  constructor
  · intro ⟨symbol, member, same⟩
    cases symbol with
    | nonterminal other =>
      cases same
      exact member
    | terminal token => cases same
    | empty => cases same
  · intro member
    exact ⟨.nonterminal name, member, rfl⟩

theorem isGenerating_iff {known : List String} :
    isGenerating known body = true ↔ ∀ name, .nonterminal name ∈ body → name ∈ known := by
  simp only [isGenerating, List.all_eq_true, mem_nonterminalsOf, List.contains_iff_mem]

theorem head_mem_generating {p : Production} (rule : p ∈ g.productions)
    (inner : isGenerating (generating g) p.body = true) : p.head ∈ generating g := by
  apply Closure.saturate_closed _ _ _ p.head
  · exact List.mem_map_of_mem (List.mem_filter.2 ⟨rule, inner⟩)
  · exact List.mem_map_of_mem rule

theorem isGenerating_of_derives (d : Derives g.productions body sentence) :
    isGenerating (generating g) body = true := by
  rw [isGenerating_iff]
  induction d with
  | nil => simp
  | empty _ ih =>
    intro name member
    exact ih name ((List.mem_cons.1 member).resolve_left nofun)
  | terminal _ ih =>
    intro name member
    exact ih name ((List.mem_cons.1 member).resolve_left nofun)
  | expand rule _ _ inner tail =>
    intro name member
    rcases List.mem_cons.1 member with same | inRest
    · cases same
      exact head_mem_generating rule (isGenerating_iff.2 inner)
    · exact tail name inRest

def generatingRules (g : Grammar) : List Production :=
  g.productions.filter fun p => (generating g).contains p.head && isGenerating (generating g) p.body

theorem mem_generatingRules_of_derives {p : Production} (rule : p ∈ g.productions)
    (body : Derives g.productions p.body sentence) : p ∈ generatingRules g := by
  have inner := isGenerating_of_derives body
  rw [generatingRules, List.mem_filter, Bool.and_eq_true]
  exact ⟨rule, List.contains_iff_mem.2 (head_mem_generating rule inner), inner⟩

theorem derives_generatingRules_iff :
    Derives (generatingRules g) body sentence ↔ Derives g.productions body sentence := by
  constructor
  · exact Derives.mono List.filter_sublist.subset
  · intro d
    induction d with
    | nil => exact .nil
    | empty _ ih => exact .empty ih
    | terminal _ ih => exact .terminal ih
    | expand rule body _ inner tail => exact .expand (mem_generatingRules_of_derives rule body) inner tail

theorem exists_rule_of_generating : ∀ name ∈ generating g, ∃ p ∈ generatingRules g, p.head = name := by
  refine Closure.saturate_induction (P := fun name => ∃ p ∈ generatingRules g, p.head = name) nofun ?_
  intro seen known name found
  obtain ⟨p, listed, rfl⟩ := List.mem_map.1 found
  obtain ⟨rule, inner⟩ := List.mem_filter.1 listed
  have generates : isGenerating (generating g) p.body = true := by
    rw [isGenerating_iff] at inner ⊢
    intro other inBody
    obtain ⟨q, kept, rfl⟩ := known other (inner other inBody)
    exact List.contains_iff_mem.1 (Bool.and_eq_true_iff.1 (List.mem_filter.1 kept).2).1
  refine ⟨p, List.mem_filter.2 ⟨rule, ?_⟩, rfl⟩
  rw [Bool.and_eq_true]
  exact ⟨List.contains_iff_mem.2 (head_mem_generating rule generates), generates⟩

theorem exists_rule_of_mem_body {p : Production} (rule : p ∈ generatingRules g) {name : String}
    (inBody : .nonterminal name ∈ p.body) : ∃ q ∈ generatingRules g, q.head = name :=
  exists_rule_of_generating name
    (isGenerating_iff.1 (Bool.and_eq_true_iff.1 (List.mem_filter.1 rule).2).2 name inBody)

theorem start_mem_reachable {name : String} (start : g.start = some name) : name ∈ reachable g := by
  apply Closure.subset_saturate
  rw [start]
  exact List.mem_cons_self

theorem mem_reachable_of_rule {p : Production} (rule : p ∈ g.productions) (known : p.head ∈ reachable g)
    {name : String} (inBody : .nonterminal name ∈ p.body) : name ∈ reachable g := by
  have listed := mem_nonterminalsOf.2 inBody
  apply Closure.saturate_closed _ _ _ name
  · refine List.mem_flatMap.2 ⟨p.head, known, List.mem_flatMap.2 ⟨p, ?_, listed⟩⟩
    exact List.mem_filter.2 ⟨rule, beq_self_eq_true p.head⟩
  · exact List.mem_flatMap.2 ⟨p, rule, listed⟩

def reachableRules (g : Grammar) : List Production :=
  g.productions.filter fun p => (reachable g).contains p.head

theorem mem_reachableRules {p : Production} : p ∈ reachableRules g ↔ p ∈ g.productions ∧ p.head ∈ reachable g := by
  rw [reachableRules, List.mem_filter, List.contains_iff_mem]

theorem start_of_reachable : ∀ name ∈ reachable g, ∃ start, g.start = some start ∧
    (name = start ∨ ∃ p ∈ g.productions, p.head = start) := by
  refine Closure.saturate_induction (P := fun name => ∃ start, g.start = some start ∧
    (name = start ∨ ∃ p ∈ g.productions, p.head = start)) ?_ ?_
  · intro name first
    exact ⟨name, Option.mem_toList.1 first, Or.inl rfl⟩
  · intro seen known name found
    obtain ⟨head, inSeen, listed⟩ := List.mem_flatMap.1 found
    obtain ⟨p, rule, -⟩ := List.mem_flatMap.1 listed
    obtain ⟨member, same⟩ := List.mem_filter.1 rule
    obtain ⟨start, started, origin⟩ := known head inSeen
    refine ⟨start, started, Or.inr (origin.elim (fun first => ⟨p, member, ?_⟩) id)⟩
    rw [← first]
    exact eq_of_beq same

theorem exists_rule_of_start {p : Production} (rule : p ∈ reachableRules g) :
    ∃ start, g.start = some start ∧ ∃ q ∈ reachableRules g, q.head = start := by
  obtain ⟨member, known⟩ := mem_reachableRules.1 rule
  obtain ⟨start, started, origin⟩ := start_of_reachable p.head known
  refine ⟨start, started, ?_⟩
  rcases origin with same | ⟨q, other, rfl⟩
  · exact ⟨p, rule, same⟩
  · exact ⟨q, mem_reachableRules.2 ⟨other, start_mem_reachable started⟩, rfl⟩

theorem derives_reachableRules_iff {name : String} (start : g.start = some name) :
    Derives (reachableRules g) [.nonterminal name] sentence ↔ g.DerivesFrom name sentence := by
  constructor
  · exact Derives.mono List.filter_sublist.subset
  · intro d
    apply d.restrict (P := fun name => name ∈ reachable g)
    · intro p rule known
      refine ⟨List.mem_filter.2 ⟨rule, List.contains_iff_mem.2 known⟩, fun other inBody => ?_⟩
      exact mem_reachable_of_rule rule known inBody
    · intro other single
      cases List.mem_singleton.1 single
      exact start_mem_reachable start

end ContextFree.Useful
