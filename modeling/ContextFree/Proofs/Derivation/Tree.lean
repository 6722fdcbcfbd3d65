import ContextFree.Proofs.Derivation.Basic

namespace ContextFree

/-- Trees side by side, one for each symbol of a body. -/
inductive Forest (productions : List Production) : Body → Type where
  | nil : Forest productions []
  | leaf {rest : Body} (symbol : Symbol) (tail : Forest productions rest) : Forest productions (symbol :: rest)
  | node {p : Production} {rest : Body} (rule : p ∈ productions) (inner : Forest productions p.body)
    (tail : Forest productions rest) : Forest productions (.nonterminal p.head :: rest)

namespace Forest

variable {ps qs : List Production} {body rest : Body} {symbol : Symbol}

/-- What the leaves read, if no nonterminal is left among them. -/
def sentence? {body : Body} : Forest ps body → Option Sentence
  | .nil => some []
  | .leaf (.terminal token) tail => tail.sentence?.map (token :: ·)
  | .leaf .empty tail => tail.sentence?
  | .leaf (.nonterminal _) _ => none
  | .node _ inner tail => inner.sentence?.bind fun first => tail.sentence?.map (first ++ ·)

def rules {body : Body} : Forest ps body → List Production
  | .nil => []
  | .leaf _ tail => tail.rules
  | @node _ p _ _ inner tail => p :: (inner.rules ++ tail.rules)

def levels {body : Body} : Forest ps body → Nat
  | .nil => 0
  | .leaf _ tail => tail.levels
  | .node _ inner tail => max (inner.levels + 1) tail.levels

/-- The weights that are multiplied along the nodes, without those that are one. -/
def factors (forest : Forest ps body) : List Weight := (forest.rules.map Production.weight).filter (· ≠ .one)

def bare : (body : Body) → Forest ps body
  | [] => .nil
  | symbol :: rest => .leaf symbol (bare rest)

def cons {symbol : Symbol} {rest : Body} : Forest ps [symbol] → Forest ps rest → Forest ps (symbol :: rest)
  | .leaf symbol .nil, tail => .leaf symbol tail
  | .node rule inner .nil, tail => .node rule inner tail

section Parts

@[simp] theorem rules_bare (body : Body) : (bare body : Forest ps body).rules = [] := by
  induction body with
  | nil => rfl
  | cons symbol rest ih => exact ih

@[simp] theorem levels_bare (body : Body) : (bare body : Forest ps body).levels = 0 := by
  induction body with
  | nil => rfl
  | cons symbol rest ih => exact ih

variable (first : Forest ps [symbol]) (tail : Forest ps rest)

theorem sentence?_cons : (first.cons tail).sentence? =
    first.sentence?.bind fun sentence => tail.sentence?.map (sentence ++ ·) := by
  cases first with
  | leaf symbol none =>
    cases none
    cases symbol <;> simp [cons, sentence?]
  | node rule inner none =>
    cases none
    simp [cons, sentence?]

theorem rules_cons : (first.cons tail).rules = first.rules ++ tail.rules := by
  cases first with
  | leaf symbol none =>
    cases none
    rfl
  | node rule inner none =>
    cases none
    simp [cons, rules]

theorem levels_cons : (first.cons tail).levels = max first.levels tail.levels := by
  cases first with
  | leaf symbol none =>
    cases none
    simp [cons, levels]
  | node rule inner none =>
    cases none
    simp [cons, levels]

theorem factors_cons : (first.cons tail).factors = first.factors ++ tail.factors := by
  simp only [factors, rules_cons, List.map_append, List.filter_append]

end Parts

section Node

variable {p : Production} (rule : p ∈ ps) (inner : Forest ps p.body)

theorem sentence?_node : (node rule inner .nil).sentence? = inner.sentence? := by
  rw [sentence?]
  cases inner.sentence? <;> simp [sentence?]

theorem rules_node : (node rule inner .nil).rules = p :: inner.rules := by
  rw [rules, rules, List.append_nil]

theorem levels_node : (node rule inner .nil).levels = inner.levels + 1 := by
  rw [levels, levels, Nat.max_zero]

theorem factors_node : (node rule inner .nil).factors = [p.weight].filter (· ≠ .one) ++ inner.factors := by
  rw [factors, rules_node, List.map_cons]
  exact List.filter_append [p.weight] _

end Node

theorem exists_cons (forest : Forest ps (symbol :: rest)) :
    ∃ (first : Forest ps [symbol]) (tail : Forest ps rest), forest = first.cons tail := by
  cases forest with
  | leaf symbol tail => exact ⟨.leaf symbol .nil, tail, rfl⟩
  | node rule inner tail => exact ⟨.node rule inner .nil, tail, rfl⟩

theorem rules_subset (forest : Forest ps body) : forest.rules ⊆ ps := by
  induction forest with
  | nil => exact List.nil_subset ps
  | leaf _ _ ih => exact ih
  | node rule _ _ below beside => exact List.cons_subset.2 ⟨rule, List.append_subset.2 ⟨below, beside⟩⟩

theorem derives (forest : Forest ps body) {sentence : Sentence} (whole : forest.sentence? = some sentence)
    (uses : ∀ p ∈ forest.rules, p ∈ qs) : Derives qs body sentence := by
  induction forest generalizing sentence with
  | nil =>
    cases whole
    exact .nil
  | leaf symbol tail ih =>
    cases symbol with
    | terminal token =>
      obtain ⟨later, read, rfl⟩ := Option.map_eq_some_iff.1 whole
      exact .terminal (ih read uses)
    | empty => exact .empty (ih whole uses)
    | nonterminal name => cases whole
  | node rule inner tail before after =>
    simp only [rules, List.forall_mem_cons, List.forall_mem_append] at uses
    obtain ⟨here, below, beside⟩ := uses
    obtain ⟨first, read, later⟩ := Option.bind_eq_some_iff.1 whole
    obtain ⟨second, others, rfl⟩ := Option.map_eq_some_iff.1 later
    exact .expand here (before read below) (after others beside)

end Forest

end ContextFree
