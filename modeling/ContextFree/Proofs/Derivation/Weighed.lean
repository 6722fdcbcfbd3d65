import ContextFree.Proofs.Derivation.Basic
import ContextFree.Proofs.Derivation.Tree
import Mathlib.Data.ENat.Basic

namespace ContextFree

/-- A tree of at most so many levels reads the sentence, and these weights are multiplied along its nodes. -/
def Weighs (productions : List Production) (levels : ℕ∞) (body : Body) (sentence : Sentence) (factors : List Weight) :
    Prop :=
  ∃ tree : Forest productions body, tree.sentence? = some sentence ∧ tree.factors = factors ∧ tree.levels ≤ levels

/-- The one production of a name, if there is just one, reads like that and weighs one. -/
def Neutral (productions : List Production) (name : String) (body : Body) : Prop :=
  ∃ only, productions.filter (·.head == name) = [only] ∧ only.body = body ∧ only.weight = .one

namespace Weighs

variable {ps qs : List Production} {levels more : ℕ∞} {body rest : Body} {symbol : Symbol} {sentence : Sentence}
  {factors : List Weight}

theorem mono (lower : levels ≤ more) : Weighs ps levels body sentence factors → Weighs ps more body sentence factors :=
  fun ⟨tree, reads, weighs, bound⟩ => ⟨tree, reads, weighs, bound.trans lower⟩

theorem top_iff : Weighs ps ⊤ body sentence factors ↔
    ∃ tree : Forest ps body, tree.sentence? = some sentence ∧ tree.factors = factors := by
  constructor
  · rintro ⟨tree, reads, weighs, -⟩
    exact ⟨tree, reads, weighs⟩
  · rintro ⟨tree, reads, weighs⟩
    exact ⟨tree, reads, weighs, le_top⟩

theorem bounded (weighs : Weighs ps levels body sentence factors) :
    ∃ bound : Nat, Weighs ps bound body sentence factors := by
  obtain ⟨tree, reads, weighs, -⟩ := weighs
  exact ⟨tree.levels, tree, reads, weighs, le_rfl⟩

theorem nil_iff : Weighs ps levels [] sentence factors ↔ sentence = [] ∧ factors = [] := by
  constructor
  · rintro ⟨tree, reads, rfl, -⟩
    cases tree
    exact ⟨(Option.some.inj reads).symm, rfl⟩
  · rintro ⟨rfl, rfl⟩
    exact ⟨.nil, rfl, rfl, bot_le⟩

theorem cons_iff : Weighs ps levels (symbol :: rest) sentence factors ↔ ∃ first second before behind,
    sentence = first ++ second ∧ factors = before ++ behind ∧
      Weighs ps levels [symbol] first before ∧ Weighs ps levels rest second behind := by
  constructor
  · rintro ⟨tree, reads, rfl, bound⟩
    obtain ⟨here, tail, rfl⟩ := tree.exists_cons
    rw [Forest.sentence?_cons] at reads
    obtain ⟨first, one, later⟩ := Option.bind_eq_some_iff.1 reads
    obtain ⟨second, others, rfl⟩ := Option.map_eq_some_iff.1 later
    rw [Forest.levels_cons, Nat.mono_cast.map_max, max_le_iff] at bound
    exact ⟨first, second, _, _, rfl, here.factors_cons tail, ⟨here, one, rfl, bound.1⟩, tail, others, rfl, bound.2⟩
  · rintro ⟨first, second, _, _, rfl, rfl, ⟨here, one, rfl, lower⟩, tail, others, rfl, bound⟩
    refine ⟨here.cons tail, ?_, here.factors_cons tail, ?_⟩
    · rw [Forest.sentence?_cons, one, others]
      rfl
    · rw [Forest.levels_cons, Nat.mono_cast.map_max]
      exact max_le lower bound

theorem terminal_iff {token : String} :
    Weighs ps levels [.terminal token] sentence factors ↔ sentence = [token] ∧ factors = [] := by
  constructor
  · rintro ⟨tree, reads, rfl, -⟩
    cases tree with
    | leaf _ tail =>
      cases tail
      exact ⟨(Option.some.inj reads).symm, rfl⟩
  · rintro ⟨rfl, rfl⟩
    exact ⟨.leaf (.terminal token) .nil, rfl, rfl, bot_le⟩

theorem empty_iff : Weighs ps levels [.empty] sentence factors ↔ sentence = [] ∧ factors = [] := by
  constructor
  · rintro ⟨tree, reads, rfl, -⟩
    cases tree with
    | leaf _ tail =>
      cases tail
      exact ⟨(Option.some.inj reads).symm, rfl⟩
  · rintro ⟨rfl, rfl⟩
    exact ⟨.leaf .empty .nil, rfl, rfl, bot_le⟩

theorem nonterminal_iff {name : String} : Weighs ps levels [.nonterminal name] sentence factors ↔
    ∃ p ∈ ps, p.head = name ∧ ∃ lower inner, lower + 1 ≤ levels ∧ factors = [p.weight].filter (· ≠ .one) ++ inner ∧
      Weighs ps lower p.body sentence inner := by
  constructor
  · rintro ⟨tree, reads, rfl, bound⟩
    cases tree with
    | leaf => cases reads
    | @node p _ rule inner tail =>
      cases tail
      rw [Forest.sentence?_node] at reads
      rw [Forest.levels_node, Nat.cast_succ] at bound
      exact ⟨p, rule, rfl, inner.levels, inner.factors, bound, Forest.factors_node rule inner, inner, reads,
        rfl, le_rfl⟩
  · rintro ⟨p, rule, rfl, lower, _, bound, rfl, inner, reads, rfl, below⟩
    refine ⟨.node rule inner .nil, ?_, Forest.factors_node rule inner, ?_⟩
    · rw [Forest.sentence?_node, reads]
    · rw [Forest.levels_node, Nat.cast_succ]
      exact (add_le_add_left below 1).trans bound

theorem of_rule {p : Production} (weighs : Weighs ps ⊤ p.body sentence factors) (rule : p ∈ ps)
    (one : p.weight = .one) :
    Weighs ps ⊤ [.nonterminal p.head] sentence factors := by
  refine nonterminal_iff.2 ⟨p, rule, rfl, ⊤, factors, le_top, ?_, weighs⟩
  rw [one]
  rfl

theorem tail {other : Body} (each : ∀ {sentence factors}, Weighs ps levels rest sentence factors →
    Weighs ps levels other sentence factors) (weighs : Weighs ps levels (symbol :: rest) sentence factors) :
    Weighs ps levels (symbol :: other) sentence factors := by
  obtain ⟨first, second, before, behind, same, product, here, later⟩ := cons_iff.1 weighs
  exact cons_iff.2 ⟨first, second, before, behind, same, product, here, each later⟩

theorem map_symbols {f e : Symbol → Symbol} (each : ∀ symbol ∈ body, ∀ {sentence factors},
      Weighs ps levels [f symbol] sentence factors → Weighs qs more [e symbol] sentence factors)
    (weighs : Weighs ps levels (body.map f) sentence factors) : Weighs qs more (body.map e) sentence factors := by
  induction body generalizing sentence factors with
  | nil => exact nil_iff.2 (nil_iff.1 weighs)
  | cons symbol rest ih =>
    obtain ⟨first, second, before, behind, same, product, here, later⟩ := cons_iff.1 weighs
    refine cons_iff.2 ⟨first, second, before, behind, same, product, each symbol List.mem_cons_self here, ?_⟩
    exact ih (fun other member => each other (List.mem_cons_of_mem symbol member)) later

theorem transport (each : ∀ name, .nonterminal name ∈ body → ∀ {sentence factors},
      Weighs ps levels [.nonterminal name] sentence factors → Weighs qs more [.nonterminal name] sentence factors)
    (weighs : Weighs ps levels body sentence factors) : Weighs qs more body sentence factors := by
  rw [← List.map_id body] at weighs ⊢
  refine map_symbols (fun symbol member sentence factors reads => ?_) weighs
  cases symbol with
  | nonterminal name => exact each name member reads
  | terminal token => exact terminal_iff.2 (terminal_iff.1 reads)
  | empty => exact empty_iff.2 (empty_iff.1 reads)

theorem of_zero (weighs : Weighs ps (0 : Nat) body sentence factors) : Weighs qs more body sentence factors := by
  refine weighs.transport fun name _ sentence factors reads => ?_
  obtain ⟨p, -, -, lower, -, bound, -⟩ := nonterminal_iff.1 reads
  simp at bound

end Weighs

namespace Neutral

variable {ps : List Production} {name : String} {body : Body} {levels : ℕ∞} {sentence : Sentence}
  {factors : List Weight}

theorem serves (neutral : Neutral ps name body) : Serves ps name body :=
  neutral.imp fun _ ⟨found, reads, _⟩ => ⟨found, reads⟩

theorem one (neutral : Neutral ps name body) {p : Production} (rule : p ∈ ps) (headed : p.head = name) :
    p.weight = .one := by
  obtain ⟨only, found, -, weighs⟩ := neutral
  have listed : p ∈ ps.filter (·.head == name) := List.mem_filter.2 ⟨rule, beq_iff_eq.2 headed⟩
  rw [found, List.mem_singleton] at listed
  exact listed ▸ weighs

theorem opens (neutral : Neutral ps name body) (weighs : Weighs ps levels [.nonterminal name] sentence factors) :
    Weighs ps levels body sentence factors := by
  obtain ⟨p, rule, headed, lower, inner, bound, rfl, reads⟩ := Weighs.nonterminal_iff.1 weighs
  rw [(neutral.serves.only_rule rule headed).2] at reads
  rw [neutral.one rule headed]
  exact reads.mono (le_self_add.trans bound)

theorem folds (neutral : Neutral ps name body) (weighs : Weighs ps ⊤ body sentence factors) :
    Weighs ps ⊤ [.nonterminal name] sentence factors := by
  obtain ⟨p, rule, rfl, rfl⟩ := neutral.serves.exists_rule
  exact weighs.of_rule rule (neutral.one rule rfl)

end Neutral

end ContextFree
