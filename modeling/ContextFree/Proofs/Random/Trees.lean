import ContextFree.Proofs.Derivation.Tree
import ContextFree.Proofs.Random.Choice
import ContextFree.Random.Sample

namespace ContextFree.Sampler

variable {α β : Type} {g : Grammar} {words : Words} {position after : Nat}

theorem bind_of_ok {sampler : Sampler α} {next : α → Sampler β} {a : α} (run : sampler position = ⟨.ok a, after⟩) :
    (sampler >>= next) position = next a after := by
  change andThen sampler next position = _
  rw [andThen, run]

theorem bind_of_error {sampler : Sampler α} {next : α → Sampler β} {fault : SampleFault}
    (run : sampler position = ⟨.error fault, after⟩) : (sampler >>= next) position = ⟨.error fault, after⟩ := by
  change andThen sampler next position = _
  rw [andThen, run]

theorem isZero_of_chance {weight : Weight} (some : chance weight ≠ 0) : weight.isZero = false := by
  rcases weight with value | _
  · rw [Weight.isZero]
    cases zero : value.isZero with
    | false => rfl
    | true =>
      have none : chance (.number value) = 0 := by
        rw [chance, zero, Bool.true_or, if_pos rfl]
        exact eq_of_beq zero
      exact absurd none some
  · rfl

theorem choose_cases (g : Grammar) (words : Words) (name : String) (position : Nat) :
    (∃ fault, choose g words name position = ⟨.error fault, position⟩) ∨
      ∃ p ∈ g.productions, p.head = name ∧ p.weight.isZero = false ∧
        choose g words name position = ⟨.ok p, position + 1⟩ := by
  simp only [choose]
  split
  · exact Or.inl ⟨_, rfl⟩
  · cases usable : Choice.total? ((g.productionsOf name).map fun p => chance p.weight) with
    | none => exact Or.inl ⟨_, rfl⟩
    | some total =>
      right
      obtain ⟨weight, weighed, some⟩ := Choice.exists_weight_of_index usable (words position)
      rw [List.getElem?_map, Option.map_eq_some_iff] at weighed
      obtain ⟨p, found, rfl⟩ := weighed
      obtain ⟨rule, headed⟩ := List.mem_filter.1 (List.mem_of_getElem? found)
      refine ⟨p, rule, eq_of_beq headed, isZero_of_chance some, ?_⟩
      have drawn : word words position = ⟨.ok (words position), position + 1⟩ := rfl
      dsimp only
      rw [bind_of_ok drawn, found]
      rfl

/-- A run of a sampler from a position on has grown the trees: the sentence is theirs if it succeeds, and if
it fails they are broken off. -/
structure Grows {body : Body} (levels position : Nat) (run : Drawn Sentence) (forest : Forest g.productions body) :
    Prop where
  sentence : forest.sentence? = run.result.toOption
  drawn : run.position = position + forest.rules.length
  weighs : ∀ p ∈ forest.rules, p.weight.isZero = false
  levels : forest.levels ≤ levels

namespace Grows

variable {levels between : Nat} {fault : SampleFault} {first : Sentence} {symbol : Symbol} {rest : Body}
  {run : Drawn Sentence} {tree : Forest g.productions [symbol]} {forest : Forest g.productions rest}

theorem unexpanded (levels position : Nat) (name : String) (rest : Body) (fault : SampleFault) :
    Grows levels position ⟨.error fault, position⟩ (.bare (.nonterminal name :: rest) : Forest g.productions _) where
  sentence := rfl
  drawn := by rw [Forest.rules_bare]; rfl
  weighs := by simp
  levels := by simp

theorem broken (grown : Grows levels position ⟨.error fault, between⟩ tree) (rest : Body) :
    Grows levels position ⟨.error fault, between⟩ (tree.cons (.bare rest)) where
  sentence := by rw [Forest.sentence?_cons, grown.sentence]; rfl
  drawn := by rw [Forest.rules_cons, Forest.rules_bare, List.append_nil]; exact grown.drawn
  weighs := by rw [Forest.rules_cons, Forest.rules_bare, List.append_nil]; exact grown.weighs
  levels := by rw [Forest.levels_cons, Forest.levels_bare, Nat.max_zero]; exact grown.levels

theorem cons (here : Grows levels position ⟨.ok first, between⟩ tree) (later : Grows levels between run forest) :
    Grows levels position ⟨run.result.map (first ++ ·), run.position⟩ (tree.cons forest) where
  sentence := by
    rw [Forest.sentence?_cons, here.sentence, later.sentence]
    cases run.result <;> rfl
  drawn := by
    have before := here.drawn
    have behind := later.drawn
    rw [Forest.rules_cons, List.length_append]
    dsimp only at before ⊢
    omega
  weighs := by
    rw [Forest.rules_cons, List.forall_mem_append]
    exact ⟨here.weighs, later.weighs⟩
  levels := by
    rw [Forest.levels_cons]
    exact Nat.max_le.2 ⟨here.levels, later.levels⟩

theorem node {p : Production} {inner : Forest g.productions p.body} (rule : p ∈ g.productions)
    (some : p.weight.isZero = false) (grown : Grows levels (position + 1) run inner) :
    Grows (levels + 1) position run (.node rule inner .nil) where
  sentence := by rw [Forest.sentence?_node, grown.sentence]
  drawn := by
    rw [grown.drawn, Forest.rules_node, List.length_cons]
    omega
  weighs := by
    rw [Forest.rules_node, List.forall_mem_cons]
    exact ⟨some, grown.weighs⟩
  levels := by
    rw [Forest.levels_node]
    exact Nat.succ_le_succ grown.levels

end Grows

theorem exists_grown_of_body {levels : Nat} {nonterminal : String → Sampler Sentence}
    (each : ∀ name position, ∃ tree : Forest g.productions [.nonterminal name],
      Grows levels position (nonterminal name position) tree)
    (symbols : Body) (position : Nat) :
    ∃ forest : Forest g.productions symbols, Grows levels position (body nonterminal symbols position) forest := by
  induction symbols generalizing position with
  | nil => exact ⟨.nil, rfl, rfl, nofun, Nat.zero_le levels⟩
  | cons symbol rest ih =>
    cases symbol with
    | empty =>
      obtain ⟨forest, sentence, drawn, weighs, bound⟩ := ih position
      exact ⟨.leaf .empty forest, sentence, drawn, weighs, bound⟩
    | terminal token =>
      obtain ⟨forest, sentence, drawn, weighs, bound⟩ := ih position
      refine ⟨.leaf (.terminal token) forest, ?_⟩
      rcases ran : body nonterminal rest position with ⟨_ | later, after⟩
      all_goals rw [ran] at sentence drawn
      · rw [body, bind_of_error ran]
        exact ⟨congrArg (Option.map _) sentence, drawn, weighs, bound⟩
      · rw [body, bind_of_ok ran]
        exact ⟨congrArg (Option.map _) sentence, drawn, weighs, bound⟩
    | nonterminal name =>
      obtain ⟨tree, here⟩ := each name position
      rcases expanded : nonterminal name position with ⟨_ | first, between⟩
      all_goals rw [expanded] at here
      · rw [body, bind_of_error expanded]
        exact ⟨_, here.broken rest⟩
      · obtain ⟨forest, later⟩ := ih between
        have whole := here.cons later
        refine ⟨tree.cons forest, ?_⟩
        rw [body, bind_of_ok expanded]
        rcases ran : body nonterminal rest between with ⟨_ | second, after⟩
        all_goals rw [ran] at whole
        · rw [bind_of_error ran]
          exact whole
        · rw [bind_of_ok ran]
          exact whole

/-- A sampler for nonterminals grows a tree of at most as many levels as it is given. -/
theorem exists_grown_of_expand (levels : Nat) (name : String) (position : Nat) :
    ∃ tree : Forest g.productions [.nonterminal name], Grows levels position
      (expand g words levels name position) tree := by
  induction levels generalizing name position with
  | zero => exact ⟨_, .unexpanded 0 position name [] .tooDeep⟩
  | succ levels ih =>
    rcases choose_cases g words name position with ⟨fault, refused⟩ | ⟨p, rule, rfl, some, chosen⟩
    · rw [expand, bind_of_error refused]
      exact ⟨_, .unexpanded (levels + 1) position name [] fault⟩
    · rw [expand, bind_of_ok chosen]
      obtain ⟨inner, grown⟩ := exists_grown_of_body ih p.body (position + 1)
      exact ⟨_, grown.node rule some⟩

end ContextFree.Sampler
