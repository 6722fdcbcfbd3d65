import ContextFree.Chart
import ContextFree.Proofs.Derivation.Basic

namespace ContextFree

section Index

variable {table : Table} {name other : String} {i : Nat}

theorem Table.index?_lt (found : table.index? name = some i) : i < table.size :=
  (List.idxOf?_eq_some_iff.1 found).1

theorem Table.exists_index?_iff : (∃ i, table.index? name = some i) ↔ name ∈ table := by
  rw [← Option.isSome_iff_exists, index?, List.isSome_idxOf?]
  exact Iff.rfl

theorem Table.index?_injective (found : table.index? name = some i) (same : table.index? other = some i) :
    name = other := by
  obtain ⟨inside, first, -⟩ := List.idxOf?_eq_some_iff.1 found
  obtain ⟨_, second, -⟩ := List.idxOf?_eq_some_iff.1 same
  exact first.symm.trans second

end Index

namespace NormalRules

variable {g : Grammar} {p : Production} {rules more : NormalRules}

/-- The number of a nonterminal and the sentences that the rules make of it. -/
inductive Spans (rules : NormalRules) : Nat → Sentence → Prop where
  | token {token : String} {head : Nat} (rule : (token, head) ∈ rules.unary) : Spans rules head [token]
  | pair {head left right : Nat} {first second : Sentence} (rule : (head, left, right) ∈ rules.binary)
    (l : Spans rules left first) (r : Spans rules right second) : Spans rules head (first ++ second)

def IsUnary (g : Grammar) (p : Production) (token : String) (head : Nat) : Prop :=
  p.body = [.terminal token] ∧ g.nonterminals.index? p.head = some head

def IsBinary (g : Grammar) (p : Production) (head left right : Nat) : Prop :=
  g.nonterminals.index? p.head = some head ∧ ∃ first second,
    p.body = [.nonterminal first, .nonterminal second] ∧
      g.nonterminals.index? first = some left ∧ g.nonterminals.index? second = some right

theorem IsUnary.iff {token other : String} {head name : Nat} (unary : IsUnary g p token head) :
    IsUnary g p other name ↔ (other, name) = (token, head) := by
  unfold IsUnary at *
  rw [unary.1, unary.2]
  simp [eq_comm]

theorem IsBinary.iff {head left right name first second : Nat} (binary : IsBinary g p head left right) :
    IsBinary g p name first second ↔ (name, first, second) = (head, left, right) := by
  constructor
  · intro ⟨named, l, r, reads, lefts, rights⟩
    obtain ⟨headed, _, _, body, onLeft, onRight⟩ := binary
    rw [body] at reads
    cases reads
    rw [headed] at named
    rw [onLeft] at lefts
    rw [onRight] at rights
    cases named
    cases lefts
    cases rights
    rfl
  · intro same
    cases same
    exact binary

theorem IsUnary.not_binary {token : String} {head name left right : Nat} (unary : IsUnary g p token head) :
    ¬ IsBinary g p name left right := by
  intro ⟨_, _, _, body, _⟩
  rw [unary.1] at body
  cases body

theorem IsBinary.not_unary {token : String} {head name left right : Nat}
    (binary : IsBinary g p head left right) : ¬ IsUnary g p token name :=
  fun unary => unary.not_binary binary

def IsNumbered (g : Grammar) (p : Production) : Prop :=
  (∃ token head, IsUnary g p token head) ∨ ∃ head left right, IsBinary g p head left right

theorem addRule_of_unary {token : String} {head : Nat} (unary : IsUnary g p token head) (rules : NormalRules) :
    addRule g rules p = .ok { rules with unary := rules.unary ++ [(token, head)] } := by
  rw [addRule, unary.1, unary.2]

theorem addRule_of_binary {head left right : Nat} (binary : IsBinary g p head left right)
    (rules : NormalRules) :
    addRule g rules p = .ok { rules with binary := rules.binary ++ [(head, left, right)] } := by
  obtain ⟨headed, first, second, body, l, r⟩ := binary
  simp only [addRule, headed, body, l, r]

theorem numbered_of_addRule (added : addRule g rules p = .ok more) : IsNumbered g p := by
  unfold addRule at added
  split at added
  · next head token headed body => exact Or.inl ⟨token, head, body, headed⟩
  · next head first second headed body =>
    split at added
    · next left right l r => exact Or.inr ⟨head, left, right, headed, first, second, body, l, r⟩
    · cases added
  · cases added

theorem addRules_ok_iff (productions : List Production) (rules : NormalRules) :
    (∃ more, addRules g productions rules = .ok more) ↔ ∀ p ∈ productions, IsNumbered g p := by
  induction productions generalizing rules with
  | nil => simp [addRules]
  | cons p rest ih =>
    rw [addRules, List.forall_mem_cons]
    cases added : addRule g rules p with
    | ok more =>
      have numbered := numbered_of_addRule added
      simp only [ih more, numbered, true_and]
    | error fault =>
      simp only [reduceCtorEq, exists_false, false_iff, not_and]
      intro numbered
      exfalso
      rcases numbered with ⟨token, head, unary⟩ | ⟨head, left, right, binary⟩
      · rw [addRule_of_unary unary] at added
        cases added
      · rw [addRule_of_binary binary] at added
        cases added

structure Adds (g : Grammar) (productions : List Production) (rules more : NormalRules) : Prop where
  start : more.start = rules.start
  size : more.size = rules.size
  unary : ∀ token head, (token, head) ∈ more.unary ↔
    (token, head) ∈ rules.unary ∨ ∃ p ∈ productions, IsUnary g p token head
  binary : ∀ head left right, (head, left, right) ∈ more.binary ↔
    (head, left, right) ∈ rules.binary ∨ ∃ p ∈ productions, IsBinary g p head left right

theorem adds_of_addRule (added : addRule g rules p = .ok more) : Adds g [p] rules more := by
  rcases numbered_of_addRule added with ⟨token, head, unary⟩ | ⟨head, left, right, binary⟩
  · rw [addRule_of_unary unary] at added
    cases added
    refine ⟨rfl, rfl, fun other name => ?_, fun name first second => ?_⟩
    · simp only [List.mem_append, List.mem_singleton, exists_eq_left, unary.iff]
    · simp only [List.mem_singleton, exists_eq_left, unary.not_binary, or_false]
  · rw [addRule_of_binary binary] at added
    cases added
    refine ⟨rfl, rfl, fun other name => ?_, fun name first second => ?_⟩
    · simp only [List.mem_singleton, exists_eq_left, binary.not_unary, or_false]
    · simp only [List.mem_append, List.mem_singleton, exists_eq_left, binary.iff]

theorem adds_of_addRules {productions : List Production} (added : addRules g productions rules = .ok more) :
    Adds g productions rules more := by
  induction productions generalizing rules with
  | nil =>
    cases added
    exact ⟨rfl, rfl, by simp, by simp⟩
  | cons p rest ih =>
    rw [addRules] at added
    split at added
    · next one first =>
      have before := adds_of_addRule first
      have after := ih added
      refine ⟨after.start.trans before.start, after.size.trans before.size, ?_, ?_⟩
      · intro token head
        rw [after.unary, before.unary]
        simp only [List.mem_cons, List.not_mem_nil, or_false, or_and_right, exists_or, exists_eq_left, or_assoc]
      · intro head left right
        rw [after.binary, before.binary]
        simp only [List.mem_cons, List.not_mem_nil, or_false, or_and_right, exists_or, exists_eq_left, or_assoc]
    · cases added

def IsKnownNormal (g : Grammar) (p : Production) : Prop :=
  Grammar.isNormalBody p.body = true ∧ p.head ∈ g.nonterminals ∧
    ∀ name, .nonterminal name ∈ p.body → name ∈ g.nonterminals

theorem isNumbered_iff : IsNumbered g p ↔ IsKnownNormal g p := by
  unfold IsKnownNormal
  rw [Grammar.isNormalBody_iff]
  constructor
  · intro numbered
    rcases numbered with ⟨token, head, body, headed⟩ | ⟨head, left, right, headed, first, second, body, l, r⟩
    · have known := Table.exists_index?_iff.1 ⟨head, headed⟩
      exact ⟨Or.inl ⟨token, body⟩, known, by simp [body]⟩
    · have known := Table.exists_index?_iff.1 ⟨head, headed⟩
      have knownLeft := Table.exists_index?_iff.1 ⟨left, l⟩
      have knownRight := Table.exists_index?_iff.1 ⟨right, r⟩
      refine ⟨Or.inr ⟨first, second, body⟩, known, fun name inBody => ?_⟩
      rw [body] at inBody
      simp only [List.mem_cons, Symbol.nonterminal.injEq, List.not_mem_nil, or_false] at inBody
      rcases inBody with rfl | rfl
      · exact knownLeft
      · exact knownRight
  · intro ⟨shape, known, names⟩
    obtain ⟨head, headed⟩ := Table.exists_index?_iff.2 known
    rcases shape with ⟨token, body⟩ | ⟨first, second, body⟩
    · exact Or.inl ⟨token, head, body, headed⟩
    · obtain ⟨left, l⟩ := Table.exists_index?_iff.2 (names first (by simp [body]))
      obtain ⟨right, r⟩ := Table.exists_index?_iff.2 (names second (by simp [body]))
      exact Or.inr ⟨head, left, right, headed, first, second, body, l, r⟩

structure Numbers (g : Grammar) (rules : NormalRules) : Prop where
  start : ∃ name, g.start = some name ∧ g.nonterminals.index? name = some rules.start
  size : rules.size = g.nonterminals.size
  numbered : ∀ p ∈ g.productions, IsNumbered g p
  unary : ∀ token head, (token, head) ∈ rules.unary ↔ ∃ p ∈ g.productions, IsUnary g p token head
  binary : ∀ head left right, (head, left, right) ∈ rules.binary ↔
    ∃ p ∈ g.productions, IsBinary g p head left right

theorem numbers_of_ofGrammar (made : ofGrammar g = .ok rules) : Numbers g rules := by
  unfold ofGrammar at made
  split at made
  · next start found =>
    obtain ⟨name, started, number⟩ := Option.bind_eq_some_iff.1 found
    have adds := adds_of_addRules made
    have numbered := (addRules_ok_iff _ _).1 ⟨rules, made⟩
    refine ⟨⟨name, started, ?_⟩, adds.size, numbered, ?_, ?_⟩
    · rw [adds.start]
      exact number
    · intro token head
      simp only [adds.unary, List.not_mem_nil, false_or]
    · intro head left right
      simp only [adds.binary, List.not_mem_nil, false_or]
  · cases made

theorem exists_ofGrammar_iff : (∃ rules, ofGrammar g = .ok rules) ↔
    (∃ start, g.start = some start ∧ start ∈ g.nonterminals) ∧ ∀ p ∈ g.productions, IsKnownNormal g p := by
  unfold ofGrammar
  cases found : g.start.bind g.nonterminals.index? with
  | some start =>
    obtain ⟨name, started, number⟩ := Option.bind_eq_some_iff.1 found
    have known := Table.exists_index?_iff.1 ⟨start, number⟩
    simp only [addRules_ok_iff, isNumbered_iff]
    exact ⟨fun all => ⟨⟨name, started, known⟩, all⟩, And.right⟩
  | none =>
    refine ⟨fun ⟨_, absent⟩ => (nomatch absent), fun ⟨⟨name, started, known⟩, _⟩ => ?_⟩
    obtain ⟨number, isThere⟩ := Table.exists_index?_iff.2 known
    rw [started, Option.bind_some, isThere] at found
    cases found

namespace Numbers

theorem derives_of_spans (numbers : Numbers g rules) {head : Nat} {w : Sentence}
    (spans : Spans rules head w) {name : String} (headed : g.nonterminals.index? name = some head) :
    g.DerivesFrom name w := by
  induction spans generalizing name with
  | token rule =>
    obtain ⟨p, member, body, number⟩ := (numbers.unary _ _).1 rule
    rw [Table.index?_injective headed number]
    exact .of_rule member (body ▸ Derives.terminal_iff.2 rfl)
  | pair rule _ _ first second =>
    obtain ⟨p, member, number, left, right, body, l, r⟩ := (numbers.binary _ _ _).1 rule
    rw [Table.index?_injective headed number]
    exact .of_rule member (body ▸ Derives.pair_iff.2 ⟨_, _, rfl, first l, second r⟩)

def BodySpans (g : Grammar) (rules : NormalRules) : Body → Sentence → Prop
  | [], w => w = []
  | .empty :: rest, w => BodySpans g rules rest w
  | .terminal token :: rest, w => ∃ tail, w = token :: tail ∧ BodySpans g rules rest tail
  | .nonterminal name :: rest, w => ∃ first second, w = first ++ second ∧
    (∀ head, g.nonterminals.index? name = some head → Spans rules head first) ∧ BodySpans g rules rest second

theorem bodySpans_of_derives (numbers : Numbers g rules) {body : Body} {w : Sentence}
    (d : Derives g.productions body w) : BodySpans g rules body w := by
  induction d with
  | nil => rfl
  | empty _ ih => exact ih
  | terminal _ ih => exact ⟨_, rfl, ih⟩
  | @expand p rest first second rule _ _ inner tail =>
    refine ⟨first, second, rfl, fun head headed => ?_, tail⟩
    -- The rule is numbered, so the inner body is a token or a pair, and `inner` spans it.
    rcases numbers.numbered p rule with ⟨token, other, unary⟩ | ⟨other, left, right, binary⟩
    · have listed := (numbers.unary token other).2 ⟨p, rule, unary⟩
      obtain ⟨body, number⟩ := unary
      rw [headed] at number
      cases number
      rw [body] at inner
      obtain ⟨_, rfl, rfl⟩ := inner
      exact .token listed
    · have listed := (numbers.binary other left right).2 ⟨p, rule, binary⟩
      obtain ⟨number, l, r, body, onLeft, onRight⟩ := binary
      rw [headed] at number
      cases number
      rw [body] at inner
      obtain ⟨u, _, rfl, lefts, v, _, rfl, rights, rfl⟩ := inner
      rw [List.append_nil]
      exact .pair listed (lefts left onLeft) (rights right onRight)

theorem spans_iff (numbers : Numbers g rules) {name : String} {head : Nat} {w : Sentence}
    (headed : g.nonterminals.index? name = some head) : Spans rules head w ↔ g.DerivesFrom name w := by
  constructor
  · intro spans
    exact numbers.derives_of_spans spans headed
  · intro d
    obtain ⟨first, _, rfl, spans, rfl⟩ := numbers.bodySpans_of_derives d
    rw [List.append_nil]
    exact spans head headed

theorem spans_start_iff (numbers : Numbers g rules) {w : Sentence} :
    Spans rules rules.start w ↔ g.Generates w := by
  obtain ⟨name, started, number⟩ := numbers.start
  rw [numbers.spans_iff number]
  constructor
  · exact fun d => ⟨name, started, d⟩
  · intro ⟨other, same, d⟩
    rw [started] at same
    cases same
    exact d

end Numbers

end NormalRules

end ContextFree
