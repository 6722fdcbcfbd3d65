import ContextFree.Proofs.Edit.Attributes
import ContextFree.Reading.Source

namespace ContextFree

def Rule.productions (rule : Rule) : List Production :=
  rule.alternatives.map fun alternative =>
    { head := rule.head, weight := rule.weight, body := alternative.map Occurrence.symbol }

def Attributes.withRules (start : Attributes) (rules : List Rule) (name : String) : Attributes :=
  rules.foldl (fun a rule => if rule.head = name then a.merge rule.attributes else a) start

namespace Reading

open Edit

/-- The attributes that the rules give to a name: all those of the rules that it heads. -/
def declared (rules : List Rule) (name : String) : Attributes := Attributes.withRules ∅ rules name

section Declared

variable {start : Attributes} {rules : List Rule} {name : String} {c : Char}

theorem mem_withRules_ofKind {kind : AttributeKind} : c ∈ (start.withRules rules name).ofKind kind ↔
    c ∈ start.ofKind kind ∨ ∃ rule ∈ rules, rule.head = name ∧ c ∈ rule.attributes.ofKind kind := by
  unfold Attributes.withRules
  induction rules generalizing start with
  | nil => simp
  | cons rule rest ih =>
    rw [List.foldl_cons, ih]
    split
    · next same =>
      simp only [Attributes.mem_merge_ofKind, List.mem_cons, or_and_right, exists_or, exists_eq_left, same, true_and,
        or_assoc]
    · next differs =>
      simp only [List.mem_cons, or_and_right, exists_or, exists_eq_left, differs, false_and, false_or]

theorem mem_declared_ofKind {kind : AttributeKind} : c ∈ (declared rules name).ofKind kind ↔
    ∃ rule ∈ rules, rule.head = name ∧ c ∈ rule.attributes.ofKind kind := by
  rw [declared, mem_withRules_ofKind, or_iff_right (Attributes.not_mem_empty_ofKind kind c)]

theorem apart_of_withRules (apart : (start.withRules rules name).Apart) : start.Apart := by
  intro c inherited synthesized
  refine apart c ?_ ?_
  · exact (@mem_withRules_ofKind start rules name c .inherited).2 (Or.inl inherited)
  · exact (@mem_withRules_ofKind start rules name c .synthesized).2 (Or.inl synthesized)

end Declared

section Rules

variable {g h k : Grammar} {rule : Rule} {rules : List Rule} {u : Unit}

theorem addRule_eq (rule : Rule) :
    addRule rule = rule.productions.forM addProduction >>= fun _ => mergeAttributes rule.head rule.attributes := by
  rw [addRule, Rule.productions, List.forM_eq_forM, List.forM_eq_forM, List.forM_map]

theorem succeeds_addProductions {ps : List Production} : (ps.forM addProduction).Succeeds g u h ↔
    (∀ p ∈ ps, p.body ≠ [] ∧ p.Legal) ∧ h = ps.foldl Grammar.added g := by
  induction ps generalizing g with
  | nil => simp [eq_comm]
  | cons p rest ih =>
    simp only [succeeds_forM_cons, succeeds_addProduction, Production.checkProduction_iff_legal, ih,
      List.forall_mem_cons, List.foldl_cons]
    constructor
    · rintro ⟨_, ⟨fit, rfl⟩, others, rfl⟩
      exact ⟨⟨fit, others⟩, rfl⟩
    · rintro ⟨⟨fit, others⟩, rfl⟩
      exact ⟨_, ⟨fit, rfl⟩, others, rfl⟩

theorem foldl_added (ps : List Production) (g : Grammar) :
    (ps.foldl Grammar.added g).productions = g.productions ++ ps ∧
    (ps.foldl Grammar.added g).attributes = g.attributes := by
  induction ps generalizing g with
  | nil => exact ⟨(List.append_nil _).symm, rfl⟩
  | cons p rest ih =>
    rw [List.foldl_cons, (ih _).1, (ih _).2, Grammar.productions_added, Grammar.attributes_added, List.append_assoc]
    exact ⟨rfl, rfl⟩

theorem hasSymbol_foldl_added {symbol : Symbol} (ps : List Production) (present : g.hasSymbol symbol) :
    (ps.foldl Grammar.added g).hasSymbol symbol := by
  induction ps generalizing g with
  | nil => exact present
  | cons p rest ih => exact ih (Grammar.hasSymbol_added.2 (Or.inr (Or.inr present)))

theorem head_mem_foldl_added {ps : List Production} {p : Production} (member : p ∈ ps) (g : Grammar) :
    p.head ∈ (ps.foldl Grammar.added g).nonterminals := by
  induction ps generalizing g with
  | nil => cases member
  | cons q rest ih =>
    rcases List.mem_cons.1 member with rfl | later
    · exact @hasSymbol_foldl_added (g.added p) (.nonterminal p.head) rest
        (Grammar.hasSymbol_added.2 (Or.inr (Or.inl rfl)))
    · exact ih later _

structure Gains (rules : List Rule) (g h : Grammar) : Prop where
  productions : h.productions = g.productions ++ rules.flatMap Rule.productions
  attributes : ∀ name, h.attributesOf name = (g.attributesOf name).withRules rules name
  legal : ∀ rule ∈ rules, ∀ p ∈ rule.productions, p.body ≠ [] ∧ p.Legal
  apart : (∀ name, (g.attributesOf name).Apart) → ∀ name, (h.attributesOf name).Apart

theorem gains_of_addRule (ran : (addRule rule).Succeeds g u h) : Gains [rule] g h := by
  rw [addRule_eq] at ran
  obtain ⟨_, k, added, merged⟩ := succeeds_bind.1 ran
  obtain ⟨legal, rfl⟩ := succeeds_addProductions.1 added
  obtain ⟨sets, apart⟩ := sets_of_mergeAttributes merged
  obtain ⟨productions, kept⟩ := foldl_added rule.productions g
  have same : ∀ name, (rule.productions.foldl Grammar.added g).attributesOf name = g.attributesOf name := by
    intro name
    rw [Grammar.attributesOf, Grammar.attributesOf?, kept]
    rfl
  rw [same] at sets apart
  refine ⟨?_, fun name => ?_, by simpa using legal, fun before name => ?_⟩
  · obtain ⟨attributes, rfl⟩ := sets.rest
    rw [List.flatMap_singleton]
    exact productions
  · by_cases here : rule.head = name
    · subst here
      exact sets.here.trans (if_pos rfl).symm
    · rw [sets.others name (Ne.symm here), same]
      exact (if_neg here).symm
  · by_cases here : rule.head = name
    · subst here
      rw [sets.here]
      exact apart (before rule.head)
    · rw [sets.others name (Ne.symm here), same]
      exact before name

theorem Gains.nil (g : Grammar) : Gains [] g g :=
  ⟨(List.append_nil _).symm, fun _ => rfl, nofun, id⟩

theorem Gains.cons (first : Gains [rule] g h) (rest : Gains rules h k) : Gains (rule :: rules) g k where
  productions := by
    rw [rest.productions, first.productions, List.append_assoc, ← List.flatMap_append]
    rfl
  attributes name := by
    rw [rest.attributes, first.attributes]
    rfl
  legal := List.forall_mem_cons.2 ⟨first.legal rule List.mem_cons_self, rest.legal⟩
  apart before := rest.apart (first.apart before)

theorem gains_of_addRules (ran : (rules.forM addRule).Succeeds g u h) : Gains rules g h := by
  induction rules generalizing g with
  | nil =>
    rw [← succeeds_forM_nil.1 ran]
    exact .nil g
  | cons rule rest ih =>
    obtain ⟨k, first, others⟩ := succeeds_forM_cons.1 ran
    exact (gains_of_addRule first).cons (ih others)

/-- What a rule has to offer on its own so that it may be added. -/
structure Addable (rule : Rule) : Prop where
  some : rule.alternatives ≠ []
  legal : ∀ p ∈ rule.productions, p.body ≠ [] ∧ p.Legal
  lowercase : rule.attributes.Lowercase

theorem runs_addRule (addable : Addable rule) (apart : ((g.attributesOf rule.head).merge rule.attributes).Apart) :
    (addRule rule).Runs g := by
  rw [addRule_eq]
  refine runs_bind ⟨(), _, succeeds_addProductions.2 ⟨addable.legal, rfl⟩⟩ fun _ k added => ?_
  obtain ⟨-, rfl⟩ := succeeds_addProductions.1 added
  obtain ⟨productions, kept⟩ := foldl_added rule.productions g
  refine runs_mergeAttributes ?_ addable.lowercase ?_
  · obtain ⟨alternative, listed⟩ := List.exists_mem_of_ne_nil _ addable.some
    exact head_mem_foldl_added (List.mem_map_of_mem listed) g
  · rw [Grammar.attributesOf, Grammar.attributesOf?, kept]
    exact apart

theorem runs_addRules (addable : ∀ rule ∈ rules, Addable rule)
    (apart : ∀ name, ((g.attributesOf name).withRules rules name).Apart) : (rules.forM addRule).Runs g := by
  induction rules generalizing g with
  | nil => exact ⟨(), g, succeeds_forM_nil.2 rfl⟩
  | cons rule rest ih =>
    rw [List.forall_mem_cons] at addable
    have here := apart rule.head
    rw [Attributes.withRules, List.foldl_cons, if_pos rfl] at here
    obtain ⟨_, k, first⟩ := runs_addRule addable.1 (apart_of_withRules here)
    obtain ⟨_, h, others⟩ := ih addable.2 fun name => by
      rw [(gains_of_addRule first).attributes]
      exact apart name
    exact ⟨(), h, succeeds_forM_cons.2 ⟨k, first, others⟩⟩

end Rules

end Reading

end ContextFree
