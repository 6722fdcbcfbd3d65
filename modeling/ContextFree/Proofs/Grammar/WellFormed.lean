import ContextFree.Proofs.Grammar.Orderly

namespace ContextFree.Grammar

open Edit

variable {g h : Grammar} {p : Production} {name : String} {symbol : Symbol}

/-- What is owed whatever the productions are. All names in the tables are legal, the start symbol is
one of them, and so is every name with attributes. These are lowercase letters, none of them both
inherited and synthesized. -/
structure Grounded (g : Grammar) : Prop where
  names : ∀ symbol, g.hasSymbol symbol → Name.check symbol = .ok ()
  start_known : g.StartKnown
  tabled : g.Tabled
  apart : ∀ name, (g.attributesOf name).Apart
  lowercase : ∀ name, (g.attributesOf name).Lowercase

/-- Moreover, productions are legal and mention nothing but what the tables hold. -/
structure Lawful (g : Grammar) : Prop extends Grounded g where
  closed : g.Closed
  legal : ∀ p ∈ g.productions, p.Legal

/-- Moreover, no production stands without a body. -/
structure WellFormed (g : Grammar) : Prop extends Lawful g where
  filled : ∀ p ∈ g.productions, p.body ≠ []

theorem Closed.grown (closed : g.Closed) (productions : h.productions = g.productions)
    (symbols : ∀ symbol, g.hasSymbol symbol → h.hasSymbol symbol) : h.Closed := by
  intro p rule
  rw [productions] at rule
  have known := closed p rule
  exact ⟨symbols (.nonterminal p.head) known.1, fun symbol inBody => symbols symbol (known.2 symbol inBody)⟩

namespace Grounded

theorem new (kind : Kind) : ({ kind } : Grammar).Grounded where
  names symbol present := by
    cases symbol with
    | empty => rfl
    | _ => exact absurd present (Table.not_mem_empty _)
  start_known _ none := nomatch none
  tabled _ _ none := nomatch none
  apart _ := Attributes.apart_empty
  lowercase _ := Attributes.lowercase_empty

theorem grown (grounded : g.Grounded) (attributes : h.attributes = g.attributes) (start : h.StartKnown)
    (symbols : ∀ symbol, g.hasSymbol symbol → h.hasSymbol symbol)
    (names : ∀ symbol, h.hasSymbol symbol → g.hasSymbol symbol ∨ Name.check symbol = .ok ()) : h.Grounded := by
  have same : ∀ name, h.attributesOf name = g.attributesOf name := by
    intro name
    rw [attributesOf, attributesOf?, attributes]
    rfl
  refine ⟨fun symbol present => ?_, start, fun name found entry => ?_, fun name => ?_, fun name => ?_⟩
  · exact (names symbol present).elim (grounded.names symbol) id
  · rw [attributesOf?, attributes] at entry
    exact symbols (.nonterminal name) (grounded.tabled name found entry)
  · rw [same]
    exact grounded.apart name
  · rw [same]
    exact grounded.lowercase name

theorem with_productions (grounded : g.Grounded) (productions : List Production) :
    ({ g with productions } : Grammar).Grounded :=
  grounded.grown rfl grounded.start_known (fun _ => hasSymbol_productions.2) fun _ present =>
    Or.inl (hasSymbol_productions.1 present)

theorem added (grounded : g.Grounded) (legal : p.Legal) : (g.added p).Grounded := by
  apply grounded.grown attributes_added (StartKnown.added grounded.start_known p)
  · intro symbol present
    exact hasSymbol_added.2 (Or.inr (Or.inr present))
  · intro symbol present
    rcases hasSymbol_added.1 present with inBody | rfl | old
    · exact Or.inr (legal.body symbol inBody)
    · exact Or.inr legal.head
    · exact Or.inl old

theorem putSymbol (grounded : g.Grounded) (legal : Name.check symbol = .ok ()) :
    (Edit.putSymbol symbol g).Grounded := by
  have rest : (Edit.putSymbol symbol g).attributes = g.attributes ∧ (Edit.putSymbol symbol g).start = g.start := by
    cases symbol <;> exact ⟨rfl, rfl⟩
  apply grounded.grown rest.1
  · intro name same
    rw [rest.2] at same
    have present : g.hasSymbol (.nonterminal name) := grounded.start_known name same
    exact (@hasSymbol_putSymbol g symbol (.nonterminal name)).2 (Or.inr present)
  · intro other present
    exact hasSymbol_putSymbol.2 (Or.inr present)
  · intro other present
    rcases hasSymbol_putSymbol.1 present with rfl | old
    · exact Or.inr legal
    · exact Or.inl old

theorem started (grounded : g.Grounded) {start : Option String}
    (known : ∀ name, start = some name → name ∈ g.nonterminals) : ({ g with start } : Grammar).Grounded :=
  grounded.grown rfl known (fun symbol present => by cases symbol <;> exact present)
    fun symbol present => Or.inl (by cases symbol <;> exact present)

theorem merged {few : Attributes} (grounded : g.Grounded) (known : name ∈ g.nonterminals) (lowercase : few.Lowercase)
    (apart : (g.attributesOf name).Apart → ((g.attributesOf name).merge few).Apart) :
    (withAttributes name ((g.attributesOf name).merge few) g).Grounded := by
  have sets := sets_withAttributes name ((g.attributesOf name).merge few) g
  refine ⟨fun symbol present => grounded.names symbol ?_, grounded.start_known, grounded.tabled.withAttributes known _,
    sets.forall_attributesOf ?_ grounded.apart, sets.forall_attributesOf ?_ grounded.lowercase⟩
  · cases symbol <;> exact present
  · exact apart (grounded.apart name)
  · exact (grounded.lowercase name).merge lowercase

theorem dropSymbol (grounded : g.Grounded) (other : ∀ name, symbol = .nonterminal name → g.start ≠ some name) :
    (Edit.dropSymbol symbol g).Grounded where
  names found present := grounded.names found (hasSymbol_of_dropSymbol present)
  start_known name same := by
    have start : g.start = some name := by cases symbol <;> exact same
    have present : g.hasSymbol (.nonterminal name) := grounded.start_known name start
    have differs : Symbol.nonterminal name ≠ symbol := fun here => other name here.symm start
    exact hasSymbol_dropSymbol_of_ne differs present
  tabled := grounded.tabled.dropSymbol symbol
  apart := by
    cases symbol with
    | nonterminal name => exact Orderly.forall_attributesOf_dropNonterminal Attributes.apart_empty grounded.apart
    | _ => exact grounded.apart
  lowercase := by
    cases symbol with
    | nonterminal name =>
      exact Orderly.forall_attributesOf_dropNonterminal Attributes.lowercase_empty grounded.lowercase
    | _ => exact grounded.lowercase

theorem pruned (grounded : g.Grounded) : g.pruned.Grounded :=
  pruned_induction (fun _ _ bare before => before.dropSymbol fun name same => (bare name same).1) grounded

theorem lawful (grounded : g.Grounded) (closed : g.Closed)
    (weights : ∀ p ∈ g.productions, p.weight.check = .ok ()) : g.Lawful where
  toGrounded := grounded
  closed := closed
  legal _ rule := Legal.production ⟨grounded.names, weights⟩ closed rule

theorem wellFormed_of_no_productions (grounded : g.Grounded) (none : g.productions = []) : g.WellFormed where
  toGrounded := grounded
  closed := .of_no_productions none
  legal p rule := by
    rw [none] at rule
    cases rule
  filled p rule := by
    rw [none] at rule
    cases rule

end Grounded

theorem Lawful.added (lawful : g.Lawful) (legal : p.Legal) : (g.added p).Lawful where
  toGrounded := lawful.toGrounded.added legal
  closed := lawful.closed.added p
  legal q rule := by
    rw [productions_added, List.mem_append, List.mem_singleton] at rule
    rcases rule with old | rfl
    · exact lawful.legal q old
    · exact legal

namespace WellFormed

theorem checked (wellFormed : g.WellFormed) (rule : p ∈ g.productions) : checkProduction p = .ok () :=
  Production.checkProduction_iff_legal.2 ⟨wellFormed.filled p rule, wellFormed.legal p rule⟩

theorem of_same_productions (wellFormed : g.WellFormed) (grounded : h.Grounded) (closed : h.Closed)
    (productions : h.productions = g.productions) : h.WellFormed where
  toGrounded := grounded
  closed := closed
  legal := by
    rw [productions]
    exact wellFormed.legal
  filled := by
    rw [productions]
    exact wellFormed.filled

theorem with_productions (wellFormed : g.WellFormed) {productions : List Production}
    (subset : productions ⊆ g.productions) :
    ({ g with productions } : Grammar).WellFormed where
  toGrounded := wellFormed.toGrounded.with_productions productions
  closed := .with_productions fun p rule => wellFormed.closed p (subset rule)
  legal p rule := wellFormed.legal p (subset rule)
  filled p rule := wellFormed.filled p (subset rule)

theorem added (wellFormed : g.WellFormed) (filled : p.body ≠ []) (legal : p.Legal) : (g.added p).WellFormed where
  toLawful := wellFormed.toLawful.added legal
  filled q rule := by
    rw [productions_added, List.mem_append, List.mem_singleton] at rule
    rcases rule with old | rfl
    · exact wellFormed.filled q old
    · exact filled

theorem putSymbol (wellFormed : g.WellFormed) (legal : Name.check symbol = .ok ()) :
    (Edit.putSymbol symbol g).WellFormed := by
  have productions : (Edit.putSymbol symbol g).productions = g.productions := by cases symbol <;> rfl
  apply wellFormed.of_same_productions (wellFormed.toGrounded.putSymbol legal) _ productions
  exact wellFormed.closed.grown productions fun other present => hasSymbol_putSymbol.2 (Or.inr present)

theorem started (wellFormed : g.WellFormed) {start : Option String}
    (known : ∀ name, start = some name → name ∈ g.nonterminals) : ({ g with start } : Grammar).WellFormed := by
  apply wellFormed.of_same_productions (wellFormed.toGrounded.started known) _ rfl
  exact wellFormed.closed.grown rfl fun symbol present => by cases symbol <;> exact present

theorem merged {few : Attributes} (wellFormed : g.WellFormed) (known : name ∈ g.nonterminals)
    (lowercase : few.Lowercase)
    (apart : (g.attributesOf name).Apart → ((g.attributesOf name).merge few).Apart) :
    (withAttributes name ((g.attributesOf name).merge few) g).WellFormed :=
  wellFormed.of_same_productions (wellFormed.toGrounded.merged known lowercase apart)
    (wellFormed.closed.attributed _) rfl

theorem dropSymbol (wellFormed : g.WellFormed) (other : ∀ name, symbol = .nonterminal name → g.start ≠ some name)
    (free : ∀ p ∈ g.productions, .nonterminal p.head ≠ symbol ∧ symbol ∉ p.body) :
    (Edit.dropSymbol symbol g).WellFormed := by
  have productions : (Edit.dropSymbol symbol g).productions = g.productions := by cases symbol <;> rfl
  apply wellFormed.of_same_productions (wellFormed.toGrounded.dropSymbol other) _ productions
  intro p rule
  rw [productions] at rule
  obtain ⟨head, body⟩ := wellFormed.closed p rule
  have head : g.hasSymbol (.nonterminal p.head) := head
  refine ⟨hasSymbol_dropSymbol_of_ne (free p rule).1 head, fun found inBody => ?_⟩
  have differs : found ≠ symbol := fun same => (free p rule).2 (same ▸ inBody)
  exact hasSymbol_dropSymbol_of_ne differs (body found inBody)

theorem pruned (wellFormed : g.WellFormed) : g.pruned.WellFormed :=
  wellFormed.of_same_productions wellFormed.toGrounded.pruned wellFormed.closed.pruned productions_pruned

end WellFormed

end ContextFree.Grammar
