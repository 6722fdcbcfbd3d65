import ContextFree.Proofs.Edit.Productions

namespace ContextFree.Grammar

/-- What every grammar put together by additions promises: no production mentions an unknown name,
and the start symbol is a known one, which is set as soon as there is a production. -/
structure Coherent (g : Grammar) : Prop where
  closed : g.Closed
  start_known : ∀ name, g.start = some name → name ∈ g.nonterminals
  started : g.productions ≠ [] → ∃ name, g.start = some name

variable {g : Grammar}

theorem hasSymbol_productions {productions : List Production} {symbol : Symbol} :
    ({ g with productions } : Grammar).hasSymbol symbol ↔ g.hasSymbol symbol := by
  cases symbol <;> exact Iff.rfl

def StartKnown (g : Grammar) : Prop := ∀ name, g.start = some name → name ∈ g.nonterminals

theorem StartKnown.added (known : g.StartKnown) (p : Production) : (g.added p).StartKnown := by
  intro name same
  show (g.added p).hasSymbol (.nonterminal name)
  rw [hasSymbol_added]
  rw [start_added] at same
  cases start : g.start with
  | none =>
    rw [start] at same
    cases same
    exact Or.inr (Or.inl rfl)
  | some first =>
    rw [start] at same
    cases same
    exact Or.inr (Or.inr (known name start))

namespace Closed

theorem attributed (closed : g.Closed) (attributes : AttributeTable) : ({ g with attributes } : Grammar).Closed := by
  intro p rule
  refine ⟨(closed p rule).1, fun symbol inBody => ?_⟩
  have known := (closed p rule).2 symbol inBody
  cases symbol <;> exact known

theorem with_productions {productions : List Production}
    (known : ∀ p ∈ productions, p.head ∈ g.nonterminals ∧ ∀ symbol ∈ p.body, g.hasSymbol symbol) :
    ({ g with productions } : Grammar).Closed :=
  fun p rule => ⟨(known p rule).1, fun symbol inBody => hasSymbol_productions.2 ((known p rule).2 symbol inBody)⟩

theorem of_no_productions (none : g.productions = []) : g.Closed := by
  intro p rule
  rw [none] at rule
  cases rule

end Closed

namespace Coherent

theorem attributed (coherent : g.Coherent) (attributes : AttributeTable) :
    ({ g with attributes } : Grammar).Coherent where
  closed := coherent.closed.attributed attributes
  start_known := coherent.start_known
  started := coherent.started

theorem with_productions (coherent : g.Coherent) {productions : List Production}
    (known : ∀ p ∈ productions, p.head ∈ g.nonterminals ∧ ∀ symbol ∈ p.body, g.hasSymbol symbol)
    (some : productions ≠ [] → g.productions ≠ []) : ({ g with productions } : Grammar).Coherent where
  closed := Closed.with_productions known
  start_known := coherent.start_known
  started any := coherent.started (some any)

theorem of_no_productions (none : g.productions = []) (known : g.StartKnown) : g.Coherent where
  closed := .of_no_productions none
  start_known := known
  started some := absurd none some

theorem added (coherent : g.Coherent) (p : Production) : (g.added p).Coherent where
  closed := coherent.closed.added p
  start_known := StartKnown.added coherent.start_known p
  started _ := by
    rw [start_added]
    cases g.start with
    | none => exact ⟨p.head, rfl⟩
    | some first => exact ⟨first, rfl⟩

end Coherent

/-- Every name in the tables is put to use: nonterminals head productions and terminals stand in
bodies. -/
structure Tight (g : Grammar) : Prop where
  headed : ∀ name ∈ g.nonterminals, ∃ p ∈ g.productions, p.head = name
  placed : ∀ token ∈ g.terminals, ∃ p ∈ g.productions, .terminal token ∈ p.body

namespace Tight

theorem added (tight : g.Tight) {p : Production} (known : ∀ name, .nonterminal name ∈ p.body → name ∈ g.nonterminals) :
    (g.added p).Tight where
  headed name present := by
    rw [productions_added]
    have origin : name ∈ g.nonterminals ∨ p.head = name := by
      rcases (@hasSymbol_added g p (.nonterminal name)).1 present with inBody | same | old
      · exact Or.inl (known name inBody)
      · cases same
        exact Or.inr rfl
      · exact Or.inl old
    rcases origin with old | same
    · obtain ⟨q, rule, same⟩ := tight.headed name old
      exact ⟨q, List.mem_append_left _ rule, same⟩
    · exact ⟨p, List.mem_append_right _ (List.mem_singleton_self p), same⟩
  placed token present := by
    rw [productions_added]
    rcases (@hasSymbol_added g p (.terminal token)).1 present with inBody | same | old
    · exact ⟨p, List.mem_append_right _ (List.mem_singleton_self p), inBody⟩
    · cases same
    · obtain ⟨q, rule, inBody⟩ := tight.placed token old
      exact ⟨q, List.mem_append_left _ rule, inBody⟩

theorem with_productions (tight : g.Tight) {productions : List Production}
    (heads : ∀ p ∈ g.productions, ∃ q ∈ productions, q.head = p.head)
    (tokens : ∀ p ∈ g.productions, ∀ token, .terminal token ∈ p.body → ∃ q ∈ productions, .terminal token ∈ q.body) :
    ({ g with productions } : Grammar).Tight where
  headed name present := by
    obtain ⟨p, rule, rfl⟩ := tight.headed name present
    exact heads p rule
  placed token present := by
    obtain ⟨p, rule, inBody⟩ := tight.placed token present
    exact tokens p rule token inBody

end Tight

/-- Up to attributes, the second grammar is the first one with those of the rules added that it did
not have. -/
structure Adds (rules : List Production) (g h : Grammar) : Prop where
  kind : h.kind = g.kind
  productions : h.productions = rules.foldl Production.keepNew g.productions
  start : ∀ name, g.start = some name → h.start = some name
  symbols : ∀ symbol, g.hasSymbol symbol → h.hasSymbol symbol
  coherent : g.Coherent → h.Coherent

namespace Adds

variable {rules more : List Production} {g h k : Grammar}

theorem nil (attributes : AttributeTable) : Adds [] g { g with attributes } where
  kind := rfl
  productions := rfl
  start _ same := same
  symbols symbol present := by cases symbol <;> exact present
  coherent coherent := coherent.attributed attributes

theorem trans (first : Adds rules g h) (second : Adds more h k) : Adds (rules ++ more) g k where
  kind := second.kind.trans first.kind
  productions := by rw [second.productions, first.productions, List.foldl_append]
  start name same := second.start name (first.start name same)
  symbols symbol present := second.symbols symbol (first.symbols symbol present)
  coherent coherent := second.coherent (first.coherent coherent)

theorem addedNew (g : Grammar) (p : Production) : Adds [p] g (g.addedNew p) := by
  have productions : (g.addedNew p).productions = Production.keepNew g.productions p := productions_addedNew
  rcases addedNew_cases g p with same | new
  · rw [same] at productions ⊢
    exact ⟨rfl, productions, fun _ start => start, fun _ present => present, id⟩
  · rw [new] at productions ⊢
    refine ⟨kind_added, productions, ?_, ?_, fun coherent => coherent.added p⟩
    · intro name start
      rw [start_added, start]
      rfl
    · intro symbol present
      exact hasSymbol_added.2 (Or.inr (Or.inr present))

theorem of_forM {α : Type} {edit : α → Edit Unit} {rulesOf : α → List Production} {items : List α} {u : Unit}
    (round : ∀ x ∈ items, ∀ {g h : Grammar}, (edit x).Succeeds g () h → Adds (rulesOf x) g h)
    (ran : (items.forM edit).Succeeds g u h) : Adds (items.flatMap rulesOf) g h := by
  induction items generalizing g with
  | nil =>
    rw [← Edit.succeeds_forM_nil.1 ran]
    exact nil g.attributes
  | cons x rest ih =>
    obtain ⟨k, first, others⟩ := Edit.succeeds_forM_cons.1 ran
    rw [List.flatMap_cons]
    apply (round x List.mem_cons_self first).trans
    exact ih (fun y member => round y (List.mem_cons_of_mem x member)) others

theorem of_addNewRules {u : Unit} (ran : (rules.forM Edit.addNewRule).Succeeds g u h) :
    Adds rules g h := by
  have each : Adds (rules.flatMap fun p => [p]) g h := by
    apply of_forM _ ran
    intro p _ g h one
    rw [Edit.Succeeds.addNewRule one]
    exact addedNew g p
  rwa [List.flatMap_singleton'] at each

theorem productions_of_nil (adds : Adds rules g h) (none : g.productions = []) :
    h.productions = Production.distinctRules rules := by
  rw [adds.productions, none, Production.distinctRules_eq]

end Adds

end ContextFree.Grammar
