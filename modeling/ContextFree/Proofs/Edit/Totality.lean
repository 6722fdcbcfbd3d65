import ContextFree.Proofs.Grammar.Coherent

namespace ContextFree

namespace Edit

variable {α β : Type} {g h : Grammar}

def Runs (edit : Edit α) (g : Grammar) : Prop := ∃ a h, edit.Succeeds g a h

theorem runs_pure (a : α) (g : Grammar) : (pure a : Edit α).Runs g := ⟨a, g, succeeds_pure.2 ⟨rfl, rfl⟩⟩

theorem runs_report (level : Level) (text : String) (g : Grammar) : (report level text).Runs g :=
  ⟨(), g, succeeds_report.2 rfl⟩

theorem runs_bind {edit : Edit α} {next : α → Edit β} (first : edit.Runs g)
    (more : ∀ a h, edit.Succeeds g a h → (next a).Runs h) : (edit >>= next).Runs g := by
  obtain ⟨a, h, ran⟩ := first
  obtain ⟨b, k, rest⟩ := more a h ran
  exact ⟨b, k, succeeds_bind.2 ⟨a, h, ran, rest⟩⟩

theorem runs_forM {edit : α → Edit Unit} {items : List α} {P : Grammar → Prop} (start : P g)
    (round : ∀ x ∈ items, ∀ g, P g → (edit x).Runs g)
    (keeps : ∀ x ∈ items, ∀ g h, P g → (edit x).Succeeds g () h → P h) : (items.forM edit).Runs g := by
  induction items generalizing g with
  | nil => exact ⟨(), g, succeeds_forM_nil.2 rfl⟩
  | cons x rest ih =>
    obtain ⟨_, h, first⟩ := round x List.mem_cons_self g start
    obtain ⟨_, k, others⟩ := ih (keeps x List.mem_cons_self g h start first)
      (fun y member => round y (List.mem_cons_of_mem x member))
      (fun y member => keeps y (List.mem_cons_of_mem x member))
    exact ⟨(), k, succeeds_forM_cons.2 ⟨h, first, others⟩⟩

theorem grammar_bind {edit : Edit α} {next : α → Edit β} {a : α} (ran : edit.Succeeds g a h) :
    ((edit >>= next) g).grammar = (next a h).grammar := by
  obtain ⟨answered, rfl⟩ := ran
  rcases first : edit g with ⟨result, k, log⟩
  rw [first] at answered
  cases answered
  rw [bind_of_ok first]

/-- What holds of the grammar that a refused or successful edit leaves, if the next edit may rely on
the answer of the first. -/
theorem holds_bind_of_succeeds {edit : Edit α} {next : α → Edit β} {P : Grammar → Prop} (first : P (edit g).grammar)
    (more : ∀ a h, edit.Succeeds g a h → P h → P (next a h).grammar) : P ((edit >>= next) g).grammar := by
  rcases ran : edit g with ⟨result, h, log⟩
  rw [ran] at first
  cases result with
  | error fault =>
    rw [bind_of_error ran]
    exact first
  | ok a =>
    rw [bind_of_ok ran]
    exact more a h (succeeds_of_run ran) first

theorem holds_bind {edit : Edit α} {next : α → Edit β} {P : Grammar → Prop} (first : P (edit g).grammar)
    (more : ∀ a, (next a).Keeps P) : P ((edit >>= next) g).grammar :=
  holds_bind_of_succeeds first fun a h _ => more a h

theorem keeps_bind_of_succeeds {edit : Edit α} {next : α → Edit β} {P : Grammar → Prop} (first : edit.Keeps P)
    (more : ∀ g a h, P g → edit.Succeeds g a h → P h → P (next a h).grammar) : (edit >>= next).Keeps P :=
  fun g holds => holds_bind_of_succeeds (first g holds) fun a h => more g a h holds

end Edit

structure Production.Legal (p : Production) : Prop where
  head : Name.checkNonterminal p.head = .ok ()
  body : ∀ symbol ∈ p.body, Name.check symbol = .ok ()
  weight : p.weight.check = .ok ()

namespace Production

variable {p : Production}

theorem checkProduction_iff_legal : Edit.checkProduction p = .ok () ↔ p.body ≠ [] ∧ p.Legal := by
  rw [Edit.checkProduction_iff]
  constructor
  · rintro ⟨filled, head, body, weight⟩
    exact ⟨filled, head, body, weight⟩
  · rintro ⟨filled, head, body, weight⟩
    exact ⟨filled, head, body, weight⟩

theorem legal_helper {name : String} {body : Body} (head : Name.checkNonterminal name = .ok ())
    (symbols : ∀ symbol ∈ body, Name.check symbol = .ok ()) : ({ head := name, body } : Production).Legal :=
  ⟨head, symbols, rfl⟩

end Production

namespace Grammar

variable {g h : Grammar} {p : Production}

structure Legal (g : Grammar) : Prop where
  names : ∀ symbol, g.hasSymbol symbol → Name.check symbol = .ok ()
  weights : ∀ p ∈ g.productions, p.weight.check = .ok ()

namespace Legal

theorem production (legal : g.Legal) (closed : g.Closed) (rule : p ∈ g.productions) : p.Legal where
  head := legal.names (.nonterminal p.head) (closed p rule).1
  body symbol inBody := legal.names symbol ((closed p rule).2 symbol inBody)
  weight := legal.weights p rule

theorem added (legal : g.Legal) (new : p.Legal) : (g.added p).Legal where
  names symbol present := by
    rcases hasSymbol_added.1 present with inBody | rfl | old
    · exact new.body symbol inBody
    · exact new.head
    · exact legal.names symbol old
  weights q rule := by
    rw [productions_added, List.mem_append, List.mem_singleton] at rule
    rcases rule with old | rfl
    · exact legal.weights q old
    · exact new.weight

theorem of_names (legal : g.Legal) (names : ∀ symbol, h.hasSymbol symbol → g.hasSymbol symbol)
    (weights : ∀ p ∈ h.productions, ∃ q ∈ g.productions, p.weight = q.weight) : h.Legal where
  names symbol present := legal.names symbol (names symbol present)
  weights p rule := by
    obtain ⟨q, old, same⟩ := weights p rule
    rw [same]
    exact legal.weights q old

theorem with_productions (legal : g.Legal) {productions : List Production}
    (weights : ∀ p ∈ productions, ∃ q ∈ g.productions, p.weight = q.weight) :
    ({ g with productions } : Grammar).Legal :=
  legal.of_names (fun _ present => hasSymbol_productions.1 present) weights

theorem attributed (legal : g.Legal) (attributes : AttributeTable) : ({ g with attributes } : Grammar).Legal :=
  legal.of_names (fun symbol present => by cases symbol <;> exact present) fun p rule => ⟨p, rule, rfl⟩

end Legal

end Grammar

namespace Edit

variable {g h : Grammar} {p : Production}

theorem runs_addProduction (filled : p.body ≠ []) (legal : p.Legal) (g : Grammar) : (addProduction p).Runs g :=
  ⟨(), _, succeeds_addProduction.2 ⟨Production.checkProduction_iff_legal.2 ⟨filled, legal⟩, rfl⟩⟩

theorem runs_addNewRule (filled : p.body ≠ []) (legal : p.Legal) (g : Grammar) : (addNewRule p).Runs g := by
  refine runs_bind ⟨g, g, succeeds_grammar.2 ⟨rfl, rfl⟩⟩ fun k h found => ?_
  split
  · exact runs_pure () h
  · exact runs_addProduction filled legal h

theorem runs_addNewRules {rules : List Production} (fit : ∀ p ∈ rules, p.body ≠ [] ∧ p.Legal) (g : Grammar) :
    (rules.forM addNewRule).Runs g :=
  runs_forM (P := fun _ => True) trivial (fun p rule k _ => runs_addNewRule (fit p rule).1 (fit p rule).2 k)
    fun _ _ _ _ _ _ => trivial

theorem holds_addProduction {P : Grammar → Prop} (step : p.body ≠ [] → p.Legal → P (g.added p)) (holds : P g) :
    P (addProduction p g).grammar := by
  cases checked : checkProduction p with
  | ok done =>
    obtain ⟨filled, legal⟩ := Production.checkProduction_iff_legal.1 checked
    rw [addProduction_run checked]
    exact step filled legal
  | error fault =>
    rw [addProduction_refused checked]
    exact holds

theorem keeps_addProduction {P : Grammar → Prop}
    (step : ∀ g, p.body ≠ [] → p.Legal → P g → P (g.added p)) : (addProduction p).Keeps P :=
  fun g holds => holds_addProduction (fun filled legal => step g filled legal holds) holds

theorem keeps_insertProduction {P : Grammar → Prop} {index : Nat}
    (step : ∀ g, p.body ≠ [] → p.Legal → P g → P (g.inserted index p)) : (insertProduction index p).Keeps P := by
  intro g holds
  by_cases within : index ≤ g.productions.length
  · cases checked : checkProduction p with
    | ok done =>
      obtain ⟨filled, legal⟩ := Production.checkProduction_iff_legal.1 checked
      rw [insertProduction_run within checked]
      exact step g filled legal holds
    | error fault =>
      rw [insertProduction_refused within checked]
      exact holds
  · rw [insertProduction_misplaced within]
    exact holds

theorem keeps_addNewRule {P : Grammar → Prop}
    (step : ∀ g, p.body ≠ [] → p.Legal → P g → P (g.added p)) : (addNewRule p).Keeps P := by
  refine keeps_bind keeps_grammar fun k => ?_
  split
  · exact keeps_pure ()
  · exact keeps_addProduction step

end Edit

end ContextFree
