import ContextFree.Edit.Productions
import ContextFree.Proofs.Derivation.Rules
import ContextFree.Proofs.Edit.Success

namespace ContextFree

namespace Edit

def putSymbol : Symbol → Grammar → Grammar
  | .terminal name, g => putTerminal name g
  | .nonterminal name, g => putNonterminal name g
  | .empty, g => g

def putBody (body : Body) (g : Grammar) : Grammar := body.foldl (fun h symbol => putSymbol symbol h) g

theorem hasSymbol_putSymbol {g : Grammar} {symbol other : Symbol} :
    (putSymbol symbol g).hasSymbol other ↔ other = symbol ∨ g.hasSymbol other := by
  cases symbol <;> cases other <;>
    simp [putSymbol, putTerminal, putNonterminal, Grammar.hasSymbol]

theorem hasSymbol_putBody {body : Body} {g : Grammar} {symbol : Symbol} :
    (putBody body g).hasSymbol symbol ↔ symbol ∈ body ∨ g.hasSymbol symbol := by
  unfold putBody
  induction body generalizing g with
  | nil => simp
  | cons first rest ih => rw [List.foldl_cons, ih, hasSymbol_putSymbol, List.mem_cons, or_left_comm, or_assoc]

theorem putSymbol_of_known {g : Grammar} {symbol : Symbol} (known : g.hasSymbol symbol) : putSymbol symbol g = g := by
  cases symbol with
  | terminal name =>
    have same : g.terminals.add name = g.terminals := Table.add_of_mem known
    rw [putSymbol, putTerminal, same]
  | nonterminal name =>
    have same : g.nonterminals.add name = g.nonterminals := Table.add_of_mem known
    rw [putSymbol, putNonterminal, same]
  | empty => rfl

theorem putBody_of_known {g : Grammar} {body : Body} (known : ∀ symbol ∈ body, g.hasSymbol symbol) :
    putBody body g = g := by
  unfold putBody
  induction body with
  | nil => rfl
  | cons symbol rest ih =>
    rw [List.foldl_cons, putSymbol_of_known (known symbol List.mem_cons_self)]
    exact ih fun other member => known other (List.mem_cons_of_mem symbol member)

theorem putBody_rest (body : Body) (g : Grammar) :
    (putBody body g).kind = g.kind ∧ (putBody body g).start = g.start ∧
      (putBody body g).productions = g.productions ∧ (putBody body g).attributes = g.attributes := by
  unfold putBody
  induction body generalizing g with
  | nil => exact ⟨rfl, rfl, rfl, rfl⟩
  | cons first rest ih =>
    rw [List.foldl_cons]
    have step := ih (putSymbol first g)
    cases first <;> exact step

theorem addSymbol_run {symbol : Symbol} (legal : Name.check symbol = .ok ()) (g : Grammar) :
    addSymbol symbol g = ⟨.ok (), putSymbol symbol g, []⟩ := by
  cases symbol with
  | terminal name =>
    have checked : Name.checkValue name = .ok () := legal
    simp only [addSymbol, addTerminal, checked, require, bind_run, done, change_run, grammar_run,
      pure_run, List.append_nil]
    rfl
  | nonterminal name =>
    have checked : Name.checkNonterminal name = .ok () := legal
    simp only [addSymbol, addNonterminal, checked, require, bind_run, done, change_run, grammar_run,
      pure_run, List.append_nil]
    rfl
  | empty => rfl

theorem addSymbol_refused {symbol : Symbol} {fault : Fault} (illegal : Name.check symbol = .error fault) (g : Grammar) :
    addSymbol symbol g = ⟨.error fault, g, []⟩ := by
  cases symbol with
  | terminal name =>
    have checked : Name.checkValue name = .error fault := illegal
    simp only [addSymbol, addTerminal, checked, require, bind_run, refuse_run]
  | nonterminal name =>
    have checked : Name.checkNonterminal name = .error fault := illegal
    simp only [addSymbol, addNonterminal, checked, require, bind_run, refuse_run]
  | empty => cases illegal

theorem addBody_run {body : Body} (legal : ∀ symbol ∈ body, Name.check symbol = .ok ()) (g : Grammar) :
    (body.forM addSymbol) g = ⟨.ok (), putBody body g, []⟩ := by
  rw [List.forM_eq_forM]
  induction body generalizing g with
  | nil => rfl
  | cons first rest ih =>
    have more := ih (fun symbol member => legal symbol (List.mem_cons_of_mem first member))
      (putSymbol first g)
    rw [List.forM_cons, bind_of_ok (addSymbol_run (legal first List.mem_cons_self) g), more]
    rfl

theorem forM_check_iff {body : Body} :
    body.forM Name.check = .ok () ↔ ∀ symbol ∈ body, Name.check symbol = .ok () := by
  rw [List.forM_eq_forM]
  induction body with
  | nil => simp [pure, Except.pure]
  | cons first rest ih =>
    rw [List.forM_cons, List.forall_mem_cons, ← ih]
    cases Name.check first <;> simp [bind, Except.bind]

theorem checkProduction_iff {p : Production} : checkProduction p = .ok () ↔
    p.body ≠ [] ∧ Name.checkNonterminal p.head = .ok () ∧
      (∀ symbol ∈ p.body, Name.check symbol = .ok ()) ∧ p.weight.check = .ok () := by
  rw [checkProduction, ← forM_check_iff, ← List.isEmpty_eq_false_iff]
  cases p.body.isEmpty <;> cases Name.checkNonterminal p.head <;>
    cases p.body.forM Name.check <;> simp [bind, Except.bind]

end Edit

namespace Grammar

open Edit

def added (g : Grammar) (p : Production) : Grammar :=
  append p { putBody p.body (putNonterminal p.head g) with start := g.start.or (some p.head) }

variable {g : Grammar} {p : Production}

@[simp] theorem productions_added : (g.added p).productions = g.productions ++ [p] := by
  have same := (putBody_rest p.body (putNonterminal p.head g)).2.2.1
  simp only [added, append, same]
  rfl

@[simp] theorem kind_added : (g.added p).kind = g.kind := (putBody_rest p.body _).1

@[simp] theorem attributes_added : (g.added p).attributes = g.attributes := (putBody_rest p.body _).2.2.2

@[simp] theorem start_added : (g.added p).start = g.start.or (some p.head) := rfl

@[simp] theorem hasSymbol_added {symbol : Symbol} : (g.added p).hasSymbol symbol ↔
    symbol ∈ p.body ∨ symbol = .nonterminal p.head ∨ g.hasSymbol symbol := by
  have tables : (g.added p).hasSymbol symbol ↔
      (putBody p.body (putNonterminal p.head g)).hasSymbol symbol := by
    cases symbol <;> exact Iff.rfl
  have head : (putNonterminal p.head g).hasSymbol symbol ↔ symbol = .nonterminal p.head ∨ g.hasSymbol symbol :=
    @hasSymbol_putSymbol g (.nonterminal p.head) symbol
  rw [tables, hasSymbol_putBody, head]

theorem Closed.added (closed : g.Closed) (p : Production) : (g.added p).Closed := by
  intro q member
  have mentioned : ∀ symbol, symbol = .nonterminal q.head ∨ symbol ∈ q.body → (g.added p).hasSymbol symbol := by
    rw [productions_added, List.mem_append, List.mem_singleton] at member
    intro symbol mention
    rw [hasSymbol_added]
    rcases member with old | rfl
    · have known := closed q old
      rcases mention with rfl | inBody
      · exact Or.inr (Or.inr known.1)
      · exact Or.inr (Or.inr (known.2 symbol inBody))
    · exact mention.elim (fun same => Or.inr (Or.inl same)) Or.inl
  exact ⟨mentioned _ (Or.inl rfl), fun symbol inBody => mentioned symbol (Or.inr inBody)⟩

def inserted (g : Grammar) (index : Nat) (p : Production) : Grammar :=
  { g.added p with productions := g.productions.insertIdx index p }

def addedNew (g : Grammar) (p : Production) : Grammar :=
  if g.productions.any (·.sameRule p) then g else g.added p

theorem productions_addedNew : (g.addedNew p).productions = Production.keepNew g.productions p := by
  unfold addedNew Production.keepNew
  split
  · rfl
  · exact productions_added

theorem addedNew_cases (g : Grammar) (p : Production) : g.addedNew p = g ∨ g.addedNew p = g.added p := by
  unfold addedNew
  split
  · exact Or.inl rfl
  · exact Or.inr rfl

theorem added_of_known (head : p.head ∈ g.nonterminals) (body : ∀ symbol ∈ p.body, g.hasSymbol symbol)
    (started : ∃ name, g.start = some name) : g.added p = { g with productions := g.productions ++ [p] } := by
  obtain ⟨name, start⟩ := started
  have front : putNonterminal p.head g = g := @putSymbol_of_known g (.nonterminal p.head) head
  rw [added, front, putBody_of_known body, append, start, Option.some_or, ← start]

theorem addedNew_of_known (head : p.head ∈ g.nonterminals) (body : ∀ symbol ∈ p.body, g.hasSymbol symbol)
    (started : ∃ name, g.start = some name) :
    g.addedNew p = { g with productions := Production.keepNew g.productions p } := by
  unfold addedNew Production.keepNew
  split
  · rfl
  · exact added_of_known head body started

end Grammar

namespace Edit

variable {g h : Grammar} {p : Production} {u : Unit}

theorem addNames_run (legal : checkProduction p = .ok ()) (g : Grammar) : addNames p g =
    ⟨.ok (), { putBody p.body (putNonterminal p.head g) with start := g.start.or (some p.head) }, []⟩ := by
  obtain ⟨-, head, symbols, -⟩ := checkProduction_iff.1 legal
  have first : addNonterminal p.head g =
      ⟨.ok (((putNonterminal p.head g).nonterminals.index? p.head).getD 0), putNonterminal p.head g, []⟩ := by
    simp only [addNonterminal, head, require, bind_run, done, change_run, grammar_run, pure_run,
      List.append_nil]
  have start := (putBody_rest p.body (putNonterminal p.head g)).2.1
  rw [addNames, bind_of_ok first, bind_of_ok (addBody_run symbols _)]
  simp only [change_run, start, List.append_nil]
  rfl

theorem addProduction_run (legal : checkProduction p = .ok ()) (g : Grammar) :
    addProduction p g = ⟨.ok (), g.added p, []⟩ := by
  rw [addProduction, legal, bind_of_ok (show require (.ok ()) g = ⟨.ok (), g, []⟩ from rfl),
    bind_of_ok (addNames_run legal g)]
  rfl

theorem addProduction_refused {fault : Fault} (illegal : checkProduction p = .error fault) (g : Grammar) :
    addProduction p g = ⟨.error fault, g, []⟩ := by
  rw [addProduction, illegal]
  rfl

theorem succeeds_addProduction :
    (addProduction p).Succeeds g u h ↔ checkProduction p = .ok () ∧ h = g.added p := by
  cases checked : checkProduction p with
  | ok done => simp only [Succeeds, addProduction_run checked, true_and, eq_comm]
  | error fault => simp only [Succeeds, addProduction_refused checked, reduceCtorEq, false_and]

theorem insertProduction_run {index : Nat} (within : index ≤ g.productions.length)
    (legal : checkProduction p = .ok ()) :
    insertProduction index p g = ⟨.ok (), g.inserted index p, []⟩ := by
  have same := (putBody_rest p.body (putNonterminal p.head g)).2.2.1
  rw [insertProduction, bind_of_ok (grammar_run g), inRange, if_pos (Nat.lt_succ_of_le within), bind_of_ok rfl, legal,
    bind_of_ok (show require (.ok ()) g = ⟨.ok (), g, []⟩ from rfl), bind_of_ok (addNames_run legal g),
      change_run, same]
  rfl

theorem insertProduction_refused {index : Nat} {fault : Fault} (within : index ≤ g.productions.length)
    (illegal : checkProduction p = .error fault) : insertProduction index p g = ⟨.error fault, g, []⟩ := by
  rw [insertProduction, bind_of_ok (grammar_run g), inRange, if_pos (Nat.lt_succ_of_le within), bind_of_ok rfl, illegal]
  rfl

theorem insertProduction_misplaced {index : Nat} (beyond : ¬ index ≤ g.productions.length) (p : Production) :
    insertProduction index p g = ⟨.error (.outOfRange .productions index (g.productions.length + 1)), g, []⟩ := by
  have outside : ¬ index < g.productions.length + 1 := fun inside => beyond (Nat.le_of_lt_succ inside)
  rw [insertProduction, bind_of_ok (grammar_run g), inRange, if_neg outside]
  rfl

theorem Succeeds.addNewRule (ran : (addNewRule p).Succeeds g u h) : h = g.addedNew p := by
  unfold Edit.addNewRule Grammar.addedNew at *
  rw [succeeds_bind] at ran
  obtain ⟨_, _, found, ran⟩ := ran
  obtain ⟨rfl, rfl⟩ := succeeds_grammar.1 found
  split at ran
  · next present =>
    rw [if_pos present]
    exact (succeeds_done.1 ran).2.symm
  · next absent =>
    rw [if_neg absent]
    exact (succeeds_addProduction.1 ran).2

end Edit

end ContextFree
