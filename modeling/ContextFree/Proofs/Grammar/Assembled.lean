import ContextFree.Proofs.Edit.Productions

namespace ContextFree

/-- The nonterminals of the productions one by one, heads before bodies. -/
def Production.nonterminals (productions : List Production) : List String :=
  productions.flatMap fun p => p.head :: p.body.filterMap Symbol.nonterminal?

def Production.terminals (productions : List Production) : List String :=
  productions.flatMap fun p => p.body.filterMap Symbol.terminal?

theorem Production.nonterminals_append (ps qs : List Production) :
    nonterminals (ps ++ qs) = nonterminals ps ++ nonterminals qs := List.flatMap_append

theorem Production.terminals_append (ps qs : List Production) :
    terminals (ps ++ qs) = terminals ps ++ terminals qs := List.flatMap_append

theorem Production.mem_nonterminals {productions : List Production} {name : String} :
    name ∈ nonterminals productions ↔ ∃ p ∈ productions, p.head = name ∨ .nonterminal name ∈ p.body := by
  have inBody : ∀ symbol : Symbol, symbol.nonterminal? = some name ↔ symbol = .nonterminal name := by
    intro symbol
    cases symbol <;> simp [Symbol.nonterminal?]
  simp only [nonterminals, List.mem_flatMap, List.mem_cons, List.mem_filterMap, inBody, exists_eq_right,
    eq_comm (a := name)]

theorem Production.mem_terminals {productions : List Production} {value : String} :
    value ∈ terminals productions ↔ ∃ p ∈ productions, .terminal value ∈ p.body := by
  have inBody : ∀ symbol : Symbol, symbol.terminal? = some value ↔ symbol = .terminal value := by
    intro symbol
    cases symbol <;> simp [Symbol.terminal?]
  simp only [terminals, List.mem_flatMap, List.mem_filterMap, inBody, exists_eq_right]

theorem eraseDups_concat (names : List String) (name : String) :
    (names ++ [name]).eraseDups = if name ∈ names then names.eraseDups else names.eraseDups ++ [name] := by
  rw [List.eraseDups_append]
  split
  · next present => simp [List.removeAll, present]
  · next absent => simp [List.removeAll, absent, List.eraseDups_cons]

theorem Table.names_add_of_eraseDups {table : Table} {names : List String} (same : table.names = names.eraseDups)
    (name : String) : (table.add name).names = (names ++ [name]).eraseDups := by
  simp only [eraseDups_concat, Table.names_add, same, List.mem_eraseDups]

namespace Edit

variable {g : Grammar} {names : List String}

theorem nonterminals_putSymbol (same : g.nonterminals.names = names.eraseDups) (symbol : Symbol) :
    (putSymbol symbol g).nonterminals.names = (names ++ symbol.nonterminal?.toList).eraseDups := by
  cases symbol with
  | nonterminal name => exact Table.names_add_of_eraseDups same name
  | _ => exact same.trans (congrArg List.eraseDups (List.append_nil names).symm)

theorem terminals_putSymbol (same : g.terminals.names = names.eraseDups) (symbol : Symbol) :
    (putSymbol symbol g).terminals.names = (names ++ symbol.terminal?.toList).eraseDups := by
  cases symbol with
  | terminal name => exact Table.names_add_of_eraseDups same name
  | _ => exact same.trans (congrArg List.eraseDups (List.append_nil names).symm)

theorem nonterminals_putBody (same : g.nonterminals.names = names.eraseDups) (body : Body) :
    (putBody body g).nonterminals.names = (names ++ body.filterMap Symbol.nonterminal?).eraseDups := by
  unfold putBody
  induction body generalizing g names with
  | nil => rw [List.filterMap_nil, List.append_nil, List.foldl_nil, same]
  | cons symbol rest ih =>
    rw [List.foldl_cons, ih (nonterminals_putSymbol same symbol), List.filterMap_cons, List.append_assoc]
    cases symbol <;> rfl

theorem terminals_putBody (same : g.terminals.names = names.eraseDups) (body : Body) :
    (putBody body g).terminals.names = (names ++ body.filterMap Symbol.terminal?).eraseDups := by
  unfold putBody
  induction body generalizing g names with
  | nil => rw [List.filterMap_nil, List.append_nil, List.foldl_nil, same]
  | cons symbol rest ih =>
    rw [List.foldl_cons, ih (terminals_putSymbol same symbol), List.filterMap_cons, List.append_assoc]
    cases symbol <;> rfl

end Edit

namespace Grammar

open Edit

theorem nonterminals_added {g : Grammar} {names : List String} (same : g.nonterminals.names = names.eraseDups)
    (p : Production) : (g.added p).nonterminals.names = (names ++ Production.nonterminals [p]).eraseDups := by
  have head : (putNonterminal p.head g).nonterminals.names = (names ++ [p.head]).eraseDups :=
    Table.names_add_of_eraseDups same p.head
  rw [Production.nonterminals, List.flatMap_singleton, List.append_cons]
  exact nonterminals_putBody head p.body

theorem terminals_added {g : Grammar} {names : List String} (same : g.terminals.names = names.eraseDups)
    (p : Production) : (g.added p).terminals.names = (names ++ Production.terminals [p]).eraseDups := by
  have before : (putNonterminal p.head g).terminals.names = names.eraseDups := same
  rw [Production.terminals, List.flatMap_singleton]
  exact terminals_putBody before p.body

/-- The start symbol is the first of the table. -/
def Led (g : Grammar) : Prop := g.start = g.nonterminals.names.head?

structure Assembled (g : Grammar) : Prop where
  nonterminals : g.nonterminals.names = (Production.nonterminals g.productions).eraseDups
  terminals : g.terminals.names = (Production.terminals g.productions).eraseDups
  start : g.start = g.productions.head?.map Production.head

namespace Assembled

variable {g : Grammar} {p : Production}

theorem empty (kind : Kind) : Assembled { kind } := ⟨rfl, rfl, rfl⟩

theorem attributed (assembled : g.Assembled) (attributes : AttributeTable) :
    ({ g with attributes } : Grammar).Assembled :=
  ⟨assembled.nonterminals, assembled.terminals, assembled.start⟩

theorem added (assembled : g.Assembled) (p : Production) : (g.added p).Assembled where
  nonterminals := by
    rw [productions_added, Production.nonterminals_append]
    exact nonterminals_added assembled.nonterminals p
  terminals := by
    rw [productions_added, Production.terminals_append]
    exact terminals_added assembled.terminals p
  start := by
    rw [start_added, productions_added, List.head?_append, assembled.start]
    cases g.productions <;> rfl

theorem mem_nonterminals (assembled : g.Assembled) {name : String} :
    name ∈ g.nonterminals ↔ name ∈ Production.nonterminals g.productions := by
  change name ∈ g.nonterminals.names ↔ _
  rw [assembled.nonterminals, List.mem_eraseDups]

theorem mem_terminals (assembled : g.Assembled) {value : String} :
    value ∈ g.terminals ↔ value ∈ Production.terminals g.productions := by
  change value ∈ g.terminals.names ↔ _
  rw [assembled.terminals, List.mem_eraseDups]

theorem led (assembled : g.Assembled) : g.Led := by
  rw [Led, assembled.start, assembled.nonterminals]
  cases g.productions with
  | nil => rfl
  | cons p rest =>
    rw [Production.nonterminals, List.flatMap_cons, List.cons_append, List.eraseDups_cons]
    rfl

end Assembled

end Grammar

end ContextFree
