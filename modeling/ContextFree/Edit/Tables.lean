import ContextFree.Edit.Basic
import ContextFree.Name

namespace ContextFree.Edit

def inRange (place : Place) (index size : Nat) : Edit Unit :=
  if index < size then done () else refuse (.outOfRange place index size)

def putNonterminal (name : String) (g : Grammar) : Grammar :=
  { g with nonterminals := g.nonterminals.add name }

def putTerminal (name : String) (g : Grammar) : Grammar :=
  { g with terminals := g.terminals.add name }

def dropNonterminal (name : String) (g : Grammar) : Grammar :=
  { g with nonterminals := g.nonterminals.remove name, attributes := g.attributes.erase name }

def dropTerminal (name : String) (g : Grammar) : Grammar :=
  { g with terminals := g.terminals.remove name }

def addNonterminal (name : String) : Edit Nat := do
  require (Name.checkNonterminal name)
  change (putNonterminal name)
  return ((← grammar).nonterminals.index? name).getD 0

def addTerminal (name : String) : Edit Nat := do
  require (Name.checkValue name)
  change (putTerminal name)
  return ((← grammar).terminals.index? name).getD 0

def addSymbol : Symbol → Edit Unit
  | .terminal name => do let _ ← addTerminal name
  | .nonterminal name => do let _ ← addNonterminal name
  | .empty => done ()

def setStart (name : String) : Edit Unit := do
  let _ ← addNonterminal name
  change fun g => { g with start := some name }

/-- A nonterminal goes together with its attributes; productions that mention it stay. -/
def removeNonterminal (name : String) : Edit Unit := do
  if name ∈ (← grammar).nonterminals then change (dropNonterminal name)
  else refuse (.undefined name)

def removeTerminal (name : String) : Edit Unit := do
  if name ∈ (← grammar).terminals then change (dropTerminal name)
  else refuse (.undefined name)

def removeSymbol : Symbol → Edit Unit
  | .terminal name => removeTerminal name
  | .nonterminal name => removeNonterminal name
  | .empty => done ()

def nameAt (place : Place) (table : Table) (index : Nat) : Except Fault String :=
  match table.names[index]? with
  | some name => .ok name
  | none => .error (.outOfRange place index table.size)

def removeNonterminalAt (index : Nat) : Edit String := do
  let name ← require (nameAt .nonterminals (← grammar).nonterminals index)
  removeNonterminal name
  return name

def removeTerminalAt (index : Nat) : Edit String := do
  let name ← require (nameAt .terminals (← grammar).terminals index)
  removeTerminal name
  return name

def dropSymbol : Symbol → Grammar → Grammar
  | .terminal name, g => dropTerminal name g
  | .nonterminal name, g => dropNonterminal name g
  | .empty, g => g

def removeUnused : Edit (List Symbol) := do
  let unused := (← grammar).unusedSymbols
  change fun g => unused.foldl (fun h symbol => dropSymbol symbol h) g
  return unused

def clear : Edit Unit := change fun g => { kind := g.kind }

end ContextFree.Edit
