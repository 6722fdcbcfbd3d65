import ContextFree.Edit.Tables

namespace ContextFree.Edit

def checkProduction (p : Production) : Except Fault Unit :=
  if p.body.isEmpty then .error (.invalid (.emptyBody p.head))
  else do
    Name.checkNonterminal p.head
    p.body.forM Name.check
    p.weight.check

/-- The head of the first production ever added becomes the start symbol. -/
def addNames (p : Production) : Edit Unit := do
  let _ ← addNonterminal p.head
  p.body.forM addSymbol
  change fun g => { g with start := g.start.or (some p.head) }

def append (p : Production) (g : Grammar) : Grammar :=
  { g with productions := g.productions ++ [p] }

def addProduction (p : Production) : Edit Unit := do
  require (checkProduction p)
  addNames p
  change (append p)

def addNewRule (p : Production) : Edit Unit := do
  if (← grammar).productions.any (·.sameRule p) then done () else addProduction p

def insertProduction (index : Nat) (p : Production) : Edit Unit := do
  inRange .productions index ((← grammar).productions.length + 1)
  require (checkProduction p)
  addNames p
  change fun g => { g with productions := g.productions.insertIdx index p }

def productionAt (index : Nat) : Edit Production := do
  let productions := (← grammar).productions
  match productions[index]? with
  | some p => return p
  | none => refuse (.outOfRange .productions index productions.length)

def removeProduction (index : Nat) : Edit Production := do
  let p ← productionAt index
  change fun g => { g with productions := g.productions.eraseIdx index }
  return p

def keepProductions (keep : Production → Bool) : Edit Nat := do
  let before := (← grammar).productions.length
  change fun g => { g with productions := g.productions.filter keep }
  return before - (← grammar).productions.length

def removeProductionsOf (head : String) : Edit (List Production) := do
  let removed := (← grammar).productionsOf head
  let _ ← keepProductions (·.head != head)
  return removed

def takeProductions : Edit (List Production) := do
  let taken := (← grammar).productions
  change fun g => { g with productions := [] }
  return taken

/-- The names in the new body are taken to be in the tables. -/
def setBody (index : Nat) (body : Body) : Edit Unit :=
  change fun g => { g with productions := g.productions.modify index fun p => { p with body } }

def substitute (source target symbol : Symbol) : Symbol :=
  if symbol = source then target else symbol

/-- Heads follow only where a nonterminal becomes a nonterminal. -/
def substituteIn (source target : Symbol) (p : Production) : Production :=
  let head := match source, target with
    | .nonterminal old, .nonterminal new => if p.head = old then new else p.head
    | _, _ => p.head
  { p with head, body := p.body.map (substitute source target) }

def headBlocks (source target : Symbol) (g : Grammar) : Bool :=
  match source, target with
  | .nonterminal _, .nonterminal _ => false
  | .nonterminal old, _ => g.productions.any (·.head == old)
  | _, _ => false

def replaceSymbol (source target : Symbol) (removeSource : Bool) : Edit Unit := do
  if headBlocks source target (← grammar) then
    refuse (.invalid (.replacedHead source target))
  else
    addSymbol target
    change fun g => { g with productions := g.productions.map (substituteIn source target) }
    if removeSource && source != target then
      removeSymbol source
      change fun g =>
        if g.start = source.nonterminal? then { g with start := target.nonterminal? } else g
    else done ()

end ContextFree.Edit
