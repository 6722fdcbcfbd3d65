import ContextFree.Closure
import ContextFree.Pass.Basic

namespace ContextFree.Pass

def isLong (body : Body) : Bool := 1 < body.length

def longTerminals (productions : List Production) : List String :=
  Closure.extend [] ((productions.filter fun p => isLong p.body).flatMap fun p =>
    p.body.filterMap Symbol.terminal?)

def separateIn (terminal name : String) (p : Production) : Production :=
  if isLong p.body then
    { p with body := p.body.map (Edit.substitute (.terminal terminal) (.nonterminal name)) }
  else p

def separate (terminal : String) : Edit Unit := do
  let name ← helper (Name.escape ("T-" ++ terminal)) [.terminal terminal]
    (" for '" ++ terminal ++ "'")
  Edit.change fun g => { g with productions := g.productions.map (separateIn terminal name) }

def separateAll : Edit Unit := do
  (longTerminals (← Edit.grammar).productions).forM separate

def separateTerminals : Pass := ⟨"SeparateTerminalsStep", separateAll⟩

abbrev Pairs := List ((Symbol × Symbol) × String)

def pairHelper (pairs : Pairs) (left right : Symbol) : Edit (String × Pairs) := do
  match pairs.lookup (left, right) with
  | some name => return (name, pairs)
  | none =>
    let name ← helper (Name.escape (left.value ++ "-" ++ right.value)) [left, right] ""
    return (name, ((left, right), name) :: pairs)

/-- Splits the body that ends in `last`, before which the symbols of `before` stand in reverse. -/
def splitFrom (pairs : Pairs) (last : Symbol) : List Symbol → Edit (Body × Pairs)
  | [] => return ([last], pairs)
  | [first] => return ([first, last], pairs)
  | left :: next :: before => do
    let (name, pairs) ← pairHelper pairs left last
    splitFrom pairs (.nonterminal name) (next :: before)

/-- The production stands without a body while its helpers are added. -/
def splitAt (pairs : Pairs) (index : Nat) : Edit Pairs := do
  let p ← Edit.productionAt index
  match p.body.reverse with
  | last :: left :: next :: before =>
    Edit.setBody index []
    let (body, pairs) ← splitFrom pairs last (left :: next :: before)
    Edit.setBody index body
    return pairs
  | _ => return pairs

def splitEach (pairs : Pairs) : List Nat → Edit Unit
  | [] => return ()
  | index :: rest => do
    let pairs ← splitAt pairs index
    splitEach pairs rest

/-- Helpers are appended and short, so only the productions that were there have to be split. -/
def splitAll : Edit Unit := do
  splitEach [] (List.range (← Edit.grammar).productions.length)

def splitBodies : Pass := ⟨"SplitNonterminalsStep", splitAll⟩

end ContextFree.Pass
