import ContextFree.Analysis.Reach
import ContextFree.Pass.Basic

namespace ContextFree.Pass

/-- The weight of an attribute is not known yet, so productions with one stay. -/
def removeZeroWeights : Edit Unit := do
  let removed ← Edit.keepProductions fun p => !p.weight.isZero
  Edit.debug ("Removed " ++ removed.repr ++ " zero-weight productions")

def zeroWeights : Pass := ⟨"ZeroWeightsStep", removeZeroWeights⟩

def copies (productions : List Production) (name reached : String) : List Production :=
  (productions.filter fun p => p.head == reached && !p.isUnit).map fun p => { p with head := name }

def takeOver (productions : List Production) (name reached : String) : Edit Unit := do
  if name ≠ reached then
    Edit.debug ("Unit pair (" ++ name ++ ", " ++ reached ++ ")")
    match (← Edit.grammar).attributesOf? reached with
    | some attributes => Edit.mergeAttributes name attributes
    | none => pure ()
  else pure ()
  (copies productions name reached).forM Edit.addNewRule

/-- Each nonterminal takes over the other productions of all that it reaches, and their attributes. -/
def removeUnits : Edit Unit := do
  let productions ← Edit.takeProductions
  (Units.pairs (← Edit.grammar) productions).forM fun (name, reach) =>
    reach.forM (takeOver productions name)
  reportSymbols "`" "` is no longer used" (← Edit.removeUnused)

def unitProductions : Pass := ⟨"UnitProductionsStep", removeUnits⟩

/-- First the productions go that never lead to a terminal string, and only then those that the start symbol
does not lead to. -/
def removeUseless : Edit Unit := do
  let generating := Useful.generating (← Edit.grammar)
  let removed ← Edit.keepProductions fun p =>
    generating.contains p.head && Useful.isGenerating generating p.body
  Edit.debug ("Removed " ++ removed.repr ++ " productions using non-generating symbols")
  let reachable := Useful.reachable (← Edit.grammar)
  let removed ← Edit.keepProductions fun p => reachable.contains p.head
  Edit.debug ("Removed " ++ removed.repr ++ " unreachable productions")
  reportSymbols "Removed useless symbol " "" (← Edit.removeUnused)
  if (← Edit.grammar).isEmpty then Edit.warn "The grammar generates no strings" else pure ()

def uselessSymbols : Pass := ⟨"UnreachableSymbolsStep", removeUseless⟩

end ContextFree.Pass
