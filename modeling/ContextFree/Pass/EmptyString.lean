import ContextFree.Analysis.Nullable
import ContextFree.Pass.Basic

namespace ContextFree.Pass

/-- Takes the empty productions of the given nonterminals out. Answers which nonterminals had one,
and which of those have no production left; the latter leave the table, but for the start symbol. -/
def removeEpsilons : List String → Edit (List String × List String)
  | [] => return ([], [])
  | name :: rest => do
    let removed ← Edit.keepProductions fun p => !(p.head == name && p.isEpsilon)
    if removed = 0 then removeEpsilons rest
    else
      let g ← Edit.grammar
      let gone := (g.productionsOf name).isEmpty
      if gone && g.start != some name then
        Edit.debug ("`" ++ name ++ "` only derived the empty string and is removed")
        Edit.removeNonterminal name
      else pure ()
      let (nullable, deleted) ← removeEpsilons rest
      return (name :: nullable, if gone then name :: deleted else deleted)

def warnOfStart (g : Grammar) (nullable : List String) : Edit Unit :=
  match g.start with
  | some start =>
    if start ∈ nullable then
      Edit.warn ("Start symbol `" ++ start ++
        "` derives the empty string, which the converted grammar will not")
    else pure ()
  | none => pure ()

def variants (nullable deleted : List String) (p : Production) : List Production :=
  ((Nullable.expansions nullable deleted p.body).filter fun body => !body.isEmpty).map
    fun body => { p with body }

def removeEmptyString : Edit Unit := do
  let (direct, deleted) ← removeEpsilons (← Edit.grammar).nonterminals.names
  let g ← Edit.grammar
  let nullable := Nullable.closure g direct
  Edit.debug ("Nullable nonterminals: " ++ String.intercalate ", " nullable)
  warnOfStart g nullable
  let productions ← Edit.takeProductions
  productions.forM fun p => (variants nullable deleted p).forM Edit.addNewRule

def emptyString : Pass := ⟨"EmptyStringStep", removeEmptyString⟩

end ContextFree.Pass
