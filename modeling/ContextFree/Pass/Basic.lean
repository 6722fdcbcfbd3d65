import ContextFree.Edit.Attributes
import ContextFree.Edit.Productions

namespace ContextFree

structure Pass where
  name : String
  run : Edit Unit

namespace Pass

def reportSymbols (before after : String) (symbols : List Symbol) : Edit Unit :=
  symbols.forM fun symbol => Edit.debug (before ++ symbol.text ++ after)

def isHelper (g : Grammar) (name : String) (body : Body) : Bool :=
  match g.productionsOf name with
  | [only] => only.body == body
  | _ => false

/-- A nonterminal whose only rule is the given body: one that is there under the wished name, or
else a new one. -/
def helper (base : String) (body : Body) (told : String) : Edit String := do
  let g ← Edit.grammar
  if isHelper g base body then return base
  else
    let name := g.freshName base
    Edit.debug ("Adding helper " ++ name ++ told)
    Edit.addProduction { head := name, body }
    return name

end Pass

end ContextFree
