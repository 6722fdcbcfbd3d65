import ContextFree.Closure
import ContextFree.Grammar.Basic

namespace ContextFree

namespace Units

def targetsOf (productions : List Production) (name : String) : List String :=
  (productions.filter (·.head == name)).filterMap Production.unitTarget?

/-- The nonterminal itself and then all that its chains lead to, shorter chains first. -/
def reach (productions : List Production) (name : String) : List String :=
  Closure.saturate (productions.filterMap Production.unitTarget?)
    (fun known => known.flatMap (targetsOf productions)) [name]

def pairs (g : Grammar) (productions : List Production) : List (String × List String) :=
  g.nonterminals.names.map fun name => (name, reach productions name)

end Units

namespace Useful

def nonterminalsOf (body : Body) : List String := body.filterMap Symbol.nonterminal?

def isGenerating (known : List String) (body : Body) : Bool :=
  (nonterminalsOf body).all known.contains

def generating (g : Grammar) : List String :=
  Closure.saturate (g.productions.map Production.head)
    (fun known =>
      (g.productions.filter fun p => isGenerating known p.body).map Production.head)
    []

/-- The nonterminals that occur in what the start symbol derives, itself first. -/
def reachable (g : Grammar) : List String :=
  Closure.saturate (g.productions.flatMap fun p => nonterminalsOf p.body)
    (fun known => known.flatMap fun name =>
      (g.productionsOf name).flatMap fun p => nonterminalsOf p.body)
    g.start.toList

end Useful

end ContextFree
