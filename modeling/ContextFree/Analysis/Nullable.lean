import ContextFree.Closure
import ContextFree.Grammar.Basic

namespace ContextFree.Nullable

def isNullable (known : List String) : Symbol → Bool
  | .terminal _ => false
  | .nonterminal name => known.contains name
  | .empty => true

def found (g : Grammar) (known : List String) : List String :=
  g.nonterminals.names.filter fun name =>
    (g.productionsOf name).any fun p => p.body.all (isNullable known)

/-- Adds to the known nullable nonterminals those that follow from them, round by round in table
order. -/
def closure (g : Grammar) (known : List String) : List String :=
  Closure.saturate g.nonterminals.names (found g) known

def isDropped (deleted : List String) : Symbol → Bool
  | .terminal _ => false
  | .nonterminal name => deleted.contains name
  | .empty => true

/-- One body for each choice of nullable occurrences to leave out, the first of them leaving out
nothing that need not go. -/
def expansions (nullable deleted : List String) : Body → List Body
  | [] => [[]]
  | symbol :: rest =>
    let bodies := expansions nullable deleted rest
    if isDropped deleted symbol then bodies
    else if isNullable nullable symbol then bodies.map (symbol :: ·) ++ bodies
    else bodies.map (symbol :: ·)

end ContextFree.Nullable
