namespace ContextFree

inductive Symbol where
  | terminal (value : String)
  | nonterminal (value : String)
  | empty
  deriving DecidableEq

namespace Symbol

def emptyText : String := "''"

def value : Symbol → String
  | .terminal value => value
  | .nonterminal value => value
  | .empty => emptyText

def text : Symbol → String
  | .terminal value => "'" ++ value ++ "'"
  | .nonterminal value => value
  | .empty => emptyText

def isEmpty : Symbol → Bool
  | .empty => true
  | _ => false

def terminal? : Symbol → Option String
  | .terminal value => some value
  | _ => none

def nonterminal? : Symbol → Option String
  | .nonterminal value => some value
  | _ => none

def rank : Symbol → Nat
  | .terminal _ => 0
  | .nonterminal _ => 1
  | .empty => 2

/-- Terminals, then nonterminals, then the empty string; by code points among themselves. -/
def le (s t : Symbol) : Bool :=
  s.rank < t.rank || (s.rank == t.rank && s.value ≤ t.value)

end Symbol

end ContextFree
