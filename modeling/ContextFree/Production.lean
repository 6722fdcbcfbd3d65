import ContextFree.Weight

namespace ContextFree

abbrev Body := List Symbol

structure Production where
  head : String
  weight : Weight := .one
  body : Body
  deriving DecidableEq

namespace Production

def sameRule (p q : Production) : Bool := p.head == q.head && p.body == q.body

def isEpsilon (p : Production) : Bool := p.body == [.empty]

def unitTarget? (p : Production) : Option String :=
  match p.body with
  | [.nonterminal target] => some target
  | _ => none

def isUnit (p : Production) : Bool := p.unitTarget?.isSome

/-- Each rule once, where it stands first. -/
def distinctRules (productions : List Production) : List Production :=
  productions.foldl (fun kept p => if kept.any (·.sameRule p) then kept else kept ++ [p]) []

theorem sameRule_iff {p q : Production} : p.sameRule q = true ↔ p.head = q.head ∧ p.body = q.body := by
  simp [sameRule]

end Production

end ContextFree
