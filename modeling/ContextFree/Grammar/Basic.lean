import ContextFree.Attributes
import ContextFree.Production
import ContextFree.Table

namespace ContextFree

/-- Plain grammars are written as rules, weighted ones a production to a line. -/
inductive Kind where
  | plain
  | weighted
  deriving DecidableEq

structure Grammar where
  kind : Kind
  start : Option String := none
  nonterminals : Table := ∅
  terminals : Table := ∅
  productions : List Production := []
  attributes : AttributeTable := ∅

structure Size where
  productions : Nat
  nonterminals : Nat
  terminals : Nat
  deriving DecidableEq

namespace Grammar

def isEmpty (g : Grammar) : Bool := g.productions.isEmpty

def size (g : Grammar) : Size := ⟨g.productions.length, g.nonterminals.size, g.terminals.size⟩

def productionsOf (g : Grammar) (head : String) : List Production :=
  g.productions.filter (·.head == head)

def attributesOf? (g : Grammar) (name : String) : Option Attributes := g.attributes.get? name

def attributesOf (g : Grammar) (name : String) : Attributes := (g.attributesOf? name).getD ∅

def staticOf (g : Grammar) (name : String) : Letters := (g.attributesOf name).static

def numbered (base : String) (n : Nat) : String := base ++ "_" ++ n.repr

/-- The name itself if it is free, or else the first free one of those numbered from two. Among
one more of them than the table has names one is free. -/
def freshName (g : Grammar) (base : String) : String :=
  if base ∈ g.nonterminals then
    let candidates := (List.range (g.nonterminals.size + 1)).map fun n => numbered base (n + 2)
    (candidates.find? (· ∉ g.nonterminals)).getD base
  else base

def isNormalBody : Body → Bool
  | [.terminal _] => true
  | [.nonterminal _, .nonterminal _] => true
  | _ => false

theorem isNormalBody_iff {body : Body} : isNormalBody body = true ↔
    (∃ token, body = [.terminal token]) ∨ ∃ left right, body = [.nonterminal left, .nonterminal right] := by
  unfold isNormalBody
  split
  · simp
  · simp
  · next notTerminal notPair =>
    refine ⟨nofun, fun shape => ?_⟩
    rcases shape with ⟨token, same⟩ | ⟨left, right, same⟩
    · exact absurd same (notTerminal token)
    · exact absurd same (notPair left right)

def isNormal (g : Grammar) : Bool := g.productions.all fun p => isNormalBody p.body

def hasSymbol (g : Grammar) : Symbol → Prop
  | .terminal value => value ∈ g.terminals
  | .nonterminal value => value ∈ g.nonterminals
  | .empty => True

instance (g : Grammar) (symbol : Symbol) : Decidable (g.hasSymbol symbol) := by
  cases symbol <;> unfold hasSymbol <;> infer_instance

/-- Every symbol that a production mentions is in its table. -/
def Closed (g : Grammar) : Prop :=
  ∀ p ∈ g.productions, p.head ∈ g.nonterminals ∧ ∀ symbol ∈ p.body, g.hasSymbol symbol

instance (g : Grammar) : Decidable g.Closed := by unfold Closed; infer_instance

def usesSymbol (g : Grammar) : Symbol → Bool
  | .terminal value => g.productions.any fun p => p.body.contains (.terminal value)
  | .nonterminal value =>
    g.start == some value ||
      g.productions.any fun p => p.head == value || p.body.contains (.nonterminal value)
  | .empty => true

def unusedSymbols (g : Grammar) : List Symbol :=
  (g.nonterminals.names.map Symbol.nonterminal ++ g.terminals.names.map Symbol.terminal).filter
    fun symbol => !g.usesSymbol symbol

/-- Tables and attributes count as sets and weights not at all; the order of productions does. -/
def same (g h : Grammar) : Bool :=
  g.kind == h.kind && g.start == h.start && g.nonterminals.same h.nonterminals &&
    g.terminals.same h.terminals && g.productions.length == h.productions.length &&
    (g.productions.zip h.productions).all (fun pair => pair.1.sameRule pair.2) &&
    g.attributes.same h.attributes

end Grammar

end ContextFree
