import ContextFree.Derivation
import ContextFree.Random.Choice

namespace ContextFree

inductive SampleFault where
  | undefined (name : String)
  | unusable (name : String)
  | tooDeep
  | noStart
  deriving DecidableEq

def depthLimit : Nat := 64

def SampleFault.message : SampleFault → String
  | .undefined name => "No definition for nonterminal `" ++ name ++ "`"
  | .unusable name => "Every production of `" ++ name ++ "` has weight zero"
  | .tooDeep => "Derivation went deeper than " ++ depthLimit.repr ++ " nonterminals"
  | .noStart => "The grammar has no start symbol"

structure Drawn (α : Type) where
  result : Except SampleFault α
  position : Nat

def Sampler (α : Type) : Type := Nat → Drawn α

namespace Sampler

variable {α β : Type}

def andThen (sampler : Sampler α) (next : α → Sampler β) : Sampler β := fun position =>
  match sampler position with
  | ⟨.error fault, after⟩ => ⟨.error fault, after⟩
  | ⟨.ok a, after⟩ => next a after

instance : Monad Sampler where
  pure a := fun position => ⟨.ok a, position⟩
  bind := andThen

def fail (fault : SampleFault) : Sampler α := fun position => ⟨.error fault, position⟩

def word (words : Words) : Sampler UInt64 := fun position => ⟨.ok (words position), position + 1⟩

/-- The weight of an attribute is not known and counts as one. -/
def chance : Weight → Nat
  | .number value =>
    if value.isZero || !value.negative then value.magnitude else Binary64.infinityCode
  | .attribute _ _ => Binary64.one.magnitude

def choose (g : Grammar) (words : Words) (name : String) : Sampler Production := do
  let productions := g.productionsOf name
  if productions.isEmpty then fail (.undefined name)
  else
    let chances := productions.map fun p => chance p.weight
    match Choice.total? chances with
    | none => fail (.unusable name)
    | some total =>
      let index := Choice.index chances total (← word words)
      match productions[index]? with
      | some p => return p
      | none => fail (.unusable name)

def body (nonterminal : String → Sampler Sentence) : Body → Sampler Sentence
  | [] => return []
  | .empty :: rest => body nonterminal rest
  | .terminal token :: rest => do return token :: (← body nonterminal rest)
  | .nonterminal name :: rest => do
    let first ← nonterminal name
    return first ++ (← body nonterminal rest)

def expand (g : Grammar) (words : Words) : Nat → String → Sampler Sentence
  | 0, _ => fail .tooDeep
  | levels + 1, name => do
    let p ← choose g words name
    body (expand g words levels) p.body

def sentenceOf (g : Grammar) (words : Words) (name : String) : Sampler Sentence :=
  expand g words (depthLimit + 1) name

def sentence (g : Grammar) (words : Words) : Sampler Sentence :=
  match g.start with
  | some start => sentenceOf g words start
  | none => fail .noStart

end Sampler

namespace Grammar

/-- The first sentence that is not empty among so many attempts, and the position after it. -/
def sample (g : Grammar) (words : Words) : Nat → Nat → Option Sentence × Nat
  | 0, position => (none, position)
  | attempts + 1, position =>
    match Sampler.sentence g words position with
    | ⟨.ok (token :: rest), after⟩ => (some (token :: rest), after)
    | ⟨_, after⟩ => g.sample words attempts after

end Grammar

end ContextFree
