import ContextFree.Pass.EmptyString
import ContextFree.Pass.Helpers
import ContextFree.Pass.Removal

namespace ContextFree

structure PassFailure where
  pass : String
  fault : Fault
  deriving DecidableEq

def PassFailure.message (failure : PassFailure) : String :=
  failure.pass ++ " failed: " ++ failure.fault.message

structure Conversion where
  result : Except PassFailure Grammar
  log : List Message

namespace Pipeline

/-- The passes of the full conversion. Weights mean something in weighted grammars only. -/
def standard : Kind → List Pass
  | .plain =>
    [.emptyString, .unitProductions, .uselessSymbols, .separateTerminals, .splitBodies]
  | .weighted =>
    [.zeroWeights, .emptyString, .unitProductions, .uselessSymbols, .separateTerminals,
      .splitBodies]

def signed (n : Int) : String :=
  if n < 0 then "-" ++ n.natAbs.repr else "+" ++ n.natAbs.repr

def describeChange (what : String) (before after : Nat) : String :=
  what ++ ": " ++ before.repr ++ " -> " ++ after.repr ++
    " (" ++ signed ((after : Int) - (before : Int)) ++ ")"

def describeSizes (pass : String) (before after : Size) : String :=
  pass ++ ": " ++ describeChange "productions" before.productions after.productions ++
    ", " ++ describeChange "nonterminals" before.nonterminals after.nonterminals ++
    ", " ++ describeChange "terminals" before.terminals after.terminals

/-- Runs the passes one after the other. A failure ends the conversion, or is only reported where
the conversion is to go on; the next pass then finds what the failed one left. -/
def run (goOn : Bool) : List Pass → Grammar → Conversion
  | [], g => ⟨.ok g, []⟩
  | pass :: rest, g =>
    let outcome := pass.run g
    let opening : List Message := ⟨.info, "Running " ++ pass.name⟩ :: outcome.log
    match outcome.result with
    | .ok () =>
      let next := run goOn rest outcome.grammar
      ⟨next.result,
        opening ++ ⟨.debug, describeSizes pass.name g.size outcome.grammar.size⟩ :: next.log⟩
    | .error fault =>
      let failure : PassFailure := ⟨pass.name, fault⟩
      if goOn then
        let next := run goOn rest outcome.grammar
        ⟨next.result, opening ++ ⟨.error, failure.message⟩ ::
          ⟨.warning, "Continuing after " ++ pass.name ++ " failed"⟩ :: next.log⟩
      else ⟨.error failure, opening ++ [⟨.error, failure.message⟩]⟩

end Pipeline

namespace Grammar

def convert (g : Grammar) : Conversion := Pipeline.run false (Pipeline.standard g.kind) g

end Grammar

end ContextFree
