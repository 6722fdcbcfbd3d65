import ContextFree.Command.Arguments
import ContextFree.Comparison
import ContextFree.Grammar.Render
import ContextFree.Pipeline
import ContextFree.Reading.Source

namespace ContextFree.Command

inductive Exit where
  | success
  | invalidArguments
  | unreadable
  | unconverted
  | unwritten
  deriving DecidableEq

def Exit.code : Exit → Nat
  | .success => 0
  | .invalidArguments => 1
  | .unreadable => 2
  | .unconverted => 3
  | .unwritten => 4

def versionText : String := "chomsky 0.1.0\n"

def usageText : String :=
  "Usage: chomsky [--cfg] [--continue-on-error] [-o PATH] [-l LEVEL] [-n AMOUNT] FILE\n"

/-- What a run leaves behind; the log is still whole. -/
structure Report where
  exit : Exit
  output : String := ""
  log : List Message
  written : Option (String × String) := none

/-- An opened file. One that cannot be read, as a directory, gives a fault for each line that it is
asked for, and so never comes to its end. -/
inductive Opened where
  | bytes (content : List UInt8)
  | failing (fault : FileFault)

structure Disk where
  opens : String → Except FileFault Opened
  refuses : String → Option FileFault

def problemMessage (problem : Placed Problem) : Message :=
  ⟨.error, problem.location.text ++ ": " ++ problem.item.message⟩

def readMessage (size : Size) (file : String) : Message :=
  ⟨.info, "Read " ++ size.productions.repr ++ " productions over " ++ size.nonterminals.repr ++
    " nonterminals and " ++ size.terminals.repr ++ " terminals from " ++ file⟩

def readGrammar (request : Request) (content : Except FileFault (List UInt8)) :
    Except Reading.Problems Grammar :=
  match content with
  | .ok bytes => Reading.readBytes request.kind request.file bytes
  | .error fault => .error [⟨{ file := request.file }, .unreadable fault⟩]

def checkLog (source converted : Grammar) (words : Words) : Option Nat → List Message
  | none => []
  | some amount =>
    match compareLanguages source converted amount words 0 with
    | .ok compared =>
      if compared.counts.recognised < compared.counts.sampled then
        compared.log ++
          [⟨.warning, "The converted grammar does not keep the language of the input"⟩]
      else compared.log
    | .error fault => [⟨.warning, "Could not check the result: " ++ fault.message⟩]

/-- The run up to the writing: where it ends early, or the text to write. -/
def convertFile (request : Request) (content : Except FileFault (List UInt8)) (words : Words) :
    List Message × Except Exit String :=
  match readGrammar request content with
  | .error problems => (problems.map problemMessage, .error .unreadable)
  | .ok g =>
    let conversion := Pipeline.run request.goOn (Pipeline.standard request.kind) g
    let log := readMessage g.size request.file :: conversion.log
    match conversion.result with
    | .error failure => (log ++ [⟨.error, failure.message⟩], .error .unconverted)
    | .ok converted =>
      (log ++ checkLog g converted words request.check, .ok (converted.text ++ "\n"))

def unwrittenMessage (path : String) (fault : FileFault) : Message :=
  ⟨.error, "Could not write " ++ path ++ ": " ++ fault.message⟩

def report (request : Request) (ran : List Message × Except Exit String)
    (refuses : String → Option FileFault) : Report :=
  match ran.2, request.out with
  | .error exit, _ => { exit, log := ran.1 }
  | .ok text, none => { exit := .success, output := text, log := ran.1 }
  | .ok text, some path =>
    match refuses path with
    | none => { exit := .success, log := ran.1, written := some (path, text) }
    | some fault => { exit := .unwritten, log := ran.1 ++ [unwrittenMessage path fault] }

/-- What there is to read of a file, if the reading ends: all its lines, or why it was not opened. -/
def content? : Except FileFault Opened → Option (Except FileFault (List UInt8))
  | .ok (.bytes content) => some (.ok content)
  | .ok (.failing _) => none
  | .error fault => some (.error fault)

/-- Faults of reading are gathered to the end of the file, so there is no report if it has none. -/
def run (disk : Disk) (request : Request) (words : Words) : Option Report :=
  (content? (disk.opens request.file)).map fun content =>
    report request (convertFile request content words) disk.refuses

def shown (level : Level) (log : List Message) : String :=
  String.join ((log.filter (Message.shownAt level)).map fun m => m.display ++ "\n")

end ContextFree.Command
