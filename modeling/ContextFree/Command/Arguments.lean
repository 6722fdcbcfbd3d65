import ContextFree.Grammar.Basic
import ContextFree.Log
import ContextFree.Reading.Token

namespace ContextFree.Command

structure Request where
  file : String
  plain : Bool
  goOn : Bool
  out : Option String
  log : Level
  check : Option Nat
  deriving DecidableEq

inductive Refusal where
  | usage
  | help
  | version
  deriving DecidableEq

inductive Switch where
  | plain
  | goOn
  | help
  | version
  deriving DecidableEq

inductive Setting where
  | out
  | log
  | check
  deriving DecidableEq

structure Draft where
  file : Option String := none
  plain : Bool := false
  goOn : Bool := false
  out : Option String := none
  log : Option Level := none
  check : Option Nat := none

inductive Argument where
  | terminator
  | positional
  | switch (switch : Switch)
  | attached (setting : Setting) (value : String)
  | awaiting (setting : Setting)
  | unknown

def longSwitch? (name : String) : Option Switch :=
  match name with
  | "cfg" => some .plain
  | "continue-on-error" => some .goOn
  | "help" => some .help
  | "version" => some .version
  | _ => none

def longSetting? (name : String) : Option Setting :=
  match name with
  | "out" => some .out
  | "log" => some .log
  | "check" => some .check
  | _ => none

def shortSwitch? (c : Char) : Option Switch :=
  if c = 'h' then some .help else if c = 'V' then some .version else none

def shortSetting? (c : Char) : Option Setting :=
  if c = 'o' then some .out
  else if c = 'l' then some .log
  else if c = 'n' then some .check
  else none

def classifyLong (text : List Char) : Argument :=
  match Token.upTo '=' text with
  | some (name, value) =>
    match longSetting? (String.ofList name) with
    | some setting => .attached setting (String.ofList value)
    | none => .unknown
  | none =>
    match longSwitch? (String.ofList text), longSetting? (String.ofList text) with
    | some switch, _ => .switch switch
    | none, some setting => .awaiting setting
    | none, none => .unknown

def classifyShort (c : Char) (rest : List Char) : Argument :=
  match shortSwitch? c, shortSetting? c with
  | some switch, _ => .switch switch
  | none, some setting =>
    match rest with
    | [] => .awaiting setting
    | '=' :: value => .attached setting (String.ofList value)
    | value => .attached setting (String.ofList value)
  | none, none => .unknown

def classify (argument : List Char) : Argument :=
  match argument with
  | ['-', '-'] => .terminator
  | '-' :: '-' :: text => classifyLong text
  | '-' :: c :: rest => classifyShort c rest
  | _ => .positional

/-- Only a lone dash may start like an option and be a value. -/
def isValue (argument : String) : Bool :=
  match argument.toList with
  | '-' :: _ :: _ => false
  | _ => true

def readAmount (text : List Char) : Option Nat :=
  let (negative, digits) := Decimal.takeSign text
  if digits.isEmpty || !digits.all Char.isDigit then none
  else
    let amount := Decimal.ofDigits digits
    if 0x100000000 ≤ amount ∨ (negative ∧ amount ≠ 0) then none else some amount

namespace Draft

def addFile (draft : Draft) (path : String) : Except Refusal Draft :=
  if path.isEmpty || draft.file.isSome then .error .usage else .ok { draft with file := some path }

def turnOn (draft : Draft) : Switch → Except Refusal Draft
  | .plain => if draft.plain then .error .usage else .ok { draft with plain := true }
  | .goOn => if draft.goOn then .error .usage else .ok { draft with goOn := true }
  | .help => .error .help
  | .version => .error .version

def set (draft : Draft) (setting : Setting) (value : String) : Except Refusal Draft :=
  match setting with
  | .out =>
    if draft.out.isSome || value.isEmpty then .error .usage
    else .ok { draft with out := some value }
  | .log =>
    match draft.log, Level.ofName? value with
    | none, some level => .ok { draft with log := some level }
    | _, _ => .error .usage
  | .check =>
    match draft.check, readAmount value.toList with
    | none, some amount => .ok { draft with check := some amount }
    | _, _ => .error .usage

def addFiles (draft : Draft) : List String → Except Refusal Draft
  | [] => .ok draft
  | path :: rest => do
    let draft ← draft.addFile path
    draft.addFiles rest

/-- Reads the arguments in order; the first fault or request for help ends the reading. -/
def addAll (draft : Draft) : List String → Except Refusal Draft
  | [] => .ok draft
  | argument :: rest =>
    match classify argument.toList with
    | .terminator => draft.addFiles rest
    | .positional => do
      let draft ← draft.addFile argument
      draft.addAll rest
    | .switch switch => do
      let draft ← draft.turnOn switch
      draft.addAll rest
    | .attached setting value => do
      let draft ← draft.set setting value
      draft.addAll rest
    | .awaiting setting =>
      match rest with
      | [] => .error .usage
      | value :: rest =>
        if isValue value then do
          let draft ← draft.set setting value
          draft.addAll rest
        else .error .usage
    | .unknown => .error .usage

end Draft

namespace Request

def ofArguments (arguments : List String) : Except Refusal Request := do
  let draft ← Draft.addAll {} arguments
  match draft.file with
  | some file =>
    return { file, plain := draft.plain, goOn := draft.goOn, out := draft.out,
             log := draft.log.getD .warning, check := draft.check }
  | none => throw .usage

def kind (request : Request) : Kind := if request.plain then .plain else .weighted

end Request

end ContextFree.Command
