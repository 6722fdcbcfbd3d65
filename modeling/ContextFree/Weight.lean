import ContextFree.Fault

namespace ContextFree

inductive Weight where
  | number (value : Binary64)
  | attribute (kind : AttributeKind) (letter : Char)
  deriving DecidableEq

namespace Weight

def one : Weight := .number Binary64.one

def ofNumber (value : Binary64) : Except Fault Weight :=
  if value.isFinite && (!value.negative || value.isZero) then
    .ok (.number ⟨false, value.magnitude, value.magnitude_lt⟩)
  else .error (.invalid (.weightRange value))

def checkLetter (c : Char) : Except Fault Unit :=
  if Letters.isLetter c then .ok () else .error (.invalid (.letter c))

def ofAttribute (kind : AttributeKind) (letter : Char) : Except Fault Weight :=
  (checkLetter letter).map fun () => .attribute kind letter

/-- A weight may have been put together without regard to its range. -/
def check : Weight → Except Fault Unit
  | .number value => (ofNumber value).map fun _ => ()
  | .attribute _ letter => checkLetter letter

def isZero : Weight → Bool
  | .number value => value.isZero
  | .attribute _ _ => false

def text : Weight → String
  | .number value => value.text
  | .attribute kind letter => String.ofList [kind.mark, letter]

def ofDecimal (text : List Char) : Except Fault Weight :=
  match Decimal.read text with
  | some decimal => ofNumber decimal.toBinary64
  | none => .error (.invalid (.notWeight (String.ofList text)))

/-- Two characters of which the first marks an attribute are a reference; all else is a decimal
numeral. -/
def read (text : List Char) : Except Fault Weight :=
  match text with
  | [mark, letter] =>
    match AttributeKind.ofMark mark with
    | some kind => ofAttribute kind letter
    | none => ofDecimal text
  | _ => ofDecimal text

end Weight

end ContextFree
