import ContextFree.Fault
import ContextFree.Text.Basic

namespace ContextFree.Name

open Text

def isReserved (c : Char) : Bool :=
  c == '\x7b' || c == '\x7d' || c == ';' || c == '|' || c == '='

def checkValue (value : String) : Except Fault Unit :=
  if value.toList.all isBlank then .error (.invalid .blankName)
  else if value.toList.any fun c => isBlank c || c == '\'' then
    .error (.invalid (.spacedName value))
  else .ok ()

/-- A nonterminal is written without quotes, so it holds no reserved punctuation and starts like
neither an arrow nor a comment. -/
def checkNonterminal (value : String) : Except Fault Unit :=
  match checkValue value with
  | .error fault => .error fault
  | .ok () =>
    match value.toList.find? isReserved with
    | some c => .error (.invalid (.reservedName value c))
    | none =>
      match value.toList.head? with
      | some c =>
        if c = '-' ∨ c = '#' then .error (.invalid (.leadingName value c)) else .ok ()
      | none => .ok ()

def check : Symbol → Except Fault Unit
  | .terminal value => checkValue value
  | .nonterminal value => checkNonterminal value
  | .empty => .ok ()

def hexDigits (n : Nat) : List Char := (Nat.toDigits 16 n).map Char.toUpper

def escapeChar (c : Char) : List Char :=
  if isReserved c || c == '\'' || isBlank c then 'u' :: hexDigits c.toNat else [c]

/-- Writes each character that no nonterminal may hold as the letter u and its code point. -/
def escape (text : String) : String := String.ofList (text.toList.flatMap escapeChar)

end ContextFree.Name
