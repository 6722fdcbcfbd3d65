import ContextFree.Binary64.Basic

namespace ContextFree

structure Decimal where
  negative : Bool
  coefficient : Nat
  exponent : Int
  deriving DecidableEq

namespace Decimal

def takeSign : List Char → Bool × List Char
  | '-' :: rest => (true, rest)
  | '+' :: rest => (false, rest)
  | text => (false, text)

def ofDigits (digits : List Char) : Nat := Nat.ofDigitChars 10 digits 0

def readExponent : List Char → Option Int
  | [] => some 0
  | c :: rest =>
    if c = 'e' ∨ c = 'E' then
      let (negative, digits) := takeSign rest
      if digits.isEmpty || !digits.all Char.isDigit then none
      else some (if negative then -(ofDigits digits : Int) else ofDigits digits)
    else none

def takeFraction : List Char → List Char × List Char
  | '.' :: rest => (rest.takeWhile Char.isDigit, rest.dropWhile Char.isDigit)
  | text => ([], text)

def read (text : List Char) : Option Decimal :=
  let (negative, unsigned) := takeSign text
  let whole := unsigned.takeWhile Char.isDigit
  let (fraction, rest) := takeFraction (unsigned.dropWhile Char.isDigit)
  if whole.isEmpty && fraction.isEmpty then none
  else (readExponent rest).map fun exponent =>
    ⟨negative, ofDigits (whole ++ fraction), exponent - fraction.length⟩

/-- The nearest magnitude bits. Past the two bounds on the exponent the answer is infinity or zero
whatever the coefficient, and no power of ten is formed. -/
def magnitude (coefficient : Nat) : Int → Nat
  | .ofNat e =>
    if coefficient = 0 then 0
    else if 400 < e then Binary64.infinityCode
    else Binary64.nearest ((coefficient * Nat.pow 10 e) <<< 1074) 1
  | .negSucc e =>
    if coefficient.log2 + 1100 < e then 0
    else Binary64.nearest (coefficient <<< 1074) (Nat.pow 10 (e + 1))

theorem magnitude_le (coefficient : Nat) (exponent : Int) :
    magnitude coefficient exponent ≤ Binary64.infinityCode := by
  unfold magnitude
  split
  · split
    · exact Nat.zero_le _
    · split
      · exact Nat.le_refl _
      · exact Binary64.nearest_le _ _
  · split
    · exact Nat.zero_le _
    · exact Binary64.nearest_le _ _

def toBinary64 (d : Decimal) : Binary64 :=
  ⟨d.negative, magnitude d.coefficient d.exponent,
    Nat.lt_of_le_of_lt (magnitude_le _ _) Binary64.infinityCode_lt⟩

def onGrid (code : Nat) : Int → Nat × Nat
  | .ofNat e => (Binary64.units code, Nat.pow 10 e <<< 1074)
  | .negSucc e => (Binary64.units code * Nat.pow 10 (e + 1), 1 <<< 1074)

/-- Of the two multiples of a power of ten around a value the one that reads back to it, the
nearer one if both do, the upper one if they are equally near. -/
def closest (code : Nat) (exponent : Int) : Option Nat :=
  let (num, den) := onGrid code exponent
  let lower := num / den
  let fits := magnitude lower exponent == code
  let upperFits := magnitude (lower + 1) exponent == code
  if fits && upperFits then
    some (if 2 * (num % den) < den then lower else lower + 1)
  else if fits then some lower
  else if upperFits then some (lower + 1)
  else none

/-- Looks on the grids of 10^(n - 1074), 10^(n - 1075) and so on; every value lies on the last
one. -/
def shortest (code : Nat) : Nat → Nat × Int
  | 0 => (Binary64.units code * Nat.pow 5 1074, -1074)
  | n + 1 =>
    let exponent : Int := (n + 1 : Int) - 1074
    match closest code exponent with
    | some coefficient => (coefficient, exponent)
    | none => shortest code n

def ofMagnitude (code : Nat) : Nat × Int :=
  let whole := Binary64.units code >>> 1074
  shortest code (1074 + if whole = 0 then 0 else (Nat.toDigits 10 whole).length)

def pad (width : Nat) (digits : List Char) : List Char :=
  List.replicate (width - digits.length) '0' ++ digits

def positional (coefficient : Nat) : Int → List Char
  | .ofNat e => Nat.toDigits 10 (coefficient * Nat.pow 10 e)
  | .negSucc e =>
    let power := Nat.pow 10 (e + 1)
    Nat.toDigits 10 (coefficient / power) ++ '.' ::
      pad (e + 1) (Nat.toDigits 10 (coefficient % power))

end Decimal

namespace Binary64

def text (x : Binary64) : String :=
  if x.isNaN then "NaN"
  else
    let sign := if x.negative then "-" else ""
    if !x.isFinite then sign ++ "inf"
    else if x.isZero then sign ++ "0"
    else
      let (coefficient, exponent) := Decimal.ofMagnitude x.magnitude
      sign ++ String.ofList (Decimal.positional coefficient exponent)

end Binary64

end ContextFree
