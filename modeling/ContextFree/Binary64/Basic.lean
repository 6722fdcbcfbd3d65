namespace ContextFree

/-- A sign and the sixty-three bits below it. Finite magnitudes are whole multiples of 2^-1074, so that rounding
is arithmetic on naturals. -/
structure Binary64 where
  negative : Bool
  magnitude : Nat
  magnitude_lt : magnitude < 0x8000000000000000
  deriving DecidableEq

namespace Binary64

/-- The magnitude bits of infinity; above them stand the values that are no numbers. -/
def infinityCode : Nat := 0x7FF0000000000000

theorem infinityCode_lt : infinityCode < 0x8000000000000000 := by decide

def fractionCount : Nat := 0x10000000000000

def isNaN (x : Binary64) : Bool := infinityCode < x.magnitude

def isFinite (x : Binary64) : Bool := x.magnitude < infinityCode

def isZero (x : Binary64) : Bool := x.magnitude == 0

def zero : Binary64 := ⟨false, 0, by decide⟩

def one : Binary64 := ⟨false, 0x3FF0000000000000, by decide⟩

def bits (x : Binary64) : Nat :=
  (if x.negative then 0x8000000000000000 else 0) + x.magnitude

def ofBits (n : Nat) : Binary64 :=
  ⟨0x8000000000000000 ≤ n % 0x10000000000000000, n % 0x8000000000000000,
    Nat.mod_lt n (by decide)⟩

theorem bits_lt (x : Binary64) : x.bits < 0x10000000000000000 := by
  have below := x.magnitude_lt
  unfold bits
  split <;> omega

theorem ofBits_bits (x : Binary64) : ofBits x.bits = x := by
  obtain ⟨negative, magnitude, below⟩ := x
  cases negative <;> simp only [ofBits, bits, mk.injEq] <;> constructor <;>
    simp <;> omega

/-- The value of finite magnitude bits as a multiple of 2^-1074. -/
def units (code : Nat) : Nat :=
  let exponent := code / fractionCount
  let fraction := code % fractionCount
  if exponent = 0 then fraction else (fractionCount + fraction) <<< (exponent - 1)

def roundQuotient (num den : Nat) : Nat :=
  let quotient := num / den
  let twice := 2 * (num % den)
  if twice < den then quotient
  else if den < twice then quotient + 1
  else quotient + quotient % 2

/-- The magnitude bits nearest to `num / den` units, with 53 significant bits or, below the
normal numbers, whole units. -/
def nearest (num den : Nat) : Nat :=
  let scale := (num / den).log2 - 52
  min (scale * fractionCount + roundQuotient num (den <<< scale)) infinityCode

theorem nearest_le (num den : Nat) : nearest num den ≤ infinityCode := Nat.min_le_right _ _

end Binary64

end ContextFree
