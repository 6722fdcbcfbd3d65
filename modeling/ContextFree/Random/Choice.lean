import ContextFree.Binary64.Basic

namespace ContextFree

abbrev Words := Nat → UInt64

namespace Words

/-- The words in order, starting over at the end. -/
def cycle (words : List UInt64) : Words := fun position =>
  (words[position % words.length]?).getD 0

def mix (z : UInt64) : UInt64 :=
  let z := (z ^^^ (z >>> 30)) * 0xBF58476D1CE4E5B9
  let z := (z ^^^ (z >>> 27)) * 0x94D049BB133111EB
  z ^^^ (z >>> 31)

/-- The state grows by a fixed odd step, and each word is its state well mixed. -/
def splitMix (seed : UInt64) : Words := fun position =>
  mix (seed + UInt64.ofNat (position + 1) * 0x9E3779B97F4A7C15)

end Words

namespace Choice

open Binary64

/-- Weights, sums and the point drawn are magnitude bits, whose order is the order of their values. -/
def add (x y : Nat) : Nat := nearest (units x + units y) 1

/-- The sums of the first weight, the first two and so on, each rounded. -/
def sums (total : Nat) : List Nat → List Nat
  | [] => []
  | weight :: rest => add total weight :: sums (add total weight) rest

/-- The largest scale under which every point drawn lies below the total. -/
def scaleBelow (total : Nat) : Nat → Nat
  | 0 => 0
  | code + 1 =>
    if total ≤ nearest (units (code + 1) * (fractionCount - 1)) fractionCount then scaleBelow total code
    else code + 1

def point (scale : Nat) (word : UInt64) : Nat :=
  nearest ((word >>> 12).toNat * units scale) fractionCount

/-- There is nothing to choose from if the weights sum to nothing or past all numbers. -/
def total? (weights : List Nat) : Option Nat :=
  let total := (sums 0 weights).getLast?.getD 0
  if total = 0 ∨ infinityCode ≤ total then none else some total

def index (weights : List Nat) (total : Nat) (word : UInt64) : Nat :=
  let drawn := point (scaleBelow total total) word
  (sums 0 weights).dropLast.countP (· ≤ drawn)

end Choice

end ContextFree
