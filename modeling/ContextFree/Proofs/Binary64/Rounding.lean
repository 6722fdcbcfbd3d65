import ContextFree.Binary64.Basic
import Mathlib.Algebra.Group.Nat.Defs

namespace ContextFree.Binary64

theorem roundQuotient_bounds (num den : Nat) :
    num / den ≤ roundQuotient num den ∧ roundQuotient num den ≤ num / den + 1 := by
  unfold roundQuotient
  dsimp only
  split
  · omega
  · split <;> omega

theorem roundQuotient_of_gt {num den : Nat} (above : den < 2 * (num % den)) :
    roundQuotient num den = num / den + 1 := by
  unfold roundQuotient
  dsimp only
  rw [if_neg (by omega), if_pos above]

theorem roundQuotient_of_eq {num den : Nat} (half : 2 * (num % den) = den) :
    roundQuotient num den = num / den + num / den % 2 := by
  unfold roundQuotient
  dsimp only
  rw [if_neg (by omega), if_neg (by omega)]

theorem roundQuotient_of_lt {num den : Nat} (below : 2 * (num % den) < den) :
    roundQuotient num den = num / den := by
  unfold roundQuotient
  dsimp only
  rw [if_pos below]

theorem roundQuotient_mono {num more den : Nat} (le : num ≤ more) :
    roundQuotient num den ≤ roundQuotient more den := by
  have quotients : num / den ≤ more / den := Nat.div_le_div_right le
  by_cases same : num / den = more / den
  · have remainders : num % den ≤ more % den := by
      have first := Nat.div_add_mod num den
      have second := Nat.div_add_mod more den
      rw [same] at first
      omega
    rcases Nat.lt_trichotomy (2 * (num % den)) den with below | half | above
    · rw [roundQuotient_of_lt below, same]
      exact (roundQuotient_bounds more den).1
    · rcases Nat.eq_or_lt_of_le remainders with level | higher
      · apply Nat.le_of_eq
        rw [roundQuotient_of_eq half, roundQuotient_of_eq (level ▸ half), same]
      · rw [@roundQuotient_of_gt more den (by omega), ← same]
        exact (roundQuotient_bounds num den).2
    · apply Nat.le_of_eq
      rw [roundQuotient_of_gt above, @roundQuotient_of_gt more den (by omega), same]
  · have lower := (roundQuotient_bounds num den).2
    have upper := (roundQuotient_bounds more den).1
    omega

theorem roundQuotient_mul {quotient den : Nat} (positive : 0 < den) :
    roundQuotient (quotient * den) den = quotient := by
  have exact : 2 * (quotient * den % den) < den := by
    rw [Nat.mul_mod_left]
    omega
  rw [roundQuotient_of_lt exact, Nat.mul_div_cancel quotient positive]

/-- How far the significand of a quotient is scaled down to fit its fifty-three bits. -/
def scaleOf (num den : Nat) : Nat := (num / den).log2 - 52

theorem nearest_eq (num den : Nat) : nearest num den =
    min (scaleOf num den * fractionCount + roundQuotient num (den <<< scaleOf num den)) infinityCode := rfl

theorem scaleOf_mono {num more den : Nat} (le : num ≤ more) : scaleOf num den ≤ scaleOf more den := by
  have quotients : num / den ≤ more / den := Nat.div_le_div_right le
  unfold scaleOf
  by_cases none : num / den = 0
  · rw [none, Nat.log2_zero]
    omega
  · have bound : 2 ^ (num / den).log2 ≤ more / den := Nat.le_trans (Nat.log2_self_le none) quotients
    have some : more / den ≠ 0 := fun zero => none (Nat.le_zero.1 (zero ▸ quotients))
    have logs := (Nat.le_log2 some).2 bound
    omega

theorem div_shiftLeft (num den scale : Nat) : num / (den <<< scale) = num / den / 2 ^ scale := by
  rw [Nat.shiftLeft_eq, Nat.div_div_eq_div_mul]

theorem roundQuotient_le (num den : Nat) :
    roundQuotient num (den <<< scaleOf num den) ≤ 2 * fractionCount := by
  have short : num / (den <<< scaleOf num den) < 2 * fractionCount := by
    rw [div_shiftLeft, Nat.div_lt_iff_lt_mul (Nat.two_pow_pos _)]
    have bound : num / den < 2 ^ ((num / den).log2 + 1) := Nat.lt_log2_self
    have power : 2 * fractionCount * 2 ^ scaleOf num den = 2 ^ (53 + scaleOf num den) := by
      rw [Nat.pow_add]
      rfl
    have exponents : (num / den).log2 + 1 ≤ 53 + scaleOf num den := by
      unfold scaleOf
      omega
    have powers := Nat.pow_le_pow_right (show 0 < 2 by decide) exponents
    omega
  have upper := (roundQuotient_bounds num (den <<< scaleOf num den)).2
  omega

theorem fractionCount_le_quotient {num den : Nat} (scaled : 0 < scaleOf num den) :
    fractionCount ≤ num / (den <<< scaleOf num den) := by
  rw [div_shiftLeft, Nat.le_div_iff_mul_le (Nat.two_pow_pos _)]
  have logs : (num / den).log2 = 52 + scaleOf num den := by
    unfold scaleOf at *
    omega
  have some : num / den ≠ 0 := by
    intro none
    rw [none, Nat.log2_zero] at logs
    omega
  have bound := Nat.log2_self_le some
  rw [logs, Nat.pow_add] at bound
  exact bound

theorem fractionCount_le_roundQuotient {num den : Nat} (scaled : 0 < scaleOf num den) :
    fractionCount ≤ roundQuotient num (den <<< scaleOf num den) :=
  Nat.le_trans (fractionCount_le_quotient scaled) (roundQuotient_bounds _ _).1

theorem nearest_mono {num more den : Nat} (le : num ≤ more) : nearest num den ≤ nearest more den := by
  have scales := @scaleOf_mono num more den le
  have codes : scaleOf num den * fractionCount + roundQuotient num (den <<< scaleOf num den) ≤
      scaleOf more den * fractionCount + roundQuotient more (den <<< scaleOf more den) := by
    by_cases same : scaleOf num den = scaleOf more den
    · rw [same]
      exact Nat.add_le_add_left (roundQuotient_mono le) _
    · -- The next binade begins where this one ends.
      have small := roundQuotient_le num den
      have large := @fractionCount_le_roundQuotient more den (by omega)
      have step := Nat.mul_le_mul_right fractionCount (show scaleOf num den + 1 ≤ scaleOf more den by omega)
      rw [Nat.add_mul] at step
      omega
  rw [nearest_eq, nearest_eq]
  omega

@[simp] theorem units_zero : units 0 = 0 := rfl

@[simp] theorem nearest_zero (den : Nat) : nearest 0 den = 0 := by
  simp [nearest_eq, scaleOf, roundQuotient]

theorem scaleOf_of_lt {num : Nat} (small : num < 2 * fractionCount) : scaleOf num 1 = 0 := by
  rw [scaleOf, Nat.div_one]
  by_cases none : num = 0
  · rw [none, Nat.log2_zero]
  · have bits := (@Nat.log2_lt num 53 none).2 small
    omega

theorem scaleOf_shifted {fraction scale : Nat} (below : fraction < fractionCount) :
    scaleOf ((fractionCount + fraction) * 2 ^ scale) 1 = scale := by
  have positive := Nat.two_pow_pos scale
  have lower : 2 ^ (52 + scale) ≤ (fractionCount + fraction) * 2 ^ scale := by
    rw [Nat.pow_add]
    exact Nat.mul_le_mul_right _ (Nat.le_add_right fractionCount fraction)
  have upper : (fractionCount + fraction) * 2 ^ scale < 2 ^ (52 + scale + 1) := by
    rw [Nat.add_right_comm, Nat.pow_add]
    exact Nat.mul_lt_mul_of_pos_right (show fractionCount + fraction < 2 * fractionCount by omega) positive
  have some : (fractionCount + fraction) * 2 ^ scale ≠ 0 := by
    have bound := Nat.two_pow_pos (52 + scale)
    omega
  rw [scaleOf, Nat.div_one, (Nat.log2_eq_iff some).2 ⟨lower, upper⟩, Nat.add_sub_cancel_left]

theorem nearest_units {code : Nat} (finite : code ≤ infinityCode) : nearest (units code) 1 = code := by
  have parts := Nat.div_add_mod code fractionCount
  have fraction := Nat.mod_lt code (show 0 < fractionCount by decide)
  have rounded : scaleOf (units code) 1 * fractionCount +
      roundQuotient (units code) (1 <<< scaleOf (units code) 1) = code := by
    unfold units
    dsimp only
    split
    · next small =>
      have whole := @roundQuotient_mul (code % fractionCount) 1 Nat.one_pos
      rw [Nat.mul_one] at whole
      rw [scaleOf_of_lt (by omega), Nat.shiftLeft_zero, whole]
      rw [small] at parts
      omega
    · next large =>
      have whole := @roundQuotient_mul (fractionCount + code % fractionCount)
        (2 ^ (code / fractionCount - 1)) (Nat.two_pow_pos _)
      rw [Nat.shiftLeft_eq, scaleOf_shifted fraction, Nat.shiftLeft_eq, Nat.one_mul, whole, ← Nat.add_assoc,
        ← Nat.succ_mul, Nat.succ_eq_add_one, Nat.sub_add_cancel (Nat.pos_of_ne_zero large), Nat.mul_comm]
      exact parts
  rw [nearest_eq, rounded]
  exact Nat.min_eq_left finite

end ContextFree.Binary64
