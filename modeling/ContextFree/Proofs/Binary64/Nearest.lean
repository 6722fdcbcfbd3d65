import ContextFree.Proofs.Binary64.Decimal
import Mathlib.Algebra.Order.Field.Power
import Mathlib.Algebra.Order.Field.Rat
import Mathlib.Tactic.FieldSimp
import Mathlib.Tactic.Linarith
import Mathlib.Tactic.Positivity
import Mathlib.Tactic.Ring

namespace ContextFree

namespace Binary64

/-- Among the numbers up to infinity none is nearer to `x`, which is counted in units. The bits are
even if another one is as near. -/
structure IsNearest (x : ℚ) (code : Nat) : Prop where
  le : code ≤ infinityCode
  nearest : ∀ other ≤ infinityCode, |(units code : ℚ) - x| ≤ |(units other : ℚ) - x|
  even : ∀ other ≤ infinityCode, other ≠ code → |(units other : ℚ) - x| = |(units code : ℚ) - x| → code % 2 = 0

variable {num den scale quotient code other : Nat} {x y : ℚ}

theorem units_of_parts {exponent fraction : Nat} (below : fraction < fractionCount) :
    units (exponent * fractionCount + fraction) =
      if exponent = 0 then fraction else (fractionCount + fraction) * 2 ^ (exponent - 1) := by
  rw [units, Nat.mul_comm, Nat.mul_add_div (show 0 < fractionCount by decide), Nat.div_eq_of_lt below, Nat.mul_add_mod,
    Nat.mod_eq_of_lt below]
  simp only [Nat.add_zero, Nat.shiftLeft_eq]

theorem units_scaled (short : quotient ≤ 2 * fractionCount) (long : scale = 0 ∨ fractionCount ≤ quotient) :
    units (scale * fractionCount + quotient) = quotient * 2 ^ scale := by
  have positive : 0 < fractionCount := by decide
  rcases Nat.lt_or_ge quotient fractionCount with small | large
  · obtain rfl := long.resolve_right (by omega)
    rw [units_of_parts small, if_pos rfl, Nat.pow_zero, Nat.mul_one]
  · obtain ⟨rest, rfl⟩ := Nat.exists_eq_add_of_le large
    rcases Nat.lt_or_ge rest fractionCount with below | top
    · rw [← Nat.add_assoc, ← Nat.succ_mul, units_of_parts below, if_neg (Nat.succ_ne_zero scale)]
      rfl
    · -- The significand has run over into the next binade.
      obtain rfl : rest = fractionCount := by omega
      have binade : scale * fractionCount + (fractionCount + fractionCount) = (scale + 2) * fractionCount + 0 := by ring
      rw [binade, units_of_parts positive, if_neg (Nat.succ_ne_zero (scale + 1))]
      change (fractionCount + 0) * 2 ^ (scale + 1) = (fractionCount + fractionCount) * 2 ^ scale
      ring

theorem units_binade (scale : Nat) : units ((scale + 1) * fractionCount) = fractionCount * 2 ^ scale := by
  rw [Nat.succ_mul, units_scaled (Nat.le_mul_of_pos_left _ two_pos) (Or.inr (Nat.le_refl _))]

theorem exists_scaled (code : Nat) : ∃ scale quotient, code = scale * fractionCount + quotient ∧
    quotient < 2 * fractionCount ∧ (scale = 0 ∨ fractionCount ≤ quotient) := by
  have fraction := Nat.mod_lt code (show 0 < fractionCount by decide)
  have parts := Nat.div_add_mod' code fractionCount
  by_cases low : code / fractionCount = 0
  · exact ⟨0, code % fractionCount, by rw [low] at parts; omega, by omega, Or.inl rfl⟩
  · obtain ⟨scale, same⟩ := Nat.exists_eq_succ_of_ne_zero low
    refine ⟨scale, fractionCount + code % fractionCount, ?_, by omega, Or.inr (Nat.le_add_right _ _)⟩
    rw [same, Nat.succ_mul] at parts
    omega

theorem units_strictMono : StrictMono units := by
  refine strictMono_nat_of_lt_succ fun code => ?_
  obtain ⟨scale, quotient, rfl, short, long⟩ := exists_scaled code
  rw [units_scaled (Nat.le_of_lt short) long, Nat.add_assoc, units_scaled short (long.imp_right Nat.le_succ_of_le)]
  exact Nat.mul_lt_mul_of_pos_right (Nat.lt_succ_self quotient) (Nat.two_pow_pos scale)

theorem exists_multiple (above : scale = 0 ∨ (scale + 1) * fractionCount ≤ code) :
    ∃ factor, units code = factor * 2 ^ scale := by
  obtain ⟨finer, quotient, rfl, short, long⟩ := exists_scaled code
  have le : scale ≤ finer := by
    rcases above with rfl | above
    · exact Nat.zero_le _
    · have bound : (scale + 1) * fractionCount < (finer + 2) * fractionCount := by
        rw [Nat.add_mul finer 2]
        omega
      have binades := Nat.lt_of_mul_lt_mul_right bound
      omega
  obtain ⟨gap, rfl⟩ := Nat.exists_eq_add_of_le le
  refine ⟨quotient * 2 ^ gap, ?_⟩
  rw [units_scaled (Nat.le_of_lt short) long, Nat.add_comm, Nat.pow_add, Nat.mul_assoc]

theorem natCast_div (num den : Nat) : (num : ℚ) / den = (num / den : Nat) + (num % den : Nat) / den := by
  rcases Nat.eq_zero_or_pos den with rfl | positive
  · simp
  · have parts : ((den * (num / den) + num % den : Nat) : ℚ) = num := by rw [Nat.div_add_mod]
    have divisor : (den : ℚ) ≠ 0 := by positivity
    push_cast at parts
    field_simp
    linarith

/-- Rounding moves a quotient by a half at the most, and by a half only to an even number. -/
theorem roundQuotient_close (num : Nat) (positive : 0 < den) : |(roundQuotient num den : ℚ) - num / den| ≤ 1 / 2 ∧
    (|(roundQuotient num den : ℚ) - num / den| = 1 / 2 → roundQuotient num den % 2 = 0) := by
  have divisor : (0 : ℚ) < den := by positivity
  have rest : (0 : ℚ) ≤ (num % den : Nat) / den := by positivity
  rw [natCast_div]
  rcases Nat.lt_trichotomy (2 * (num % den)) den with below | half | above
  · have bound : ((num % den : Nat) : ℚ) / den < 1 / 2 := by
      rw [div_lt_div_iff₀ divisor two_pos]
      exact_mod_cast (by omega : num % den * 2 < 1 * den)
    rw [roundQuotient_of_lt below, sub_add_cancel_left, abs_neg, abs_of_nonneg rest]
    exact ⟨bound.le, fun same => absurd same bound.ne⟩
  · have same : ((num % den : Nat) : ℚ) / den = 1 / 2 := by
      rw [div_eq_div_iff divisor.ne' two_ne_zero]
      exact_mod_cast (by omega : num % den * 2 = 1 * den)
    rw [roundQuotient_of_eq half, same]
    refine ⟨?_, fun _ => by omega⟩
    rcases Nat.mod_two_eq_zero_or_one (num / den) with even | odd
    · rw [even, Nat.add_zero, sub_add_cancel_left, abs_neg, abs_of_pos one_half_pos]
    · rw [odd, Nat.cast_add, Nat.cast_one, add_sub_add_left_eq_sub]
      norm_num [abs_of_pos]
  · have under : ((num % den : Nat) : ℚ) / den < 1 := by
      rw [div_lt_one divisor]
      exact_mod_cast Nat.mod_lt num positive
    have bound : 1 / 2 < ((num % den : Nat) : ℚ) / den := by
      rw [div_lt_div_iff₀ two_pos divisor]
      exact_mod_cast (by omega : 1 * den < num % den * 2)
    have gap : |((num / den + 1 : Nat) : ℚ) - ((num / den : Nat) + (num % den : Nat) / den)| =
        1 - (num % den : Nat) / den := by
      rw [Nat.cast_add, Nat.cast_one, add_sub_add_left_eq_sub, abs_of_pos (sub_pos.2 under)]
    rw [roundQuotient_of_gt above, gap]
    exact ⟨by linarith, fun same => by linarith⟩

/-- Two whole numbers are not both within less than a half. -/
theorem one_le_distances {near far : Nat} (apart : far ≠ near) : 1 ≤ |(far : ℚ) - x| + |(near : ℚ) - x| := by
  have step : (1 : ℚ) ≤ |(far : ℚ) - near| := by
    exact_mod_cast Int.one_le_abs (sub_ne_zero.2 (Nat.cast_injective.ne apart) : (far : ℤ) - near ≠ 0)
  calc (1 : ℚ) ≤ |(far : ℚ) - near| := step
    _ ≤ |(far : ℚ) - x| + |x - near| := abs_sub_le _ _ _
    _ = |(far : ℚ) - x| + |(near : ℚ) - x| := by rw [abs_sub_comm x]

theorem scaled_distance (positive : 0 < den) (factor scale : Nat) :
    |((factor * 2 ^ scale : Nat) : ℚ) - num / den| = |(factor : ℚ) - num / (den <<< scale : Nat)| * 2 ^ scale := by
  have divisor : (den : ℚ) ≠ 0 := by positivity
  have step : (0 : ℚ) < 2 ^ scale := by positivity
  have scaled : ((factor * 2 ^ scale : Nat) : ℚ) - num / den = (factor - num / (den <<< scale : Nat)) * 2 ^ scale := by
    rw [Nat.shiftLeft_eq]
    push_cast
    field_simp
  rw [scaled, abs_mul, abs_of_pos step]

theorem nearest_multiple (positive : 0 < den) {factor : Nat} (apart : factor ≠ roundQuotient num (den <<< scale)) :
    |((roundQuotient num (den <<< scale) * 2 ^ scale : Nat) : ℚ) - num / den| ≤
        |((factor * 2 ^ scale : Nat) : ℚ) - num / den| ∧
      (|((factor * 2 ^ scale : Nat) : ℚ) - num / den| =
          |((roundQuotient num (den <<< scale) * 2 ^ scale : Nat) : ℚ) - num / den| →
        roundQuotient num (den <<< scale) % 2 = 0) := by
  have step : (0 : ℚ) < 2 ^ scale := by positivity
  have shifted : 0 < den <<< scale := by
    rw [Nat.shiftLeft_eq]
    positivity
  obtain ⟨close, even⟩ := roundQuotient_close num shifted
  have far := one_le_distances (x := num / (den <<< scale : Nat)) apart
  rw [scaled_distance positive, scaled_distance positive]
  refine ⟨mul_le_mul_of_nonneg_right (by linarith) step.le, fun level => even ?_⟩
  have same := mul_right_cancel₀ step.ne' level
  linarith

theorem binade_le (positive : 0 < den) (scaled : 0 < scaleOf num den) :
    ((fractionCount * 2 ^ scaleOf num den : Nat) : ℚ) ≤ num / den := by
  have divisor : (0 : ℚ) < den := by positivity
  have quotient := fractionCount_le_quotient scaled
  rw [div_shiftLeft, Nat.le_div_iff_mul_le (Nat.two_pow_pos _), Nat.le_div_iff_mul_le positive] at quotient
  rw [le_div_iff₀ divisor]
  exact_mod_cast quotient

theorem binade_mono {more : Nat} (le : scale ≤ more) : fractionCount * 2 ^ scale ≤ fractionCount * 2 ^ more :=
  Nat.mul_le_mul_left _ (Nat.pow_le_pow_right two_pos le)

def uncapped (num den : Nat) : Nat :=
  scaleOf num den * fractionCount + roundQuotient num (den <<< scaleOf num den)

theorem nearest_eq_min (num den : Nat) : nearest num den = min (uncapped num den) infinityCode := rfl

theorem long_roundQuotient (num den : Nat) :
    scaleOf num den = 0 ∨ fractionCount ≤ roundQuotient num (den <<< scaleOf num den) :=
  (Nat.eq_zero_or_pos _).imp_right fractionCount_le_roundQuotient

theorem units_uncapped (num den : Nat) :
    units (uncapped num den) = roundQuotient num (den <<< scaleOf num den) * 2 ^ scaleOf num den :=
  units_scaled (roundQuotient_le num den) (long_roundQuotient num den)

theorem uncapped_mod_two (num den : Nat) :
    uncapped num den % 2 = roundQuotient num (den <<< scaleOf num den) % 2 := by
  unfold uncapped fractionCount
  omega

/-- A number below the binade of the quotient is farther off than the start of the binade. -/
theorem distance_lt_of_below (positive : 0 < den) (scaled : 0 < scaleOf num den)
    (below : other < (scaleOf num den + 1) * fractionCount) :
    |(units (uncapped num den) : ℚ) - num / den| < |(units other : ℚ) - num / den| := by
  have start := binade_le positive scaled
  have under : units other < fractionCount * 2 ^ scaleOf num den := by
    rw [← units_binade]
    exact units_strictMono below
  have under : (units other : ℚ) < (fractionCount * 2 ^ scaleOf num den : Nat) := Nat.cast_lt.2 under
  have closer : |(units (uncapped num den) : ℚ) - num / den| ≤
      |((fractionCount * 2 ^ scaleOf num den : Nat) : ℚ) - num / den| := by
    rw [units_uncapped]
    by_cases same : fractionCount = roundQuotient num (den <<< scaleOf num den)
    · rw [← same]
    · exact (nearest_multiple positive same).1
  rw [abs_of_nonpos (sub_nonpos.2 start)] at closer
  rw [abs_of_nonpos (show (units other : ℚ) - num / den ≤ 0 by linarith)]
  linarith

theorem uncapped_nearest (positive : 0 < den) (apart : other ≠ uncapped num den) :
    |(units (uncapped num den) : ℚ) - num / den| ≤ |(units other : ℚ) - num / den| ∧
      (|(units other : ℚ) - num / den| = |(units (uncapped num den) : ℚ) - num / den| → uncapped num den % 2 = 0) := by
  by_cases above : scaleOf num den = 0 ∨ (scaleOf num den + 1) * fractionCount ≤ other
  · obtain ⟨factor, multiple⟩ := exists_multiple above
    have factors : factor ≠ roundQuotient num (den <<< scaleOf num den) := by
      rintro rfl
      exact apart (units_strictMono.injective (multiple.trans (units_uncapped num den).symm))
    rw [units_uncapped, multiple, uncapped_mod_two]
    exact nearest_multiple positive factors
  · obtain ⟨scaled, below⟩ := not_or.1 above
    have closer := distance_lt_of_below positive (Nat.pos_of_ne_zero scaled) (Nat.lt_of_not_le below)
    exact ⟨closer.le, fun level => absurd level closer.ne'⟩

theorem infinity_le (positive : 0 < den) (past : infinityCode < uncapped num den) :
    (units infinityCode : ℚ) ≤ num / den := by
  have binades : infinityCode = (2046 + 1) * fractionCount := rfl
  have scaled : 2046 ≤ scaleOf num den := by
    have significand := roundQuotient_le num den
    rw [binades, uncapped] at past
    by_contra small
    have product := Nat.mul_le_mul_right fractionCount (show scaleOf num den ≤ 2045 by omega)
    omega
  have start := binade_le positive (Nat.lt_of_lt_of_le (by decide : 0 < 2046) scaled)
  rw [binades, units_binade]
  exact le_trans (Nat.cast_le.2 (binade_mono scaled)) start

theorem isNearest_infinity (start : (units infinityCode : ℚ) ≤ x) : IsNearest x infinityCode := by
  refine ⟨Nat.le_refl _, fun other le => ?_, fun _ _ _ _ => rfl⟩
  have under : (units other : ℚ) ≤ units infinityCode := Nat.cast_le.2 (units_strictMono.monotone le)
  rw [abs_of_nonpos (sub_nonpos.2 start), abs_of_nonpos (sub_nonpos.2 (under.trans start))]
  linarith

theorem isNearest_zero (positive : 0 ≤ x) (small : 2 * x < 1) : IsNearest x 0 := by
  refine ⟨Nat.zero_le _, fun other _ => ?_, fun _ _ _ _ => rfl⟩
  rw [units_zero, Nat.cast_zero, zero_sub, abs_neg, abs_of_nonneg positive]
  rcases Nat.eq_zero_or_pos other with rfl | some
  · rw [units_zero, Nat.cast_zero, zero_sub, abs_neg, abs_of_nonneg positive]
  · have least : (1 : ℚ) ≤ units other := Nat.one_le_cast.2 (units_strictMono some)
    rw [abs_of_nonneg (by linarith)]
    linarith

theorem isNearest_nearest (num : Nat) (positive : 0 < den) : IsNearest (num / den) (nearest num den) := by
  rw [nearest_eq_min]
  rcases le_or_gt (uncapped num den) infinityCode with finite | past
  · rw [Nat.min_eq_left finite]
    refine ⟨finite, fun other _ => ?_, fun other _ apart => (uncapped_nearest positive apart).2⟩
    by_cases same : other = uncapped num den
    · rw [same]
    · exact (uncapped_nearest positive same).1
  · rw [Nat.min_eq_right past.le]
    exact isNearest_infinity (infinity_le positive past)

theorem le_two_mul_of_upper_nearer {low high : ℚ} (order : low < high) (near : |high - x| ≤ |low - x|) :
    low + high ≤ 2 * x := by
  by_contra less
  have closer : |low - x| < high - x := abs_lt.2 ⟨by linarith, by linarith⟩
  exact absurd (le_trans (le_abs_self _) near) (not_le.2 closer)

theorem two_mul_le_of_lower_nearer {low high : ℚ} (order : low < high) (near : |low - x| ≤ |high - x|) :
    2 * x ≤ low + high := by
  by_contra more
  have closer : |high - x| < x - low := abs_lt.2 ⟨by linarith, by linarith⟩
  rw [abs_sub_comm low] at near
  exact absurd (le_trans (le_abs_self _) near) (not_le.2 closer)

theorem IsNearest.mono (first : IsNearest x code) (second : IsNearest y other) (le : x ≤ y) : code ≤ other := by
  by_contra wrong
  have wrong := Nat.lt_of_not_le wrong
  have order {low high : Nat} (below : low < high) : (units low : ℚ) < units high :=
    Nat.cast_lt.2 (units_strictMono below)
  have lower := le_two_mul_of_upper_nearer (order wrong) (first.nearest other second.le)
  have upper := two_mul_le_of_lower_nearer (order wrong) (second.nearest code first.le)
  -- Both numbers lie in the middle, where another code between the two would be nearer.
  have next : code = other + 1 := by
    by_contra gap
    have between : other + 1 < code := by omega
    have nearer := le_two_mul_of_upper_nearer (order between) (first.nearest (other + 1) (between.le.trans first.le))
    linarith [order (Nat.lt_succ_self other)]
  have level {z : ℚ} (middle : 2 * z = units other + units code) : |(units other : ℚ) - z| =
      |(units code : ℚ) - z| := by
    rw [show (units other : ℚ) - z = -(units code - z) by linarith, abs_neg]
  have firstEven := first.even other second.le (Nat.ne_of_lt wrong) (level (by linarith))
  have secondEven := second.even code first.le (Nat.ne_of_gt wrong) (level (by linarith)).symm
  omega

theorem IsNearest.unique (first : IsNearest x code) (second : IsNearest x other) : code = other :=
  Nat.le_antisymm (first.mono second le_rfl) (second.mono first le_rfl)

theorem isNearest_units (finite : code ≤ infinityCode) : IsNearest (units code) code := by
  have own := isNearest_nearest (units code) Nat.one_pos
  rwa [Nat.cast_one, div_one, nearest_units finite] at own

end Binary64

namespace Decimal

open Binary64

variable {coefficient : Nat} {exponent : Int}

/-- The number that a numeral stands for, counted in units of 2^-1074. -/
def inUnits (coefficient : Nat) (exponent : Int) : ℚ := coefficient * 10 ^ exponent * 2 ^ 1074

theorem inUnits_ofNat (coefficient e : Nat) :
    inUnits coefficient (.ofNat e) = ((coefficient * Nat.pow 10 e) <<< 1074 : Nat) / (1 : Nat) := by
  unfold inUnits
  generalize 1074 = k
  rw [Int.ofNat_eq_natCast, zpow_natCast, Nat.pow_eq, Nat.shiftLeft_eq]
  push_cast
  rw [div_one]

theorem inUnits_negSucc (coefficient e : Nat) :
    inUnits coefficient (.negSucc e) = (coefficient <<< 1074 : Nat) / (Nat.pow 10 (e + 1) : Nat) := by
  unfold inUnits
  generalize 1074 = k
  rw [zpow_negSucc, Nat.pow_eq, Nat.shiftLeft_eq, mul_right_comm, ← div_eq_mul_inv]
  push_cast
  rfl

theorem two_pow_le_ten_pow {k e : Nat} (le : k ≤ 3 * e) : 2 ^ k ≤ Nat.pow 10 e := by
  calc 2 ^ k ≤ 2 ^ (3 * e) := Nat.pow_le_pow_right two_pos le
    _ = 8 ^ e := Nat.pow_mul 2 3 e
    _ ≤ 10 ^ e := Nat.pow_le_pow_left (by decide) e

theorem infinity_le_inUnits {e : Nat} (some : coefficient ≠ 0) (large : 400 < e) :
    (units infinityCode : ℚ) ≤ inUnits coefficient (.ofNat e) := by
  have binade : ∀ scale, units ((scale + 1) * fractionCount) = 2 ^ (52 + scale) := fun scale =>
    (units_binade scale).trans (Nat.pow_add 2 52 scale).symm
  have start : ∀ k, 52 + 2046 = 1024 + k → units infinityCode = 2 ^ (1024 + k) := fun k same => same ▸ binade 2046
  have power : ∀ j k, j ≤ 3 * e → 2 ^ (j + k) ≤ (coefficient * Nat.pow 10 e) <<< k := by
    intro j k small
    rw [Nat.shiftLeft_eq, Nat.pow_add]
    have scaled := Nat.le_mul_of_pos_left (10 ^ e) (Nat.pos_of_ne_zero some)
    exact Nat.mul_le_mul_right _ (Nat.le_trans (two_pow_le_ten_pow small) scaled)
  rw [inUnits_ofNat, Nat.cast_one, div_one, start 1074 rfl]
  exact Nat.cast_le.2 (power 1024 1074 (by omega))

theorem inUnits_lt_half {e : Nat} (small : coefficient.log2 + 1100 < e) :
    2 * inUnits coefficient (.negSucc e) < 1 := by
  have power : ∀ k, coefficient.log2 + k < e → 2 * coefficient <<< k < Nat.pow 10 (e + 1) := by
    intro k below
    have bound : coefficient < 2 ^ (coefficient.log2 + 1) := Nat.lt_log2_self
    calc 2 * coefficient <<< k = coefficient * 2 ^ (k + 1) := by rw [Nat.shiftLeft_eq, Nat.pow_succ]; ring
      _ < 2 ^ (coefficient.log2 + 1) * 2 ^ (k + 1) := Nat.mul_lt_mul_of_pos_right bound (Nat.two_pow_pos _)
      _ = 2 ^ (coefficient.log2 + 1 + (k + 1)) := (Nat.pow_add 2 _ _).symm
      _ ≤ Nat.pow 10 (e + 1) := two_pow_le_ten_pow (by omega)
  have divisor : (0 : ℚ) < (Nat.pow 10 (e + 1) : Nat) := Nat.cast_pos.2 (Nat.pow_pos (by decide))
  rw [inUnits_negSucc, ← mul_div_assoc, div_lt_one divisor]
  exact_mod_cast power 1074 (by omega)

/-- Reading a numeral rounds to the nearest, beyond the bounds on the exponent too. -/
theorem isNearest_magnitude (coefficient : Nat) (exponent : Int) :
    IsNearest (inUnits coefficient exponent) (magnitude coefficient exponent) := by
  cases exponent with
  | ofNat e =>
    rw [magnitude_ofNat]
    split
    · next none =>
      rw [inUnits, none, Nat.cast_zero, zero_mul, zero_mul]
      exact isNearest_units (Nat.zero_le _)
    · next some =>
      split
      · next large => exact isNearest_infinity (infinity_le_inUnits some large)
      · rw [inUnits_ofNat]
        exact isNearest_nearest _ Nat.one_pos
  | negSucc e =>
    rw [magnitude_negSucc]
    split
    · next small =>
      refine isNearest_zero ?_ (inUnits_lt_half small)
      rw [inUnits_negSucc]
      exact div_nonneg (Nat.cast_nonneg _) (Nat.cast_nonneg _)
    · rw [inUnits_negSucc]
      exact isNearest_nearest _ (Nat.pow_pos (by decide))

end Decimal

end ContextFree
