import ContextFree.Proofs.Binary64.Nearest

namespace ContextFree.Decimal

open Binary64

variable {code coefficient c : Nat} {exponent e : Int} {n : Nat}

/-- A numeral for a number that no other numeral for it improves on. -/
structure IsShortest (code coefficient : Nat) (exponent : Int) : Prop where
  reads : magnitude coefficient exponent = code
  coarsest : ∀ c e, magnitude c e = code → e ≤ exponent
  fewest : ∀ c e, magnitude c e = code → (Nat.toDigits 10 coefficient).length ≤ (Nat.toDigits 10 c).length
  nearest : ∀ c, magnitude c exponent = code →
    |inUnits coefficient exponent - units code| ≤ |inUnits c exponent - units code|

theorem inUnits_eq_mul (c : Nat) (e : Int) : inUnits c e = c * inUnits 1 e := by
  rw [inUnits, inUnits, Nat.cast_one, one_mul, mul_assoc]

theorem inUnits_succ (c : Nat) (e : Int) : inUnits (c + 1) e = inUnits c e + inUnits 1 e := by
  rw [inUnits_eq_mul (c + 1), inUnits_eq_mul c, Nat.cast_succ, add_mul, one_mul]

theorem inUnits_one_pos (e : Int) : 0 < inUnits 1 e := by
  unfold inUnits
  generalize 1074 = k
  exact mul_pos (mul_pos (Nat.cast_pos.2 Nat.one_pos) (zpow_pos (by norm_num) e)) (by positivity)

theorem inUnits_mono (le : coefficient ≤ c) : inUnits coefficient e ≤ inUnits c e := by
  rw [inUnits_eq_mul, inUnits_eq_mul c]
  exact mul_le_mul_of_nonneg_right (Nat.cast_le.2 le) (inUnits_one_pos e).le

theorem inUnits_one_mono (le : exponent ≤ e) : inUnits 1 exponent ≤ inUnits 1 e := by
  unfold inUnits
  generalize 1074 = k
  gcongr
  norm_num

theorem inUnits_ten_pow (k : Nat) (e : Int) : inUnits (10 ^ k) e = inUnits 1 (k + e) := by
  rw [inUnits, inUnits, Nat.cast_one, one_mul, zpow_add₀ (by norm_num), zpow_natCast, Nat.cast_pow]
  rfl

theorem magnitude_mono (le : inUnits coefficient exponent ≤ inUnits c e) :
    magnitude coefficient exponent ≤ magnitude c e :=
  (isNearest_magnitude coefficient exponent).mono (isNearest_magnitude c e) le

theorem magnitude_of_between (finite : code ≤ infinityCode) (reads : magnitude coefficient exponent = code)
    (between : inUnits coefficient exponent ≤ inUnits c e ∧ inUnits c e ≤ units code ∨
      units code ≤ inUnits c e ∧ inUnits c e ≤ inUnits coefficient exponent) : magnitude c e = code := by
  have own := isNearest_units finite
  have read := isNearest_magnitude c e
  rcases between with ⟨low, high⟩ | ⟨low, high⟩
  · exact Nat.le_antisymm (read.mono own high) (reads ▸ magnitude_mono low)
  · exact Nat.le_antisymm (reads ▸ magnitude_mono high) (own.mono read low)

theorem onGrid_ofNat (code e : Nat) : onGrid code (.ofNat e) = (units code, Nat.pow 10 e <<< 1074) := rfl

theorem onGrid_negSucc (code e : Nat) :
    onGrid code (.negSucc e) = (units code * Nat.pow 10 (e + 1), 1 <<< 1074) := rfl

theorem onGrid_pos (code : Nat) (e : Int) : 0 < (onGrid code e).2 := by
  cases e with
  | ofNat e => exact Nat.shiftLeft_pos_iff.2 (Nat.pow_pos (by decide))
  | negSucc e => exact Nat.shiftLeft_pos_iff.2 Nat.one_pos

theorem onGrid_value (code : Nat) (e : Int) :
    (units code : ℚ) = ((onGrid code e).1 : ℚ) / (onGrid code e).2 * inUnits 1 e := by
  have positive := onGrid_pos code e
  cases e with
  | ofNat e =>
    rw [onGrid_ofNat] at positive ⊢
    rw [inUnits_ofNat, Nat.one_mul]
    generalize Nat.pow 10 e <<< 1074 = den at positive ⊢
    rw [Nat.cast_one]
    field_simp
  | negSucc e =>
    rw [onGrid_negSucc] at positive ⊢
    rw [inUnits_negSucc]
    have power : 0 < Nat.pow 10 (e + 1) := Nat.pow_pos (by decide)
    generalize 1 <<< 1074 = den at positive ⊢
    generalize Nat.pow 10 (e + 1) = ten at power ⊢
    push_cast
    field_simp

def below (code : Nat) (e : Int) : Nat := (onGrid code e).1 / (onGrid code e).2

def part (code : Nat) (e : Int) : ℚ := ((onGrid code e).1 % (onGrid code e).2 : Nat) / ((onGrid code e).2 : ℚ)

theorem part_bounds (code : Nat) (e : Int) : 0 ≤ part code e ∧ part code e ≤ 1 := by
  have divisor : (0 : ℚ) < (onGrid code e).2 := Nat.cast_pos.2 (onGrid_pos code e)
  have under := (Nat.mod_lt (onGrid code e).1 (onGrid_pos code e)).le
  exact ⟨div_nonneg (Nat.cast_nonneg _) divisor.le, (div_le_one divisor).2 (Nat.cast_le.2 under)⟩

theorem units_eq_below (code : Nat) (e : Int) :
    (units code : ℚ) = inUnits (below code e) e + part code e * inUnits 1 e := by
  rw [onGrid_value code e, natCast_div, inUnits_eq_mul (below code e), ← add_mul]
  rfl

theorem below_le (code : Nat) (e : Int) : inUnits (below code e) e ≤ units code := by
  have rest := mul_nonneg (part_bounds code e).1 (inUnits_one_pos e).le
  linarith [units_eq_below code e]

theorem le_above (code : Nat) (e : Int) : units code ≤ inUnits (below code e + 1) e := by
  have rest := mul_le_mul_of_nonneg_right (part_bounds code e).2 (inUnits_one_pos e).le
  linarith [units_eq_below code e, inUnits_succ (below code e) e]

/-- If any multiple is read as the number, so is one of the two around it, and that one is not farther off. -/
theorem around (finite : code ≤ infinityCode) (reads : magnitude c e = code) :
    (magnitude (below code e) e = code ∧ |inUnits (below code e) e - units code| ≤ |inUnits c e - units code|) ∨
      (magnitude (below code e + 1) e = code ∧
        |inUnits (below code e + 1) e - units code| ≤ |inUnits c e - units code|) := by
  have low := below_le code e
  have high := le_above code e
  rcases Nat.lt_or_ge (below code e) c with lt | le
  · right
    have order := inUnits_mono (e := e) lt
    refine ⟨magnitude_of_between finite reads (Or.inr ⟨high, order⟩), ?_⟩
    rw [abs_of_nonneg (sub_nonneg.2 high), abs_of_nonneg (sub_nonneg.2 (high.trans order))]
    linarith
  · left
    have order := inUnits_mono (e := e) le
    refine ⟨magnitude_of_between finite reads (Or.inl ⟨order, low⟩), ?_⟩
    rw [abs_of_nonpos (sub_nonpos.2 low), abs_of_nonpos (sub_nonpos.2 (order.trans low))]
    linarith

theorem distance_order (code : Nat) (e : Int) :
    if 2 * ((onGrid code e).1 % (onGrid code e).2) < (onGrid code e).2 then
      |inUnits (below code e) e - units code| ≤ |inUnits (below code e + 1) e - units code|
    else |inUnits (below code e + 1) e - units code| ≤ |inUnits (below code e) e - units code| := by
  have grid := (inUnits_one_pos e).le
  have divisor : (0 : ℚ) < (onGrid code e).2 := Nat.cast_pos.2 (onGrid_pos code e)
  have value := units_eq_below code e
  have next := inUnits_succ (below code e) e
  rw [abs_of_nonpos (sub_nonpos.2 (below_le code e)), abs_of_nonneg (sub_nonneg.2 (le_above code e))]
  split
  · next first =>
    have half : part code e ≤ 1 / 2 := by
      rw [part, div_le_div_iff₀ divisor two_pos]
      exact_mod_cast (by omega : (onGrid code e).1 % (onGrid code e).2 * 2 ≤ 1 * (onGrid code e).2)
    linarith [mul_le_mul_of_nonneg_right half grid]
  · next second =>
    have half : 1 / 2 ≤ part code e := by
      rw [part, div_le_div_iff₀ two_pos divisor]
      exact_mod_cast (by omega : 1 * (onGrid code e).2 ≤ (onGrid code e).1 % (onGrid code e).2 * 2)
    linarith [mul_le_mul_of_nonneg_right half grid]

theorem closest_eq (code : Nat) (e : Int) : closest code e =
    if magnitude (below code e) e == code && magnitude (below code e + 1) e == code then
      some (if 2 * ((onGrid code e).1 % (onGrid code e).2) < (onGrid code e).2 then below code e else below code e + 1)
    else if magnitude (below code e) e == code then some (below code e)
    else if magnitude (below code e + 1) e == code then some (below code e + 1)
    else none := rfl

theorem magnitude_ne_of_closest (finite : code ≤ infinityCode) (none : closest code e = none) (c : Nat) :
    magnitude c e ≠ code := by
  intro reads
  rw [closest_eq] at none
  split at none
  · cases none
  split at none
  · cases none
  next notLower =>
  split at none
  · cases none
  next notUpper =>
  rcases around finite reads with ⟨lower, -⟩ | ⟨upper, -⟩
  · exact notLower (beq_iff_eq.2 lower)
  · exact notUpper (beq_iff_eq.2 upper)

theorem closest_nearest (finite : code ≤ infinityCode) (found : closest code e = some coefficient)
    (reads : magnitude c e = code) : |inUnits coefficient e - units code| ≤ |inUnits c e - units code| := by
  have order := distance_order code e
  rw [closest_eq] at found
  split at found
  · cases found
    by_cases half : 2 * ((onGrid code e).1 % (onGrid code e).2) < (onGrid code e).2
    · rw [if_pos half] at order ⊢
      rcases around finite reads with ⟨-, near⟩ | ⟨-, near⟩
      · exact near
      · exact order.trans near
    · rw [if_neg half] at order ⊢
      rcases around finite reads with ⟨-, near⟩ | ⟨-, near⟩
      · exact order.trans near
      · exact near
  · next one =>
    split at found
    · next lower =>
      cases found
      rcases around finite reads with ⟨-, near⟩ | ⟨upper, -⟩
      · exact near
      · exact absurd (by rw [lower, upper, beq_self_eq_true]; rfl) one
    · next notLower =>
      split at found
      · cases found
        rcases around finite reads with ⟨lower, -⟩ | ⟨-, near⟩
        · exact absurd (beq_iff_eq.2 lower) notLower
        · exact near
      · cases found

theorem inUnits_last (code : Nat) : inUnits (units code * Nat.pow 5 1074) (-1074) = units code := by
  rw [show (-1074 : Int) = -((1074 : Nat) : Int) from rfl, inUnits]
  generalize 1074 = k
  rw [zpow_neg, zpow_natCast, Nat.pow_eq, show (10 : ℚ) = 5 * 2 by norm_num, mul_pow]
  push_cast
  field_simp

/-- The search stops on the coarsest of its grids that has a numeral for the number. -/
theorem shortest_coarsest (finite : code ≤ infinityCode) (n : Nat) (reads : magnitude c e = code)
    (searched : e ≤ (n : Int) - 1074) : e ≤ (shortest code n).2 := by
  induction n with
  | zero => exact searched
  | succ n ih =>
    rw [shortest]
    split
    · exact searched
    · next none =>
      have passed : e ≠ (n : Int) + 1 - 1074 := by
        rintro rfl
        exact magnitude_ne_of_closest finite none c reads
      exact ih (by omega)

theorem shortest_nearest (finite : code ≤ infinityCode) (n : Nat) (reads : magnitude c (shortest code n).2 = code) :
    |inUnits (shortest code n).1 (shortest code n).2 - units code| ≤ |inUnits c (shortest code n).2 - units code| := by
  induction n with
  | zero =>
    have exact : inUnits (shortest code 0).1 (shortest code 0).2 = units code := inUnits_last code
    rw [exact, sub_self, abs_zero]
    exact abs_nonneg _
  | succ n ih =>
    rw [shortest] at reads ⊢
    split at reads
    · next found => exact closest_nearest finite found reads
    · exact ih reads

theorem units_succ_le (some : 0 < code) : units (code + 1) ≤ 2 * units code := by
  obtain ⟨scale, quotient, rfl, short, long⟩ := exists_scaled code
  have significand : 0 < quotient := by
    rcases long with rfl | long
    · omega
    · exact Nat.lt_of_lt_of_le (by decide) long
  rw [Nat.add_assoc, units_scaled short (long.imp_right Nat.le_succ_of_le), units_scaled short.le long, ← Nat.mul_assoc]
  exact Nat.mul_le_mul_right _ (by omega)

def wholeDigits (code : Nat) : Nat :=
  if units code >>> 1074 = 0 then 0 else (Nat.toDigits 10 (units code >>> 1074)).length

theorem lt_ten_pow_length (m : Nat) : m < 10 ^ (Nat.toDigits 10 m).length :=
  (Nat.length_toDigits_le_iff (by decide) (List.length_pos_iff.2 Nat.toDigits_ne_nil)).1 (Nat.le_refl _)

theorem units_lt_top (code : Nat) : (units code : ℚ) < inUnits 1 (wholeDigits code) := by
  have whole : units code >>> 1074 < 10 ^ wholeDigits code := by
    unfold wholeDigits
    split
    · next none => rw [none, Nat.pow_zero]; exact Nat.one_pos
    · exact lt_ten_pow_length _
  have bound : ∀ k, units code >>> k < 10 ^ wholeDigits code →
      units code < (1 * Nat.pow 10 (wholeDigits code)) <<< k := by
    intro k whole
    rw [Nat.shiftRight_eq_div_pow, Nat.div_lt_iff_lt_mul (Nat.two_pow_pos k)] at whole
    rwa [Nat.one_mul, Nat.shiftLeft_eq]
  rw [← Int.ofNat_eq_natCast, inUnits_ofNat, Nat.cast_one, div_one]
  exact Nat.cast_lt.2 (bound 1074 whole)

/-- No numeral for a number is counted in a power of ten above the one where the search begins. -/
theorem exponent_le_wholeDigits (some : 0 < code) (finite : code < infinityCode) (reads : magnitude c e = code) :
    e ≤ wholeDigits code := by
  by_contra above
  have counted : c ≠ 0 := by
    rintro rfl
    have zero := isNearest_magnitude 0 e
    rw [reads, inUnits_eq_mul, Nat.cast_zero, zero_mul] at zero
    have none := zero.unique (isNearest_zero le_rfl (by norm_num))
    omega
  have next : (units (code + 1) : ℚ) ≤ inUnits c e := by
    have double : (units (code + 1) : ℚ) ≤ 2 * units code := by exact_mod_cast units_succ_le some
    calc (units (code + 1) : ℚ) ≤ 2 * units code := double
      _ ≤ 10 * inUnits 1 (wholeDigits code) := by linarith [units_lt_top code, inUnits_one_pos (wholeDigits code)]
      _ = inUnits (10 ^ 1) (wholeDigits code) := by rw [inUnits_eq_mul (10 ^ 1), Nat.pow_one, Nat.cast_ofNat]
      _ = inUnits 1 ((1 : Nat) + wholeDigits code) := inUnits_ten_pow 1 _
      _ ≤ inUnits 1 e := inUnits_one_mono (by omega)
      _ ≤ inUnits c e := inUnits_mono (Nat.pos_of_ne_zero counted)
  have order : (units code : ℚ) < units (code + 1) := Nat.cast_lt.2 (units_strictMono (Nat.lt_succ_self code))
  have nearer := two_mul_le_of_lower_nearer order (reads ▸ (isNearest_magnitude c e).nearest (code + 1) finite)
  linarith

/-- A numeral with fewer digits would leave a power of ten between the two. -/
theorem fewest_of_coarsest (reads : magnitude coefficient exponent = code)
    (coarsest : ∀ c e, magnitude c e = code → e ≤ exponent) (other : magnitude c e = code) :
    (Nat.toDigits 10 coefficient).length ≤ (Nat.toDigits 10 c).length := by
  by_contra fewer
  have filled : 0 < (Nat.toDigits 10 c).length := List.length_pos_iff.2 Nat.toDigits_ne_nil
  have exponents := coarsest c e other
  obtain ⟨k, same⟩ : ∃ k, (Nat.toDigits 10 coefficient).length = k + 1 := Nat.exists_eq_succ_of_ne_zero (by omega)
  have large : 10 ^ k ≤ coefficient := by
    by_contra less
    have short := (Nat.length_toDigits_le_iff (b := 10) (by decide) (by omega : 0 < k)).2 (Nat.lt_of_not_le less)
    omega
  have small : c ≤ 10 ^ k :=
    (lt_ten_pow_length c).le.trans (Nat.pow_le_pow_right (by decide) (by omega))
  have low : inUnits c e ≤ inUnits 1 (k + exponent) := by
    calc inUnits c e ≤ inUnits (10 ^ k) e := inUnits_mono small
      _ = inUnits 1 (k + e) := inUnits_ten_pow k e
      _ ≤ inUnits 1 (k + exponent) := inUnits_one_mono (by omega)
  have high : inUnits 1 (k + exponent) ≤ inUnits coefficient exponent :=
    inUnits_ten_pow k exponent ▸ inUnits_mono large
  have middle : magnitude 1 (k + exponent) = code :=
    Nat.le_antisymm (reads ▸ magnitude_mono high) (other ▸ magnitude_mono low)
  have coarser := coarsest 1 (k + exponent) middle
  omega

theorem isShortest_ofMagnitude (some : 0 < code) (finite : code < infinityCode) :
    IsShortest code (ofMagnitude code).1 (ofMagnitude code).2 := by
  have reads : magnitude (ofMagnitude code).1 (ofMagnitude code).2 = code := magnitude_of_shortest finite.le _
  have coarsest : ∀ c e, magnitude c e = code → e ≤ (ofMagnitude code).2 := by
    intro c e other
    have top := exponent_le_wholeDigits some finite other
    have searched : e ≤ ((1074 + wholeDigits code : Nat) : Int) - 1074 := by
      rw [Nat.cast_add]
      exact top.trans (add_sub_cancel_left _ _).ge
    exact shortest_coarsest finite.le _ other searched
  exact ⟨reads, coarsest, fun c e => fewest_of_coarsest reads coarsest, fun c => shortest_nearest finite.le _⟩

end ContextFree.Decimal
