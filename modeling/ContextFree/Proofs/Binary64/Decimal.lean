import ContextFree.Proofs.Binary64.Numeral
import ContextFree.Proofs.Binary64.Rounding

namespace ContextFree

namespace Binary64

theorem roundQuotient_mul_right (num den : Nat) {factor : Nat} (positive : 0 < factor) :
    roundQuotient (num * factor) (den * factor) = roundQuotient num den := by
  unfold roundQuotient
  simp only [Nat.mul_div_mul_right _ _ positive, Nat.mul_mod_mul_right, ← Nat.mul_assoc,
    Nat.mul_lt_mul_right positive]

/-- Rounding looks at the value of a quotient only. -/
theorem nearest_mul_right (num den : Nat) {factor : Nat} (positive : 0 < factor) :
    nearest (num * factor) (den * factor) = nearest num den := by
  have scales : scaleOf (num * factor) (den * factor) = scaleOf num den := by
    rw [scaleOf, Nat.mul_div_mul_right _ _ positive, scaleOf]
  rw [nearest_eq, nearest_eq, scales, Nat.shiftLeft_eq, Nat.mul_right_comm, ← Nat.shiftLeft_eq,
    roundQuotient_mul_right _ _ positive]

end Binary64

namespace Decimal

open Binary64

variable {code coefficient : Nat} {exponent : Int}

theorem magnitude_of_closest (found : closest code exponent = some coefficient) :
    magnitude coefficient exponent = code := by
  unfold closest at found
  dsimp only at found
  split at found
  · next both =>
    obtain ⟨lower, upper⟩ := Bool.and_eq_true_iff.1 both
    cases found
    split
    · exact eq_of_beq lower
    · exact eq_of_beq upper
  · split at found
    · next lower =>
      cases found
      exact eq_of_beq lower
    · split at found
      · next upper =>
        cases found
        exact eq_of_beq upper
      · cases found

theorem nearest_fives (value k : Nat) : nearest ((value * Nat.pow 5 k) <<< k) (Nat.pow 10 k) = nearest value 1 := by
  have tens : Nat.pow 10 k = Nat.pow 5 k * 2 ^ k := Nat.mul_pow 5 2 k
  rw [Nat.shiftLeft_eq, Nat.mul_assoc, ← tens]
  have scaled := nearest_mul_right value 1 (Nat.pow_pos (show 0 < 10 by decide) : 0 < 10 ^ k)
  rwa [Nat.one_mul] at scaled

theorem magnitude_negSucc (coefficient e : Nat) : magnitude coefficient (.negSucc e) =
    if coefficient.log2 + 1100 < e then 0 else nearest (coefficient <<< 1074) (Nat.pow 10 (e + 1)) := rfl

theorem magnitude_last (finite : code ≤ infinityCode) {e : Nat} (last : e + 1 = 1074) :
    magnitude (units code * Nat.pow 5 1074) (.negSucc e) = code := by
  rw [magnitude_negSucc, if_neg (by omega), last]
  generalize 1074 = k
  rw [nearest_fives, nearest_units finite]

theorem magnitude_of_shortest (finite : code ≤ infinityCode) (n : Nat) :
    magnitude (shortest code n).1 (shortest code n).2 = code := by
  induction n with
  | zero => exact magnitude_last finite rfl
  | succ n ih =>
    rw [shortest]
    split
    · next found => exact magnitude_of_closest found
    · exact ih

theorem length_pad {width : Nat} {digits : List Char} (short : digits.length ≤ width) :
    (pad width digits).length = width := by
  rw [pad, List.length_append, List.length_replicate]
  omega

theorem ofDigits_pad (width : Nat) (digits : List Char) : ofDigits (pad width digits) = ofDigits digits := by
  rw [ofDigits, pad, Nat.ofDigitChars_append, Nat.ofDigitChars_replicate_zero, Nat.mul_zero]
  rfl

theorem ofDigits_append (front back : List Char) :
    ofDigits (front ++ back) = ofDigits front * 10 ^ back.length + ofDigits back := by
  rw [ofDigits, Nat.ofDigitChars_append, Nat.ofDigitChars_eq_ofDigitChars_zero, Nat.mul_comm]
  rfl

theorem areDigits_toDigits (n : Nat) : AreDigits (Nat.toDigits 10 n) := fun _ =>
  Nat.isDigit_of_mem_toDigits (by decide) (by decide)

theorem areDigits_pad (width n : Nat) : AreDigits (pad width (Nat.toDigits 10 n)) := by
  intro c member
  rcases List.mem_append.1 member with zero | digit
  · rw [List.eq_of_mem_replicate zero]
    rfl
  · exact areDigits_toDigits n c digit

theorem read_whole (n : Nat) : read (Nat.toDigits 10 n) = some ⟨false, n, 0⟩ := by
  have numeral := IsNumeral.parts .none (areDigits_toDigits n) .none (Or.inl Nat.toDigits_ne_nil) .none
  simp only [List.nil_append, List.append_nil, ofDigits, Nat.ofDigitChars_ten_toDigits] at numeral
  exact read_eq_some_iff.2 numeral

theorem read_pointed (coefficient e : Nat) :
    read (positional coefficient (.negSucc e)) = some ⟨false, coefficient, .negSucc e⟩ := by
  have width : (pad (e + 1) (Nat.toDigits 10 (coefficient % Nat.pow 10 (e + 1)))).length = e + 1 := by
    apply length_pad
    rw [Nat.length_toDigits_le_iff (by decide) (Nat.succ_pos e)]
    exact Nat.mod_lt _ (Nat.pow_pos (show 0 < 10 by decide))
  have whole : coefficient / Nat.pow 10 (e + 1) * 10 ^ (e + 1) + coefficient % Nat.pow 10 (e + 1) = coefficient :=
    Nat.div_add_mod' coefficient (10 ^ (e + 1))
  have numeral := IsNumeral.parts .none (areDigits_toDigits (coefficient / Nat.pow 10 (e + 1)))
    (.point (areDigits_pad (e + 1) (coefficient % Nat.pow 10 (e + 1)))) (Or.inl Nat.toDigits_ne_nil) .none
  rw [List.nil_append, List.append_nil, ofDigits_append, width, ofDigits_pad, ofDigits, ofDigits,
    Nat.ofDigitChars_ten_toDigits, Nat.ofDigitChars_ten_toDigits, whole, Int.zero_sub] at numeral
  exact read_eq_some_iff.2 numeral

theorem magnitude_ofNat (coefficient e : Nat) : magnitude coefficient (.ofNat e) =
    if coefficient = 0 then 0
    else if 400 < e then infinityCode
    else nearest ((coefficient * Nat.pow 10 e) <<< 1074) 1 := rfl

theorem read_positional (finite : magnitude coefficient exponent < infinityCode) : ∃ decimal,
    read (positional coefficient exponent) = some decimal ∧ decimal.negative = false ∧
      magnitude decimal.coefficient decimal.exponent = magnitude coefficient exponent := by
  cases exponent with
  | negSucc e => exact ⟨_, read_pointed coefficient e, rfl, rfl⟩
  | ofNat e =>
    refine ⟨_, read_whole _, rfl, ?_⟩
    change magnitude (coefficient * Nat.pow 10 e) (.ofNat 0) = magnitude coefficient (.ofNat e)
    change magnitude coefficient (.ofNat e) < infinityCode at finite
    by_cases none : coefficient = 0
    · rw [none, Nat.zero_mul, magnitude_ofNat, magnitude_ofNat, if_pos rfl, if_pos rfl]
    · have power : 0 < Nat.pow 10 e := Nat.pow_pos (show 0 < 10 by decide)
      have small : ¬ 400 < e := fun large => by
        rw [magnitude_ofNat, if_neg none, if_pos large] at finite
        exact Nat.lt_irrefl _ finite
      rw [magnitude_ofNat, magnitude_ofNat, if_neg none, if_neg small,
        if_neg (Nat.mul_ne_zero none (Nat.ne_of_gt power)),
        if_neg (by decide)]
      exact congrArg (fun value => nearest (value <<< 1074) 1) (Nat.mul_one _)

end Decimal

namespace Binary64

theorem text_of_positive {x : Binary64} (finite : x.isFinite = true) (positive : x.negative = false) : x.text =
    if x.isZero then "0"
    else String.ofList
      (Decimal.positional (Decimal.ofMagnitude x.magnitude).1 (Decimal.ofMagnitude x.magnitude).2) := by
  have number : x.isNaN = false := by
    rw [isFinite, decide_eq_true_eq] at finite
    rw [isNaN, decide_eq_false_iff_not]
    omega
  simp only [text, number, finite, positive, Bool.false_eq_true, if_false, Bool.not_true, String.empty_append]

theorem read_text {x : Binary64} (finite : x.isFinite = true) (positive : x.negative = false) :
    ∃ decimal, Decimal.read x.text.toList = some decimal ∧ decimal.toBinary64 = x := by
  rw [text_of_positive finite positive]
  rw [isFinite, decide_eq_true_eq] at finite
  have made : ∀ decimal : Decimal, decimal.negative = false →
      Decimal.magnitude decimal.coefficient decimal.exponent = x.magnitude → decimal.toBinary64 = x := by
    rintro ⟨negative, coefficient, exponent⟩ rfl same
    obtain ⟨sign, magnitude, below⟩ := x
    subst positive same
    rfl
  split
  · next zero => exact ⟨⟨false, 0, 0⟩, rfl, made _ rfl (eq_of_beq zero).symm⟩
  · have same := Decimal.magnitude_of_shortest (Nat.le_of_lt finite)
    obtain ⟨decimal, read, sign, value⟩ := Decimal.read_positional (lt_of_eq_of_lt (same _) finite)
    rw [String.toList_ofList]
    exact ⟨decimal, read, made decimal sign (value.trans (same _))⟩

theorem isDigit_of_mem_text {x : Binary64} (finite : x.isFinite = true) (positive : x.negative = false) :
    ∀ c ∈ x.text.toList, c.isDigit = true ∨ c = '.' := by
  intro c member
  rw [text_of_positive finite positive] at member
  split at member
  · rw [List.mem_singleton.1 member]
    exact Or.inl rfl
  · rw [String.toList_ofList] at member
    generalize (Decimal.ofMagnitude x.magnitude).2 = exponent at member
    cases exponent with
    | ofNat e => exact Or.inl (Decimal.areDigits_toDigits _ c member)
    | negSucc e =>
      rcases List.mem_append.1 member with whole | pointed
      · exact Or.inl (Decimal.areDigits_toDigits _ c whole)
      · rcases List.mem_cons.1 pointed with point | fraction
        · exact Or.inr point
        · exact Or.inl (Decimal.areDigits_pad _ _ c fraction)

end Binary64

end ContextFree
