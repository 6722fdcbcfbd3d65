import ContextFree.Proofs.Binary64.Numeral
import ContextFree.Proofs.Binary64.Shortest
import ContextFree.Proofs.Weight

namespace ContextFree.Weight

open Decimal (IsNumeral IsShortest inUnits)
open Binary64 (IsNearest)

variable {w : Weight} {value : Binary64} {text : List Char} {kind : AttributeKind} {letter : Char}

/-- What one of the two checks gives. -/
def Accepted (w : Weight) : Prop :=
  (∃ value, ofNumber value = .ok w) ∨ ∃ kind letter, ofAttribute kind letter = .ok w

theorem ofNumber_eq_ok_iff : ofNumber value = .ok w ↔ value.isFinite = true ∧
    (value.negative = false ∨ value.isZero = true) ∧ w = .number ⟨false, value.magnitude, value.magnitude_lt⟩ := by
  have fits : (value.isFinite && (!value.negative || value.isZero)) = true ↔
      value.isFinite = true ∧ (value.negative = false ∨ value.isZero = true) := by
    rw [Bool.and_eq_true, Bool.or_eq_true, Bool.not_eq_true']
  rw [← and_assoc, ← fits, ofNumber]
  split
  · next allowed => exact ⟨fun made => ⟨allowed, (Except.ok.inj made).symm⟩, fun same => congrArg Except.ok same.2.symm⟩
  · next refused =>
    refine ⟨fun made => ?_, fun same => absurd same.1 refused⟩
    cases made

theorem ofAttribute_eq_ok_iff : ofAttribute kind letter = .ok w ↔
    Letters.isLetter letter = true ∧ w = .attribute kind letter := by
  rw [ofAttribute, checkLetter]
  split
  · next lower => exact ⟨fun made => ⟨lower, (Except.ok.inj made).symm⟩, fun same => congrArg Except.ok same.2.symm⟩
  · next other =>
    refine ⟨fun made => ?_, fun same => absurd same.1 other⟩
    cases made

theorem accepted_number_iff : (number value).Accepted ↔ value.isFinite = true ∧ value.negative = false := by
  constructor
  · rintro (⟨other, made⟩ | ⟨kind, letter, made⟩)
    · exact isCanonical_of_ofNumber made
    · cases (ofAttribute_eq_ok_iff.1 made).2
  · rintro ⟨finite, positive⟩
    refine Or.inl ⟨value, ofNumber_eq_ok_iff.2 ⟨finite, Or.inl positive, ?_⟩⟩
    rw [← positive]

theorem accepted_attribute_iff : (Weight.attribute kind letter).Accepted ↔ Letters.isLetter letter = true := by
  constructor
  · rintro (⟨other, made⟩ | ⟨kind, letter, made⟩)
    · cases (ofNumber_eq_ok_iff.1 made).2.2
    · obtain ⟨lower, same⟩ := ofAttribute_eq_ok_iff.1 made
      cases same
      exact lower
  · exact fun lower => Or.inr ⟨kind, letter, ofAttribute_eq_ok_iff.2 ⟨lower, rfl⟩⟩

theorem accepted_iff_isCanonical : w.Accepted ↔ w.IsCanonical := by
  rcases w with value | ⟨kind, letter⟩
  · exact accepted_number_iff
  · exact accepted_attribute_iff

theorem accepted_of_read (parses : read text = .ok w) : w.Accepted :=
  accepted_iff_isCanonical.2 (isCanonical_of_read parses)

theorem read_text_of_accepted (accepted : w.Accepted) : read w.text.toList = .ok w :=
  read_text (accepted_iff_isCanonical.1 accepted)

theorem ofMark_eq_some_iff {mark : Char} : AttributeKind.ofMark mark = some kind ↔ mark = kind.mark := by
  constructor
  · intro marked
    unfold AttributeKind.ofMark at marked
    split at marked
    · next same => cases marked; exact same
    split at marked
    · next same => cases marked; exact same
    split at marked
    · next same => cases marked; exact same
    · cases marked
  · rintro rfl
    exact AttributeKind.ofMark_mark kind

theorem decimal_read_mark (kind : AttributeKind) (rest : List Char) : Decimal.read (kind.mark :: rest) = none := by
  cases kind <;> rfl

theorem ofDecimal_eq_ok_iff : ofDecimal text = .ok w ↔
    ∃ decimal, Decimal.read text = some decimal ∧ ofNumber decimal.toBinary64 = .ok w := by
  unfold ofDecimal
  split
  · next decimal found => simp only [found, Option.some.injEq, exists_eq_left']
  · next absent => simp only [absent, reduceCtorEq, false_and, exists_false]

theorem read_number_iff_ofDecimal : read text = .ok (.number value) ↔ ofDecimal text = .ok (.number value) := by
  unfold read
  split
  · next mark letter =>
    split
    · next kind marked =>
      rw [ofDecimal_eq_ok_iff, ofMark_eq_some_iff.1 marked, decimal_read_mark]
      constructor
      · intro made
        cases (ofAttribute_eq_ok_iff.1 made).2
      · rintro ⟨decimal, found, -⟩
        cases found
    · rfl
  · rfl

theorem ofDecimal_ne_attribute : ofDecimal text ≠ .ok (.attribute kind letter) := by
  intro made
  obtain ⟨decimal, -, made⟩ := ofDecimal_eq_ok_iff.1 made
  cases (ofNumber_eq_ok_iff.1 made).2.2

theorem read_attribute_iff : read text = .ok (.attribute kind letter) ↔
    text = [kind.mark, letter] ∧ Letters.isLetter letter = true := by
  constructor
  · intro parses
    unfold read at parses
    split at parses
    · next mark other =>
      split at parses
      · next found marked =>
        obtain ⟨lower, same⟩ := ofAttribute_eq_ok_iff.1 parses
        cases same
        exact ⟨by rw [ofMark_eq_some_iff.1 marked], lower⟩
      · exact absurd parses ofDecimal_ne_attribute
    · exact absurd parses ofDecimal_ne_attribute
  · rintro ⟨rfl, lower⟩
    rw [read, AttributeKind.ofMark_mark]
    exact ofAttribute_eq_ok_iff.2 ⟨lower, rfl⟩

/-- The number that is read is the one nearest to the numeral; it is refused if it is infinite, or
has a sign and is not zero. -/
theorem read_number_iff : read text = .ok (.number value) ↔ value.isFinite = true ∧ value.negative = false ∧
    ∃ decimal, IsNumeral text decimal ∧ (decimal.negative = false ∨ value.isZero = true) ∧
      IsNearest (inUnits decimal.coefficient decimal.exponent) value.magnitude := by
  simp only [read_number_iff_ofDecimal, ofDecimal_eq_ok_iff, Decimal.read_eq_some_iff, ofNumber_eq_ok_iff]
  constructor
  · rintro ⟨decimal, numeral, finite, sign, same⟩
    cases same
    exact ⟨finite, rfl, decimal, numeral, sign, Decimal.isNearest_magnitude _ _⟩
  · rintro ⟨finite, positive, decimal, numeral, sign, nearest⟩
    have same : decimal.toBinary64.magnitude = value.magnitude := (Decimal.isNearest_magnitude _ _).unique nearest
    obtain ⟨negative, magnitude, below⟩ := value
    subst positive same
    exact ⟨decimal, numeral, finite, sign, rfl⟩

/-- The last numeral of so many digits that is not taken for infinity. -/
example : (read "1.7976931348623158e308".toList).toOption =
    some (.number ⟨false, Binary64.infinityCode - 1, by decide⟩) ∧
    (read "1.7976931348623159e308".toList).toOption = none := by decide +kernel

theorem text_of_number (finite : value.isFinite = true) (positive : value.negative = false)
    (some : value.isZero = false) :
    ∃ coefficient exponent, IsShortest value.magnitude coefficient exponent ∧
      (number value).text = String.ofList (Decimal.positional coefficient exponent) := by
  refine ⟨_, _, Decimal.isShortest_ofMagnitude ?_ (of_decide_eq_true finite), ?_⟩
  · exact Nat.pos_of_ne_zero (ne_of_beq_false some)
  · exact (Binary64.text_of_positive finite positive).trans (if_neg (by rw [some]; decide))

/-- The checks let through the finite numbers without a sign, zero for minus zero, and the references
to a letter. These weights are read back from their texts, and no text is read as any other. The
number that is read is the nearest to the numeral, and the numeral that is written is a shortest one. -/
theorem read_back_exact :
    (∀ value w, ofNumber value = .ok w ↔ value.isFinite = true ∧ (value.negative = false ∨ value.isZero = true) ∧
      w = .number ⟨false, value.magnitude, value.magnitude_lt⟩) ∧
    (∀ kind letter w, ofAttribute kind letter = .ok w ↔ Letters.isLetter letter = true ∧ w = .attribute kind letter) ∧
    (∀ value, (number value).Accepted ↔ value.isFinite = true ∧ value.negative = false) ∧
    (∀ w, w.Accepted ↔ read w.text.toList = .ok w) ∧
    (∀ w, w.Accepted ↔ ∃ text, read text = .ok w) ∧
    (∀ text kind letter, read text = .ok (.attribute kind letter) ↔
      text = [kind.mark, letter] ∧ Letters.isLetter letter = true) ∧
    (∀ text value, read text = .ok (.number value) ↔ value.isFinite = true ∧ value.negative = false ∧
      ∃ decimal, IsNumeral text decimal ∧ (decimal.negative = false ∨ value.isZero = true) ∧
        IsNearest (inUnits decimal.coefficient decimal.exponent) value.magnitude) ∧
    ∀ value, (number value).Accepted → value.isZero = false →
      ∃ coefficient exponent, IsShortest value.magnitude coefficient exponent ∧
        (number value).text = String.ofList (Decimal.positional coefficient exponent) := by
  refine ⟨fun value w => ofNumber_eq_ok_iff, fun kind letter w => ofAttribute_eq_ok_iff, fun value =>
    accepted_number_iff,
    fun w => ⟨read_text_of_accepted, accepted_of_read⟩, fun w => ⟨?_, ?_⟩, fun text kind letter => read_attribute_iff,
    fun text value => read_number_iff, ?_⟩
  · exact fun accepted => ⟨_, read_text_of_accepted accepted⟩
  · rintro ⟨text, parses⟩
    exact accepted_of_read parses
  · intro value accepted some
    obtain ⟨finite, positive⟩ := accepted_number_iff.1 accepted
    exact text_of_number finite positive some

end ContextFree.Weight
