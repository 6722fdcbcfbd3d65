import ContextFree.Proofs.Binary64.Decimal
import ContextFree.Proofs.Name
import ContextFree.Weight

namespace ContextFree.Weight

/-- A weight as the reader makes it. Minus zero is not among the numbers. -/
def IsCanonical : Weight → Prop
  | .number value => value.isFinite = true ∧ value.negative = false
  | .attribute _ letter => Letters.isLetter letter = true

variable {w : Weight} {text : List Char}

theorem isCanonical_one : one.IsCanonical := ⟨by decide, rfl⟩

theorem check_of_isCanonical (canonical : w.IsCanonical) : w.check = .ok () := by
  rcases w with value | ⟨kind, letter⟩
  · obtain ⟨finite, positive⟩ := canonical
    simp only [check, ofNumber, finite, positive, Bool.not_false, Bool.true_or, Bool.and_self, if_true]
    rfl
  · exact if_pos canonical

theorem isCanonical_of_ofNumber {value : Binary64} (made : ofNumber value = .ok w) : w.IsCanonical := by
  unfold ofNumber at made
  split at made
  · next fits =>
    cases made
    exact ⟨(Bool.and_eq_true_iff.1 fits).1, rfl⟩
  · cases made

theorem isCanonical_of_ofDecimal (made : ofDecimal text = .ok w) : w.IsCanonical := by
  unfold ofDecimal at made
  split at made
  · exact isCanonical_of_ofNumber made
  · cases made

theorem isCanonical_of_read (parses : read text = .ok w) : w.IsCanonical := by
  unfold read at parses
  split at parses
  · next mark letter =>
    split at parses
    · rw [ofAttribute, checkLetter] at parses
      split at parses
      · next lower =>
        cases parses
        exact lower
      · cases parses
    · exact isCanonical_of_ofDecimal parses
  · exact isCanonical_of_ofDecimal parses

theorem read_of_unmarked (unmarked : ∀ c ∈ text, AttributeKind.ofMark c = none) : read text = ofDecimal text := by
  unfold read
  split
  · next mark letter =>
    rw [unmarked mark List.mem_cons_self]
  · rfl

theorem ofMark_of_digit {c : Char} (digit : c.isDigit = true ∨ c = '.') : AttributeKind.ofMark c = none := by
  unfold AttributeKind.ofMark
  split
  · next same =>
    subst same
    simp at digit
  split
  · next same =>
    subst same
    simp at digit
  split
  · next same =>
    subst same
    simp at digit
  · rfl

theorem read_text (canonical : w.IsCanonical) : read w.text.toList = .ok w := by
  rcases w with value | ⟨kind, letter⟩
  · obtain ⟨finite, positive⟩ := canonical
    obtain ⟨decimal, parses, same⟩ := Binary64.read_text finite positive
    have unmarked : ∀ c ∈ value.text.toList, AttributeKind.ofMark c = none := fun c member =>
      ofMark_of_digit (Binary64.isDigit_of_mem_text finite positive c member)
    rw [show (number value).text = value.text from rfl, read_of_unmarked unmarked, ofDecimal, parses]
    dsimp only
    rw [same, ofNumber, finite, positive]
    obtain ⟨sign, magnitude, below⟩ := value
    subst positive
    rfl
  · have lower : Letters.isLetter letter = true := canonical
    rw [text, String.toList_ofList, read, AttributeKind.ofMark_mark]
    simp only [ofAttribute, checkLetter, lower, if_true]
    rfl

theorem isAlphanum_of_isLetter {c : Char} (letter : Letters.isLetter c = true) : c.isAlphanum = true := by
  have lower : c.isLower = true := letter
  change ((c.isUpper || c.isLower) || c.isDigit) = true
  rw [lower, Bool.or_true, Bool.true_or]

theorem solid_of_isAlphanum {c : Char} (alphanum : c.isAlphanum = true) : Text.isBlank c = false ∧ c ≠ '>' := by
  refine ⟨(Name.isPlain_iff.1 (Name.isPlain_of_isAlphanum alphanum)).2.2, ?_⟩
  rintro rfl
  cases alphanum

theorem solid_of_mem_text (canonical : w.IsCanonical) : ∀ c ∈ w.text.toList, Text.isBlank c = false ∧ c ≠ '>' := by
  intro c member
  rcases w with value | ⟨kind, letter⟩
  · rcases Binary64.isDigit_of_mem_text canonical.1 canonical.2 c member with digit | rfl
    · exact solid_of_isAlphanum (by rw [Char.isAlphanum, digit, Bool.or_true])
    · decide
  · rw [text, String.toList_ofList] at member
    rcases List.mem_cons.1 member with rfl | single
    · cases kind <;> decide
    · rw [List.mem_singleton.1 single]
      exact solid_of_isAlphanum (isAlphanum_of_isLetter canonical)

end ContextFree.Weight
