import ContextFree.Binary64.Decimal
import ContextFree.Proofs.Text.Lines

namespace ContextFree.Decimal

variable {text rest sign point fraction power : List Char} {negative : Bool} {exponent : Int}

def AreDigits (text : List Char) : Prop := ∀ c ∈ text, c.isDigit = true

inductive IsSign : List Char → Bool → Prop
  | minus : IsSign ['-'] true
  | plus : IsSign ['+'] false
  | none : IsSign [] false

inductive IsFraction : List Char → List Char → Prop
  | none : IsFraction [] []
  | point {digits : List Char} : AreDigits digits → IsFraction ('.' :: digits) digits

inductive IsPower : List Char → Int → Prop
  | none : IsPower [] 0
  | letter {c : Char} {sign digits : List Char} {negative : Bool} : c = 'e' ∨ c = 'E' → IsSign sign negative →
      AreDigits digits → digits ≠ [] →
      IsPower (c :: (sign ++ digits)) (if negative then -(ofDigits digits : Int) else ofDigits digits)

inductive IsNumeral : List Char → Decimal → Prop
  | parts {sign whole point fraction power : List Char} {negative : Bool} {exponent : Int} : IsSign sign negative →
      AreDigits whole → IsFraction point fraction → whole ≠ [] ∨ fraction ≠ [] → IsPower power exponent →
      IsNumeral (sign ++ (whole ++ (point ++ power)))
        ⟨negative, ofDigits (whole ++ fraction), exponent - fraction.length⟩

theorem isSign_takeSign (text : List Char) :
    ∃ sign, text = sign ++ (takeSign text).2 ∧ IsSign sign (takeSign text).1 := by
  unfold takeSign
  split
  · exact ⟨_, rfl, .minus⟩
  · exact ⟨_, rfl, .plus⟩
  · exact ⟨_, rfl, .none⟩

theorem unsigned_of_digit {c : Char} (digit : c.isDigit = true) : c ≠ '-' ∧ c ≠ '+' := by
  constructor <;> rintro rfl <;> cases digit

theorem takeSign_append (shape : IsSign sign negative) (unsigned : ∀ c ∈ rest.head?, c ≠ '-' ∧ c ≠ '+') :
    takeSign (sign ++ rest) = (negative, rest) := by
  cases shape with
  | minus => rfl
  | plus => rfl
  | none =>
    rw [List.nil_append]
    unfold takeSign
    split
    · exact absurd rfl (unsigned '-' rfl).1
    · exact absurd rfl (unsigned '+' rfl).2
    · rfl

theorem areDigits_takeWhile (text : List Char) : AreDigits (text.takeWhile Char.isDigit) :=
  List.all_eq_true.1 List.all_takeWhile

theorem isFraction_takeFraction (text : List Char) :
    ∃ point, text = point ++ (takeFraction text).2 ∧ IsFraction point (takeFraction text).1 := by
  unfold takeFraction
  split
  · next rest =>
    refine ⟨'.' :: rest.takeWhile Char.isDigit, ?_, .point (areDigits_takeWhile rest)⟩
    exact congrArg ('.' :: ·) (List.takeWhile_append_dropWhile).symm
  · exact ⟨[], rfl, .none⟩

theorem IsPower.head (shape : IsPower power exponent) : ∀ c ∈ power.head?, c = 'e' ∨ c = 'E' := by
  intro c first
  cases shape with
  | none => cases first
  | letter letter _ _ _ =>
    cases first
    exact letter

theorem takeFraction_append (shape : IsFraction point fraction) (ends : IsPower power exponent) :
    takeFraction (point ++ power) = (fraction, power) := by
  have head := ends.head
  cases shape with
  | none =>
    rw [List.nil_append]
    unfold takeFraction
    split
    · rcases head '.' rfl with same | same <;> cases same
    · rfl
  | point digits =>
    have stops : ∀ c ∈ power.head?, c.isDigit = false := by
      intro c first
      rcases head c first with rfl | rfl <;> rfl
    obtain ⟨taken, left⟩ := Text.cut_append digits stops
    rw [List.cons_append, takeFraction, taken, left]

theorem readExponent_eq_some_iff : readExponent power = some exponent ↔ IsPower power exponent := by
  constructor
  · intro read
    cases power with
    | nil =>
      cases read
      exact .none
    | cons c rest =>
      rw [readExponent] at read
      obtain ⟨sign, same, shape⟩ := isSign_takeSign rest
      generalize takeSign rest = parts at read same shape
      obtain ⟨negative, digits⟩ := parts
      dsimp only at read same shape
      split at read
      · next letter =>
        split at read
        · cases read
        · next filled =>
          cases read
          rw [Bool.or_eq_true, not_or, Bool.not_eq_true', Bool.not_eq_false, List.all_eq_true] at filled
          rw [same]
          exact .letter letter shape filled.2 fun none => filled.1 (by rw [none]; rfl)
      · cases read
  · intro shape
    cases shape with
    | none => rfl
    | @letter c sign digits negative letter signed all filled =>
      have unsigned : ∀ c ∈ digits.head?, c ≠ '-' ∧ c ≠ '+' := fun c first =>
        unsigned_of_digit (all c (List.mem_of_mem_head? first))
      have accepted : (digits.isEmpty || !digits.all Char.isDigit) = false := by
        rw [Bool.or_eq_false_iff, Bool.not_eq_false', List.all_eq_true]
        exact ⟨List.isEmpty_eq_false_iff.2 filled, all⟩
      rw [readExponent, if_pos letter, takeSign_append signed unsigned]
      dsimp only
      rw [accepted]
      rfl

theorem IsFraction.stops (shape : IsFraction point fraction) (ends : IsPower power exponent) :
    ∀ c ∈ (point ++ power).head?, c.isDigit = false := by
  intro c first
  cases shape with
  | none => rcases ends.head c first with rfl | rfl <;> rfl
  | point digits =>
    cases first
    rfl

theorem filled_iff {whole fraction : List Char} :
    ¬(whole.isEmpty && fraction.isEmpty) = true ↔ whole ≠ [] ∨ fraction ≠ [] := by
  rw [Bool.and_eq_true, List.isEmpty_iff, List.isEmpty_iff, Decidable.not_and_iff_not_or_not]

/-- The reader takes the numerals and nothing else, each for what it stands for. -/
theorem read_eq_some_iff {decimal : Decimal} : read text = some decimal ↔ IsNumeral text decimal := by
  constructor
  · intro parses
    obtain ⟨sign, split, signed⟩ := isSign_takeSign text
    unfold read at parses
    generalize takeSign text = parts at parses split signed
    obtain ⟨negative, unsigned⟩ := parts
    dsimp only at parses split signed
    have whole := areDigits_takeWhile unsigned
    have cut := List.takeWhile_append_dropWhile (p := Char.isDigit) (l := unsigned)
    generalize unsigned.takeWhile Char.isDigit = front at parses whole cut
    generalize unsigned.dropWhile Char.isDigit = back at parses cut
    obtain ⟨point, rest, fraction⟩ := isFraction_takeFraction back
    generalize takeFraction back = parts at parses rest fraction
    obtain ⟨digits, power⟩ := parts
    dsimp only at parses rest fraction
    split at parses
    · cases parses
    · next some =>
      obtain ⟨exponent, ends, rfl⟩ := Option.map_eq_some_iff.1 parses
      rw [split, ← cut, rest]
      exact .parts signed whole fraction (filled_iff.1 some) (readExponent_eq_some_iff.1 ends)
  · intro shape
    cases shape with
    | @parts sign whole point fraction power negative exponent signed digits pointed some ends =>
      have unsigned : ∀ c ∈ (whole ++ (point ++ power)).head?, c ≠ '-' ∧ c ≠ '+' := by
        intro c first
        cases whole with
        | cons d more =>
          cases first
          exact unsigned_of_digit (digits _ List.mem_cons_self)
        | nil =>
          cases pointed with
          | none => exact absurd rfl (some.resolve_left fun filled => filled rfl)
          | point =>
            cases first
            decide
      obtain ⟨taken, left⟩ := Text.cut_append digits (pointed.stops ends)
      rw [read, takeSign_append signed unsigned]
      dsimp only
      rw [taken, left, takeFraction_append pointed ends]
      dsimp only
      rw [if_neg (filled_iff.2 some), readExponent_eq_some_iff.2 ends]
      rfl

end ContextFree.Decimal
