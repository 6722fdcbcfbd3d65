import ContextFree.Proofs.Text.Lines

namespace ContextFree.Text

def encode (text : List Char) : List UInt8 := text.flatMap String.utf8EncodeChar

/-- A byte of the first half is a character by itself. -/
def Stands (b : UInt8) (sign : Char) : Prop := b.toNat < 128 ∧ sign.toNat = b.toNat

variable {text line : List Char} {bytes front back : List UInt8} {c sign : Char} {b : UInt8}

theorem isValidUTF8_iff : bytes.toByteArray.IsValidUTF8 ↔ ∃ text, encode text = bytes := by
  constructor
  · rintro ⟨text, same⟩
    exact ⟨text, (List.toByteArray_inj.1 same).symm⟩
  · rintro ⟨text, rfl⟩
    exact ⟨text, rfl⟩

/-- A character is one byte of the first half, or bytes of the second half only. -/
theorem utf8EncodeChar_cases (c : Char) : (c.toNat < 128 ∧ String.utf8EncodeChar c = [UInt8.ofNat c.toNat]) ∨
    (128 ≤ c.toNat ∧ ∀ b ∈ String.utf8EncodeChar c, 128 ≤ b.toNat) := by
  unfold String.utf8EncodeChar
  change (c.val.toNat < 128 ∧ _) ∨ (128 ≤ c.val.toNat ∧ _)
  dsimp only
  split
  · next low => exact Or.inl ⟨by omega, rfl⟩
  · refine Or.inr ⟨by omega, fun b member => ?_⟩
    split at member
    · simp only [List.mem_cons, List.not_mem_nil, or_false] at member
      rcases member with rfl | rfl <;> simp only [UInt8.toNat_ofNat'] <;> omega
    · split at member <;> simp only [List.mem_cons, List.not_mem_nil, or_false] at member
      · rcases member with rfl | rfl | rfl <;> simp only [UInt8.toNat_ofNat'] <;> omega
      · rcases member with rfl | rfl | rfl | rfl <;> simp only [UInt8.toNat_ofNat'] <;> omega

theorem utf8EncodeChar_of_stands (stands : Stands b sign) : String.utf8EncodeChar sign = [b] := by
  obtain ⟨low, same⟩ := stands
  rcases utf8EncodeChar_cases sign with ⟨-, single⟩ | ⟨high, -⟩
  · rw [single, same, UInt8.ofNat_toNat]
  · omega

theorem mem_utf8EncodeChar_iff (stands : Stands b sign) : b ∈ String.utf8EncodeChar c ↔ c = sign := by
  constructor
  · intro member
    obtain ⟨low, same⟩ := stands
    rcases utf8EncodeChar_cases c with ⟨small, single⟩ | ⟨-, high⟩
    · rw [single, List.mem_singleton] at member
      have value : b.toNat = c.toNat := by
        rw [member, UInt8.toNat_ofNat']
        omega
      exact Char.toNat_inj.1 (value.symm.trans same.symm)
    · exact absurd (high b member) (Nat.not_le.2 low)
  · rintro rfl
    rw [utf8EncodeChar_of_stands stands]
    exact List.mem_singleton_self b

theorem mem_encode_iff (stands : Stands b sign) : b ∈ encode text ↔ sign ∈ text := by
  simp only [encode, List.mem_flatMap, mem_utf8EncodeChar_iff stands, exists_eq_right]

theorem encode_append (front back : List Char) : encode (front ++ back) = encode front ++ encode back :=
  List.flatMap_append

theorem encode_singleton (c : Char) : encode [c] = String.utf8EncodeChar c := List.append_nil _

theorem encode_intercalate (stands : Stands b sign) (items : List (List Char)) :
    encode ([sign].intercalate items) = [b].intercalate (items.map encode) := by
  induction items with
  | nil => rfl
  | cons first rest ih =>
    cases rest with
    | nil => simp only [List.map_cons, List.map_nil, List.intercalate_singleton]
    | cons second more =>
      rw [List.map_cons, List.map_cons, List.intercalate_cons_cons, List.intercalate_cons_cons, encode_append,
        encode_append, encode_singleton, utf8EncodeChar_of_stands stands, ih, List.map_cons]

theorem pieces_encode (stands : Stands b sign) (text : List Char) :
    pieces b (encode text) = (pieces sign text).map encode := by
  have whole : encode text = [b].intercalate ((pieces sign text).map encode) := by
    rw [← encode_intercalate stands, intercalate_pieces]
  rw [whole, pieces_intercalate]
  · exact fun none => pieces_ne_nil sign text (List.map_eq_nil_iff.1 none)
  · intro item listed
    obtain ⟨piece, member, rfl⟩ := List.mem_map.1 listed
    rw [mem_encode_iff stands]
    exact not_mem_of_mem_pieces member

theorem encode_eq_concat_iff (stands : Stands b sign) : encode text = front ++ [b] ↔
    ∃ before, text = before ++ [sign] ∧ encode before = front := by
  constructor
  · intro same
    rcases List.eq_nil_or_concat text with rfl | ⟨before, last, rfl⟩
    · exact absurd same (by simp [encode])
    · rw [List.concat_eq_append, encode_append, encode_singleton] at same
      have ends : (String.utf8EncodeChar last).getLast? = some b := by
        have lasts := congrArg List.getLast? same
        rw [List.getLast?_append, List.getLast?_concat, Option.or_of_isSome] at lasts
        · exact lasts
        · exact List.getLast?_isSome.2 String.utf8EncodeChar_ne_nil
      obtain rfl := (mem_utf8EncodeChar_iff stands).1 (List.mem_of_getLast? ends)
      rw [utf8EncodeChar_of_stands stands] at same
      exact ⟨before, List.concat_eq_append, List.append_cancel_right same⟩
  · rintro ⟨before, rfl, rfl⟩
    rw [encode_append, encode_singleton, utf8EncodeChar_of_stands stands]

theorem getLast?_encode_iff (stands : Stands b sign) : (encode text).getLast? = some b ↔ text.getLast? = some sign := by
  rw [List.getLast?_eq_some_iff, List.getLast?_eq_some_iff]
  constructor
  · rintro ⟨front, same⟩
    obtain ⟨before, whole, -⟩ := (encode_eq_concat_iff stands).1 same
    exact ⟨before, whole⟩
  · rintro ⟨before, whole⟩
    exact ⟨encode before, (encode_eq_concat_iff stands).2 ⟨before, whole, rfl⟩⟩

theorem dropReturn_encode (stands : Stands b sign) (line : List Char) :
    dropReturn b (encode line) = encode (dropReturn sign line) := by
  by_cases ends : line.getLast? = some sign
  · rw [dropReturn, if_pos ((getLast?_encode_iff stands).2 ends), dropReturn, if_pos ends]
    obtain ⟨before, rfl⟩ := List.getLast?_eq_some_iff.1 ends
    rw [(encode_eq_concat_iff stands).2 ⟨before, rfl, rfl⟩, List.dropLast_concat, List.dropLast_concat]
  · rw [dropReturn, if_neg fun same => ends ((getLast?_encode_iff stands).1 same), dropReturn, if_neg ends]

theorem isEmpty_encode (text : List Char) : (encode text).isEmpty = text.isEmpty := by
  cases text with
  | nil => rfl
  | cons c rest =>
    rw [List.isEmpty_cons, encode, List.flatMap_cons, ← Bool.not_eq_true, List.isEmpty_iff, List.append_eq_nil_iff]
    exact fun none => String.utf8EncodeChar_ne_nil none.1

theorem go_encode (returns : Stands b sign) (items : List (List Char)) :
    lines.go b (items.map encode) = (lines.go sign items).map encode := by
  fun_induction lines.go sign items with
  | case1 => rfl
  | case2 last empty => exact if_pos ((isEmpty_encode last).trans empty)
  | case3 last filled => exact if_neg ((isEmpty_encode last).symm ▸ filled)
  | case4 piece next more ih =>
    change dropReturn b (encode piece) :: lines.go b ((next :: more).map encode) = _
    rw [ih, dropReturn_encode returns]
    rfl

theorem lines_encode {newline carriage : UInt8} {stop turn : Char} (ends : Stands newline stop)
    (returns : Stands carriage turn)
    (text : List Char) : lines newline carriage (encode text) = (lines stop turn text).map encode := by
  rw [lines, lines, pieces_encode ends, go_encode returns]

theorem isValidUTF8_dropReturn_iff (stands : Stands b sign) :
    (dropReturn b bytes).toByteArray.IsValidUTF8 ↔ bytes.toByteArray.IsValidUTF8 := by
  rw [dropReturn]
  split
  · next ends =>
    obtain ⟨front, rfl⟩ := List.getLast?_eq_some_iff.1 ends
    rw [List.dropLast_concat, isValidUTF8_iff, isValidUTF8_iff]
    constructor
    · rintro ⟨text, same⟩
      exact ⟨text ++ [sign], (encode_eq_concat_iff stands).2 ⟨text, rfl, same⟩⟩
    · rintro ⟨text, same⟩
      obtain ⟨before, -, encoded⟩ := (encode_eq_concat_iff stands).1 same
      exact ⟨before, encoded⟩
  · rfl

theorem isValidUTF8_intercalate (stands : Stands b sign) {items : List (List UInt8)}
    (valid : ∀ item ∈ items, item.toByteArray.IsValidUTF8) : ([b].intercalate items).toByteArray.IsValidUTF8 := by
  have texts : ∃ texts : List (List Char), texts.map encode = items := by
    induction items with
    | nil => exact ⟨[], rfl⟩
    | cons first rest ih =>
      rw [List.forall_mem_cons] at valid
      obtain ⟨text, rfl⟩ := isValidUTF8_iff.1 valid.1
      obtain ⟨texts, rfl⟩ := ih valid.2
      exact ⟨text :: texts, rfl⟩
  obtain ⟨texts, rfl⟩ := texts
  exact isValidUTF8_iff.2 ⟨_, encode_intercalate stands texts⟩

/-- Bytes are a text just if they are one between any two newlines. -/
theorem isValidUTF8_iff_pieces (stands : Stands b sign) :
    bytes.toByteArray.IsValidUTF8 ↔ ∀ piece ∈ pieces b bytes, piece.toByteArray.IsValidUTF8 := by
  constructor
  · intro valid
    obtain ⟨text, rfl⟩ := isValidUTF8_iff.1 valid
    rw [pieces_encode stands, List.forall_mem_map]
    exact fun piece _ => isValidUTF8_iff.2 ⟨piece, rfl⟩
  · intro valid
    rw [← intercalate_pieces b bytes]
    exact isValidUTF8_intercalate stands valid

theorem forall_valid_go_iff (returns : Stands b sign) (items : List (List UInt8)) :
    (∀ line ∈ lines.go b items, line.toByteArray.IsValidUTF8) ↔ ∀ item ∈ items, item.toByteArray.IsValidUTF8 := by
  fun_induction lines.go b items with
  | case1 => rfl
  | case2 last empty =>
    rw [List.isEmpty_iff.1 empty]
    exact ⟨fun _ => List.forall_mem_singleton.2 ⟨[], rfl⟩, fun _ item listed => absurd listed List.not_mem_nil⟩
  | case3 last filled => rfl
  | case4 piece next more ih => rw [List.forall_mem_cons, List.forall_mem_cons, ih, isValidUTF8_dropReturn_iff returns]

theorem isValidUTF8_iff_lines {newline carriage : UInt8} {stop turn : Char} (ends : Stands newline stop)
    (returns : Stands carriage turn) :
    bytes.toByteArray.IsValidUTF8 ↔ ∀ line ∈ lines newline carriage bytes, line.toByteArray.IsValidUTF8 := by
  rw [lines, forall_valid_go_iff returns, isValidUTF8_iff_pieces ends]

end ContextFree.Text
