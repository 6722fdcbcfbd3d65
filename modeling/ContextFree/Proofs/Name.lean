import ContextFree.Name

namespace ContextFree.Name

open Text

def isPlain (c : Char) : Bool := !(isReserved c || c == '\'' || isBlank c)

theorem isPlain_iff {c : Char} :
    isPlain c = true ↔ isReserved c = false ∧ c ≠ '\'' ∧ isBlank c = false := by
  simp only [isPlain, Bool.not_eq_true', Bool.or_eq_false_iff, beq_eq_false_iff_ne, and_assoc, ne_eq]

theorem checkValue_iff {value : String} : checkValue value = .ok () ↔
    value.toList ≠ [] ∧ ∀ c ∈ value.toList, isBlank c = false ∧ c ≠ '\'' := by
  have marked : (value.toList.any fun c => isBlank c || c == '\'') = false ↔
      ∀ c ∈ value.toList, isBlank c = false ∧ c ≠ '\'' := by
    simp only [List.any_eq_false, Bool.not_eq_true, Bool.or_eq_false_iff, beq_eq_false_iff_ne, ne_eq]
  unfold checkValue
  split
  · next blank =>
    refine ⟨nofun, fun ⟨filled, solid⟩ => ?_⟩
    obtain ⟨c, rest, text⟩ := List.exists_cons_of_ne_nil filled
    rw [text] at blank solid
    have here := List.all_eq_true.1 blank c List.mem_cons_self
    rw [(solid c List.mem_cons_self).1] at here
    cases here
  · next notBlank =>
    have filled : value.toList ≠ [] := by
      intro none
      rw [none] at notBlank
      exact notBlank rfl
    split
    · next found =>
      refine ⟨nofun, fun ⟨_, solid⟩ => ?_⟩
      rw [marked.2 solid] at found
      cases found
    · next absent => exact ⟨fun _ => ⟨filled, marked.1 (Bool.eq_false_iff.2 absent)⟩, fun _ => rfl⟩

theorem checkNonterminal_iff {value : String} : checkNonterminal value = .ok () ↔
    (∃ first rest, value.toList = first :: rest ∧ first ≠ '-' ∧ first ≠ '#') ∧
      ∀ c ∈ value.toList, isPlain c = true := by
  have plain : (∀ c ∈ value.toList, isPlain c = true) ↔
      (∀ c ∈ value.toList, isBlank c = false ∧ c ≠ '\'') ∧ ∀ c ∈ value.toList, isReserved c = false := by
    simp only [isPlain_iff]
    grind
  unfold checkNonterminal
  split
  · next fault refused =>
    refine ⟨nofun, fun ⟨⟨first, rest, text, _⟩, all⟩ => ?_⟩
    have legal := checkValue_iff.2 ⟨by rw [text]; exact List.cons_ne_nil _ _, (plain.1 all).1⟩
    rw [refused] at legal
    cases legal
  · next legal =>
    obtain ⟨filled, solid⟩ := checkValue_iff.1 legal
    obtain ⟨first, rest, text⟩ := List.exists_cons_of_ne_nil filled
    split
    · next c found =>
      refine ⟨nofun, fun ⟨_, all⟩ => ?_⟩
      have free := (plain.1 all).2 c (List.mem_of_find?_eq_some found)
      have reserved : isReserved c = true := List.find?_some found
      rw [free] at reserved
      cases reserved
    · next none =>
      have free : ∀ c ∈ value.toList, isReserved c = false := by
        simpa only [List.find?_eq_none, Bool.not_eq_true] using none
      simp only [text, List.head?_cons]
      split
      · next leading =>
        refine ⟨nofun, fun ⟨⟨other, more, same, dash, hash⟩, _⟩ => ?_⟩
        cases same
        rcases leading with rfl | rfl
        · exact absurd rfl dash
        · exact absurd rfl hash
      · next leading =>
        rw [not_or] at leading
        exact ⟨fun _ => ⟨⟨first, rest, rfl, leading⟩, text ▸ plain.2 ⟨solid, free⟩⟩, fun _ => rfl⟩

theorem isBlank_eq_false {c : Char} (above : 0x20 < c.toNat) (below : c.toNat < 0x85) :
    isBlank c = false := by
  simp only [isBlank, Bool.or_eq_false_iff, Bool.and_eq_false_iff, decide_eq_false_iff_not, beq_eq_false_iff_ne]
  omega

theorem isPlain_of_isAlphanum {c : Char} (alphanum : c.isAlphanum = true) : isPlain c = true := by
  have range : 48 ≤ c.toNat ∧ c.toNat ≤ 122 := by
    change ((decide ('A'.val ≤ c.val ∧ c.val ≤ 'Z'.val) || ('a'.val ≤ c.val && c.val ≤ 'z'.val)) ||
      ('0'.val ≤ c.val && c.val ≤ '9'.val)) = true at alphanum
    simp only [Bool.or_eq_true, Bool.and_eq_true, decide_eq_true_eq, UInt32.le_iff_toNat_le] at alphanum
    change 48 ≤ c.val.toNat ∧ c.val.toNat ≤ 122
    have numerals : ('A'.val.toNat, 'Z'.val.toNat, 'a'.val.toNat, 'z'.val.toNat, '0'.val.toNat, '9'.val.toNat) =
      (65, 90, 97, 122, 48, 57) := by decide
    grind
  refine isPlain_iff.2 ⟨?_, ?_, isBlank_eq_false (by omega) (by omega)⟩
  · simp only [isReserved, Bool.or_eq_false_iff, beq_eq_false_iff_ne]
    refine ⟨⟨⟨⟨?_, ?_⟩, ?_⟩, ?_⟩, ?_⟩
    all_goals
      rintro rfl
      revert alphanum
      decide
  · rintro rfl
    revert alphanum
    decide

theorem exists_digit_of_mem_toDigits {base n : Nat} (large : 1 < base) {c : Char}
    (member : c ∈ Nat.toDigits base n) : ∃ k, k < base ∧ c = Nat.digitChar k := by
  induction n using Nat.strongRecOn with
  | ind n ih =>
    rw [Nat.toDigits_eq_if large] at member
    split at member
    · next small => exact ⟨n, small, List.mem_singleton.1 member⟩
    · next notSmall =>
      rcases List.mem_append.1 member with front | last
      · exact ih (n / base) (Nat.div_lt_self (by omega) large) front
      · exact ⟨n % base, Nat.mod_lt n (by omega), List.mem_singleton.1 last⟩

theorem isPlain_of_mem_hexDigits {n : Nat} {c : Char} (member : c ∈ hexDigits n) : isPlain c = true := by
  obtain ⟨digit, listed, rfl⟩ := List.mem_map.1 member
  obtain ⟨k, below, rfl⟩ := exists_digit_of_mem_toDigits (by decide) listed
  have upper : ∀ k, k < 16 → (Nat.digitChar k).toUpper.isAlphanum = true := by decide
  exact isPlain_of_isAlphanum (upper k below)

theorem isPlain_of_mem_escapeChar {c d : Char} (member : d ∈ escapeChar c) : isPlain d = true := by
  unfold escapeChar at member
  split at member
  · rcases List.mem_cons.1 member with rfl | digit
    · decide
    · exact isPlain_of_mem_hexDigits digit
  · next free =>
    rw [List.mem_singleton.1 member, isPlain, Bool.eq_false_iff.2 free]
    rfl

theorem toList_escape (text : String) : (escape text).toList = text.toList.flatMap escapeChar := String.toList_ofList

theorem isPlain_of_mem_escape {text : String} {c : Char} (member : c ∈ (escape text).toList) : isPlain c = true := by
  rw [toList_escape] at member
  obtain ⟨origin, -, inside⟩ := List.mem_flatMap.1 member
  exact isPlain_of_mem_escapeChar inside

/-- The text starts like an arrow or a comment, as no name does. -/
def isMarked (text : String) : Bool := text.toList.head?.any fun c => c == '-' || c == '#'

theorem isMarked_append {front : String} (filled : front.toList ≠ []) (back : String) :
    isMarked (front ++ back) = isMarked front := by
  obtain ⟨c, rest, text⟩ := List.exists_cons_of_ne_nil filled
  rw [isMarked, isMarked, String.toList_append, text]
  rfl

theorem head?_escapeChar (c : Char) : (escapeChar c).head? = some (if isPlain c then c else 'u') := by
  unfold escapeChar
  rw [isPlain]
  cases isReserved c || c == '\'' || isBlank c <;> rfl

theorem isMarked_escape (text : String) : isMarked (escape text) = isMarked text := by
  rw [isMarked, isMarked, toList_escape]
  cases text.toList with
  | nil => rfl
  | cons c rest =>
    rw [List.flatMap_cons, List.head?_append, head?_escapeChar, Option.some_or, List.head?_cons]
    by_cases plain : isPlain c = true
    · rw [if_pos plain]
    · have other : ∀ mark, isPlain mark = true → (c == mark) = false := by
        intro mark isMark
        refine beq_eq_false_iff_ne.2 ?_
        rintro rfl
        exact plain isMark
      rw [if_neg plain, Option.any_some, Option.any_some, other '-' (by decide), other '#' (by decide)]
      rfl

theorem escape_filled {text : String} (filled : text.toList ≠ []) : (escape text).toList ≠ [] := by
  obtain ⟨c, rest, same⟩ := List.exists_cons_of_ne_nil filled
  rw [toList_escape, same, List.flatMap_cons]
  intro none
  have first := head?_escapeChar c
  rw [(List.append_eq_nil_iff.1 none).1] at first
  cases first

section Plain

variable {value : String} (plain : ∀ c ∈ value.toList, isPlain c = true) (filled : value.toList ≠ [])

include plain filled

theorem checkNonterminal_of_free (free : isMarked value = false) : checkNonterminal value = .ok () := by
  obtain ⟨first, rest, text⟩ := List.exists_cons_of_ne_nil filled
  rw [isMarked, text, List.head?_cons, Option.any_some, Bool.or_eq_false_iff, beq_eq_false_iff_ne,
    beq_eq_false_iff_ne] at free
  exact checkNonterminal_iff.2 ⟨⟨first, rest, text, free⟩, plain⟩

theorem checkNonterminal_of_marked (marked : isMarked value = true) :
    ∃ mark, checkNonterminal value = .error (.invalid (.leadingName value mark)) := by
  obtain ⟨mark, rest, text⟩ := List.exists_cons_of_ne_nil filled
  rw [isMarked, text, List.head?_cons, Option.any_some, Bool.or_eq_true, beq_iff_eq, beq_iff_eq] at marked
  have legal : checkValue value = .ok () := checkValue_iff.2 ⟨filled, fun c member =>
    have ⟨_, quote, blank⟩ := isPlain_iff.1 (plain c member)
    ⟨blank, quote⟩⟩
  have free : value.toList.find? isReserved = none := List.find?_eq_none.2 fun c member => by
    rw [(isPlain_iff.1 (plain c member)).1]
    exact Bool.false_ne_true
  refine ⟨mark, ?_⟩
  rw [checkNonterminal, legal]
  dsimp only
  rw [free]
  dsimp only
  rw [text, List.head?_cons]
  exact if_pos marked

end Plain

theorem not_marked_of_legal {value : String} (legal : checkNonterminal value = .ok ()) : isMarked value = false := by
  obtain ⟨⟨first, rest, text, dash, hash⟩, -⟩ := checkNonterminal_iff.1 legal
  rw [isMarked, text, List.head?_cons, Option.any_some, beq_false_of_ne dash, beq_false_of_ne hash]
  rfl

theorem checkNonterminal_escape {text : String} (filled : text.toList ≠ []) (free : isMarked text = false) :
    checkNonterminal (escape text) = .ok () := by
  rw [← isMarked_escape] at free
  exact checkNonterminal_of_free (fun _ => isPlain_of_mem_escape) (escape_filled filled) free

theorem value_filled {symbol : Symbol} (legal : check symbol = .ok ()) : symbol.value.toList ≠ [] := by
  cases symbol with
  | terminal value => exact (checkValue_iff.1 legal).1
  | nonterminal value =>
    obtain ⟨⟨first, rest, text, -⟩, -⟩ := checkNonterminal_iff.1 legal
    rw [Symbol.value, text]
    exact List.cons_ne_nil _ _
  | empty => decide

theorem checkNonterminal_append {name more : String} (legal : checkNonterminal name = .ok ())
    (plain : ∀ c ∈ more.toList, isPlain c = true) : checkNonterminal (name ++ more) = .ok () := by
  obtain ⟨⟨first, rest, text, start⟩, all⟩ := checkNonterminal_iff.1 legal
  refine checkNonterminal_iff.2 ⟨⟨first, rest ++ more.toList, ?_, start⟩, fun c member => ?_⟩
  · rw [String.toList_append, text, List.cons_append]
  · rw [String.toList_append] at member
    exact (List.mem_append.1 member).elim (all c) (plain c)

end ContextFree.Name
