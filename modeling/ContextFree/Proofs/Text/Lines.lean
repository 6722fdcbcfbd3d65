import ContextFree.Text.Basic

namespace ContextFree.Text

variable {α : Type} [DecidableEq α] {separator : α} {text : List α} {items : List (List α)}

theorem pieces_eq_splitOn (separator : α) (text : List α) : pieces separator text = text.splitOn separator := by
  induction text with
  | nil => rfl
  | cons a rest ih =>
    rw [pieces, List.splitOn_cons_eq_if_modifyHead, ih]
    simp only [beq_iff_eq]
    split
    · rfl
    · cases cut : rest.splitOn separator with
      | nil => exact absurd (ih.trans cut) (pieces_ne_nil separator rest)
      | cons piece more => rfl

theorem intercalate_pieces (separator : α) (text : List α) :
    [separator].intercalate (pieces separator text) = text := by
  rw [pieces_eq_splitOn, List.intercalate_splitOn]

theorem pieces_intercalate (some : items ≠ []) (free : ∀ item ∈ items, separator ∉ item) :
    pieces separator ([separator].intercalate items) = items := by
  rw [pieces_eq_splitOn, List.splitOn_intercalate separator free some]

theorem not_mem_of_mem_pieces {piece : List α} (listed : piece ∈ pieces separator text) : separator ∉ piece := by
  induction text generalizing piece with
  | nil =>
    rw [pieces, List.mem_singleton] at listed
    simp [listed]
  | cons a rest ih =>
    rw [pieces] at listed
    split at listed
    · rcases List.mem_cons.1 listed with rfl | later
      · exact List.not_mem_nil
      · exact ih later
    · next other =>
      split at listed
      · next none => exact absurd none (pieces_ne_nil separator rest)
      · next first more cut =>
        rw [cut] at ih
        rcases List.mem_cons.1 listed with rfl | later
        · rw [List.mem_cons, not_or]
          exact ⟨Ne.symm other, ih List.mem_cons_self⟩
        · exact ih (List.mem_cons_of_mem first later)

theorem mem_of_mem_dropReturn {carriage a : α} {line : List α} (member : a ∈ dropReturn carriage line) : a ∈ line := by
  rw [dropReturn] at member
  split at member
  · exact List.dropLast_subset line member
  · exact member

theorem not_mem_of_mem_lines {newline carriage : α} {line : List α} (listed : line ∈ lines newline carriage text) :
    newline ∉ line := by
  have each : ∀ piece ∈ pieces newline text, newline ∉ piece := fun _ => not_mem_of_mem_pieces
  rw [lines] at listed
  generalize pieces newline text = items at listed each
  fun_induction lines.go carriage items with
  | case1 => cases listed
  | case2 last empty => cases listed
  | case3 last filled => exact each line listed
  | case4 piece next more ih =>
    rw [List.forall_mem_cons] at each
    rcases List.mem_cons.1 listed with rfl | later
    · exact fun member => each.1 (mem_of_mem_dropReturn member)
    · exact ih later each.2

theorem go_of_solid {carriage : α} (filled : ∀ item ∈ items, item ≠ [])
    (ends : ∀ item ∈ items, item.getLast? ≠ some carriage) :
    lines.go carriage items = items := by
  fun_induction lines.go carriage items with
  | case1 => rfl
  | case2 last empty => exact absurd (List.isEmpty_iff.1 empty) (filled last List.mem_cons_self)
  | case3 last filled => rfl
  | case4 piece next more ih =>
    rw [dropReturn, if_neg (ends piece List.mem_cons_self), ih]
    · exact fun item listed => filled item (List.mem_cons_of_mem piece listed)
    · exact fun item listed => ends item (List.mem_cons_of_mem piece listed)

theorem lines_intercalate {newline carriage : α} (free : ∀ item ∈ items, newline ∉ item)
    (filled : ∀ item ∈ items, item ≠ []) (ends : ∀ item ∈ items, item.getLast? ≠ some carriage) :
    lines newline carriage ([newline].intercalate items) = items := by
  cases items with
  | nil => rfl
  | cons first rest =>
    rw [lines, pieces_intercalate (List.cons_ne_nil first rest) free, go_of_solid filled ends]

omit [DecidableEq α] in
theorem mem_of_mem_intercalate {glue : List α} {a : α} (member : a ∈ glue.intercalate items) :
    a ∈ glue ∨ ∃ item ∈ items, a ∈ item := by
  induction items with
  | nil => cases member
  | cons first rest ih =>
    cases rest with
    | nil =>
      rw [List.intercalate_singleton] at member
      exact Or.inr ⟨first, List.mem_cons_self, member⟩
    | cons second more =>
      rw [List.intercalate_cons_cons, List.mem_append, List.mem_append] at member
      rcases member with (here | between) | later
      · exact Or.inr ⟨first, List.mem_cons_self, here⟩
      · exact Or.inl between
      · exact (ih later).imp_right fun ⟨item, listed, inside⟩ => ⟨item, List.mem_cons_of_mem first listed, inside⟩

omit [DecidableEq α] in
theorem subset_intercalate {glue item : List α} (listed : item ∈ items) : item ⊆ glue.intercalate items := by
  induction items with
  | nil => cases listed
  | cons first rest ih =>
    cases rest with
    | nil =>
      rw [List.mem_singleton.1 listed, List.intercalate_singleton]
      exact List.Subset.refl first
    | cons second more =>
      rw [List.intercalate_cons_cons]
      rcases List.mem_cons.1 listed with rfl | later
      · exact fun a inside => List.mem_append_left _ (List.mem_append_left _ inside)
      · exact List.subset_append_of_subset_right _ (ih later)

omit [DecidableEq α] in
theorem intercalate_ne_nil {glue : List α} (filled : ∀ item ∈ items, item ≠ []) (any : items ≠ []) :
    glue.intercalate items ≠ [] := by
  obtain ⟨item, listed⟩ := List.exists_mem_of_ne_nil items any
  intro none
  have inside : item ⊆ glue.intercalate items := subset_intercalate listed
  rw [none, List.subset_nil] at inside
  exact filled item listed inside

omit [DecidableEq α] in
theorem cut_append {test : α → Bool} {front back : List α} (passes : ∀ a ∈ front, test a = true)
    (ends : ∀ a ∈ back.head?, test a = false) :
    (front ++ back).takeWhile test = front ∧ (front ++ back).dropWhile test = back := by
  rw [List.takeWhile_append_of_pos passes, List.dropWhile_append_of_pos passes]
  cases back with
  | nil => exact ⟨List.append_nil front, rfl⟩
  | cons a back =>
    have ended := ends a rfl
    rw [List.takeWhile_cons_of_neg (by simp [ended]), List.dropWhile_cons_of_neg (by simp [ended]), List.append_nil]
    exact ⟨rfl, rfl⟩

end ContextFree.Text
