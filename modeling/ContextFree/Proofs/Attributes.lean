import Mathlib.Data.List.Perm.Subperm
import ContextFree.Attributes

namespace ContextFree.AttributeTable

variable {s t : AttributeTable} {name : String} {value : Attributes}

theorem getIn_eq_some {entries : List (String × Attributes)} (distinct : (entries.map Prod.fst).Nodup) :
    getIn name entries = some value ↔ (name, value) ∈ entries := by
  induction entries with
  | nil => simp [getIn]
  | cons entry rest ih =>
    rw [List.map_cons, List.nodup_cons] at distinct
    rw [getIn, List.mem_cons]
    by_cases here : entry.1 = name
    · rw [if_pos here]
      constructor
      · intro found
        left
        rw [← Option.some.inj found, ← here]
      · rintro (same | listed)
        · rw [← same]
        · exact absurd (List.mem_map_of_mem listed) (here ▸ distinct.1)
    · rw [if_neg here, ih distinct.2]
      constructor
      · exact Or.inr
      · rintro (same | listed)
        · exact absurd (congrArg Prod.fst same).symm here
        · exact listed

theorem get?_eq_some : t.get? name = some value ↔ (name, value) ∈ t.entries := getIn_eq_some t.distinct

theorem mem_names_iff : name ∈ t.entries.map Prod.fst ↔ ∃ value, t.get? name = some value := by
  constructor
  · intro listed
    obtain ⟨entry, member, rfl⟩ := List.mem_map.1 listed
    exact ⟨entry.2, get?_eq_some.2 member⟩
  · rintro ⟨value, found⟩
    exact List.mem_map_of_mem (get?_eq_some.1 found)

theorem same_iff : s.same t = true ↔ ∀ name, s.get? name = t.get? name := by
  rw [same, Bool.and_eq_true, beq_iff_eq, List.all_eq_true]
  constructor
  · rintro ⟨lengths, found⟩ name
    have within : s.entries.map Prod.fst ⊆ t.entries.map Prod.fst := by
      intro other listed
      obtain ⟨entry, member, rfl⟩ := List.mem_map.1 listed
      exact mem_names_iff.2 ⟨entry.2, eq_of_beq (found entry member)⟩
    have all : (s.entries.map Prod.fst).Perm (t.entries.map Prod.fst) := by
      apply (s.distinct.subperm within).perm_of_length_le
      rw [List.length_map, List.length_map]
      omega
    cases here : s.get? name with
    | some value => exact (eq_of_beq (found _ (get?_eq_some.1 here))).symm
    | none =>
      cases there : t.get? name with
      | none => rfl
      | some value =>
        obtain ⟨other, listed⟩ := mem_names_iff.1 (all.mem_iff.2 (mem_names_iff.2 ⟨value, there⟩))
        rw [here] at listed
        cases listed
  · intro agree
    constructor
    · have all : (s.entries.map Prod.fst).Perm (t.entries.map Prod.fst) := by
        apply (List.perm_ext_iff_of_nodup s.distinct t.distinct).2
        intro name
        rw [mem_names_iff, mem_names_iff, agree]
      have lengths := all.length_eq
      rwa [List.length_map, List.length_map] at lengths
    · intro entry member
      rw [beq_iff_eq, ← agree]
      exact get?_eq_some.2 member

end ContextFree.AttributeTable
