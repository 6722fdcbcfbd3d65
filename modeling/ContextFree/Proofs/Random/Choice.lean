import ContextFree.Proofs.Binary64.Rounding
import ContextFree.Random.Choice

namespace ContextFree.Choice

open Binary64

variable {total drawn : Nat} {weights : List Nat}

theorem add_le_infinityCode (total weight : Nat) : add total weight ≤ infinityCode := nearest_le _ _

theorem le_add (finite : total ≤ infinityCode) (weight : Nat) : total ≤ add total weight := by
  have rounded := @nearest_mono (units total) (units total + units weight) 1 (Nat.le_add_right _ _)
  rwa [nearest_units finite] at rounded

theorem add_zero (finite : total ≤ infinityCode) : add total 0 = total := by
  rw [add, units_zero, Nat.add_zero, nearest_units finite]

theorem le_of_mem_sums (finite : total ≤ infinityCode) {sum : Nat} (member : sum ∈ sums total weights) :
    total ≤ sum := by
  induction weights generalizing total with
  | nil => cases member
  | cons weight rest ih =>
    have first := le_add finite weight
    rcases List.mem_cons.1 member with rfl | later
    · exact first
    · exact Nat.le_trans first (ih (add_le_infinityCode total weight) later)

theorem sums_cons (total weight : Nat) (rest : List Nat) :
    ∃ sum, sums total (weight :: rest) = sum :: sums sum rest ∧ sum ≤ infinityCode ∧
      (total ≤ infinityCode → weight = 0 → sum = total) := by
  refine ⟨add total weight, sums.eq_2 total weight rest, add_le_infinityCode total weight, ?_⟩
  intro finite none
  rw [none, add_zero finite]

/-- The place before which the sums do not pass a point is not one of a zero weight. -/
theorem exists_weight_of_countP (finite : total ≤ infinityCode) (started : total ≤ drawn)
    (within : drawn < (sums total weights).getLast?.getD 0) :
    ∃ weight, weights[(sums total weights).dropLast.countP (· ≤ drawn)]? = some weight ∧ weight ≠ 0 := by
  -- The sum so far never passes the point: where the next one does, its weight has moved it.
  induction weights generalizing total with
  | nil => simp [sums] at within
  | cons weight rest ih =>
    obtain ⟨sum, whole, bounded, unmoved⟩ := sums_cons total weight rest
    have moved : drawn < sum → weight ≠ 0 := by
      intro passed none
      have same := unmoved finite none
      omega
    rw [whole] at within ⊢
    cases rest with
    | nil =>
      simp only [sums, List.getLast?_singleton, Option.getD_some] at within
      refine ⟨weight, ?_, moved within⟩
      simp only [sums, List.dropLast_singleton, List.countP_nil, List.getElem?_cons_zero]
    | cons next rest =>
      have some : sums sum (next :: rest) ≠ [] := by
        obtain ⟨other, starts, -⟩ := sums_cons sum next rest
        rw [starts]
        exact List.cons_ne_nil _ _
      rw [List.dropLast_cons_of_ne_nil some, List.countP_cons]
      rw [List.getLast?_cons, Option.getD_some, List.getLast?_eq_some_getLast some, Option.getD_some] at within
      by_cases passed : sum ≤ drawn
      · rw [if_pos (decide_eq_true passed), List.getElem?_cons_succ]
        apply ih bounded passed
        rw [List.getLast?_eq_some_getLast some, Option.getD_some]
        exact within
      · have untouched : (sums sum (next :: rest)).dropLast.countP (· ≤ drawn) = 0 := by
          rw [List.countP_eq_zero]
          intro other member
          have later := le_of_mem_sums bounded (List.dropLast_subset _ member)
          simp only [decide_eq_true_eq]
          omega
        rw [untouched, if_neg (by simp [passed])]
        exact ⟨weight, List.getElem?_cons_zero, moved (by omega)⟩

theorem scaleBelow_spec (positive : total ≠ 0) (code : Nat) :
    nearest (units (scaleBelow total code) * (fractionCount - 1)) fractionCount < total := by
  induction code with
  | zero =>
    rw [scaleBelow, units_zero, Nat.zero_mul, nearest_zero]
    omega
  | succ code ih =>
    rw [scaleBelow]
    split
    · exact ih
    · omega

theorem point_lt (positive : total ≠ 0) (word : UInt64) : point (scaleBelow total total) word < total := by
  have bits : (word >>> 12).toNat ≤ fractionCount - 1 := by
    have below := word.toNat_lt
    rw [UInt64.toNat_shiftRight, Nat.shiftRight_eq_div_pow]
    have shifted : word.toNat / 2 ^ 12 < fractionCount := by
      rw [Nat.div_lt_iff_lt_mul (by decide)]
      exact below
    exact Nat.le_pred_of_lt shifted
  have scaled : (word >>> 12).toNat * units (scaleBelow total total) ≤
      units (scaleBelow total total) * (fractionCount - 1) := by
    rw [Nat.mul_comm]
    exact Nat.mul_le_mul_left _ bits
  exact Nat.lt_of_le_of_lt (nearest_mono scaled) (scaleBelow_spec positive total)

theorem exists_weight_of_index (usable : total? weights = some total) (word : UInt64) :
    ∃ weight, weights[index weights total word]? = some weight ∧ weight ≠ 0 := by
  simp only [total?, Option.ite_none_left_eq_some, Option.some.injEq, not_or] at usable
  obtain ⟨⟨positive, -⟩, rfl⟩ := usable
  exact exists_weight_of_countP (Nat.zero_le _) (Nat.zero_le _) (point_lt positive word)

end ContextFree.Choice
