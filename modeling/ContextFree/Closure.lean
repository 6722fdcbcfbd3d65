namespace ContextFree.Closure

variable {α : Type}

theorem length_filter_lt {p q : α → Bool} {items : List α} {x : α} (weaker : ∀ a, q a = true → p a = true)
    (member : x ∈ items) (passes : p x = true) (fails : q x = false) :
    (items.filter q).length < (items.filter p).length := by
  induction items with
  | nil => cases member
  | cons a rest ih =>
    have tail : (rest.filter q).length ≤ (rest.filter p).length := by
      rw [← List.countP_eq_length_filter, ← List.countP_eq_length_filter]
      exact List.countP_mono_left fun a _ => weaker a
    rcases List.mem_cons.1 member with rfl | inRest
    · rw [List.filter_cons_of_neg (by simp [fails]), List.filter_cons_of_pos passes, List.length_cons]
      omega
    · have smaller := ih inRest
      by_cases keeps : q a = true
      · rw [List.filter_cons_of_pos keeps, List.filter_cons_of_pos (weaker a keeps)]
        exact Nat.succ_lt_succ smaller
      · rw [List.filter_cons_of_neg keeps, List.filter_cons]
        split
        · exact Nat.lt_succ_of_lt smaller
        · exact smaller

variable [DecidableEq α]

def extend (known : List α) : List α → List α
  | [] => known
  | x :: rest => if x ∈ known then extend known rest else extend (known ++ [x]) rest

theorem mem_extend {known more : List α} {x : α} :
    x ∈ extend known more ↔ x ∈ known ∨ x ∈ more := by
  induction more generalizing known with
  | nil => simp [extend]
  | cons y rest ih =>
    rw [extend]
    split
    · next present =>
      rw [ih, List.mem_cons]
      constructor
      · exact Or.imp_right Or.inr
      · rintro (inKnown | rfl | inRest)
        · exact Or.inl inKnown
        · exact Or.inl present
        · exact Or.inr inRest
    · rw [ih, List.mem_append, List.mem_singleton, List.mem_cons, or_assoc]

theorem extend_eq_append (known more : List α) : ∃ fresh, extend known more = known ++ fresh := by
  induction more generalizing known with
  | nil => exact ⟨[], (List.append_nil known).symm⟩
  | cons y rest ih =>
    rw [extend]
    split
    · exact ih known
    · obtain ⟨fresh, equal⟩ := ih (known ++ [y])
      exact ⟨y :: fresh, by rw [equal, List.append_assoc]; rfl⟩

theorem extend_eq_self {known more : List α} (same : (extend known more).length = known.length) :
    extend known more = known := by
  obtain ⟨fresh, whole⟩ := extend_eq_append known more
  have none : fresh = [] := by
    rw [whole, List.length_append] at same
    exact List.length_eq_zero_iff.1 (by omega)
  rw [whole, none, List.append_nil]

theorem extend_nodup {known more : List α} (distinct : known.Nodup) : (extend known more).Nodup := by
  induction more generalizing known with
  | nil => exact distinct
  | cons y rest ih =>
    rw [extend]
    split
    · exact ih distinct
    · next absent =>
      apply ih
      rw [List.nodup_append]
      refine ⟨distinct, by simp, fun a member b single equal => ?_⟩
      rw [List.mem_singleton] at single
      exact absent (single ▸ equal ▸ member)

theorem missing_lt {domain known found : List α}
    (grown : (extend known (found.filter (· ∈ domain))).length ≠ known.length) :
    (domain.filter (· ∉ extend known (found.filter (· ∈ domain)))).length <
      (domain.filter (· ∉ known)).length := by
  have new : ∃ x ∈ domain, x ∈ found ∧ x ∉ known := by
    refine Decidable.byContradiction fun none => grown ?_
    have nothing : ∀ more : List α, (∀ x ∈ more, x ∈ known) → extend known more = known := by
      intro more all
      induction more with
      | nil => rfl
      | cons y rest ih =>
        rw [extend, if_pos (all y List.mem_cons_self)]
        exact ih fun x member => all x (List.mem_cons_of_mem y member)
    rw [nothing]
    intro x member
    obtain ⟨inFound, inDomain⟩ := List.mem_filter.1 member
    exact Decidable.byContradiction fun absent =>
      none ⟨x, of_decide_eq_true inDomain, inFound, absent⟩
  obtain ⟨x, inDomain, inFound, absent⟩ := new
  refine length_filter_lt (fun a outside => ?_) inDomain (decide_eq_true absent) ?_
  · simp only [decide_eq_true_eq, mem_extend, not_or] at outside ⊢
    exact outside.1
  · simp only [decide_eq_false_iff_not, Decidable.not_not, mem_extend]
    exact Or.inr (List.mem_filter.2 ⟨inFound, decide_eq_true inDomain⟩)

def saturate (domain : List α) (step : List α → List α) (known : List α) : List α :=
  let more := extend known ((step known).filter (· ∈ domain))
  if more.length = known.length then known else saturate domain step more
termination_by (domain.filter (· ∉ known)).length
decreasing_by next grown => exact missing_lt grown

theorem saturate_induction {domain : List α} {step : List α → List α} {P : α → Prop}
    {known : List α} (start : ∀ x ∈ known, P x)
    (keeps : ∀ seen, (∀ x ∈ seen, P x) → ∀ x ∈ step seen, P x) :
    ∀ x ∈ saturate domain step known, P x := by
  fun_induction saturate domain step known with
  | case1 => exact start
  | case2 known more _ ih =>
    refine ih fun x member => ?_
    rcases mem_extend.1 member with old | new
    · exact start x old
    · exact keeps known start x (List.mem_filter.1 new).1

theorem subset_saturate (domain : List α) (step : List α → List α) (known : List α) :
    known ⊆ saturate domain step known := by
  fun_induction saturate domain step known with
  | case1 => exact List.Subset.refl _
  | case2 known =>
    next grown ih => exact fun x member => ih (mem_extend.2 (Or.inl member))

theorem saturate_closed (domain : List α) (step : List α → List α) (known : List α) :
    ∀ x ∈ step (saturate domain step known), x ∈ domain → x ∈ saturate domain step known := by
  fun_induction saturate domain step known with
  | case1 known more same =>
    intro x found inDomain
    have member : x ∈ more :=
      mem_extend.2 (Or.inr (List.mem_filter.2 ⟨found, decide_eq_true inDomain⟩))
    rwa [show more = known from extend_eq_self same] at member
  | case2 known more _ ih => exact ih

/-- What every round keeps holds of the whole list in the end. -/
theorem saturate_keeps {domain : List α} {step : List α → List α} {P : List α → Prop} {known : List α} (start : P known)
    (round : ∀ seen, P seen → P (extend seen ((step seen).filter (· ∈ domain)))) : P (saturate domain step known) := by
  fun_induction saturate domain step known with
  | case1 => exact start
  | case2 known more _ ih => exact ih (round known start)

end ContextFree.Closure
