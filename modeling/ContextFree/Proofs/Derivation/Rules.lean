import ContextFree.Proofs.Derivation.Basic

namespace ContextFree.Production

def keepNew (kept : List Production) (p : Production) : List Production :=
  if kept.any (·.sameRule p) then kept else kept ++ [p]

theorem distinctRules_eq (rules : List Production) : distinctRules rules = rules.foldl keepNew [] := rfl

theorem subset_keepNew (kept : List Production) (p : Production) : kept ⊆ keepNew kept p := by
  unfold keepNew
  split
  · exact List.Subset.refl kept
  · exact List.subset_append_left kept [p]

theorem keepNew_covers (kept : List Production) (p : Production) :
    ∃ q ∈ keepNew kept p, q.sameRule p = true := by
  unfold keepNew
  split
  · next present => exact List.any_eq_true.1 present
  · exact ⟨p, List.mem_append_right kept (List.mem_singleton_self p), sameRule_iff.2 ⟨rfl, rfl⟩⟩

theorem subset_foldl_keepNew (rules kept : List Production) : kept ⊆ rules.foldl keepNew kept := by
  induction rules generalizing kept with
  | nil => exact List.Subset.refl kept
  | cons p rest ih => exact List.Subset.trans (subset_keepNew kept p) (ih (keepNew kept p))

theorem foldl_keepNew_covers {rules kept : List Production} {p : Production} (rule : p ∈ rules) :
    ∃ q ∈ rules.foldl keepNew kept, q.sameRule p = true := by
  induction rules generalizing kept with
  | nil => cases rule
  | cons first rest ih =>
    rcases List.mem_cons.1 rule with rfl | inRest
    · obtain ⟨q, member, same⟩ := keepNew_covers kept p
      exact ⟨q, subset_foldl_keepNew rest _ member, same⟩
    · exact ih inRest

theorem foldl_keepNew_sublist (rules kept : List Production) : (rules.foldl keepNew kept).Sublist (kept ++ rules) := by
  induction rules generalizing kept with
  | nil => exact List.sublist_append_left kept []
  | cons p rest ih =>
    rw [List.foldl_cons]
    apply (ih (keepNew kept p)).trans
    unfold keepNew
    split
    · exact (List.sublist_cons_self p rest).append_left kept
    · have same : kept ++ [p] ++ rest = kept ++ p :: rest := by rw [List.append_assoc, List.singleton_append]
      exact same ▸ List.Sublist.refl (kept ++ [p] ++ rest)

theorem distinctRules_sublist (rules : List Production) : (distinctRules rules).Sublist rules :=
  foldl_keepNew_sublist rules []

theorem mem_of_mem_distinctRules {rules : List Production} {p : Production}
    (member : p ∈ distinctRules rules) : p ∈ rules := (distinctRules_sublist rules).subset member

theorem distinctRules_covers {rules : List Production} {p : Production} (rule : p ∈ rules) :
    ∃ q ∈ distinctRules rules, q.sameRule p = true := foldl_keepNew_covers rule

theorem derives_distinctRules {rules : List Production} {body : Body} {sentence : Sentence} :
    Derives (distinctRules rules) body sentence ↔ Derives rules body sentence := by
  constructor
  · exact Derives.mono fun q member => mem_of_mem_distinctRules member
  · exact Derives.of_rules fun p rule => distinctRules_covers rule

section Distinct

variable {ps : List Production}

def Distinct (ps : List Production) : Prop := ps.Pairwise fun p q => p.sameRule q = false

instance (ps : List Production) : Decidable (Distinct ps) := inferInstanceAs (Decidable (ps.Pairwise _))

theorem keepNew_of_new (new : ∀ q ∈ ps, q.sameRule p = false) : keepNew ps p = ps ++ [p] := by
  refine if_neg fun present => ?_
  obtain ⟨q, member, same⟩ := List.any_eq_true.1 present
  rw [new q member] at same
  cases same

theorem foldl_keepNew_of_distinct {kept rules : List Production} (distinct : Distinct (kept ++ rules)) :
    rules.foldl keepNew kept = kept ++ rules := by
  induction rules generalizing kept with
  | nil => rw [List.foldl_nil, List.append_nil]
  | cons p rest ih =>
    have new : ∀ q ∈ kept, q.sameRule p = false := fun q member =>
      (List.pairwise_append.1 distinct).2.2 q member p List.mem_cons_self
    rw [List.foldl_cons, keepNew_of_new new, ih (by rwa [List.append_assoc]), List.append_assoc]
    rfl

theorem distinctRules_of_distinct (distinct : Distinct ps) : distinctRules ps = ps :=
  foldl_keepNew_of_distinct (by rwa [List.nil_append])

theorem Distinct.keepNew (distinct : Distinct ps) (p : Production) : Distinct (keepNew ps p) := by
  unfold Production.keepNew
  split
  · exact distinct
  · next absent =>
    refine List.pairwise_append.2 ⟨distinct, List.pairwise_singleton _ _, fun q member r single => ?_⟩
    rw [List.mem_singleton.1 single, Bool.eq_false_iff]
    exact fun same => absent (List.any_eq_true.2 ⟨q, member, same⟩)

theorem Distinct.foldl_keepNew (distinct : Distinct ps) (rules : List Production) :
    Distinct (rules.foldl Production.keepNew ps) := by
  induction rules generalizing ps with
  | nil => exact distinct
  | cons p rest ih => exact ih (distinct.keepNew p)

theorem distinct_distinctRules (ps : List Production) : Distinct (distinctRules ps) :=
  Distinct.foldl_keepNew List.Pairwise.nil ps

theorem keepNew_append_find? (q : Production) (kept rest : List Production) (p : Production) :
    (keepNew kept p ++ rest).find? (·.sameRule q) = (kept ++ p :: rest).find? (·.sameRule q) := by
  unfold keepNew
  split
  · next present =>
    obtain ⟨r, member, same⟩ := List.any_eq_true.1 present
    rw [List.find?_append, List.find?_append, List.find?_cons]
    cases found : p.sameRule q with
    | false => rfl
    | true =>
      -- The rule that p repeats stands among those kept, and so it is found there.
      have earlier : (kept.find? (·.sameRule q)).isSome := by
        refine List.find?_isSome.2 ⟨r, member, sameRule_iff.2 ?_⟩
        obtain ⟨head, body⟩ := sameRule_iff.1 same
        obtain ⟨sameHead, sameBody⟩ := sameRule_iff.1 found
        exact ⟨head.trans sameHead, body.trans sameBody⟩
      obtain ⟨first, which⟩ := Option.isSome_iff_exists.1 earlier
      rw [which, Option.some_or, Option.some_or]
  · rw [List.append_assoc, List.singleton_append]

theorem foldl_keepNew_find? (q : Production) (rules kept : List Production) :
    (rules.foldl keepNew kept).find? (·.sameRule q) = (kept ++ rules).find? (·.sameRule q) := by
  induction rules generalizing kept with
  | nil => rw [List.foldl_nil, List.append_nil]
  | cons p rest ih => rw [List.foldl_cons, ih, keepNew_append_find?]

theorem Distinct.mem_iff_find? (distinct : Distinct ps) {q : Production} :
    q ∈ ps ↔ ps.find? (·.sameRule q) = some q := by
  constructor
  · intro rule
    obtain ⟨before, after, rfl⟩ := List.append_of_mem rule
    have new : ∀ p ∈ before, p.sameRule q = false := fun p early =>
      (List.pairwise_append.1 distinct).2.2 p early q List.mem_cons_self
    have none : before.find? (·.sameRule q) = none := by simpa using new
    have self : q.sameRule q = true := sameRule_iff.2 ⟨rfl, rfl⟩
    rw [List.find?_append, none, Option.none_or, List.find?_cons, self]
  · exact List.mem_of_find?_eq_some

/-- A rule keeps the weight with which it stands first. -/
theorem mem_distinctRules_iff {q : Production} : q ∈ distinctRules ps ↔ ps.find? (·.sameRule q) = some q := by
  rw [(distinct_distinctRules ps).mem_iff_find?, distinctRules_eq, foldl_keepNew_find?, List.nil_append]

end Distinct

end ContextFree.Production
