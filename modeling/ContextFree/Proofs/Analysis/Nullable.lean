import ContextFree.Analysis.Nullable
import ContextFree.Pass.EmptyString
import ContextFree.Proofs.Derivation.Rules

namespace ContextFree.Nullable

open Pass (variants)

variable {ps : List Production} {body : Body} {sentence : Sentence}

theorem derives_nil_of_all {known : List String}
    (sound : ∀ name ∈ known, Derives ps [.nonterminal name] [])
    (all : body.all (isNullable known) = true) : Derives ps body [] := by
  induction body with
  | nil => exact .nil
  | cons symbol rest ih =>
    rw [List.all_cons, Bool.and_eq_true] at all
    have tail := ih all.2
    cases symbol with
    | terminal token => cases all.1
    | nonterminal name => exact (sound name (List.contains_iff_mem.1 all.1)).append tail
    | empty => exact .empty tail

theorem all_of_derives_nil {known : List String}
    (complete : ∀ p ∈ ps, p.body.all (isNullable known) = true → p.head ∈ known)
    (d : Derives ps body sentence) (none : sentence = []) : body.all (isNullable known) = true := by
  induction d with
  | nil => rfl
  | empty _ ih => exact ih none
  | terminal => cases none
  | @expand p rest first second rule _ _ inner tail =>
    obtain ⟨head, more⟩ := List.append_eq_nil_iff.1 none
    have member := complete p rule (inner head)
    rw [List.all_cons, Bool.and_eq_true]
    exact ⟨List.contains_iff_mem.2 member, tail more⟩

/-- What makes it right to leave out the nonterminals of the first list anywhere, and those of the
second list everywhere. -/
structure Exact (ps : List Production) (nullable deleted : List String) : Prop where
  nullable_iff : ∀ name, name ∈ nullable ↔ Derives ps [.nonterminal name] []
  only_empty : ∀ name ∈ deleted, ∀ w, Derives ps [.nonterminal name] w ↔ w = []

variable {nullable deleted : List String}

theorem empty_of_epsilon {p : Production} (epsilon : p.isEpsilon = true) :
    Derives ps p.body sentence ↔ sentence = [] := by
  rw [eq_of_beq epsilon, Derives.empty_iff, Derives.nil_iff]

theorem derives_nil_of_left_out (exact : Exact ps nullable deleted) {symbol : Symbol}
    (goes : isDropped deleted symbol = true ∨ isNullable nullable symbol = true) : Derives ps [symbol] [] := by
  cases symbol with
  | terminal token => cases goes.elim id id
  | nonterminal name =>
    rcases goes with dropped | null
    · exact (exact.only_empty name (List.contains_iff_mem.1 dropped) []).2 rfl
    · exact (exact.nullable_iff name).1 (List.contains_iff_mem.1 null)
  | empty => exact .empty .nil

theorem expansions_sound (exact : Exact ps nullable deleted) {kept : Body}
    (variant : kept ∈ expansions nullable deleted body) :
    Symbol.empty ∉ kept ∧ ∀ w, Derives ps kept w → Derives ps body w := by
  induction body generalizing kept with
  | nil =>
    rw [expansions, List.mem_singleton] at variant
    subst variant
    exact ⟨List.not_mem_nil, fun _ d => d⟩
  | cons symbol rest ih =>
    -- A variant of the rest stands for the whole body if the symbol can be left out before it.
    have leaveOut : isDropped deleted symbol = true ∨ isNullable nullable symbol = true →
        kept ∈ expansions nullable deleted rest →
          Symbol.empty ∉ kept ∧ ∀ w, Derives ps kept w → Derives ps (symbol :: rest) w := by
      intro goes inRest
      obtain ⟨mentions, sound⟩ := ih inRest
      have nothing := derives_nil_of_left_out exact goes
      exact ⟨mentions, fun w d => nothing.append (sound w d)⟩
    have keep : isDropped deleted symbol = false → kept ∈ (expansions nullable deleted rest).map (symbol :: ·) →
        Symbol.empty ∉ kept ∧ ∀ w, Derives ps kept w → Derives ps (symbol :: rest) w := by
      intro stays inMap
      obtain ⟨tail, inRest, rfl⟩ := List.mem_map.1 inMap
      obtain ⟨mentions, sound⟩ := ih inRest
      have notEmpty : Symbol.empty ≠ symbol := by
        intro same
        rw [← same] at stays
        cases stays
      refine ⟨List.not_mem_cons_of_ne_of_not_mem notEmpty mentions, fun w d => ?_⟩
      obtain ⟨first, second, rfl, head, more⟩ := Derives.cons_iff.1 d
      exact head.append (sound second more)
    rw [expansions] at variant
    split at variant
    · next dropped => exact leaveOut (Or.inl dropped) variant
    · next stays =>
      have stays := Bool.eq_false_iff.2 stays
      split at variant
      · next null =>
        rcases List.mem_append.1 variant with inMap | inRest
        · exact keep stays inMap
        · exact leaveOut (Or.inr null) inRest
      · exact keep stays variant

theorem expansions_drop {symbol : Symbol} {rest kept : Body}
    (goes : isDropped deleted symbol = true ∨ isNullable nullable symbol = true)
    (variant : kept ∈ expansions nullable deleted rest) :
    kept ∈ expansions nullable deleted (symbol :: rest) := by
  rw [expansions]
  split
  · exact variant
  · next stays =>
    rw [if_pos (goes.resolve_left stays)]
    exact List.mem_append_right _ variant

theorem expansions_keep {symbol : Symbol} {rest kept : Body} (stays : isDropped deleted symbol = false)
    (variant : kept ∈ expansions nullable deleted rest) :
    symbol :: kept ∈ expansions nullable deleted (symbol :: rest) := by
  have member : symbol :: kept ∈ (expansions nullable deleted rest).map (symbol :: ·) :=
    List.mem_map_of_mem variant
  rw [expansions]
  rw [if_neg (Bool.eq_false_iff.1 stays)]
  split
  · exact List.mem_append_left _ member
  · exact member

/-- The productions that the pass puts in the place of the given ones. -/
def withoutEmpty (ps : List Production) (nullable deleted : List String) : List Production :=
  (ps.filter fun p => !p.isEpsilon).flatMap (variants nullable deleted)

theorem mem_withoutEmpty {q : Production} : q ∈ withoutEmpty ps nullable deleted ↔
    ∃ p ∈ ps, p.isEpsilon = false ∧ ∃ kept ∈ expansions nullable deleted p.body,
      kept ≠ [] ∧ q = { p with body := kept } := by
  simp only [withoutEmpty, variants, List.mem_flatMap, List.mem_filter, List.mem_map,
    Bool.not_eq_true', and_assoc, List.isEmpty_eq_false_iff, @eq_comm _ q]

theorem variant_mem_withoutEmpty {p : Production} {kept : Body} {qs : List Production} (rule : p ∈ ps)
    (some : sentence ≠ []) (inner : Derives ps p.body sentence)
    (variant : kept ∈ expansions nullable deleted p.body) (derived : Derives qs kept sentence) :
    { p with body := kept } ∈ withoutEmpty ps nullable deleted := by
  have full : p.isEpsilon = false := by
    rw [Bool.eq_false_iff]
    intro epsilon
    exact some ((empty_of_epsilon epsilon).1 inner)
  have nonempty : kept ≠ [] := by
    intro none
    rw [none] at derived
    exact some (Derives.nil_iff.1 derived)
  exact mem_withoutEmpty.2 ⟨p, rule, full, kept, variant, nonempty, rfl⟩

/-- Each derivation goes through with some variant, in which the parts that derive nothing are
left out. -/
theorem exists_expansion (exact : Exact ps nullable deleted) (d : Derives ps body sentence) :
    ∃ kept ∈ expansions nullable deleted body,
      Derives (withoutEmpty ps nullable deleted) kept sentence := by
  induction d with
  | nil => exact ⟨[], by simp [expansions], .nil⟩
  | empty _ ih =>
    obtain ⟨kept, variant, derived⟩ := ih
    exact ⟨kept, expansions_drop (Or.inl rfl) variant, derived⟩
  | terminal _ ih =>
    obtain ⟨kept, variant, derived⟩ := ih
    exact ⟨_, expansions_keep rfl variant, .terminal derived⟩
  | @expand p rest first second rule body _ inner tail =>
    obtain ⟨kept, variant, derived⟩ := tail
    have whole : Derives ps [.nonterminal p.head] first := .of_rule rule body
    -- A nonterminal that derives nothing here is left out, any other one is kept.
    cases first with
    | nil =>
      have null : isNullable nullable (.nonterminal p.head) = true :=
        List.contains_iff_mem.2 ((exact.nullable_iff p.head).2 whole)
      exact ⟨kept, expansions_drop (Or.inr null) variant, derived⟩
    | cons token tokens =>
      have stays : isDropped deleted (.nonterminal p.head) = false := by
        rw [Bool.eq_false_iff]
        intro dropped
        cases (exact.only_empty p.head (List.contains_iff_mem.1 dropped) _).1 whole
      obtain ⟨keptInner, innerVariant, innerDerived⟩ := inner
      have added : { p with body := keptInner } ∈ withoutEmpty ps nullable deleted :=
        variant_mem_withoutEmpty rule (List.cons_ne_nil token tokens) body innerVariant innerDerived
      exact ⟨_, expansions_keep stays variant, (Derives.of_rule added innerDerived).append derived⟩

theorem withoutEmpty_full (exact : Exact ps nullable deleted) {q : Production}
    (rule : q ∈ withoutEmpty ps nullable deleted) : q.body ≠ [] ∧ Symbol.empty ∉ q.body := by
  obtain ⟨p, -, -, kept, variant, nonempty, rfl⟩ := mem_withoutEmpty.1 rule
  exact ⟨nonempty, (expansions_sound exact variant).1⟩

theorem derives_withoutEmpty_iff (exact : Exact ps nullable deleted) {name : String} :
    Derives (withoutEmpty ps nullable deleted) [.nonterminal name] sentence ↔
      sentence ≠ [] ∧ Derives ps [.nonterminal name] sentence := by
  constructor
  · intro d
    have long := d.length_le (fun q rule => withoutEmpty_full exact rule) (by simp)
    refine ⟨fun none => ?_, d.of_derivable fun q rule w inner => ?_⟩
    · rw [none] at long
      cases long
    · obtain ⟨p, origin, -, kept, variant, -, rfl⟩ := mem_withoutEmpty.1 rule
      show Derives ps [.nonterminal p.head] w
      exact Derives.of_rule origin ((expansions_sound exact variant).2 w inner)
  · intro ⟨tokens, d⟩
    obtain ⟨p, rule, rfl, inner⟩ := Derives.nonterminal_iff.1 d
    obtain ⟨kept, variant, derived⟩ := exists_expansion exact inner
    have added : { p with body := kept } ∈ withoutEmpty ps nullable deleted :=
      variant_mem_withoutEmpty rule tokens inner variant derived
    exact @Derives.of_rule _ _ { p with body := kept } added derived

end ContextFree.Nullable
