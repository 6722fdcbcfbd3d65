import ContextFree.Proofs.Edit.Tables
import ContextFree.Proofs.Edit.Totality

namespace ContextFree

def AttributeKind.other : AttributeKind → AttributeKind
  | .inherited => .synthesized
  | .synthesized => .inherited
  | .static => .static

theorem Letters.ofList_toList (letters : Letters) : Letters.ofList letters.toList = letters :=
  Letters.ext_mem fun _ => Letters.mem_ofList

namespace Attributes

variable {a b : Attributes} {c : Char}

def merge (a b : Attributes) : Attributes := ⟨a.inherited.union b.inherited, a.synthesized.union b.synthesized⟩

/-- No letter is both inherited and synthesized. -/
def Apart (a : Attributes) : Prop := ∀ c ∈ a.inherited, c ∉ a.synthesized

def Lowercase (a : Attributes) : Prop := ∀ c ∈ a.static, Letters.isLetter c = true

theorem lowercase_empty : (∅ : Attributes).Lowercase := by
  intro c member
  rcases mem_static.1 member with none | none <;> exact absurd none (Letters.not_mem_empty c)

theorem apart_empty : (∅ : Attributes).Apart := fun c none => absurd none (Letters.not_mem_empty c)

@[simp] theorem mem_merge_inherited : c ∈ (a.merge b).inherited ↔ c ∈ a.inherited ∨ c ∈ b.inherited :=
  Letters.mem_union

@[simp] theorem mem_merge_synthesized : c ∈ (a.merge b).synthesized ↔ c ∈ a.synthesized ∨ c ∈ b.synthesized :=
  Letters.mem_union

theorem mem_merge_ofKind {kind : AttributeKind} :
    c ∈ (a.merge b).ofKind kind ↔ c ∈ a.ofKind kind ∨ c ∈ b.ofKind kind := by
  cases kind with
  | inherited => exact mem_merge_inherited
  | synthesized => exact mem_merge_synthesized
  | static =>
    simp only [ofKind, mem_static, mem_merge_inherited, mem_merge_synthesized]
    grind

theorem Lowercase.merge (first : a.Lowercase) (second : b.Lowercase) : (a.merge b).Lowercase := by
  intro c member
  rcases (@mem_merge_ofKind _ _ c .static).1 member with old | new
  · exact first c old
  · exact second c new

theorem not_mem_empty_ofKind (kind : AttributeKind) (c : Char) : c ∉ (∅ : Attributes).ofKind kind := by
  cases kind <;> exact List.not_mem_nil

theorem ext_mem (inherited : ∀ c, c ∈ a.inherited ↔ c ∈ b.inherited)
    (synthesized : ∀ c, c ∈ a.synthesized ↔ c ∈ b.synthesized) : a = b := by
  obtain ⟨i, s⟩ := a
  obtain ⟨j, t⟩ := b
  have first : i = j := Letters.ext_mem inherited
  have second : s = t := Letters.ext_mem synthesized
  rw [first, second]

theorem merge_self (a : Attributes) : a.merge a = a := by
  apply ext_mem <;> simp

theorem merge_empty (a : Attributes) : a.merge ∅ = a := by
  apply ext_mem
  · intro c
    exact mem_merge_inherited.trans (or_iff_left (not_mem_empty_ofKind .inherited c))
  · intro c
    exact mem_merge_synthesized.trans (or_iff_left (not_mem_empty_ofKind .synthesized c))

theorem merge_assoc (a b c : Attributes) : (a.merge b).merge c = a.merge (b.merge c) := by
  apply ext_mem <;> simp [or_assoc]

def only (letters : List Char) : AttributeKind → Attributes
  | .inherited => { inherited := .ofList letters }
  | .synthesized => { synthesized := .ofList letters }
  | .static => ⟨∅, ∅⟩

section Only

variable {kind : AttributeKind} {letters : List Char}

theorem mem_static_only (member : c ∈ (only letters kind).static) : c ∈ letters := by
  rw [mem_static] at member
  cases kind with
  | static => simp [only] at member
  | _ => simpa [only] using member

theorem only_nil (kind : AttributeKind) : only [] kind = ∅ := by
  cases kind <;> rfl

theorem only_append (front back : List Char) (kind : AttributeKind) :
    only (front ++ back) kind = (only front kind).merge (only back kind) := by
  cases kind <;> apply ext_mem <;> simp [only]

theorem ofKind_other_merge_only : (a.merge (only letters kind)).ofKind kind.other = a.ofKind kind.other := by
  have none : ∀ set : Letters, set.union ∅ = set := fun _ => rfl
  cases kind <;> simp only [AttributeKind.other, ofKind, only, merge, static, none]

theorem merge_only_toList (a b : Attributes) :
    (a.merge (only b.inherited.toList .inherited)).merge (only b.synthesized.toList .synthesized) = a.merge b := by
  rw [only, only, Letters.ofList_toList, Letters.ofList_toList]
  apply ext_mem <;> simp

theorem merge_only_of_held (held : ∀ c ∈ letters, c ∈ a.ofKind kind) : a.merge (only letters kind) = a := by
  cases kind with
  | inherited =>
    have inherited : ∀ c ∈ letters, c ∈ a.inherited := held
    apply ext_mem
    · simpa [only]
    · simp [only]
  | synthesized =>
    have synthesized : ∀ c ∈ letters, c ∈ a.synthesized := held
    apply ext_mem
    · simp [only]
    · simpa [only]
  | static => apply ext_mem <;> simp [only]

theorem Apart.merge_only (apart : a.Apart) (free : ∀ c ∈ letters, c ∉ a.ofKind kind.other) :
    (a.merge (only letters kind)).Apart := by
  intro c held there
  rw [mem_merge_inherited] at held
  rw [mem_merge_synthesized] at there
  cases kind with
  | inherited =>
    have old : c ∈ a.synthesized := by simpa [only] using there
    rcases held with held | new
    · exact apart c held old
    · exact free c (Letters.mem_ofList.1 new) old
  | synthesized =>
    have old : c ∈ a.inherited := by simpa [only] using held
    rcases there with there | new
    · exact apart c old there
    · exact free c (Letters.mem_ofList.1 new) old
  | static =>
    have old : c ∈ a.inherited := by simpa [only] using held
    exact apart c old (by simpa [only] using there)

end Only

theorem isEmpty_iff : a.isEmpty = true ↔ a = ∅ := by
  have none : ∀ letters : Letters, letters.isEmpty = true ↔ letters = ∅ := by
    rintro ⟨letters, ascending⟩
    cases letters with
    | nil => exact ⟨fun _ => rfl, fun _ => rfl⟩
    | cons c rest => exact ⟨nofun, fun same => nomatch congrArg Letters.toList same⟩
  obtain ⟨inherited, synthesized⟩ := a
  rw [isEmpty, Bool.and_eq_true, none, none]
  exact (Attributes.mk.injEq _ _ _ _ ▸ Iff.rfl)

end Attributes

namespace AttributeTable

theorem setIn_setIn (name : String) (first second : Attributes) (entries : List (String × Attributes)) :
    setIn name second (setIn name first entries) = setIn name second entries := by
  induction entries with
  | nil => simp [setIn]
  | cons entry rest ih =>
    by_cases here : entry.1 = name
    · simp [setIn, here]
    · simp [setIn, here, ih]

theorem set_set (table : AttributeTable) (name : String) (first second : Attributes) :
    (table.set name first).set name second = table.set name second := by
  simp only [set, setIn_setIn]

theorem setIn_of_getIn {name : String} {value : Attributes} {entries : List (String × Attributes)}
    (found : getIn name entries = some value) : setIn name value entries = entries := by
  induction entries with
  | nil => cases found
  | cons entry rest ih =>
    rw [getIn] at found
    rw [setIn]
    split at found
    · next here => rw [if_pos here, ← here, ← Option.some.inj found]
    · next elsewhere => rw [if_neg elsewhere, ih found]

theorem set_of_get? {table : AttributeTable} {name : String} {value : Attributes}
    (found : table.get? name = some value) :
    table.set name value = table := by
  simp only [set, setIn_of_getIn found]

end AttributeTable

namespace Edit

variable {g h k : Grammar} {name : String} {letter : Char} {u : Unit}

structure Sets (name : String) (value : Attributes) (g h : Grammar) : Prop where
  rest : ∃ attributes, h = { g with attributes }
  here : h.attributesOf name = value
  others : ∀ other, other ≠ name → h.attributesOf other = g.attributesOf other

def withAttributes (name : String) (value : Attributes) (g : Grammar) : Grammar :=
  { g with attributes := g.attributes.set name value }

theorem sets_withAttributes (name : String) (value : Attributes) (g : Grammar) :
    Sets name value g (withAttributes name value g) where
  rest := ⟨_, rfl⟩
  here := by
    rw [Grammar.attributesOf, Grammar.attributesOf?, withAttributes, AttributeTable.get?_set, if_pos rfl]
    rfl
  others other differs := by
    rw [Grammar.attributesOf, Grammar.attributesOf?, withAttributes, AttributeTable.get?_set, if_neg differs]
    rfl

theorem Sets.forall_attributesOf {value : Attributes} {Q : Attributes → Prop} (sets : Sets name value g h)
    (here : Q value)
    (old : ∀ other, Q (g.attributesOf other)) (other : String) : Q (h.attributesOf other) := by
  by_cases same : other = name
  · rw [same, sets.here]
    exact here
  · rw [sets.others other same]
    exact old other

theorem Sets.refl (name : String) (g : Grammar) : Sets name (g.attributesOf name) g g :=
  ⟨⟨g.attributes, rfl⟩, rfl, fun _ _ => rfl⟩

theorem Sets.trans {first second : Attributes} (one : Sets name first g h) (two : Sets name second h k) :
    Sets name second g k where
  rest := by
    obtain ⟨_, rfl⟩ := one.rest
    obtain ⟨attributes, rfl⟩ := two.rest
    exact ⟨attributes, rfl⟩
  here := two.here
  others other differs := (two.others other differs).trans (one.others other differs)

theorem succeeds_require {checked : Except Fault Unit} :
    (require checked).Succeeds g u h ↔ checked = .ok () ∧ g = h := by
  cases checked with
  | ok _ => simp [require]
  | error fault => simp [require]

theorem checkLetter_iff : Weight.checkLetter letter = .ok () ↔ Letters.isLetter letter = true := by
  unfold Weight.checkLetter
  split <;> simp_all

theorem succeeds_checkAttribute {found : Attributes} : (checkAttribute name letter).Succeeds g found h ↔
    name ∈ g.nonterminals ∧ Letters.isLetter letter = true ∧ found = g.attributesOf name ∧ g = h := by
  simp only [checkAttribute, succeeds_bind, succeeds_grammar]
  constructor
  · rintro ⟨_, _, ⟨rfl, rfl⟩, ran⟩
    split at ran
    · next known =>
      obtain ⟨_, _, checked, answered⟩ := succeeds_bind.1 ran
      obtain ⟨lower, rfl⟩ := succeeds_require.1 checked
      obtain ⟨rfl, rfl⟩ := succeeds_pure.1 answered
      exact ⟨known, checkLetter_iff.1 lower, rfl, rfl⟩
    · exact absurd ran succeeds_refuse
  · rintro ⟨known, lower, rfl, rfl⟩
    refine ⟨g, g, ⟨rfl, rfl⟩, ?_⟩
    rw [if_pos known]
    exact succeeds_bind.2 ⟨(), g, succeeds_require.2 ⟨checkLetter_iff.2 lower, rfl⟩, succeeds_pure.2 ⟨rfl, rfl⟩⟩

/-- What the two additions of a letter have in common. A letter stays out of one set while it is in the
other. -/
def putLetter (kind : AttributeKind) (name : String) (letter : Char) : Edit Unit := do
  let attributes ← checkAttribute name letter
  if letter ∈ attributes.ofKind kind.other then refuse (.clash letter name kind.other)
  else setAttributes name (attributes.merge (.only [letter] kind))

theorem addInherited_eq (name : String) : addInherited name = putLetter .inherited name := by
  have insert : ∀ (a : Attributes) c, { a with inherited := a.inherited.insert c } =
      a.merge (.only [c] .inherited) := by
    intro a c
    apply Attributes.ext_mem <;> simp [Attributes.only, or_comm]
  funext letter
  simp only [addInherited, insert]
  rfl

theorem addSynthesized_eq (name : String) : addSynthesized name = putLetter .synthesized name := by
  have insert : ∀ (a : Attributes) c, { a with synthesized := a.synthesized.insert c } =
      a.merge (.only [c] .synthesized) := by
    intro a c
    apply Attributes.ext_mem <;> simp [Attributes.only, or_comm]
  funext letter
  simp only [addSynthesized, insert]
  rfl

theorem mergeAttributes_eq (name : String) (source : Attributes) : mergeAttributes name source =
    (source.inherited.toList.forM (putLetter .inherited name) >>= fun _ =>
      source.synthesized.toList.forM (putLetter .synthesized name)) := by
  rw [mergeAttributes, addInherited_eq, addSynthesized_eq]

section Letters

variable {kind : AttributeKind} {letters : List Char}

theorem succeeds_putLetter : (putLetter kind name letter).Succeeds g u h ↔
    name ∈ g.nonterminals ∧ Letters.isLetter letter = true ∧ letter ∉ (g.attributesOf name).ofKind kind.other ∧
      h = withAttributes name ((g.attributesOf name).merge (.only [letter] kind)) g := by
  simp only [putLetter, succeeds_bind, succeeds_checkAttribute]
  constructor
  · rintro ⟨_, _, ⟨known, lower, rfl, rfl⟩, ran⟩
    split at ran
    · exact absurd ran succeeds_refuse
    · next free => exact ⟨known, lower, free, succeeds_change.1 ran⟩
  · rintro ⟨known, lower, free, rfl⟩
    refine ⟨_, g, ⟨known, lower, rfl, rfl⟩, ?_⟩
    rw [if_neg free]
    exact succeeds_change.2 rfl

/-- With some letters of one kind put to those of a name. Without a letter nothing is touched. -/
def putLetters (kind : AttributeKind) (name : String) (letters : List Char) (g : Grammar) : Grammar :=
  if letters = [] then g else withAttributes name ((g.attributesOf name).merge (.only letters kind)) g

theorem withAttributes_withAttributes (name : String) (first second : Attributes) (g : Grammar) :
    withAttributes name second (withAttributes name first g) = withAttributes name second g := by
  rw [withAttributes, withAttributes, withAttributes, AttributeTable.set_set]

theorem putLetters_cons (kind : AttributeKind) (name : String) (letter : Char) (rest : List Char) (g : Grammar) :
    putLetters kind name (letter :: rest) g =
      putLetters kind name rest (withAttributes name ((g.attributesOf name).merge (.only [letter] kind)) g) := by
  have here := (sets_withAttributes name ((g.attributesOf name).merge (.only [letter] kind)) g).here
  unfold putLetters
  rw [if_neg (List.cons_ne_nil letter rest)]
  split
  · next none => rw [none]
  · rw [here, withAttributes_withAttributes, Attributes.merge_assoc, ← Attributes.only_append, List.singleton_append]

theorem nonterminals_putLetters (kind : AttributeKind) (name : String) (letters : List Char) (g : Grammar) :
    (putLetters kind name letters g).nonterminals = g.nonterminals := by
  unfold putLetters
  split <;> rfl

theorem sets_putLetters (kind : AttributeKind) (name : String) (letters : List Char) (g : Grammar) :
    Sets name ((g.attributesOf name).merge (.only letters kind)) g (putLetters kind name letters g) := by
  unfold putLetters
  split
  · next none =>
    rw [none, Attributes.only_nil, Attributes.merge_empty]
    exact .refl name g
  · exact sets_withAttributes _ _ _

/-- One letter does not keep out another, so each may be looked at on its own. -/
theorem succeeds_putLetters : (letters.forM (putLetter kind name)).Succeeds g u h ↔
    (letters ≠ [] → name ∈ g.nonterminals) ∧
      (∀ c ∈ letters, Letters.isLetter c = true ∧ c ∉ (g.attributesOf name).ofKind kind.other) ∧
        h = putLetters kind name letters g := by
  induction letters generalizing g with
  | nil =>
    rw [succeeds_forM_nil, putLetters, if_pos rfl, eq_comm]
    simp
  | cons letter rest ih =>
    have here := (sets_withAttributes name ((g.attributesOf name).merge (.only [letter] kind)) g).here
    simp only [succeeds_forM_cons, succeeds_putLetter, ih, List.forall_mem_cons, putLetters_cons]
    constructor
    · rintro ⟨_, ⟨known, lower, free, rfl⟩, -, others, same⟩
      rw [here, Attributes.ofKind_other_merge_only] at others
      exact ⟨fun _ => known, ⟨⟨lower, free⟩, others⟩, same⟩
    · rintro ⟨known, ⟨⟨lower, free⟩, others⟩, same⟩
      have known := known (List.cons_ne_nil letter rest)
      refine ⟨_, ⟨known, lower, free, rfl⟩, fun _ => known, ?_, same⟩
      rw [here, Attributes.ofKind_other_merge_only]
      exact others

end Letters

section Merge

variable {source : Attributes}

theorem succeeds_mergeAttributes : (mergeAttributes name source).Succeeds g u h ↔
    ∃ k, (source.inherited.toList.forM (putLetter .inherited name)).Succeeds g () k ∧
      (source.synthesized.toList.forM (putLetter .synthesized name)).Succeeds k u h := by
  rw [mergeAttributes_eq, succeeds_bind]
  constructor
  · rintro ⟨_, k, first, second⟩
    exact ⟨k, first, second⟩
  · rintro ⟨k, first, second⟩
    exact ⟨(), k, first, second⟩

theorem sets_of_mergeAttributes (ran : (mergeAttributes name source).Succeeds g u h) :
    Sets name ((g.attributesOf name).merge source) g h ∧
      ((g.attributesOf name).Apart → ((g.attributesOf name).merge source).Apart) := by
  obtain ⟨k, first, second⟩ := succeeds_mergeAttributes.1 ran
  obtain ⟨-, inheritedFree, rfl⟩ := succeeds_putLetters.1 first
  obtain ⟨-, synthesizedFree, rfl⟩ := succeeds_putLetters.1 second
  have one := sets_putLetters .inherited name source.inherited.toList g
  have two :=
    sets_putLetters .synthesized name source.synthesized.toList (putLetters .inherited name source.inherited.toList g)
  rw [one.here] at two synthesizedFree
  rw [← Attributes.merge_only_toList]
  refine ⟨one.trans two, fun apart => Attributes.Apart.merge_only ?_ fun c member => (synthesizedFree c member).2⟩
  exact apart.merge_only fun c member => (inheritedFree c member).2

theorem runs_mergeAttributes (known : name ∈ g.nonterminals) (lower : source.Lowercase)
    (apart : ((g.attributesOf name).merge source).Apart) : (mergeAttributes name source).Runs g := by
  refine ⟨(), _, succeeds_mergeAttributes.2 ⟨_, succeeds_putLetters.2 ⟨fun _ => known, fun c member => ?_, rfl⟩,
    succeeds_putLetters.2 ⟨fun _ => ?_, fun c member => ?_, rfl⟩⟩⟩
  · refine ⟨lower c (Attributes.mem_static.2 (Or.inl member)), fun old => ?_⟩
    exact apart c (Attributes.mem_merge_inherited.2 (Or.inr member)) (Attributes.mem_merge_synthesized.2 (Or.inl old))
  · rw [nonterminals_putLetters]
    exact known
  · refine ⟨lower c (Attributes.mem_static.2 (Or.inr member)), fun held => ?_⟩
    rw [(sets_putLetters .inherited name source.inherited.toList g).here, Attributes.only,
      Letters.ofList_toList] at held
    have inherited : c ∈ (g.attributesOf name).inherited ∨ c ∈ source.inherited := by
      rwa [AttributeKind.other, Attributes.ofKind, Attributes.mem_merge_inherited] at held
    exact apart c (Attributes.mem_merge_inherited.2 inherited) (Attributes.mem_merge_synthesized.2 (Or.inr member))

end Merge

section Keeping

-- What is kept when a few lowercase letters, which clash with none, are merged into the attributes of
-- a known name.
variable {P : Grammar → Prop} {name : String} (step : ∀ g (few : Attributes), name ∈ g.nonterminals → few.Lowercase →
  ((g.attributesOf name).Apart → ((g.attributesOf name).merge few).Apart) → P g →
    P (withAttributes name ((g.attributesOf name).merge few) g))

include step

theorem keeps_putLetter_of_step (kind : AttributeKind) (c : Char) : (putLetter kind name c).Keeps P := by
  refine keeps_bind_of_succeeds (keeps_checkAttribute name c) fun g a h before found _ => ?_
  obtain ⟨known, lower, rfl, rfl⟩ := succeeds_checkAttribute.1 found
  split
  · exact before
  · next free =>
    apply step g _ known _ _ before
    · intro x member
      rw [List.mem_singleton.1 (Attributes.mem_static_only member)]
      exact lower
    · intro apart
      apply apart.merge_only
      intro x member
      rw [List.mem_singleton.1 member]
      exact free

theorem keeps_addInherited_of_step (c : Char) : (addInherited name c).Keeps P := by
  rw [addInherited_eq]
  exact keeps_putLetter_of_step step .inherited c

theorem keeps_addSynthesized_of_step (c : Char) : (addSynthesized name c).Keeps P := by
  rw [addSynthesized_eq]
  exact keeps_putLetter_of_step step .synthesized c

theorem keeps_mergeAttributes_of_step (source : Attributes) : (mergeAttributes name source).Keeps P := by
  rw [mergeAttributes_eq]
  exact keeps_bind (keeps_forM fun c _ => keeps_putLetter_of_step step .inherited c) fun _ =>
    keeps_forM fun c _ => keeps_putLetter_of_step step .synthesized c

end Keeping

end Edit

end ContextFree
