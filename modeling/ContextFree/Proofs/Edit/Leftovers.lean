import ContextFree.Proofs.Edit.Refusal
import ContextFree.Proofs.Edit.Replacement
import ContextFree.Proofs.Reading.Coherent

namespace ContextFree.Edit

variable {g h : Grammar} {p : Production} {name : String} {fault : Fault}

section Replacement

variable {source target : Symbol}

theorem substituteIn_of_avoids (avoids : Avoids source p) : substituteIn source target p = p := by
  have inBody : p.body.map (substitute source target) = p.body := by
    refine (List.map_congr_left fun symbol member => ?_).trans (List.map_id _)
    exact if_neg fun same : symbol = source => avoids.2 (same ▸ member)
  have inHead : (substituteIn source target p).head = p.head := by
    cases source with
    | nonterminal old =>
      have other : p.head ≠ old := fun same => avoids.1 (congrArg Symbol.nonterminal same)
      cases target with
      | nonterminal new => exact if_neg other
      | _ => rfl
    | _ => rfl
  exact congrArg₂ (fun head body => { p with head, body }) inHead inBody

theorem replaced_of_unknown (closed : g.Closed) (unknown : ¬ g.hasSymbol source) :
    replaced source target g = putSymbol target g := by
  have kept : g.productions.map (substituteIn source target) = g.productions := by
    refine (List.map_congr_left fun p rule => ?_).trans (List.map_id _)
    exact substituteIn_of_avoids (avoids_of_closed closed unknown rule)
  have same : (putSymbol target g).productions = g.productions := (putBody_rest [target] g).2.2.1
  rw [replaced, substituted, same, kept, ← same]

/-- Nothing is left of a replacement that is refused at once. The other refusal is for a source that is
asked to go and is not there. -/
theorem left_of_replaceSymbol {removeSource : Bool}
    (failed : (replaceSymbol source target removeSource).Fails g fault h) :
    h = g ∨ (removeSource = true ∧ source ≠ target ∧ ¬ g.hasSymbol source) ∧ fault = .undefined source.value ∧
      h = replaced source target g := by
  have course := replaceSymbol_replaces source target removeSource g
  obtain ⟨refused, rfl⟩ := failed
  generalize replaceSymbol source target removeSource g = outcome at course refused
  cases course with
  | kept | removed => cases refused
  | blocked | illegal => exact Or.inl rfl
  | unknown _ _ removes unknown =>
    cases refused
    rw [Bool.and_eq_true, bne_iff_ne] at removes
    exact Or.inr ⟨⟨removes.1, removes.2, unknown⟩, rfl, rfl⟩

end Replacement

section Merging

variable {kind : AttributeKind} {letter : Char} {letters : List Char} {source few : Attributes}

/-- The letters whose turn comes before that of one of some attributes. -/
inductive Ahead (source : Attributes) : AttributeKind → Char → Attributes → Prop where
  | inherited {before after : List Char} {letter : Char} (split : source.inherited.toList = before ++ letter :: after) :
    Ahead source .inherited letter (.only before .inherited)
  | synthesized {before after : List Char} {letter : Char}
    (split : source.synthesized.toList = before ++ letter :: after) :
    Ahead source .synthesized letter
      ((Attributes.only source.inherited.toList .inherited).merge (.only before .synthesized))

theorem putLetters_of_held (held : ∀ c ∈ letters, c ∈ (g.attributesOf name).ofKind kind) :
    putLetters kind name letters g = g := by
  unfold putLetters
  split
  · rfl
  · next full =>
    have found : g.attributes.get? name = some (g.attributesOf name) := by
      cases entry : g.attributes.get? name with
      | none =>
        have bare : g.attributesOf name = ∅ := congrArg (Option.getD · ∅) entry
        obtain ⟨c, member⟩ := List.exists_mem_of_ne_nil letters full
        exact absurd (bare ▸ held c member) (Attributes.not_mem_empty_ofKind kind c)
      | some value =>
        have known : g.attributesOf name = value := congrArg (Option.getD · ∅) entry
        rw [known]
    have same : (g.attributesOf name).merge (.only letters kind) = g.attributesOf name :=
      Attributes.merge_only_of_held held
    rw [same, withAttributes, AttributeTable.set_of_get? found]

theorem left_of_mergeAttributes (failed : (mergeAttributes name source).Fails g fault h) :
    ∃ kind letter few, Ahead source kind letter few ∧ Unfit h kind name letter fault ∧
      Sets name ((g.attributesOf name).merge few) g h ∧
      (h = g ↔ ∀ kind, ∀ c ∈ few.ofKind kind, c ∈ (g.attributesOf name).ofKind kind) := by
  have forth : ∀ {few}, Sets name ((g.attributesOf name).merge few) g h → h = g →
      ∀ kind, ∀ c ∈ few.ofKind kind, c ∈ (g.attributesOf name).ofKind kind := by
    rintro few sets rfl kind c member
    rw [sets.here]
    exact Attributes.mem_merge_ofKind.2 (Or.inr member)
  rcases fails_mergeAttributes.1 failed with first | ⟨k, ran, second⟩
  · obtain ⟨before, letter, after, split, rfl, unfit⟩ := fails_putLetters first
    have sets := sets_putLetters .inherited name before g
    refine ⟨.inherited, letter, _, .inherited split, unfit, sets, forth sets, fun held => putLetters_of_held ?_⟩
    intro c member
    exact held .inherited c (Letters.mem_ofList.2 member)
  · obtain ⟨before, letter, after, split, rfl, unfit⟩ := fails_putLetters second
    obtain ⟨-, -, rfl⟩ := succeeds_putLetters.1 ran
    have one := sets_putLetters .inherited name source.inherited.toList g
    have two := sets_putLetters .synthesized name before (putLetters .inherited name source.inherited.toList g)
    rw [one.here, Attributes.merge_assoc] at two
    have sets := one.trans two
    refine ⟨.synthesized, letter, _, .synthesized split, unfit, sets, forth sets, fun held => ?_⟩
    have inherited : putLetters .inherited name source.inherited.toList g = g := by
      apply putLetters_of_held
      intro c member
      exact held .inherited c (Attributes.mem_merge_inherited.2 (Or.inl (Letters.mem_ofList.2 member)))
    rw [inherited]
    apply putLetters_of_held
    intro c member
    exact held .synthesized c (Attributes.mem_merge_synthesized.2 (Or.inr (Letters.mem_ofList.2 member)))

end Merging

/-- A refused replacement leaves something only where the source is to go and is not there, and in a grammar
that knows what it mentions this is the target in its table. A refused merge leaves the letters ahead of
the one that it is refused for, which is nothing just if these were there before. -/
theorem left_of_refused_edits (g : Grammar) :
    (∀ source target removeSource fault h, (replaceSymbol source target removeSource).Fails g fault h →
      h = g ∨ (removeSource = true ∧ source ≠ target ∧ ¬ g.hasSymbol source) ∧ fault = .undefined source.value ∧
        h = replaced source target g ∧ (g.Closed → h = putSymbol target g)) ∧
    ∀ name source fault h, (mergeAttributes name source).Fails g fault h →
      ∃ kind letter few, Ahead source kind letter few ∧ Unfit h kind name letter fault ∧
        Sets name ((g.attributesOf name).merge few) g h ∧
        (h = g ↔ ∀ kind, ∀ c ∈ few.ofKind kind, c ∈ (g.attributesOf name).ofKind kind) := by
  constructor
  · intro source target removeSource fault h failed
    rcases left_of_replaceSymbol failed with same | ⟨⟨removes, differs, unknown⟩, undefined, left⟩
    · exact Or.inl same
    · exact Or.inr ⟨⟨removes, differs, unknown⟩, undefined, left, fun closed =>
        left.trans (replaced_of_unknown closed unknown)⟩
  · intro name source fault h failed
    exact left_of_mergeAttributes failed

def inheritingText : String := "S\x7bb;\x7d -&b-> 'x' ;"

def inheritingSample : Reading.Sample .weighted inheritingText (fun g =>
    let replacing := replaceSymbol (.nonterminal "X") (.nonterminal "B") true g
    let merging := mergeAttributes "S" ⟨.ofList ['a'], .ofList ['b']⟩ g
    decide (replacing.result = .error (.undefined "X") ∧ "B" ∉ g.nonterminals ∧ "B" ∈ replacing.grammar.nonterminals) &&
    decide (merging.result = .error (.clash 'b' "S" .inherited) ∧ 'a' ∉ (g.attributesOf "S").inherited ∧
      'a' ∈ (merging.grammar.attributesOf "S").inherited)) :=
  .ofChars rfl (by decide +kernel)

theorem left_of_refused_edits_inheriting : ∃ g h k, Reading.readText .weighted inheritingText = .ok g ∧
    (replaceSymbol (.nonterminal "X") (.nonterminal "B") true).Fails g (.undefined "X") h ∧
    (mergeAttributes "S" ⟨.ofList ['a'], .ofList ['b']⟩).Fails g (.clash 'b' "S" .inherited) k ∧
    (h = g ∨ h = putSymbol (.nonterminal "B") g) ∧
    ∃ kind letter few, Ahead ⟨.ofList ['a'], .ofList ['b']⟩ kind letter few ∧
      Unfit k kind "S" letter (.clash 'b' "S" .inherited) ∧ Sets "S" ((g.attributesOf "S").merge few) g k ∧
      (k = g ↔ ∀ kind, ∀ c ∈ few.ofKind kind, c ∈ (g.attributesOf "S").ofKind kind) := by
  obtain ⟨g, read, passes⟩ := inheritingSample
  simp only [Bool.and_eq_true, decide_eq_true_eq] at passes
  have replacing : (replaceSymbol (.nonterminal "X") (.nonterminal "B") true).Fails g (.undefined "X") _ :=
    ⟨passes.1.1, rfl⟩
  have merging : (mergeAttributes "S" ⟨.ofList ['a'], .ofList ['b']⟩).Fails g (.clash 'b' "S" .inherited) _ :=
    ⟨passes.2.1, rfl⟩
  have closed : g.Closed := (Reading.coherent_of_readText read).closed
  refine ⟨g, _, _, read, replacing, merging, ?_, (left_of_refused_edits g).2 _ _ _ _ merging⟩
  exact ((left_of_refused_edits g).1 _ _ _ _ _ replacing).imp id fun left => left.2.2.2 closed

/-- The target stays in its table, and the letter ahead of the one that clashes among those of its name. -/
theorem refused_edits_leave_traces : ∃ g h k, Reading.readText .weighted inheritingText = .ok g ∧
    (replaceSymbol (.nonterminal "X") (.nonterminal "B") true).Fails g (.undefined "X") h ∧
    "B" ∉ g.nonterminals ∧ "B" ∈ h.nonterminals ∧
    (mergeAttributes "S" ⟨.ofList ['a'], .ofList ['b']⟩).Fails g (.clash 'b' "S" .inherited) k ∧
    'a' ∉ (g.attributesOf "S").inherited ∧ 'a' ∈ (k.attributesOf "S").inherited := by
  obtain ⟨g, read, passes⟩ := inheritingSample
  simp only [Bool.and_eq_true, decide_eq_true_eq] at passes
  obtain ⟨⟨undefined, absent, left⟩, clash, free, put⟩ := passes
  exact ⟨g, _, _, read, ⟨undefined, rfl⟩, absent, left, ⟨clash, rfl⟩, free, put⟩

end ContextFree.Edit
