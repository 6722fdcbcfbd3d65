import ContextFree.Proofs.AttributeReferences
import ContextFree.Proofs.Edit.Substitution
import ContextFree.Proofs.Grammar.Same

namespace ContextFree

open Edit

variable {g : Grammar} {p : Production} {old new name : String}

section Undoing

theorem substitute_substitute {source target symbol : Symbol} (fresh : symbol ≠ target) :
    substitute target source (substitute source target symbol) = symbol := by
  by_cases here : symbol = source
  · rw [substitute, substitute, if_pos here, if_pos rfl, here]
  · rw [substitute, substitute, if_neg here, if_neg fresh]

theorem substituteIn_substituteIn (avoids : Avoids (.nonterminal new) p) :
    substituteIn (.nonterminal new) (.nonterminal old) (substituteIn (.nonterminal old) (.nonterminal new) p) = p := by
  have head : (substituteIn (.nonterminal new) (.nonterminal old)
      (substituteIn (.nonterminal old) (.nonterminal new) p)).head = p.head := by
    apply Symbol.nonterminal.inj
    rw [head_substituteIn_nonterminal, head_substituteIn_nonterminal, substitute_substitute avoids.1]
  have body : (p.body.map (substitute (.nonterminal old) (.nonterminal new))).map
      (substitute (.nonterminal new) (.nonterminal old)) = p.body := by
    rw [List.map_map]
    refine (List.map_congr_left fun symbol member => ?_).trans (List.map_id _)
    exact substitute_substitute fun same : symbol = .nonterminal new => avoids.2 (same ▸ member)
  exact congrArg₂ (fun head body => { p with head, body }) head body

theorem map_substituteIn_substituteIn {ps : List Production} (avoid : ∀ p ∈ ps, Avoids (.nonterminal new) p) :
    (ps.map (substituteIn (.nonterminal old) (.nonterminal new))).map
      (substituteIn (.nonterminal new) (.nonterminal old)) = ps := by
  rw [List.map_map]
  refine (List.map_congr_left fun p rule => ?_).trans (List.map_id _)
  exact substituteIn_substituteIn (avoid p rule)

end Undoing

namespace Derives

variable {ps : List Production} {body : Body} {sentence : Sentence}

theorem substituted (d : Derives ps body sentence) :
    Derives (ps.map (substituteIn (.nonterminal old) (.nonterminal new)))
      (body.map (substitute (.nonterminal old) (.nonterminal new))) sentence := by
  induction d with
  | nil => exact .nil
  | empty _ ih => exact .empty ih
  | terminal _ ih => exact .terminal ih
  | expand rule _ _ inner tail =>
    rw [List.map_cons, ← head_substituteIn_nonterminal]
    exact .expand (List.mem_map_of_mem rule) inner tail

theorem substituted_iff (avoid : ∀ p ∈ ps, Avoids (.nonterminal new) p) (fresh : name ≠ new) :
    Derives (ps.map (substituteIn (.nonterminal old) (.nonterminal new)))
      [substitute (.nonterminal old) (.nonterminal new) (.nonterminal name)] sentence ↔
        Derives ps [.nonterminal name] sentence := by
  constructor
  · -- The new name stood nowhere, so renaming back gives the productions that there were.
    intro d
    have back := @substituted new old _ _ _ d
    rwa [map_substituteIn_substituteIn avoid, List.map_singleton,
      substitute_substitute fun same => fresh (Symbol.nonterminal.inj same)] at back
  · exact substituted

end Derives

namespace Grammar

/-- With a new name in place of the old one, which goes from the tables. -/
def renamed (old new : String) (g : Grammar) : Grammar :=
  restart (.nonterminal old) (.nonterminal new)
    (dropSymbol (.nonterminal old) (replaced (.nonterminal old) (.nonterminal new) g))

theorem replaceSymbol_renames (known : old ∈ g.nonterminals) (legal : Name.checkNonterminal new = .ok ())
    (differs : old ≠ new) :
    (replaceSymbol (.nonterminal old) (.nonterminal new) true).Succeeds g () (g.renamed old new) := by
  have removes : (true && Symbol.nonterminal old != .nonterminal new) = true :=
    bne_iff_ne.2 fun same => differs (Symbol.nonterminal.inj same)
  exact succeeds_replaceSymbol.2 ⟨rfl, legal, Or.inr ⟨removes, known, rfl⟩⟩

theorem substitutes_renamed (old new : String) (g : Grammar) :
    Substitutes (.nonterminal old) (.nonterminal new) true g (g.renamed old new) := (substitutes_replaced rfl).removed

theorem productions_renamed (old new : String) (g : Grammar) :
    (g.renamed old new).productions = g.productions.map (substituteIn (.nonterminal old) (.nonterminal new)) := by
  obtain ⟨start, same⟩ := restart_rest (.nonterminal old) (.nonterminal new)
    (dropSymbol (.nonterminal old) (replaced (.nonterminal old) (.nonterminal new) g))
  rw [renamed, same]
  rfl

theorem counted_subset (g : Grammar) : g.counted ⊆ g.productions := by
  unfold counted
  split
  · exact fun _ => id
  · exact List.filter_subset_self _

theorem counted_renamed (old new : String) (g : Grammar) :
    (g.renamed old new).counted = g.counted.map (substituteIn (.nonterminal old) (.nonterminal new)) := by
  have kind := (substitutes_renamed old new g).kind
  unfold counted
  rw [kind, productions_renamed]
  cases g.kind with
  | plain => rfl
  | weighted =>
    rw [List.filter_map]
    rfl

theorem start_renamed (old new : String) (g : Grammar) :
    (g.renamed old new).start = if g.start = some old then some new else g.start := start_restart _ _ _

theorem attributesOf?_of_unknown (tabled : g.Tabled) (unknown : name ∉ g.nonterminals) :
    g.attributesOf? name = none :=
  Option.eq_none_iff_forall_ne_some.2 fun value entry => unknown (tabled name value entry)

section Fresh

variable (fresh : new ∉ g.nonterminals)

include fresh

theorem hasSymbol_renamed_renamed (known : old ∈ g.nonterminals) (symbol : Symbol) :
    ((g.renamed old new).renamed new old).hasSymbol symbol ↔ g.hasSymbol symbol := by
  have there := (substitutes_renamed old new g).symbols symbol
  have back := (substitutes_renamed new old (g.renamed old new)).symbols symbol
  by_cases tabled : symbol = .empty
  · rw [tabled]
    exact Iff.rfl
  have absent : g.hasSymbol symbol → symbol ≠ .nonterminal new := by
    rintro present rfl
    exact fresh present
  have present : symbol = .nonterminal old → g.hasSymbol symbol := by
    rintro rfl
    exact known
  rw [back tabled, there tabled]
  grind

theorem start_renamed_renamed (startKnown : g.StartKnown) : ((g.renamed old new).renamed new old).start = g.start := by
  have other : g.start ≠ some new := fun same => fresh (startKnown new same)
  rw [start_renamed, start_renamed]
  by_cases here : g.start = some old
  · rw [if_pos here, if_pos rfl, here]
  · rw [if_neg here, if_neg other]

theorem attributesOf?_renamed_renamed (tabled : g.Tabled) (name : String) :
    ((g.renamed old new).renamed new old).attributesOf? name = if name = old then none else g.attributesOf? name := by
  have bare := attributesOf?_of_unknown tabled fresh
  rw [(substitutes_renamed new old _).attributes, (substitutes_renamed old new g).attributes]
  grind

theorem productions_renamed_renamed (closed : g.Closed) :
    ((g.renamed old new).renamed new old).productions = g.productions := by
  rw [productions_renamed, productions_renamed]
  exact map_substituteIn_substituteIn fun p rule => avoids_of_closed closed fresh rule

theorem same_renamed_renamed (known : old ∈ g.nonterminals) (wellFormed : g.WellFormed) :
    ((g.renamed old new).renamed new old).same { g with attributes := g.attributes.erase old } = true := by
  refine same_iff.2 ⟨?_, start_renamed_renamed fresh wellFormed.start_known, ?_, ?_, ?_⟩
  · rw [(substitutes_renamed new old _).kind, (substitutes_renamed old new g).kind]
  · intro symbol
    rw [hasSymbol_renamed_renamed fresh known]
    cases symbol <;> exact Iff.rfl
  · rw [productions_renamed_renamed fresh wellFormed.closed]
    exact List.forall₂_same.2 fun _ _ => ⟨rfl, rfl⟩
  · intro name
    rw [attributesOf?_renamed_renamed fresh wellFormed.tabled]
    exact (AttributeTable.get?_erase g.attributes old name).symm

theorem same_renamed_renamed_iff (known : old ∈ g.nonterminals) (wellFormed : g.WellFormed) :
    ((g.renamed old new).renamed new old).same g = true ↔ g.attributesOf? old = none := by
  have back := same_iff.1 (same_renamed_renamed fresh known wellFormed)
  obtain ⟨kind, start, -, rules, -⟩ := back
  have symbols := hasSymbol_renamed_renamed fresh known
  rw [same_iff]
  constructor
  · rintro ⟨-, -, -, -, attributes⟩
    rw [← attributes old, attributesOf?_renamed_renamed fresh wellFormed.tabled, if_pos rfl]
  · intro bare
    refine ⟨kind, start, symbols, rules, fun name => ?_⟩
    rw [attributesOf?_renamed_renamed fresh wellFormed.tabled]
    split
    · next here => rw [here, bare]
    · rfl

theorem attributesOf_renamed_new (tabled : g.Tabled) : (g.renamed old new).attributesOf new = ∅ := by
  rw [attributesOf, (substitutes_renamed old new g).attributes, attributesOf?_of_unknown tabled fresh, ite_self]
  rfl

theorem declared_renamed (closed : g.Closed) (orderly : g.Orderly) (tabled : g.Tabled)
    (listed : p ∈ (g.renamed old new).productions)
    {kind : AttributeKind} {letter : Char} (weight : p.weight = .attribute kind letter) :
    letter ∈ ((g.renamed old new).attributesOf p.head).ofKind kind ↔ p.head ≠ new := by
  rw [productions_renamed] at listed
  obtain ⟨q, rule, rfl⟩ := List.mem_map.1 listed
  have avoids : Avoids (.nonterminal new) q := avoids_of_closed closed fresh rule
  by_cases here : q.head = old
  · have head : (substituteIn (.nonterminal old) (.nonterminal new) q).head = new := if_pos here
    rw [head, attributesOf_renamed_new fresh tabled]
    exact iff_of_false (Attributes.not_mem_empty_ofKind kind letter) fun differs => differs rfl
  · have head : (substituteIn (.nonterminal old) (.nonterminal new) q).head = q.head := if_neg here
    have kept : (g.renamed old new).attributesOf q.head = g.attributesOf q.head := by
      rw [attributesOf, (substitutes_renamed old new g).attributes, if_neg]
      · rfl
      · exact fun same => here (Symbol.nonterminal.inj same.2).symm
    rw [head, kept]
    exact iff_of_true ((orderly.fits q rule).declared kind letter weight) fun same =>
      avoids.1 (congrArg Symbol.nonterminal same)

theorem derives_renamed {ps : List Production} {sentence : Sentence} (wellFormed : g.WellFormed)
    (within : ps ⊆ g.productions) :
    (∃ start, (g.renamed old new).start = some start ∧
      Derives (ps.map (substituteIn (.nonterminal old) (.nonterminal new))) [.nonterminal start] sentence) ↔
      ∃ start, g.start = some start ∧ Derives ps [.nonterminal start] sentence := by
  have avoid : ∀ p ∈ ps, Avoids (.nonterminal new) p :=
    fun p rule => avoids_of_closed wellFormed.closed fresh (within rule)
  rw [start_renamed]
  cases started : g.start with
  | none => simp
  | some name =>
    have other : name ≠ new := fun same => fresh (same ▸ wellFormed.start_known name started)
    have each := @Derives.substituted_iff old new name ps sentence avoid other
    rw [substitute] at each
    by_cases here : name = old
    · rw [if_pos (congrArg Symbol.nonterminal here)] at each
      simpa [here] using each
    · rw [if_neg fun same => here (Symbol.nonterminal.inj same)] at each
      simpa [here] using each

end Fresh

end Grammar

open Grammar

/-- A nonterminal may always be given a new name. The sentences are the same, and on the way back everything
is as it was, but for the attributes of the name: whatever it declared is lost. -/
theorem renaming_undone {text : String} (read : Reading.readText .weighted text = .ok g) (known : old ∈ g.nonterminals)
    (legal : Name.checkNonterminal new = .ok ()) (fresh : new ∉ g.nonterminals) :
    ∃ h, (replaceSymbol (.nonterminal old) (.nonterminal new) true).Succeeds g () h ∧
      (∀ sentence, h.Generates sentence ↔ g.Generates sentence) ∧
      (∀ sentence, (∃ start, h.start = some start ∧ Derives h.counted [.nonterminal start] sentence) ↔
        ∃ start, g.start = some start ∧ Derives g.counted [.nonterminal start] sentence) ∧
      (∀ p ∈ h.productions, ∀ kind letter, p.weight = .attribute kind letter →
        (letter ∈ (h.attributesOf p.head).ofKind kind ↔ p.head ≠ new)) ∧
      ∃ k, (replaceSymbol (.nonterminal new) (.nonterminal old) true).Succeeds h () k ∧
        k.productions = g.productions ∧ k.same { g with attributes := g.attributes.erase old } = true ∧
          (k.same g = true ↔ g.attributesOf? old = none) := by
  have wellFormed := Reading.wellFormed_of_readText read
  have referring := Reading.referring_of_readText read
  have differs : old ≠ new := fun same => fresh (same ▸ known)
  have present : new ∈ (g.renamed old new).nonterminals :=
    ((substitutes_renamed old new g).symbols (.nonterminal new) nofun).2
      ⟨Or.inr rfl, fun same => differs (Symbol.nonterminal.inj same.2).symm⟩
  refine ⟨g.renamed old new, replaceSymbol_renames known legal differs, ?_, ?_, ?_, (g.renamed old new).renamed new old,
    replaceSymbol_renames present (wellFormed.names (.nonterminal old) known) differs.symm, ?_, ?_, ?_⟩
  · intro sentence
    unfold Generates DerivesFrom
    rw [productions_renamed]
    exact derives_renamed fresh wellFormed fun _ => id
  · intro sentence
    rw [counted_renamed]
    exact derives_renamed fresh wellFormed g.counted_subset
  · intro p rule kind letter weight
    exact declared_renamed fresh wellFormed.closed referring.orderly wellFormed.tabled rule weight
  · exact productions_renamed_renamed fresh wellFormed.closed
  · exact same_renamed_renamed fresh known wellFormed
  · exact same_renamed_renamed_iff fresh known wellFormed

def attributedText : String := "S\x7b;a\x7d -$a-> 'x' A ;\nA -0-> 'y' ;\nA -2-> S A ;\nA -1-> '' ;"

def attributedSample : Reading.Sample .weighted attributedText (fun g =>
    let there := replaceSymbol (.nonterminal "S") (.nonterminal "B") true g
    let back := replaceSymbol (.nonterminal "B") (.nonterminal "S") true there.grammar
    decide ("A" ∈ g.nonterminals ∧ "B" ∉ g.nonterminals ∧ there.result = .ok () ∧ back.result = .ok ()) &&
      there.grammar.productions.any (fun p => decide (p.weight = .attribute .synthesized 'a') &&
        decide ('a' ∉ (there.grammar.attributesOf p.head).synthesized)) && !back.grammar.same g &&
      (g.attributesOf? "A").isNone) :=
  .ofChars rfl (by decide +kernel)

theorem renaming_undone_unattributed : ∃ g h k,
    Reading.readText .weighted attributedText = .ok g ∧
    (replaceSymbol (.nonterminal "A") (.nonterminal "B") true).Succeeds g () h ∧
    (∀ sentence, h.Generates sentence ↔ g.Generates sentence) ∧
    (replaceSymbol (.nonterminal "B") (.nonterminal "A") true).Succeeds h () k ∧ k.same g = true := by
  obtain ⟨g, read, passes⟩ := attributedSample
  simp only [Bool.and_eq_true, decide_eq_true_eq] at passes
  obtain ⟨⟨⟨⟨known, fresh, -⟩, -⟩, -⟩, bare⟩ := passes
  obtain ⟨h, there, sentences, -, -, k, back, -, -, same⟩ := renaming_undone read known (by decide) fresh
  exact ⟨g, h, k, read, there, sentences, back, same.2 (Option.isNone_iff_eq_none.1 bare)⟩

/-- The name takes its productions along, but not what they refer to, and does not get it back. -/
theorem renaming_loses_attributes : ∃ g h k,
    Reading.readText .weighted attributedText = .ok g ∧
    (replaceSymbol (.nonterminal "S") (.nonterminal "B") true).Succeeds g () h ∧
    (∃ p ∈ h.productions, p.weight = .attribute .synthesized 'a' ∧ 'a' ∉ (h.attributesOf p.head).synthesized) ∧
    (replaceSymbol (.nonterminal "B") (.nonterminal "S") true).Succeeds h () k ∧ k.same g = false := by
  obtain ⟨g, read, passes⟩ := attributedSample
  simp only [Bool.and_eq_true, decide_eq_true_eq, List.any_eq_true, Bool.not_eq_true'] at passes
  obtain ⟨⟨⟨⟨-, -, there, back⟩, lost⟩, different⟩, -⟩ := passes
  exact ⟨g, _, _, read, ⟨there, rfl⟩, lost, ⟨back, rfl⟩, different⟩

end ContextFree
