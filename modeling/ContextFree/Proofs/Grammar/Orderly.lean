import ContextFree.Proofs.Edit.Attributes
import ContextFree.Proofs.Weight

namespace ContextFree

namespace Grammar

variable {g h : Grammar} {p q : Production} {name : String}

/-- A weight refers only to attributes of its head, and in a plain grammar it says nothing. -/
structure Fits (g : Grammar) (p : Production) : Prop where
  canonical : p.weight.IsCanonical
  declared : ∀ kind letter, p.weight = .attribute kind letter → letter ∈ (g.attributesOf p.head).ofKind kind
  unweighted : g.kind = .plain → p.weight = .one

/-- All weights fit, the names with attributes are in the table, and plain grammars have no
attributes. -/
structure Orderly (g : Grammar) : Prop where
  fits : ∀ p ∈ g.productions, g.Fits p
  apart : ∀ name, (g.attributesOf name).Apart
  lowercase : ∀ name, (g.attributesOf name).Lowercase
  tabled : ∀ name, g.attributesOf name ≠ ∅ → name ∈ g.nonterminals
  unattributed : g.kind = .plain → ∀ name, g.attributesOf name = ∅

theorem fits_of_one (weight : p.weight = .one) : g.Fits p where
  canonical := by
    rw [weight]
    exact Weight.isCanonical_one
  declared _ _ same := by
    rw [weight] at same
    cases same
  unweighted _ := weight

theorem Fits.congr (fits : g.Fits p) (head : q.head = p.head) (weight : q.weight = p.weight) : g.Fits q where
  canonical := by
    rw [weight]
    exact fits.canonical
  declared := by
    rw [head, weight]
    exact fits.declared
  unweighted plain := weight.trans (fits.unweighted plain)

theorem Fits.grown (fits : g.Fits p) (kind : h.kind = g.kind) (weight : q.weight = p.weight)
    (grown : ∀ kind letter, letter ∈ (g.attributesOf p.head).ofKind kind →
      letter ∈ (h.attributesOf q.head).ofKind kind) :
    h.Fits q where
  canonical := by
    rw [weight]
    exact fits.canonical
  declared kind letter same := grown kind letter (fits.declared kind letter (weight.symm.trans same))
  unweighted plain := weight.trans (fits.unweighted (kind.symm.trans plain))

theorem attributesOf_added : (g.added p).attributesOf name = g.attributesOf name := by
  rw [attributesOf, attributesOf?, attributes_added]
  rfl

theorem fits_added : (g.added q).Fits p ↔ g.Fits p := by
  constructor
  · refine fun fits => fits.grown kind_added.symm rfl fun _ _ => ?_
    rw [attributesOf_added]
    exact id
  · refine fun fits => fits.grown kind_added rfl fun _ _ => ?_
    rw [attributesOf_added]
    exact id

namespace Orderly

theorem with_productions (orderly : g.Orderly) {productions : List Production} (fits : ∀ p ∈ productions, g.Fits p) :
    ({ g with productions } : Grammar).Orderly where
  fits p rule := (fits p rule).grown rfl rfl fun _ _ => id
  apart := orderly.apart
  lowercase := orderly.lowercase
  tabled := orderly.tabled
  unattributed := orderly.unattributed

theorem added (orderly : g.Orderly) (fits : g.Fits p) : (g.added p).Orderly where
  fits q rule := by
    rw [productions_added, List.mem_append, List.mem_singleton] at rule
    rw [fits_added]
    rcases rule with old | rfl
    · exact orderly.fits q old
    · exact fits
  apart name := by
    rw [attributesOf_added]
    exact orderly.apart name
  lowercase name := by
    rw [attributesOf_added]
    exact orderly.lowercase name
  tabled name some := by
    rw [attributesOf_added] at some
    show (g.added p).hasSymbol (.nonterminal name)
    exact hasSymbol_added.2 (Or.inr (Or.inr (orderly.tabled name some)))
  unattributed plain name := by
    rw [kind_added] at plain
    rw [attributesOf_added]
    exact orderly.unattributed plain name

theorem attributesOf_dropNonterminal (other : String) : (Edit.dropNonterminal name g).attributesOf other =
    if other = name then ∅ else g.attributesOf other := by
  rw [attributesOf, attributesOf?, Edit.dropNonterminal, AttributeTable.get?_erase]
  split <;> rfl

theorem forall_attributesOf_dropNonterminal {Q : Attributes → Prop} (empty : Q ∅)
    (old : ∀ other, Q (g.attributesOf other))
    (other : String) : Q ((Edit.dropNonterminal name g).attributesOf other) := by
  rw [attributesOf_dropNonterminal]
  split
  · exact empty
  · exact old other

theorem dropNonterminal (orderly : g.Orderly) (bare : ∀ p ∈ g.productions, p.head ≠ name) :
    (Edit.dropNonterminal name g).Orderly where
  fits p rule := by
    refine (orderly.fits p rule).grown rfl rfl fun _ _ => ?_
    rw [attributesOf_dropNonterminal, if_neg (bare p rule)]
    exact id
  apart := forall_attributesOf_dropNonterminal Attributes.apart_empty orderly.apart
  lowercase := forall_attributesOf_dropNonterminal Attributes.lowercase_empty orderly.lowercase
  tabled other some := by
    rw [attributesOf_dropNonterminal] at some
    split at some
    · exact absurd rfl some
    · next differs => exact Table.mem_remove.2 ⟨differs, orderly.tabled other some⟩
  unattributed plain := @forall_attributesOf_dropNonterminal g name (· = ∅) rfl (orderly.unattributed plain)

theorem dropSymbol (orderly : g.Orderly) {symbol : Symbol}
    (bare : ∀ name, symbol = .nonterminal name → ∀ p ∈ g.productions, p.head ≠ name) :
    (Edit.dropSymbol symbol g).Orderly := by
  cases symbol with
  | terminal value =>
    exact ⟨fun p rule => (orderly.fits p rule).grown rfl rfl fun _ _ => id, orderly.apart, orderly.lowercase,
      orderly.tabled, orderly.unattributed⟩
  | nonterminal name => exact orderly.dropNonterminal (bare name rfl)
  | empty => exact orderly

theorem grows_of_merge {source : Attributes} (sets : Edit.Sets name ((g.attributesOf name).merge source) g h)
    (other : String)
    (kind : AttributeKind) (letter : Char) (member : letter ∈ (g.attributesOf other).ofKind kind) :
    letter ∈ (h.attributesOf other).ofKind kind := by
  by_cases here : other = name
  · subst here
    rw [sets.here]
    exact Attributes.mem_merge_ofKind.2 (Or.inl member)
  · rw [sets.others other here]
    exact member

theorem merged {source : Attributes} (orderly : g.Orderly) (known : name ∈ g.nonterminals)
    (sets : Edit.Sets name ((g.attributesOf name).merge source) g h)
    (apart : ((g.attributesOf name).merge source).Apart)
    (lowercase : source.Lowercase) (plain : g.kind = .plain → source = ∅) : h.Orderly := by
  have grows := grows_of_merge sets
  have letters : ((g.attributesOf name).merge source).Lowercase := (orderly.lowercase name).merge lowercase
  obtain ⟨attributes, rfl⟩ := sets.rest
  refine ⟨fun p rule => (orderly.fits p rule).grown rfl rfl (grows p.head),
    sets.forall_attributesOf apart orderly.apart,
    sets.forall_attributesOf letters orderly.lowercase, fun other some => ?_, fun kind => ?_⟩
  · by_cases here : other = name
    · rw [here]
      exact known
    · rw [sets.others other here] at some
      exact orderly.tabled other some
  · apply @Edit.Sets.forall_attributesOf _ _ _ _ (· = ∅) sets ?_ (orderly.unattributed kind)
    rw [plain kind, orderly.unattributed kind]
    rfl

end Orderly

/-- Only names of the table have an entry among the attributes. -/
def Tabled (g : Grammar) : Prop := ∀ name attributes, g.attributesOf? name = some attributes → name ∈ g.nonterminals

theorem Tabled.withAttributes (tabled : g.Tabled) (known : name ∈ g.nonterminals) (value : Attributes) :
    (Edit.withAttributes name value g).Tabled := by
  intro other attributes entry
  rw [attributesOf?, Edit.withAttributes, AttributeTable.get?_set] at entry
  split at entry
  · next here =>
    rw [here]
    exact known
  · exact tabled other attributes entry

theorem Tabled.added (tabled : g.Tabled) (p : Production) : (g.added p).Tabled := by
  intro other attributes entry
  rw [attributesOf?, attributes_added] at entry
  show (g.added p).hasSymbol (.nonterminal other)
  exact hasSymbol_added.2 (Or.inr (Or.inr (tabled other attributes entry)))

theorem Tabled.dropSymbol (tabled : g.Tabled) (symbol : Symbol) : (Edit.dropSymbol symbol g).Tabled := by
  cases symbol with
  | nonterminal name =>
    intro other attributes entry
    rw [attributesOf?, Edit.dropSymbol, Edit.dropNonterminal, AttributeTable.get?_erase] at entry
    split at entry
    · cases entry
    · next differs => exact Table.mem_remove.2 ⟨differs, tabled other attributes entry⟩
  | _ => exact tabled

end Grammar

end ContextFree
