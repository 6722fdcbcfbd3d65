import ContextFree.Grammar.Render
import ContextFree.Proofs.Grammar.Orderly
import ContextFree.Proofs.Reading.Rendered

namespace ContextFree

open Text

namespace Grammar

def blockOf? (attributes : Attributes) (write : Attributes → String) : Option String :=
  if attributes.isEmpty then none else some (write attributes)

def headToken (g : Grammar) (name : String) : Token := .name name (blockOf? (g.attributesOf name) Attributes.headText)

def symbolToken (g : Grammar) : Symbol → Token
  | .terminal value => .quoted value
  | .nonterminal name => .name name (blockOf? (g.attributesOf name) Attributes.bodyText)
  | .empty => .empty

def bodyTokens (g : Grammar) (p : Production) : List Token := p.body.map g.symbolToken

def plainTokens (g : Grammar) (head : String) : List Token :=
  .name head none :: .equals :: ([.bar].intercalate ((g.productionsOf head).map g.bodyTokens) ++ [.stop])

def weightedTokens (g : Grammar) (p : Production) : List Token :=
  g.headToken p.head :: .arrow p.weight.text :: (g.bodyTokens p ++ [.stop])

variable {g : Grammar} {head : String} {p : Production}

theorem text_name_blockOf? (name : String) (write : Attributes → String) :
    (Token.name name (blockOf? (g.attributesOf name) write)).text = annotated name (g.attributesOf? name) write := by
  unfold blockOf? annotated attributesOf
  cases found : g.attributesOf? name with
  | none => rfl
  | some a =>
    rw [Option.getD_some]
    dsimp only
    split
    · rfl
    · rw [Token.text, braced, ← String.append_assoc, ← String.append_assoc]

theorem text_headToken (weighted : g.kind = .weighted) (name : String) : (g.headToken name).text = g.headText name := by
  rw [headToken, text_name_blockOf?, headText, weighted]

theorem text_symbolToken (unattributed : g.kind = .plain → ∀ name, g.attributesOf name = ∅) (symbol : Symbol) :
    (g.symbolToken symbol).text = g.symbolText symbol := by
  unfold symbolText
  cases kind : g.kind with
  | plain =>
    cases symbol with
    | nonterminal name =>
      rw [symbolToken, unattributed kind name]
      rfl
    | _ => rfl
  | weighted =>
    cases symbol with
    | nonterminal name => exact text_name_blockOf? name _
    | _ => rfl

theorem bodyText_eq (unattributed : g.kind = .plain → ∀ name, g.attributesOf name = ∅) (p : Production) :
    g.bodyText p.body = String.intercalate " " ((g.bodyTokens p).map Token.text) := by
  rw [bodyText, bodyTokens, List.map_map]
  congr 1
  apply List.map_congr_left
  intro symbol _
  exact (text_symbolToken unattributed symbol).symm

theorem bodyTokens_ne_nil (filled : p.body ≠ []) : g.bodyTokens p ≠ [] :=
  fun none => filled (List.map_eq_nil_iff.1 none)

theorem intercalate_bars {bodies : List (List Token)} (filled : ∀ body ∈ bodies, body ≠ []) :
    String.intercalate " " (([Token.bar].intercalate bodies).map Token.text) =
      String.intercalate " | " (bodies.map fun body => String.intercalate " " (body.map Token.text)) := by
  induction bodies with
  | nil => rfl
  | cons first rest ih =>
    rw [List.forall_mem_cons] at filled
    cases rest with
    | nil => rw [List.intercalate_singleton, List.map_singleton, String.intercalate_singleton]
    | cons second more =>
      have firstFilled : first.map Token.text ≠ [] := fun none => filled.1 (List.map_eq_nil_iff.1 none)
      have othersFilled : ([Token.bar].intercalate (second :: more)).map Token.text ≠ [] :=
        fun none => intercalate_ne_nil filled.2 (List.cons_ne_nil second more) (List.map_eq_nil_iff.1 none)
      rw [List.intercalate_cons_cons, List.map_append, List.map_append, List.append_assoc,
        String.intercalate_append_of_ne_nil firstFilled (by simp), List.map_singleton, List.singleton_append,
        String.intercalate_cons_of_ne_nil othersFilled, ih filled.2]
      simp only [List.map_cons, String.intercalate_cons_cons, String.append_assoc, Token.text]
      rfl

theorem intercalate_line (first sign : Token) {inner : List Token} (filled : inner ≠ []) :
    String.intercalate " " ((first :: sign :: (inner ++ [.stop])).map Token.text) =
      first.text ++ " " ++ sign.text ++ " " ++ String.intercalate " " (inner.map Token.text) ++ " ;" := by
  have innerFilled : inner.map Token.text ≠ [] := fun none => filled (List.map_eq_nil_iff.1 none)
  rw [List.map_cons, List.map_cons, List.map_append, String.intercalate_cons_cons,
    String.intercalate_cons_of_ne_nil (by simp), String.intercalate_append_of_ne_nil innerFilled (by simp)]
  simp only [String.append_assoc, Token.text, List.map_singleton, String.intercalate_singleton]
  rfl

theorem plainLine_eq (unattributed : g.kind = .plain → ∀ name, g.attributesOf name = ∅)
    (some : g.productionsOf head ≠ [])
    (filled : ∀ p ∈ g.productionsOf head, p.body ≠ []) :
    g.plainLine head = String.intercalate " " ((g.plainTokens head).map Token.text) := by
  have bodies : ∀ body ∈ (g.productionsOf head).map g.bodyTokens, body ≠ [] := by
    intro body listed
    obtain ⟨p, rule, rfl⟩ := List.mem_map.1 listed
    exact bodyTokens_ne_nil (filled p rule)
  have any : (g.productionsOf head).map g.bodyTokens ≠ [] := fun none => some (List.map_eq_nil_iff.1 none)
  have texts : (fun p : Production => g.bodyText p.body) =
      (fun body => String.intercalate " " (body.map Token.text)) ∘ g.bodyTokens :=
    funext fun p => bodyText_eq unattributed p
  rw [plainLine, plainTokens, intercalate_line _ _ (intercalate_ne_nil bodies any), intercalate_bars bodies, texts,
    List.map_map]
  simp only [String.append_assoc, Token.text]
  rfl

theorem weightedLine_eq (weighted : g.kind = .weighted)
    (unattributed : g.kind = .plain → ∀ name, g.attributesOf name = ∅) (filled : p.body ≠ []) :
    g.weightedLine p = String.intercalate " " ((g.weightedTokens p).map Token.text) := by
  rw [weightedLine, weightedTokens, intercalate_line _ _ (bodyTokens_ne_nil filled), text_headToken weighted,
    bodyText_eq unattributed]
  simp only [String.append_assoc, Token.text]
  rfl

def annotate (g : Grammar) : Symbol → Option Letters
  | .nonterminal name => if (g.attributesOf name).isEmpty then none else some (g.staticOf name)
  | _ => none

def occurrences (g : Grammar) (p : Production) : List Occurrence :=
  p.body.map fun symbol => { symbol, annotation := g.annotate symbol }

def plainRule (g : Grammar) (head : String) : Rule := { head, alternatives := (g.productionsOf head).map g.occurrences }

def weightedRule (g : Grammar) (p : Production) : Rule where
  head := p.head
  attributes := g.attributesOf p.head
  weight := p.weight
  alternatives := [g.occurrences p]

/-- The productions in the order in which the text has them. -/
def grouped (g : Grammar) : List Production := g.heads.flatMap g.productionsOf

def writtenRules (g : Grammar) : List Rule :=
  match g.kind with
  | .plain => g.heads.map g.plainRule
  | .weighted => g.grouped.map g.weightedRule

theorem mem_productionsOf {name : String} : p ∈ g.productionsOf name ↔ p ∈ g.productions ∧ p.head = name := by
  rw [productionsOf, List.mem_filter, beq_iff_eq]

theorem mem_heads : head ∈ g.heads ↔ head ∈ g.nonterminals ∧ g.productionsOf head ≠ [] := by
  rw [heads, List.mem_filter, Bool.not_eq_true', List.isEmpty_eq_false_iff]
  rfl

theorem nodup_heads (g : Grammar) : g.heads.Nodup := g.nonterminals.distinct.filter _

theorem text_eq (some : g.productions ≠ []) : g.text = String.intercalate "\n" g.textLines := by
  rw [text, isEmpty, List.isEmpty_eq_false_iff.2 some]
  rfl

section Written

variable {attributes : Attributes}

theorem solid_of_isLetter {c : Char} (letter : Letters.isLetter c = true) : isBlank c = false ∧ c ≠ '\x7d' := by
  refine ⟨(Weight.solid_of_isAlphanum (Weight.isAlphanum_of_isLetter letter)).1, ?_⟩
  rintro rfl
  cases letter

theorem solid_of_isList {text : List Char} {letters : Letters} (list : letters.IsList text) :
    ∀ c ∈ text, isBlank c = false ∧ c ≠ '\x7d' := by
  intro c member
  rcases Rule.mem_of_isList list c member with rfl | letter
  · decide
  · exact solid_of_isLetter letter

theorem isList_static (lowercase : attributes.Lowercase) : attributes.static.IsList attributes.bodyText.toList :=
  Rule.isList_text lowercase

theorem isList_halves (lowercase : attributes.Lowercase) :
    attributes.inherited.IsList attributes.inherited.text.toList ∧
    attributes.synthesized.IsList attributes.synthesized.text.toList :=
  ⟨Rule.isList_text fun c member => lowercase c (Attributes.mem_static.2 (Or.inl member)),
    Rule.isList_text fun c member => lowercase c (Attributes.mem_static.2 (Or.inr member))⟩

theorem toList_headText (attributes : Attributes) :
    attributes.headText.toList = attributes.inherited.text.toList ++ ';' :: attributes.synthesized.text.toList := by
  simp [Attributes.headText, String.toList_append]

theorem isWritable_headToken {name : String} (legal : Name.checkNonterminal name = .ok ())
    (lowercase : (g.attributesOf name).Lowercase) : (g.headToken name).IsWritable := by
  unfold headToken blockOf?
  split
  · exact legal
  · refine ⟨legal, fun c member => ?_⟩
    obtain ⟨inherited, synthesized⟩ := isList_halves lowercase
    rw [toList_headText, List.mem_append, List.mem_cons] at member
    rcases member with before | rfl | after
    · exact solid_of_isList inherited c before
    · decide
    · exact solid_of_isList synthesized c after

theorem isWritable_symbolToken {symbol : Symbol} (legal : Name.check symbol = .ok ())
    (lowercase : ∀ name, (g.attributesOf name).Lowercase) : (g.symbolToken symbol).IsWritable := by
  cases symbol with
  | terminal value => exact Name.checkValue_iff.1 legal
  | empty => trivial
  | nonterminal name =>
    unfold symbolToken blockOf?
    dsimp only
    split
    · exact legal
    · exact ⟨legal, solid_of_isList (isList_static (lowercase name))⟩

theorem declares_headToken (name : String) (lowercase : (g.attributesOf name).Lowercase) :
    Rule.Declares (g.headToken name) name (g.attributesOf name) := by
  unfold headToken blockOf?
  split
  · next none =>
    rw [Attributes.isEmpty_iff.1 none]
    exact .bare
  · obtain ⟨inherited, synthesized⟩ := isList_halves lowercase
    exact .block (toList_headText _) inherited synthesized

theorem isWritten_symbolToken (orderly : g.Orderly) (symbol : Symbol) :
    Occurrence.IsWritten g.kind (g.symbolToken symbol) { symbol, annotation := g.annotate symbol } := by
  cases symbol with
  | terminal value => exact .terminal
  | empty => exact .empty
  | nonterminal name =>
    unfold symbolToken blockOf? annotate
    dsimp only
    split
    · exact .bare
    · next some =>
      cases kind : g.kind with
      | plain => exact absurd (Attributes.isEmpty_iff.2 (orderly.unattributed kind name)) some
      | weighted => exact .annotated (isList_static (orderly.lowercase name))

theorem isWritten_bodyTokens (orderly : g.Orderly) (p : Production) :
    List.Forall₂ (Occurrence.IsWritten g.kind) (g.bodyTokens p) (g.occurrences p) := by
  rw [bodyTokens, occurrences, List.forall₂_map_left_iff, List.forall₂_map_right_iff, List.forall₂_same]
  exact fun symbol _ => isWritten_symbolToken orderly symbol

theorem isWritable_of_mem_bodyTokens (orderly : g.Orderly) (legal : p.Legal) :
    ∀ token ∈ g.bodyTokens p, token.IsWritable := by
  intro token member
  obtain ⟨symbol, inBody, rfl⟩ := List.mem_map.1 member
  exact isWritable_symbolToken (legal.body symbol inBody) orderly.lowercase

theorem renders_weightedLine (weighted : g.kind = .weighted) (orderly : g.Orderly) (rule : p ∈ g.productions)
    (filled : p.body ≠ []) (legal : p.Legal) : Reading.Renders .weighted (g.weightedLine p) (g.weightedRule p) := by
  have canonical := (orderly.fits p rule).canonical
  have lowercase := orderly.lowercase p.head
  refine ⟨p.head, blockOf? (g.attributesOf p.head) Attributes.headText,
    .arrow p.weight.text :: (g.bodyTokens p ++ [Token.stop]),
    weightedLine_eq weighted orderly.unattributed filled, ?_, ?_⟩
  · rw [List.forall_mem_cons, List.forall_mem_cons, List.forall_mem_append]
    refine ⟨isWritable_headToken legal.head lowercase, Weight.solid_of_mem_text canonical,
      isWritable_of_mem_bodyTokens orderly legal, fun token last => ?_⟩
    rw [List.mem_singleton.1 last]
    trivial
  · exact .weighted (declares_headToken p.head lowercase) (Weight.read_text canonical) (bodyTokens_ne_nil filled)
      (weighted ▸ isWritten_bodyTokens orderly p)

theorem renders_plainLine (plain : g.kind = .plain) (orderly : g.Orderly) (some : g.productionsOf head ≠ [])
    (filled : ∀ p ∈ g.productionsOf head, p.body ≠ []) (legal : ∀ p ∈ g.productionsOf head, p.Legal) :
    Reading.Renders .plain (g.plainLine head) (g.plainRule head) := by
  refine ⟨head, none, .equals :: ([Token.bar].intercalate ((g.productionsOf head).map g.bodyTokens) ++ [Token.stop]),
    plainLine_eq orderly.unattributed some filled, ?_, ?_⟩
  · rw [List.forall_mem_cons, List.forall_mem_cons, List.forall_mem_append]
    refine ⟨?_, trivial, fun token member => ?_, fun token last => ?_⟩
    · obtain ⟨p, first⟩ := List.exists_mem_of_ne_nil _ some
      rw [← (mem_productionsOf.1 first).2]
      exact (legal p first).head
    · rcases mem_of_mem_intercalate member with bar | ⟨body, listed, inside⟩
      · rw [List.mem_singleton.1 bar]
        trivial
      · obtain ⟨p, rule, rfl⟩ := List.mem_map.1 listed
        exact isWritable_of_mem_bodyTokens orderly (legal p rule) token inside
    · rw [List.mem_singleton.1 last]
      trivial
  · refine .plain (fun none => some (List.map_eq_nil_iff.1 none)) (fun body listed => ?_) ?_
    · obtain ⟨p, rule, rfl⟩ := List.mem_map.1 listed
      exact bodyTokens_ne_nil (filled p rule)
    · rw [List.forall₂_map_left_iff, List.forall₂_map_right_iff, List.forall₂_same]
      exact fun p _ => plain ▸ isWritten_bodyTokens orderly p

/-- The text of a grammar lays out the rules that it is written for. -/
theorem lays_text (orderly : g.Orderly) (filled : ∀ p ∈ g.productions, p.body ≠ [])
    (legal : ∀ p ∈ g.productions, p.Legal)
    (some : g.productions ≠ []) : Reading.Lays g.kind (lines '\n' '\r' g.text.toList) g.writtenRules := by
  rw [text_eq some]
  apply Reading.lays_of_renders
  unfold textLines writtenRules
  cases kind : g.kind with
  | plain =>
    dsimp only
    rw [List.forall₂_map_left_iff, List.forall₂_map_right_iff, List.forall₂_same]
    intro head listed
    refine renders_plainLine kind orderly (mem_heads.1 listed).2 (fun p rule => ?_) fun p rule => ?_
    · exact filled p (mem_productionsOf.1 rule).1
    · exact legal p (mem_productionsOf.1 rule).1
  | weighted =>
    dsimp only
    rw [← List.map_flatMap, ← grouped, List.forall₂_map_left_iff, List.forall₂_map_right_iff, List.forall₂_same]
    intro p listed
    obtain ⟨head, -, inGroup⟩ := List.mem_flatMap.1 listed
    have rule := (mem_productionsOf.1 inGroup).1
    exact renders_weightedLine kind orderly rule (filled p rule) (legal p rule)

end Written

end Grammar

end ContextFree
