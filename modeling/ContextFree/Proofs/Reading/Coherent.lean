import ContextFree.Proofs.Edit.Tables
import ContextFree.Proofs.Edit.Totality
import ContextFree.Proofs.Edit.WellFormed
import ContextFree.Reading.Source

namespace ContextFree.Reading

open Edit

section Induction

variable {P : Grammar → Prop}

theorem keeps_addRule (add : ∀ g p, p.body ≠ [] → p.Legal → P g → P (g.added p))
    (merged : ∀ name source, (mergeAttributes name source).Keeps P) (rule : Rule) : (addRule rule).Keeps P := by
  have each : (rule.alternatives.forM fun alternative => addProduction
      { head := rule.head, weight := rule.weight, body := alternative.map Occurrence.symbol }).Keeps P :=
    keeps_forM fun _ _ => keeps_addProduction fun g => add g _
  exact keeps_bind each fun _ => merged _ _

theorem addRules_cons (rule : Placed Rule) (rest : List (Placed Rule)) (g : Grammar) :
    (addRules (rule :: rest) g).1 = (addRules rest (addRule rule.item g).grammar).1 := by
  rw [addRules]
  cases (addRule rule.item g).result <;> rfl

-- A refused rule changes the grammar too, so the induction is over all outcomes of a rule.
theorem addRules_induction (add : ∀ g p, p.body ≠ [] → p.Legal → P g → P (g.added p))
    (merged : ∀ name source, (mergeAttributes name source).Keeps P) (rules : List (Placed Rule))
    {g : Grammar} (start : P g) : P (addRules rules g).1 := by
  induction rules generalizing g with
  | nil => exact start
  | cons rule rest ih =>
    rw [addRules_cons]
    exact ih (keeps_addRule add merged rule.item g start)

theorem readLines_induction {kind : Kind} {file : String} {lines : List (Option (List Char))} {g : Grammar}
    (empty : P { kind }) (add : ∀ g p, p.body ≠ [] → p.Legal → P g → P (g.added p))
    (merged : ∀ name source, (mergeAttributes name source).Keeps P)
    (read : readLines kind file lines = .ok g) : P g := by
  unfold readLines at read
  dsimp only at read
  split at read
  · unfold ofRules at read
    dsimp only at read
    split at read
    · split at read
      · cases read
        exact addRules_induction add merged _ empty
      · cases read
    · cases read
  · cases read

/-- Of what holds of the empty grammar and survives the edits of a reader. -/
theorem readText_induction_of_merged {kind : Kind} {text : String} {g : Grammar} (empty : P { kind })
    (add : ∀ g p, p.body ≠ [] → p.Legal → P g → P (g.added p))
    (merged : ∀ name source, (mergeAttributes name source).Keeps P)
    (read : readText kind text = .ok g) : P g := readLines_induction empty add merged read

theorem readText_induction {kind : Kind} {text : String} {g : Grammar} (empty : P { kind })
    (add : ∀ g p, p.body ≠ [] → p.Legal → P g → P (g.added p))
    (attributed : ∀ g attributes, P g → P { g with attributes })
    (read : readText kind text = .ok g) : P g :=
  readText_induction_of_merged empty add (keeps_mergeAttributes attributed) read

end Induction

variable {kind : Kind} {text : String} {g : Grammar}

theorem kind_of_readText (read : readText kind text = .ok g) : g.kind = kind := by
  apply @readText_induction (fun h => h.kind = kind) kind text g rfl _ _ read
  · intro h p _ _ same
    rw [Grammar.kind_added]
    exact same
  · intro h attributes same
    exact same

theorem coherent_empty (kind : Kind) : Grammar.Coherent { kind } :=
  .of_no_productions rfl fun _ same => nomatch same

theorem coherent_of_readText (read : readText kind text = .ok g) : g.Coherent := by
  apply readText_induction (coherent_empty kind) _ _ read
  · intro h p _ _ coherent
    exact coherent.added p
  · intro h attributes coherent
    exact coherent.attributed attributes

theorem legal_empty (kind : Kind) : Grammar.Legal { kind } where
  names symbol present := by
    cases symbol with
    | terminal name => cases present
    | nonterminal name => cases present
    | empty => rfl
  weights := nofun

theorem legal_of_readText (read : readText kind text = .ok g) : g.Legal := by
  apply readText_induction (legal_empty kind) _ _ read
  · intro h p _ new legal
    exact legal.added new
  · intro h attributes legal
    exact legal.attributed attributes

theorem wellFormed_of_readText (read : readText kind text = .ok g) : g.WellFormed := by
  apply readText_induction_of_merged _ _ _ read
  · exact (Grammar.Grounded.new kind).wellFormed_of_no_productions rfl
  · intro h p filled legal wellFormed
    exact wellFormed.added filled legal
  · exact Grammar.WellFormed.keeps_mergeAttributes

theorem exists_of_readText {test : Grammar → Bool} (passes : (readText kind text).toOption.any test = true) :
    ∃ g, readText kind text = .ok g ∧ test g = true := by
  cases read : readText kind text with
  | error problems =>
    rw [read] at passes
    cases passes
  | ok g =>
    rw [read] at passes
    exact ⟨g, rfl, passes⟩

def readChars (kind : Kind) (chars : List Char) : Except Problems Grammar :=
  readLines kind "" ((Text.lines '\n' '\r' chars).map some)

theorem readText_ofList (kind : Kind) (chars : List Char) :
    readText kind (String.ofList chars) = readChars kind chars := by
  rw [readText, String.toList_ofList]
  rfl

-- The characters are given, since their evaluation from a long text takes longer than all the rest.
theorem exists_of_written (kind : Kind) (text : String) {chars : List Char} (spelled : String.ofList chars = text)
    (test : Grammar → Bool) (passes : (readChars kind chars).toOption.any test = true) :
    ∃ g, readText kind text = .ok g ∧ test g = true := by
  apply exists_of_readText
  rwa [← spelled, readText_ofList]

/-- A text with the grammar that it is read as, which passes a test. -/
structure Sample (kind : Kind) (text : String) (test : Grammar → Bool) where
  grammar : Grammar
  read : readText kind text = .ok grammar
  passes : test grammar = true

def Sample.ofChars {kind : Kind} {text : String} {chars : List Char} {test : Grammar → Bool}
    (spelled : String.ofList chars = text) (passes : (readChars kind chars).toOption.any test = true) :
    Sample kind text test :=
  match read : readChars kind chars with
  | .ok g => ⟨g, by rw [← spelled, readText_ofList, read], by rwa [read] at passes⟩
  | .error _ => absurd passes (by simp [read, Except.toOption])

end ContextFree.Reading
