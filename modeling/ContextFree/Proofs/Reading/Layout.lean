import ContextFree.Proofs.Reading.Spelling
import ContextFree.Proofs.Reading.Written
import ContextFree.Reading.Source

namespace ContextFree.Reading

open Text

/-- Nothing but white space, or a comment behind white space. -/
def IsPassed (line : List Char) : Prop :=
  (∀ c ∈ line, isBlank c = true) ∨
    ∃ blanks comment, line = blanks ++ '#' :: comment ∧ ∀ c ∈ blanks, isBlank c = true

inductive Lays (kind : Kind) : List (List Char) → List Rule → Prop where
  | done : Lays kind [] []
  | passed {line : List Char} {lines : List (List Char)} {rules : List Rule} (pass : IsPassed line)
    (rest : Lays kind lines rules) : Lays kind (line :: lines) rules
  | rule {line : List Char} {lines : List (List Char)} {tokens : List Token} {rule : Rule} {rules : List Rule}
    (counts : ¬ IsPassed line) (spells : Token.Spells line tokens) (written : rule.IsWritten kind tokens)
    (rest : Lays kind lines rules) : Lays kind (line :: lines) (rule :: rules)

section Lines

variable {kind : Kind} {file : String} {line : List Char} {rule : Rule}

theorem isPassed_cons_iff {c : Char} {rest : List Char} :
    IsPassed (c :: rest) ↔ (isBlank c = true ∧ IsPassed rest) ∨ (isBlank c = false ∧ c = '#') := by
  constructor
  · rintro (blank | ⟨blanks, comment, same, white⟩)
    · rw [List.forall_mem_cons] at blank
      exact Or.inl ⟨blank.1, Or.inl blank.2⟩
    · cases blanks with
      | nil =>
        cases same
        exact Or.inr ⟨by decide, rfl⟩
      | cons _ blanks =>
        cases same
        rw [List.forall_mem_cons] at white
        exact Or.inl ⟨white.1, Or.inr ⟨blanks, comment, rfl, white.2⟩⟩
  · rintro (⟨white, blank | ⟨blanks, comment, rfl, more⟩⟩ | ⟨-, rfl⟩)
    · exact Or.inl (List.forall_mem_cons.2 ⟨white, blank⟩)
    · exact Or.inr ⟨c :: blanks, comment, rfl, List.forall_mem_cons.2 ⟨white, more⟩⟩
    · exact Or.inr ⟨[], rest, rfl, by simp⟩

theorem isRuleLine_iff : isRuleLine line = true ↔ ¬ IsPassed line := by
  induction line with
  | nil => exact ⟨nofun, fun counts => absurd (Or.inl (by simp)) counts⟩
  | cons c rest ih =>
    rw [isPassed_cons_iff]
    cases white : isBlank c with
    | true =>
      have skip : isRuleLine (c :: rest) = isRuleLine rest := by
        rw [isRuleLine, List.dropWhile_cons_of_pos white]
        rfl
      simp [skip, ih]
    | false =>
      have here : isRuleLine (c :: rest) = (c != '#') := by
        rw [isRuleLine, List.dropWhile_cons_of_neg (by simp [white])]
      simp [here]

theorem read_iff : Rule.read kind line = .ok rule ↔ ∃ tokens, Token.Spells line tokens ∧
    rule.IsWritten kind tokens := by
  rw [Rule.read, Rule.bind_eq_ok_iff]
  simp only [Token.scanAll_iff, Rule.ofTokens_iff]

def lineResults (kind : Kind) (file : String) : Nat → List (List Char) → List (Except (Placed Problem) (Placed Rule))
  | _, [] => []
  | number, line :: rest =>
    if isRuleLine line then readLine kind ⟨{ file, line := number }, line⟩ :: lineResults kind file (number + 1) rest
    else lineResults kind file (number + 1) rest

theorem lineResults_eq (lines : List (List Char)) :
    (ruleLines file (lines.map some)).map (fun line => line.bind (readLine kind)) = lineResults kind file 1 lines := by
  unfold ruleLines
  generalize 1 = number
  induction lines generalizing number with
  | nil => rfl
  | cons line rest ih =>
    rw [List.map_cons, List.zipIdx_cons, List.filterMap_cons, lineResults]
    cases counts : isRuleLine line with
    | true =>
      simp only [counts, if_true, List.map_cons, ih]
      rfl
    | false => simp only [counts, Bool.false_eq_true, if_false, ih]

theorem readLine_eq_ok_iff {location : Location} {placed : Placed Rule} :
    readLine kind ⟨location, line⟩ = .ok placed ↔ Rule.read kind line = .ok placed.item ∧
      placed.location = location := by
  unfold readLine
  cases placed
  cases Rule.read kind line <;> simp [eq_comm, and_comm]

theorem lays_of_results {lines : List (List Char)} {number : Nat} {placed : List (Placed Rule)}
    (results : lineResults kind file number lines = placed.map Except.ok) :
    Lays kind lines (placed.map Placed.item) := by
  induction lines generalizing number placed with
  | nil =>
    rw [lineResults, List.nil_eq, List.map_eq_nil_iff] at results
    rw [results]
    exact .done
  | cons line rest ih =>
    rw [lineResults] at results
    split at results
    · next counts =>
      cases placed with
      | nil => cases results
      | cons first more =>
        rw [List.map_cons, List.cons.injEq] at results
        obtain ⟨tokens, spells, written⟩ := read_iff.1 (readLine_eq_ok_iff.1 results.1).1
        exact .rule (isRuleLine_iff.1 counts) spells written (ih results.2)
    · next passed =>
      exact .passed (Classical.byContradiction fun counts => passed (isRuleLine_iff.2 counts)) (ih results)

theorem results_of_lays {lines : List (List Char)} {rules : List Rule} (lays : Lays kind lines rules) (number : Nat) :
    ∃ placed : List (Placed Rule),
      lineResults kind file number lines = placed.map Except.ok ∧ placed.map Placed.item = rules := by
  induction lays generalizing number with
  | done => exact ⟨[], rfl, rfl⟩
  | passed pass _ ih =>
    obtain ⟨placed, results, items⟩ := ih (number + 1)
    refine ⟨placed, ?_, items⟩
    rw [lineResults, if_neg fun counts => isRuleLine_iff.1 counts pass, results]
  | @rule line lines tokens rule rules counts spells written _ ih =>
    obtain ⟨placed, results, items⟩ := ih (number + 1)
    refine ⟨⟨{ file, line := number }, rule⟩ :: placed, ?_, ?_⟩
    · have read : readLine kind ⟨{ file, line := number }, line⟩ = .ok ⟨{ file, line := number }, rule⟩ :=
        readLine_eq_ok_iff.2 ⟨read_iff.2 ⟨tokens, spells, written⟩, rfl⟩
      rw [lineResults, if_pos (isRuleLine_iff.2 counts), results, List.map_cons, read]
    · rw [List.map_cons, items]

theorem filterMap_failure?_eq_nil_iff {α ε : Type} {results : List (Except ε α)} :
    results.filterMap failure? = [] ↔ ∃ answers : List α, results = answers.map Except.ok := by
  constructor
  · intro none
    induction results with
    | nil => exact ⟨[], rfl⟩
    | cons result rest ih =>
      cases result with
      | error problem => cases none
      | ok answer =>
        obtain ⟨answers, rfl⟩ := ih none
        exact ⟨answer :: answers, rfl⟩
  · rintro ⟨answers, rfl⟩
    rw [List.filterMap_map, List.filterMap_eq_nil_iff]
    exact fun _ _ => rfl

theorem filterMap_toOption_ok {α ε : Type} (answers : List α) :
    (answers.map (Except.ok : α → Except ε α)).filterMap Except.toOption = answers := by
  rw [List.filterMap_map]
  exact List.filterMap_some

theorem readText_eq_ok_iff {text : String} {g : Grammar} : readText kind text = .ok g ↔
    ∃ placed : List (Placed Rule), lineResults kind "" 1 (lines '\n' '\r' text.toList) = placed.map Except.ok ∧
      ofRules kind placed = .ok g := by
  simp only [readText, readLines, lineResults_eq]
  constructor
  · intro read
    split at read
    · next none =>
      obtain ⟨placed, results⟩ := filterMap_failure?_eq_nil_iff.1 (List.isEmpty_iff.1 none)
      rw [results, filterMap_toOption_ok] at read
      exact ⟨placed, results, read⟩
    · cases read
  · rintro ⟨placed, results, built⟩
    rw [results, filterMap_failure?_eq_nil_iff.2 ⟨placed, rfl⟩, filterMap_toOption_ok]
    exact built

end Lines

end ContextFree.Reading
