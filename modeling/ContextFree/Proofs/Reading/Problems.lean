import ContextFree.Proofs.Reading.Exact

namespace ContextFree

open Text

section Steps

variable {α β ε : Type} {e : ε}

theorem bind_eq_error_iff {first : Except ε α} {next : α → Except ε β} :
    first >>= next = .error e ↔ first = .error e ∨ ∃ a, first = .ok a ∧ next a = .error e := by
  cases first with
  | error other => simp [Bind.bind, Except.bind]
  | ok a => simp [Bind.bind, Except.bind]

theorem map_eq_error_iff {first : Except ε α} {f : α → β} : first.map f = .error e ↔ first = .error e := by
  cases first <;> simp [Except.map]

theorem exists_of_mapM_error {f : α → Except ε β} {xs : List α} (failed : xs.mapM f = .error e) :
    ∃ x ∈ xs, f x = .error e := by
  induction xs with
  | nil => cases failed
  | cons x rest ih =>
    rw [List.mapM_cons, bind_eq_error_iff] at failed
    rcases failed with here | ⟨b, -, later⟩
    · exact ⟨x, List.mem_cons_self, here⟩
    · rcases bind_eq_error_iff.1 later with there | ⟨_, -, done⟩
      · obtain ⟨y, member, found⟩ := ih there
        exact ⟨y, List.mem_cons_of_mem x member, found⟩
      · cases done

end Steps

namespace Token

variable {first : Char} {rest text : List Char}

theorem scan_ne_blankLine : scan first rest ≠ .error .blankLine := by
  intro blames
  unfold scan scanQuoted scanArrow scanName at blames
  dsimp only at blames
  grind

theorem scanAll_ne_blankLine : scanAll text ≠ .error .blankLine := by
  intro blames
  fun_induction scanAll text with
  | case1 => cases blames
  | case2 c rest white ih => exact ih blames
  | case3 c rest solid problem refused =>
    cases blames
    exact scan_ne_blankLine refused
  | case4 c rest solid token after short scanned ih => exact ih (map_eq_error_iff.1 blames)

theorem Spells.all_blank (spells : Spells text []) : ∀ c ∈ text, isBlank c = true := by
  generalize none : [] = tokens at spells
  induction spells with
  | done => exact fun _ absent => nomatch absent
  | blank white _ ih => exact List.forall_mem_cons.2 ⟨white, ih none⟩
  | token => cases none

end Token

namespace Rule

variable {kind : Kind} {tokens : List Token} {line : List Char} {block : String}

theorem readLetters_ne_blankLine {text : List Char} : readLetters block text ≠ .error .blankLine := by
  unfold readLetters
  dsimp only
  split <;> nofun

theorem readHeadBlock_ne_blankLine : readHeadBlock block ≠ .error .blankLine := by
  intro blames
  unfold readHeadBlock at blames
  split at blames
  · cases blames
  · rcases bind_eq_error_iff.1 blames with inherited | ⟨_, -, blames⟩
    · exact readLetters_ne_blankLine inherited
    · rcases bind_eq_error_iff.1 blames with synthesized | ⟨_, -, done⟩
      · exact readLetters_ne_blankLine synthesized
      · cases done

theorem readOccurrence_ne_blankLine {token : Token} : readOccurrence kind token ≠ .error .blankLine := by
  intro blames
  cases token with
  | name name block =>
    cases block with
    | none => cases blames
    | some block =>
      cases kind with
      | plain => cases blames
      | weighted =>
        have inside := map_eq_error_iff.1 blames
        unfold readBodyBlock at inside
        split at inside
        · cases inside
        · exact readLetters_ne_blankLine inside
  | _ => cases blames

theorem readAlternative_ne_blankLine : readAlternative kind tokens ≠ .error .blankLine := by
  intro blames
  unfold readAlternative at blames
  split at blames
  · cases blames
  · obtain ⟨token, -, found⟩ := exists_of_mapM_error blames
    exact readOccurrence_ne_blankLine found

theorem readHead_blankLine (blames : readHead kind tokens = .error .blankLine) : tokens = [] := by
  unfold readHead at blames
  split at blames
  · rfl
  · cases blames
  · split at blames
    · cases blames
    · exact absurd (map_eq_error_iff.1 blames) readHeadBlock_ne_blankLine
  · cases blames

theorem withoutEnds_ne_blankLine : withoutEnds tokens ≠ .error .blankLine := by
  unfold withoutEnds
  split <;> nofun

theorem readSign_ne_blankLine : readSign kind tokens ≠ .error .blankLine := by
  intro blames
  unfold readSign at blames
  split at blames
  case h_4 text _ => cases read : Weight.read text.toList <;> rw [read] at blames <;> cases blames
  all_goals cases blames

/-- The reader blames itself for a blank line only if there are no tokens. -/
theorem ofTokens_blankLine (blames : ofTokens kind tokens = .error .blankLine) : tokens = [] := by
  unfold ofTokens at blames
  rcases bind_eq_error_iff.1 blames with head | ⟨⟨head, attributes⟩, -, blames⟩
  · exact readHead_blankLine head
  rcases bind_eq_error_iff.1 blames with ends | ⟨inner, -, blames⟩
  · exact absurd ends withoutEnds_ne_blankLine
  rcases bind_eq_error_iff.1 blames with sign | ⟨⟨weight, bodies⟩, -, blames⟩
  · exact absurd sign readSign_ne_blankLine
  dsimp only at blames
  split at blames
  · cases blames
  rcases bind_eq_error_iff.1 blames with alternatives | ⟨_, -, done⟩
  · obtain ⟨body, -, found⟩ := exists_of_mapM_error alternatives
    exact absurd found readAlternative_ne_blankLine
  · cases done

theorem read_blankLine (blames : read kind line = .error .blankLine) : ∀ c ∈ line, isBlank c = true := by
  rcases bind_eq_error_iff.1 blames with scanned | ⟨tokens, scanned, blames⟩
  · exact absurd scanned Token.scanAll_ne_blankLine
  · cases ofTokens_blankLine blames
    exact (Token.scanAll_iff.1 scanned).all_blank

end Rule

namespace Reading

variable {kind : Kind} {file text : String} {number : Nat} {ls : List (List Char)} {line : List Char}

section Lines

theorem failure?_eq_some_iff {α ε : Type} {result : Except ε α} {e : ε} :
    failure? result = some e ↔ result = .error e := by
  cases result <;> simp [failure?]

theorem toOption_eq_some_iff {α ε : Type} {result : Except ε α} {a : α} :
    result.toOption = some a ↔ result = .ok a := by
  cases result <;> simp [Except.toOption]

def placeOf : Except (Placed Problem) (Placed Rule) → Location
  | .ok rule => rule.location
  | .error problem => problem.location

theorem placeOf_readLine (line : Placed (List Char)) : placeOf (readLine kind line) = line.location := by
  unfold readLine
  cases Rule.read kind line.item <;> rfl

theorem mem_lineResults {result : Except (Placed Problem) (Placed Rule)} :
    result ∈ lineResults kind file number ls ↔ ∃ n line, ls[n]? = some line ∧ ¬ IsPassed line ∧
      result = readLine kind ⟨{ file, line := number + n }, line⟩ := by
  induction ls generalizing number with
  | nil => simp [lineResults]
  | cons line rest ih =>
    have later : result ∈ lineResults kind file (number + 1) rest ↔ ∃ n other, (line :: rest)[n + 1]? = some other ∧
        ¬ IsPassed other ∧ result = readLine kind ⟨{ file, line := number + (n + 1) }, other⟩ := by
      simp only [ih, List.getElem?_cons_succ, Nat.add_assoc, Nat.add_comm 1]
    rw [lineResults]
    split
    · next counts =>
      rw [List.mem_cons, later]
      constructor
      · rintro (rfl | ⟨n, found⟩)
        · exact ⟨0, line, rfl, isRuleLine_iff.1 counts, rfl⟩
        · exact ⟨n + 1, found⟩
      · rintro ⟨_ | n, found⟩
        · obtain ⟨_, ⟨⟩, -, same⟩ := found
          exact Or.inl same
        · exact Or.inr ⟨n, found⟩
    · next passed =>
      rw [later]
      constructor
      · rintro ⟨n, found⟩
        exact ⟨n + 1, found⟩
      · rintro ⟨_ | n, found⟩
        · obtain ⟨_, ⟨⟩, counts, -⟩ := found
          exact absurd (isRuleLine_iff.2 counts) passed
        · exact ⟨n, found⟩

theorem lineResults_ascending :
    (lineResults kind file number ls).Pairwise fun a b => (placeOf a).line < (placeOf b).line := by
  induction ls generalizing number with
  | nil => exact .nil
  | cons line rest ih =>
    rw [lineResults]
    split
    · refine List.pairwise_cons.2 ⟨fun result later => ?_, ih⟩
      obtain ⟨n, other, -, -, rfl⟩ := mem_lineResults.1 later
      rw [placeOf_readLine, placeOf_readLine]
      change number < number + 1 + n
      omega
    · exact ih

theorem ascending_filterMap {α : Type} {pick : Except (Placed Problem) (Placed Rule) → Option (Placed α)}
    (keeps : ∀ result placed, pick result = some placed → placed.location = placeOf result) :
    ((lineResults kind file number ls).filterMap pick).Pairwise fun a b => a.location.line < b.location.line := by
  refine List.pairwise_filterMap.2 (lineResults_ascending.imp fun before a picked b chosen => ?_)
  rwa [keeps _ a picked, keeps _ b chosen]

def lineProblems (kind : Kind) (text : String) : List (Placed Problem) :=
  (lineResults kind "" 1 (lines '\n' '\r' text.toList)).filterMap failure?

def lineRules (kind : Kind) (text : String) : List (Placed Rule) :=
  (lineResults kind "" 1 (lines '\n' '\r' text.toList)).filterMap Except.toOption

theorem readText_eq (kind : Kind) (text : String) : readText kind text =
    if (lineProblems kind text).isEmpty then ofRules kind (lineRules kind text) else .error
      (lineProblems kind text) := by
  simp only [readText, readLines, lineResults_eq, lineProblems, lineRules]
  rfl

theorem lineProblems_ascending :
    (lineProblems kind text).Pairwise fun a b => a.location.line < b.location.line := by
  refine ascending_filterMap fun result problem failed => ?_
  rw [failure?_eq_some_iff.1 failed]
  rfl

theorem lineRules_ascending : (lineRules kind text).Pairwise fun a b => a.location.line < b.location.line := by
  refine ascending_filterMap fun result rule read => ?_
  rw [toOption_eq_some_iff.1 read]
  rfl

/-- A line of a text, counted from one, which is neither blank nor a comment. -/
def StandsAt (text : String) (location : Location) (line : List Char) : Prop :=
  ∃ n, (lines '\n' '\r' text.toList)[n]? = some line ∧ ¬ IsPassed line ∧ location = { line := n + 1 }

theorem readLine_eq_error_iff {location : Location} {problem : Placed Problem} :
    readLine kind ⟨location, line⟩ = .error problem ↔
      Rule.read kind line = .error problem.item ∧ problem.location = location := by
  unfold readLine
  cases problem
  cases Rule.read kind line <;> simp [eq_comm, and_comm]

theorem mem_results_iff {result : Except (Placed Problem) (Placed Rule)} :
    result ∈ lineResults kind "" 1 (lines '\n' '\r' text.toList) ↔
      ∃ line location, StandsAt text location line ∧ result = readLine kind ⟨location, line⟩ := by
  rw [mem_lineResults]
  constructor
  · rintro ⟨n, line, found, counts, rfl⟩
    exact ⟨line, { line := n + 1 }, ⟨n, found, counts, rfl⟩, by rw [Nat.add_comm]⟩
  · rintro ⟨line, _, ⟨n, found, counts, rfl⟩, rfl⟩
    exact ⟨n, line, found, counts, by rw [Nat.add_comm]⟩

theorem mem_lineProblems {problem : Placed Problem} : problem ∈ lineProblems kind text ↔
    ∃ line, StandsAt text problem.location line ∧ Rule.read kind line = .error problem.item := by
  simp only [lineProblems, List.mem_filterMap, failure?_eq_some_iff, exists_eq_right, mem_results_iff,
    eq_comm (a := Except.error problem), readLine_eq_error_iff]
  constructor
  · rintro ⟨line, _, stands, refused, rfl⟩
    exact ⟨line, stands, refused⟩
  · rintro ⟨line, stands, refused⟩
    exact ⟨line, _, stands, refused, rfl⟩

theorem mem_lineRules {rule : Placed Rule} : rule ∈ lineRules kind text ↔
    ∃ line, StandsAt text rule.location line ∧ Rule.read kind line = .ok rule.item := by
  simp only [lineRules, List.mem_filterMap, toOption_eq_some_iff, exists_eq_right, mem_results_iff,
    eq_comm (a := Except.ok rule), readLine_eq_ok_iff]
  constructor
  · rintro ⟨line, _, stands, read, rfl⟩
    exact ⟨line, stands, read⟩
  · rintro ⟨line, stands, read⟩
    exact ⟨line, _, stands, read, rfl⟩

def IsBad (kind : Kind) (line : List Char) : Prop := ∃ problem, Rule.read kind line = .error problem

theorem lines_of_line (listed : line ∈ lines '\n' '\r' text.toList) (filled : line ≠ []) :
    lines '\n' '\r' line = [line] := by
  rw [lines, pieces_of_not_mem (not_mem_of_mem_lines listed), lines.go, if_neg (by simpa using filled)]

theorem readText_line {location : Location} {problem : Problem} (stands : StandsAt text location line)
    (refused : Rule.read kind line = .error problem) :
    readText kind (String.ofList line) = .error [⟨{ line := 1 }, problem⟩] := by
  obtain ⟨n, found, counts, -⟩ := stands
  have filled : line ≠ [] := by
    rintro rfl
    exact counts (Or.inl nofun)
  have problems : lineProblems kind (String.ofList line) = [⟨{ line := 1 }, problem⟩] := by
    have read : readLine kind ⟨{ line := 1 }, line⟩ = .error ⟨{ line := 1 }, problem⟩ :=
      readLine_eq_error_iff.2 ⟨refused, rfl⟩
    rw [lineProblems, String.toList_ofList, lines_of_line (List.mem_of_getElem? found) filled, lineResults,
      if_pos (isRuleLine_iff.2 counts), read]
    rfl
  rw [readText_eq, problems]
  rfl

theorem StandsAt.unique {location : Location} {other : List Char} (first : StandsAt text location line)
    (second : StandsAt text location other) : line = other := by
  obtain ⟨n, found, -, rfl⟩ := first
  obtain ⟨m, again, -, same⟩ := second
  cases same
  rw [found] at again
  exact Option.some.inj again

theorem mem_lineProblems_of_stands {location : Location} {problem other : Problem}
    (stands : StandsAt text location line)
    (refused : Rule.read kind line = .error problem) :
    ⟨location, other⟩ ∈ lineProblems kind text ↔ other = problem := by
  rw [mem_lineProblems]
  constructor
  · rintro ⟨again, standsToo, told⟩
    rw [← stands.unique standsToo, refused] at told
    exact (Except.error.inj told).symm
  · rintro rfl
    exact ⟨line, stands, refused⟩

end Lines

section Model

variable {rules : List (Placed Rule)} {g : Grammar} {problem : Placed Problem}

/-- What the grammar says against a rule: it is refused after those before it, or, if none is, it is at odds with the
attributes that all of them declare. -/
def IsBlamed (kind : Kind) (rules : List (Placed Rule)) (problem : Placed Problem) : Prop :=
  ∃ front rule back, rules = front ++ rule :: back ∧ problem.location = rule.location ∧
    ((∃ fault, (addRule rule.item (addRules front { kind }).1).result = .error fault ∧ problem.item = .refused fault) ∨
      ((addRules rules { kind }).2 = [] ∧ problem.item ∈ attributeProblems (addRules rules { kind }).1 rule.item))

theorem refusals_cons (rule : Placed Rule) (rest : List (Placed Rule)) (g : Grammar) : (addRules (rule :: rest) g).2 =
    ((failure? (addRule rule.item g).result).map fun fault => ⟨rule.location, .refused fault⟩).toList ++
      (addRules rest (addRule rule.item g).grammar).2 := by
  rw [addRules]
  cases (addRule rule.item g).result <;> rfl

theorem mem_refusals : problem ∈ (addRules rules g).2 ↔ ∃ front rule back, rules = front ++ rule :: back ∧
    problem.location = rule.location ∧
      ∃ fault, (addRule rule.item (addRules front g).1).result = .error fault ∧ problem.item = .refused fault := by
  induction rules generalizing g with
  | nil => simp [addRules]
  | cons first rest ih =>
    rw [refusals_cons, List.mem_append, ih, Option.mem_toList, Option.map_eq_some_iff]
    constructor
    · rintro (⟨fault, failed, rfl⟩ | ⟨front, rule, back, rfl, place, refused⟩)
      · exact ⟨[], first, rest, rfl, rfl, fault, failure?_eq_some_iff.1 failed, rfl⟩
      · exact ⟨first :: front, rule, back, rfl, place, by rwa [addRules_cons]⟩
    · rintro ⟨_ | ⟨other, front⟩, rule, back, same, place, fault, refused, told⟩
      · cases same
        cases problem
        cases place
        cases told
        exact Or.inl ⟨fault, failure?_eq_some_iff.2 refused, rfl⟩
      · cases same
        rw [addRules_cons] at refused
        exact Or.inr ⟨front, rule, back, rfl, place, fault, refused, told⟩

theorem refusals_sublist (rules : List (Placed Rule)) (g : Grammar) :
    ((addRules rules g).2.map Placed.location).Sublist (rules.map Placed.location) := by
  induction rules generalizing g with
  | nil => exact List.Sublist.refl _
  | cons rule rest ih =>
    rw [refusals_cons]
    cases failure? (addRule rule.item g).result with
    | none => exact (ih _).cons _
    | some fault => exact (ih _).cons_cons _

theorem ofRules_failed {problems : Problems} (failed : ofRules kind rules = .error problems) :
    ((addRules rules { kind }).2 ≠ [] ∧ problems = (addRules rules { kind }).2) ∨
      ((addRules rules { kind }).2 = [] ∧ problems = rules.flatMap fun rule =>
        (attributeProblems (addRules rules { kind }).1 rule.item).map fun problem => ⟨rule.location, problem⟩) := by
  unfold ofRules at failed
  dsimp only at failed
  split at failed
  · next none =>
    split at failed
    · cases failed
    · cases failed
      exact Or.inr ⟨List.isEmpty_iff.1 none, rfl⟩
  · next some =>
    cases failed
    exact Or.inl ⟨fun none => some (List.isEmpty_iff.2 none), rfl⟩

theorem ascending_of_ofRules (ascending : rules.Pairwise fun a b => a.location.line < b.location.line)
    {problems : Problems}
    (failed : ofRules kind rules = .error problems) :
    problems.Pairwise fun a b => a.location.line ≤ b.location.line := by
  rcases ofRules_failed failed with ⟨-, rfl⟩ | ⟨-, rfl⟩
  · have places : (rules.map Placed.location).Pairwise fun a b => a.line < b.line := List.pairwise_map.2 ascending
    have kept := List.pairwise_map.1 (places.sublist (refusals_sublist rules { kind }))
    exact kept.imp Nat.le_of_lt
  · refine List.pairwise_flatMap.2 ⟨fun rule _ => ?_, ascending.imp fun below p first q second => ?_⟩
    · exact List.pairwise_map.2 (List.pairwise_of_forall fun _ _ => Nat.le_refl _)
    · obtain ⟨_, -, rfl⟩ := List.mem_map.1 first
      obtain ⟨_, -, rfl⟩ := List.mem_map.1 second
      exact Nat.le_of_lt below

theorem mem_iff_isBlamed {problems : Problems} (failed : ofRules kind rules = .error problems) :
    problem ∈ problems ↔ IsBlamed kind rules problem := by
  rcases ofRules_failed failed with ⟨some, rfl⟩ | ⟨none, rfl⟩
  · rw [mem_refusals]
    constructor
    · rintro ⟨front, rule, back, whole, place, refused⟩
      exact ⟨front, rule, back, whole, place, Or.inl refused⟩
    · rintro ⟨front, rule, back, whole, place, refused | ⟨none, -⟩⟩
      · exact ⟨front, rule, back, whole, place, refused⟩
      · exact absurd none some
  · simp only [List.mem_flatMap, List.mem_map]
    constructor
    · rintro ⟨rule, listed, item, found, rfl⟩
      obtain ⟨front, back, whole⟩ := List.append_of_mem listed
      exact ⟨front, rule, back, whole, rfl, Or.inr ⟨none, found⟩⟩
    · rintro ⟨front, rule, back, whole, place, refused | ⟨-, found⟩⟩
      · have listed := mem_refusals.2 ⟨front, rule, back, whole, place, refused⟩
        rw [none] at listed
        cases listed
      · refine ⟨rule, whole ▸ List.mem_append_right _ List.mem_cons_self, problem.item, found, ?_⟩
        rw [← place]

theorem blankLine_not_mem_attributeProblems {rule : Rule} : .blankLine ∉ attributeProblems g rule := by
  intro listed
  rw [attributeProblems, List.mem_append, Option.mem_toList, List.mem_flatMap] at listed
  rcases listed with weight | ⟨alternative, -, inside⟩
  · unfold weightProblem at weight
    split at weight
    · cases weight
    · split at weight <;> cases weight
  · obtain ⟨occurrence, -, found⟩ := List.mem_filterMap.1 inside
    unfold annotationProblem at found
    split at found
    · dsimp only at found
      split at found <;> cases found
    · cases found

theorem IsBlamed.ne_blankLine {problem : Placed Problem} (blamed : IsBlamed kind rules problem) :
    problem.item ≠ .blankLine := by
  obtain ⟨front, rule, back, -, -, ⟨fault, -, told⟩ | ⟨-, listed⟩⟩ := blamed
  · rw [told]
    nofun
  · intro blank
    rw [blank] at listed
    exact blankLine_not_mem_attributeProblems listed

end Model

theorem ne_blankLine_of_lineProblems {problem : Placed Problem} (listed : problem ∈ lineProblems kind text) :
    problem.item ≠ .blankLine := by
  intro blank
  obtain ⟨line, ⟨n, -, counts, -⟩, refused⟩ := mem_lineProblems.1 listed
  rw [blank] at refused
  exact counts (Or.inl (Rule.read_blankLine refused))

theorem readText_failed {problems : Problems} (failed : readText kind text = .error problems) :
    (lineProblems kind text ≠ [] ∧ problems = lineProblems kind text) ∨
      (lineProblems kind text = [] ∧ ofRules kind (lineRules kind text) = .error problems) := by
  rw [readText_eq] at failed
  split at failed
  · next none => exact Or.inr ⟨List.isEmpty_iff.1 none, failed⟩
  · next some =>
    cases failed
    exact Or.inl ⟨fun none => some (List.isEmpty_iff.2 none), rfl⟩

/-- If lines are bad, each of them has one problem, the one that it has alone; these are all, in the order of the lines.
If none is, the problems are what the grammar has against the rules that are read, again in order. The reader never
blames itself. -/
theorem problems_exact (kind : Kind) (text : String) :
    ((∃ location line, StandsAt text location line ∧ IsBad kind line) →
      ∃ problems, readText kind text = .error problems ∧
      (problems.Pairwise fun a b => a.location.line < b.location.line) ∧
      (∀ problem ∈ problems, ∃ line, StandsAt text problem.location line ∧ IsBad kind line) ∧
      ∀ location line, StandsAt text location line → IsBad kind line →
        ∃ problem, readText kind (String.ofList line) = .error [⟨{ line := 1 }, problem⟩] ∧
          ∀ other, ⟨location, other⟩ ∈ problems ↔ other = problem) ∧
    ((∀ location line, StandsAt text location line → ¬ IsBad kind line) →
      ∀ problems, readText kind text = .error problems →
        (problems.Pairwise fun a b => a.location.line ≤ b.location.line) ∧
        ∀ problem, problem ∈ problems ↔ IsBlamed kind (lineRules kind text) problem) ∧
    (∀ rule, rule ∈ lineRules kind text ↔
      ∃ line, StandsAt text rule.location line ∧ Rule.read kind line = .ok rule.item) ∧
    ∀ problems, readText kind text = .error problems → ∀ problem ∈ problems, problem.item ≠ .blankLine := by
  refine ⟨?_, ?_, fun rule => mem_lineRules, ?_⟩
  · rintro ⟨location, line, stands, problem, refused⟩
    have some := List.ne_nil_of_mem ((mem_lineProblems_of_stands stands refused).2 rfl)
    refine ⟨lineProblems kind text, ?_, lineProblems_ascending, fun other listed => ?_, ?_⟩
    · rw [readText_eq, if_neg fun none => some (List.isEmpty_iff.1 none)]
    · obtain ⟨bad, place, told⟩ := mem_lineProblems.1 listed
      exact ⟨bad, place, other.item, told⟩
    · rintro place bad here ⟨found, told⟩
      exact ⟨found, readText_line here told, fun other => mem_lineProblems_of_stands here told⟩
  · intro fine problems failed
    rcases readText_failed failed with ⟨some, -⟩ | ⟨-, failed⟩
    · obtain ⟨problem, listed⟩ := List.exists_mem_of_ne_nil _ some
      obtain ⟨line, stands, refused⟩ := mem_lineProblems.1 listed
      exact absurd ⟨problem.item, refused⟩ (fine _ line stands)
    · exact ⟨ascending_of_ofRules lineRules_ascending failed, fun problem => mem_iff_isBlamed failed⟩
  · intro problems failed problem listed
    rcases readText_failed failed with ⟨-, rfl⟩ | ⟨-, failed⟩
    · exact ne_blankLine_of_lineProblems listed
    · exact ((mem_iff_isBlamed failed).1 listed).ne_blankLine

end Reading

end ContextFree
