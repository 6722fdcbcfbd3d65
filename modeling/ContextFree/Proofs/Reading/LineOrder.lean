import ContextFree.Proofs.Reading.Exact
import Mathlib.Data.List.DropRight
import Mathlib.Data.List.Perm.Basic

namespace ContextFree

open Text

namespace Token

variable {text after blanks : List Char} {token : Token} {tokens : List Token}

/-- A token ends with a character that is not blank, and what comes next may be left out or give way
to white space. -/
theorem Starts.ends_solid (starts : Starts text token after) :
    ∃ front last, isBlank last = false ∧ text = front ++ last :: after ∧
      ∀ other : List Char, (∀ c ∈ other.head?, c ∈ after.head? ∨ isBlank c = true) →
        Starts (front ++ last :: other) token other := by
  cases starts with
  | equals => exact ⟨[], '=', by decide, rfl, fun _ _ => .equals⟩
  | bar => exact ⟨[], '|', by decide, rfl, fun _ _ => .bar⟩
  | stop => exact ⟨[], ';', by decide, rfl, fun _ _ => .stop⟩
  | empty => exact ⟨['\''], '\'', by decide, rfl, fun _ _ => .empty⟩
  | @quoted value _ filled unquoted =>
    exact ⟨'\'' :: value.toList, '\'', by decide, rfl, fun _ _ => .quoted filled unquoted⟩
  | @arrow weight _ unpointed =>
    refine ⟨'-' :: (weight.toList ++ ['-']), '>', by decide, by simp, fun other _ => ?_⟩
    rw [List.cons_append, List.append_assoc]
    exact .arrow unpointed
  | @bare name _ legal ends =>
    obtain ⟨⟨_, _, spelled, _⟩, plain⟩ := Name.checkNonterminal_iff.1 legal
    have filled : name.toList ≠ [] := by simp [spelled]
    have whole : ∀ other, name.toList ++ other = name.toList.dropLast ++ name.toList.getLast filled :: other := by
      intro other
      rw [List.append_cons, List.dropLast_append_getLast]
    refine ⟨_, _, (Name.isPlain_iff.1 (plain _ (List.getLast_mem filled))).2.2, whole after, fun other next => ?_⟩
    rw [← whole]
    exact .bare legal fun c leads => (next c leads).elim (ends c) id
  | @block name block _ legal unbraced =>
    refine ⟨name.toList ++ '\x7b' :: block.toList, '\x7d', by decide, by simp, fun other _ => ?_⟩
    rw [List.append_assoc, List.cons_append]
    exact .block legal unbraced

theorem spells_concat_iff {c : Char} (white : isBlank c = true) : Spells (text ++ [c]) tokens ↔ Spells text tokens := by
  constructor
  · intro spells
    generalize whole : text ++ [c] = line at spells
    induction spells generalizing text with
    | done => exact absurd whole (by simp)
    | @blank d line tokens first rest ih =>
      rcases List.append_eq_cons_iff.1 whole with ⟨rfl, same⟩ | ⟨more, rfl, same⟩
      · cases same
        exact rest
      · exact .blank first (ih same.symm)
    | @token token line after tokens starts _ ih =>
      obtain ⟨front, last, solid, rfl, next⟩ := starts.ends_solid
      rcases List.eq_nil_or_concat after with rfl | ⟨more, d, rfl⟩
      · obtain ⟨-, same⟩ := List.append_inj' whole rfl
        cases same
        rw [white] at solid
        cases solid
      · rw [List.concat_eq_append] at *
        rw [← List.cons_append, ← List.append_assoc] at whole
        obtain ⟨rfl, same⟩ := List.append_inj' whole rfl
        cases same
        refine .token (next more fun e leads => Or.inl ?_) (ih rfl)
        rw [List.head?_append, leads]
        rfl
  · intro spells
    induction spells with
    | done => exact .blank white .done
    | blank first _ ih => exact .blank first ih
    | token starts _ ih =>
      obtain ⟨front, last, -, rfl, next⟩ := starts.ends_solid
      rw [List.append_assoc, List.cons_append]
      refine .token (next _ fun d leads => ?_) ih
      rw [List.head?_append, Option.mem_def, Option.or_eq_some_iff] at leads
      refine leads.imp id fun second => ?_
      cases second.2
      exact white

end Token

namespace Reading

/-- The lines that are not blank, without the white space at their ends. -/
def solid (ls : List (List Char)) : List (List Char) := (ls.map (List.rdropWhile isBlank)).filter (· ≠ [])

def solidLines (text : String) : List (List Char) := solid (lines '\n' '\r' text.toList)

section Solid

variable {ls items : List (List Char)} {text : String}

theorem perm_solid (perm : items.Perm ls) : (solid items).Perm (solid ls) := (perm.map _).filter _

theorem rdropWhile_dropReturn (line : List Char) :
    (dropReturn '\r' line).rdropWhile isBlank = line.rdropWhile isBlank := by
  rcases List.eq_nil_or_concat line with rfl | ⟨front, last, rfl⟩
  · rfl
  · rw [dropReturn, List.concat_eq_append, List.getLast?_concat, List.dropLast_concat]
    split
    · next same =>
      cases same
      rw [List.rdropWhile_concat_pos isBlank front '\r' rfl]
    · rfl

theorem solid_go (items : List (List Char)) : solid (lines.go '\r' items) = solid items := by
  unfold solid
  fun_induction lines.go '\r' items with
  | case1 => rfl
  | case2 last empty =>
    rw [List.isEmpty_iff.1 empty]
    rfl
  | case3 last filled => rfl
  | case4 piece next more ih =>
    rw [List.map_cons, rdropWhile_dropReturn, List.filter_cons, ih, List.map_cons (a := piece), List.filter_cons]

theorem solidLines_intercalate (free : ∀ item ∈ items, '\n' ∉ item) :
    solidLines (String.ofList (['\n'].intercalate items)) = solid items := by
  cases items with
  | nil => rfl
  | cons first rest =>
    rw [solidLines, String.toList_ofList, lines, pieces_intercalate (List.cons_ne_nil first rest) free, solid_go]

theorem perm_solidLines_of_intercalate (perm : items.Perm (lines '\n' '\r' text.toList)) :
    (solidLines (String.ofList (['\n'].intercalate items))).Perm (solidLines text) := by
  rw [solidLines_intercalate fun item listed => not_mem_of_mem_lines (perm.mem_iff.1 listed)]
  exact perm_solid perm

end Solid

section Lines

variable {kind : Kind} {line : List Char} {ls items : List (List Char)} {rules : List Rule} {text : String}

theorem isPassed_concat_iff {c : Char} (white : isBlank c = true) : IsPassed (line ++ [c]) ↔ IsPassed line := by
  induction line with
  | nil => exact iff_of_true (Or.inl (by simpa using white)) (Or.inl (by simp))
  | cons d rest ih => rw [List.cons_append, isPassed_cons_iff, isPassed_cons_iff, ih]

theorem isPassed_rdropWhile_iff : IsPassed (line.rdropWhile isBlank) ↔ IsPassed line := by
  induction line using List.reverseRecOn with
  | nil => rw [List.rdropWhile_nil]
  | append_singleton line c ih =>
    rw [List.rdropWhile_concat]
    split
    · next white => rw [ih, isPassed_concat_iff white]
    · rfl

theorem spells_rdropWhile_iff {tokens : List Token} :
    Token.Spells (line.rdropWhile isBlank) tokens ↔ Token.Spells line tokens := by
  induction line using List.reverseRecOn with
  | nil => rw [List.rdropWhile_nil]
  | append_singleton line c ih =>
    rw [List.rdropWhile_concat]
    split
    · next white => rw [ih, Token.spells_concat_iff white]
    · rfl

theorem lays_iff : Lays kind ls rules ↔
    List.Forall₂ (fun line rule => Rule.read kind line = .ok rule) (ls.filter isRuleLine) rules := by
  constructor
  · intro lays
    induction lays with
    | done => exact .nil
    | passed pass _ ih => rwa [List.filter_cons_of_neg (isRuleLine_iff.not_left.2 pass)]
    | rule counts spells written _ ih =>
      rw [List.filter_cons_of_pos (isRuleLine_iff.2 counts)]
      exact .cons (read_iff.2 ⟨_, spells, written⟩) ih
  · intro related
    induction ls generalizing rules with
    | nil =>
      cases related
      exact .done
    | cons line rest ih =>
      by_cases pass : IsPassed line
      · rw [List.filter_cons_of_neg (isRuleLine_iff.not_left.2 pass)] at related
        exact .passed pass (ih related)
      · rw [List.filter_cons_of_pos (isRuleLine_iff.2 pass)] at related
        obtain ⟨rule, more, read, others, rfl⟩ := List.forall₂_cons_left_iff.1 related
        obtain ⟨tokens, spells, written⟩ := read_iff.1 read
        exact .rule pass spells written (ih others)

theorem isRuleLine_rdropWhile (line : List Char) : isRuleLine (line.rdropWhile isBlank) = isRuleLine line := by
  rw [Bool.eq_iff_iff, isRuleLine_iff, isRuleLine_iff, isPassed_rdropWhile_iff]

/-- Blank lines and white space at the ends of lines have no say in what a text lays out. -/
theorem lays_solid_iff : Lays kind (solid ls) rules ↔ Lays kind ls rules := by
  have counted : (solid ls).filter isRuleLine = (ls.filter isRuleLine).map (List.rdropWhile isBlank) := by
    rw [solid, List.filter_filter, List.filter_map]
    congr 1
    refine List.filter_congr fun line _ => ?_
    rw [Function.comp_apply, isRuleLine_rdropWhile]
    cases counts : isRuleLine line with
    | false => rfl
    | true =>
      have filled : line.rdropWhile isBlank ≠ [] := fun none =>
        isRuleLine_iff.1 counts (Or.inl (List.rdropWhile_eq_nil_iff.1 none))
      simpa using filled
  rw [lays_iff, lays_iff, counted, List.forall₂_map_left_iff]
  simp only [read_iff, spells_rdropWhile_iff]

theorem lays_of_perm (perm : items.Perm ls) (lays : Lays kind ls rules) :
    ∃ others, others.Perm rules ∧ Lays kind items others := by
  obtain ⟨others, related, same⟩ := List.perm_comp_forall₂ (perm.filter isRuleLine) (lays_iff.1 lays)
  exact ⟨others, same, lays_iff.2 related⟩

end Lines

section Rules

variable {kind : Kind} {text permuted : String} {rules others : List Rule} {g h : Grammar}

theorem exists_lays_of_reordered (reordered : (solidLines permuted).Perm (solidLines text))
    (lays : Lays kind (lines '\n' '\r' text.toList) rules) :
    ∃ others, others.Perm rules ∧ Lays kind (lines '\n' '\r' permuted.toList) others := by
  obtain ⟨others, same, laid⟩ := lays_of_perm reordered (lays_solid_iff.2 lays)
  exact ⟨others, same, lays_solid_iff.1 laid⟩

theorem declared_congr (same : ∀ rule, rule ∈ others ↔ rule ∈ rules) (name : String) :
    declared others name = declared rules name := by
  have members : ∀ kind c, c ∈ (declared others name).ofKind kind ↔ c ∈ (declared rules name).ofKind kind := by
    intro kind c
    simp only [mem_declared_ofKind, same]
  exact Attributes.ext_mem (members .inherited) (members .synthesized)

theorem Agree.congr (agree : Agree rules) (same : ∀ rule, rule ∈ others ↔ rule ∈ rules) : Agree others where
  terminals rule listed := agree.terminals rule ((same rule).1 listed)
  apart name := by
    rw [declared_congr same]
    exact agree.apart name
  annotations rule listed := by
    simp only [declared_congr same]
    exact agree.annotations rule ((same rule).1 listed)
  weights rule listed := by
    simp only [declared_congr same]
    exact agree.weights rule ((same rule).1 listed)

theorem exists_readText_of_reordered (reordered : (solidLines permuted).Perm (solidLines text))
    (read : ∃ g, readText kind text = .ok g) : ∃ h, readText kind permuted = .ok h := by
  obtain ⟨rules, lays, agree⟩ := exists_readText_iff.1 read
  obtain ⟨others, same, laid⟩ := exists_lays_of_reordered reordered lays
  exact exists_readText_iff.2 ⟨others, laid, agree.congr fun _ => same.mem_iff⟩

theorem perm_productions_of_reordered (reordered : (solidLines permuted).Perm (solidLines text))
    (read : readText kind text = .ok g) (readPermuted : readText kind permuted = .ok h) :
    h.productions.Perm g.productions ∧ ∀ name, h.attributesOf name = g.attributesOf name := by
  obtain ⟨rules, lays, -⟩ := exists_readText_iff.1 ⟨g, read⟩
  obtain ⟨others, same, laid⟩ := exists_lays_of_reordered reordered lays
  have described := describes_of_readText read lays
  have describedPermuted := describes_of_readText readPermuted laid
  refine ⟨?_, fun name => ?_⟩
  · rw [described.productions, describedPermuted.productions]
    exact same.flatMap_right Rule.productions
  · rw [described.attributes, describedPermuted.attributes]
    exact declared_congr (fun _ => same.mem_iff) name

/-- However the lines of a text are ordered, it is read or it is refused, and when it is read the same
symbols, attributes and weighted productions come of it. -/
theorem readText_of_reordered (reordered : (solidLines permuted).Perm (solidLines text)) :
    ((∃ h, readText kind permuted = .ok h) ↔ ∃ g, readText kind text = .ok g) ∧
      ∀ g h, readText kind text = .ok g → readText kind permuted = .ok h →
        (∀ name, name ∈ h.nonterminals ↔ name ∈ g.nonterminals) ∧
        (∀ value, value ∈ h.terminals ↔ value ∈ g.terminals) ∧
        (∀ name, h.attributesOf name = g.attributesOf name) ∧ h.productions.Perm g.productions := by
  refine ⟨⟨exists_readText_of_reordered reordered.symm, exists_readText_of_reordered reordered⟩, ?_⟩
  intro g h read readPermuted
  obtain ⟨productions, attributes⟩ := perm_productions_of_reordered reordered read readPermuted
  have assembled := assembled_of_readText read
  have assembledPermuted := assembled_of_readText readPermuted
  refine ⟨fun name => ?_, fun value => ?_, attributes, productions⟩
  · rw [assembledPermuted.mem_nonterminals, assembled.mem_nonterminals]
    simp only [Production.mem_nonterminals, productions.mem_iff]
  · rw [assembledPermuted.mem_terminals, assembled.mem_terminals]
    simp only [Production.mem_terminals, productions.mem_iff]

def scatteredText : String :=
  "S\x7ba;\x7d -&a-> A\x7ba,b\x7d 'x' ; \r\n\n # S\nA\x7ba;b\x7d -0.5-> '' ;\r\r\nS\x7b;c\x7d -$c-> S ;\r"

/-- Attributes that several lines declare, before and after their use. -/
theorem readText_of_reversed_blocks : ∃ text g h,
    text = scatteredText ∧
      readText .weighted text = .ok g ∧
      readText .weighted (String.ofList (['\n'].intercalate (lines '\n' '\r' text.toList).reverse)) = .ok h ∧
      h.productions.Perm g.productions := by
  obtain ⟨g, read, -⟩ := exists_of_written .weighted
    scatteredText rfl
    (fun g => g.start == some "S") (by decide +kernel)
  obtain ⟨accepted, same⟩ := @readText_of_reordered .weighted _ _
    (perm_solidLines_of_intercalate (List.reverse_perm (lines '\n' '\r' (String.toList _))))
  obtain ⟨h, reversed⟩ := accepted.2 ⟨g, read⟩
  exact ⟨_, g, h, rfl, read, reversed, (same g h read reversed).2.2.2⟩

end Rules

end Reading

end ContextFree
