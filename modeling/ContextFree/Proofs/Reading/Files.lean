import ContextFree.Proofs.Reading.Problems
import ContextFree.Proofs.Text.Encoding

namespace ContextFree

def Placed.inFile {α : Type} (file : String) (placed : Placed α) : Placed α :=
  { placed with location := { placed.location with file } }

namespace Reading

open Text

section Placing

variable {α β : Type} {kind : Kind} {file : String}

def moved (file : String) (result : Except (Placed Problem) (Placed α)) : Except (Placed Problem) (Placed α) :=
  (result.map (Placed.inFile file)).mapError (Placed.inFile file)

theorem failure?_moved (result : Except (Placed Problem) (Placed α)) :
    failure? (moved file result) = (failure? result).map (Placed.inFile file) := by cases result <;> rfl

theorem toOption_moved (result : Except (Placed Problem) (Placed α)) :
    (moved file result).toOption = result.toOption.map (Placed.inFile file) := by cases result <;> rfl

theorem readLine_inFile (line : Placed (List Char)) :
    readLine kind (line.inFile file) = moved file (readLine kind line) := by
  unfold readLine
  rw [show (line.inFile file).item = line.item from rfl]
  cases Rule.read kind line.item <;> rfl

theorem bind_moved (line : Except (Placed Problem) (Placed (List Char))) :
    (moved file line).bind (readLine kind) = moved file (line.bind (readLine kind)) := by
  cases line with
  | error problem => rfl
  | ok line => exact readLine_inFile line

theorem ruleLines_inFile (file : String) (lines : List (Option (List Char))) :
    ruleLines file lines = (ruleLines "" lines).map (moved file) := by
  rw [ruleLines, ruleLines, List.map_filterMap]
  congr 1
  funext ⟨line, number⟩
  cases line with
  | none => rfl
  | some line =>
    dsimp only
    split <;> rfl

theorem addRules_inFile (rules : List (Placed Rule)) (g : Grammar) : addRules (rules.map (Placed.inFile file)) g =
    ((addRules rules g).1, (addRules rules g).2.map (Placed.inFile file)) := by
  induction rules generalizing g with
  | nil => rfl
  | cons rule rest ih =>
    rw [List.map_cons, addRules, addRules, show (rule.inFile file).item = rule.item from rfl, ih]
    cases (addRule rule.item g).result <;> rfl

theorem ofRules_inFile (rules : List (Placed Rule)) :
    ofRules kind (rules.map (Placed.inFile file)) = (ofRules kind rules).mapError (List.map (Placed.inFile file)) := by
  have problems : ∀ g : Grammar, ((rules.map (Placed.inFile file)).flatMap fun rule =>
      (attributeProblems g rule.item).map fun problem => (⟨rule.location, problem⟩ : Placed Problem)) =
        (rules.flatMap fun rule => (attributeProblems g rule.item).map fun problem => ⟨rule.location, problem⟩).map
          (Placed.inFile file) := by
    intro g
    rw [List.flatMap_map, List.map_flatMap]
    simp only [List.map_map]
    rfl
  rw [ofRules, ofRules, addRules_inFile]
  simp only [problems, List.isEmpty_map]
  split
  · split <;> rfl
  · rfl

/-- What comes of lines does not depend on the file that they stand in, but for the places that are told. -/
theorem readLines_inFile (kind : Kind) (file : String) (lines : List (Option (List Char))) :
    readLines kind file lines = (readLines kind "" lines).mapError (List.map (Placed.inFile file)) := by
  have results : (ruleLines file lines).map (fun line => line.bind (readLine kind)) =
      ((ruleLines "" lines).map fun line => line.bind (readLine kind)).map (moved file) := by
    rw [ruleLines_inFile, List.map_map, List.map_map]
    exact List.map_congr_left fun line _ => bind_moved line
  rw [readLines, readLines, results]
  simp only [List.filterMap_map, Function.comp_def, failure?_moved, toOption_moved, ← List.map_filterMap,
    List.isEmpty_map,
    ofRules_inFile]
  split <;> rfl

end Placing

section Bytes

variable {kind : Kind} {file : String} {number : Nat} {bytes line : List UInt8} {lines : List (List UInt8)}
  {problems : Problems}

theorem decode_eq_some_iff {text : List Char} : decode bytes = some text ↔ encode text = bytes := by
  constructor
  · intro decoded
    obtain ⟨chars, found, rfl⟩ := Option.map_eq_some_iff.1 decoded
    have some : bytes.toByteArray.utf8Decode?.isSome = true := by rw [found]; rfl
    have encoded := ByteArray.utf8Encode_get_utf8Decode? (h := some)
    simp only [found, Option.get_some] at encoded
    exact List.toByteArray_inj.1 encoded
  · rintro rfl
    have found : (encode text).toByteArray.utf8Decode? = some text.toArray := List.utf8Decode?_utf8Encode
    rw [decode, found]
    rfl

theorem decode_eq_none_iff : decode bytes = none ↔ ¬ bytes.toByteArray.IsValidUTF8 := by
  rw [isValidUTF8_iff, Option.eq_none_iff_forall_ne_some, not_exists]
  simp only [ne_eq, decode_eq_some_iff]

/-- What is told of the lines from a number on: of one that is no text, just that; of one that is no rule, what is
wrong with it by itself, and its number. -/
inductive Tells (kind : Kind) (file : String) : Nat → List (List UInt8) → Problems → Prop where
  | done {number : Nat} : Tells kind file number [] []
  | garbled {number : Nat} {line : List UInt8} {lines : List (List UInt8)} {problems : Problems}
    (invalid : ¬ line.toByteArray.IsValidUTF8) (rest : Tells kind file (number + 1) lines problems) :
    Tells kind file number (line :: lines) (⟨{ file }, .unreadable .notText⟩ :: problems)
  | passed {number : Nat} {text : List Char} {lines : List (List UInt8)} {problems : Problems} (pass : IsPassed text)
    (rest : Tells kind file (number + 1) lines problems) : Tells kind file number (encode text :: lines) problems
  | rule {number : Nat} {text : List Char} {rule : Rule} {lines : List (List UInt8)} {problems : Problems}
    (counts : ¬ IsPassed text) (read : Rule.read kind text = .ok rule)
    (rest : Tells kind file (number + 1) lines problems) :
    Tells kind file number (encode text :: lines) problems
  | bad {number : Nat} {text : List Char} {problem : Problem} {lines : List (List UInt8)} {problems : Problems}
    (counts : ¬ IsPassed text) (refused : Rule.read kind text = .error problem)
    (rest : Tells kind file (number + 1) lines problems) :
    Tells kind file number (encode text :: lines) (⟨{ file, line := number }, problem⟩ :: problems)

theorem tells_of_lines (lines : List (List UInt8)) : Tells kind file 1 lines
    (((ruleLines file (lines.map decode)).map fun line => line.bind (readLine kind)).filterMap failure?) := by
  unfold ruleLines
  generalize 1 = number
  induction lines generalizing number with
  | nil => exact .done
  | cons line rest ih =>
    rw [List.map_cons, List.zipIdx_cons, List.filterMap_cons]
    cases decoded : decode line with
    | none => exact .garbled (decode_eq_none_iff.1 decoded) (ih (number + 1))
    | some text =>
      obtain rfl := decode_eq_some_iff.1 decoded
      cases counts : isRuleLine text with
      | false =>
        simp only [counts, Bool.false_eq_true, if_false]
        refine .passed (Classical.byContradiction fun some => ?_) (ih (number + 1))
        rw [isRuleLine_iff.2 some] at counts
        cases counts
      | true =>
        simp only [counts, if_true, List.map_cons, Except.bind]
        have counted := isRuleLine_iff.1 counts
        cases read : Rule.read kind text with
        | ok rule =>
          simp only [readLine, read]
          exact .rule counted read (ih (number + 1))
        | error problem =>
          simp only [readLine, read]
          exact .bad counted read (ih (number + 1))

theorem Tells.ne_nil (tells : Tells kind file number lines problems)
    (garbled : ∃ line ∈ lines, ¬ line.toByteArray.IsValidUTF8) : problems ≠ [] := by
  induction tells with
  | done => exact absurd garbled (by simp)
  | garbled => nofun
  | bad => nofun
  | passed _ _ ih | rule _ _ _ ih =>
    refine ih ?_
    obtain ⟨line, listed, invalid⟩ := garbled
    rcases List.mem_cons.1 listed with rfl | later
    · exact absurd (isValidUTF8_iff.2 ⟨_, rfl⟩) invalid
    · exact ⟨line, later, invalid⟩

theorem newline_stands : Stands 10 '\n' := ⟨by decide, rfl⟩

theorem return_stands : Stands 13 '\r' := ⟨by decide, rfl⟩

theorem readBytes_encode (kind : Kind) (file : String) (text : List Char) : readBytes kind file (encode text) =
    readLines kind file ((Text.lines '\n' '\r' text).map some) := by
  rw [readBytes, lines_encode newline_stands return_stands, List.map_map]
  exact congrArg _ (List.map_congr_left fun line _ => decode_eq_some_iff.2 rfl)

/-- Bytes that are a text are read as that text, but that all problems are placed in the file. They are a text just
if every line is one. Otherwise all is told that is wrong with single lines, in their order: each line that is no
text has its problem among those of the others, which have the numbers that they have in the file. -/
theorem readBytes_exact (kind : Kind) (file : String) (bytes : List UInt8) :
    (∀ text : String, text.toUTF8 = bytes.toByteArray →
      readBytes kind file bytes = (readText kind text).mapError (List.map (Placed.inFile file))) ∧
    ((∃ text : String, text.toUTF8 = bytes.toByteArray) ↔ ∀ line ∈ pieces 10 bytes, line.toByteArray.IsValidUTF8) ∧
    ((∃ line ∈ pieces 10 bytes, ¬ line.toByteArray.IsValidUTF8) →
      ∃ problems, readBytes kind file bytes = .error problems ∧
        Tells kind file 1 (Text.lines 10 13 bytes) problems) := by
  refine ⟨fun text same => ?_, ?_, fun garbled => ?_⟩
  · have encoded : encode text.toList = bytes := List.toByteArray_inj.1 (String.utf8Encode_toList.trans same)
    rw [← encoded, readBytes_encode, readLines_inFile]
    rfl
  · rw [← isValidUTF8_iff_pieces newline_stands]
    constructor
    · rintro ⟨text, same⟩
      exact ⟨text.toList, same.symm.trans String.utf8Encode_toList.symm⟩
    · rintro ⟨text, same⟩
      refine ⟨String.ofList text, String.utf8Encode_toList.symm.trans ?_⟩
      rw [String.toList_ofList, same]
  · have lines : ∃ line ∈ Text.lines 10 13 bytes, ¬ line.toByteArray.IsValidUTF8 := by
      obtain ⟨line, listed, invalid⟩ := garbled
      refine Classical.byContradiction fun none => invalid ?_
      simp only [not_exists, not_and, Classical.not_not] at none
      have whole := (isValidUTF8_iff_lines newline_stands return_stands).2 none
      exact (isValidUTF8_iff_pieces newline_stands).1 whole line listed
    have tells := @tells_of_lines kind file (Text.lines 10 13 bytes)
    refine ⟨_, ?_, tells⟩
    rw [readBytes, readLines, if_neg fun none => tells.ne_nil lines (List.isEmpty_iff.1 none)]

-- The first line has no body, the second one is no text, the third one is empty, and the fourth one does not end.
example : failure? (readBytes .plain "g" [83, 32, 61, 32, 59, 13, 10, 255, 10, 10, 83, 32, 61, 32, 39, 120, 39]) =
    some [⟨{ file := "g", line := 1 }, .emptyAlternative⟩, ⟨{ file := "g" }, .unreadable .notText⟩,
      ⟨{ file := "g", line := 4 }, .missingEnd⟩] := by decide +kernel

end Bytes

end Reading

end ContextFree
