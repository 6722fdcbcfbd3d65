import ContextFree.Proofs.Continuation
import ContextFree.Proofs.ConvertedText
import ContextFree.Proofs.Pass.Gathering
import ContextFree.Proofs.Pass.WellFormed

namespace ContextFree

open Edit Pass

namespace Pipeline

variable {g : Grammar} {failure : PassFailure}

theorem run_cons_error_iff {pass : Pass} {rest : List Pass} : (run false (pass :: rest) g).result = .error failure ↔
    (∃ fault, pass.run.Refuses g fault ∧ failure = ⟨pass.name, fault⟩) ∨
      ∃ h, pass.run.Succeeds g () h ∧ (run false rest h).result = .error failure := by
  simp only [run, Refuses, Succeeds]
  cases (pass.run g).result with
  | ok _ => simp
  | error fault => simp [eq_comm]

theorem fails_of_runs {pass : Pass} {rest : List Pass} (runs : pass.run.Runs g)
    (failed : (run false (pass :: rest) g).result = .error failure) :
    ∃ h, pass.run.Succeeds g () h ∧ (run false rest h).result = .error failure := by
  rcases run_cons_error_iff.1 failed with ⟨fault, refused, -⟩ | later
  · exact absurd refused runs.not_refuses
  · exact later

/-- Of the passes that change the shape of productions only the second one can be refused. -/
theorem refuses_of_shaping (coherent : g.Coherent) (legal : g.Legal)
    (failed : (run false shaping g).result = .error failure) :
    ∃ full, removeEmptyString.Succeeds g () full ∧
      ∃ fault, removeUnits.Refuses full fault ∧ failure = ⟨unitProductions.name, fault⟩ := by
  have first : emptyString.run.Runs g := runs_removeEmptyString fun p => legal.production coherent.closed
  obtain ⟨full, emptyRan, failed⟩ := fails_of_runs first failed
  refine ⟨full, emptyRan, ?_⟩
  rcases run_cons_error_iff.1 failed with refused | ⟨proper, unitsRan, failed⟩
  · exact refused
  · have noEmpty := emptyRemoved_of_succeeds coherent emptyRan
    have noUnits := unitsRemoved_of_succeeds noEmpty.coherent unitsRan
    have legalFull := stable_legal.keeps_removeEmptyString.of_succeeds emptyRan legal
    have legalProper := stable_legal.keeps_removeUnits.of_succeeds unitsRan legalFull
    have shape : ∀ p ∈ proper.productions, (p.body ≠ [] ∧ Symbol.empty ∉ p.body) ∧ p.isUnit = false := by
      intro p rule
      obtain ⟨notUnit, origin, old, same⟩ := noUnits.body_of_mem rule
      exact ⟨same ▸ noEmpty.varied.full old, notUnit⟩
    obtain ⟨useful, separated, split, uselessRan, separateRan, -, splitRan⟩ :=
      runs_late noUnits.coherent legalProper shape
    have ended : (run false [uselessSymbols, separateTerminals, splitBodies] proper).result = .ok split := by
      simp only [run_cons_iff, run_nil_iff]
      exact ⟨useful, uselessRan, separated, separateRan, split, splitRan, rfl⟩
    rw [ended] at failed
    cases failed

theorem wellFormed_weighed (wellFormed : g.WellFormed) (kind : Kind) : (weighed kind g).WellFormed := by
  cases kind with
  | plain => exact wellFormed
  | weighted => exact wellFormed.with_productions List.filter_sublist.subset

theorem kind_weighed (kind : Kind) (g : Grammar) : (weighed kind g).kind = g.kind := by
  cases kind <;> rfl

section Read

variable {source kind : Kind} {text : String}

theorem clash_of_standard (read : Reading.readText source text = .ok g)
    (failed : (run false (standard kind) g).result = .error failure) :
    ∃ full, removeEmptyString.Succeeds (weighed kind g) () full ∧ ∃ owner ∈ full.nonterminals, ∃ letter present,
      failure = ⟨unitProductions.name, .clash letter owner present⟩ ∧
        (∃ reached ∈ Units.reach full.productions owner, letter ∈ (full.attributesOf reached).inherited) ∧
          ∃ reached ∈ Units.reach full.productions owner, letter ∈ (full.attributesOf reached).synthesized := by
  have coherent := coherent_weighed (Reading.coherent_of_readText read) kind
  have legal := legal_weighed (Reading.legal_of_readText read) kind
  have wellFormed := wellFormed_weighed (Reading.wellFormed_of_readText read) kind
  rw [run_standard_eq] at failed
  obtain ⟨full, emptyRan, fault, refused, rfl⟩ := refuses_of_shaping coherent legal failed
  have left := wellFormed_of_removeEmptyString wellFormed.toGrounded emptyRan
  obtain ⟨owner, known, ⟨letter, present, rfl, sides⟩ | ⟨p, rule, -, bare, -⟩⟩ :=
    clash_or_bare_of_takeOverAll left.legal left.apart left.lowercase (refuses_removeUnits.1 refused)
  · exact ⟨full, emptyRan, owner, known, letter, present, rfl, sides⟩
  · exact absurd bare (left.filled p rule)

/-- A plain grammar, which has no attributes, is always converted. The conversion of a weighted one can be
stopped by the removal of unit productions, for a clash of attributes, and by nothing else. -/
theorem standard_fails_for_clashes_only (read : Reading.readText source text = .ok g) :
    (source = .plain → ∃ c, (run false (standard kind) g).result = .ok c) ∧
      ∀ failure, (run false (standard kind) g).result = .error failure →
        ∃ letter owner present, failure = ⟨unitProductions.name, .clash letter owner present⟩ := by
  constructor
  · rintro rfl
    cases result : (run false (standard kind) g).result with
    | ok c => exact ⟨c, rfl⟩
    | error failure =>
      obtain ⟨full, emptyRan, _, -, letter, _, -, ⟨reached, -, inherited⟩, -⟩ := clash_of_standard read result
      have orderly := orderly_of_removeEmptyString
        (orderly_weighed (Reading.readable_of_readText read).orderly kind) emptyRan
      have plain : full.kind = .plain := (stable_kind .plain).keeps_removeEmptyString.of_succeeds emptyRan
        ((kind_weighed kind g).trans (Reading.kind_of_readText read))
      rw [orderly.unattributed plain] at inherited
      exact absurd inherited (Letters.not_mem_empty letter)
  · intro failure failed
    obtain ⟨_, -, owner, -, letter, present, same, -⟩ := clash_of_standard read failed
    exact ⟨letter, owner, present, same⟩

-- Full of marks that names of nonterminals may not have.
def markedText : String := "S = '=' S '|' ';' | A | '->' ;\nA = '\x7b' '!' '\x7d' '#' | '' ;"

def markedSample : Reading.Sample .plain markedText (fun _ => true) :=
  .ofChars rfl (by decide +kernel)

-- S takes over the letter that A inherits and B synthesizes.
def clashingText : String :=
  "S -1-> A ;\nS -2-> B ;\nA\x7ba;\x7d -3-> '->' S ';' ;\nB\x7b;a\x7d -0.5-> '\x7b' ;"

def clashingSample : Reading.Sample .weighted clashingText
    (fun g => match (run false (standard .weighted) g).result with
      | .ok _ => false
      | .error failure =>
        failure == ⟨"UnitProductionsStep", .clash 'a' "S" .inherited⟩) := .ofChars rfl (by decide +kernel)

theorem standard_fails_for_clash : ∃ g h,
    Reading.readText .plain markedText = .ok g ∧
    Reading.readText .weighted clashingText = .ok h ∧
      (∃ c, (run false (standard .plain) g).result = .ok c) ∧
      (run false (standard .weighted) h).result = .error ⟨"UnitProductionsStep", .clash 'a' "S" .inherited⟩ ∧
      ∀ failure, (run false (standard .weighted) h).result = .error failure →
        ∃ letter owner present, failure = ⟨unitProductions.name, .clash letter owner present⟩ := by
  obtain ⟨g, plain, -⟩ := markedSample
  obtain ⟨h, weighted, failed⟩ := clashingSample
  refine ⟨g, h, plain, weighted, (standard_fails_for_clashes_only plain).1 rfl, ?_,
    (standard_fails_for_clashes_only weighted).2⟩
  cases result : (run false (standard .weighted) h).result with
  | ok c =>
    rw [result] at failed
    cases failed
  | error failure =>
    rw [result] at failed
    rw [eq_of_beq failed]

end Read

end Pipeline

end ContextFree
