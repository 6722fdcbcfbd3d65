import ContextFree.Proofs.ConvertedText
import ContextFree.Proofs.Continuation
import ContextFree.Proofs.Pass.Referring

namespace ContextFree

open Edit Pass

variable {g h c : Grammar}

namespace Reading

theorem referring_of_readText {text : String} (read : readText .weighted text = .ok g) : g.Referring where
  weighted := kind_of_readText read
  orderly := (readable_of_readText read).orderly
  tabled := by
    apply readText_induction_of_merged _ _ _ read
    · intro name attributes entry
      cases entry
    · intro k p _ _ tabled
      exact tabled.added p
    · intro name source
      apply keeps_mergeAttributes_of_step
      intro k few known _ _ tabled
      exact tabled.withAttributes known _

end Reading

namespace Pipeline

variable {passes : List Pass}

def left (passes : List Pass) (g : Grammar) : Grammar := passes.foldl (fun h pass => (pass.run h).grammar) g

theorem run_goOn_eq (passes : List Pass) (g : Grammar) : (run true passes g).result = .ok (left passes g) := by
  induction passes generalizing g with
  | nil => rfl
  | cons pass rest ih => rw [run_goOn_cons, ih, left, left, List.foldl_cons]

theorem eq_left_of_run (ran : (run false passes g).result = .ok c) : c = left passes g := by
  induction passes generalizing g with
  | nil => exact (run_nil_iff.1 ran).symm
  | cons pass rest ih =>
    obtain ⟨h, one, others⟩ := run_cons_iff.1 ran
    rw [left, List.foldl_cons, one.2]
    exact ih others

theorem referring_left_of_late (late : ∀ pass ∈ passes, pass ∈ [uselessSymbols, separateTerminals, splitBodies])
    (referring : g.Referring) : (left passes g).Referring := by
  induction passes generalizing g with
  | nil => exact referring
  | cons pass rest ih =>
    have first := robust_referring.keeps_late (late pass List.mem_cons_self) g referring
    exact ih (fun other listed => late other (List.mem_cons_of_mem pass listed)) first

-- Names are only needed to be known up to the second pass, which is not refused then.
theorem referring_left (coherent : g.Coherent) (legal : g.Legal) (referring : g.Referring)
    (front : passes <+: standard .weighted) : (left passes g).Referring := by
  rcases List.prefix_cons_iff.1 front with rfl | ⟨passes, rfl, second⟩
  · exact referring
  have weighed : (zeroWeights.run g).grammar.Referring := robust_referring.keeps_zeroWeights g referring
  rcases List.prefix_cons_iff.1 second with rfl | ⟨passes, rfl, third⟩
  · exact weighed
  have full : (emptyString.run (zeroWeights.run g).grammar).grammar.Referring :=
    referring_of_removeEmptyString (coherent_weighed coherent .weighted) (legal_weighed legal .weighted) weighed
  rcases List.prefix_cons_iff.1 third with rfl | ⟨passes, rfl, late⟩
  · exact full
  apply @referring_left_of_late _ passes _ (referring_of_removeUnits full)
  intro pass listed
  exact late.subset listed

section Read

variable {text : String}

/-- After any prefix of the passes, also right after a refusal, each weight that refers to an attribute
refers to one of its head's, each entry belongs to a name of the table, and no letter is both
inherited and synthesized. -/
theorem references_defined (read : Reading.readText .weighted text = .ok g) (front : passes <+: standard .weighted) :
    ∃ h, (run true passes g).result = .ok h ∧ (∀ c, (run false passes g).result = .ok c → c = h) ∧
      (∀ p ∈ h.productions, ∀ kind letter, p.weight = .attribute kind letter →
        letter ∈ (h.attributesOf p.head).ofKind kind) ∧
      (∀ name attributes, h.attributesOf? name = some attributes → name ∈ h.nonterminals) ∧
      ∀ name ∈ h.nonterminals, (∀ letter ∈ (h.attributesOf name).inherited,
        letter ∉ (h.attributesOf name).synthesized) ∧
        ∀ letter ∈ (h.attributesOf name).static, 'a' ≤ letter ∧ letter ≤ 'z' := by
  obtain ⟨-, orderly, tabled⟩ := referring_left (Reading.coherent_of_readText read) (Reading.legal_of_readText read)
    (Reading.referring_of_readText read) front
  refine ⟨left passes g, run_goOn_eq passes g, fun c => eq_left_of_run, ?_, tabled, ?_⟩
  · intro p rule
    exact (orderly.fits p rule).declared
  · intro name _
    refine ⟨orderly.apart name, fun letter member => ?_⟩
    have lower := orderly.lowercase name letter member
    rwa [Letters.isLetter, Bool.and_eq_true, decide_eq_true_eq, decide_eq_true_eq] at lower

-- Merging stops at the letter that is synthesized in A, when one letter of A is taken over already.
def referringText : String :=
  "S\x7ba;\x7d -2-> 'b' 'c' ;\nS\x7ba;\x7d -1-> A ;\nA\x7bb;a\x7d -$a-> 'a' ;\nA\x7bb;a\x7d -&b-> A 'b' ;"

theorem references_defined_after_refusal : ∃ g, Reading.readText .weighted
      referringText = .ok g ∧
    (run false [.zeroWeights, .emptyString, .unitProductions] g).result.toOption = none ∧
    ∃ h, (run true [.zeroWeights, .emptyString, .unitProductions] g).result = .ok h ∧
      (∀ c, (run false [.zeroWeights, .emptyString, .unitProductions] g).result = .ok c → c = h) ∧
      (∀ p ∈ h.productions, ∀ kind letter, p.weight = .attribute kind letter →
        letter ∈ (h.attributesOf p.head).ofKind kind) ∧
      (∀ name attributes, h.attributesOf? name = some attributes → name ∈ h.nonterminals) ∧
      ∀ name ∈ h.nonterminals, (∀ letter ∈ (h.attributesOf name).inherited,
        letter ∉ (h.attributesOf name).synthesized) ∧
        ∀ letter ∈ (h.attributesOf name).static, 'a' ≤ letter ∧ letter ≤ 'z' := by
  obtain ⟨g, read, fails⟩ := Reading.exists_of_written .weighted
    referringText rfl
    (fun g => (run false [.zeroWeights, .emptyString, .unitProductions] g).result.toOption.isNone) (by decide +kernel)
  exact ⟨g, read, Option.isNone_iff_eq_none.1 fails, references_defined read ⟨_, rfl⟩⟩

end Read

end Pipeline

end ContextFree
