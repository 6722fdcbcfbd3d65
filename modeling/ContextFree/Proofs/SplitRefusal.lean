import ContextFree.Proofs.Pass.Marks
import ContextFree.Proofs.Reading.Coherent

namespace ContextFree.Pass

open Edit

variable {g : Grammar}

/-- Marks inside a body are all that the pass is ever refused for. It stops at the first body with one, and
leaves that production, and no other, without its body. -/
theorem splitBodies_refused_for_marks_only (closed : g.Closed)
    (valid : ∀ p ∈ g.productions, checkProduction p = .ok ()) :
    (splitBodies.run.Runs g ↔ ∀ p ∈ g.productions, Unmarked (inner p.body)) ∧
      (∀ h, splitBodies.run.Succeeds g () h → ∀ p ∈ h.productions, p.body ≠ []) ∧
      ∀ fault h, splitBodies.run.Fails g fault h → IsMark fault ∧
        ∃ before p after split behind, g.productions = before ++ p :: after ∧ (∀ q ∈ before, Unmarked (inner q.body)) ∧
          ¬ Unmarked (inner p.body) ∧ split.length = before.length ∧
          h.productions = split ++ { p with body := [] } :: behind ∧ ∀ q ∈ split ++ behind, q.body ≠ [] := by
  have legal : ∀ p ∈ g.productions, p.Legal := fun p rule => (Production.checkProduction_iff_legal.1 (valid p rule)).2
  have filled : ∀ p ∈ g.productions, p.body ≠ [] := fun p rule => (checkProduction_iff.1 (valid p rule)).1
  refine ⟨⟨fun ⟨_, h, ran⟩ => ?_, runs_splitAll_of_unmarked closed legal⟩, fun h ran => ?_, fun fault h failed => ?_⟩
  · exact (splitAll_unmarked closed legal ran).1
  · exact (splitAll_unmarked closed legal ran).2 filled
  · exact fails_splitAll closed legal filled failed

example : Unmarked (inner [.terminal "-a", .nonterminal "A", .terminal "#"]) ∧
    ¬ Unmarked (inner [.nonterminal "A", .terminal "-", .terminal "b"]) := by decide

-- Marks do no harm at either end of a body, as in the rule of A.
def hashedText : String := "A = '-a' A '#' ;\nS = A '#b' A ;\nS = 'c' ;"

def hashedSample : Reading.Sample .plain hashedText (fun g =>
    decide
      ((splitBodies.run g).result = .error (.invalid (.leadingName "#b-A" '#')))) := .ofChars rfl (by decide +kernel)

theorem splitBodies_refused_for_mark : ∃ g h, Reading.readText .plain hashedText = .ok g ∧
    g.Closed ∧ (∀ p ∈ g.productions, checkProduction p = .ok ()) ∧
      splitBodies.run.Fails g (.invalid (.leadingName "#b-A" '#')) h ∧
        ¬ (∀ p ∈ g.productions, Unmarked (inner p.body)) ∧
      ∃ before p after split behind, g.productions = before ++ p :: after ∧ ¬ Unmarked (inner p.body) ∧
        h.productions = split ++ { p with body := [] } :: behind ∧ ∀ q ∈ split ++ behind, q.body ≠ [] := by
  obtain ⟨g, read, passes⟩ := hashedSample
  have closed := (Reading.coherent_of_readText read).closed
  have valid : ∀ p ∈ g.productions, checkProduction p = .ok () := fun p => (Reading.wellFormed_of_readText read).checked
  have failed : splitBodies.run.Fails g _ (splitBodies.run g).grammar := ⟨of_decide_eq_true passes, rfl⟩
  obtain ⟨exact, -, refusal⟩ := splitBodies_refused_for_marks_only closed valid
  obtain ⟨-, before, p, after, split, behind, old, -, inside, -, left, others⟩ := refusal _ _ failed
  refine ⟨g, _, read, closed, valid, failed, fun free => (exact.2 free).not_fails failed, ?_⟩
  exact ⟨before, p, after, split, behind, old, inside, left, others⟩

def dashedText : String := "S = A '-' 'b' ;\nA = 'a' ;"

def dashedSample : Reading.Sample .plain dashedText (fun g =>
    decide ((splitBodies.run g).result = .error (.invalid (.leadingName "--b" '-'))) &&
      (splitBodies.run g).grammar.productions.any fun p => p.body.isEmpty) := .ofChars rfl (by decide +kernel)

/-- The name for a dash in front of a terminal is not legal, and S loses its body. -/
theorem splitBodies_loses_body : ∃ g, Reading.readText .plain dashedText = .ok g ∧ g.Closed ∧
    (∀ p ∈ g.productions, checkProduction p = .ok ()) ∧ ¬ splitBodies.run.Runs g ∧
      ∃ p ∈ (splitBodies.run g).grammar.productions, p.body = [] := by
  obtain ⟨g, read, passes⟩ := dashedSample
  obtain ⟨failed, bare⟩ := Bool.and_eq_true_iff.1 passes
  obtain ⟨p, rule, empty⟩ := List.any_eq_true.1 bare
  have refused : (splitBodies.run g).result = .error _ := of_decide_eq_true failed
  refine ⟨g, read, (Reading.coherent_of_readText read).closed, fun p =>
    (Reading.wellFormed_of_readText read).checked, ?_, ?_⟩
  · exact exists_refuses_iff.1 ⟨_, refused⟩
  · exact ⟨p, rule, List.isEmpty_iff.1 empty⟩

end ContextFree.Pass
