import ContextFree.Proofs.Pass.Provenance
import ContextFree.Proofs.Pass.Settled
import ContextFree.Proofs.UsefulSymbols

namespace ContextFree

open Edit Pass

variable {g c : Grammar}

namespace Pipeline

theorem used_of_shaping (coherent : g.Coherent) (ran : (run false shaping g).result = .ok c) :
    ∀ symbol, c.hasSymbol symbol → c.usesSymbol symbol = true := by
  by_cases bare : c.productions = []
  · obtain ⟨names, tokens⟩ := bare_of_shaping coherent ran bare
    intro symbol present
    cases symbol with
    | nonterminal name =>
      rw [Grammar.usesSymbol, names name present, beq_self_eq_true, Bool.true_or]
    | terminal token => exact absurd present (tokens token)
    | empty => rfl
  · have tight := tight_of_shaping coherent ran bare
    intro symbol present
    cases symbol with
    | nonterminal name =>
      obtain ⟨p, rule, rfl⟩ := tight.headed name present
      exact (Grammar.uses_of_mentions rule).1
    | terminal token =>
      obtain ⟨p, rule, inBody⟩ := tight.placed token present
      exact (Grammar.uses_of_mentions rule).2 _ inBody
    | empty => rfl

theorem arranged_of_shaping (coherent : g.Coherent) (ran : (run false shaping g).result = .ok c) : c.Arranged := by
  obtain ⟨full, proper, useful, separated, shaped⟩ := exists_shaped coherent ran
  exact shaped.keeps robust_arranged (arranged_of_removeUnits shaped.unitsRan)

/-- A helper has weight one, and every other production the weight of one that was there. -/
theorem nonzero_of_shaping (coherent : g.Coherent) (nonzero : ∀ p ∈ g.productions, p.weight.isZero = false)
    (ran : (run false shaping g).result = .ok c) : ∀ p ∈ c.productions, p.weight.isZero = false := by
  intro p rule
  rcases carries_of_shaping coherent ran p rule with helper | carried
  · rw [helper.weight]
    decide
  · obtain ⟨q, old, same⟩ := List.mem_map.1 carried
    rw [← same]
    exact nonzero q old

theorem settled_of_standard {kind : Kind} (coherent : g.Coherent) (legal : g.Legal)
    (ran : (run false (standard kind) g).result = .ok c) : Settled c where
  coherent := (normalised_of_standard coherent ran).coherent
  legal := stable_legal.of_run (List.Subset.refl _) ran legal
  normal := (normalised_of_standard coherent ran).normal
  used := used_of_shaping (coherent_weighed coherent kind) (run_standard ran)
  applies := applies_of_shaping (coherent_weighed coherent kind) (run_standard ran)
  arranged := arranged_of_shaping (coherent_weighed coherent kind) (run_standard ran)

theorem run_shaping_of_settled (settled : Settled g) : (run false shaping g).result = .ok g.withDistinctRules := by
  have again := settled.withDistinctRules
  have same : g.withDistinctRules.withDistinctRules = g.withDistinctRules := by
    have once := Production.distinctRules_of_distinct (Production.distinct_distinctRules g.productions)
    rw [Grammar.withDistinctRules, Grammar.withDistinctRules, once]
  have units := again.removeUnits
  rw [same] at units
  simp only [shaping, run_cons_iff, run_nil_iff]
  exact ⟨_, settled.removeEmptyString, _, units, _, again.removeUseless, _, again.separateAll, _, again.splitAll, rfl⟩

section Read

variable {source kind : Kind} {text : String}

/-- What was converted once is converted to itself with each rule left once, and so to itself just if
no rule is there twice. -/
theorem standard_again (read : Reading.readText source text = .ok g)
    (ran : (run false (standard kind) g).result = .ok c) :
    (run false (standard kind) c).result = .ok { c with productions := Production.distinctRules c.productions } ∧
      ((run false (standard kind) c).result = .ok c ↔ Production.Distinct c.productions) := by
  have coherent := Reading.coherent_of_readText read
  have settled := settled_of_standard coherent (Reading.legal_of_readText read) ran
  have shaped := run_shaping_of_settled settled
  have again : (run false (standard kind) c).result = .ok c.withDistinctRules := by
    cases kind with
    | plain => exact shaped
    | weighted =>
      have nonzero := nonzero_of_shaping (coherent_weighed coherent .weighted)
        (fun p rule => by simpa using (List.mem_filter.1 rule).2) (run_standard ran)
      exact run_cons_iff.2 ⟨c, succeeds_removeZeroWeights nonzero, shaped⟩
  refine ⟨again, ?_⟩
  rw [again, Except.ok.injEq]
  constructor
  · intro same
    have kept : Production.distinctRules c.productions = c.productions := congrArg Grammar.productions same
    rw [← kept]
    exact Production.distinct_distinctRules c.productions
  · intro distinct
    rw [Grammar.withDistinctRules, Production.distinctRules_of_distinct distinct]

-- The wished name of the helper is taken, so that it gets a number.
def takenNameText : String :=
  "S\x7b;a\x7d -$a-> 'a' S\x7ba\x7d 'a' ;\nS\x7b;a\x7d -0-> 'c' ;\nS\x7b;a\x7d -2-> T-a ;\nT-a -0.5-> 'b' ;\nT-a -1-> 'a' ;"

theorem standard_again_with_taken_name : ∃ g c,
    Reading.readText .weighted takenNameText = .ok g ∧
      (run false (standard .weighted) g).result = .ok c ∧
      (run false (standard .weighted) c).result = .ok { c with productions := Production.distinctRules c.productions } ∧
      ((run false (standard .weighted) c).result = .ok c ↔ Production.Distinct c.productions) := by
  obtain ⟨g, c, read, -, ran⟩ := exists_converted .weighted .weighted
    takenNameText rfl (by decide +kernel)
  exact ⟨g, c, read, ran, standard_again read ran⟩

def repeatedRuleText : String := "S = 'a' B | T-a B ;\nB = 'b' ;\nT-a = 'a' ;"

/-- A helper that the text has already makes two rules one, and both are kept until the next conversion. -/
theorem standard_repeats_rule : ∃ g c d, Reading.readText .plain repeatedRuleText = .ok g ∧
    (run false (standard .plain) g).result = .ok c ∧ ¬ Production.Distinct c.productions ∧
    (run false (standard .plain) c).result = .ok d ∧ d.text ≠ c.text := by
  obtain ⟨g, read, passes⟩ := Reading.exists_of_written .plain repeatedRuleText rfl
    (fun g => (run false (standard .plain) g).result.toOption.any fun c =>
      !decide (Production.Distinct c.productions) &&
      (run false (standard .plain) c).result.toOption.any fun d => d.text != c.text) (by decide +kernel)
  cases ran : (run false (standard .plain) g).result with
  | error failure => rw [ran] at passes; cases passes
  | ok c =>
    rw [ran] at passes
    obtain ⟨repeated, later⟩ := Bool.and_eq_true_iff.1 passes
    cases again : (run false (standard .plain) c).result with
    | error failure => rw [again] at later; cases later
    | ok d =>
      rw [again] at later
      exact ⟨g, c, d, read, ran, by simpa using repeated, again, bne_iff_ne.1 later⟩

end Read

end Pipeline

end ContextFree
