import ContextFree.Proofs.Pass.Totality
import ContextFree.Proofs.Pipeline

namespace ContextFree

open Edit Pass

variable {g h k : Grammar} {u : Unit}

/-- The same start symbol derives no more than before. -/
structure Grammar.Narrows (g h : Grammar) : Prop where
  coherent : h.Coherent
  start : h.start = g.start
  sound : ∀ name, g.start = some name → ∀ sentence, h.DerivesFrom name sentence → g.DerivesFrom name sentence

namespace Grammar

theorem Narrows.trans (first : Narrows g h) (second : Narrows h k) : Narrows g k where
  coherent := second.coherent
  start := second.start.trans first.start
  sound name start sentence derived :=
    first.sound name start sentence (second.sound name (first.start.trans start) sentence derived)

theorem Narrows.generates (narrows : Narrows g h) {sentence : Sentence} (generated : h.Generates sentence) :
    g.Generates sentence := by
  obtain ⟨name, start, derived⟩ := generated
  rw [narrows.start] at start
  exact ⟨name, start, narrows.sound name start sentence derived⟩

theorem Coherent.start_eq (coherent : g.Coherent) (kept : ∀ name, g.start = some name → h.start = some name)
    (bare : g.productions = [] → h.start = g.start) : h.start = g.start := by
  cases start : g.start with
  | some name => exact kept name start
  | none =>
    rw [← start]
    refine bare (Decidable.byContradiction fun rules => ?_)
    obtain ⟨name, started⟩ := coherent.started rules
    rw [start] at started
    cases started

theorem Conserves.narrows (conserves : Conserves g h) (coherent : g.Coherent)
    (bare : g.productions = [] → h.start = g.start) : Narrows g h where
  coherent := conserves.coherent coherent
  start := coherent.start_eq conserves.start bare
  sound name start sentence := (conserves.derives name (coherent.start_known name start) sentence).1

end Grammar

namespace Pass

theorem narrows_of_removeEmptyString (coherent : g.Coherent) (ran : removeEmptyString.Succeeds g u h) :
    Grammar.Narrows g h := by
  have removed := emptyRemoved_of_succeeds coherent ran
  refine ⟨removed.coherent, coherent.start_eq removed.start fun bare => ?_, fun name _ sentence derived => ?_⟩
  · simp only [removeEmptyString, succeeds_bind, succeeds_grammar, succeeds_debug, succeeds_takeProductions] at ran
    obtain ⟨_, _, ⟨rfl, rfl⟩, ⟨direct, deleted⟩, k, cleared, ran⟩ := ran
    obtain ⟨_, _, ⟨rfl, rfl⟩, _, _, rfl, _, l, warned, _, _, ⟨rfl, rfl⟩, looped⟩ := ran
    have cleared := cleared_of_removeEpsilons cleared
    have same : l = k := (@keeps_warnOfStart (fun x => x = k) k _).of_succeeds warned rfl
    rw [same, cleared.productions, bare] at looped
    rw [← succeeds_forM_nil.1 looped]
    exact cleared.start
  · exact ((removed.varied.derives_iff name sentence).1 derived).2

theorem narrows_of_separateAll (coherent : g.Coherent) (ran : separateAll.Succeeds g u h) : Grammar.Narrows g h := by
  refine (conserves_of_separateAll coherent.closed ran).narrows coherent fun bare => ?_
  rw [eq_of_separateAll bare ran]

theorem narrows_of_splitAll (coherent : g.Coherent) (ran : splitAll.Succeeds g u h) : Grammar.Narrows g h := by
  refine (conserves_of_splitAll coherent.closed ran).narrows coherent fun bare => ?_
  rw [eq_of_splitAll (by simp [bare]) ran]

theorem narrows_of_removeUseless (coherent : g.Coherent) (ran : removeUseless.Succeeds g u h) : Grammar.Narrows g h :=
  have removed := uselessRemoved_of_succeeds ran
  ⟨removed.coherent coherent, removed.start, fun name start sentence => (removed.derives_iff name start sentence).1⟩

theorem narrows_of_removeUnits (coherent : g.Coherent) : Grammar.Narrows g (removeUnits g).grammar :=
  have left := unitsLeft_of_removeUnits coherent
  ⟨left.coherent, left.start, fun _ _ _ => left.sound coherent.closed⟩

end Pass

namespace Pipeline

theorem run_goOn_cons (pass : Pass) (rest : List Pass) (g : Grammar) :
    (run true (pass :: rest) g).result = (run true rest (pass.run g).grammar).result := by
  simp only [run]
  cases (pass.run g).result <;> rfl

/-- Without empty bodies and unit productions the remaining passes are never refused. -/
theorem runs_late (coherent : g.Coherent) (legal : g.Legal)
    (shape : ∀ p ∈ g.productions, (p.body ≠ [] ∧ Symbol.empty ∉ p.body) ∧ p.isUnit = false) :
    ∃ useful separated split, removeUseless.Succeeds g () useful ∧ separateAll.Succeeds useful () separated ∧
      (∀ p ∈ separated.productions, Separated [] p.body) ∧ splitAll.Succeeds separated () split := by
  obtain ⟨_, useful, uselessRan⟩ := runs_removeUseless g
  have noUseless := uselessRemoved_of_succeeds uselessRan
  have closedUseful := (noUseless.coherent coherent).closed
  have legalUseful := stable_legal.keeps_removeUseless.of_succeeds uselessRan legal
  obtain ⟨_, separated, separateRan⟩ := runs_separateAll fun p rule => (legalUseful.production closedUseful rule).body
  have conserves := conserves_of_separateAll closedUseful separateRan
  have legalSeparated := stable_legal.keeps_separateAll.of_succeeds separateRan legalUseful
  have separation := separated_of_separateAll closedUseful (fun p rule => shape p (noUseless.subset rule)) separateRan
  obtain ⟨_, split, splitRan⟩ := runs_splitAll conserves.closed legalSeparated separation
  exact ⟨useful, separated, split, uselessRan, separateRan, separation, splitRan⟩

theorem narrows_of_shaping (coherent : g.Coherent) (legal : g.Legal) :
    ∃ c, (run true shaping g).result = .ok c ∧ Grammar.Narrows g c ∧ c.isNormal = true ∧
      ∀ sentence, c.Generates sentence → sentence ≠ [] := by
  obtain ⟨_, full, emptyRan⟩ := runs_removeEmptyString fun p => legal.production coherent.closed
  have noEmpty := emptyRemoved_of_succeeds coherent emptyRan
  have first := narrows_of_removeEmptyString coherent emptyRan
  have legalFull := stable_legal.keeps_removeEmptyString.of_succeeds emptyRan legal
  have noUnits := unitsLeft_of_removeUnits noEmpty.coherent
  have second := narrows_of_removeUnits noEmpty.coherent
  have legalProper := stable_legal.keeps_removeUnits full legalFull
  have shape : ∀ p ∈ (removeUnits full).grammar.productions, (p.body ≠ [] ∧ Symbol.empty ∉ p.body) ∧
      p.isUnit = false := by
    intro p rule
    obtain ⟨origin, old, same⟩ := noUnits.origin rule
    have whole := noEmpty.varied.full old
    rw [same] at whole
    exact ⟨whole, noUnits.not_unit rule⟩
  obtain ⟨useful, separated, split, uselessRan, separateRan, separation, splitRan⟩ :=
    runs_late noUnits.coherent legalProper shape
  have third := narrows_of_removeUseless noUnits.coherent uselessRan
  have fourth := narrows_of_separateAll third.coherent separateRan
  have fifth := narrows_of_splitAll fourth.coherent splitRan
  have rest := second.trans (third.trans (fourth.trans fifth))
  refine ⟨split, ?_, first.trans rest, normal_of_splitAll fourth.coherent.closed separation splitRan,
    fun sentence made => ?_⟩
  · simp only [shaping, run_goOn_cons]
    rw [show (Pass.emptyString.run g).grammar = full from emptyRan.2]
    rw [show (Pass.uselessSymbols.run (Pass.unitProductions.run full).grammar).grammar = useful from uselessRan.2]
    rw [show (Pass.separateTerminals.run useful).grammar = separated from separateRan.2]
    rw [show (Pass.splitBodies.run separated).grammar = split from splitRan.2]
    rfl
  · obtain ⟨name, -, derived⟩ := rest.generates made
    exact ((noEmpty.varied.derives_iff name sentence).1 derived).1

theorem run_goOn_standard (kind : Kind) (g : Grammar) :
    (run true (standard kind) g).result = (run true shaping (weighed kind g)).result := by
  cases kind with
  | plain => rfl
  | weighted => exact run_goOn_cons .zeroWeights shaping g

theorem narrows_weighed (coherent : g.Coherent) (kind : Kind) : Grammar.Narrows g (weighed kind g) := by
  refine ⟨coherent_weighed coherent kind, start_weighed kind g, fun name _ sentence derived => ?_⟩
  cases kind with
  | plain => exact derived
  | weighted => exact derived.mono List.filter_sublist.subset

theorem legal_weighed (legal : g.Legal) (kind : Kind) : (weighed kind g).Legal := by
  cases kind with
  | plain => exact legal
  | weighted => exact legal.with_productions fun p rule => ⟨p, (List.mem_filter.1 rule).1, rfl⟩

section Read

variable {source kind : Kind} {text : String}

/-- Conversion that goes on after failures ends, in a grammar of the same shape that a conversion
without failures ends in, and in that grammar nothing new is derived. -/
theorem goOn_sound (read : Reading.readText source text = .ok g) :
    ∃ c, (run true (standard kind) g).result = .ok c ∧
      (∀ p ∈ c.productions, (∃ token, p.body = [.terminal token]) ∨
        ∃ left right, p.body = [.nonterminal left, .nonterminal right]) ∧
      c.Closed ∧ c.start = g.start ∧ (∀ start, c.start = some start → start ∈ c.nonterminals) ∧
      ∀ sentence, c.Generates sentence → sentence ≠ [] ∧ g.Generates sentence := by
  have coherent := Reading.coherent_of_readText read
  have first := narrows_weighed coherent kind
  obtain ⟨c, ran, shaped, normal, filled⟩ :=
    narrows_of_shaping first.coherent (legal_weighed (Reading.legal_of_readText read) kind)
  have whole := first.trans shaped
  refine ⟨c, (run_goOn_standard kind g).trans ran, fun p rule => ?_, whole.coherent.closed, whole.start,
    whole.coherent.start_known, fun sentence made => ⟨filled sentence made, whole.generates made⟩⟩
  exact Grammar.isNormalBody_iff.1 (List.all_eq_true.1 normal p rule)

-- The unit production makes S take over the attributes of A, where the letter is synthesized.
def interruptedText : String := "S\x7ba;\x7d -2-> 'b' 'c' ;\nS\x7ba;\x7d -1-> A ;\nA\x7b;a\x7d -1-> 'a' ;"

theorem goOn_after_clash : ∃ g, Reading.readText .weighted
      interruptedText = .ok g ∧
    (run false (standard .weighted) g).result.toOption = none ∧
    ∃ c, (run true (standard .weighted) g).result = .ok c ∧
      (∀ p ∈ c.productions, (∃ token, p.body = [.terminal token]) ∨
        ∃ left right, p.body = [.nonterminal left, .nonterminal right]) ∧
      c.Closed ∧ c.start = g.start ∧ (∀ start, c.start = some start → start ∈ c.nonterminals) ∧
      ∀ sentence, c.Generates sentence → sentence ≠ [] ∧ g.Generates sentence := by
  obtain ⟨g, read, fails⟩ := Reading.exists_of_written .weighted
    interruptedText rfl
    (fun g => (run false (standard .weighted) g).result.toOption.isNone) (by decide +kernel)
  exact ⟨g, read, Option.isNone_iff_eq_none.1 fails, goOn_sound read⟩

end Read

end Pipeline

end ContextFree
