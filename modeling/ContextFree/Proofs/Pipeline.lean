import ContextFree.Pipeline
import ContextFree.Proofs.Pass.EmptyString
import ContextFree.Proofs.Pass.SplitBodies
import ContextFree.Proofs.Pass.UnitProductions
import ContextFree.Proofs.Pass.UselessSymbols
import ContextFree.Proofs.Reading.Coherent

namespace ContextFree

open Edit Pass

namespace Pipeline

variable {g h c : Grammar} {u : Unit}

theorem run_cons_iff {pass : Pass} {rest : List Pass} : (run false (pass :: rest) g).result = .ok c ↔
    ∃ h, pass.run.Succeeds g () h ∧ (run false rest h).result = .ok c := by
  simp only [run, Succeeds]
  cases result : (pass.run g).result with
  | ok _ =>
    constructor
    · exact fun rest => ⟨_, ⟨rfl, rfl⟩, rest⟩
    · rintro ⟨_, ⟨-, rfl⟩, rest⟩
      exact rest
  | error fault => simp

theorem run_nil_iff : (run false [] g).result = .ok c ↔ g = c := by
  rw [run, Except.ok.injEq]

def shaping : List Pass := [.emptyString, .unitProductions, .uselessSymbols, .separateTerminals, .splitBodies]

/-- What the passes that change the shape of productions make of a grammar. -/
structure Normalised (g c : Grammar) : Prop where
  coherent : c.Coherent
  normal : c.isNormal = true
  start : ∀ name, g.start = some name → c.start = some name
  derives_iff : ∀ name, g.start = some name → ∀ sentence,
    c.DerivesFrom name sentence ↔ sentence ≠ [] ∧ g.DerivesFrom name sentence

/-- A successful run of those passes, with the grammars between them and what the passes made of each. -/
structure Shaped (g full proper useful separated c : Grammar) : Prop where
  emptyRan : removeEmptyString.Succeeds g () full
  noEmpty : EmptyRemoved g full
  unitsRan : removeUnits.Succeeds full () proper
  noUnits : UnitsRemoved full proper
  uselessRan : removeUseless.Succeeds proper () useful
  noUseless : UselessRemoved proper useful
  separateRan : separateAll.Succeeds useful () separated
  separating : Grammar.Conserves useful separated
  splitRan : splitAll.Succeeds separated () c
  splitting : Grammar.Conserves separated c

theorem exists_shaped (coherent : g.Coherent) (ran : (run false shaping g).result = .ok c) :
    ∃ full proper useful separated, Shaped g full proper useful separated c := by
  simp only [shaping, run_cons_iff, run_nil_iff] at ran
  obtain ⟨full, emptyRan, proper, unitsRan, useful, uselessRan, separated, separateRan, split, splitRan, rfl⟩ := ran
  have noEmpty := emptyRemoved_of_succeeds coherent emptyRan
  have noUnits := unitsRemoved_of_succeeds noEmpty.coherent unitsRan
  have noUseless := uselessRemoved_of_succeeds uselessRan
  have separating := conserves_of_separateAll (noUseless.coherent noUnits.coherent).closed separateRan
  have splitting := conserves_of_splitAll separating.closed splitRan
  exact ⟨full, proper, useful, separated, emptyRan, noEmpty, unitsRan, noUnits, uselessRan, noUseless, separateRan,
    separating, splitRan, splitting⟩

namespace Shaped

variable {full proper useful separated : Grammar}

theorem coherent (shaped : Shaped g full proper useful separated c) : useful.Coherent :=
  shaped.noUseless.coherent shaped.noUnits.coherent

/-- What separation asks for is won by the first two passes, and the third only takes away. -/
theorem shape (shaped : Shaped g full proper useful separated c) :
    ∀ p ∈ useful.productions, (p.body ≠ [] ∧ Symbol.empty ∉ p.body) ∧ p.isUnit = false := by
  intro p rule
  obtain ⟨notUnit, origin, old, same⟩ := shaped.noUnits.body_of_mem (shaped.noUseless.subset rule)
  have whole := shaped.noEmpty.varied.full old
  rw [same] at whole
  exact ⟨whole, notUnit⟩

theorem separates (shaped : Shaped g full proper useful separated c) :
    ∀ p ∈ separated.productions, Separated [] p.body :=
  separated_of_separateAll shaped.coherent.closed shaped.shape shaped.separateRan

end Shaped

theorem normalised_of_shaping (coherent : g.Coherent) (ran : (run false shaping g).result = .ok c) :
    Normalised g c := by
  obtain ⟨full, proper, useful, separated, shaped⟩ := exists_shaped coherent ran
  have separating := shaped.separating
  have splitting := shaped.splitting
  have starts : ∀ name, g.start = some name → proper.start = some name := fun name start =>
    shaped.noUnits.start name (shaped.noEmpty.start name start)
  refine ⟨splitting.coherent (separating.coherent shaped.coherent), ?_, fun name start => ?_,
    fun name start sentence => ?_⟩
  · exact normal_of_splitAll separating.closed shaped.separates shaped.splitRan
  · apply splitting.start
    apply separating.start
    rw [shaped.noUseless.start]
    exact starts name start
  · have known : name ∈ useful.nonterminals :=
      shaped.coherent.start_known name (shaped.noUseless.start.trans (starts name start))
    calc c.DerivesFrom name sentence
        ↔ separated.DerivesFrom name sentence :=
          splitting.derives name (separating.symbols (.nonterminal name) known) sentence
      _ ↔ useful.DerivesFrom name sentence := separating.derives name known sentence
      _ ↔ proper.DerivesFrom name sentence := shaped.noUseless.derives_iff name (starts name start) sentence
      _ ↔ full.DerivesFrom name sentence := shaped.noUnits.derives_iff shaped.noEmpty.coherent.closed name sentence
      _ ↔ sentence ≠ [] ∧ g.DerivesFrom name sentence := shaped.noEmpty.varied.derives_iff name sentence

/-- Without the productions of weight zero, which are only dropped where weights mean something. -/
def weighed (kind : Kind) (g : Grammar) : Grammar :=
  match kind with
  | .plain => g
  | .weighted => { g with productions := g.productions.filter fun p => !p.weight.isZero }

theorem run_standard_eq (kind : Kind) (g : Grammar) :
    (run false (standard kind) g).result = (run false shaping (weighed kind g)).result := by
  cases kind <;> rfl

theorem run_standard {kind : Kind} (ran : (run false (standard kind) g).result = .ok c) :
    (run false shaping (weighed kind g)).result = .ok c := (run_standard_eq kind g).symm.trans ran

theorem coherent_weighed (coherent : g.Coherent) (kind : Kind) : (weighed kind g).Coherent := by
  cases kind with
  | plain => exact coherent
  | weighted => exact coherent.keeping _

theorem start_weighed (kind : Kind) (g : Grammar) : (weighed kind g).start = g.start := by
  cases kind <;> rfl

theorem productions_weighed (g : Grammar) : (weighed g.kind g).productions = g.counted := by
  unfold weighed Grammar.counted
  cases g.kind <;> rfl

theorem normalised_of_standard {kind : Kind} (coherent : g.Coherent)
    (ran : (run false (standard kind) g).result = .ok c) : Normalised (weighed kind g) c :=
  normalised_of_shaping (coherent_weighed coherent kind) (run_standard ran)

theorem start_of_standard {kind : Kind} {start : String} (coherent : g.Coherent) (started : g.start = some start)
    (ran : (run false (standard kind) g).result = .ok c) : c.start = some start := by
  apply (normalised_of_standard coherent ran).start
  rw [start_weighed, started]

theorem derives_of_standard {start : String} (coherent : g.Coherent) (started : g.start = some start)
    (ran : (run false (standard g.kind) g).result = .ok c) (sentence : Sentence) :
    c.DerivesFrom start sentence ↔ sentence ≠ [] ∧ Derives g.counted [.nonterminal start] sentence := by
  have begins : (weighed g.kind g).start = some start := (start_weighed g.kind g).trans started
  rw [(normalised_of_standard coherent ran).derives_iff start begins, Grammar.DerivesFrom, productions_weighed]

theorem exists_converted (source kind : Kind) (text : String) {chars : List Char} (spelled : String.ofList chars = text)
    (ends : (Reading.readChars source chars).toOption.any (fun g =>
      !g.isEmpty && (run false (standard kind) g).result.toOption.isSome) = true) :
    ∃ g c, Reading.readText source text = .ok g ∧ g.productions ≠ [] ∧
      (run false (standard kind) g).result = .ok c := by
  obtain ⟨g, read, passes⟩ := Reading.exists_of_written source text spelled _ ends
  obtain ⟨rules, converts⟩ := Bool.and_eq_true_iff.1 passes
  cases ran : (run false (standard kind) g).result with
  | error failure =>
    rw [ran] at converts
    cases converts
  | ok c =>
    refine ⟨g, c, read, fun none => ?_, ran⟩
    rw [Grammar.isEmpty, none] at rules
    cases rules

section Read

variable {source kind : Kind} {text : String}

/-- Conversion keeps the start symbol and, but for the empty sentence, what it derives. -/
theorem standard_keeps_language (read : Reading.readText kind text = .ok g) (rules : g.productions ≠ [])
    (ran : (run false (standard kind) g).result = .ok c) :
    ∃ start, g.start = some start ∧ c.start = some start ∧
      ∀ sentence, c.DerivesFrom start sentence ↔
        sentence ≠ [] ∧ Derives g.counted [.nonterminal start] sentence := by
  have coherent := Reading.coherent_of_readText read
  obtain ⟨start, started⟩ := coherent.started rules
  rw [← Reading.kind_of_readText read] at ran
  exact ⟨start, started, start_of_standard coherent started ran, derives_of_standard coherent started ran⟩

def zeroWeightText : String := "S -0-> 'c' ;\nS -2-> 'a' S 'b' ;\nS -1-> '' ;"

theorem keeps_language_without_zero_weights : ∃ g c,
    Reading.readText .weighted zeroWeightText = .ok g ∧
      g.productions ≠ [] ∧ (run false (standard .weighted) g).result = .ok c ∧
      ∃ start, g.start = some start ∧ c.start = some start ∧
        ∀ sentence, c.DerivesFrom start sentence ↔
          sentence ≠ [] ∧ Derives g.counted [.nonterminal start] sentence := by
  obtain ⟨g, c, read, rules, ran⟩ := exists_converted .weighted .weighted
    zeroWeightText rfl (by decide +kernel)
  exact ⟨g, c, read, rules, ran, standard_keeps_language read rules ran⟩

/-- Conversion ends in Chomsky normal form, with every name that is mentioned in its table. The
passes may be those of another kind of grammar. -/
theorem standard_normal_and_closed (read : Reading.readText source text = .ok g)
    (ran : (run false (standard kind) g).result = .ok c) :
    (∀ p ∈ c.productions, (∃ token, p.body = [.terminal token]) ∨
      ∃ left right, p.body = [.nonterminal left, .nonterminal right]) ∧
    c.Closed ∧ ∀ start, g.start = some start → c.start = some start ∧ start ∈ c.nonterminals := by
  have coherent := Reading.coherent_of_readText read
  have normalised := normalised_of_standard coherent ran
  refine ⟨fun p rule => ?_, normalised.coherent.closed, fun start started => ?_⟩
  · exact Grammar.isNormalBody_iff.1 (List.all_eq_true.1 normalised.normal p rule)
  · have kept := start_of_standard coherent started ran
    exact ⟨kept, normalised.coherent.start_known start kept⟩

def longBodyText : String := "S = 'a' S '' S 'b' | A ;\nA = '' | 'a' ;"

theorem normal_and_closed_of_long_body : ∃ g c,
    Reading.readText .plain longBodyText = .ok g ∧
      (run false (standard .plain) g).result = .ok c ∧
      (∀ p ∈ c.productions, (∃ token, p.body = [.terminal token]) ∨
        ∃ left right, p.body = [.nonterminal left, .nonterminal right]) ∧
      c.Closed ∧ ∀ start, g.start = some start → c.start = some start ∧ start ∈ c.nonterminals := by
  obtain ⟨g, c, read, -, ran⟩ := exists_converted .plain .plain
    longBodyText rfl (by decide +kernel)
  exact ⟨g, c, read, ran, standard_normal_and_closed read ran⟩

end Read

end Pipeline

end ContextFree
