import ContextFree.Proofs.Pass.Usefulness
import ContextFree.Proofs.ConvertedText

namespace ContextFree

open Edit Pass

variable {g h c : Grammar} {u : Unit}

namespace Pass

theorem bare_of_removeUseless (ran : removeUseless.Succeeds g u h) (bare : h.productions = []) :
    (∀ name ∈ h.nonterminals, h.start = some name) ∧ ∀ token, token ∉ h.terminals := by
  rw [succeeds_removeUseless.1 ran, usefulPart] at bare ⊢
  rw [Grammar.productions_pruned] at bare
  refine ⟨fun name present => ?_, fun token present => ?_⟩
  · have used := (Grammar.hasSymbol_pruned.1 (show Grammar.hasSymbol _ (.nonterminal name) from present)).2
    rw [Grammar.usesSymbol, bare, List.any_nil, Bool.or_false, beq_iff_eq] at used
    rw [Grammar.start_pruned]
    exact used
  · have used := (Grammar.hasSymbol_pruned.1 (show Grammar.hasSymbol _ (.terminal token) from present)).2
    rw [Grammar.usesSymbol, bare] at used
    cases used

end Pass

namespace Pipeline

theorem Shaped.elaborates {full proper useful separated : Grammar} (shaped : Shaped g full proper useful separated c) :
    Grammar.Elaborates useful c := by
  have separating := elaborates_of_separateAll shaped.coherent.closed shaped.separateRan
  exact separating.trans (elaborates_of_splitAll shaped.separating.closed shaped.splitRan)

theorem applies_of_shaping (coherent : g.Coherent) (ran : (run false shaping g).result = .ok c) :
    ∀ p ∈ c.productions, c.Applies p := by
  obtain ⟨full, proper, useful, separated, shaped⟩ := exists_shaped coherent ran
  exact shaped.elaborates.applies (applies_of_removeUseless shaped.uselessRan)

/-- The last two passes add no names where there is no production, and lose none where there is. -/
theorem bare_of_shaping (coherent : g.Coherent) (ran : (run false shaping g).result = .ok c)
    (bare : c.productions = []) :
    (∀ name ∈ c.nonterminals, c.start = some name) ∧ ∀ token, token ∉ c.terminals := by
  obtain ⟨full, proper, useful, separated, shaped⟩ := exists_shaped coherent ran
  have none : useful.productions = [] := by
    refine List.eq_nil_iff_forall_not_mem.2 fun p rule => ?_
    obtain ⟨sentence, made, -⟩ := (applies_of_removeUseless shaped.uselessRan p rule).generates
    exact Grammar.not_generates bare sentence (shaped.elaborates.generates made)
  obtain rfl := eq_of_separateAll none shaped.separateRan
  obtain rfl := eq_of_splitAll (by simp [none]) shaped.splitRan
  exact bare_of_removeUseless shaped.uselessRan none

section Read

variable {source kind : Kind} {text : String}

/-- In a converted grammar every name and every production is put to use in deriving a sentence from
the start symbol, and there are none just if no sentence is derived. -/
theorem standard_all_used (read : Reading.readText source text = .ok g)
    (ran : (run false (standard kind) g).result = .ok c) :
    (∀ name ∈ c.nonterminals, c.start ≠ some name → c.Occurs (.nonterminal name)) ∧
    (∀ token ∈ c.terminals, ∃ sentence, c.Generates sentence ∧ token ∈ sentence) ∧
    (∀ p ∈ c.productions, c.Applies p) ∧
    (c.productions = [] ↔ ∀ sentence, ¬ c.Generates sentence) := by
  have coherent := coherent_weighed (Reading.coherent_of_readText read) kind
  have shaped := run_standard ran
  have applies := applies_of_shaping coherent shaped
  have empty : c.productions = [] ↔ ∀ sentence, ¬ c.Generates sentence := by
    constructor
    · exact Grammar.not_generates
    · refine fun nothing => List.eq_nil_iff_forall_not_mem.2 fun p rule => ?_
      obtain ⟨sentence, made, -⟩ := (applies p rule).generates
      exact nothing sentence made
  by_cases bare : c.productions = []
  · obtain ⟨names, tokens⟩ := bare_of_shaping coherent shaped bare
    exact ⟨fun name present other => absurd (names name present) other, fun token present =>
      absurd present (tokens token),
      applies, empty⟩
  · have tight := tight_of_shaping coherent shaped bare
    refine ⟨fun name present _ => ?_, fun token present => ?_, applies, empty⟩
    · obtain ⟨p, rule, rfl⟩ := tight.headed name present
      exact (applies p rule).occurs_head
    · obtain ⟨p, rule, inBody⟩ := tight.placed token present
      obtain ⟨sentence, made, holds⟩ := (applies p rule).generates
      exact ⟨sentence, made, holds token inBody⟩

-- B and 'c' are useless, and the terminal of the long body gets a helper.
def ungeneratedText : String := "S = 'a' S A S | A ;\nA = 'a' | B ;\nB = B 'c' ;"

theorem all_used_without_useless : ∃ g c,
    Reading.readText .plain ungeneratedText = .ok g ∧
      (run false (standard .plain) g).result = .ok c ∧
      (∀ name ∈ c.nonterminals, c.start ≠ some name → c.Occurs (.nonterminal name)) ∧
      (∀ token ∈ c.terminals, ∃ sentence, c.Generates sentence ∧ token ∈ sentence) ∧
      (∀ p ∈ c.productions, c.Applies p) ∧
      (c.productions = [] ↔ ∀ sentence, ¬ c.Generates sentence) := by
  obtain ⟨g, c, read, -, ran⟩ := exists_converted .plain .plain
    ungeneratedText rfl (by decide +kernel)
  exact ⟨g, c, read, ran, standard_all_used read ran⟩

end Read

end Pipeline

end ContextFree
