import ContextFree.Proofs.Pass.Usefulness
import ContextFree.Proofs.Reading.Coherent

namespace ContextFree.Pass

open Edit

variable {g : Grammar} {start : String}

theorem usefulPart_bare_iff (started : g.start = some start) :
    (usefulPart g).productions = [] ↔ ∀ sentence, ¬ g.DerivesFrom start sentence := by
  have useful := uselessRemoved g
  constructor
  · intro bare sentence derived
    refine Grammar.not_generates bare sentence ⟨start, useful.start.trans started, ?_⟩
    exact (useful.derives_iff start started sentence).2 derived
  · intro nothing
    refine List.eq_nil_iff_forall_not_mem.2 fun p rule => ?_
    obtain ⟨sentence, ⟨first, same, derived⟩, -⟩ := (mem_usefulPart_iff.1 rule).generates
    cases started.symm.trans same
    exact nothing sentence derived

theorem mem_tables_usefulPart (closed : g.Closed) (started : g.start = some start) (known : start ∈ g.nonterminals) :
    (∀ name, name ∈ (usefulPart g).nonterminals ↔
      name = start ∨ ∃ p ∈ (usefulPart g).productions, p.head = name ∨ .nonterminal name ∈ p.body) ∧
    ∀ token, token ∈ (usefulPart g).terminals ↔ ∃ p ∈ (usefulPart g).productions, .terminal token ∈ p.body := by
  have sameStart : (usefulPart g).start = some start := start_usefulPart.trans started
  have tabled : ∀ symbol, (usefulPart g).hasSymbol symbol ↔ g.hasSymbol symbol ∧
      (usefulPart g).usesSymbol symbol = true := by
    intro symbol
    refine ⟨fun present => ⟨?_, Grammar.used_pruned present⟩, fun ⟨present, used⟩ => ?_⟩
    · exact Grammar.hasSymbol_productions.1 (Grammar.hasSymbol_pruned.1 present).1
    · refine Grammar.hasSymbol_pruned.2 ⟨Grammar.hasSymbol_productions.2 present, ?_⟩
      rwa [← Grammar.usesSymbol_pruned]
  constructor
  · intro name
    show (usefulPart g).hasSymbol (.nonterminal name) ↔ _
    rw [tabled, Grammar.usesSymbol_nonterminal, sameStart, Option.some.injEq, eq_comm (a := start)]
    refine and_iff_right_of_imp fun mentioned => ?_
    rcases mentioned with rfl | ⟨p, rule, rfl | inBody⟩
    · exact known
    · exact (closed p (usefulPart_subset rule)).1
    · exact (closed p (usefulPart_subset rule)).2 _ inBody
  · intro token
    show (usefulPart g).hasSymbol (.terminal token) ↔ _
    rw [tabled, Grammar.usesSymbol_terminal]
    refine and_iff_right_of_imp fun mentioned => ?_
    obtain ⟨p, rule, inBody⟩ := mentioned
    exact (closed p (usefulPart_subset rule)).2 _ inBody

open Classical in
/-- The pass is never refused. It leaves the productions that are put to use, the names that they mention
and the start symbol, all in their old order. The start symbol derives what it derived before, and the
pass warns just if that is nothing. A second run finds nothing to remove. -/
theorem uselessSymbols_exact (closed : g.Closed) (started : g.start = some start) (known : start ∈ g.nonterminals) :
    ∃ h, uselessSymbols.run.Succeeds g () h ∧ h.start = some start ∧
      (∀ sentence, h.DerivesFrom start sentence ↔ g.DerivesFrom start sentence) ∧
      h.productions = g.productions.filter (g.Applies ·) ∧
      (h.nonterminals.names.Sublist g.nonterminals.names ∧ ∀ name, name ∈ h.nonterminals ↔
        name = start ∨ ∃ p ∈ h.productions, p.head = name ∨ .nonterminal name ∈ p.body) ∧
      (h.terminals.names.Sublist g.terminals.names ∧ ∀ token, token ∈ h.terminals ↔
        ∃ p ∈ h.productions, .terminal token ∈ p.body) ∧
      (∀ text, ⟨.warning, text⟩ ∈ (uselessSymbols.run g).log ↔
        text = "The grammar generates no strings" ∧ ∀ sentence, ¬ g.DerivesFrom start sentence) ∧
      uselessSymbols.run.Succeeds h () h := by
  have ran : removeUseless.Succeeds g () (usefulPart g) := succeeds_removeUseless.2 rfl
  have useful := uselessRemoved g
  obtain ⟨nonterminals, terminals⟩ := mem_tables_usefulPart closed started known
  obtain ⟨nonterminalOrder, terminalOrder⟩ := Grammar.tables_pruned (reachablePart (generatingPart g))
  refine ⟨usefulPart g, ran, useful.start.trans started, useful.derives_iff start started, productions_usefulPart g,
    ⟨nonterminalOrder, nonterminals⟩, ⟨terminalOrder, terminals⟩, fun text => ?_, ?_⟩
  · show ⟨.warning, text⟩ ∈ (removeUseless g).log ↔ _
    rw [mem_log_removeUseless, usefulPart_bare_iff started]
  · exact succeeds_removeUseless.2 (usefulPart_again g).symm

-- B never ends, so the first rule of S is useless, and A with it, although S leads to A.
def uselessText : String := "S = A B | C | 'a' S | '' ;\nA = 'b' ;\nB = B 'x' ;\nC = C ;\nD = 'd' S ;"

def uselessSample : Reading.Sample .plain uselessText
    (fun g => g.start == some "S") := .ofChars rfl (by decide +kernel)

open Classical in
theorem uselessSymbols_exact_of_misled : ∃ g,
    Reading.readText .plain uselessText = .ok g ∧
      g.Closed ∧ g.start = some "S" ∧ "S" ∈ g.nonterminals ∧
      ∃ h, uselessSymbols.run.Succeeds g () h ∧ h.start = some "S" ∧
        (∀ sentence, h.DerivesFrom "S" sentence ↔ g.DerivesFrom "S" sentence) ∧
        h.productions = g.productions.filter (g.Applies ·) ∧ uselessSymbols.run.Succeeds h () h := by
  obtain ⟨g, read, passes⟩ := uselessSample
  have coherent := Reading.coherent_of_readText read
  have started : g.start = some "S" := eq_of_beq passes
  have known := coherent.start_known "S" started
  obtain ⟨h, ran, start, derives, productions, -, -, -, again⟩ := uselessSymbols_exact coherent.closed started known
  exact ⟨g, read, coherent.closed, started, known, h, ran, start, derives, productions, again⟩

end ContextFree.Pass
