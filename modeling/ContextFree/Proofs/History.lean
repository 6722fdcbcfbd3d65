import ContextFree.Proofs.Pass.WellFormed

namespace ContextFree.Grammar

open Edit

/-- The edits that anyone may try on a grammar, but for those that take a given name out of a table. A
test that remembers what it was asked before takes out no more than `removeProduction` can. -/
inductive Operation where
  | addNonterminal (name : String)
  | addTerminal (name : String)
  | setStart (name : String)
  | addProduction (p : Production)
  | insertProduction (index : Nat) (p : Production)
  | removeProduction (index : Nat)
  | removeProductionsOf (head : String)
  | keepProductions (keep : Production → Bool)
  | takeProductions
  | replaceSymbol (source target : Symbol) (removeSource : Bool)
  | removeUnused
  | clear
  | addInherited (name : String) (letter : Char)
  | addSynthesized (name : String) (letter : Char)
  | mergeAttributes (name : String) (source : Attributes)

def Operation.apply (g : Grammar) : Operation → Grammar
  | addNonterminal name => (Edit.addNonterminal name g).grammar
  | addTerminal name => (Edit.addTerminal name g).grammar
  | setStart name => (Edit.setStart name g).grammar
  | addProduction p => (Edit.addProduction p g).grammar
  | insertProduction index p => (Edit.insertProduction index p g).grammar
  | removeProduction index => (Edit.removeProduction index g).grammar
  | removeProductionsOf head => (Edit.removeProductionsOf head g).grammar
  | keepProductions keep => (Edit.keepProductions keep g).grammar
  | takeProductions => (Edit.takeProductions g).grammar
  | replaceSymbol source target removeSource => (Edit.replaceSymbol source target removeSource g).grammar
  | removeUnused => (Edit.removeUnused g).grammar
  | clear => (Edit.clear g).grammar
  | addInherited name letter => (Edit.addInherited name letter g).grammar
  | addSynthesized name letter => (Edit.addSynthesized name letter g).grammar
  | mergeAttributes name source => (Edit.mergeAttributes name source g).grammar

/-- A grammar is made with nothing in it; then it is edited, and passes change it that succeed. -/
inductive Built : Grammar → Prop where
  | new (kind : Kind) : Built { kind }
  | edited {g : Grammar} (operation : Operation) (built : Built g) : Built (operation.apply g)
  | passed {g h : Grammar} {pass : Pass} (listed : pass ∈ Pipeline.standard .weighted) (built : Built g)
      (ran : pass.run.Succeeds g () h) : Built h

variable {g : Grammar}

theorem Built.edits (built : Built g) (operations : List Operation) : Built (operations.foldl Operation.apply g) := by
  induction operations generalizing g with
  | nil => exact built
  | cons operation rest ih => exact ih (built.edited operation)

theorem WellFormed.apply (wellFormed : g.WellFormed) (operation : Operation) : (operation.apply g).WellFormed := by
  cases operation with
  | addNonterminal name => exact keeps_addNonterminal name g wellFormed
  | addTerminal name => exact keeps_addTerminal name g wellFormed
  | setStart name => exact keeps_setStart name g wellFormed
  | addProduction p => exact keeps_addProduction p g wellFormed
  | insertProduction index p => exact keeps_insertProduction index p g wellFormed
  | removeProduction index => exact keeps_removeProduction index g wellFormed
  | removeProductionsOf head => exact keeps_removeProductionsOf head g wellFormed
  | keepProductions keep => exact keeps_keepProductions keep g wellFormed
  | takeProductions => exact keeps_takeProductions g wellFormed
  | replaceSymbol source target removeSource => exact keeps_replaceSymbol source target removeSource g wellFormed
  | removeUnused => exact keeps_removeUnused g wellFormed
  | clear => exact keeps_clear g wellFormed
  | addInherited name letter => exact keeps_addInherited name letter g wellFormed
  | addSynthesized name letter => exact keeps_addSynthesized name letter g wellFormed
  | mergeAttributes name source => exact keeps_mergeAttributes name source g wellFormed

theorem wellFormed_of_built (built : Built g) : g.WellFormed := by
  induction built with
  | new kind => exact (Grounded.new kind).wellFormed_of_no_productions rfl
  | edited operation _ before => exact before.apply operation
  | passed listed _ ran before => exact Pass.wellFormed_of_pass listed before ran

-- The second edit is refused, and the third when it has merged one letter of two. Then the pass finds
-- two terminals where there was a nonterminal.
theorem wellFormed_of_built_with_refusals : ∃ h : Grammar, Built h ∧ h.WellFormed ∧
    h.nonterminals.names = ["S", "T-a", "T-b"] ∧ h.terminals.names = ["a", "b"] ∧
    (h.attributesOf "S").inherited.toList = ['c'] := by
  have edited : Built ([.addProduction { head := "S", body := [.terminal "a", .nonterminal "B"] },
      .addProduction { head := "A", body := [] }, .mergeAttributes "S" { inherited := .ofList ['c', '~'] },
      .replaceSymbol (.nonterminal "B") (.terminal "b") true].foldl Operation.apply { kind := .weighted }) :=
    (Built.new .weighted).edits _
  have listed : Pass.separateTerminals ∈ Pipeline.standard .weighted := by simp [Pipeline.standard]
  have built := Built.passed listed edited ⟨by decide +kernel, rfl⟩
  exact ⟨_, built, wellFormed_of_built built, by decide +kernel, by decide +kernel, by decide +kernel⟩

end ContextFree.Grammar
