import ContextFree.Proofs.Attributes
import ContextFree.Proofs.Pass.Parallel
import ContextFree.Proofs.Pass.Provenance
import ContextFree.Proofs.Reading.Coherent

namespace ContextFree

open Edit Pass

namespace Grammar

variable {g h : Grammar}

/-- The same but for the weights, which are zero in the same places. -/
structure SameButWeights (g h : Grammar) : Prop where
  kind : g.kind = h.kind
  start : g.start = h.start
  nonterminals : g.nonterminals = h.nonterminals
  terminals : g.terminals = h.terminals
  attributes : ∀ name, g.attributesOf? name = h.attributesOf? name
  productions : (g.productions.map fun p => (p.head, p.body, p.weight.isZero)) =
    h.productions.map fun p => (p.head, p.body, p.weight.isZero)

instance : Decidable (SameButWeights g h) :=
  decidable_of_iff (g.kind = h.kind ∧ g.start = h.start ∧ g.nonterminals = h.nonterminals ∧ g.terminals = h.terminals ∧
      g.attributes.same h.attributes = true ∧ (g.productions.map fun p => (p.head, p.body, p.weight.isZero)) =
        h.productions.map fun p => (p.head, p.body, p.weight.isZero))
    ⟨fun ⟨kind, start, nonterminals, terminals, attributes, productions⟩ =>
        ⟨kind, start, nonterminals, terminals, AttributeTable.same_iff.1 attributes, productions⟩,
      fun ⟨kind, start, nonterminals, terminals, attributes, productions⟩ =>
        ⟨kind, start, nonterminals, terminals, AttributeTable.same_iff.2 attributes, productions⟩⟩

theorem SameButWeights.of_alike (alike : Alike g h) : SameButWeights g h where
  kind := alike.kind
  start := alike.start
  nonterminals := alike.nonterminals
  terminals := alike.terminals
  attributes := alike.attributes
  productions := by
    apply Production.blind (·.map fun p => (p.head, p.body, p.weight.isZero)) _ alike.productions
    intro ps
    rw [List.map_map]
    apply List.map_congr_left
    intro p _
    rw [Function.comp_apply, p.isZero_blank, p.head_blank, p.body_blank]

theorem SameButWeights.alike (same : SameButWeights g h) (first : g.Legal) (second : h.Legal) : Alike g h where
  kind := same.kind
  start := same.start
  nonterminals := same.nonterminals
  terminals := same.terminals
  attributes := same.attributes
  productions := by
    have blanks : ∀ {k : Grammar}, k.Legal → k.productions.map Production.blank =
        (k.productions.map fun p => (p.head, p.body, p.weight.isZero)).map fun (head, body, zero) =>
          { head, body, weight := if zero then .number .zero else .one } := by
      intro k legal
      rw [List.map_map]
      apply List.map_congr_left
      intro p rule
      rw [Production.blank, Weight.blank, legal.weights p rule]
      rfl
    rw [blanks first, same.productions, ← blanks second]

end Grammar

namespace Pipeline

variable {g h : Grammar} {text other : String}

theorem convert_alike (alike : Alike g h) :
    Agrees Alike g.convert.result h.convert.result ∧ g.convert.log = h.convert.log := by
  rw [Grammar.convert, Grammar.convert, alike.kind]
  exact run_alike (fun _ => parallel_of_standard) alike

/-- Either both conversions fail at the same pass with the same fault, or both succeed, and each result has
its weights from its own grammar. -/
theorem standard_blind_to_weights (first : Reading.readText .weighted text = .ok g)
    (second : Reading.readText .weighted other = .ok h) (same : g.SameButWeights h) :
    g.convert.log = h.convert.log ∧
      Agrees (fun c d => c.SameButWeights d ∧ c.Carries Production.IsHelper (g.productions.map Production.weight) ∧
          d.Carries Production.IsHelper (h.productions.map Production.weight))
        g.convert.result h.convert.result := by
  obtain ⟨results, logs⟩ :=
    convert_alike (same.alike (Reading.legal_of_readText first) (Reading.legal_of_readText second))
  refine ⟨logs, results.imp fun c d one two alike => ⟨.of_alike alike, ?_, ?_⟩⟩
  · exact carries_of_standard (Reading.coherent_of_readText first) one
  · exact carries_of_standard (Reading.coherent_of_readText second) two

-- An attribute stands where the other text has a number, and the rule with both zeros goes in both.
def numberedText : String := "S\x7ba;\x7d -2-> 'x' S 'y' ;\nS\x7ba;\x7d -0-> S S ;\nS\x7ba;\x7d -1-> 'x' ;"

def reweighedText : String :=
  "S\x7ba;\x7d -&a-> 'x' S 'y' ;\nS\x7ba;\x7d -0.0-> S S ;\nS\x7ba;\x7d -7-> 'x' ;"

theorem blind_to_weights_of_attribute : ∃ g h,
    Reading.readText .weighted numberedText = .ok g ∧
    Reading.readText .weighted reweighedText = .ok h ∧
    g.SameButWeights h ∧ g.convert.result.toOption.isSome = true ∧
    g.convert.log = h.convert.log ∧
      Agrees (fun c d => c.SameButWeights d ∧ c.Carries Production.IsHelper (g.productions.map Production.weight) ∧
          d.Carries Production.IsHelper (h.productions.map Production.weight))
        g.convert.result h.convert.result := by
  obtain ⟨g, first, found⟩ := Reading.exists_of_written .weighted
    numberedText rfl
    (fun g => (Reading.readText .weighted
      reweighedText).toOption.any fun h =>
        decide (g.SameButWeights h) && g.convert.result.toOption.isSome) (by decide +kernel)
  obtain ⟨h, second, passes⟩ := Reading.exists_of_readText found
  rw [Bool.and_eq_true] at passes
  have same := of_decide_eq_true passes.1
  exact ⟨g, h, first, second, same, passes.2, standard_blind_to_weights first second same⟩

end Pipeline

end ContextFree
