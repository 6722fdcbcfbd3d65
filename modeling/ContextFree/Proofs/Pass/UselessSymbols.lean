import ContextFree.Pass.Removal
import ContextFree.Proofs.Analysis.Useful
import ContextFree.Proofs.Pass.Basic

namespace ContextFree.Pass

open Edit

variable {g h : Grammar} {u : Unit}

def generatingPart (g : Grammar) : Grammar := { g with productions := Useful.generatingRules g }

def reachablePart (g : Grammar) : Grammar := { g with productions := Useful.reachableRules g }

/-- What is left: first the productions that generate, of these the ones that are reached, and then
the names that they mention. -/
def usefulPart (g : Grammar) : Grammar := (reachablePart (generatingPart g)).pruned

theorem start_usefulPart : (usefulPart g).start = g.start := Grammar.start_pruned

theorem rules_usefulPart : (usefulPart g).productions = Useful.reachableRules (generatingPart g) :=
  Grammar.productions_pruned

theorem usefulPart_subset : (usefulPart g).productions ⊆ g.productions := by
  rw [rules_usefulPart]
  exact List.Subset.trans List.filter_sublist.subset List.filter_sublist.subset

def uselessLog (g : Grammar) : List Message :=
  ⟨.debug, "Removed " ++ (g.productions.length - (generatingPart g).productions.length).repr ++
      " productions using non-generating symbols"⟩ ::
    ⟨.debug, "Removed " ++ ((generatingPart g).productions.length -
      (reachablePart (generatingPart g)).productions.length).repr ++ " unreachable productions"⟩ ::
    ((reachablePart (generatingPart g)).unusedSymbols.map fun symbol =>
      ⟨.debug, "Removed useless symbol " ++ symbol.text ++ ""⟩) ++
    if (usefulPart g).isEmpty then [⟨.warning, "The grammar generates no strings"⟩] else []

theorem removeUseless_run (g : Grammar) : removeUseless g = ⟨.ok (), usefulPart g, uselessLog g⟩ := by
  have kept : ∀ keep k, keepProductions keep k = ⟨.ok (k.productions.length - (k.productions.filter keep).length),
    { k with productions := k.productions.filter keep }, []⟩ := fun _ _ => rfl
  have pruned : ∀ k, removeUnused k = ⟨.ok k.unusedSymbols, k.pruned, []⟩ := fun _ => rfl
  have warned : ∀ k : Grammar, (if k.isEmpty then warn "The grammar generates no strings" else pure ()) k =
      ⟨.ok (), k, if k.isEmpty then [⟨.warning, "The grammar generates no strings"⟩] else []⟩ := by
    intro k
    split <;> rfl
  simp only [removeUseless, bind_run, grammar_run, kept, debug, report_run, pruned, reportSymbols_run, warned]
  simp only [List.nil_append, List.cons_append]
  rfl

theorem succeeds_removeUseless : removeUseless.Succeeds g u h ↔ h = usefulPart g := by
  rw [Succeeds, removeUseless_run]
  exact ⟨fun ran => ran.2.symm, fun same => ⟨rfl, same.symm⟩⟩

theorem mem_log_removeUseless {text : String} : ⟨.warning, text⟩ ∈ (removeUseless g).log ↔
    text = "The grammar generates no strings" ∧ (usefulPart g).productions = [] := by
  rw [removeUseless_run, uselessLog, Grammar.isEmpty]
  cases (usefulPart g).productions <;> simp

structure UselessRemoved (g h : Grammar) : Prop where
  kind : h.kind = g.kind
  start : h.start = g.start
  coherent : g.Coherent → h.Coherent
  subset : h.productions ⊆ g.productions
  derives_iff : ∀ name, g.start = some name → ∀ sentence,
    h.DerivesFrom name sentence ↔ g.DerivesFrom name sentence

theorem uselessRemoved (g : Grammar) : UselessRemoved g (usefulPart g) := by
  refine ⟨Grammar.kind_pruned, start_usefulPart, fun coherent => ?_, usefulPart_subset, fun name start sentence => ?_⟩
  · exact ((coherent.keeping _).keeping _).pruned
  · rw [Grammar.DerivesFrom, rules_usefulPart]
    calc Derives (Useful.reachableRules (generatingPart g)) [.nonterminal name] sentence
        ↔ (generatingPart g).DerivesFrom name sentence := Useful.derives_reachableRules_iff start
      _ ↔ g.DerivesFrom name sentence := Useful.derives_generatingRules_iff

theorem uselessRemoved_of_succeeds (ran : removeUseless.Succeeds g u h) : UselessRemoved g h := by
  rw [succeeds_removeUseless.1 ran]
  exact uselessRemoved g

theorem tight_of_removeUseless (ran : removeUseless.Succeeds g u h) (some : h.productions ≠ []) : h.Tight := by
  rw [succeeds_removeUseless.1 ran, usefulPart] at some ⊢
  rw [Grammar.productions_pruned] at some
  obtain ⟨first, left⟩ := List.exists_mem_of_ne_nil _ some
  refine ⟨fun name present => ?_, fun token present => ?_⟩
  · rw [Grammar.productions_pruned]
    have used := (Grammar.hasSymbol_pruned.1 (show Grammar.hasSymbol _ (.nonterminal name) from present)).2
    rcases Grammar.usesSymbol_nonterminal.1 used with start | ⟨p, rule, same | inBody⟩
    · obtain ⟨other, started, headed⟩ := Useful.exists_rule_of_start left
      cases start.symm.trans started
      exact headed
    · exact ⟨p, rule, same⟩
    -- A name in such a body generates and so heads a production, and the body makes it reachable.
    · obtain ⟨member, known⟩ := Useful.mem_reachableRules.1 rule
      obtain ⟨q, generates, rfl⟩ := Useful.exists_rule_of_mem_body member inBody
      exact ⟨q, Useful.mem_reachableRules.2 ⟨generates, Useful.mem_reachable_of_rule member known inBody⟩, rfl⟩
  · rw [Grammar.productions_pruned]
    have used := (Grammar.hasSymbol_pruned.1 (show Grammar.hasSymbol _ (.terminal token) from present)).2
    exact Grammar.usesSymbol_terminal.1 used

end ContextFree.Pass
