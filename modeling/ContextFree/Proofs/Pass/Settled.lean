import ContextFree.Proofs.Pass.Arranged
import ContextFree.Proofs.Pass.Totality
import ContextFree.Proofs.Pass.Usefulness

namespace ContextFree

open Edit

namespace Grammar

variable {g : Grammar} {p : Production}

theorem uses_of_covers {h : Grammar} (start : h.start = g.start)
    (covers : ∀ p ∈ g.productions, ∃ q ∈ h.productions, q.head = p.head ∧ q.body = p.body) {symbol : Symbol}
    (uses : g.usesSymbol symbol = true) : h.usesSymbol symbol = true := by
  cases symbol with
  | empty => rfl
  | terminal token =>
    obtain ⟨p, rule, inBody⟩ := usesSymbol_terminal.1 uses
    obtain ⟨q, member, -, bodies⟩ := covers p rule
    exact usesSymbol_terminal.2 ⟨q, member, bodies ▸ inBody⟩
  | nonterminal name =>
    rw [usesSymbol_nonterminal, start]
    apply (usesSymbol_nonterminal.1 uses).imp_right
    intro ⟨p, rule, mentions⟩
    obtain ⟨q, member, heads, bodies⟩ := covers p rule
    exact ⟨q, member, by rwa [heads, bodies]⟩

def withDistinctRules (g : Grammar) : Grammar := { g with productions := Production.distinctRules g.productions }

end Grammar

namespace Edit

variable {α : Type} {g h : Grammar} {u : Unit} {rules : List Production}

theorem succeeds_of_runs {edit : Edit Unit} (runs : edit.Runs g) (same : ∀ k, edit.Succeeds g () k → k = h) :
    edit.Succeeds g () h := by
  obtain ⟨_, k, ran⟩ := runs
  rwa [← same k ran]

theorem eq_of_addNewRules (ran : (rules.forM addNewRule).Succeeds g u h)
    (known : ∀ p ∈ rules, p.head ∈ g.nonterminals ∧ ∀ symbol ∈ p.body, g.hasSymbol symbol)
    (started : rules ≠ [] → ∃ name, g.start = some name) :
    h = { g with productions := rules.foldl Production.keepNew g.productions } := by
  induction rules generalizing g with
  | nil => exact (succeeds_forM_nil.1 ran).symm
  | cons p rest ih =>
    obtain ⟨k, one, others⟩ := succeeds_forM_cons.1 ran
    have start := started (List.cons_ne_nil p rest)
    obtain ⟨head, body⟩ := known p List.mem_cons_self
    have first := Succeeds.addNewRule one
    rw [Grammar.addedNew_of_known head body start] at first
    subst first
    refine ih others (fun q member => ?_) fun _ => start
    obtain ⟨head, body⟩ := known q (List.mem_cons_of_mem p member)
    exact ⟨head, fun symbol inBody => Grammar.hasSymbol_productions.2 (body symbol inBody)⟩

end Edit

namespace Pass

variable {g h : Grammar} {u : Unit}

/-- What a finished conversion promises: normal bodies, names and productions that are all put to
use, and productions in table order. -/
structure Settled (g : Grammar) : Prop where
  coherent : g.Coherent
  legal : g.Legal
  normal : g.isNormal = true
  used : ∀ symbol, g.hasSymbol symbol → g.usesSymbol symbol = true
  applies : ∀ p ∈ g.productions, g.Applies p
  arranged : g.Arranged

namespace Settled

variable {p : Production}

theorem normalBody (settled : Settled g) (rule : p ∈ g.productions) : Grammar.isNormalBody p.body = true :=
  List.all_eq_true.1 settled.normal p rule

theorem withDistinctRules (settled : Settled g) : Settled g.withDistinctRules := by
  have rules : ∀ p ∈ g.withDistinctRules.productions, p ∈ g.productions := fun p =>
    Production.mem_of_mem_distinctRules
  have covers : ∀ p ∈ g.productions, ∃ q ∈ g.withDistinctRules.productions, q.head = p.head ∧ q.body = p.body := by
    intro p rule
    obtain ⟨q, member, same⟩ := Production.distinctRules_covers rule
    exact ⟨q, member, Production.sameRule_iff.1 same⟩
  have elaborates : Grammar.Elaborates g g.withDistinctRules := by
    refine ⟨fun _ => id, fun p rule => ?_, fun q rule => ?_⟩
    · obtain ⟨q, member, heads, bodies⟩ := covers p rule
      have step := Leads.of_rule member
      rwa [heads, bodies] at step
    · exact ⟨q, rules q rule, [], [], .refl, by simpa using Leads.refl⟩
  refine ⟨?_, ?_, ?_, fun symbol present => ?_, elaborates.applies settled.applies, ?_⟩
  · refine settled.coherent.with_productions (fun p rule => settled.coherent.closed p (rules p rule)) fun some none =>
      some ?_
    rw [none]
    rfl
  · exact settled.legal.with_productions fun p rule => ⟨p, rules p rule, rfl⟩
  · exact List.all_eq_true.2 fun p rule => settled.normalBody (rules p rule)
  · have used := settled.used symbol (Grammar.hasSymbol_productions.1 present)
    exact @Grammar.uses_of_covers g g.withDistinctRules rfl covers _ used
  · exact robust_arranged.productions g _ ((Production.distinctRules_sublist _).map _) settled.arranged

/-- Adding the productions anew, after they were taken out, leaves each rule once. -/
theorem readded (settled : Settled g)
    (ran : (g.productions.forM addNewRule).Succeeds { g with productions := [] } u h) :
    h = g.withDistinctRules :=
  eq_of_addNewRules ran (fun p rule => by
    obtain ⟨head, body⟩ := settled.coherent.closed p rule
    exact ⟨head, fun symbol inBody => Grammar.hasSymbol_productions.2 (body symbol inBody)⟩) settled.coherent.started

end Settled

theorem succeeds_removeZeroWeights (nonzero : ∀ p ∈ g.productions, p.weight.isZero = false) :
    removeZeroWeights.Succeeds g () g := by
  have all : g.productions.filter (fun p => !p.weight.isZero) = g.productions :=
    List.filter_eq_self.2 fun p rule => by rw [nonzero p rule]; rfl
  simp only [removeZeroWeights, succeeds_bind, succeeds_keepProductions, succeeds_debug]
  exact ⟨_, _, ⟨rfl, rfl⟩, by rw [all]⟩

theorem full_of_normal {body : Body} (normal : Grammar.isNormalBody body = true) : body ≠ [] ∧ Symbol.empty ∉ body := by
  rcases Grammar.isNormalBody_iff.1 normal with ⟨token, same⟩ | ⟨left, right, same⟩
  all_goals simp [same]

section EmptyString

theorem eq_of_removeEpsilons {names direct deleted : List String} (none : ∀ p ∈ g.productions, p.isEpsilon = false)
    (ran : (removeEpsilons names).Succeeds g (direct, deleted) h) : direct = [] ∧ deleted = [] ∧ h = g := by
  induction names with
  | nil =>
    rw [removeEpsilons, succeeds_pure] at ran
    obtain ⟨answer, rfl⟩ := ran
    cases answer
    exact ⟨rfl, rfl, rfl⟩
  | cons name rest ih =>
    have all : g.productions.filter (fun p => !(p.head == name && p.isEpsilon)) = g.productions :=
      List.filter_eq_self.2 fun p rule => by rw [none p rule, Bool.and_false]; rfl
    rw [removeEpsilons] at ran
    obtain ⟨removed, k, kept, ran⟩ := succeeds_bind.1 ran
    obtain ⟨count, same⟩ := succeeds_keepProductions.1 kept
    rw [all] at count same
    rw [if_pos (by omega), same] at ran
    exact ih ran

theorem expansions_nil {body : Body} (mentions : Symbol.empty ∉ body) : Nullable.expansions [] [] body = [body] := by
  induction body with
  | nil => rfl
  | cons symbol rest ih =>
    rw [List.mem_cons, not_or] at mentions
    rw [Nullable.expansions, ih mentions.2]
    cases symbol with
    | empty => exact absurd rfl mentions.1
    | terminal token => rfl
    | nonterminal name => rfl

theorem variants_nil {p : Production} (normal : Grammar.isNormalBody p.body = true) : variants [] [] p = [p] := by
  obtain ⟨full, mentions⟩ := full_of_normal normal
  rw [variants, expansions_nil mentions, List.filter_cons_of_pos (by simpa using full)]
  rfl

theorem closure_nil (normal : g.isNormal = true) : Nullable.closure g [] = [] := by
  refine List.eq_nil_iff_forall_not_mem.2 (Closure.saturate_induction (P := fun _ => False) nofun ?_)
  intro seen none name found
  obtain rfl := List.eq_nil_iff_forall_not_mem.2 none
  obtain ⟨p, ofName, all⟩ := List.any_eq_true.1 (List.mem_filter.1 found).2
  rcases Grammar.isNormalBody_iff.1 (List.all_eq_true.1 normal p (List.mem_filter.1 ofName).1) with
    ⟨token, same⟩ | ⟨left, right, same⟩
  all_goals
    rw [same] at all
    cases all

theorem Settled.removeEmptyString (settled : Settled g) : removeEmptyString.Succeeds g () g.withDistinctRules := by
  refine succeeds_of_runs (runs_removeEmptyString fun p =>
    settled.legal.production settled.coherent.closed) fun h ran => ?_
  simp only [Pass.removeEmptyString, succeeds_bind, succeeds_grammar, succeeds_debug, succeeds_takeProductions] at ran
  obtain ⟨_, _, ⟨rfl, rfl⟩, ⟨direct, deleted⟩, k, cleared, ran⟩ := ran
  obtain ⟨_, _, ⟨rfl, rfl⟩, _, _, rfl, _, l, warned, _, _, ⟨rfl, rfl⟩, looped⟩ := ran
  have none : ∀ p ∈ g.productions, p.isEpsilon = false := by
    intro p rule
    refine Bool.eq_false_iff.2 fun epsilon => ?_
    have normal := settled.normalBody rule
    rw [eq_of_beq epsilon] at normal
    cases normal
  obtain ⟨rfl, rfl, rfl⟩ := eq_of_removeEpsilons none cleared
  obtain rfl := (@keeps_warnOfStart (fun x => x = k) k _).of_succeeds warned rfl
  rw [closure_nil settled.normal, forM_flatMap] at looped
  rw [List.flatMap_def, List.map_congr_left fun p rule => variants_nil (settled.normalBody rule), ← List.flatMap_def,
    List.flatMap_singleton'] at looped
  exact settled.readded looped

end EmptyString

section UnitProductions

theorem notUnit_of_normal {p : Production} (normal : Grammar.isNormalBody p.body = true) : p.isUnit = false := by
  rcases Grammar.isNormalBody_iff.1 normal with ⟨token, same⟩ | ⟨left, right, same⟩
  all_goals rw [Production.isUnit, Production.unitTarget?, same]; rfl

theorem reach_of_no_units {ps : List Production} (none : ∀ p ∈ ps, p.isUnit = false) (name : String) :
    Units.reach ps name = [name] := by
  have found : ∀ name, Units.targetsOf ps name = [] := by
    refine fun name => List.eq_nil_iff_forall_not_mem.2 fun target listed => ?_
    obtain ⟨p, rule, -, single⟩ := Units.mem_targetsOf.1 listed
    have unit := Units.isUnit_iff.2 ⟨target, single⟩
    rw [none p rule] at unit
    cases unit
  rw [Units.reach, Closure.saturate]
  simp [found, Closure.extend]

theorem copies_of_no_units {ps : List Production} (none : ∀ p ∈ ps, p.isUnit = false) (name : String) :
    copies ps name name = ps.filter (·.head == name) := by
  have same : (ps.filter fun p => p.head == name && !p.isUnit) = ps.filter (·.head == name) :=
    List.filter_congr fun p rule => by rw [none p rule]; exact Bool.and_true _
  rw [copies, same]
  refine (List.map_congr_left fun p member => ?_).trans (List.map_id _)
  rw [← eq_of_beq (List.mem_filter.1 member).2]
  rfl

theorem takeOverAll_of_no_units (none : ∀ p ∈ g.productions, p.isUnit = false) :
    takeOverAll g = (g.nonterminals.names.flatMap g.productionsOf).forM addNewRule := by
  rw [← forM_flatMap]
  unfold takeOverAll
  congr 1
  funext name
  rw [reach_of_no_units none, Grammar.productionsOf, ← copies_of_no_units none]
  simp only [List.forM_eq_forM, List.forM_cons, List.forM_nil, takeOver]
  simp

theorem Settled.removeUnits (settled : Settled g) : removeUnits.Succeeds g () g.withDistinctRules := by
  have none : ∀ p ∈ g.productions, p.isUnit = false := fun p rule => notUnit_of_normal (settled.normalBody rule)
  have looped : (takeOverAll g).Succeeds { g with productions := [] } () g.withDistinctRules := by
    rw [takeOverAll_of_no_units none, settled.arranged.flatMap_productionsOf]
    apply succeeds_of_runs (runs_addNewRules _ _) fun k ran => settled.readded ran
    intro p rule
    exact ⟨(full_of_normal (settled.normalBody rule)).1, settled.legal.production settled.coherent.closed rule⟩
  obtain ⟨unused, pruned⟩ := Grammar.pruned_of_used settled.withDistinctRules.used
  rw [Succeeds, removeUnits_run]
  refine succeeds_bind.2 ⟨(), _, looped, succeeds_bind.2 ⟨_, _, succeeds_removeUnused.2 ⟨rfl, rfl⟩, ?_⟩⟩
  rw [unused, pruned]
  exact succeeds_forM_nil.2 rfl

end UnitProductions

section UselessSymbols

theorem Settled.removeUseless (settled : Settled g) : removeUseless.Succeeds g () g :=
  succeeds_removeUseless.2 (usefulPart_of_useful settled.applies settled.used).symm

end UselessSymbols

section Shapes

theorem Settled.separateAll (settled : Settled g) : separateAll.Succeeds g () g := by
  have none : longTerminals g.productions = [] := by
    refine List.eq_nil_iff_forall_not_mem.2 fun token listed => ?_
    obtain ⟨p, rule, long, inBody⟩ := mem_longTerminals.1 listed
    rcases Grammar.isNormalBody_iff.1 (settled.normalBody rule) with ⟨other, same⟩ | ⟨left, right, same⟩
    · rw [same] at long
      cases long
    · rw [same] at inBody
      simp at inBody
  rw [succeeds_separateAll, none]
  exact succeeds_forM_nil.2 rfl

theorem Settled.splitAll (settled : Settled g) : splitAll.Succeeds g () g := by
  refine succeeds_of_run (splitAll_of_short fun p rule => ?_)
  rcases Grammar.isNormalBody_iff.1 (settled.normalBody rule) with ⟨token, same⟩ | ⟨left, right, same⟩
  all_goals simp [same]

end Shapes

end Pass

end ContextFree
