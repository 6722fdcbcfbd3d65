import ContextFree.Proofs.Analysis.Nullable
import ContextFree.Proofs.Edit.Tables

namespace ContextFree.Pass

open Edit

variable {g h k : Grammar} {u : Unit}

/-- What is left when the empty productions of some nonterminals are taken out: `direct` had one,
and `deleted` had nothing else. -/
structure Cleared (names : List String) (g : Grammar) (direct deleted : List String) (h : Grammar) : Prop where
  kind : h.kind = g.kind
  start : h.start = g.start
  terminals : h.terminals = g.terminals
  productions : h.productions = g.productions.filter fun p => !(names.contains p.head && p.isEpsilon)
  mem_direct : ∀ name, name ∈ direct ↔
    name ∈ names ∧ ∃ p ∈ g.productions, p.head = name ∧ p.isEpsilon = true
  mem_deleted : ∀ name, name ∈ deleted ↔
    name ∈ direct ∧ ∀ p ∈ g.productions, p.head = name → p.isEpsilon = true
  mem_nonterminals : ∀ name, name ∈ h.nonterminals ↔
    name ∈ g.nonterminals ∧ (name ∈ deleted → g.start = some name)

theorem Cleared.mem_productions {names direct deleted : List String}
    (cleared : Cleared names g direct deleted h) (p : Production) :
    p ∈ h.productions ↔ p ∈ g.productions ∧ ¬ (p.head ∈ names ∧ p.isEpsilon = true) := by
  rw [cleared.productions, List.mem_filter, Bool.not_eq_true', Bool.eq_false_iff, ne_eq, Bool.and_eq_true,
    List.contains_iff_mem]

theorem Cleared.append {first second direct deleted more moreDeleted : List String}
    (one : Cleared first g direct deleted k) (two : Cleared second k more moreDeleted h) :
    Cleared (first ++ second) g (direct ++ more) (deleted ++ moreDeleted) h where
  kind := two.kind.trans one.kind
  start := two.start.trans one.start
  terminals := two.terminals.trans one.terminals
  productions := by
    rw [two.productions, one.productions, List.filter_filter]
    congr 1
    funext p
    cases p.isEpsilon <;> simp [Bool.and_comm]
  mem_direct name := by
    rw [List.mem_append, List.mem_append, one.mem_direct, two.mem_direct]
    simp only [one.mem_productions]
    grind
  mem_deleted name := by
    simp only [List.mem_append, one.mem_deleted, two.mem_deleted, two.mem_direct, one.mem_direct,
      one.mem_productions]
    grind
  mem_nonterminals name := by
    rw [two.mem_nonterminals, one.mem_nonterminals, one.start, List.mem_append]
    grind

theorem Cleared.nil (g : Grammar) : Cleared [] g [] [] g where
  kind := rfl
  start := rfl
  terminals := rfl
  productions := (List.filter_eq_self.2 fun _ _ => rfl).symm
  mem_direct name := by simp
  mem_deleted name := by simp
  mem_nonterminals name := by simp

def withoutEpsilonsOf (name : String) (g : Grammar) : Grammar :=
  { g with productions := g.productions.filter fun p => !(p.head == name && p.isEpsilon) }

theorem withoutEpsilonsOf_productions (name : String) (g : Grammar) : (withoutEpsilonsOf name g).productions =
    g.productions.filter fun p => !([name].contains p.head && p.isEpsilon) := by
  apply List.filter_congr
  intro p _
  rw [List.contains_cons, List.contains_nil, Bool.or_false]

theorem mem_withoutEpsilonsOf {name : String} {p : Production} :
    p ∈ (withoutEpsilonsOf name g).productions ↔ p ∈ g.productions ∧ ¬ (p.head = name ∧ p.isEpsilon = true) := by
  rw [withoutEpsilonsOf, List.mem_filter, Bool.not_eq_true', Bool.eq_false_iff, ne_eq, Bool.and_eq_true,
    beq_iff_eq]

theorem productionsOf_withoutEpsilonsOf {name : String} :
    ((withoutEpsilonsOf name g).productionsOf name).isEmpty = true ↔
      ∀ p ∈ g.productions, p.head = name → p.isEpsilon = true := by
  rw [List.isEmpty_iff, Grammar.productionsOf, List.filter_eq_nil_iff]
  simp only [mem_withoutEpsilonsOf, beq_iff_eq]
  grind

theorem cleared_of_absent {name : String} (absent : ∀ p ∈ g.productions, ¬ (p.head = name ∧ p.isEpsilon = true)) :
    Cleared [name] g [] [] (withoutEpsilonsOf name g) where
  kind := rfl
  start := rfl
  terminals := rfl
  productions := withoutEpsilonsOf_productions name g
  mem_direct other := by
    simp only [List.not_mem_nil, List.mem_singleton, false_iff]
    grind
  mem_deleted other := by simp
  mem_nonterminals other := by simp [withoutEpsilonsOf]

/-- The name leaves the table with its last production, unless it is the start symbol. -/
def clearedOf (name : String) (g : Grammar) : Grammar :=
  if ((withoutEpsilonsOf name g).productionsOf name).isEmpty && (withoutEpsilonsOf name g).start != some name then
    dropNonterminal name (withoutEpsilonsOf name g)
  else withoutEpsilonsOf name g

theorem clearedOf_cases (name : String) (g : Grammar) :
    (clearedOf name g = dropNonterminal name (withoutEpsilonsOf name g) ∧
      ((withoutEpsilonsOf name g).productionsOf name).isEmpty = true ∧ g.start ≠ some name) ∨
    (clearedOf name g = withoutEpsilonsOf name g ∧
      (((withoutEpsilonsOf name g).productionsOf name).isEmpty = true → g.start = some name)) := by
  unfold clearedOf
  split
  · next both =>
    rw [Bool.and_eq_true, bne_iff_ne] at both
    exact Or.inl ⟨rfl, both⟩
  · next notBoth =>
    refine Or.inr ⟨rfl, fun gone => ?_⟩
    rw [Bool.and_eq_true, bne_iff_ne, not_and] at notBoth
    exact Decidable.not_not.1 (notBoth gone)

theorem cleared_of_present {name : String} (present : ∃ p ∈ g.productions, p.head = name ∧ p.isEpsilon = true) :
    Cleared [name] g [name]
      (if ((withoutEpsilonsOf name g).productionsOf name).isEmpty then [name] else []) (clearedOf name g) := by
  have deleted : ∀ other,
      other ∈ (if ((withoutEpsilonsOf name g).productionsOf name).isEmpty then [name] else []) ↔
        other = name ∧ ∀ p ∈ g.productions, p.head = name → p.isEpsilon = true := by
    intro other
    rw [← productionsOf_withoutEpsilonsOf]
    split
    · next gone => simp [gone]
    · next left => simp [left]
  have rest : (clearedOf name g).kind = g.kind ∧ (clearedOf name g).start = g.start ∧
      (clearedOf name g).terminals = g.terminals ∧
      (clearedOf name g).productions = (withoutEpsilonsOf name g).productions := by
    rcases clearedOf_cases name g with ⟨same, -⟩ | ⟨same, -⟩
    all_goals
      rw [same]
      exact ⟨rfl, rfl, rfl, rfl⟩
  refine ⟨rest.1, rest.2.1, rest.2.2.1, ?_, fun other => ?_, fun other => ?_, fun other => ?_⟩
  · rw [rest.2.2.2, withoutEpsilonsOf_productions]
  · rw [List.mem_singleton]
    grind
  · rw [deleted, List.mem_singleton]
    grind
  · rw [deleted]
    rcases clearedOf_cases name g with ⟨same, gone, notStart⟩ | ⟨same, stays⟩
    · rw [same, productionsOf_withoutEpsilonsOf] at *
      simp only [dropNonterminal, Table.mem_remove, withoutEpsilonsOf]
      grind
    · rw [same, productionsOf_withoutEpsilonsOf] at *
      simp only [withoutEpsilonsOf]
      grind

theorem removeEpsilons_round {name : String} {rest direct deleted : List String}
    (ran : (removeEpsilons (name :: rest)).Succeeds g (direct, deleted) h) :
    ∃ k here more hereDeleted moreDeleted, (k = withoutEpsilonsOf name g ∨ k = clearedOf name g) ∧
      Cleared [name] g here hereDeleted k ∧ (removeEpsilons rest).Succeeds k (more, moreDeleted) h ∧
      direct = here ++ more ∧ deleted = hereDeleted ++ moreDeleted := by
  rw [removeEpsilons] at ran
  obtain ⟨removed, k, kept, ran⟩ := succeeds_bind.1 ran
  obtain ⟨count, same⟩ := succeeds_keepProductions.1 kept
  change k = withoutEpsilonsOf name g at same
  subst same
  have shorter := List.length_filter_le (fun p => !(p.head == name && p.isEpsilon)) g.productions
  have absent_iff : removed = 0 ↔ ∀ p ∈ g.productions, ¬ (p.head = name ∧ p.isEpsilon = true) := by
    rw [show removed = 0 ↔ _ from (by omega : removed = 0 ↔
      (g.productions.filter fun p => !(p.head == name && p.isEpsilon)).length = g.productions.length),
      List.length_filter_eq_length_iff]
    simp only [Bool.not_eq_true', Bool.eq_false_iff, ne_eq, Bool.and_eq_true, beq_iff_eq]
  split at ran
  · next none =>
    exact ⟨_, [], direct, [], deleted, Or.inl rfl, cleared_of_absent (absent_iff.1 none), ran, rfl, rfl⟩
  · next found =>
    have present : ∃ p ∈ g.productions, p.head = name ∧ p.isEpsilon = true := by
      refine Decidable.byContradiction fun none => found (absent_iff.2 fun p member epsilon => ?_)
      exact none ⟨p, member, epsilon⟩
    have cleared := cleared_of_present present
    have rest : ∃ more moreDeleted, (removeEpsilons rest).Succeeds (clearedOf name g) (more, moreDeleted) h ∧
        direct = name :: more ∧ deleted =
          if ((withoutEpsilonsOf name g).productionsOf name).isEmpty then name :: moreDeleted else moreDeleted := by
      simp only [succeeds_bind, succeeds_grammar] at ran
      obtain ⟨_, _, ⟨rfl, rfl⟩, ran⟩ := ran
      unfold clearedOf
      split at ran
      · next both =>
        rw [if_pos both]
        simp only [succeeds_bind, succeeds_debug, succeeds_removeNonterminal, succeeds_pure] at ran
        obtain ⟨_, _, rfl, _, _, ⟨-, rfl⟩, ⟨more, moreDeleted⟩, _, others, answer, rfl⟩ := ran
        cases answer
        exact ⟨more, moreDeleted, others, rfl, rfl⟩
      · next notBoth =>
        rw [if_neg notBoth]
        simp only [succeeds_bind, succeeds_pure] at ran
        obtain ⟨⟨more, moreDeleted⟩, _, others, answer, rfl⟩ := ran
        cases answer
        exact ⟨more, moreDeleted, others, rfl, rfl⟩
    obtain ⟨more, moreDeleted, others, rfl, rfl⟩ := rest
    refine ⟨_, [name], more, _, moreDeleted, Or.inr rfl, cleared, others, rfl, ?_⟩
    split <;> rfl

theorem cleared_of_removeEpsilons {names direct deleted : List String}
    (ran : (removeEpsilons names).Succeeds g (direct, deleted) h) : Cleared names g direct deleted h := by
  induction names generalizing g direct deleted with
  | nil =>
    rw [removeEpsilons, succeeds_pure] at ran
    obtain ⟨answer, rfl⟩ := ran
    cases answer
    exact Cleared.nil _
  | cons name rest ih =>
    obtain ⟨k, here, more, hereDeleted, moreDeleted, -, one, others, rfl, rfl⟩ := removeEpsilons_round ran
    exact one.append (ih others)

theorem Cleared.derives_nil_of_direct {names direct deleted : List String}
    (cleared : Cleared names g direct deleted k) {name : String} (member : name ∈ direct) :
    Derives g.productions [.nonterminal name] [] := by
  obtain ⟨-, p, rule, rfl, epsilon⟩ := (cleared.mem_direct name).1 member
  exact .of_rule rule ((Nullable.empty_of_epsilon epsilon).2 rfl)

theorem Cleared.derives_nil_of_closure {names direct deleted : List String}
    (cleared : Cleared names g direct deleted k) :
    ∀ name ∈ Nullable.closure k direct, Derives g.productions [.nonterminal name] [] := by
  apply Closure.saturate_induction fun name member => cleared.derives_nil_of_direct member
  intro known sound name found
  obtain ⟨-, hasRule⟩ := List.mem_filter.1 found
  obtain ⟨p, rule, all⟩ := List.any_eq_true.1 hasRule
  obtain ⟨inCleared, heads⟩ := List.mem_filter.1 rule
  have origin := ((cleared.mem_productions p).1 inCleared).1
  rw [← eq_of_beq heads]
  exact .of_rule origin (Nullable.derives_nil_of_all sound all)

/-- The closure is taken after the clearing, but over all productions it is closed all the same. -/
theorem Cleared.head_mem_closure {direct deleted : List String} (closed : g.Closed)
    (cleared : Cleared g.nonterminals.names g direct deleted k) {p : Production} (rule : p ∈ g.productions)
    (all : p.body.all (Nullable.isNullable (Nullable.closure k direct)) = true) :
    p.head ∈ Nullable.closure k direct := by
  have known := (closed p rule).1
  by_cases epsilon : p.isEpsilon = true
  · apply Closure.subset_saturate
    exact (cleared.mem_direct p.head).2 ⟨known, p, rule, rfl, epsilon⟩
  · have inCleared : p ∈ k.productions :=
      (cleared.mem_productions p).2 ⟨rule, fun both => epsilon both.2⟩
    have stays : p.head ∈ k.nonterminals := by
      refine (cleared.mem_nonterminals p.head).2 ⟨known, fun deleted => ?_⟩
      exact absurd (((cleared.mem_deleted p.head).1 deleted).2 p rule rfl) epsilon
    have found : p.head ∈ Nullable.found k (Nullable.closure k direct) := by
      refine List.mem_filter.2 ⟨stays, List.any_eq_true.2 ⟨p, ?_, all⟩⟩
      exact List.mem_filter.2 ⟨inCleared, beq_self_eq_true p.head⟩
    exact Closure.saturate_closed _ _ _ p.head found stays

theorem Cleared.exact {direct deleted : List String} (closed : g.Closed)
    (cleared : Cleared g.nonterminals.names g direct deleted k) :
    Nullable.Exact g.productions (Nullable.closure k direct) deleted where
  nullable_iff name := by
    constructor
    · exact cleared.derives_nil_of_closure name
    · intro derived
      have complete := fun p rule all => @cleared.head_mem_closure g k direct deleted closed p rule all
      have all := Nullable.all_of_derives_nil complete derived rfl
      exact List.contains_iff_mem.1 (List.all_eq_true.1 all _ List.mem_cons_self)
  only_empty name member w := by
    obtain ⟨isDirect, only⟩ := (cleared.mem_deleted name).1 member
    constructor
    · intro derived
      obtain ⟨p, rule, heads, inner⟩ := Derives.nonterminal_iff.1 derived
      exact (Nullable.empty_of_epsilon (only p rule heads)).1 inner
    · rintro rfl
      exact cleared.derives_nil_of_direct isDirect

theorem keeps_warnOfStart {P : Grammar → Prop} (g : Grammar) (nullable : List String) :
    (warnOfStart g nullable).Keeps P := by
  unfold warnOfStart
  split
  · split
    · exact keeps_report _ _
    · exact keeps_pure _
  · exact keeps_pure _

theorem adds_of_removeEmptyString (closed : g.Closed) (ran : removeEmptyString.Succeeds g u h) :
    ∃ k nullable deleted, k.kind = g.kind ∧ k.start = g.start ∧ k.productions = [] ∧
      (g.StartKnown → k.StartKnown) ∧ Nullable.Exact g.productions nullable deleted ∧
      Grammar.Adds (Nullable.withoutEmpty g.productions nullable deleted) k h := by
  simp only [removeEmptyString, succeeds_bind, succeeds_grammar, succeeds_debug,
    succeeds_takeProductions] at ran
  obtain ⟨_, _, ⟨rfl, rfl⟩, ⟨direct, deleted⟩, k, removed, ran⟩ := ran
  obtain ⟨_, _, ⟨rfl, rfl⟩, _, _, rfl, _, l, warned, _, _, ⟨rfl, rfl⟩, looped⟩ := ran
  have cleared := cleared_of_removeEpsilons removed
  have same : l = k := (@keeps_warnOfStart (fun x => x = k) k _).of_succeeds warned rfl
  subst same
  have adds := Grammar.Adds.of_forM (fun p _ {_ _} one => Grammar.Adds.of_addNewRules one) looped
  have left : l.productions = g.productions.filter fun p => !p.isEpsilon := by
    rw [cleared.productions]
    apply List.filter_congr
    intro p rule
    have known : g.nonterminals.names.contains p.head = true :=
      List.contains_iff_mem.2 (closed p rule).1
    rw [known, Bool.true_and]
  refine ⟨{ l with productions := [] }, _, deleted, cleared.kind, cleared.start, rfl, fun known name same => ?_,
    cleared.exact closed, ?_⟩
  · have start : g.start = some name := cleared.start.symm.trans same
    exact (cleared.mem_nonterminals name).2 ⟨known name start, fun _ => start⟩
  · rw [Nullable.withoutEmpty, ← left]
    exact adds

/-- The productions are the variants of the old ones, each rule once. -/
def Varied (g h : Grammar) : Prop :=
  ∃ nullable deleted, Nullable.Exact g.productions nullable deleted ∧
    h.productions = Production.distinctRules (Nullable.withoutEmpty g.productions nullable deleted)

theorem varied_of_removeEmptyString (closed : g.Closed) (ran : removeEmptyString.Succeeds g u h) : Varied g h := by
  obtain ⟨k, nullable, deleted, -, -, none, -, exact, adds⟩ := adds_of_removeEmptyString closed ran
  exact ⟨nullable, deleted, exact, adds.productions_of_nil none⟩

namespace Varied

theorem derives_iff (varied : Varied g h) (name : String) (sentence : Sentence) :
    h.DerivesFrom name sentence ↔ sentence ≠ [] ∧ g.DerivesFrom name sentence := by
  obtain ⟨nullable, deleted, exact, productions⟩ := varied
  rw [Grammar.DerivesFrom, productions, Production.derives_distinctRules]
  exact Nullable.derives_withoutEmpty_iff exact

theorem full (varied : Varied g h) {p : Production} (rule : p ∈ h.productions) :
    p.body ≠ [] ∧ Symbol.empty ∉ p.body := by
  obtain ⟨nullable, deleted, exact, productions⟩ := varied
  rw [productions] at rule
  exact Nullable.withoutEmpty_full exact (Production.mem_of_mem_distinctRules rule)

theorem distinct (varied : Varied g h) : Production.Distinct h.productions := by
  obtain ⟨nullable, deleted, -, productions⟩ := varied
  rw [productions]
  exact Production.distinct_distinctRules _

theorem weight_of_mem (varied : Varied g h) {q : Production} (rule : q ∈ h.productions) :
    ∃ p ∈ g.productions, p.weight = q.weight := by
  obtain ⟨nullable, deleted, -, productions⟩ := varied
  rw [productions] at rule
  obtain ⟨p, origin, -, kept, -, -, rfl⟩ := Nullable.mem_withoutEmpty.1 (Production.mem_of_mem_distinctRules rule)
  exact ⟨p, origin, rfl⟩

end Varied

structure EmptyRemoved (g h : Grammar) : Prop where
  kind : h.kind = g.kind
  start : ∀ name, g.start = some name → h.start = some name
  coherent : h.Coherent
  varied : Varied g h

theorem emptyRemoved_of_succeeds (coherent : g.Coherent) (ran : removeEmptyString.Succeeds g u h) :
    EmptyRemoved g h := by
  have varied := varied_of_removeEmptyString coherent.closed ran
  obtain ⟨k, _, _, kind, start, none, known, -, adds⟩ := adds_of_removeEmptyString coherent.closed ran
  refine ⟨adds.kind.trans kind, fun name same => adds.start name (start.trans same), ?_, varied⟩
  exact adds.coherent (.of_no_productions none (known coherent.start_known))

end ContextFree.Pass
