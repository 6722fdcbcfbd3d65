import ContextFree.Proofs.Analysis.Units
import ContextFree.Proofs.Edit.Totality
import ContextFree.Proofs.Pass.Basic

namespace ContextFree.Pass

open Edit

variable {g h : Grammar} {u : Unit}

/-- The attributes are merged before the productions are copied, unless there are none to merge. -/
theorem takeOver_cases {productions : List Production} {name reached : String}
    (ran : (takeOver productions name reached).Succeeds g u h) :
    ∃ k, ((copies productions name reached).forM addNewRule).Succeeds k u h ∧
      ((k = g ∧ (name = reached ∨ g.attributesOf reached = ∅)) ∨
        (mergeAttributes name (g.attributesOf reached)).Succeeds g () k) := by
  unfold takeOver at ran
  split at ran
  · simp only [succeeds_bind, succeeds_debug, succeeds_grammar] at ran
    obtain ⟨_, _, rfl, _, _, ⟨rfl, rfl⟩, ran⟩ := ran
    unfold Grammar.attributesOf
    split at ran
    · next attributes found =>
      obtain ⟨_, k, merged, copied⟩ := succeeds_bind.1 ran
      refine ⟨k, copied, Or.inr ?_⟩
      rw [found]
      exact merged
    · next absent =>
      refine ⟨g, ran, Or.inl ⟨rfl, Or.inr ?_⟩⟩
      rw [absent]
      rfl
  · next same => exact ⟨g, ran, Or.inl ⟨rfl, Or.inl (Decidable.not_not.1 same)⟩⟩

theorem adds_of_takeOver {productions : List Production} {name reached : String}
    (ran : (takeOver productions name reached).Succeeds g u h) :
    Grammar.Adds (copies productions name reached) g h := by
  obtain ⟨k, copied, stage⟩ := takeOver_cases ran
  have before : ∃ attributes, k = { g with attributes } := by
    rcases stage with ⟨rfl, -⟩ | merged
    · exact ⟨k.attributes, rfl⟩
    · exact Succeeds.mergeAttributes merged
  obtain ⟨attributes, rfl⟩ := before
  have both := (Grammar.Adds.nil attributes).trans (Grammar.Adds.of_addNewRules copied)
  rwa [List.nil_append] at both

def takeOverAll (g : Grammar) : Edit Unit :=
  g.nonterminals.names.forM fun name => (Units.reach g.productions name).forM (takeOver g.productions name)

theorem removeUnits_run (g : Grammar) : removeUnits g =
    (takeOverAll g >>= fun _ => removeUnused >>= reportSymbols "`" "` is no longer used")
      { g with productions := [] } := by
  have loop : (Units.pairs { g with productions := [] } g.productions).forM
      (fun pair => pair.2.forM (takeOver g.productions pair.1)) = takeOverAll g := List.forM_map
  rw [← loop]
  rfl

theorem takeOverAll_of_removeUnits (ran : removeUnits.Succeeds g u h) :
    ∃ k, (takeOverAll g).Succeeds { g with productions := [] } () k ∧ h = k.pruned := by
  rw [Succeeds, removeUnits_run] at ran
  obtain ⟨_, k, looped, ran⟩ := succeeds_bind.1 ran
  obtain ⟨_, _, removed, reported⟩ := succeeds_bind.1 ran
  obtain ⟨-, rfl⟩ := succeeds_removeUnused.1 removed
  exact ⟨k, looped, same_of_reportSymbols reported⟩

theorem adds_of_takeOverAll {l k : Grammar} (looped : (takeOverAll g).Succeeds l u k) :
    Grammar.Adds (Units.withoutUnits g.productions g.nonterminals.names) l k :=
  Grammar.Adds.of_forM (fun _ _ {_ _} one =>
    Grammar.Adds.of_forM (fun _ _ {_ _} two => adds_of_takeOver two) one) looped

theorem productions_of_removeUnits (ran : removeUnits.Succeeds g u h) :
    h.productions = Production.distinctRules (Units.withoutUnits g.productions g.nonterminals.names) := by
  obtain ⟨k, looped, rfl⟩ := takeOverAll_of_removeUnits ran
  rw [Grammar.productions_pruned]
  exact (adds_of_takeOverAll looped).productions_of_nil rfl

theorem derives_of_withoutUnits (closed : g.Closed)
    (productions : h.productions = Production.distinctRules (Units.withoutUnits g.productions g.nonterminals.names))
    (name : String) (sentence : Sentence) : h.DerivesFrom name sentence ↔ g.DerivesFrom name sentence := by
  rw [Grammar.DerivesFrom, productions, Production.derives_distinctRules]
  exact Units.derives_withoutUnits_iff fun p rule => (closed p rule).1

structure UnitsRemoved (g h : Grammar) : Prop where
  kind : h.kind = g.kind
  start : ∀ name, g.start = some name → h.start = some name
  coherent : h.Coherent
  productions : h.productions =
    Production.distinctRules (Units.withoutUnits g.productions g.nonterminals.names)

theorem unitsRemoved_of_succeeds (coherent : g.Coherent) (ran : removeUnits.Succeeds g u h) :
    UnitsRemoved g h := by
  obtain ⟨k, looped, rfl⟩ := takeOverAll_of_removeUnits ran
  have adds := adds_of_takeOverAll looped
  have empty : ({ g with productions := [] } : Grammar).Coherent := .of_no_productions rfl coherent.start_known
  refine ⟨?_, fun name same => ?_, (adds.coherent empty).pruned, productions_of_removeUnits ran⟩
  · rw [Grammar.kind_pruned]
    exact adds.kind
  · rw [Grammar.start_pruned]
    exact adds.start name same

namespace UnitsRemoved

theorem derives_iff (removed : UnitsRemoved g h) (closed : g.Closed) (name : String) (sentence : Sentence) :
    h.DerivesFrom name sentence ↔ g.DerivesFrom name sentence :=
  derives_of_withoutUnits closed removed.productions name sentence

theorem body_of_mem (removed : UnitsRemoved g h) {q : Production} (rule : q ∈ h.productions) :
    q.isUnit = false ∧ ∃ p ∈ g.productions, p.body = q.body := by
  rw [removed.productions] at rule
  have member := Production.mem_of_mem_distinctRules rule
  exact ⟨Units.withoutUnits_not_unit member, Units.body_of_mem_withoutUnits member⟩

theorem weight_of_mem (removed : UnitsRemoved g h) {q : Production} (rule : q ∈ h.productions) :
    ∃ p ∈ g.productions, p.weight = q.weight := by
  rw [removed.productions] at rule
  obtain ⟨-, p, origin, -, -, same⟩ := Units.mem_withoutUnits.1 (Production.mem_of_mem_distinctRules rule)
  exact ⟨p, origin, by rw [same]⟩

end UnitsRemoved

theorem keeps_takeOver {P : Grammar → Prop} {productions : List Production} {name reached : String}
    (merged : ∀ source, (mergeAttributes name source).Keeps P)
    (added : ∀ p ∈ copies productions name reached, (addNewRule p).Keeps P) :
    (takeOver productions name reached).Keeps P := by
  have copied := keeps_forM added
  unfold takeOver
  split
  · refine keeps_bind (keeps_report _ _) fun _ => keeps_bind keeps_grammar fun _ => ?_
    split
    · exact keeps_bind (merged _) fun _ => copied
    · exact copied
  · exact copied

/-- What the pass leaves even where it is refused half-way, with some of the copies still missing. -/
structure UnitsLeft (g h : Grammar) : Prop where
  coherent : h.Coherent
  start : h.start = g.start
  subset : h.productions ⊆ Units.withoutUnits g.productions g.nonterminals.names

namespace UnitsLeft

theorem taken (coherent : g.Coherent) : UnitsLeft g { g with productions := [] } where
  coherent := .of_no_productions rfl coherent.start_known
  start := rfl
  subset := List.nil_subset _

theorem attributed (left : UnitsLeft g h) (attributes : AttributeTable) : UnitsLeft g { h with attributes } where
  coherent := left.coherent.attributed attributes
  start := left.start
  subset := left.subset

-- A copy has an origin, so there was a production and with it a start symbol.
theorem added (coherent : g.Coherent) (left : UnitsLeft g h) {p : Production}
    (copy : p ∈ Units.withoutUnits g.productions g.nonterminals.names) : UnitsLeft g (h.added p) where
  coherent := left.coherent.added p
  start := by
    obtain ⟨origin, rule, -⟩ := Units.body_of_mem_withoutUnits copy
    obtain ⟨start, started⟩ := coherent.started (List.ne_nil_of_mem rule)
    rw [Grammar.start_added, left.start, started]
    rfl
  subset := by
    rw [Grammar.productions_added]
    exact List.append_subset.2 ⟨left.subset, List.cons_subset.2 ⟨copy, List.nil_subset _⟩⟩

theorem pruned (left : UnitsLeft g h) : UnitsLeft g h.pruned where
  coherent := left.coherent.pruned
  start := by rw [Grammar.start_pruned, left.start]
  subset := by
    rw [Grammar.productions_pruned]
    exact left.subset

theorem not_unit (left : UnitsLeft g h) {p : Production} (rule : p ∈ h.productions) : p.isUnit = false :=
  Units.withoutUnits_not_unit (left.subset rule)

theorem origin (left : UnitsLeft g h) {p : Production} (rule : p ∈ h.productions) :
    ∃ q ∈ g.productions, q.body = p.body :=
  Units.body_of_mem_withoutUnits (left.subset rule)

theorem sound (left : UnitsLeft g h) (closed : g.Closed) {name : String} {sentence : Sentence}
    (derived : h.DerivesFrom name sentence) : g.DerivesFrom name sentence :=
  (Units.derives_withoutUnits_iff fun p rule => (closed p rule).1).1 (derived.mono left.subset)

end UnitsLeft

theorem unitsLeft_of_removeUnits (coherent : g.Coherent) : UnitsLeft g (removeUnits g).grammar := by
  have loop : (takeOverAll g).Keeps (UnitsLeft g) := by
    refine keeps_forM fun name known => keeps_forM fun reached member => ?_
    refine keeps_takeOver (keeps_mergeAttributes (fun _ attributes left => left.attributed attributes) name) ?_
    refine fun p copied => keeps_addNewRule fun k _ _ left => left.added coherent ?_
    exact List.mem_flatMap.2 ⟨name, known, List.mem_flatMap.2 ⟨reached, member, copied⟩⟩
  rw [removeUnits_run]
  refine keeps_bind loop (fun _ => ?_) _ (.taken coherent)
  exact keeps_bind (fun _ left => left.pruned) fun _ => keeps_reportSymbols _ _ _

end ContextFree.Pass
