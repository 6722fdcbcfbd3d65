import ContextFree.Proofs.Edit.Refusal
import ContextFree.Proofs.Grammar.Orderly
import ContextFree.Proofs.Pass.Totality
import ContextFree.Proofs.Pass.UnitProductions

namespace ContextFree

namespace Grammar

variable {g : Grammar} {name : String}

theorem attributesOf_dropAll {symbols : List Symbol} (stays : .nonterminal name ∉ symbols) :
    (g.dropAll symbols).attributesOf name = g.attributesOf name := by
  unfold dropAll
  induction symbols generalizing g with
  | nil => rfl
  | cons symbol rest ih =>
    rw [List.mem_cons, not_or] at stays
    rw [List.foldl_cons, ih stays.2]
    cases symbol with
    | nonterminal other =>
      have differs : name ≠ other := fun same => stays.1 (same ▸ rfl)
      exact (Orderly.attributesOf_dropNonterminal name).trans (if_neg differs)
    | _ => rfl

theorem attributesOf_pruned (left : name ∈ g.pruned.nonterminals) :
    g.pruned.attributesOf name = g.attributesOf name := by
  have used : g.usesSymbol (.nonterminal name) = true := (@hasSymbol_pruned g (.nonterminal name)).1 left |>.2
  refine attributesOf_dropAll fun listed => ?_
  have unused : g.usesSymbol (.nonterminal name) = false := Bool.not_eq_true' _ ▸ (List.mem_filter.1 listed).2
  rw [used] at unused
  cases unused

end Grammar

namespace Pass

open Edit

variable {g h k l : Grammar} {u : Unit} {name reached : String} {kind : AttributeKind} {letter : Char} {fault : Fault}

def handovers (g : Grammar) : List (String × String) :=
  g.nonterminals.names.flatMap fun name => (Units.reach g.productions name).map fun reached => (name, reached)

theorem mem_handovers : (name, reached) ∈ handovers g ↔ name ∈ g.nonterminals ∧
    reached ∈ Units.reach g.productions name := by
  simp only [handovers, List.mem_flatMap, List.mem_map, Prod.mk.injEq]
  constructor
  · intro ⟨_, known, _, member, rfl, rfl⟩
    exact ⟨known, member⟩
  · intro ⟨known, member⟩
    exact ⟨name, known, reached, member, rfl, rfl⟩

theorem takeOverAll_eq (g : Grammar) :
    takeOverAll g = (handovers g).forM fun pair => takeOver g.productions pair.1 pair.2 := by
  rw [handovers, ← forM_flatMap]
  simp only [takeOverAll, List.forM_eq_forM, List.forM_map]

theorem attributes_of_addNewRules {rules : List Production} (ran : (rules.forM addNewRule).Succeeds k u l) :
    l.attributes = k.attributes := by
  refine ran.forM_induction (P := fun m => m.attributes = k.attributes) rfl fun p _ m n one same => ?_
  rw [Succeeds.addNewRule one]
  rcases Grammar.addedNew_cases m p with none | new
  · rw [none, same]
  · rw [new, Grammar.attributes_added, same]

theorem attributesOf_takeOver {productions : List Production}
    (ran : (takeOver productions name reached).Succeeds k u l) :
    (l.attributesOf name = (k.attributesOf name).merge (k.attributesOf reached) ∧
      ∀ other, other ≠ name → l.attributesOf other = k.attributesOf other) ∧
      ((k.attributesOf name).Apart → (l.attributesOf name).Apart) := by
  obtain ⟨m, copied, stage⟩ := takeOver_cases ran
  have same : ∀ other, l.attributesOf other = m.attributesOf other := by
    intro other
    rw [Grammar.attributesOf, Grammar.attributesOf?, attributes_of_addNewRules copied]
    rfl
  simp only [same]
  rcases stage with ⟨rfl, rfl | none⟩ | merged
  · exact ⟨⟨(Attributes.merge_self _).symm, fun _ _ => rfl⟩, id⟩
  · rw [none, Attributes.merge_empty]
    exact ⟨⟨rfl, fun _ _ => rfl⟩, id⟩
  · obtain ⟨sets, apart⟩ := sets_of_mergeAttributes merged
    rw [← sets.here] at apart
    exact ⟨⟨sets.here, sets.others⟩, apart⟩

/-- While attributes are gathered, a name has its own ones and else only ones of the names it reaches. -/
structure Gathering (g k : Grammar) : Prop where
  known : ∀ name ∈ g.nonterminals, name ∈ k.nonterminals
  grown : ∀ name kind letter, letter ∈ (g.attributesOf name).ofKind kind → letter ∈ (k.attributesOf name).ofKind kind
  within : ∀ name kind letter, letter ∈ (k.attributesOf name).ofKind kind →
    ∃ reached ∈ Units.reach g.productions name, letter ∈ (g.attributesOf reached).ofKind kind
  apart : ∀ name, (k.attributesOf name).Apart

namespace Gathering

theorem taken (apart : ∀ name, (g.attributesOf name).Apart) : Gathering g { g with productions := [] } where
  known _ known := known
  grown _ _ _ member := member
  within name _ _ member := ⟨name, Units.self_mem_reach g.productions name, member⟩
  apart := apart

theorem takeOver (gathering : Gathering g k) (member : reached ∈ Units.reach g.productions name)
    (ran : (takeOver g.productions name reached).Succeeds k u l) : Gathering g l := by
  obtain ⟨⟨here, others⟩, apart⟩ := attributesOf_takeOver ran
  refine ⟨fun other present => ?_, fun other kind letter old => ?_, fun other kind letter held => ?_, fun other => ?_⟩
  · exact (adds_of_takeOver ran).symbols (.nonterminal other) (gathering.known other present)
  all_goals by_cases same : other = name
  · subst same
    rw [here]
    exact Attributes.mem_merge_ofKind.2 (Or.inl (gathering.grown other kind letter old))
  · rw [others other same]
    exact gathering.grown other kind letter old
  · subst same
    rw [here] at held
    rcases Attributes.mem_merge_ofKind.1 held with own | new
    · exact gathering.within other kind letter own
    · -- What the reached name has gathered comes from names that the name reaches through it.
      obtain ⟨origin, further, first⟩ := gathering.within reached kind letter new
      exact ⟨origin, Units.reach_subset member further, first⟩
  · rw [others other same] at held
    exact gathering.within other kind letter held
  · subst same
    exact apart (gathering.apart other)
  · rw [others other same]
    exact gathering.apart other

theorem lowercase (gathering : Gathering g k) (lower : ∀ name, (g.attributesOf name).Lowercase) (name : String) :
    (k.attributesOf name).Lowercase := by
  intro letter member
  obtain ⟨origin, -, first⟩ := gathering.within name .static letter member
  exact lower origin letter first

theorem handovers {pairs : List (String × String)} (gathering : Gathering g k) (listed : pairs ⊆ handovers g)
    (ran : (pairs.forM fun pair => Pass.takeOver g.productions pair.1 pair.2).Succeeds k u l) : Gathering g l :=
  ran.forM_induction gathering fun _ member _ _ one before => before.takeOver (mem_handovers.1 (listed member)).2 one

end Gathering

theorem grows_of_handovers {pairs : List (String × String)}
    (ran : (pairs.forM fun pair => takeOver g.productions pair.1 pair.2).Succeeds k u l)
    (held : letter ∈ (k.attributesOf name).ofKind kind) : letter ∈ (l.attributesOf name).ofKind kind := by
  refine ran.forM_induction (P := fun m => letter ∈ (m.attributesOf name).ofKind kind) held fun pair _ m n one old => ?_
  obtain ⟨⟨here, others⟩, -⟩ := attributesOf_takeOver one
  by_cases same : name = pair.1
  · rw [same, here, ← same]
    exact Attributes.mem_merge_ofKind.2 (Or.inl old)
  · rwa [others name same]

theorem gathering_of_takeOverAll (apart : ∀ name, (g.attributesOf name).Apart)
    (looped : (takeOverAll g).Succeeds { g with productions := [] } u k) : Gathering g k := by
  rw [takeOverAll_eq] at looped
  exact (Gathering.taken apart).handovers (List.Subset.refl _) looped

/-- In the end a name has just what the names that it reaches had at first. -/
theorem mem_attributesOf_takeOverAll (apart : ∀ name, (g.attributesOf name).Apart) (known : name ∈ g.nonterminals)
    (looped : (takeOverAll g).Succeeds { g with productions := [] } u k) : letter ∈ (k.attributesOf name).ofKind kind ↔
      ∃ reached ∈ Units.reach g.productions name, letter ∈ (g.attributesOf reached).ofKind kind := by
  constructor
  · exact (gathering_of_takeOverAll apart looped).within name kind letter
  · intro ⟨reached, member, first⟩
    obtain ⟨before, after, split⟩ := List.append_of_mem (mem_handovers.2 ⟨known, member⟩)
    have listed : before ⊆ handovers g := split ▸ List.subset_append_left before _
    rw [takeOverAll_eq, split] at looped
    obtain ⟨l, early, looped⟩ := succeeds_forM_append.1 looped
    obtain ⟨m, now, late⟩ := succeeds_forM_cons.1 looped
    -- The reached name still has the letter when the pair has its turn, and then the name has it too.
    have still := ((Gathering.taken apart).handovers listed early).grown reached kind letter first
    apply grows_of_handovers late
    rw [(attributesOf_takeOver now).1.1]
    exact Attributes.mem_merge_ofKind.2 (Or.inr still)

theorem symbols_of_takeOverAll (closed : g.Closed)
    (looped : (takeOverAll g).Succeeds { g with productions := [] } u k) :
    ∀ symbol, k.hasSymbol symbol → g.hasSymbol symbol := by
  have keeps : (takeOverAll g).Keeps fun m => ∀ symbol, m.hasSymbol symbol → g.hasSymbol symbol := by
    refine keeps_forM fun name known => keeps_forM fun reached _ => keeps_takeOver ?_ fun q copied => ?_
    · apply keeps_mergeAttributes
      intro m attributes within symbol present
      exact within symbol (by cases symbol <;> exact present)
    · apply keeps_addNewRule
      intro m _ _ within symbol present
      obtain ⟨p, listed, rfl⟩ := List.mem_map.1 copied
      rcases Grammar.hasSymbol_added.1 present with inBody | rfl | old
      · exact (closed p (List.mem_filter.1 listed).1).2 symbol inBody
      · exact known
      · exact within symbol old
  exact keeps.of_succeeds looped fun symbol present => Grammar.hasSymbol_productions.1 present

theorem mem_attributesOf_removeUnits (closed : g.Closed) (apart : ∀ name, (g.attributesOf name).Apart)
    (ran : removeUnits.Succeeds g u h) (left : name ∈ h.nonterminals) : letter ∈ (h.attributesOf name).ofKind kind ↔
      ∃ reached ∈ Units.reach g.productions name, letter ∈ (g.attributesOf reached).ofKind kind := by
  obtain ⟨k, looped, rfl⟩ := takeOverAll_of_removeUnits ran
  have present : k.hasSymbol (.nonterminal name) := (@Grammar.hasSymbol_pruned k (.nonterminal name)).1 left |>.1
  rw [Grammar.attributesOf_pruned left]
  exact mem_attributesOf_takeOverAll apart (symbols_of_takeOverAll closed looped _ present) looped

section Refusal

theorem refuses_removeUnits :
    removeUnits.Refuses g fault ↔ (takeOverAll g).Refuses { g with productions := [] } fault := by
  have rest : ∀ k, (removeUnused >>= reportSymbols "`" "` is no longer used").Runs k := fun k =>
    runs_bind ⟨_, _, succeeds_removeUnused.2 ⟨rfl, rfl⟩⟩ fun unused h _ => runs_reportSymbols _ _ unused h
  rw [Refuses, removeUnits_run]
  refine refuses_bind.trans (or_iff_left ?_)
  intro later
  obtain ⟨_, k, -, refused⟩ := later
  exact (rest k).not_refuses refused

/-- A copy has a legal head. Only a name that takes over from itself alone may head nothing before. -/
theorem legal_of_mem_copies (legal : ∀ p ∈ g.productions, p.Legal) (member : reached ∈ Units.reach g.productions name)
    {q : Production} (copied : q ∈ copies g.productions name reached) : q.Legal := by
  obtain ⟨p, listed, rfl⟩ := List.mem_map.1 copied
  obtain ⟨rule, test⟩ := List.mem_filter.1 listed
  have heads : p.head = reached := eq_of_beq (Bool.and_eq_true_iff.1 test).1
  have head : Name.checkNonterminal name = .ok () := by
    rcases Units.eq_or_headed_of_mem_reach member with same | ⟨other, first, rfl⟩
    · rw [← same, ← heads]
      exact (legal p rule).head
    · exact (legal other first).head
  exact ⟨head, (legal p rule).body, (legal p rule).weight⟩

theorem bare_of_addCopies {productions : List Production} (legal : ∀ q ∈ copies productions name reached, q.Legal)
    (refused : ((copies productions name reached).forM addNewRule).Refuses k fault) :
    ∃ p ∈ productions, p.head = reached ∧ p.body = [] ∧ fault = .invalid (.emptyBody name) := by
  obtain ⟨before, q, after, m, split, -, now⟩ := refuses_forM_iff.1 refused
  have copied : q ∈ copies productions name reached := split ▸ List.mem_append_right before List.mem_cons_self
  obtain ⟨bare, same⟩ := bare_of_addNewRule (legal q copied) now
  obtain ⟨p, listed, rfl⟩ := List.mem_map.1 copied
  obtain ⟨rule, test⟩ := List.mem_filter.1 listed
  exact ⟨p, rule, eq_of_beq (Bool.and_eq_true_iff.1 test).1, bare, same⟩

theorem clash_or_bare_of_takeOver {productions : List Production} (known : name ∈ k.nonterminals)
    (lower : (k.attributesOf reached).Lowercase) (legal : ∀ q ∈ copies productions name reached, q.Legal)
    (refused : (takeOver productions name reached).Refuses k fault) :
    (∃ letter present, fault = .clash letter name present ∧
      letter ∈ ((k.attributesOf name).merge (k.attributesOf reached)).inherited ∧
        letter ∈ ((k.attributesOf name).merge (k.attributesOf reached)).synthesized) ∨
      ∃ p ∈ productions, p.head = reached ∧ p.body = [] ∧ fault = .invalid (.emptyBody name) := by
  unfold takeOver at refused
  split at refused
  · obtain ⟨_, _, told, refused⟩ := refuses_bind_of_runs (runs_report _ _ k) refused
    obtain rfl := succeeds_debug.1 told
    obtain ⟨_, _, found, refused⟩ := refuses_bind_of_runs ⟨k, k, succeeds_grammar.2 ⟨rfl, rfl⟩⟩ refused
    obtain ⟨rfl, rfl⟩ := succeeds_grammar.1 found
    split at refused
    · next attributes entry =>
      have same : k.attributesOf reached = attributes := by rw [Grammar.attributesOf, entry]; rfl
      rw [← same] at refused
      rcases refuses_bind.1 refused with merging | ⟨_, m, -, copying⟩
      · exact Or.inl (clash_of_mergeAttributes known lower merging)
      · exact Or.inr (bare_of_addCopies legal copying)
    · exact Or.inr (bare_of_addCopies legal refused)
  · exact Or.inr (bare_of_addCopies legal refused)

/-- The pass is refused where the names that a name reaches disagree on a letter, or where one of them has
a production without a body. -/
theorem clash_or_bare_of_takeOverAll (legal : ∀ p ∈ g.productions, p.Legal)
    (apart : ∀ name, (g.attributesOf name).Apart) (lowercase : ∀ name, (g.attributesOf name).Lowercase)
    (refused : (takeOverAll g).Refuses { g with productions := [] } fault) : ∃ name ∈ g.nonterminals,
      (∃ letter present, fault = .clash letter name present ∧
        (∃ reached ∈ Units.reach g.productions name, letter ∈ (g.attributesOf reached).inherited) ∧
          ∃ reached ∈ Units.reach g.productions name, letter ∈ (g.attributesOf reached).synthesized) ∨
      ∃ p ∈ g.productions, p.head ∈ Units.reach g.productions name ∧ p.body = [] ∧
        fault = .invalid (.emptyBody name) := by
  rw [takeOverAll_eq] at refused
  obtain ⟨before, ⟨name, reached⟩, after, k, split, early, now⟩ := refuses_forM_iff.1 refused
  have listed : before ⊆ handovers g := split ▸ List.subset_append_left before _
  have gathering := (Gathering.taken apart).handovers listed early
  obtain ⟨known, member⟩ := mem_handovers.1 (split ▸ List.mem_append_right before List.mem_cons_self)
  refine ⟨name, known, ?_⟩
  rcases clash_or_bare_of_takeOver (gathering.known name known) (gathering.lowercase lowercase reached)
    (fun _ => legal_of_mem_copies legal member) now with
      ⟨letter, present, same, inherited, synthesized⟩ | ⟨p, rule, rfl, bare, same⟩
  · -- Both names have gathered from names that the first one reaches.
    have origin : ∀ kind, letter ∈ ((k.attributesOf name).merge (k.attributesOf reached)).ofKind kind →
        ∃ origin ∈ Units.reach g.productions name, letter ∈ (g.attributesOf origin).ofKind kind := by
      intro kind held
      rcases Attributes.mem_merge_ofKind.1 held with own | new
      · exact gathering.within name kind letter own
      · obtain ⟨origin, further, first⟩ := gathering.within reached kind letter new
        exact ⟨origin, Units.reach_subset member further, first⟩
    exact Or.inl ⟨letter, present, same, origin .inherited inherited, origin .synthesized synthesized⟩
  · exact Or.inr ⟨p, rule, member, bare, same⟩

theorem refuses_of_clash (apart : ∀ name, (g.attributesOf name).Apart) (known : name ∈ g.nonterminals)
    (inherited : ∃ reached ∈ Units.reach g.productions name, letter ∈ (g.attributesOf reached).inherited)
    (synthesized : ∃ reached ∈ Units.reach g.productions name, letter ∈ (g.attributesOf reached).synthesized) :
    ∃ fault, (takeOverAll g).Refuses { g with productions := [] } fault := by
  rw [exists_refuses_iff]
  intro ⟨_, k, looped⟩
  have gathered := fun kind => (@mem_attributesOf_takeOverAll g k _ name kind letter apart known looped).2
  have both := (gathering_of_takeOverAll apart looped).apart name letter
  exact both (gathered .inherited inherited) (gathered .synthesized synthesized)

theorem keeps_takeOverAll_filled (g : Grammar) : (takeOverAll g).Keeps fun k => ∀ p ∈ k.productions, p.body ≠ [] := by
  refine keeps_forM fun name _ => keeps_forM fun reached _ => keeps_takeOver ?_ fun q _ => ?_
  · exact fun _ => keeps_mergeAttributes (fun _ _ filled => filled) name _
  · apply keeps_addNewRule
    intro k filled _ before p rule
    rw [Grammar.productions_added, List.mem_append, List.mem_singleton] at rule
    rcases rule with old | rfl
    · exact before p old
    · exact filled

/-- If the loop came to an end, the rule would be among the copies that it has added. -/
theorem refuses_of_bare {p : Production} (known : p.head ∈ g.nonterminals) (rule : p ∈ g.productions)
    (bare : p.body = []) :
    ∃ fault, (takeOverAll g).Refuses { g with productions := [] } fault := by
  rw [exists_refuses_iff]
  rintro ⟨_, k, looped⟩
  have stays : p.isUnit = false := by rw [Production.isUnit, Production.unitTarget?, bare]; rfl
  have copied : p ∈ Units.withoutUnits g.productions g.nonterminals.names :=
    Units.mem_withoutUnits.2 ⟨known, p, rule, Units.self_mem_reach g.productions p.head, stays, rfl⟩
  obtain ⟨q, added, same⟩ := Production.distinctRules_covers copied
  rw [← (adds_of_takeOverAll looped).productions_of_nil rfl] at added
  have filled := (keeps_takeOverAll_filled g).of_succeeds looped (fun _ none => absurd none List.not_mem_nil) q added
  exact filled ((Production.sameRule_iff.1 same).2.trans bare)

end Refusal

end Pass

end ContextFree
