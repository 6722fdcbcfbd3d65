import ContextFree.Proofs.Pass.Gathering
import ContextFree.Proofs.Pass.WellFormed
import ContextFree.Proofs.Reading.Coherent

namespace ContextFree.Pass

open Edit

variable {g h : Grammar}

/-- No unit production is left and each rule stands once, but every nonterminal derives what it derived
before. A body has the weight that it has where it is met first along the chains from its head. The head
itself comes first of all, and what a shorter chain leads to before what only longer ones do. -/
theorem unitProductions_exact (closed : g.Closed) (ran : unitProductions.run.Succeeds g () h) :
    (∀ p ∈ h.productions, ∀ target, p.body ≠ [.nonterminal target]) ∧
      Production.Distinct h.productions ∧
      (∀ name sentence, h.DerivesFrom name sentence ↔ g.DerivesFrom name sentence) ∧
      (∀ name, Units.Traces g.productions name (Units.reach g.productions name)) ∧
      ∀ p, p ∈ h.productions ↔ p.head ∈ g.nonterminals ∧
        ((Units.offers g.productions (Units.reach g.productions p.head)).find? (·.body == p.body)).map
          Production.weight = some p.weight := by
  have productions := productions_of_removeUnits ran
  refine ⟨?_, ?_, derives_of_withoutUnits closed productions, Units.traces_reach g.productions, ?_⟩
  · intro p rule target single
    rw [productions] at rule
    have stays := Units.withoutUnits_not_unit (Production.mem_of_mem_distinctRules rule)
    rw [Units.isUnit_iff.2 ⟨target, single⟩] at stays
    cases stays
  · rw [productions]
    exact Production.distinct_distinctRules _
  · intro p
    rw [productions]
    exact Units.mem_distinctRules_withoutUnits

-- The chains from S run in circles. A reaches both B and S in one step, and B is found first; C has no
-- productions at all.
def cyclicText : String :=
  "S -2-> A ;\nS -3-> 'x' ;\nA -1-> B ;\nA -6-> S ;\nB -5-> 'x' ;\nB -7-> S 'b' ;\nB -4-> A ;\nB -8-> C ;\nS -1-> S ;"

def cyclicSample : Reading.Sample .weighted cyclicText (fun g =>
    decide ((unitProductions.run g).result = .ok ()) &&
      (unitProductions.run g).grammar.productions.map (fun p => (p.head, p.weight.text)) ==
        [("S", "3"), ("S", "7"), ("A", "5"), ("A", "7"), ("B", "5"), ("B", "7")]) := .ofChars rfl (by decide +kernel)

theorem unitProductions_of_cycle : ∃ g h, Reading.readText .weighted cyclicText = .ok g ∧
    g.Closed ∧ unitProductions.run.Succeeds g () h ∧
    h.productions.map (fun p => (p.head, p.weight.text)) =
      [("S", "3"), ("S", "7"), ("A", "5"), ("A", "7"), ("B", "5"), ("B", "7")] ∧
    (∀ name sentence, h.DerivesFrom name sentence ↔ g.DerivesFrom name sentence) ∧
      ∀ p, p ∈ h.productions ↔ p.head ∈ g.nonterminals ∧
        ((Units.offers g.productions (Units.reach g.productions p.head)).find? (·.body == p.body)).map
          Production.weight = some p.weight := by
  obtain ⟨g, read, came⟩ := cyclicSample
  obtain ⟨succeeds, weights⟩ := Bool.and_eq_true_iff.1 came
  have closed := (Reading.coherent_of_readText read).closed
  have ran : unitProductions.run.Succeeds g () (unitProductions.run g).grammar := ⟨of_decide_eq_true succeeds, rfl⟩
  obtain ⟨-, -, derives, -, rules⟩ := unitProductions_exact closed ran
  exact ⟨g, _, read, closed, ran, eq_of_beq weights, derives, rules⟩

/-- The chains from some name lead to one that inherits a letter and to one that synthesizes it. -/
def Disputed (g : Grammar) : Prop :=
  ∃ name ∈ g.nonterminals, ∃ first second letter,
    Units.Chained g.productions name first ∧ Units.Chained g.productions name second ∧
      letter ∈ (g.attributesOf first).inherited ∧ letter ∈ (g.attributesOf second).synthesized

/-- It makes no difference that a name takes over attributes that others have just taken over. The pass is
refused just if a letter is both inherited and synthesized among the names that one name's chains lead to,
or a production has lost its body, and it is refused for what there is of these. If there is neither, each
name that is left has the attributes that all the names had which its chains lead to. -/
theorem attributes_gathered (closed : g.Closed) (legal : ∀ p ∈ g.productions, p.Legal)
    (apart : ∀ name, (g.attributesOf name).Apart) (lowercase : ∀ name, (g.attributesOf name).Lowercase) :
    ((∃ fault, unitProductions.run.Refuses g fault) ↔ Disputed g ∨ ∃ p ∈ g.productions, p.body = []) ∧
    (∀ fault, unitProductions.run.Refuses g fault →
      (Disputed g ∧ ∃ letter owner present, fault = .clash letter owner present) ∨
      ∃ p ∈ g.productions, p.body = [] ∧
        ∃ owner, Units.Chained g.productions owner p.head ∧ fault = .invalid (.emptyBody owner)) ∧
    ∀ h, unitProductions.run.Succeeds g () h → ∀ name ∈ h.nonterminals, ∀ letter,
      (letter ∈ (h.attributesOf name).inherited ↔
        ∃ reached, Units.Chained g.productions name reached ∧ letter ∈ (g.attributesOf reached).inherited) ∧
      (letter ∈ (h.attributesOf name).synthesized ↔
        ∃ reached, Units.Chained g.productions name reached ∧ letter ∈ (g.attributesOf reached).synthesized) := by
  have cause : ∀ fault, unitProductions.run.Refuses g fault →
      (Disputed g ∧ ∃ letter owner present, fault = .clash letter owner present) ∨
      ∃ p ∈ g.productions, p.body = [] ∧
        ∃ owner, Units.Chained g.productions owner p.head ∧ fault = .invalid (.emptyBody owner) := by
    intro fault refused
    obtain ⟨name, known, clash | ⟨p, rule, reaches, bare, same⟩⟩ :=
      clash_or_bare_of_takeOverAll legal apart lowercase (refuses_removeUnits.1 refused)
    · obtain ⟨letter, present, same, ⟨first, one, inherited⟩, second, two, synthesized⟩ := clash
      refine Or.inl ⟨⟨name, known, first, second, letter, ?_, ?_, inherited, synthesized⟩, letter, name, present, same⟩
      · exact Units.mem_reach_iff.1 one
      · exact Units.mem_reach_iff.1 two
    · exact Or.inr ⟨p, rule, bare, name, Units.mem_reach_iff.1 reaches, same⟩
  refine ⟨⟨?_, ?_⟩, cause, fun h ran name left letter => ?_⟩
  · intro ⟨fault, refused⟩
    rcases cause fault refused with ⟨disputed, -⟩ | ⟨p, rule, bare, -⟩
    · exact Or.inl disputed
    · exact Or.inr ⟨p, rule, bare⟩
  · rintro (⟨name, known, first, second, letter, one, two, inherited, synthesized⟩ | ⟨p, rule, bare⟩)
    · obtain ⟨fault, refused⟩ := refuses_of_clash apart known
        ⟨first, Units.mem_reach_iff.2 one, inherited⟩ ⟨second, Units.mem_reach_iff.2 two, synthesized⟩
      exact ⟨fault, refuses_removeUnits.2 refused⟩
    · obtain ⟨fault, refused⟩ := refuses_of_bare (closed p rule).1 rule bare
      exact ⟨fault, refuses_removeUnits.2 refused⟩
  · simp only [← Units.mem_reach_iff]
    constructor
    · exact @mem_attributesOf_removeUnits g h _ name .inherited letter closed apart ran left
    · exact @mem_attributesOf_removeUnits g h _ name .synthesized letter closed apart ran left

-- A takes over from S what S has just taken over from B.
def handedOnText : String := "S\x7b;s\x7d -1-> A ;\nA\x7ba;\x7d -2-> B ;\nA\x7ba;\x7d -1-> S ;\nB\x7bb;\x7d -3-> 'x' ;"

def handedOnSample : Reading.Sample .weighted handedOnText (fun g =>
    decide ((unitProductions.run g).result = .ok ()) && ["S", "A", "B"].map
      (fun name => ((unitProductions.run g).grammar.attributesOf name).headText) == ["a,b;s", "a,b;s", "b;"]) :=
  .ofChars rfl (by decide +kernel)

-- A and C do not reach each other, but S reaches both.
def disputedText : String := "S -1-> A ;\nS -2-> B ;\nA\x7ba;\x7d -3-> 'x' ;\nB -4-> C ;\nC\x7bb;a\x7d -5-> 'y' ;"

def disputedSample : Reading.Sample .weighted disputedText (fun g =>
    decide ((unitProductions.run g).result = .error (.clash 'a' "S" .inherited))) := .ofChars rfl (by decide +kernel)

-- The split of bodies is refused when it has taken the body of S.
def bareText : String := "S = A '#' 'b' ;\nA = 'a' ;"

def bareSample : Reading.Sample .plain bareText (fun g =>
    let left := (splitBodies.run g).grammar
    decide ((splitBodies.run g).result = .error (.invalid (.leadingName "#-b" '#'))) && decide left.Closed &&
      left.attributes.entries.isEmpty &&
      decide ((unitProductions.run left).result = .error (.invalid (.emptyBody "S")))) :=
  .ofChars rfl (by decide +kernel)

theorem attributes_gathered_of_cycle : ∃ g h disputed source left,
    Reading.readText .weighted handedOnText = .ok g ∧ Reading.readText .weighted disputedText = .ok disputed ∧
    Reading.readText .plain bareText = .ok source ∧ (splitBodies.run source).grammar = left ∧
    unitProductions.run.Succeeds g () h ∧
    ["S", "A", "B"].map (fun name => (h.attributesOf name).headText) = ["a,b;s", "a,b;s", "b;"] ∧
    (∀ name ∈ h.nonterminals, ∀ letter, letter ∈ (h.attributesOf name).inherited ↔
      ∃ reached, Units.Chained g.productions name reached ∧ letter ∈ (g.attributesOf reached).inherited) ∧
    unitProductions.run.Refuses disputed (.clash 'a' "S" .inherited) ∧ Disputed disputed ∧
    unitProductions.run.Refuses left (.invalid (.emptyBody "S")) ∧ ∃ p ∈ left.productions, p.body = [] := by
  obtain ⟨g, read, came⟩ := handedOnSample
  obtain ⟨disputed, readDisputed, clashed⟩ := disputedSample
  obtain ⟨source, readSource, split⟩ := bareSample
  obtain ⟨succeeds, sets⟩ := Bool.and_eq_true_iff.1 came
  simp only [Bool.and_eq_true, decide_eq_true_eq] at clashed split
  obtain ⟨⟨⟨-, closed⟩, -⟩, refused⟩ := split
  have good := Reading.wellFormed_of_readText read
  have disputedGood := Reading.wellFormed_of_readText readDisputed
  have ran : unitProductions.run.Succeeds g () (unitProductions.run g).grammar := ⟨of_decide_eq_true succeeds, rfl⟩
  have gathered := (attributes_gathered good.closed good.legal good.apart good.lowercase).2.2 _ ran
  have clash :=
    (attributes_gathered disputedGood.closed disputedGood.legal disputedGood.apart disputedGood.lowercase).2.1
  have legal := stable_legal.keeps_splitAll source (Reading.legal_of_readText readSource)
  have grounded := additive_grounded.keeps_splitAll source (Reading.wellFormed_of_readText readSource).toGrounded
  have bare := (attributes_gathered closed (fun _ => legal.production closed) grounded.apart grounded.lowercase).2.1
  refine ⟨g, _, disputed, source, _, read, readDisputed, readSource, rfl, ran, eq_of_beq sets,
    fun name left letter => (gathered name left letter).1, clashed, ?_, refused, ?_⟩
  · rcases clash _ clashed with ⟨holds, -⟩ | ⟨_, -, -, _, -, other⟩
    · exact holds
    · cases other
  · rcases bare _ refused with ⟨-, _, _, _, other⟩ | ⟨p, rule, lost, -⟩
    · cases other
    · exact ⟨p, rule, lost⟩

/-- After a refused split there is nothing to dispute, and the pass is refused even so. -/
theorem unitProductions_refused_for_lost_body : ∃ source left, Reading.readText .plain bareText = .ok source ∧
    splitBodies.run.Fails source (.invalid (.leadingName "#-b" '#')) left ∧ left.Closed ∧ ¬ Disputed left ∧
    unitProductions.run.Refuses left (.invalid (.emptyBody "S")) := by
  obtain ⟨source, read, split⟩ := bareSample
  simp only [Bool.and_eq_true, decide_eq_true_eq] at split
  obtain ⟨⟨⟨failed, closed⟩, unattributed⟩, refused⟩ := split
  refine ⟨source, _, read, ⟨failed, rfl⟩, closed, ?_, refused⟩
  rintro ⟨-, -, first, -, letter, -, -, inherited, -⟩
  have none : (splitBodies.run source).grammar.attributesOf first = ∅ := by
    rw [Grammar.attributesOf, Grammar.attributesOf?, AttributeTable.get?, List.isEmpty_iff.1 unattributed]
    rfl
  rw [none] at inherited
  exact Letters.not_mem_empty letter inherited

end ContextFree.Pass
