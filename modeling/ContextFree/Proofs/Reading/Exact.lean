import ContextFree.Proofs.Grammar.Assembled
import ContextFree.Proofs.Reading.Building
import ContextFree.Proofs.Reading.Coherent
import ContextFree.Proofs.Reading.Layout
import ContextFree.Proofs.Weight

namespace ContextFree

open Edit Text

namespace Reading

/-- What the rules of a text have to fulfil beyond being written as rules. -/
structure Agree (rules : List Rule) : Prop where
  terminals : ∀ rule ∈ rules, ∀ alternative ∈ rule.alternatives, ∀ occurrence ∈ alternative, ∀ value,
    occurrence.symbol = .terminal value → ∀ c ∈ value.toList, isBlank c = false
  apart : ∀ name, (declared rules name).Apart
  annotations : ∀ rule ∈ rules, ∀ alternative ∈ rule.alternatives, ∀ occurrence ∈ alternative, ∀ name letters,
    occurrence.symbol = .nonterminal name → occurrence.annotation = some letters →
      letters = (declared rules name).static
  weights : ∀ rule ∈ rules, ∀ kind letter,
    rule.weight = .attribute kind letter → letter ∈ (declared rules rule.head).ofKind kind

/-- A grammar is the one that the rules of a text describe. -/
structure Describes (kind : Kind) (rules : List Rule) (g : Grammar) : Prop where
  kind : g.kind = kind
  productions : g.productions = rules.flatMap Rule.productions
  nonterminals : g.nonterminals.names = (Production.nonterminals g.productions).eraseDups
  terminals : g.terminals.names = (Production.terminals g.productions).eraseDups
  start : g.start = rules.head?.map Rule.head
  attributes : ∀ name, g.attributesOf name = declared rules name

structure IsSound (rule : Rule) : Prop where
  some : rule.alternatives ≠ []
  filled : ∀ alternative ∈ rule.alternatives, alternative ≠ []
  head : Name.checkNonterminal rule.head = .ok ()
  symbols : ∀ alternative ∈ rule.alternatives, ∀ occurrence ∈ alternative,
    (∀ name, occurrence.symbol = .nonterminal name → Name.checkNonterminal name = .ok ()) ∧
      ∀ value, occurrence.symbol = .terminal value → value.toList ≠ [] ∧ '\'' ∉ value.toList
  weight : rule.weight.IsCanonical
  lowercase : rule.attributes.Lowercase

section Sound

variable {kind : Kind} {token : Token} {tokens : List Token} {rule : Rule} {occurrence : Occurrence}

theorem symbol_of_written (legal : token.IsLegal) (written : occurrence.IsWritten kind token) :
    (∀ name, occurrence.symbol = .nonterminal name → Name.checkNonterminal name = .ok ()) ∧
      ∀ value, occurrence.symbol = .terminal value → value.toList ≠ [] ∧ '\'' ∉ value.toList := by
  cases written with
  | terminal =>
    refine ⟨nofun, fun value same => ?_⟩
    cases same
    exact legal
  | empty => exact ⟨nofun, nofun⟩
  | bare =>
    refine ⟨fun name same => ?_, nofun⟩
    cases same
    exact legal
  | annotated =>
    refine ⟨fun name same => ?_, nofun⟩
    cases same
    exact legal

theorem symbols_of_written {occurrences : List Occurrence} (legal : ∀ token ∈ tokens, token.IsLegal)
    (written : List.Forall₂ (Occurrence.IsWritten kind) tokens occurrences) : ∀ occurrence ∈ occurrences,
      (∀ name, occurrence.symbol = .nonterminal name → Name.checkNonterminal name = .ok ()) ∧
        ∀ value, occurrence.symbol = .terminal value → value.toList ≠ [] ∧ '\'' ∉ value.toList := by
  intro occurrence member
  obtain ⟨token, listed, one⟩ := Rule.exists_of_forall₂_right written occurrence member
  exact symbol_of_written (legal token listed) one

theorem head_of_declares {head : String} {attributes : Attributes} (legal : token.IsLegal)
    (declares : Rule.Declares token head attributes) :
    Name.checkNonterminal head = .ok () ∧ attributes.Lowercase := by
  cases declares with
  | bare => exact ⟨legal, Attributes.lowercase_empty⟩
  | block _ inherited synthesized =>
    refine ⟨legal, fun c member => ?_⟩
    rcases Attributes.mem_static.1 member with first | second
    · exact Rule.isLetter_of_isList inherited c first
    · exact Rule.isLetter_of_isList synthesized c second

theorem ne_nil_of_forall₂ {α β : Type} {R : α → β → Prop} {xs : List α} {ys : List β} (related : List.Forall₂ R xs ys)
    (some : xs ≠ []) : ys ≠ [] := by
  rintro rfl
  exact some (List.forall₂_nil_right_iff.1 related)

theorem isSound_of_written (legal : ∀ token ∈ tokens, token.IsLegal) (written : rule.IsWritten kind tokens) :
    IsSound rule := by
  cases written with
  | @plain head bodies alternatives some filled read =>
    have each : ∀ body ∈ bodies, ∀ token ∈ body, token.IsLegal := fun body listed token member =>
      legal token (by simp [subset_intercalate listed member])
    refine ⟨ne_nil_of_forall₂ read some, fun alternative listed => ?_, legal _ List.mem_cons_self,
      fun alternative listed => ?_, Weight.isCanonical_one, Attributes.lowercase_empty⟩
    · obtain ⟨body, member, one⟩ := Rule.exists_of_forall₂_right read alternative listed
      exact ne_nil_of_forall₂ one (filled body member)
    · obtain ⟨body, member, one⟩ := Rule.exists_of_forall₂_right read alternative listed
      exact symbols_of_written (each body member) one
  | @weighted first head weightText attributes weight body occurrences declares parses filled read =>
    obtain ⟨headLegal, lowercase⟩ := head_of_declares (legal first List.mem_cons_self) declares
    have each : ∀ token ∈ body, token.IsLegal := fun token member => legal token (by simp [member])
    refine ⟨List.cons_ne_nil _ _, fun alternative listed => ?_, headLegal, fun alternative listed => ?_,
      Weight.isCanonical_of_read parses, lowercase⟩
    · rw [List.mem_singleton.1 listed]
      exact ne_nil_of_forall₂ read filled
    · rw [List.mem_singleton.1 listed]
      exact symbols_of_written each read

theorem IsSound.addable_iff (sound : IsSound rule) : Addable rule ↔
    ∀ alternative ∈ rule.alternatives, ∀ occurrence ∈ alternative, ∀ value,
      occurrence.symbol = .terminal value → ∀ c ∈ value.toList, isBlank c = false := by
  constructor
  · intro addable alternative listed occurrence member value same c inside
    have legal := (addable.legal _ (List.mem_map_of_mem listed)).2.body occurrence.symbol (List.mem_map_of_mem member)
    rw [same] at legal
    exact ((Name.checkValue_iff.1 legal).2 c inside).1
  · intro solid
    refine ⟨sound.some, fun p rule => ?_, sound.lowercase⟩
    obtain ⟨alternative, listed, rfl⟩ := List.mem_map.1 rule
    refine ⟨?_, sound.head, fun symbol inBody => ?_, Weight.check_of_isCanonical sound.weight⟩
    · rw [ne_eq, List.map_eq_nil_iff]
      exact sound.filled alternative listed
    · obtain ⟨occurrence, member, rfl⟩ := List.mem_map.1 inBody
      obtain ⟨names, tokens⟩ := sound.symbols alternative listed occurrence member
      cases same : occurrence.symbol with
      | nonterminal name => exact names name same
      | empty => rfl
      | terminal value =>
        obtain ⟨filled, unquoted⟩ := tokens value same
        refine Name.checkValue_iff.2 ⟨filled, fun c inside => ?_⟩
        refine ⟨solid alternative listed occurrence member value same c inside, ?_⟩
        rintro rfl
        exact unquoted inside

theorem Lays.isSound {lines : List (List Char)} {rules : List Rule} (lays : Lays kind lines rules) :
    ∀ rule ∈ rules, IsSound rule := by
  induction lays with
  | done => exact fun _ none => nomatch none
  | passed _ _ ih => exact ih
  | rule _ spells written _ ih => exact List.forall_mem_cons.2 ⟨isSound_of_written spells.isLegal written, ih⟩

end Sound

section Rules

variable {kind : Kind} {g h : Grammar} {placed : List (Placed Rule)} {rule : Rule} {rules : List Rule}

theorem addRules_iff : addRules placed g = (h, []) ↔ ((placed.map Placed.item).forM addRule).Succeeds g () h := by
  induction placed generalizing g with
  | nil => rw [addRules, List.map_nil, succeeds_forM_nil, Prod.mk.injEq, and_iff_left rfl]
  | cons rule rest ih =>
    rw [addRules, List.map_cons, succeeds_forM_cons]
    rcases ran : addRule rule.item g with ⟨result, k, log⟩
    cases result with
    | ok _ =>
      have first : ∀ l, (addRule rule.item).Succeeds g () l ↔ l = k := by
        intro l
        rw [Succeeds, ran]
        exact ⟨fun done => done.2.symm, fun same => ⟨rfl, same.symm⟩⟩
      simp only [first, exists_eq_left]
      exact ih
    | error fault =>
      simp [Succeeds, ran]

theorem weightProblem_eq_none_iff : weightProblem g rule = none ↔
    ∀ kind letter, rule.weight = .attribute kind letter → letter ∈ (g.attributesOf rule.head).ofKind kind := by
  unfold weightProblem
  split
  · next same => simp [same]
  · next kind letter same =>
    constructor
    · intro none other more again
      cases same.symm.trans again
      exact Decidable.byContradiction fun absent => by simp [absent] at none
    · intro declares
      rw [if_pos (declares kind letter same)]

theorem annotationProblem_eq_none_iff {occurrence : Occurrence} : annotationProblem g occurrence = none ↔
    ∀ name letters, occurrence.symbol = .nonterminal name → occurrence.annotation = some letters →
      letters = g.staticOf name := by
  unfold annotationProblem
  split
  · next name letters symbol annotation =>
    rw [symbol, annotation]
    constructor
    · rintro none _ _ ⟨⟩ ⟨⟩
      exact Decidable.byContradiction fun differs => by simp [differs] at none
    · intro agrees
      exact if_pos (agrees name letters rfl rfl)
  · next other => exact ⟨fun _ name letters symbol annotation => absurd annotation (other name letters symbol),
      fun _ => rfl⟩

theorem attributeProblems_eq_nil_iff : attributeProblems g rule = [] ↔
    (∀ kind letter, rule.weight = .attribute kind letter → letter ∈ (g.attributesOf rule.head).ofKind kind) ∧
      ∀ alternative ∈ rule.alternatives, ∀ occurrence ∈ alternative, ∀ name letters,
        occurrence.symbol = .nonterminal name → occurrence.annotation = some letters → letters = g.staticOf name := by
  rw [attributeProblems, List.append_eq_nil_iff, Option.toList_eq_nil_iff, weightProblem_eq_none_iff,
    List.flatMap_eq_nil_iff]
  simp only [List.filterMap_eq_nil_iff, annotationProblem_eq_none_iff]

theorem ofRules_eq_ok_iff : ofRules kind placed = .ok g ↔
    ((placed.map Placed.item).forM addRule).Succeeds { kind } () g ∧
      ∀ rule ∈ placed.map Placed.item, attributeProblems g rule = [] := by
  rw [← addRules_iff, List.forall_mem_map]
  unfold ofRules
  rcases addRules placed { kind } with ⟨h, refusals⟩
  have problems : ((placed.flatMap fun rule =>
      (attributeProblems h rule.item).map fun problem => (⟨rule.location, problem⟩ : Placed Problem)).isEmpty = true) ↔
        ∀ rule ∈ placed, attributeProblems h rule.item = [] := by
    simp only [List.isEmpty_iff, List.flatMap_eq_nil_iff, List.map_eq_nil_iff]
  dsimp only
  cases refusals with
  | nil =>
    rw [List.isEmpty_nil, if_pos rfl, Prod.mk.injEq, and_iff_left rfl]
    split
    · next clean =>
      rw [Except.ok.injEq]
      refine ⟨fun same => ⟨same, ?_⟩, And.left⟩
      rw [← same]
      exact problems.1 clean
    · next unclean =>
      refine ⟨nofun, fun ⟨same, each⟩ => ?_⟩
      rw [← same] at each
      exact absurd (problems.2 each) unclean
  | cons refusal rest => simp

/-- The rules of a text build a grammar just if they agree. -/
theorem builds_iff (sound : ∀ rule ∈ rules, IsSound rule) :
    (∃ g, (rules.forM addRule).Succeeds { kind } () g ∧ ∀ rule ∈ rules, attributeProblems g rule = []) ↔
      Agree rules := by
  simp only [attributeProblems_eq_nil_iff, Grammar.staticOf]
  constructor
  · rintro ⟨g, ran, problems⟩
    have gains := gains_of_addRules ran
    have attributes : ∀ name, g.attributesOf name = declared rules name := gains.attributes
    simp only [attributes] at problems
    refine ⟨fun rule listed => ?_, fun name => ?_, fun rule listed => (problems rule listed).2,
      fun rule listed => (problems rule listed).1⟩
    · have made := sound rule listed
      exact made.addable_iff.1 ⟨made.some, gains.legal rule listed, made.lowercase⟩
    · rw [← attributes]
      exact gains.apart (fun _ => Attributes.apart_empty) name
  · intro agree
    have addable : ∀ rule ∈ rules, Addable rule := fun rule listed =>
      (sound rule listed).addable_iff.2 (agree.terminals rule listed)
    obtain ⟨_, g, ran⟩ := @runs_addRules { kind } rules addable agree.apart
    have attributes : ∀ name, g.attributesOf name = declared rules name := (gains_of_addRules ran).attributes
    refine ⟨g, ran, fun rule listed => ?_⟩
    simp only [attributes]
    exact ⟨agree.weights rule listed, agree.annotations rule listed⟩

theorem assembled_of_readText {text : String} (read : readText kind text = .ok g) : g.Assembled := by
  apply readText_induction (Grammar.Assembled.empty kind) _ _ read
  · intro h p _ _ assembled
    exact assembled.added p
  · intro h attributes assembled
    exact assembled.attributed attributes

theorem describes_of_addRules (sound : ∀ rule ∈ rules, IsSound rule) (assembled : g.Assembled) (same : g.kind = kind)
    (ran : (rules.forM addRule).Succeeds { kind } () g) : Describes kind rules g := by
  have gains := gains_of_addRules ran
  have productions : g.productions = rules.flatMap Rule.productions := gains.productions
  refine ⟨same, productions, assembled.nonterminals, assembled.terminals, ?_, gains.attributes⟩
  rw [assembled.start, productions]
  cases rules with
  | nil => rfl
  | cons rule rest =>
    obtain ⟨first, more, alternatives⟩ := List.exists_cons_of_ne_nil (sound rule List.mem_cons_self).some
    rw [List.flatMap_cons, Rule.productions, alternatives]
    rfl

theorem exists_readText_iff {text : String} : (∃ g, readText kind text = .ok g) ↔
    ∃ rules, Lays kind (lines '\n' '\r' text.toList) rules ∧ Agree rules := by
  constructor
  · rintro ⟨g, read⟩
    obtain ⟨placed, results, built⟩ := readText_eq_ok_iff.1 read
    have lays := lays_of_results results
    exact ⟨_, lays, (builds_iff lays.isSound).1 ⟨g, ofRules_eq_ok_iff.1 built⟩⟩
  · rintro ⟨rules, lays, agree⟩
    obtain ⟨placed, results, rfl⟩ := @results_of_lays kind "" _ _ lays 1
    obtain ⟨g, ran⟩ := (@builds_iff kind _ lays.isSound).2 agree
    exact ⟨g, readText_eq_ok_iff.2 ⟨placed, results, ofRules_eq_ok_iff.2 ran⟩⟩

theorem describes_of_readText {text : String} (read : readText kind text = .ok g)
    (lays : Lays kind (lines '\n' '\r' text.toList) rules) : Describes kind rules g := by
  obtain ⟨placed, results, built⟩ := readText_eq_ok_iff.1 read
  obtain ⟨again, same, rfl⟩ := @results_of_lays kind "" _ _ lays 1
  rw [results, List.map_inj_right fun _ _ => Except.ok.inj] at same
  subst same
  exact describes_of_addRules lays.isSound (assembled_of_readText read) (kind_of_readText read)
    (ofRules_eq_ok_iff.1 built).1

/-- The reader takes exactly the texts whose lines lay out rules that agree, and what it makes of
such a text is what the rules describe. -/
theorem readText_exact (kind : Kind) (text : String) :
    ((∃ g, readText kind text = .ok g) ↔ ∃ rules, Lays kind (lines '\n' '\r' text.toList) rules ∧ Agree rules) ∧
      ∀ g, readText kind text = .ok g →
        ∀ rules, Lays kind (lines '\n' '\r' text.toList) rules → Describes kind rules g :=
  ⟨exists_readText_iff, fun _ read _ lays => describes_of_readText read lays⟩

end Rules

end Reading

end ContextFree
