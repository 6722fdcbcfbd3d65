import ContextFree.Proofs.Grammar.Render
import ContextFree.Proofs.Reading.Exact

namespace ContextFree

open Text

namespace Grammar

/-- What the reader relies on, and what the text does not show but the reader restores. -/
structure Readable (g : Grammar) : Prop where
  orderly : g.Orderly
  filled : ∀ p ∈ g.productions, p.body ≠ []
  legal : ∀ p ∈ g.productions, p.Legal
  defined : ∀ name, g.attributesOf name ≠ ∅ → ∃ p ∈ g.productions, p.head = name
  nonterminals : ∀ name, name ∈ g.nonterminals ↔ name ∈ Production.nonterminals g.productions
  terminals : ∀ value, value ∈ g.terminals ↔ value ∈ Production.terminals g.productions
  start : g.start = g.heads.head?

/-- The second grammar has all that the first one has. Only the order of names and heads may be
another. -/
structure ReadsAs (g d : Grammar) : Prop where
  kind : d.kind = g.kind
  start : d.start = g.start
  nonterminals : ∀ name, name ∈ d.nonterminals ↔ name ∈ g.nonterminals
  terminals : ∀ value, value ∈ d.terminals ↔ value ∈ g.terminals
  productions : ∀ head, d.productionsOf head = g.productionsOf head
  attributes : ∀ name, d.attributesOf name = g.attributesOf name

section Grouped

variable {g : Grammar} {p : Production} {rule : Rule}

theorem head_mem_heads (closed : p.head ∈ g.nonterminals) (rule : p ∈ g.productions) : p.head ∈ g.heads :=
  mem_heads.2 ⟨closed, List.ne_nil_of_mem (mem_productionsOf.2 ⟨rule, rfl⟩)⟩

theorem mem_grouped (closed : ∀ p ∈ g.productions, p.head ∈ g.nonterminals) : p ∈ g.grouped ↔ p ∈ g.productions := by
  rw [grouped, List.mem_flatMap]
  constructor
  · rintro ⟨head, -, inGroup⟩
    exact (mem_productionsOf.1 inGroup).1
  · intro rule
    exact ⟨p.head, head_mem_heads (closed p rule) rule, mem_productionsOf.2 ⟨rule, rfl⟩⟩

theorem filter_productionsOf (head other : String) :
    (g.productionsOf other).filter (·.head == head) = if other = head then g.productionsOf head else [] := by
  split
  · next same =>
    subst same
    exact List.filter_eq_self.2 fun p rule => beq_iff_eq.2 (mem_productionsOf.1 rule).2
  · next differs =>
    refine List.filter_eq_nil_iff.2 fun p rule same => differs ?_
    rw [← (mem_productionsOf.1 rule).2, beq_iff_eq.1 same]

theorem flatMap_of_nodup {α : Type} {names : List String} (distinct : names.Nodup) (name : String) (items : List α) :
    (names.flatMap fun other => if other = name then items else []) = if name ∈ names then items else [] := by
  induction names with
  | nil => rfl
  | cons first rest ih =>
    rw [List.nodup_cons] at distinct
    rw [List.flatMap_cons, ih distinct.2]
    by_cases here : first = name
    · subst here
      simp [distinct.1]
    · simp [here, Ne.symm here]

theorem filter_grouped (closed : ∀ p ∈ g.productions, p.head ∈ g.nonterminals) (head : String) :
    g.grouped.filter (·.head == head) = g.productionsOf head := by
  -- Heads are listed once, so one group is left of them all.
  simp only [grouped, List.filter_flatMap, filter_productionsOf]
  rw [flatMap_of_nodup (nodup_heads g)]
  split
  · rfl
  · next absent =>
    refine (List.eq_nil_iff_forall_not_mem.2 fun p rule => absent ?_).symm
    obtain ⟨listed, rfl⟩ := mem_productionsOf.1 rule
    exact head_mem_heads (closed p listed) listed

theorem head_grouped (g : Grammar) : g.grouped.head?.map Production.head = g.heads.head? := by
  rw [grouped]
  cases listed : g.heads with
  | nil => rfl
  | cons head rest =>
    have some := (mem_heads.1 (listed ▸ List.mem_cons_self : head ∈ g.heads)).2
    obtain ⟨p, more, group⟩ := List.exists_cons_of_ne_nil some
    have named : p.head = head := (mem_productionsOf.1 (by rw [group]; exact List.mem_cons_self)).2
    rw [List.flatMap_cons, group]
    exact congrArg Option.some named

/-- The first name of the table heads the first group if it heads a production. -/
theorem Led.start_eq (led : g.Led) (headed : ∀ name, g.start = some name → ∃ p ∈ g.productions, p.head = name) :
    g.start = g.heads.head? := by
  rw [Led] at led
  rw [heads]
  cases listed : g.nonterminals.names with
  | nil =>
    rw [led, listed]
    rfl
  | cons name rest =>
    rw [listed] at led
    obtain ⟨p, rule, same⟩ := headed name led
    have some := List.ne_nil_of_mem (mem_productionsOf.2 ⟨rule, same⟩)
    rw [List.filter_cons_of_pos (by simpa using some), led]
    rfl

end Grouped

section WrittenRules

variable {g : Grammar} {rule : Rule}

theorem map_symbol_occurrences (p : Production) : (g.occurrences p).map Occurrence.symbol = p.body := by
  rw [occurrences, List.map_map]
  exact List.map_id _

theorem productions_plainRule {head : String} (plain : ∀ p ∈ g.productions, p.weight = .one) :
    (g.plainRule head).productions = g.productionsOf head := by
  rw [Rule.productions, plainRule, List.map_map]
  refine (List.map_congr_left fun p rule => ?_).trans (List.map_id _)
  obtain ⟨listed, rfl⟩ := mem_productionsOf.1 rule
  rw [Function.comp_apply, map_symbol_occurrences, ← plain p listed]
  rfl

theorem productions_weightedRule (p : Production) : (g.weightedRule p).productions = [p] := by
  rw [Rule.productions, weightedRule, List.map_singleton, map_symbol_occurrences]

theorem productions_writtenRules (orderly : g.Orderly) : g.writtenRules.flatMap Rule.productions = g.grouped := by
  unfold writtenRules
  cases kind : g.kind with
  | plain =>
    dsimp only
    rw [List.flatMap_map, grouped]
    simp only [productions_plainRule fun p rule => (orderly.fits p rule).unweighted kind]
  | weighted =>
    dsimp only
    rw [List.flatMap_map]
    simp only [productions_weightedRule]
    exact List.flatMap_singleton' _

structure WrittenFor (g : Grammar) (rule : Rule) : Prop where
  attributes : rule.attributes = g.attributesOf rule.head
  weight : ∀ kind letter, rule.weight = .attribute kind letter → letter ∈ (g.attributesOf rule.head).ofKind kind
  alternatives : ∀ alternative ∈ rule.alternatives, ∃ p ∈ g.productions, alternative = g.occurrences p

theorem writtenFor_of_mem (orderly : g.Orderly) (closed : ∀ p ∈ g.productions, p.head ∈ g.nonterminals) :
    ∀ rule ∈ g.writtenRules, g.WrittenFor rule := by
  intro rule listed
  unfold writtenRules at listed
  cases kind : g.kind with
  | plain =>
    rw [kind] at listed
    obtain ⟨head, -, rfl⟩ := List.mem_map.1 listed
    refine ⟨(orderly.unattributed kind head).symm, nofun, fun alternative member => ?_⟩
    obtain ⟨p, rule, rfl⟩ := List.mem_map.1 member
    exact ⟨p, (mem_productionsOf.1 rule).1, rfl⟩
  | weighted =>
    rw [kind] at listed
    obtain ⟨p, inGroup, rfl⟩ := List.mem_map.1 listed
    have rule := (mem_grouped closed).1 inGroup
    refine ⟨rfl, (orderly.fits p rule).declared, fun alternative member => ⟨p, rule, ?_⟩⟩
    exact List.mem_singleton.1 member

theorem exists_writtenRule (closed : ∀ p ∈ g.productions, p.head ∈ g.nonterminals) :
    ∀ p ∈ g.productions, ∃ rule ∈ g.writtenRules, rule.head = p.head := by
  intro p rule
  unfold writtenRules
  cases kind : g.kind with
  | plain => exact ⟨g.plainRule p.head, List.mem_map_of_mem (head_mem_heads (closed p rule) rule), rfl⟩
  | weighted => exact ⟨g.weightedRule p, List.mem_map_of_mem ((mem_grouped closed).2 rule), rfl⟩

namespace Readable

theorem closed (readable : g.Readable) : ∀ p ∈ g.productions, p.head ∈ g.nonterminals := fun p rule =>
  (readable.nonterminals p.head).2 (Production.mem_nonterminals.2 ⟨p, rule, Or.inl rfl⟩)

theorem declared_eq (readable : g.Readable) (name : String) :
    Reading.declared g.writtenRules name = g.attributesOf name := by
  have members : ∀ kind c, c ∈ (Reading.declared g.writtenRules name).ofKind kind ↔
      c ∈ (g.attributesOf name).ofKind kind := by
    intro kind c
    rw [Reading.mem_declared_ofKind]
    constructor
    · rintro ⟨rule, listed, rfl, member⟩
      rwa [(writtenFor_of_mem readable.orderly readable.closed rule listed).attributes] at member
    · intro member
      have some : g.attributesOf name ≠ ∅ := by
        intro none
        rw [none] at member
        exact Attributes.not_mem_empty_ofKind kind c member
      obtain ⟨p, rule, rfl⟩ := readable.defined name some
      obtain ⟨written, listed, same⟩ := exists_writtenRule readable.closed p rule
      refine ⟨written, listed, same, ?_⟩
      rwa [(writtenFor_of_mem readable.orderly readable.closed written listed).attributes, same]
  exact Attributes.ext_mem (members .inherited) (members .synthesized)

theorem agree (readable : g.Readable) : Reading.Agree g.writtenRules where
  terminals rule listed alternative member occurrence inside value same := by
    obtain ⟨p, rule, rfl⟩ :=
      (writtenFor_of_mem readable.orderly readable.closed rule listed).alternatives alternative member
    obtain ⟨symbol, inBody, rfl⟩ := List.mem_map.1 inside
    have legal := (readable.legal p rule).body symbol inBody
    rw [show symbol = .terminal value from same] at legal
    exact fun c member => ((Name.checkValue_iff.1 legal).2 c member).1
  apart name := by
    rw [readable.declared_eq]
    exact readable.orderly.apart name
  annotations rule listed alternative member occurrence inside name letters same annotated := by
    obtain ⟨p, rule, rfl⟩ :=
      (writtenFor_of_mem readable.orderly readable.closed rule listed).alternatives alternative member
    obtain ⟨symbol, inBody, rfl⟩ := List.mem_map.1 inside
    dsimp only at same annotated
    subst same
    rw [annotate] at annotated
    rw [readable.declared_eq]
    split at annotated
    · cases annotated
    · exact (Option.some.inj annotated).symm
  weights rule listed kind letter same := by
    rw [readable.declared_eq]
    exact (writtenFor_of_mem readable.orderly readable.closed rule listed).weight kind letter same

theorem of_tight (tight : g.Tight) (coherent : g.Coherent) (legal : g.Legal) (orderly : g.Orderly) (led : g.Led)
    (filled : ∀ p ∈ g.productions, p.body ≠ []) : g.Readable where
  orderly := orderly
  filled := filled
  legal _ rule := legal.production coherent.closed rule
  defined name some := tight.headed name (orderly.tabled name some)
  nonterminals name := by
    rw [Production.mem_nonterminals]
    constructor
    · intro present
      obtain ⟨p, rule, same⟩ := tight.headed name present
      exact ⟨p, rule, Or.inl same⟩
    · rintro ⟨p, rule, rfl | inBody⟩
      · exact (coherent.closed p rule).1
      · exact (coherent.closed p rule).2 (.nonterminal name) inBody
  terminals value := by
    rw [Production.mem_terminals]
    refine ⟨tight.placed value, fun ⟨p, rule, inBody⟩ => ?_⟩
    exact (coherent.closed p rule).2 (.terminal value) inBody
  start := led.start_eq fun name same => tight.headed name (coherent.start_known name same)

end Readable

end WrittenRules

end Grammar

namespace Reading

open Grammar

variable {kind : Kind} {g : Grammar}

theorem Describes.readsAs {d : Grammar} (describes : Describes g.kind g.writtenRules d) (assembled : d.Assembled)
    (readable : g.Readable) : ReadsAs g d := by
  have productions : d.productions = g.grouped :=
    describes.productions.trans (productions_writtenRules readable.orderly)
  have members : ∀ p, p ∈ d.productions ↔ p ∈ g.productions := fun p => by rw [productions, mem_grouped readable.closed]
  exact {
    kind := describes.kind
    start := by rw [assembled.start, productions, head_grouped, readable.start]
    nonterminals := fun name => by
      rw [assembled.mem_nonterminals, readable.nonterminals]
      simp only [Production.mem_nonterminals, members]
    terminals := fun value => by
      rw [assembled.mem_terminals, readable.terminals]
      simp only [Production.mem_terminals, members]
    productions := fun head => by rw [productionsOf, productions, filter_grouped readable.closed]
    attributes := fun name => by rw [describes.attributes, readable.declared_eq] }

/-- The text of a readable grammar is read as that grammar. -/
theorem readsAs_of_readable (readable : g.Readable) (some : g.productions ≠ []) :
    ∃ d, readText g.kind g.text = .ok d ∧ ReadsAs g d := by
  have lays := lays_text readable.orderly readable.filled readable.legal some
  obtain ⟨d, read⟩ := exists_readText_iff.2 ⟨g.writtenRules, lays, readable.agree⟩
  exact ⟨d, read, (describes_of_readText read lays).readsAs (assembled_of_readText read) readable⟩

section Rules

variable {lines : List (List Char)} {rules : List Rule} {name text : String} {p : Production}

theorem plain_of_lays (lays : Lays .plain lines rules) : ∀ rule ∈ rules, rule.attributes = ∅ ∧ rule.weight = .one := by
  induction lays with
  | done => nofun
  | passed _ _ ih => exact ih
  | rule _ _ written _ ih =>
    refine List.forall_mem_cons.2 ⟨?_, ih⟩
    cases written
    exact ⟨rfl, rfl⟩

theorem declared_eq_empty (absent : ∀ rule ∈ rules, rule.head = name → rule.attributes = ∅) :
    declared rules name = ∅ := by
  have none : ∀ kind c, c ∉ (declared rules name).ofKind kind := by
    intro kind c member
    obtain ⟨rule, listed, same, inside⟩ := mem_declared_ofKind.1 member
    rw [absent rule listed same] at inside
    exact Attributes.not_mem_empty_ofKind kind c inside
  apply Attributes.ext_mem
  · exact fun c => iff_of_false (none .inherited c) (Letters.not_mem_empty c)
  · exact fun c => iff_of_false (none .synthesized c) (Letters.not_mem_empty c)

theorem lowercase_declared (lowercase : ∀ rule ∈ rules, rule.attributes.Lowercase) (name : String) :
    (declared rules name).Lowercase := by
  intro c member
  obtain ⟨rule, listed, -, inside⟩ := (@mem_declared_ofKind rules name c .static).1 member
  exact lowercase rule listed c inside

theorem of_mem_productions {rule : Rule} (listed : p ∈ rule.productions) :
    p.head = rule.head ∧ p.weight = rule.weight := by
  obtain ⟨_, -, rfl⟩ := List.mem_map.1 listed
  exact ⟨rfl, rfl⟩

theorem Describes.exists_rule (describes : Describes kind rules g) (rule : p ∈ g.productions) :
    ∃ written ∈ rules, p ∈ written.productions := by
  rw [describes.productions] at rule
  exact List.mem_flatMap.1 rule

theorem Describes.defined (describes : Describes kind rules g) (sound : ∀ rule ∈ rules, IsSound rule)
    (some : g.attributesOf name ≠ ∅) : ∃ p ∈ g.productions, p.head = name := by
  rw [describes.attributes] at some
  by_contra none
  refine some (declared_eq_empty fun rule listed same => absurd ?_ none)
  obtain ⟨alternative, member⟩ := List.exists_mem_of_ne_nil _ (sound rule listed).some
  rw [describes.productions]
  exact ⟨_, List.mem_flatMap.2 ⟨rule, listed, List.mem_map_of_mem member⟩, same⟩

theorem Describes.fits (describes : Describes kind rules g) (lays : Lays kind lines rules) (agree : Agree rules)
    (rule : p ∈ g.productions) : g.Fits p := by
  obtain ⟨written, listed, inRule⟩ := describes.exists_rule rule
  obtain ⟨head, weight⟩ := of_mem_productions inRule
  refine ⟨?_, fun attributeKind letter same => ?_, fun plain => ?_⟩
  · rw [weight]
    exact (lays.isSound written listed).weight
  · rw [describes.attributes, head]
    exact agree.weights written listed attributeKind letter (weight.symm.trans same)
  · rw [describes.kind] at plain
    subst plain
    rw [weight]
    exact (plain_of_lays lays written listed).2

theorem Describes.orderly (describes : Describes kind rules g) (lays : Lays kind lines rules) (agree : Agree rules)
    (closed : ∀ p ∈ g.productions, p.head ∈ g.nonterminals) : g.Orderly where
  fits _ rule := describes.fits lays agree rule
  apart name := by
    rw [describes.attributes]
    exact agree.apart name
  lowercase name := by
    rw [describes.attributes]
    exact lowercase_declared (fun rule listed => (lays.isSound rule listed).lowercase) name
  tabled name some := by
    obtain ⟨p, rule, rfl⟩ := describes.defined lays.isSound some
    exact closed p rule
  unattributed plain name := by
    rw [describes.kind] at plain
    subst plain
    rw [describes.attributes]
    exact declared_eq_empty fun rule listed _ => (plain_of_lays lays rule listed).1

theorem readable_of_readText (read : readText kind text = .ok g) : g.Readable := by
  obtain ⟨rules, lays, agree⟩ := exists_readText_iff.1 ⟨g, read⟩
  have describes := describes_of_readText read lays
  have assembled := assembled_of_readText read
  have legal : ∀ p ∈ g.productions, p.body ≠ [] ∧ p.Legal := by
    intro p rule
    obtain ⟨written, listed, inRule⟩ := describes.exists_rule rule
    exact ((lays.isSound written listed).addable_iff.2 (agree.terminals written listed)).legal p inRule
  have closed : ∀ p ∈ g.productions, p.head ∈ g.nonterminals := fun p rule =>
    assembled.mem_nonterminals.2 (Production.mem_nonterminals.2 ⟨p, rule, Or.inl rfl⟩)
  refine ⟨describes.orderly lays agree closed, fun p rule => (legal p rule).1, fun p rule => (legal p rule).2,
    fun name => describes.defined lays.isSound, fun _ => assembled.mem_nonterminals, fun _ => assembled.mem_terminals,
    assembled.led.start_eq fun name first => ?_⟩
  rw [assembled.start, Option.map_eq_some_iff] at first
  obtain ⟨p, rule, rfl⟩ := first
  exact ⟨p, List.mem_of_mem_head? rule, rfl⟩

/-- A grammar that was read, and that has a production, is read again from its own text. -/
theorem readText_text (read : readText kind text = .ok g) (rules : g.productions ≠ []) :
    ∃ d, readText kind g.text = .ok d ∧ ReadsAs g d := by
  rw [← kind_of_readText read]
  exact readsAs_of_readable (readable_of_readText read) rules

def annotatedText : String :=
  "S\x7ba;\x7d -&a-> A\x7ba,b\x7d '-->' ;\nA\x7ba;b\x7d -0.5-> '' ;\nS\x7b;c\x7d -$c-> ';' ;"

theorem readText_text_of_blocks : ∃ g,
    readText .weighted annotatedText = .ok g ∧
      g.productions ≠ [] ∧ ∃ d, readText .weighted g.text = .ok d ∧ ReadsAs g d := by
  obtain ⟨g, read, some⟩ := exists_of_written .weighted
    annotatedText rfl
    (fun g => !g.productions.isEmpty) (by decide +kernel)
  have rules : g.productions ≠ [] := by simpa using some
  exact ⟨g, read, rules, readText_text read rules⟩

end Rules

end Reading

end ContextFree
