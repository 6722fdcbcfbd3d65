import ContextFree.Edit.Attributes
import ContextFree.Proofs.Grammar.Coherent

namespace ContextFree

namespace Edit

variable {g h : Grammar} {u : Unit}

theorem succeeds_keepProductions {keep : Production → Bool} {removed : Nat} :
    (keepProductions keep).Succeeds g removed h ↔
      removed = g.productions.length - (g.productions.filter keep).length ∧
        h = { g with productions := g.productions.filter keep } := by
  simp only [keepProductions, succeeds_bind, succeeds_grammar, succeeds_change, succeeds_pure]
  constructor
  · rintro ⟨_, _, ⟨rfl, rfl⟩, _, _, rfl, _, _, ⟨rfl, rfl⟩, rfl, rfl⟩
    exact ⟨rfl, rfl⟩
  · rintro ⟨rfl, rfl⟩
    exact ⟨g, g, ⟨rfl, rfl⟩, (), _, rfl, _, _, ⟨rfl, rfl⟩, rfl, rfl⟩

theorem succeeds_takeProductions {taken : List Production} :
    takeProductions.Succeeds g taken h ↔ taken = g.productions ∧ h = { g with productions := [] } := by
  simp only [takeProductions, succeeds_bind, succeeds_grammar, succeeds_change, succeeds_pure]
  constructor
  · rintro ⟨_, _, ⟨rfl, rfl⟩, _, _, rfl, rfl, rfl⟩
    exact ⟨rfl, rfl⟩
  · rintro ⟨rfl, rfl⟩
    exact ⟨g, g, ⟨rfl, rfl⟩, (), _, rfl, rfl, rfl⟩

theorem keeps_productionAt {P : Grammar → Prop} (index : Nat) : (productionAt index).Keeps P := by
  refine keeps_bind keeps_grammar fun k => ?_
  dsimp only
  split
  · exact keeps_pure _
  · exact keeps_refuse _

theorem keeps_setAttributes {P : Grammar → Prop}
    (step : ∀ g attributes, P g → P { g with attributes }) (name : String) (value : Attributes) :
    (setAttributes name value).Keeps P :=
  keeps_change fun g => step g _

theorem keeps_checkAttribute {P : Grammar → Prop} (name : String) (letter : Char) :
    (checkAttribute name letter).Keeps P := by
  refine keeps_bind keeps_grammar fun k => ?_
  split
  · exact keeps_bind (keeps_require _) fun _ => keeps_pure _
  · exact keeps_refuse _

theorem keeps_addAttribute {P : Grammar → Prop}
    (step : ∀ g attributes, P g → P { g with attributes }) (name : String) (letter : Char) :
    (addInherited name letter).Keeps P ∧ (addSynthesized name letter).Keeps P := by
  constructor
  all_goals
    refine keeps_bind (keeps_checkAttribute name letter) fun attributes => ?_
    split
    · exact keeps_refuse _
    · exact keeps_setAttributes step name _

theorem keeps_mergeAttributes {P : Grammar → Prop}
    (step : ∀ g attributes, P g → P { g with attributes }) (name : String) (source : Attributes) :
    (mergeAttributes name source).Keeps P := by
  refine keeps_bind (keeps_forM fun letter _ => (keeps_addAttribute step name letter).1) fun _ => ?_
  exact keeps_forM fun letter _ => (keeps_addAttribute step name letter).2

theorem Succeeds.mergeAttributes {name : String} {source : Attributes}
    (ran : (mergeAttributes name source).Succeeds g u h) : ∃ attributes, h = { g with attributes } := by
  apply (keeps_mergeAttributes _ name source).of_succeeds ran
  · exact ⟨g.attributes, rfl⟩
  · rintro k attributes ⟨_, rfl⟩
    exact ⟨attributes, rfl⟩

theorem succeeds_removeNonterminal {name : String} : (removeNonterminal name).Succeeds g u h ↔
    name ∈ g.nonterminals ∧ h = dropNonterminal name g := by
  simp only [removeNonterminal, succeeds_bind, succeeds_grammar]
  constructor
  · rintro ⟨_, _, ⟨rfl, rfl⟩, ran⟩
    split at ran
    · next present => exact ⟨present, succeeds_change.1 ran⟩
    · exact absurd ran succeeds_refuse
  · rintro ⟨present, rfl⟩
    refine ⟨g, g, ⟨rfl, rfl⟩, ?_⟩
    rw [if_pos present]
    exact succeeds_change.2 rfl

end Edit

namespace Grammar

open Edit

def dropAll (symbols : List Symbol) (g : Grammar) : Grammar :=
  symbols.foldl (fun h symbol => dropSymbol symbol h) g

def pruned (g : Grammar) : Grammar := g.dropAll g.unusedSymbols

variable {g : Grammar}

theorem dropAll_rest (symbols : List Symbol) (g : Grammar) :
    (g.dropAll symbols).kind = g.kind ∧ (g.dropAll symbols).start = g.start ∧
      (g.dropAll symbols).productions = g.productions := by
  unfold dropAll
  induction symbols generalizing g with
  | nil => exact ⟨rfl, rfl, rfl⟩
  | cons symbol rest ih =>
    rw [List.foldl_cons]
    have step := ih (dropSymbol symbol g)
    cases symbol <;> exact step

theorem hasSymbol_dropSymbol {symbol other : Symbol} (tabled : other ≠ .empty) :
    (dropSymbol symbol g).hasSymbol other ↔ other ≠ symbol ∧ g.hasSymbol other := by
  cases symbol <;> cases other <;>
    simp [dropSymbol, dropTerminal, dropNonterminal, hasSymbol] at tabled ⊢

theorem hasSymbol_of_dropSymbol {symbol other : Symbol} (present : (dropSymbol symbol g).hasSymbol other) :
    g.hasSymbol other := by
  by_cases tabled : other = .empty
  · rw [tabled]
    trivial
  · exact ((hasSymbol_dropSymbol tabled).1 present).2

theorem hasSymbol_dropSymbol_of_ne {symbol other : Symbol} (differs : other ≠ symbol) (present : g.hasSymbol other) :
    (dropSymbol symbol g).hasSymbol other := by
  by_cases tabled : other = .empty
  · rw [tabled]
    trivial
  · exact (hasSymbol_dropSymbol tabled).2 ⟨differs, present⟩

theorem hasSymbol_dropAll {symbols : List Symbol} {symbol : Symbol} (tabled : symbol ≠ .empty) :
    (g.dropAll symbols).hasSymbol symbol ↔ symbol ∉ symbols ∧ g.hasSymbol symbol := by
  unfold dropAll
  induction symbols generalizing g with
  | nil => simp
  | cons first rest ih =>
    rw [List.foldl_cons, ih, hasSymbol_dropSymbol tabled, List.mem_cons, not_or, and_left_comm, and_assoc]

theorem usesSymbol_terminal {token : String} : g.usesSymbol (.terminal token) = true ↔
    ∃ p ∈ g.productions, .terminal token ∈ p.body := by
  simp only [usesSymbol, List.any_eq_true, List.contains_iff_mem]

theorem usesSymbol_nonterminal {name : String} : g.usesSymbol (.nonterminal name) = true ↔
    g.start = some name ∨ ∃ p ∈ g.productions, p.head = name ∨ .nonterminal name ∈ p.body := by
  simp only [usesSymbol, Bool.or_eq_true, beq_iff_eq, List.any_eq_true, List.contains_iff_mem]

theorem mem_unusedSymbols {symbol : Symbol} (present : g.hasSymbol symbol) :
    symbol ∈ g.unusedSymbols ↔ g.usesSymbol symbol = false := by
  rw [unusedSymbols, List.mem_filter, Bool.not_eq_true']
  cases symbol with
  | terminal name =>
    have listed : name ∈ g.terminals.names := present
    simp [listed]
  | nonterminal name =>
    have listed : name ∈ g.nonterminals.names := present
    simp [listed]
  | empty => simp [usesSymbol]

@[simp] theorem productions_pruned : g.pruned.productions = g.productions := (dropAll_rest _ g).2.2

@[simp] theorem start_pruned : g.pruned.start = g.start := (dropAll_rest _ g).2.1

@[simp] theorem kind_pruned : g.pruned.kind = g.kind := (dropAll_rest _ g).1

theorem hasSymbol_pruned {symbol : Symbol} :
    g.pruned.hasSymbol symbol ↔ g.hasSymbol symbol ∧ g.usesSymbol symbol = true := by
  by_cases tabled : symbol = .empty
  · subst tabled
    exact ⟨fun _ => ⟨trivial, rfl⟩, fun _ => trivial⟩
  · rw [pruned, hasSymbol_dropAll tabled, and_comm]
    apply and_congr_right
    intro present
    rw [mem_unusedSymbols present, Bool.not_eq_false]

theorem pruned_of_used (used : ∀ symbol, g.hasSymbol symbol → g.usesSymbol symbol = true) :
    g.unusedSymbols = [] ∧ g.pruned = g := by
  have none : g.unusedSymbols = [] := by
    refine List.filter_eq_nil_iff.2 fun symbol listed => ?_
    have present : g.hasSymbol symbol := by
      rcases List.mem_append.1 listed with inTable | inTable
      all_goals
        obtain ⟨name, member, rfl⟩ := List.mem_map.1 inTable
        exact member
    rw [used symbol present]
    exact Bool.false_ne_true
  refine ⟨none, ?_⟩
  rw [pruned, none]
  rfl

theorem usesSymbol_pruned {symbol : Symbol} : g.pruned.usesSymbol symbol = g.usesSymbol symbol := by
  cases symbol with
  | empty => rfl
  | terminal token => rw [usesSymbol, productions_pruned, usesSymbol]
  | nonterminal name => rw [usesSymbol, productions_pruned, start_pruned, usesSymbol]

theorem used_pruned {symbol : Symbol} (present : g.pruned.hasSymbol symbol) : g.pruned.usesSymbol symbol = true := by
  rw [usesSymbol_pruned]
  exact (hasSymbol_pruned.1 present).2

section Dropping

-- What is kept when a name goes that heads nothing and is not the start symbol.
variable {P : Grammar → Prop} (dropped : ∀ g symbol,
  (∀ name, symbol = .nonterminal name → g.start ≠ some name ∧ ∀ p ∈ g.productions, p.head ≠ name) →
    P g → P (dropSymbol symbol g))

include dropped

theorem dropAll_induction {symbols : List Symbol}
    (others : ∀ name, .nonterminal name ∈ symbols → g.start ≠ some name ∧ ∀ p ∈ g.productions, p.head ≠ name)
    (holds : P g) : P (g.dropAll symbols) := by
  unfold dropAll
  induction symbols generalizing g with
  | nil => exact holds
  | cons symbol rest ih =>
    rw [List.foldl_cons]
    refine ih (fun name member => ?_) (dropped g symbol (fun name same => ?_) holds)
    · have same : (dropSymbol symbol g).start = g.start ∧ (dropSymbol symbol g).productions = g.productions := by
        cases symbol <;> exact ⟨rfl, rfl⟩
      rw [same.1, same.2]
      exact others name (List.mem_cons_of_mem symbol member)
    · exact others name (same ▸ List.mem_cons_self)

/-- Only names go that head nothing, and never the start symbol. -/
theorem pruned_induction (holds : P g) : P g.pruned := by
  refine dropAll_induction dropped (fun name member => ?_) holds
  have unused : g.usesSymbol (.nonterminal name) = false := Bool.not_eq_true' _ ▸ (List.mem_filter.1 member).2
  rw [usesSymbol, Bool.or_eq_false_iff] at unused
  refine ⟨fun same => ?_, fun p rule same => ?_⟩
  · rw [same, beq_self_eq_true] at unused
    cases unused.1
  · have mentioned := List.any_eq_false.1 unused.2 p rule
    rw [same, beq_self_eq_true, Bool.true_or] at mentioned
    exact mentioned rfl

end Dropping

theorem tables_pruned (g : Grammar) : g.pruned.nonterminals.names.Sublist g.nonterminals.names ∧
    g.pruned.terminals.names.Sublist g.terminals.names := by
  refine pruned_induction (P := fun h => h.nonterminals.names.Sublist g.nonterminals.names ∧
    h.terminals.names.Sublist g.terminals.names) (fun h symbol _ kept => ?_) ⟨List.Sublist.refl _, List.Sublist.refl _⟩
  cases symbol with
  | terminal token => exact ⟨kept.1, List.erase_sublist.trans kept.2⟩
  | nonterminal name => exact ⟨List.erase_sublist.trans kept.1, kept.2⟩
  | empty => exact kept

theorem uses_of_mentions {p : Production} (rule : p ∈ g.productions) :
    g.usesSymbol (.nonterminal p.head) = true ∧ ∀ symbol ∈ p.body, g.usesSymbol symbol = true := by
  refine ⟨usesSymbol_nonterminal.2 (Or.inr ⟨p, rule, Or.inl rfl⟩), fun symbol inBody => ?_⟩
  cases symbol with
  | terminal token => exact usesSymbol_terminal.2 ⟨p, rule, inBody⟩
  | nonterminal name => exact usesSymbol_nonterminal.2 (Or.inr ⟨p, rule, Or.inr inBody⟩)
  | empty => rfl

theorem Closed.pruned (closed : g.Closed) : g.pruned.Closed := by
  intro p rule
  rw [productions_pruned] at rule
  have known := closed p rule
  have used := uses_of_mentions rule
  constructor
  · show g.pruned.hasSymbol (.nonterminal p.head)
    exact hasSymbol_pruned.2 ⟨known.1, used.1⟩
  · intro symbol inBody
    exact hasSymbol_pruned.2 ⟨known.2 symbol inBody, used.2 symbol inBody⟩

theorem StartKnown.pruned (known : g.StartKnown) : g.pruned.StartKnown := by
  intro name same
  rw [start_pruned] at same
  have present : g.hasSymbol (.nonterminal name) := known name same
  have used : g.usesSymbol (.nonterminal name) = true := by simp [usesSymbol, same]
  show g.pruned.hasSymbol (.nonterminal name)
  exact hasSymbol_pruned.2 ⟨present, used⟩

theorem Coherent.pruned (coherent : g.Coherent) : g.pruned.Coherent where
  closed := coherent.closed.pruned
  start_known := StartKnown.pruned coherent.start_known
  started some := by
    rw [productions_pruned] at some
    rw [start_pruned]
    exact coherent.started some

theorem Coherent.keeping (coherent : g.Coherent) (keep : Production → Bool) :
    ({ g with productions := g.productions.filter keep } : Grammar).Coherent := by
  apply coherent.with_productions
  · intro p rule
    exact coherent.closed p (List.mem_filter.1 rule).1
  · intro some none
    rw [none] at some
    exact some rfl

end Grammar

theorem Edit.succeeds_removeUnused {g h : Grammar} {unused : List Symbol} :
    removeUnused.Succeeds g unused h ↔ unused = g.unusedSymbols ∧ h = g.pruned := by
  simp only [removeUnused, succeeds_bind, succeeds_grammar, succeeds_change, succeeds_pure]
  constructor
  · rintro ⟨_, _, ⟨rfl, rfl⟩, _, _, rfl, rfl, rfl⟩
    exact ⟨rfl, rfl⟩
  · rintro ⟨rfl, rfl⟩
    exact ⟨g, g, ⟨rfl, rfl⟩, (), _, rfl, rfl, rfl⟩

end ContextFree
