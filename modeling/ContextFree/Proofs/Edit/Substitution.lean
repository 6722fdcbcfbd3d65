import Mathlib.Data.List.Forall2
import ContextFree.Proofs.Edit.Addition
import ContextFree.Proofs.History
import ContextFree.Proofs.Reading.Coherent

namespace ContextFree.Edit

variable {g h : Grammar} {p : Production} {source target : Symbol} {u : Unit}

structure Follows (source target : Symbol) (p q : Production) : Prop where
  head : .nonterminal q.head = substitute source target (.nonterminal p.head)
  body : q.body = p.body.map (substitute source target)
  weight : q.weight = p.weight

theorem head_substituteIn_nonterminal (old new : String) (p : Production) :
    .nonterminal (substituteIn (.nonterminal old) (.nonterminal new) p).head =
      substitute (.nonterminal old) (.nonterminal new) (.nonterminal p.head) := by
  have head : (substituteIn (.nonterminal old) (.nonterminal new) p).head = if p.head = old then new else p.head := rfl
  by_cases here : p.head = old <;> simp [head, substitute, here]

theorem follows_substituteIn (free : headBlocks source target g = false) (rule : p ∈ g.productions) :
    Follows source target p (substituteIn source target p) := by
  refine ⟨?_, rfl, rfl⟩
  cases source with
  | nonterminal old =>
    cases target with
    | nonterminal new => exact head_substituteIn_nonterminal old new p
    | _ =>
      have other : ¬ (p.head == old) = true := List.any_eq_false.1 free p rule
      exact (if_neg fun same => other (beq_iff_eq.2 (Symbol.nonterminal.inj same))).symm
  | _ => rfl

/-- Productions are the old ones with one symbol put for another, and of the tables and the attributes
only what concerns these two has changed. -/
structure Substitutes (source target : Symbol) (removing : Bool) (g h : Grammar) : Prop where
  productions : List.Forall₂ (Follows source target) g.productions h.productions
  symbols : ∀ symbol, symbol ≠ .empty →
    (h.hasSymbol symbol ↔ (g.hasSymbol symbol ∨ symbol = target) ∧ ¬ (removing = true ∧ symbol = source))
  nonterminals : h.nonterminals.names =
    (g.nonterminals.names ++ g.nonterminals.newNames target.nonterminal?.toList).filter
    fun name => !(removing && source == .nonterminal name)
  terminals : h.terminals.names = (g.terminals.names ++ g.terminals.newNames target.terminal?.toList).filter
    fun token => !(removing && source == .terminal token)
  attributes : ∀ name, h.attributesOf? name =
    if removing = true ∧ source = .nonterminal name then none else g.attributesOf? name
  kind : h.kind = g.kind

theorem names_remove (table : Table) (name : String) : (table.remove name).names = table.names.filter (· != name) :=
  table.distinct.erase_eq_filter name

theorem nonterminals_dropSymbol (symbol : Symbol) (g : Grammar) :
    (dropSymbol symbol g).nonterminals.names = g.nonterminals.names.filter fun name =>
      !(symbol == .nonterminal name) := by
  cases symbol with
  | nonterminal old =>
    refine (names_remove g.nonterminals old).trans (List.filter_congr fun name _ => ?_)
    rw [bne, Bool.not_inj_iff, Bool.eq_iff_iff, beq_iff_eq, beq_iff_eq, Symbol.nonterminal.injEq, eq_comm]
  | _ => exact (List.filter_eq_self.2 fun _ _ => rfl).symm

theorem terminals_dropSymbol (symbol : Symbol) (g : Grammar) :
    (dropSymbol symbol g).terminals.names = g.terminals.names.filter fun token => !(symbol == .terminal token) := by
  cases symbol with
  | terminal old =>
    refine (names_remove g.terminals old).trans (List.filter_congr fun token _ => ?_)
    rw [bne, Bool.not_inj_iff, Bool.eq_iff_iff, beq_iff_eq, beq_iff_eq, Symbol.terminal.injEq, eq_comm]
  | _ => exact (List.filter_eq_self.2 fun _ _ => rfl).symm

theorem attributesOf?_dropSymbol (symbol : Symbol) (g : Grammar) (name : String) :
    (dropSymbol symbol g).attributesOf? name = if symbol = .nonterminal name then none else g.attributesOf? name := by
  cases symbol with
  | nonterminal old =>
    refine (AttributeTable.get?_erase g.attributes old name).trans ?_
    simp only [Symbol.nonterminal.injEq, eq_comm (a := name)]
    rfl
  | _ => rfl

theorem substitutes_replaced (free : headBlocks source target g = false) :
    Substitutes source target false g (replaced source target g) where
  productions := by
    have same : (putSymbol target g).productions = g.productions := (putBody_rest [target] g).2.2.1
    rw [replaced, substituted, same, List.forall₂_map_right_iff, List.forall₂_same]
    intro p
    exact follows_substituteIn free
  symbols symbol _ := by
    rw [hasSymbol_replaced, or_comm]
    simp
  nonterminals := by
    have put := nonterminals_putSymbol (eraseDups_of_nodup g.nonterminals.distinct).symm target
    rw [Table.eraseDups_append_names] at put
    exact put.trans (List.filter_eq_self.2 fun _ _ => rfl).symm
  terminals := by
    have put := terminals_putSymbol (eraseDups_of_nodup g.terminals.distinct).symm target
    rw [Table.eraseDups_append_names] at put
    exact put.trans (List.filter_eq_self.2 fun _ _ => rfl).symm
  attributes name := congrArg (AttributeTable.get? · name) (putBody_rest [target] g).2.2.2
  kind := (putBody_rest [target] g).1

theorem restart_rest (source target : Symbol) (g : Grammar) : ∃ start, restart source target g = { g with start } := by
  unfold restart
  split
  · exact ⟨_, rfl⟩
  · exact ⟨g.start, rfl⟩

theorem start_restart (source target : Symbol) (g : Grammar) : (restart source target g).start =
    if g.start = source.nonterminal? then target.nonterminal? else g.start := by
  unfold restart
  split <;> rfl

theorem Substitutes.removed (kept : Substitutes source target false g h) :
    Substitutes source target true g (restart source target (dropSymbol source h)) := by
  obtain ⟨start, same⟩ := restart_rest source target (dropSymbol source h)
  rw [same]
  have rest : (dropSymbol source h).productions = h.productions ∧ (dropSymbol source h).kind = h.kind := by
    cases source <;> exact ⟨rfl, rfl⟩
  refine ⟨rest.1 ▸ kept.productions, fun symbol tabled => ?_, ?_, ?_, fun name => ?_, rest.2.trans kept.kind⟩
  · have dropped : ({ dropSymbol source h with start } : Grammar).hasSymbol symbol ↔ symbol ≠ source ∧
        h.hasSymbol symbol := by
      rw [← Grammar.hasSymbol_dropSymbol tabled]
      cases symbol <;> exact Iff.rfl
    rw [dropped, kept.symbols symbol tabled]
    simp [and_comm]
  · refine (nonterminals_dropSymbol source h).trans ?_
    rw [kept.nonterminals, List.filter_filter]
    simp
  · refine (terminals_dropSymbol source h).trans ?_
    rw [kept.terminals, List.filter_filter]
    simp
  · refine (attributesOf?_dropSymbol source h name).trans ?_
    rw [kept.attributes]
    simp

/-- A grammar that has a start symbol keeps it, unless that is the nonterminal that goes. One without a
start symbol starts with whatever comes in place of a symbol that is no nonterminal. -/
theorem substitutes_of_replaceSymbol {removeSource : Bool}
    (ran : (replaceSymbol source target removeSource).Succeeds g u h) :
    Substitutes source target (removeSource && source != target) g h ∧
      (∀ name, source = .nonterminal name → h.start =
        if (removeSource && source != target) = true ∧ g.start = some name then target.nonterminal? else g.start) ∧
      (source.nonterminal? = none → g.start ≠ none → h.start = g.start) ∧
      (source.nonterminal? = none → g.start = none → h.start =
        if (removeSource && source != target) = true then target.nonterminal? else none) := by
  have start : ∀ symbol (k : Grammar), (dropSymbol symbol k).start = k.start := by
    intro symbol k
    cases symbol <;> rfl
  have before : (replaced source target g).start = g.start := (putBody_rest [target] g).2.1
  obtain ⟨free, -, (⟨keeps, rfl⟩ | ⟨removes, -, rfl⟩)⟩ := succeeds_replaceSymbol.1 ran
  · rw [keeps]
    refine ⟨substitutes_replaced free, fun name _ => ?_, fun _ _ => before, fun _ unset => before.trans unset⟩
    rw [before]
    simp
  · rw [removes]
    refine ⟨(substitutes_replaced free).removed, fun name same => ?_, fun none set => ?_, fun none unset => ?_⟩
    all_goals rw [start_restart, start, before]
    · have moves : source.nonterminal? = some name := by
        rw [same]
        rfl
      simp only [moves, true_and]
    · rw [none, if_neg set]
    · rw [none, unset]
      rfl

def recursiveText : String := "S = 'a' S A | A ;\nA = 'a' | '' ;"

def recursiveSample : Reading.Sample .plain recursiveText (fun g => g.start == some "S" &&
    decide ((replaceSymbol (.nonterminal "S") (.nonterminal "T") true g).result = .ok ())) :=
  .ofChars rfl (by decide +kernel)

theorem substitutes_start_symbol : ∃ g h, Reading.readText .plain recursiveText = .ok g ∧
    (replaceSymbol (.nonterminal "S") (.nonterminal "T") true).Succeeds g () h ∧
      Substitutes (.nonterminal "S") (.nonterminal "T") true g h ∧ h.start = some "T" := by
  obtain ⟨g, read, passes⟩ := recursiveSample
  obtain ⟨started, finished⟩ := Bool.and_eq_true_iff.1 passes
  have ran : (replaceSymbol (.nonterminal "S") (.nonterminal "T") true).Succeeds g () _ :=
    ⟨of_decide_eq_true finished, rfl⟩
  obtain ⟨substitutes, start, -⟩ := substitutes_of_replaceSymbol ran
  exact ⟨g, _, read, ran, substitutes, (start "S" rfl).trans (if_pos ⟨rfl, eq_of_beq started⟩)⟩

/-- A terminal goes, and a grammar without productions has a start symbol. -/
theorem replaceSymbol_starts_target : ∃ g h, Grammar.Built g ∧
    (replaceSymbol (.terminal "a") (.nonterminal "B") true).Succeeds g () h ∧ g.start = none ∧ h.start = some "B" := by
  have built : Grammar.Built (Grammar.Operation.apply { kind := .plain } (.addTerminal "a")) :=
    .edited (.addTerminal "a") (.new .plain)
  exact ⟨_, _, built, ⟨by decide +kernel, rfl⟩, by decide +kernel, by decide +kernel⟩

end ContextFree.Edit
