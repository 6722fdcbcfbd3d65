import ContextFree.Proofs.Edit.Refusal
import ContextFree.Proofs.Grammar.Assembled

namespace ContextFree

theorem eraseDups_of_nodup {names : List String} (distinct : names.Nodup) : names.eraseDups = names := by
  induction names with
  | nil => rfl
  | cons name rest ih =>
    rw [List.nodup_cons] at distinct
    have others : (rest.filter fun other => !other == name) = rest := by
      rw [List.filter_eq_self]
      intro other member
      have differs : other ≠ name := fun same => distinct.1 (same ▸ member)
      simpa using differs
    rw [List.eraseDups_cons, others, ih distinct.2]

namespace Table

variable {s t : Table} {name : String}

/-- Those names that are not in the table, each once, in the order in which they are mentioned. -/
def newNames (table : Table) (mentioned : List String) : List String :=
  (mentioned.filter fun name => name ∉ table).eraseDups

theorem eraseDups_append_names (table : Table) (mentioned : List String) :
    (table.names ++ mentioned).eraseDups = table.names ++ table.newNames mentioned := by
  have new : mentioned.removeAll table.names = mentioned.filter fun name => name ∉ table := by
    apply List.filter_congr
    intro name _
    rw [List.elem_eq_contains, List.contains_eq_mem]
    exact (decide_not).symm
  rw [List.eraseDups_append, eraseDups_of_nodup table.distinct, new, newNames]

example : newNames ⟨["S", "A"], by decide⟩ ["B", "S", "C", "B"] = ["B", "C"] := by decide

theorem index?_of_prefix (front : s.names <+: t.names) (present : name ∈ s) : t.index? name = s.index? name := by
  obtain ⟨more, whole⟩ := front
  have found : (s.names.findIdx? (· == name)).isSome := by
    rw [List.findIdx?_isSome, List.any_eq_true]
    exact ⟨name, present, beq_self_eq_true name⟩
  rw [index?, index?, ← whole, List.idxOf?, List.findIdx?_append, Option.or_of_isSome found]

end Table

namespace Grammar

open Edit

variable {g h : Grammar} {p : Production} {index : Nat}

theorem insertIdx_append (before after : List Production) (p : Production) :
    (before ++ after).insertIdx before.length p = before ++ p :: after := by
  induction before with
  | nil => rfl
  | cons q rest ih => rw [List.cons_append, List.length_cons, List.insertIdx_succ_cons, ih, List.cons_append]

/-- The production stands behind as many others as the index says, and all of these are in the order in
which they were. What it mentions is in the tables, where new names follow the old ones. -/
structure Gains (index : Nat) (p : Production) (g h : Grammar) : Prop where
  placed : ∃ before after, before.length = index ∧ g.productions = before ++ after ∧
    h.productions = before ++ p :: after
  knows : p.head ∈ h.nonterminals ∧ ∀ symbol ∈ p.body, h.hasSymbol symbol
  nonterminals : h.nonterminals.names = g.nonterminals.names ++ g.nonterminals.newNames (Production.nonterminals [p])
  terminals : h.terminals.names = g.terminals.names ++ g.terminals.newNames (Production.terminals [p])
  nonterminal_places : ∀ name ∈ g.nonterminals, h.nonterminals.index? name = g.nonterminals.index? name
  terminal_places : ∀ token ∈ g.terminals, h.terminals.index? token = g.terminals.index? token
  start : h.start = g.start.or (some p.head)
  kind : h.kind = g.kind
  attributes : h.attributes = g.attributes

theorem gains_inserted (within : index ≤ g.productions.length) : Gains index p g (g.inserted index p) := by
  have nonterminals : (g.inserted index p).nonterminals.names =
      g.nonterminals.names ++ g.nonterminals.newNames (Production.nonterminals [p]) := by
    rw [← Table.eraseDups_append_names]
    exact nonterminals_added (eraseDups_of_nodup g.nonterminals.distinct).symm p
  have terminals : (g.inserted index p).terminals.names =
      g.terminals.names ++ g.terminals.newNames (Production.terminals [p]) := by
    rw [← Table.eraseDups_append_names]
    exact terminals_added (eraseDups_of_nodup g.terminals.distinct).symm p
  refine ⟨?_, ⟨?_, fun symbol inBody => ?_⟩, nonterminals, terminals, fun name present => ?_, fun token present => ?_,
    start_added, kind_added, attributes_added⟩
  · have split : g.productions.take index ++ g.productions.drop index = g.productions := List.take_append_drop index _
    have length : (g.productions.take index).length = index := List.length_take_of_le within
    refine ⟨g.productions.take index, g.productions.drop index, length, split.symm, ?_⟩
    rw [inserted, ← insertIdx_append, length, split]
  · exact (@hasSymbol_added g p (.nonterminal p.head)).2 (Or.inr (Or.inl rfl))
  · exact hasSymbol_productions.2 (hasSymbol_added.2 (Or.inl inBody))
  · exact Table.index?_of_prefix ⟨_, nonterminals.symm⟩ present
  · exact Table.index?_of_prefix ⟨_, terminals.symm⟩ present

theorem inserted_length (g : Grammar) (p : Production) : g.inserted g.productions.length p = g.added p := by
  rw [inserted, List.insertIdx_length_self, ← productions_added]

end Grammar

namespace Edit

open Grammar (Gains)

theorem exists_fault_of_illegal {p : Production} (illegal : ¬ (p.body ≠ [] ∧ p.Legal)) :
    ∃ fault, checkProduction p = .error fault := by
  cases checked : checkProduction p with
  | ok done => exact absurd (Production.checkProduction_iff_legal.1 checked) illegal
  | error fault => exact ⟨fault, rfl⟩

/-- A legal production with a body is added, at the end or at a place there is. Any other is refused, and
then the grammar is what it was. -/
theorem addition_all_or_nothing (p : Production) (index : Nat) (g : Grammar) :
    ((p.body ≠ [] ∧ p.Legal) ∧ (∃ h, (addProduction p).Succeeds g () h ∧ Gains g.productions.length p g h) ∨
      ¬ (p.body ≠ [] ∧ p.Legal) ∧ ∃ fault, (addProduction p).Fails g fault g) ∧
    ((index ≤ g.productions.length ∧ p.body ≠ [] ∧ p.Legal) ∧
        (∃ h, (insertProduction index p).Succeeds g () h ∧ Gains index p g h) ∨
      ¬ (index ≤ g.productions.length ∧ p.body ≠ [] ∧ p.Legal) ∧
        ∃ fault, (insertProduction index p).Fails g fault g) := by
  constructor
  · by_cases fit : p.body ≠ [] ∧ p.Legal
    · have gains := @Grammar.gains_inserted g p g.productions.length (Nat.le_refl _)
      rw [Grammar.inserted_length] at gains
      refine Or.inl ⟨fit, g.added p, ?_, gains⟩
      exact succeeds_addProduction.2 ⟨Production.checkProduction_iff_legal.2 fit, rfl⟩
    · obtain ⟨fault, illegal⟩ := exists_fault_of_illegal fit
      exact Or.inr ⟨fit, fault, fails_addProduction.2 ⟨illegal, rfl⟩⟩
  · by_cases fit : index ≤ g.productions.length ∧ p.body ≠ [] ∧ p.Legal
    · have checked := Production.checkProduction_iff_legal.2 fit.2
      exact Or.inl ⟨fit, _, succeeds_of_run (insertProduction_run fit.1 checked), Grammar.gains_inserted fit.1⟩
    · refine Or.inr ⟨fit, ?_⟩
      by_cases within : index ≤ g.productions.length
      · obtain ⟨fault, illegal⟩ := exists_fault_of_illegal fun legal => fit ⟨within, legal⟩
        exact ⟨fault, fails_of_run (insertProduction_refused within illegal)⟩
      · exact ⟨_, fails_of_run (insertProduction_misplaced within p)⟩

end Edit

end ContextFree
