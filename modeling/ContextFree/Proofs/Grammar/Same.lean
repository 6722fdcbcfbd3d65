import Mathlib.Data.List.Forall2
import ContextFree.Grammar.Basic
import ContextFree.Proofs.Attributes

namespace ContextFree

theorem Table.same_iff {s t : Table} : s.same t = true ↔ ∀ name, name ∈ s ↔ name ∈ t := by
  rw [same, Bool.and_eq_true, beq_iff_eq, List.all_eq_true]
  simp only [decide_eq_true_eq]
  constructor
  · rintro ⟨sizes, within⟩ name
    have all : s.names.Perm t.names := (s.distinct.subperm within).perm_of_length_le (Nat.le_of_eq sizes.symm)
    exact all.mem_iff
  · intro agree
    have all : s.names.Perm t.names := (List.perm_ext_iff_of_nodup s.distinct t.distinct).2 agree
    exact ⟨all.length_eq, fun name => (agree name).1⟩

namespace Grammar

variable {g h : Grammar}

theorem rules_same_iff (ps qs : List Production) :
    (ps.length == qs.length && (ps.zip qs).all fun pair => pair.1.sameRule pair.2) = true ↔
      List.Forall₂ (fun p q => p.head = q.head ∧ p.body = q.body) ps qs := by
  rw [Bool.and_eq_true, beq_iff_eq, List.all_eq_true, List.forall₂_iff_zip]
  refine and_congr_right fun _ => ⟨fun all p q pair => ?_, ?_⟩
  · exact Production.sameRule_iff.1 (all (p, q) pair)
  · rintro all ⟨p, q⟩ pair
    exact Production.sameRule_iff.2 (all pair)

theorem same_iff : g.same h = true ↔ g.kind = h.kind ∧ g.start = h.start ∧
    (∀ symbol, g.hasSymbol symbol ↔ h.hasSymbol symbol) ∧
    List.Forall₂ (fun p q => p.head = q.head ∧ p.body = q.body) g.productions h.productions ∧
      ∀ name, g.attributesOf? name = h.attributesOf? name := by
  have symbols : (∀ symbol, g.hasSymbol symbol ↔ h.hasSymbol symbol) ↔
      (∀ name, name ∈ g.nonterminals ↔ name ∈ h.nonterminals) ∧ ∀ token, token ∈ g.terminals ↔ token ∈ h.terminals := by
    constructor
    · intro agree
      exact ⟨fun name => agree (.nonterminal name), fun token => agree (.terminal token)⟩
    · rintro ⟨nonterminals, terminals⟩ symbol
      cases symbol with
      | terminal token => exact terminals token
      | nonterminal name => exact nonterminals name
      | empty => exact Iff.rfl
  rw [symbols, ← rules_same_iff, same]
  simp only [Bool.and_eq_true, beq_iff_eq, Table.same_iff, AttributeTable.same_iff, and_assoc]
  exact Iff.rfl

end Grammar

end ContextFree
