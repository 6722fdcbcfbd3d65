import ContextFree.Proofs.Grammar.FreshName
import Mathlib.Order.Bounds.Basic

namespace ContextFree.Grammar

variable {g : Grammar} {base name : String} {start : Nat}

/-- Trying one number after the other from the given one on, the search ends with the name. -/
inductive Finds (g : Grammar) (base : String) : Nat → String → Prop where
  | free {n : Nat} (absent : numbered base n ∉ g.nonterminals) : Finds g base n (numbered base n)
  | taken {n : Nat} {name : String} (present : numbered base n ∈ g.nonterminals)
      (later : Finds g base (n + 1) name) : Finds g base n name

theorem finds_of_first {steps : Nat} (absent : numbered base (start + steps) ∉ g.nonterminals)
    (before : ∀ m < steps, numbered base (start + m) ∈ g.nonterminals) :
    Finds g base start (numbered base (start + steps)) := by
  induction steps generalizing start with
  | zero => exact .free absent
  | succ steps ih =>
    have shift : ∀ m, start + 1 + m = start + (m + 1) := fun m => by omega
    have present : numbered base start ∈ g.nonterminals := before 0 (Nat.succ_pos steps)
    have later : Finds g base (start + 1) (numbered base (start + 1 + steps)) := by
      apply ih
      · rwa [shift]
      · intro m below
        rw [shift]
        exact before (m + 1) (Nat.succ_lt_succ below)
    rw [shift] at later
    exact .taken present later

theorem finds_iff : Finds g base start name ↔
    ∃ n, IsLeast {m | start ≤ m ∧ numbered base m ∉ g.nonterminals} n ∧ name = numbered base n := by
  constructor
  · intro found
    induction found with
    | @free n absent => exact ⟨n, ⟨⟨Nat.le_refl n, absent⟩, fun m listed => listed.1⟩, rfl⟩
    | @taken n name present later ih =>
      obtain ⟨k, ⟨⟨late, absent⟩, least⟩, same⟩ := ih
      refine ⟨k, ⟨⟨by omega, absent⟩, fun m listed => ?_⟩, same⟩
      obtain ⟨large, spare⟩ := listed
      have other : n ≠ m := by
        rintro rfl
        exact spare present
      exact least ⟨by omega, spare⟩
  · rintro ⟨n, ⟨⟨late, absent⟩, least⟩, rfl⟩
    obtain ⟨steps, rfl⟩ := Nat.exists_eq_add_of_le late
    refine finds_of_first absent fun m below => Decidable.byContradiction fun spare => ?_
    have bound : start + steps ≤ start + m := least ⟨Nat.le_add_right start m, spare⟩
    omega

/-- A name that is free is taken as it is. From any other one the search over all numbers from two on ends, with the
least that makes a free name of it, which is larger than the table by two at most. The name found is never one of the
table, and it is legal where the one asked for is. -/
theorem freshName_exact (g : Grammar) (base : String) :
    g.freshName base ∉ g.nonterminals ∧
    (base ∉ g.nonterminals → g.freshName base = base) ∧
    (base ∈ g.nonterminals → (∀ name, Finds g base 2 name ↔ name = g.freshName base) ∧
      ∃ n ≤ g.nonterminals.size + 2, g.freshName base = numbered base n ∧
        IsLeast {m | 2 ≤ m ∧ numbered base m ∉ g.nonterminals} n) ∧
    (Name.checkNonterminal base = .ok () → Name.checkNonterminal (g.freshName base) = .ok ()) := by
  refine ⟨g.freshName_not_mem base, freshName_of_not_mem, fun taken => ?_, fun legal =>
    checkNonterminal_freshName legal g⟩
  obtain ⟨n, few, same, absent, before⟩ := freshName_of_mem taken
  have least : IsLeast {m | 2 ≤ m ∧ numbered base m ∉ g.nonterminals} (n + 2) := by
    refine ⟨⟨Nat.le_add_left 2 n, absent⟩, fun m listed => ?_⟩
    obtain ⟨large, spare⟩ := listed
    obtain ⟨k, rfl⟩ := Nat.exists_eq_add_of_le' large
    have late : ¬ k < n := fun below => spare (before k below)
    omega
  refine ⟨fun name => ?_, n + 2, by omega, same, least⟩
  rw [finds_iff, same]
  constructor
  · rintro ⟨m, first, rfl⟩
    rw [first.unique least]
  · rintro rfl
    exact ⟨n + 2, least, rfl⟩

-- S_2 and S_4 are taken, S_3 is not.
theorem freshName_exact_of_gap : ∃ g : Grammar, g.nonterminals.names = ["S", "S_2", "S_4"] ∧
    "S" ∈ g.nonterminals ∧ "T" ∉ g.nonterminals ∧ Name.checkNonterminal "S" = .ok () ∧
    Finds g "S" 2 "S_3" ∧ g.freshName "T" = "T" ∧ Name.checkNonterminal (g.freshName "S") = .ok () := by
  have taken : "S" ∈ ["S", "S_2", "S_4"] := by decide
  have spare : "T" ∉ ["S", "S_2", "S_4"] := by decide
  have legal : Name.checkNonterminal "S" = .ok () := by decide +kernel
  obtain ⟨-, -, searched, kept⟩ := freshName_exact ⟨.plain, none, ⟨["S", "S_2", "S_4"], by decide⟩, ∅, [], ∅⟩ "S"
  obtain ⟨-, free, -, -⟩ := freshName_exact ⟨.plain, none, ⟨["S", "S_2", "S_4"], by decide⟩, ∅, [], ∅⟩ "T"
  exact ⟨_, rfl, taken, spare, legal, ((searched taken).1 "S_3").2 (by decide +kernel), free spare, kept legal⟩

end ContextFree.Grammar
