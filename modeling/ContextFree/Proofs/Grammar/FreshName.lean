import ContextFree.Grammar.Basic
import ContextFree.Proofs.Name

namespace ContextFree.Grammar

theorem numbered_injective {base : String} {m n : Nat} (same : numbered base m = numbered base n) :
    m = n := by
  have digits := congrArg String.toList ((String.append_right_inj _).1 same)
  rw [Nat.toList_repr, Nat.toList_repr] at digits
  have read := congrArg (fun digits => Nat.ofDigitChars 10 digits 0) digits
  simpa only [Nat.ofDigitChars_ten_toDigits] using read

def candidates (g : Grammar) (base : String) : List String :=
  (List.range (g.nonterminals.size + 1)).map fun n => numbered base (n + 2)

theorem candidates_nodup (g : Grammar) (base : String) : (g.candidates base).Nodup := by
  apply List.Pairwise.map _ _ List.nodup_range
  intro m n differ same
  have numbers := numbered_injective same
  omega

theorem candidate_free (g : Grammar) (base : String) :
    ∃ name ∈ g.candidates base, name ∉ g.nonterminals := by
  refine Decidable.byContradiction fun none => ?_
  have taken : g.candidates base ⊆ g.nonterminals.names := by
    intro name candidate
    exact Decidable.byContradiction fun free => none ⟨name, candidate, free⟩
  have bound := (g.candidates_nodup base).length_le_of_subset taken
  simp only [candidates, List.length_map, List.length_range, Table.size] at bound
  omega

theorem freshName_of_not_mem {g : Grammar} {base : String} (free : base ∉ g.nonterminals) : g.freshName base = base :=
  if_neg free

theorem freshName_of_mem {g : Grammar} {base : String} (taken : base ∈ g.nonterminals) :
    ∃ n ≤ g.nonterminals.size, g.freshName base = numbered base (n + 2) ∧
      numbered base (n + 2) ∉ g.nonterminals ∧ ∀ m < n, numbered base (m + 2) ∈ g.nonterminals := by
  obtain ⟨name, candidate, free⟩ := g.candidate_free base
  have found : ((g.candidates base).find? (· ∉ g.nonterminals)).isSome :=
    List.find?_isSome.2 ⟨name, candidate, decide_eq_true free⟩
  rw [candidates, List.find?_map, Option.isSome_map] at found
  obtain ⟨n, first⟩ := Option.isSome_iff_exists.1 found
  obtain ⟨isFree, tried, before⟩ := List.find?_range_eq_some.1 first
  refine ⟨n, Nat.lt_succ_iff.1 (List.mem_range.1 tried), ?_, of_decide_eq_true isFree, fun m below => ?_⟩
  · unfold freshName
    rw [if_pos taken]
    show ((g.candidates base).find? (· ∉ g.nonterminals)).getD base = numbered base (n + 2)
    rw [candidates, List.find?_map, first]
    rfl
  · simpa using before m below

theorem freshName_not_mem (g : Grammar) (base : String) : g.freshName base ∉ g.nonterminals := by
  by_cases taken : base ∈ g.nonterminals
  · obtain ⟨n, -, same, free, -⟩ := freshName_of_mem taken
    rwa [same]
  · rwa [freshName_of_not_mem taken]

theorem freshName_cases (g : Grammar) (base : String) :
    g.freshName base = base ∨ ∃ n, g.freshName base = numbered base n := by
  by_cases taken : base ∈ g.nonterminals
  · obtain ⟨n, -, same, -⟩ := freshName_of_mem taken
    exact Or.inr ⟨n + 2, same⟩
  · exact Or.inl (freshName_of_not_mem taken)

theorem freshName_append (g : Grammar) (base : String) :
    ∃ more, g.freshName base = base ++ more ∧ ∀ c ∈ more.toList, Name.isPlain c = true := by
  rcases g.freshName_cases base with same | ⟨n, same⟩
  · exact ⟨"", by rw [same, String.append_empty], fun c member => nomatch member⟩
  · refine ⟨"_" ++ n.repr, by rw [same, numbered, String.append_assoc], fun c member => ?_⟩
    rw [String.toList_append, Nat.toList_repr] at member
    rcases List.mem_append.1 member with underscore | digit
    · rw [List.mem_singleton.1 underscore]
      decide
    · have isDigit := Nat.isDigit_of_mem_toDigits (by decide) (by decide) digit
      exact Name.isPlain_of_isAlphanum (by rw [Char.isAlphanum, isDigit, Bool.or_true])

theorem checkNonterminal_freshName {base : String} (legal : Name.checkNonterminal base = .ok ()) (g : Grammar) :
    Name.checkNonterminal (g.freshName base) = .ok () := by
  obtain ⟨more, same, plain⟩ := g.freshName_append base
  rw [same]
  exact Name.checkNonterminal_append legal plain

end ContextFree.Grammar
