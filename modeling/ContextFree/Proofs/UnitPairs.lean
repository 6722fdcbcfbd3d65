import ContextFree.Proofs.Analysis.Units
import Mathlib.Data.Nat.Find
import Mathlib.Logic.Function.Iterate

namespace ContextFree

namespace Closure

variable {α : Type} [DecidableEq α] (domain : List α) (step : List α → List α) (known : List α)

def grow : List α := extend known ((step known).filter (· ∈ domain))

theorem saturate_eq_iterate : ∃ rounds ≤ (domain.filter (· ∉ known)).length,
    saturate domain step known = (grow domain step)^[rounds] known ∧
      grow domain step (saturate domain step known) = saturate domain step known := by
  fun_induction saturate domain step known with
  | case1 known more same => exact ⟨0, Nat.zero_le _, rfl, extend_eq_self same⟩
  | case2 known more grown ih =>
    obtain ⟨rounds, few, reached, fixed⟩ := ih
    refine ⟨rounds + 1, Nat.lt_of_le_of_lt few (missing_lt grown), ?_, fixed⟩
    rw [Function.iterate_succ_apply]
    exact reached

end Closure

namespace Units

variable {g : Grammar} {ps : List Production} {name : String} {rounds passes : Nat}

def singletons (g : Grammar) : List (String × List String) := g.nonterminals.names.map fun name => (name, [name])

/-- Every trail takes in what its members lead to in one step. -/
def pass (ps : List Production) (rows : List (String × List String)) : List (String × List String) :=
  rows.map fun row => (row.1, round ps row.2)

theorem iterate_pass (g : Grammar) (ps : List Production) (passes : Nat) : (pass ps)^[passes] (singletons g) =
    g.nonterminals.names.map fun name => (name, (round ps)^[passes] [name]) := by
  induction passes with
  | zero => rfl
  | succ passes ih =>
    rw [Function.iterate_succ_apply', ih, pass, List.map_map]
    simp only [Function.iterate_succ_apply']
    rfl

theorem iterate_round (late : ps.countP Production.isUnit ≤ rounds) : (round ps)^[rounds] [name] = reach ps name := by
  obtain ⟨needed, few, reached, fixed⟩ := Closure.saturate_eq_iterate
    (ps.filterMap Production.unitTarget?) (fun known => known.flatMap (targetsOf ps)) [name]
  have targets : (ps.filterMap Production.unitTarget?).length = ps.countP Production.isUnit :=
    List.length_filterMap_eq_countP
  have missing := List.length_filter_le (fun target => decide (target ∉ [name])) (ps.filterMap Production.unitTarget?)
  obtain ⟨more, rfl⟩ := Nat.exists_eq_add_of_le' (show needed ≤ rounds by omega)
  have closed : (round ps)^[needed] [name] = reach ps name := reached.symm
  rw [Function.iterate_add_apply, closed]
  exact Function.iterate_fixed fixed more

theorem iterate_pass_late (late : ps.countP Production.isUnit ≤ passes) :
    (pass ps)^[passes] (singletons g) = pairs g ps := by
  rw [iterate_pass, pairs]
  exact List.map_congr_left fun name _ => by rw [iterate_round late]

theorem pairs_of_fixed (fixed : pass ps ((pass ps)^[passes] (singletons g)) = (pass ps)^[passes] (singletons g)) :
    (pass ps)^[passes] (singletons g) = pairs g ps := by
  rw [← Function.iterate_fixed fixed (ps.countP Production.isUnit), ← Function.iterate_add_apply]
  exact iterate_pass_late (Nat.le_add_right _ _)

theorem pass_pairs (g : Grammar) (ps : List Production) : pass ps (pairs g ps) = pairs g ps := by
  have last : (pass ps)^[ps.countP Production.isUnit] (singletons g) = pairs g ps := iterate_pass_late (Nat.le_refl _)
  have next : (pass ps)^[ps.countP Production.isUnit + 1] (singletons g) = pairs g ps :=
    iterate_pass_late (Nat.le_succ _)
  rwa [Function.iterate_succ_apply', last] at next

/-- Passes are made until one changes nothing, which comes after no more of them than there are unit productions.
Then each nonterminal of the table has its trail: itself, and once each all that its chains lead to, what a shorter
chain leads to before what only longer ones do. -/
theorem pairs_exact (g : Grammar) (ps : List Production) :
    (∃ passes ≤ ps.countP Production.isUnit, (pass ps)^[passes] (singletons g) = pairs g ps ∧
      ∀ fewer, pass ps ((pass ps)^[fewer] (singletons g)) = (pass ps)^[fewer] (singletons g) ↔ passes ≤ fewer) ∧
    (pairs g ps).map Prod.fst = g.nonterminals.names ∧
    ∀ name trail, (name, trail) ∈ pairs g ps → Traces ps name trail := by
  refine ⟨?_, ?_, ?_⟩
  · have ends : ∃ passes, (pass ps)^[passes] (singletons g) = pairs g ps := ⟨_, iterate_pass_late (Nat.le_refl _)⟩
    refine ⟨Nat.find ends, Nat.find_min' ends (iterate_pass_late (Nat.le_refl _)), Nat.find_spec ends, fun fewer => ?_⟩
    constructor
    · intro fixed
      exact Nat.find_min' ends (pairs_of_fixed fixed)
    · intro late
      obtain ⟨more, rfl⟩ := Nat.exists_eq_add_of_le' late
      rw [Function.iterate_add_apply, Nat.find_spec ends, Function.iterate_fixed (pass_pairs g ps), pass_pairs]
  · rw [pairs, List.map_map]
    exact List.map_id _
  · intro name trail row
    obtain ⟨_, -, same⟩ := List.mem_map.1 row
    cases same
    exact traces_reach ps name

-- The chains from S run in a circle. What is two steps away comes after both names that are one step away.
example : reach [⟨"S", .one, [.nonterminal "A"]⟩, ⟨"A", .one, [.nonterminal "D"]⟩, ⟨"S", .one, [.nonterminal "B"]⟩,
    ⟨"D", .one, [.nonterminal "S"]⟩, ⟨"B", .one, [.nonterminal "C"]⟩] "S" = ["S", "A", "B", "D",
      "C"] := by decide +kernel

end Units

end ContextFree
