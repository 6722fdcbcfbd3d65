import ContextFree.Proofs.Grammar.Orderly
import ContextFree.Proofs.Pass.Stable

namespace ContextFree

open Edit

namespace Pass

variable {g h k : Grammar} {u : Unit} {p q : Production} {source : List Production}

theorem robust_orderly : Robust Grammar.Orderly where
  productions _ _ frames orderly := by
    refine orderly.with_productions fun p rule => ?_
    obtain ⟨q, old, head, weight⟩ := Production.origin_of_frames frames rule
    exact (orderly.fits q old).congr head weight
  dropped _ _ bare orderly := orderly.dropSymbol fun name same => (bare name same).2
  helped _ _ _ _ _ weight orderly := orderly.added (Grammar.fits_of_one weight)

/-- The grammar is orderly, and would be so with all productions of the source. -/
structure Supplied (source : List Production) (g : Grammar) : Prop where
  orderly : g.Orderly
  fits : ∀ p ∈ source, g.Fits p

theorem Supplied.of_taken (orderly : g.Orderly) : Supplied g.productions { g with productions := [] } where
  orderly := orderly.with_productions nofun
  fits p rule := (orderly.fits p rule).grown rfl rfl fun _ _ => id

theorem Supplied.added (supplied : Supplied source g) (fits : g.Fits q) : Supplied source (g.added q) where
  orderly := supplied.orderly.added fits
  fits p listed := Grammar.fits_added.2 (supplied.fits p listed)

theorem Supplied.addNewRules {rules : List Production} (supplied : Supplied source g) (fits : ∀ q ∈ rules, g.Fits q) :
    Supplied source ((rules.forM addNewRule) g).grammar := by
  -- The rules are carried along with the source, so that each still fits when its turn comes.
  have both : Supplied (source ++ rules) g :=
    ⟨supplied.orderly, List.forall_mem_append.2 ⟨supplied.fits, fits⟩⟩
  have each : (rules.forM addNewRule).Keeps (Supplied (source ++ rules)) := by
    refine keeps_forM fun q listed => keeps_addNewRule fun m _ _ before => ?_
    exact before.added (before.fits q (List.mem_append_right source listed))
  have after := each g both
  exact ⟨after.orderly, (List.forall_mem_append.1 after.fits).1⟩

theorem orderly_of_removeEmptyString (orderly : g.Orderly) (ran : removeEmptyString.Succeeds g u h) : h.Orderly := by
  simp only [removeEmptyString, succeeds_bind, succeeds_grammar, succeeds_debug, succeeds_takeProductions] at ran
  obtain ⟨_, _, ⟨rfl, rfl⟩, ⟨direct, deleted⟩, k, cleared, ran⟩ := ran
  obtain ⟨_, _, ⟨rfl, rfl⟩, _, _, rfl, _, l, warned, _, _, ⟨rfl, rfl⟩, looped⟩ := ran
  have left := (robust_orderly.keeps_removeEpsilons _).of_succeeds cleared orderly
  have tidy := (@keeps_warnOfStart Grammar.Orderly k _).of_succeeds warned left
  refine Supplied.orderly (looped.forM_induction (P := Supplied l.productions) (.of_taken tidy) ?_)
  intro p rule m n one supplied
  rw [← one.2]
  refine supplied.addNewRules fun q variant => ?_
  obtain ⟨body, -, rfl⟩ := List.mem_map.1 variant
  exact (supplied.fits p rule).congr rfl rfl

section Units

variable {name reached : String}

theorem supplied_of_mergeAttributes (known : name ∈ g.nonterminals) (supplied : Supplied source g)
    (merged : (mergeAttributes name (g.attributesOf reached)).Succeeds g u h) :
    Supplied source h ∧ ∀ kind letter, letter ∈ (h.attributesOf reached).ofKind kind →
      letter ∈ (h.attributesOf name).ofKind kind := by
  have orderly := supplied.orderly
  obtain ⟨sets, apart⟩ := sets_of_mergeAttributes merged
  refine ⟨⟨?_, fun p rule => ?_⟩, fun kind letter member => ?_⟩
  · exact orderly.merged known sets (apart (orderly.apart name)) (orderly.lowercase reached) fun plain =>
      orderly.unattributed plain reached
  · refine (supplied.fits p rule).grown ?_ rfl (Grammar.Orderly.grows_of_merge sets p.head)
    obtain ⟨attributes, rfl⟩ := sets.rest
    rfl
  · by_cases here : reached = name
    · rwa [here] at member
    · rw [sets.others reached here] at member
      rw [sets.here]
      exact Attributes.mem_merge_ofKind.2 (Or.inr member)

/-- The copies of what a name reaches fit once all attributes of the reached name are its own too. -/
theorem fits_copies (supplied : Supplied source g)
    (more : ∀ kind letter, letter ∈ (g.attributesOf reached).ofKind kind → letter ∈ (g.attributesOf name).ofKind kind) :
    ∀ q ∈ copies source name reached, g.Fits q := by
  intro q copy
  obtain ⟨p, listed, rfl⟩ := List.mem_map.1 copy
  obtain ⟨rule, test⟩ := List.mem_filter.1 listed
  obtain rfl := eq_of_beq (Bool.and_eq_true_iff.1 test).1
  exact (supplied.fits p rule).grown rfl rfl more

theorem supplied_of_takeOver (known : name ∈ g.nonterminals) (supplied : Supplied source g)
    (ran : (takeOver source name reached).Succeeds g u h) : Supplied source h := by
  obtain ⟨k, copied, stage⟩ := takeOver_cases ran
  have ready : Supplied source k ∧ ∀ kind letter, letter ∈ (k.attributesOf reached).ofKind kind →
      letter ∈ (k.attributesOf name).ofKind kind := by
    rcases stage with ⟨rfl, rfl | none⟩ | merged
    · exact ⟨supplied, fun _ _ => id⟩
    · refine ⟨supplied, fun kind letter member => ?_⟩
      rw [none] at member
      exact absurd member (Attributes.not_mem_empty_ofKind kind letter)
    · exact supplied_of_mergeAttributes known supplied merged
  rw [← copied.2]
  exact ready.1.addNewRules (fits_copies ready.1 ready.2)

theorem orderly_of_removeUnits (orderly : g.Orderly) (ran : removeUnits.Succeeds g u h) : h.Orderly := by
  obtain ⟨k, looped, rfl⟩ := takeOverAll_of_removeUnits ran
  let P := fun m => Supplied g.productions m ∧ ∀ name ∈ g.nonterminals, name ∈ m.nonterminals
  have all : P k := by
    refine looped.forM_induction (P := P) ⟨.of_taken orderly, fun _ known => known⟩ fun name known m n one before => ?_
    refine one.forM_induction before fun reached _ x y two between => ?_
    refine ⟨supplied_of_takeOver (between.2 name known) between.1 two, fun other present => ?_⟩
    exact (adds_of_takeOver two).symbols (.nonterminal other) (between.2 other present)
  exact robust_orderly.pruned all.1.orderly

end Units

end Pass

end ContextFree
