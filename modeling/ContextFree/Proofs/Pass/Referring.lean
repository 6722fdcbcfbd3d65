import ContextFree.Proofs.Pass.Orderly
import ContextFree.Proofs.Pass.Totality

namespace ContextFree

open Edit

namespace Grammar

/-- A weighted grammar in which references to attributes are defined and entries belong to names. -/
structure Referring (g : Grammar) : Prop where
  weighted : g.kind = .weighted
  orderly : g.Orderly
  tabled : g.Tabled

end Grammar

namespace Pass

variable {g h : Grammar} {u : Unit} {source : List Production} {names : List String} {name reached : String}

theorem additive_tabled : Additive Grammar.Tabled where
  productions _ _ _ tabled := tabled
  dropped _ symbol _ tabled := tabled.dropSymbol symbol
  helped _ p _ _ _ _ tabled := tabled.added p
  added _ p _ _ tabled := tabled.added p

theorem robust_referring : Robust Grammar.Referring where
  productions g productions frames referring :=
    ⟨referring.weighted, robust_orderly.productions g productions frames referring.orderly, referring.tabled⟩
  dropped g symbol bare referring :=
    ⟨(stable_kind .weighted).dropped g symbol bare referring.weighted,
      robust_orderly.dropped g symbol bare referring.orderly, referring.tabled.dropSymbol symbol⟩
  helped g p fresh filled legal one referring :=
    ⟨Grammar.kind_added.trans referring.weighted, robust_orderly.helped g p fresh filled legal one referring.orderly,
      referring.tabled.added p⟩

/-- The grammar keeps the names, and all productions of the source would have their references
defined in it. -/
structure Sourced (source : List Production) (names : List String) (g : Grammar) : Prop extends Supplied source g where
  weighted : g.kind = .weighted
  tabled : g.Tabled
  known : ∀ name ∈ names, g.hasSymbol (.nonterminal name)

namespace Sourced

theorem taken (referring : g.Referring) : Sourced g.productions g.nonterminals.names { g with productions := [] } where
  toSupplied := .of_taken referring.orderly
  weighted := referring.weighted
  tabled := referring.tabled
  known _ listed := listed

theorem referring (sourced : Sourced source names g) :
    g.Referring := ⟨sourced.weighted, sourced.orderly, sourced.tabled⟩

theorem merged {few : Attributes} (sourced : Sourced source names g) (known : name ∈ g.nonterminals)
    (lowercase : few.Lowercase)
    (apart : ((g.attributesOf name).Apart → ((g.attributesOf name).merge few).Apart)) :
    Sourced source names (withAttributes name ((g.attributesOf name).merge few) g) where
  orderly := by
    apply sourced.orderly.merged known (sets_withAttributes _ _ _) (apart (sourced.orderly.apart name)) lowercase
    rw [sourced.weighted]
    nofun
  fits p rule := (sourced.fits p rule).grown rfl rfl (Grammar.Orderly.grows_of_merge (sets_withAttributes _ _ _) p.head)
  weighted := sourced.weighted
  tabled := sourced.tabled.withAttributes known _
  known := sourced.known

theorem addNewRules {rules : List Production} (sourced : Sourced source names g) (fits : ∀ q ∈ rules, g.Fits q) :
    Sourced source names ((rules.forM addNewRule) g).grammar where
  toSupplied := sourced.toSupplied.addNewRules fits
  weighted := keeps_forM (fun q _ => (stable_kind .weighted).keeps_addNewRule q) g sourced.weighted
  tabled := keeps_forM (fun q _ => additive_tabled.keeps_addNewRule q) g sourced.tabled
  known name listed := by
    have keeps : (rules.forM addNewRule).Keeps fun m => m.hasSymbol (.nonterminal name) :=
      keeps_forM fun _ _ => keeps_addNewRule fun _ _ _ present => Grammar.hasSymbol_added.2 (Or.inr (Or.inr present))
    exact keeps g (sourced.known name listed)

end Sourced

theorem keeps_mergeAttributes_sourced (name : String) (found : Attributes) :
    (mergeAttributes name found).Keeps (Sourced source names) := by
  apply keeps_mergeAttributes_of_step
  intro k few known lowercase apart before
  exact before.merged known lowercase apart

theorem keeps_takeOver_sourced (listed : name ∈ names) :
    (takeOver source name reached).Keeps (Sourced source names) := by
  intro g before
  unfold takeOver
  split
  · dsimp only
    rw [grammar_bind (succeeds_debug (u := ()) |>.2 rfl), grammar_bind (succeeds_grammar.2 ⟨rfl, rfl⟩)]
    cases entry : g.attributesOf? reached with
    | some attributes =>
      have found : g.attributesOf reached = attributes := by rw [Grammar.attributesOf, entry]; rfl
      apply holds_bind_of_succeeds (keeps_mergeAttributes_sourced name attributes g before)
      intro _ k merged after
      rw [← found] at merged
      have supply := supplied_of_mergeAttributes (before.known name listed) before.toSupplied merged
      exact after.addNewRules (fits_copies supply.1 supply.2)
    | none =>
      apply before.addNewRules
      apply fits_copies before.toSupplied
      intro kind letter member
      have none : g.attributesOf reached = ∅ := by rw [Grammar.attributesOf, entry]; rfl
      rw [none] at member
      exact absurd member (Attributes.not_mem_empty_ofKind kind letter)
  · next same =>
    obtain rfl := Decidable.not_not.1 same
    exact before.addNewRules (fits_copies before.toSupplied fun _ _ => id)

/-- The source counts until all is taken over; then names may go that only it mentions. -/
theorem referring_of_removeUnits (referring : g.Referring) : (removeUnits g).grammar.Referring := by
  have loop : (takeOverAll g).Keeps (Sourced g.productions g.nonterminals.names) := by
    apply keeps_forM
    intro name known
    apply keeps_forM
    intro reached _
    exact keeps_takeOver_sourced known
  rw [removeUnits_run]
  apply holds_bind (loop _ (.taken referring)).referring
  intro _
  exact keeps_bind robust_referring.keeps_removeUnused fun _ => keeps_reportSymbols _ _ _

theorem referring_of_removeEmptyString (coherent : g.Coherent) (legal : g.Legal) (referring : g.Referring) :
    (removeEmptyString g).grammar.Referring := by
  obtain ⟨_, h, ran⟩ := runs_removeEmptyString fun p => legal.production coherent.closed
  rw [ran.2]
  exact ⟨(stable_kind .weighted).keeps_removeEmptyString.of_succeeds ran referring.weighted,
    orderly_of_removeEmptyString referring.orderly ran,
      additive_tabled.keeps_removeEmptyString.of_succeeds ran referring.tabled⟩

end Pass

end ContextFree
