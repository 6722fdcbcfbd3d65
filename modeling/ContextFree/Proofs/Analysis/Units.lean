import ContextFree.Analysis.Reach
import ContextFree.Pass.Removal
import ContextFree.Proofs.Derivation.Rules

namespace ContextFree.Units

open Pass (copies)

variable {ps : List Production} {names : List String} {body : Body} {sentence : Sentence}

theorem unitTarget?_eq_some {p : Production} {target : String} :
    p.unitTarget? = some target ↔ p.body = [.nonterminal target] := by
  unfold Production.unitTarget?
  split
  · next name same => simp [same]
  · next other =>
    refine ⟨nofun, fun same => ?_⟩
    exact absurd same (other target)

theorem isUnit_iff {p : Production} : p.isUnit = true ↔ ∃ target, p.body = [.nonterminal target] := by
  simp only [Production.isUnit, Option.isSome_iff_exists, unitTarget?_eq_some]

theorem mem_targetsOf {name target : String} :
    target ∈ targetsOf ps name ↔ ∃ p ∈ ps, p.head = name ∧ p.body = [.nonterminal target] := by
  simp only [targetsOf, List.mem_filterMap, List.mem_filter, beq_iff_eq, unitTarget?_eq_some, and_assoc]

theorem self_mem_reach (ps : List Production) (name : String) : name ∈ reach ps name :=
  Closure.subset_saturate _ _ _ List.mem_cons_self

theorem target_mem_reach {name mid target : String} (known : mid ∈ reach ps name)
    (step : target ∈ targetsOf ps mid) : target ∈ reach ps name := by
  apply Closure.saturate_closed _ _ _ target
  · exact List.mem_flatMap.2 ⟨mid, known, step⟩
  · obtain ⟨p, rule, -, single⟩ := mem_targetsOf.1 step
    exact List.mem_filterMap.2 ⟨p, rule, unitTarget?_eq_some.2 single⟩

theorem reach_subset {name mid : String} (known : mid ∈ reach ps name) : reach ps mid ⊆ reach ps name := by
  apply Closure.saturate_induction
  · intro x same
    rw [List.mem_singleton.1 same]
    exact known
  · intro seen inside x found
    obtain ⟨via, member, step⟩ := List.mem_flatMap.1 found
    exact target_mem_reach (inside via member) step

theorem derives_of_reach {name reached : String} (known : reached ∈ reach ps name) :
    ∀ w, Derives ps [.nonterminal reached] w → Derives ps [.nonterminal name] w := by
  revert reached
  apply Closure.saturate_induction
  · intro x same w d
    rwa [List.mem_singleton.1 same] at d
  · intro seen inside x found w d
    obtain ⟨via, member, step⟩ := List.mem_flatMap.1 found
    obtain ⟨p, rule, rfl, single⟩ := mem_targetsOf.1 step
    rw [← single] at d
    exact inside p.head member w (.of_rule rule d)

section Chains

variable {name target : String} {length rounds : Nat} {seen : List String}

inductive Chain (ps : List Production) (name : String) : Nat → String → Prop where
  | start : Chain ps name 0 name
  | next {length : Nat} {p : Production} {target : String} (chain : Chain ps name length p.head) (rule : p ∈ ps)
    (unit : p.body = [.nonterminal target]) : Chain ps name (length + 1) target

theorem chain_succ_iff : Chain ps name (length + 1) target ↔
    ∃ mid, Chain ps name length mid ∧ target ∈ targetsOf ps mid := by
  constructor
  · intro chain
    cases chain with
    | next chain rule unit => exact ⟨_, chain, mem_targetsOf.2 ⟨_, rule, rfl, unit⟩⟩
  · intro ⟨mid, chain, step⟩
    obtain ⟨p, rule, rfl, unit⟩ := mem_targetsOf.1 step
    exact .next chain rule unit

def round (ps : List Production) (seen : List String) : List String :=
  Closure.extend seen ((seen.flatMap (targetsOf ps)).filter (· ∈ ps.filterMap Production.unitTarget?))

theorem mem_round : target ∈ round ps seen ↔ target ∈ seen ∨ ∃ mid ∈ seen, target ∈ targetsOf ps mid := by
  have inDomain : (∃ mid ∈ seen, target ∈ targetsOf ps mid) → target ∈ ps.filterMap Production.unitTarget? := by
    rintro ⟨mid, -, step⟩
    obtain ⟨p, rule, -, unit⟩ := mem_targetsOf.1 step
    exact List.mem_filterMap.2 ⟨p, rule, unitTarget?_eq_some.2 unit⟩
  rw [round, Closure.mem_extend, List.mem_filter, List.mem_flatMap, decide_eq_true_eq, and_iff_left_of_imp inDomain]

structure Ranked (ps : List Production) (name : String) (rounds : Nat) (seen : List String) : Prop where
  distinct : seen.Nodup
  mem_iff : ∀ target, target ∈ seen ↔ ∃ length ≤ rounds, Chain ps name length target
  ordered : seen.Pairwise fun first second =>
    ∀ length, Chain ps name length second → ∃ less ≤ length, Chain ps name less first

theorem ranked_start (ps : List Production) (name : String) : Ranked ps name 0 [name] where
  distinct := by simp
  mem_iff target := by
    rw [List.mem_singleton]
    constructor
    · rintro rfl
      exact ⟨0, Nat.le_refl 0, .start⟩
    · intro ⟨length, short, chain⟩
      obtain rfl := Nat.le_zero.1 short
      cases chain
      rfl
  ordered := List.pairwise_singleton _ _

theorem Ranked.mem_round (ranked : Ranked ps name rounds seen) :
    target ∈ round ps seen ↔ ∃ length ≤ rounds + 1, Chain ps name length target := by
  rw [Units.mem_round, ranked.mem_iff]
  constructor
  · rintro (⟨length, short, chain⟩ | ⟨mid, known, step⟩)
    · exact ⟨length, Nat.le_succ_of_le short, chain⟩
    · obtain ⟨length, short, chain⟩ := (ranked.mem_iff mid).1 known
      exact ⟨length + 1, Nat.succ_le_succ short, chain_succ_iff.2 ⟨mid, chain, step⟩⟩
  · intro ⟨length, short, chain⟩
    cases length with
    | zero => exact Or.inl ⟨0, Nat.zero_le _, chain⟩
    | succ length =>
      obtain ⟨mid, before, step⟩ := chain_succ_iff.1 chain
      exact Or.inr ⟨mid, (ranked.mem_iff mid).2 ⟨length, Nat.le_of_succ_le_succ short, before⟩, step⟩

theorem Ranked.round (ranked : Ranked ps name rounds seen) : Ranked ps name (rounds + 1) (round ps seen) := by
  have mem_iff := fun target => @Ranked.mem_round ps name target rounds seen ranked
  have distinct : (Units.round ps seen).Nodup := Closure.extend_nodup ranked.distinct
  refine ⟨distinct, mem_iff, ?_⟩
  obtain ⟨fresh, whole⟩ : ∃ fresh, Units.round ps seen = seen ++ fresh := Closure.extend_eq_append _ _
  rw [whole] at mem_iff distinct ⊢
  have apart := (List.nodup_append.1 distinct).2.2
  -- A chain to a name that is new is longer than the rounds before, and some chain to any name of the
  -- list is no longer than this round.
  have late : ∀ second ∈ fresh, ∀ length, Chain ps name length second → rounds < length := by
    intro second new length chain
    refine Nat.lt_of_not_le fun short => ?_
    exact apart second ((ranked.mem_iff second).2 ⟨length, short, chain⟩) second new rfl
  have early : ∀ first ∈ seen ++ fresh, ∀ second ∈ fresh, ∀ length, Chain ps name length second →
      ∃ less ≤ length, Chain ps name less first := by
    intro first listed second new length chain
    obtain ⟨less, short, before⟩ := (mem_iff first).1 listed
    exact ⟨less, Nat.le_trans short (late second new length chain), before⟩
  refine List.pairwise_append.2 ⟨ranked.ordered, ?_, fun first old => early first (List.mem_append_left fresh old)⟩
  exact List.pairwise_of_forall_mem_list fun first new => early first (List.mem_append_right seen new)

/-- The list holds the name first and then all that its chains lead to, each once and shorter chains
first. -/
structure Traces (ps : List Production) (name : String) (trail : List String) : Prop where
  starts : ∃ rest, trail = name :: rest
  distinct : trail.Nodup
  mem_iff : ∀ target, target ∈ trail ↔ ∃ length, Chain ps name length target
  ordered : trail.Pairwise fun first second =>
    ∀ length, Chain ps name length second → ∃ less ≤ length, Chain ps name less first

theorem mem_reach_of_chain (chain : Chain ps name length target) : target ∈ reach ps name := by
  induction chain with
  | start => exact self_mem_reach ps name
  | next _ rule unit ih => exact target_mem_reach ih (mem_targetsOf.2 ⟨_, rule, rfl, unit⟩)

theorem traces_reach (ps : List Production) (name : String) : Traces ps name (reach ps name) := by
  have ranked : ∃ rounds, Ranked ps name rounds (reach ps name) := by
    apply Closure.saturate_keeps (P := fun seen => ∃ rounds, Ranked ps name rounds seen) ⟨0, ranked_start ps name⟩
    intro seen ⟨rounds, before⟩
    exact ⟨rounds + 1, before.round⟩
  have starts : ∃ rest, reach ps name = name :: rest := by
    apply Closure.saturate_keeps (P := fun seen => ∃ rest, seen = name :: rest) ⟨[], rfl⟩
    rintro _ ⟨rest, rfl⟩
    obtain ⟨fresh, whole⟩ := Closure.extend_eq_append (name :: rest) _
    exact ⟨rest ++ fresh, whole⟩
  obtain ⟨rounds, ranked⟩ := ranked
  refine ⟨starts, ranked.distinct, fun target => ⟨fun member => ?_, fun ⟨_, chain⟩ => mem_reach_of_chain chain⟩,
    ranked.ordered⟩
  obtain ⟨length, -, chain⟩ := (ranked.mem_iff target).1 member
  exact ⟨length, chain⟩

/-- Some unit productions, or none at all, lead from the first name to the second one. -/
def Chained (ps : List Production) (name target : String) : Prop := ∃ length, Chain ps name length target

theorem mem_reach_iff : target ∈ reach ps name ↔ Chained ps name target := (traces_reach ps name).mem_iff target

theorem eq_or_headed_of_mem_reach (known : target ∈ reach ps name) : target = name ∨ ∃ p ∈ ps, p.head = name := by
  obtain ⟨length, chain⟩ := mem_reach_iff.1 known
  clear known
  induction chain with
  | start => exact Or.inl rfl
  | next _ rule _ ih => exact Or.inr (ih.elim (fun same => ⟨_, rule, same⟩) id)

end Chains

def withoutUnits (ps : List Production) (names : List String) : List Production :=
  names.flatMap fun name => (reach ps name).flatMap (copies ps name)

theorem mem_withoutUnits {q : Production} : q ∈ withoutUnits ps names ↔
    q.head ∈ names ∧ ∃ p ∈ ps, p.head ∈ reach ps q.head ∧ p.isUnit = false ∧ q = { p with head := q.head } := by
  simp only [withoutUnits, copies, List.mem_flatMap, List.mem_map, List.mem_filter, Bool.and_eq_true,
    beq_iff_eq, Bool.not_eq_true']
  constructor
  · intro ⟨name, listed, reached, known, p, ⟨rule, heads, stays⟩, same⟩
    subst heads
    subst same
    exact ⟨listed, p, rule, known, stays, rfl⟩
  · intro ⟨listed, p, rule, known, stays, same⟩
    exact ⟨q.head, listed, p.head, known, p, ⟨rule, rfl, stays⟩, same.symm⟩

theorem withoutUnits_not_unit {q : Production} (rule : q ∈ withoutUnits ps names) : q.isUnit = false := by
  obtain ⟨-, p, -, -, stays, same⟩ := mem_withoutUnits.1 rule
  rw [same]
  exact stays

theorem body_of_mem_withoutUnits {q : Production} (rule : q ∈ withoutUnits ps names) :
    ∃ p ∈ ps, p.body = q.body := by
  obtain ⟨-, p, origin, -, -, same⟩ := mem_withoutUnits.1 rule
  exact ⟨p, origin, by rw [same]⟩

/-- What the names of a trail have for productions, one name after the other and without the units. -/
def offers (ps : List Production) (trail : List String) : List Production :=
  trail.flatMap fun reached => ps.filter fun p => p.head == reached && !p.isUnit

theorem flatMap_copies (name : String) (trail : List String) :
    trail.flatMap (copies ps name) = (offers ps trail).map fun p => { p with head := name } :=
  List.map_flatMap.symm

theorem find?_copies {q : Production} (name : String) (trail : List String) :
    (trail.flatMap (copies ps name)).find? (·.sameRule q) =
    if name = q.head then ((offers ps trail).find? (·.body == q.body)).map fun p =>
      { p with head := q.head } else none := by
  rw [flatMap_copies]
  split
  · next same =>
    subst same
    rw [List.find?_map]
    congr 2
    funext p
    simp [Production.sameRule]
  · next differs =>
    refine List.find?_eq_none.2 fun r copied => ?_
    obtain ⟨p, -, rfl⟩ := List.mem_map.1 copied
    simp [Production.sameRule, differs]

theorem findSome?_of_key {α : Type} (key : String) (found : Option α) :
    (names.findSome? fun name => if name = key then found else none) = if key ∈ names then found else none := by
  induction names with
  | nil => rfl
  | cons name rest ih =>
    rw [List.findSome?_cons, ih]
    by_cases here : name = key
    · subst here
      cases found <;> simp
    · simp [here, Ne.symm here]

/-- A copy has the weight of the first production with its body that its head meets along its trail. -/
theorem mem_distinctRules_withoutUnits {q : Production} : q ∈ Production.distinctRules (withoutUnits ps names) ↔
    q.head ∈ names ∧ ((offers ps (reach ps q.head)).find? (·.body == q.body)).map Production.weight =
      some q.weight := by
  have kept : (withoutUnits ps names).find? (·.sameRule q) = if q.head ∈ names then
      ((offers ps (reach ps q.head)).find? (·.body == q.body)).map (fun p => { p with head := q.head }) else none := by
    rw [withoutUnits, List.find?_flatMap, ← findSome?_of_key]
    congr 1
    funext name
    rw [find?_copies]
    by_cases here : name = q.head <;> simp [here]
  rw [Production.mem_distinctRules_iff, kept]
  by_cases listed : q.head ∈ names
  · rw [if_pos listed, and_iff_right listed]
    cases found : (offers ps (reach ps q.head)).find? (·.body == q.body) with
    | none => simp
    | some p =>
      have body : p.body = q.body := by simpa using List.find?_some found
      obtain ⟨head, weight, _⟩ := q
      simp_all
  · simp [listed]

theorem derives_withoutUnits_iff (listed : ∀ p ∈ ps, p.head ∈ names) :
    Derives (withoutUnits ps names) body sentence ↔ Derives ps body sentence := by
  constructor
  · apply Derives.of_derivable
    intro q rule w inner
    obtain ⟨-, p, origin, known, -, same⟩ := mem_withoutUnits.1 rule
    rw [same] at inner
    exact derives_of_reach known w (.of_rule origin inner)
  · apply Derives.of_derivable
    intro p rule w inner
    have copied : ∀ r ∈ ps, r.head ∈ reach ps p.head → r.isUnit = false →
        Derives (withoutUnits ps names) r.body w → Derives (withoutUnits ps names) [.nonterminal p.head] w := by
      intro r origin known stays derived
      have member : { r with head := p.head } ∈ withoutUnits ps names :=
        mem_withoutUnits.2 ⟨listed p rule, r, origin, known, stays, rfl⟩
      exact @Derives.of_rule _ _ { r with head := p.head } member derived
    cases unit : p.isUnit with
    | false => exact copied p rule (self_mem_reach ps p.head) unit inner
    | true =>
      -- What the target derives, it derives by a copy, whose origin the head reaches as well.
      obtain ⟨target, single⟩ := isUnit_iff.1 unit
      rw [single] at inner
      obtain ⟨q, member, rfl, derived⟩ := Derives.nonterminal_iff.1 inner
      obtain ⟨-, r, origin, known, stays, same⟩ := mem_withoutUnits.1 member
      rw [same] at derived
      have first : q.head ∈ reach ps p.head :=
        target_mem_reach (self_mem_reach ps p.head) (mem_targetsOf.2 ⟨p, rule, rfl, single⟩)
      exact copied r origin (reach_subset first known) stays derived

end ContextFree.Units
