import ContextFree.Proofs.Pass.Stable
import ContextFree.Proofs.Pipeline

namespace ContextFree

open Edit Pass

variable {g h c : Grammar} {weights : List Weight}

/-- The name itself, or the name with a number behind it. -/
def Named (base name : String) : Prop := name = base ∨ ∃ n, name = Grammar.numbered base n

namespace Production

def ForTerminal (p : Production) : Prop :=
  p.weight = .one ∧ ∃ token, p.body = [.terminal token] ∧ Named (Name.escape ("T-" ++ token)) p.head

def ForPair (p : Production) : Prop :=
  p.weight = .one ∧ ∃ left right : Symbol, p.body = [left, right] ∧
    Named (Name.escape (left.value ++ "-" ++ right.value)) p.head

def IsHelper (p : Production) : Prop := p.ForTerminal ∨ p.ForPair

theorem IsHelper.weight {p : Production} (helper : p.IsHelper) : p.weight = .one := helper.elim And.left And.left

theorem IsHelper.short {p : Production} (helper : p.IsHelper) : p.body.length ≤ 2 := by
  rcases helper with ⟨-, token, body, -⟩ | ⟨-, left, right, body, -⟩
  · rw [body]
    exact Nat.le_succ 1
  · rw [body]
    exact Nat.le_refl 2

end Production

/-- Every production is a helper of a certain form or carries one of the given weights. -/
def Grammar.Carries (helper : Production → Prop) (weights : List Weight) (g : Grammar) : Prop :=
  ∀ p ∈ g.productions, helper p ∨ p.weight ∈ weights

namespace Pass

variable {P : Production → Prop}

theorem carries_added {p : Production} (new : P p) (carries : g.Carries P weights) : (g.added p).Carries P weights := by
  intro q rule
  rw [Grammar.productions_added, List.mem_append, List.mem_singleton] at rule
  rcases rule with old | rfl
  · exact carries q old
  · exact Or.inl new

theorem keeps_separateAll_carries : separateAll.Keeps (Grammar.Carries Production.ForTerminal weights) := by
  refine keeps_bind keeps_grammar fun _ => keeps_forM fun terminal _ => keeps_bind ?_ fun name => keeps_change ?_
  · apply keeps_helper_of_fresh
    intro g _ _ carries
    exact carries_added ⟨rfl, terminal, rfl, g.freshName_cases _⟩ carries
  · intro k carries q rule
    obtain ⟨p, old, rfl⟩ := List.mem_map.1 rule
    rcases carries p old with helper | carried
    · obtain ⟨-, token, body, -⟩ := id helper
      left
      rwa [separateIn_short (by rw [body]; rfl)]
    · right
      have same : (separateIn terminal name p).weight = p.weight :=
        congrArg Prod.snd (Robust.frame_separateIn terminal name p)
      rwa [same]

def Opened (weights : List Weight) (index : Nat) (g : Grammar) : Prop :=
  g.Carries Production.IsHelper weights ∧ ∃ p, g.productions[index]? = some p ∧ p.weight ∈ weights

variable {index : Nat}

theorem keeps_setBody_opened (body : Body) : (setBody index body).Keeps (Opened weights index) := by
  apply keeps_change
  rintro k ⟨carries, p, found, carried⟩
  refine ⟨fun q rule => ?_, { p with body }, ?_, carried⟩
  · obtain ⟨place, here⟩ := List.mem_iff_getElem?.1 rule
    rw [List.getElem?_modify] at here
    obtain ⟨r, old, rfl⟩ := Option.map_eq_some_iff.1 here
    split
    · next same =>
      rw [same, old] at found
      cases found
      exact Or.inr carried
    · exact carries r (List.mem_of_getElem? old)
  · rw [List.getElem?_modify, found]
    simp

theorem opened_added {p : Production} (new : p.IsHelper) (opened : Opened weights index g) :
    Opened weights index (g.added p) := by
  obtain ⟨carries, q, found, carried⟩ := opened
  refine ⟨carries_added new carries, q, ?_, carried⟩
  rw [Grammar.productions_added, List.getElem?_append_left (List.getElem?_eq_some_iff.1 found).1, found]

theorem keeps_splitFrom_opened (before : List Symbol) (pairs : Pairs) (last : Symbol) :
    (splitFrom pairs last before).Keeps (Opened weights index) := by
  apply keeps_splitFrom_of_pairHelper
  intro pairs left right
  apply keeps_pairHelper_of_helper
  apply keeps_helper_of_fresh
  intro g _ _ opened
  exact opened_added (Or.inr ⟨rfl, left, right, rfl, g.freshName_cases _⟩) opened

/-- Helpers are short, so only bodies that carry one of the weights are split. -/
theorem keeps_splitAt_carries (pairs : Pairs) (index : Nat) :
    (splitAt pairs index).Keeps (Grammar.Carries Production.IsHelper weights) := by
  refine keeps_bind_of_succeeds (keeps_productionAt index) fun g p h carries first _ => ?_
  obtain ⟨found, rfl⟩ := succeeds_productionAt.1 first
  rcases reversed : p.body.reverse with _ | ⟨last, _ | ⟨left, _ | ⟨next, before⟩⟩⟩
  · exact carries
  · exact carries
  · exact carries
  · have long : 2 < p.body.length := by
      rw [← List.length_reverse, reversed]
      simp
    have carried := (carries p (List.mem_of_getElem? found)).resolve_left fun helper => Nat.not_le.2 long helper.short
    refine And.left (keeps_bind (keeps_setBody_opened []) (fun _ => ?_) g ⟨carries, p, found, carried⟩)
    refine keeps_bind (keeps_splitFrom_opened _ _ _) fun (body, more) => ?_
    exact keeps_bind (keeps_setBody_opened body) fun _ => keeps_pure _

theorem keeps_splitAll_carries : splitAll.Keeps (Grammar.Carries Production.IsHelper weights) := by
  have each : ∀ (places : List Nat) (pairs : Pairs),
      (splitEach pairs places).Keeps (Grammar.Carries Production.IsHelper weights) := by
    intro places
    induction places with
    | nil => exact fun _ => keeps_pure _
    | cons index rest ih => exact fun pairs => keeps_bind (keeps_splitAt_carries pairs index) ih
  exact keeps_bind keeps_grammar fun _ => each _ []

end Pass

namespace Pipeline

theorem carries_of_shaping (coherent : g.Coherent) (ran : (run false shaping g).result = .ok c) :
    c.Carries Production.IsHelper (g.productions.map Production.weight) := by
  obtain ⟨full, proper, useful, separated, shaped⟩ := exists_shaped coherent ran
  have before : useful.Carries Production.ForTerminal (g.productions.map Production.weight) := by
    intro p rule
    obtain ⟨q, between, same⟩ := shaped.noUnits.weight_of_mem (shaped.noUseless.subset rule)
    obtain ⟨r, old, same'⟩ := shaped.noEmpty.varied.weight_of_mem between
    right
    rw [← same, ← same']
    exact List.mem_map_of_mem old
  have terminals := keeps_separateAll_carries.of_succeeds shaped.separateRan before
  apply keeps_splitAll_carries.of_succeeds shaped.splitRan
  exact fun p rule => (terminals p rule).imp_left Or.inl

theorem carries_of_standard {kind : Kind} (coherent : g.Coherent) (ran : (run false (standard kind) g).result = .ok c) :
    c.Carries Production.IsHelper (g.productions.map Production.weight) := by
  intro q rule
  apply (carries_of_shaping (coherent_weighed coherent kind) (run_standard ran) q rule).imp_right
  intro carried
  obtain ⟨p, counted, same⟩ := List.mem_map.1 carried
  rw [← same]
  apply List.mem_map_of_mem
  cases kind with
  | plain => exact counted
  | weighted => exact (List.mem_filter.1 counted).1

end Pipeline

end ContextFree
