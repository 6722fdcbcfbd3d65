import ContextFree.Proofs.Pass.SplitBodies
import ContextFree.Proofs.Reading.Coherent

namespace ContextFree.Pass

open Edit

variable {g h k : Grammar} {u : Unit}

section Names

variable (names : Symbol × Symbol → String)

def standIn : Symbol → List Symbol → Symbol
  | last, [] => last
  | left, next :: rest => .nonterminal (names (left, standIn next rest))

/-- The pairs into which a row of symbols is folded. -/
def pairsOf : List Symbol → List (Symbol × Symbol)
  | left :: next :: rest => (left, standIn names next rest) :: pairsOf (next :: rest)
  | _ => []

def binarized : Body → Body
  | first :: next :: rest => [first, standIn names next rest]
  | short => short

def splitRule (p : Production) : Production := { p with body := binarized names p.body }

def pairRule (pair : Symbol × Symbol) : Production := { head := names pair, body := [pair.1, pair.2] }

variable {names} {body : Body}

theorem binarized_of_short (short : body.length ≤ 2) : binarized names body = body :=
  match body, short with
  | [], _ => rfl
  | [_], _ => rfl
  | [_, _], _ => rfl

theorem length_binarized (names : Symbol × Symbol → String) (body : Body) : (binarized names body).length ≤ 2 := by
  unfold binarized
  split
  · exact Nat.le_refl 2
  · next notLong =>
    rcases body with _ | ⟨first, _ | ⟨next, rest⟩⟩
    · exact Nat.zero_le 2
    · exact Nat.le_succ 1
    · exact absurd rfl (notLong first next rest)

theorem pairsOf_tail_of_short (short : body.length ≤ 2) : pairsOf names body.tail = [] :=
  match body, short with
  | [], _ => rfl
  | [_], _ => rfl
  | [_, _], _ => rfl

theorem pairsOf_subset_append (front symbols : List Symbol) :
    pairsOf names symbols ⊆ pairsOf names (front ++ symbols) := by
  induction front with
  | nil => exact List.Subset.refl _
  | cons symbol front ih =>
    refine List.Subset.trans ih ?_
    rw [List.cons_append]
    cases front ++ symbols with
    | nil => exact List.Subset.refl _
    | cons next rest => exact List.subset_cons_self _ _

end Names

def Recalls (pairs more : Pairs) : Prop := ∀ pair name, pairs.lookup pair = some name → more.lookup pair = some name

def Follows (names : Symbol × Symbol → String) (pairs : Pairs) : Prop :=
  ∀ pair name, pairs.lookup pair = some name → names pair = name

variable {names : Symbol × Symbol → String} {pairs more last : Pairs}

theorem Recalls.refl (pairs : Pairs) : Recalls pairs pairs := fun _ _ found => found

theorem Recalls.trans (first : Recalls pairs more) (second : Recalls more last) : Recalls pairs last :=
  fun pair name found => second pair name (first pair name found)

theorem Follows.recalled (follows : Follows names more) (recalls : Recalls pairs more) : Follows names pairs :=
  fun pair name found => follows pair name (recalls pair name found)

theorem recalls_of_pairHelper {left right : Symbol} {name : String}
    (ran : (pairHelper pairs left right).Succeeds g (name, more) h) :
    Recalls pairs more ∧ more.lookup (left, right) = some name := by
  obtain ⟨found, rfl, -⟩ | ⟨absent, rfl, -⟩ := pairHelper_cases ran
  · exact ⟨.refl _, found⟩
  · refine ⟨fun pair other found => ?_, List.lookup_cons_self⟩
    have differs : pair ≠ (left, right) := by
      rintro rfl
      rw [absent] at found
      cases found
    rw [List.lookup_cons, beq_false_of_ne differs]
    exact found

theorem extends_of_pairHelper {left right : Symbol} {name : String} (closed : g.Closed)
    (ran : (pairHelper pairs left right).Succeeds g (name, more) h) :
    g.Extends h ∧ ∀ q ∈ h.productions, q ∈ g.productions ∨ q = { head := name, body := [left, right] } := by
  obtain ⟨-, -, rfl⟩ | ⟨-, -, added⟩ := pairHelper_cases ran
  · exact ⟨.refl h, fun _ => Or.inl⟩
  · have helped := helped_of_helper closed added
    exact ⟨helped.grows, helped.productions⟩

structure Folds (names : Symbol × Symbol → String) (whole rest : List Symbol) (body : Body) (more : Pairs)
    (g h : Grammar) : Prop where
  body : body = binarized names whole
  remembered : ∀ pair ∈ pairsOf names whole.tail, pair ∈ pairsOf names rest ∨ ∃ name, more.lookup pair = some name
  productions : ∀ q ∈ h.productions, q ∈ g.productions ∨ ∃ pair ∈ pairsOf names whole.tail, q = pairRule names pair

theorem folds_of_splitFrom {before : List Symbol} {symbol : Symbol} {body : Body} (closed : g.Closed)
    (some : before ≠ [])
    (ran : (splitFrom pairs symbol before).Succeeds g (body, more) h) : Recalls pairs more ∧
      ∀ names, Follows names more → ∀ next rest, standIn names next rest = symbol →
        Folds names (before.reverse ++ next :: rest) (next :: rest) body more g h := by
  fun_induction splitFrom pairs symbol before generalizing g with
  | case1 => exact absurd rfl some
  | case2 pairs symbol first =>
    obtain ⟨same, rfl⟩ := succeeds_pure.1 ran
    cases same
    refine ⟨.refl _, fun names _ next rest stands => ⟨?_, fun _ => Or.inl, fun _ => Or.inl⟩⟩
    rw [← stands]
    rfl
  | case3 pairs symbol left other before ih =>
    obtain ⟨⟨name, between⟩, k, helped, ran⟩ := succeeds_bind.1 ran
    obtain ⟨recalls, remembered⟩ := recalls_of_pairHelper helped
    obtain ⟨grows, rules⟩ := extends_of_pairHelper closed helped
    obtain ⟨later, folds⟩ := ih name between (grows.closed closed) (List.cons_ne_nil _ _) ran
    refine ⟨recalls.trans later, fun names follows next rest stands => ?_⟩
    have found := later _ _ remembered
    have named : standIn names left (next :: rest) = .nonterminal name := by
      rw [standIn, stands, follows _ _ found]
    have inner := folds names follows left (next :: rest) named
    have whole : (left :: other :: before).reverse ++ next :: rest =
        (other :: before).reverse ++ left :: next :: rest := by
      simp
    rw [whole]
    refine ⟨inner.body, fun pair listed => ?_, fun q rule => ?_⟩
    · rcases inner.remembered pair listed with now | earlier
      · rcases List.mem_cons.1 now with rfl | old
        · exact Or.inr ⟨name, by rwa [stands]⟩
        · exact Or.inl old
      · exact Or.inr earlier
    · rcases inner.productions q rule with old | new
      · rcases rules q old with older | rfl
        · exact Or.inl older
        · refine Or.inr ⟨(left, symbol), ?_, ?_⟩
          · rw [List.tail_append_of_ne_nil (by simp)]
            apply pairsOf_subset_append
            rw [← stands]
            exact List.mem_cons_self
          · rw [pairRule, follows _ _ found]
      · exact Or.inr new

/-- What has become of some productions, told by the names that are remembered in the end. -/
structure Binarizes (names : Symbol × Symbol → String) (more : Pairs) (todo done fresh : List Production) : Prop where
  done : done = todo.map (splitRule names)
  fresh : ∀ q ∈ fresh, ∃ p ∈ todo, ∃ pair ∈ pairsOf names p.body.tail, q = pairRule names pair
  remembered : ∀ p ∈ todo, ∀ pair ∈ pairsOf names p.body.tail, ∃ name, more.lookup pair = some name

namespace Binarizes

theorem cons {p q : Production} {todo done fresh added : List Production} (recalls : Recalls more last)
    (first : Binarizes names more [p] [q] fresh) (others : Binarizes names last todo done added) :
    Binarizes names last (p :: todo) (q :: done) (fresh ++ added) where
  done := by rw [List.map_cons, ← others.done, List.singleton_inj.1 first.done]
  fresh r new := by
    rcases List.mem_append.1 new with here | later
    · obtain ⟨origin, single, made⟩ := first.fresh r here
      exact ⟨p, List.mem_cons_self, List.mem_singleton.1 single ▸ made⟩
    · obtain ⟨origin, listed, made⟩ := others.fresh r later
      exact ⟨origin, List.mem_cons_of_mem p listed, made⟩
  remembered r listed pair inside := by
    rcases List.mem_cons.1 listed with rfl | later
    · obtain ⟨name, found⟩ := first.remembered r (List.mem_singleton_self r) pair inside
      exact ⟨name, recalls pair name found⟩
    · exact others.remembered r later pair inside

end Binarizes

section Places

variable {front todo back : List Production} {p : Production}

theorem binarizes_of_splitAt (closed : g.Closed) (served : AllServed g.productions pairs)
    (listed : g.productions = front ++ p :: back) (ran : (splitAt pairs front.length).Succeeds g more h) :
    Recalls pairs more ∧
      ∃ q fresh, h.productions = front ++ q :: (back ++ fresh) ∧ (∀ r ∈ fresh, r.head ∉ g.nonterminals) ∧
        ∀ names, Follows names more → Binarizes names more [p] [q] fresh := by
  have found := found_of_listed listed
  obtain ⟨short, rfl, rfl⟩ | ⟨long, before, last, body, k, some, whole, folds, rfl⟩ := splitAt_opened found ran
  · have none : ∀ names, pairsOf names p.body.tail = [] := fun _ => pairsOf_tail_of_short short
    refine ⟨.refl _, p, [], by rw [listed, List.append_nil], nofun, fun names _ => ⟨?_, nofun, ?_⟩⟩
    · rw [List.map_singleton, splitRule, binarized_of_short short]
    · rintro q single pair inside
      rw [List.mem_singleton.1 single, none] at inside
      cases inside
  · have emptied : (withBody front.length [] g).Closed := closed_withBody closed nofun
    obtain ⟨recalls, told⟩ := folds_of_splitFrom emptied some folds
    have folded := (folded_of_splitFrom emptied (allServed_emptied found long served) folds).1
    obtain ⟨fresh, productions, heads⟩ := folded.grows.productions
    have after := productions_withBody (listed_emptied listed productions) body
    refine ⟨recalls, { p with body }, fresh, after, heads, fun names follows => ?_⟩
    obtain ⟨same, remembered, rules⟩ := told names follows last [] rfl
    rw [← whole] at same remembered rules
    refine ⟨?_, fun q new => ⟨p, List.mem_singleton_self p, ?_⟩, fun q single pair inside => ?_⟩
    · rw [List.map_singleton, splitRule, ← same]
    · refine (rules q (productions ▸ List.mem_append_right _ new)).resolve_left fun was => ?_
      exact heads q new (emptied q was).1
    · rw [List.mem_singleton.1 single] at inside
      exact (remembered pair inside).resolve_left List.not_mem_nil

theorem binarizes_of_splitEach (closed : g.Closed) (served : AllServed g.productions pairs)
    (listed : g.productions = front ++ (todo ++ back))
    (ran : (splitEach pairs (List.range' front.length todo.length)).Succeeds g u h) :
    ∃ more done fresh, Recalls pairs more ∧ AllServed h.productions more ∧
      h.productions = front ++ (done ++ (back ++ fresh)) ∧ (∀ q ∈ fresh, q.head ∉ g.nonterminals) ∧
        ∀ names, Follows names more → Binarizes names more todo done fresh := by
  induction todo generalizing g pairs front back with
  | nil =>
    obtain ⟨-, rfl⟩ := succeeds_pure.1 ran
    refine ⟨pairs, [], [], .refl _, served, by rw [listed, List.append_nil], nofun, fun names _ => ⟨rfl, nofun, nofun⟩⟩
  | cons p rest ih =>
    obtain ⟨more, k, one, others⟩ := succeeds_bind.1 ran
    obtain ⟨serving, conserves⟩ := conserves_of_splitAt closed served one
    obtain ⟨recalls, q, fresh, productions, heads, first⟩ := binarizes_of_splitAt closed served listed one
    have length : (front ++ [q]).length = front.length + 1 := List.length_append
    rw [← length] at others
    obtain ⟨last, done, added, later, allServed, left, newHeads, told⟩ :=
      ih conserves.closed serving (listed_next productions) others
    refine ⟨last, q :: done, fresh ++ added, recalls.trans later, allServed, ?_, fun r new => ?_,
      fun names follows => ?_⟩
    · rw [left]
      simp
    · rcases List.mem_append.1 new with here | beyond
      · exact heads r here
      · exact fun old => newHeads r beyond (conserves.symbols (.nonterminal r.head) old)
    · exact (first names (follows.recalled later)).cons later (told names follows)

end Places

def nameIn (pairs : Pairs) (pair : Symbol × Symbol) : String := (pairs.lookup pair).getD ""

theorem follows_nameIn (pairs : Pairs) :
    Follows (nameIn pairs) pairs := fun pair name found => by rw [nameIn, found]; rfl

/-- Every production stays in its place, with its body folded into two symbols at most, and behind them
stand helpers. Each pair of symbols that was folded has one name throughout, which serves for it; a
helper that was added is the only production of its name, which is new. The old names derive what they
derived before, and there is nothing left to split. -/
theorem splitBodies_exact (closed : g.Closed) (ran : splitBodies.run.Succeeds g () h) :
    ∃ names fresh, h.productions = g.productions.map (splitRule names) ++ fresh ∧
      (∀ p ∈ g.productions, p.body.length ≤ 2 → splitRule names p = p) ∧ (∀ p ∈ h.productions, p.body.length ≤ 2) ∧
      (∀ p ∈ g.productions, ∀ pair ∈ pairsOf names p.body.tail, Serves h.productions (names pair) [pair.1, pair.2]) ∧
      (∀ q ∈ fresh, q.head ∉ g.nonterminals ∧ h.productionsOf q.head = [q] ∧
        ∃ p ∈ g.productions, ∃ pair ∈ pairsOf names p.body.tail, q = pairRule names pair) ∧
      (∀ name ∈ g.nonterminals, ∀ sentence, h.DerivesFrom name sentence ↔ g.DerivesFrom name sentence) ∧
      splitBodies.run h = ⟨.ok (), h, []⟩ := by
  have each := ran
  rw [splitBodies, succeeds_splitAll, List.range_eq_range'] at each
  obtain ⟨more, done, fresh, -, served, productions, heads, told⟩ :=
    binarizes_of_splitEach closed (by simp [AllServed]) (listed_all g) each
  obtain ⟨rfl, made, remembered⟩ := told (nameIn more) (follows_nameIn more)
  simp only [List.nil_append] at productions
  have serves : ∀ p ∈ g.productions, ∀ pair ∈ pairsOf (nameIn more) p.body.tail,
      Serves h.productions (nameIn more pair) [pair.1, pair.2] := by
    intro p rule pair inside
    obtain ⟨name, found⟩ := remembered p rule pair inside
    rw [follows_nameIn more pair name found]
    exact served pair.1 pair.2 name (mem_of_lookup found)
  have short : ∀ p ∈ h.productions, p.body.length ≤ 2 := by
    rw [productions]
    refine List.forall_mem_append.2 ⟨List.forall_mem_map.2 fun p _ => length_binarized _ p.body, fun q new => ?_⟩
    obtain ⟨p, -, pair, -, rfl⟩ := made q new
    exact Nat.le_refl 2
  refine ⟨nameIn more, fresh, productions, fun p _ two => ?_, short, serves, fun q new => ⟨heads q new, ?_, made q new⟩,
    (conserves_of_splitAll closed ran).derives, splitAll_of_short short⟩
  · rw [splitRule, binarized_of_short two]
  · obtain ⟨p, rule, pair, inside, rfl⟩ := made q new
    exact ((serves p rule pair inside).only_rule (productions ▸ List.mem_append_right _ new) rfl).1

-- Two pairs ask for the name A-B-C, and the rule of A-B serves as a helper.
def collidingText : String :=
  "S -0.5-> X A-B C ;\nS -2-> X A B-C ;\nX -1-> 'x' A B ;\nX -1-> 'y' '' B 'y' ;\nA-B -3-> A B ;"

def collidingSample : Reading.Sample .weighted collidingText
    (fun g => decide ((splitBodies.run g).result = .ok ())) := .ofChars rfl (by decide +kernel)

theorem splitBodies_exact_of_colliding : ∃ g h,
    Reading.readText .weighted collidingText = .ok g ∧
      g.Closed ∧ splitBodies.run.Succeeds g () h ∧
      ∃ names fresh, h.productions = g.productions.map (splitRule names) ++ fresh ∧
        (∀ p ∈ h.productions, p.body.length ≤ 2) ∧
        (∀ p ∈ g.productions, ∀ pair ∈ pairsOf names p.body.tail, Serves h.productions (names pair) [pair.1, pair.2]) ∧
        splitBodies.run h = ⟨.ok (), h, []⟩ := by
  obtain ⟨g, read, passes⟩ := collidingSample
  have closed := (Reading.coherent_of_readText read).closed
  have ran : splitBodies.run.Succeeds g () (splitBodies.run g).grammar := ⟨of_decide_eq_true passes, rfl⟩
  obtain ⟨names, fresh, productions, -, short, serves, -, -, again⟩ := splitBodies_exact closed ran
  exact ⟨g, _, read, closed, ran, names, fresh, productions, short, serves, again⟩

end ContextFree.Pass
