import ContextFree.Proofs.Edit.Refusal
import ContextFree.Proofs.Pass.SplitBodies
import ContextFree.Proofs.Pass.Stable

namespace ContextFree.Pass

open Edit

variable {g h k : Grammar} {u : Unit} {fault : Fault}

/-- No text starts with a mark. -/
def Unmarked (symbols : List Symbol) : Prop := ∀ symbol ∈ symbols, Name.isMarked symbol.value = false

instance (symbols : List Symbol) : Decidable (Unmarked symbols) := inferInstanceAs (Decidable (∀ _ ∈ _, _))

def inner (body : Body) : List Symbol := body.tail.dropLast

theorem isMarked_join {left : Symbol} (legal : Name.check left = .ok ()) (text : String) :
    Name.isMarked (Name.escape (left.value ++ "-" ++ text)) = Name.isMarked left.value := by
  rw [Name.isMarked_escape, String.append_assoc, Name.isMarked_append (Name.value_filled legal)]

theorem join_filled {left : Symbol} (legal : Name.check left = .ok ()) (text : String) :
    (Name.escape (left.value ++ "-" ++ text)).toList ≠ [] := by
  apply Name.escape_filled
  rw [String.append_assoc, String.toList_append]
  exact List.append_ne_nil_of_left_ne_nil (Name.value_filled legal) _

def IsMark (fault : Fault) : Prop := ∃ name mark, fault = .invalid (.leadingName name mark)

section Helpers

variable {base told name : String} {body : Body}

theorem runs_helper (head : Name.checkNonterminal base = .ok ()) (filled : body ≠ [])
    (symbols : ∀ symbol ∈ body, Name.check symbol = .ok ()) (g : Grammar) : (helper base body told).Runs g := by
  refine runs_bind ⟨_, _, succeeds_grammar.2 ⟨rfl, rfl⟩⟩ fun _ _ found => ?_
  obtain ⟨rfl, rfl⟩ := succeeds_grammar.1 found
  split
  · exact runs_pure _ _
  · refine runs_bind (runs_report _ _ _) fun _ _ _ => runs_bind ?_ fun _ _ _ => runs_pure _ _
    exact runs_addProduction filled (Production.legal_helper (g.checkNonterminal_freshName head) symbols) _

theorem fails_helper (failed : (helper base body told).Fails g fault h) :
    checkProduction { head := g.freshName base, body } = .error fault := by
  obtain ⟨_, _, found, failed⟩ := fails_bind_of_runs ⟨_, _, succeeds_grammar.2 ⟨rfl, rfl⟩⟩ failed
  obtain ⟨rfl, rfl⟩ := succeeds_grammar.1 found
  split at failed
  · exact absurd failed (runs_pure _ _).not_fails
  · obtain ⟨_, _, debugged, failed⟩ := fails_bind_of_runs (runs_report _ _ _) failed
    obtain rfl := succeeds_debug.1 debugged
    have refused := fails_of_bind (fun _ _ _ => runs_pure _ _) failed
    exact (fails_addProduction.1 refused).1

theorem name_of_helper (ran : (helper base body told).Succeeds g name h) : ∃ more, name = base ++ more := by
  obtain ⟨_, _, found, ran⟩ := succeeds_bind.1 ran
  obtain ⟨rfl, rfl⟩ := succeeds_grammar.1 found
  split at ran
  · obtain ⟨rfl, -⟩ := succeeds_pure.1 ran
    exact ⟨"", String.append_empty.symm⟩
  · simp only [succeeds_bind, succeeds_debug, succeeds_addProduction, succeeds_pure] at ran
    obtain ⟨_, _, rfl, _, _, -, rfl, -⟩ := ran
    obtain ⟨more, same, -⟩ := g.freshName_append base
    exact ⟨more, same⟩

theorem isMark_of_helper (plain : ∀ c ∈ base.toList, Name.isPlain c = true) (filled : base.toList ≠ [])
    (marked : Name.isMarked base = true) (some : body ≠ []) (failed : (helper base body told).Fails g fault h) :
    IsMark fault := by
  have refused := fails_helper failed
  obtain ⟨more, same, plainMore⟩ := g.freshName_append base
  have all : ∀ c ∈ (g.freshName base).toList, Name.isPlain c = true := by
    intro c member
    rw [same, String.toList_append] at member
    exact (List.mem_append.1 member).elim (plain c) (plainMore c)
  have marks : Name.isMarked (g.freshName base) = true := by rw [same, Name.isMarked_append filled, marked]
  have start : (g.freshName base).toList ≠ [] := by
    rw [same, String.toList_append]
    exact List.append_ne_nil_of_left_ne_nil filled _
  obtain ⟨mark, illegal⟩ := Name.checkNonterminal_of_marked all start marks
  have first : checkProduction { head := g.freshName base, body } =
      .error (.invalid (.leadingName (g.freshName base) mark)) := by
    rw [checkProduction, List.isEmpty_eq_false_iff.2 some, illegal]
    rfl
  rw [first] at refused
  cases refused
  exact ⟨_, mark, rfl⟩

end Helpers

theorem robust_heads : Robust fun g => ∀ p ∈ g.productions, Name.checkNonterminal p.head = .ok () where
  productions g _ frames heads p rule := by
    obtain ⟨q, old, same, -⟩ := Production.origin_of_frames frames rule
    rw [same]
    exact heads q old
  dropped g symbol _ heads := by cases symbol <;> exact heads
  helped g p _ _ new _ heads q rule := by
    rw [Grammar.productions_added, List.mem_append, List.mem_singleton] at rule
    rcases rule with old | rfl
    · exact heads q old
    · exact new.head

theorem legal_of_serves {name : String} {body : Body}
    (heads : ∀ p ∈ g.productions, Name.checkNonterminal p.head = .ok ())
    (serves : Serves g.productions name body) : Name.checkNonterminal name = .ok () := by
  obtain ⟨p, rule, rfl, -⟩ := serves.exists_rule
  exact heads p rule

/-- What holds between two steps of the pass: the names that are remembered serve, and no mark
stood in their way. -/
structure Serving (pairs : Pairs) (g : Grammar) : Prop where
  closed : g.Closed
  heads : ∀ p ∈ g.productions, Name.checkNonterminal p.head = .ok ()
  served : AllServed g.productions pairs
  unmarked : ∀ left right name, ((left, right), name) ∈ pairs → Name.isMarked left.value = false

section Pair

variable {pairs more : Pairs} {left right : Symbol} {name : String}

theorem Serving.of_pairHelper (serving : Serving pairs g) (legal : Name.check left = .ok ())
    (ran : (pairHelper pairs left right).Succeeds g (name, more) h) :
    Serving more h ∧ Name.isMarked left.value = false ∧ Name.checkNonterminal name = .ok () := by
  have paired := paired_of_pairHelper serving.closed serving.served ran
  have heads := (robust_heads.keeps_pairHelper pairs left right).of_succeeds ran serving.heads
  have named := legal_of_serves heads paired.helped.serves
  have free : Name.isMarked left.value = false := by
    obtain ⟨found, -, -⟩ | ⟨-, -, added⟩ := pairHelper_cases ran
    · exact serving.unmarked left right name (mem_of_lookup found)
    · obtain ⟨number, rfl⟩ := name_of_helper added
      rw [← isMarked_join legal right.value, ← Name.isMarked_append (join_filled legal _) number]
      exact Name.not_marked_of_legal named
  refine ⟨⟨paired.helped.grows.closed serving.closed, heads, paired.served, fun first second other member => ?_⟩,
    free, named⟩
  obtain ⟨-, rfl, -⟩ | ⟨-, rfl, -⟩ := pairHelper_cases ran
  · exact serving.unmarked first second other member
  · rcases List.mem_cons.1 member with new | old
    · cases new
      exact free
    · exact serving.unmarked first second other old

variable (legal : ∀ symbol ∈ [left, right], Name.check symbol = .ok ())

include legal

theorem runs_pairHelper (free : Name.isMarked left.value = false) (g : Grammar) :
    (pairHelper pairs left right).Runs g := by
  unfold pairHelper
  split
  · exact runs_pure _ _
  · refine runs_bind (runs_helper ?_ (List.cons_ne_nil _ _) legal g) fun _ _ _ => runs_pure _ _
    have checked := legal left List.mem_cons_self
    rw [← isMarked_join checked right.value] at free
    exact Name.checkNonterminal_of_free (fun _ => Name.isPlain_of_mem_escape) (join_filled checked _) free

theorem fails_pairHelper (failed : (pairHelper pairs left right).Fails g fault h) :
    Name.isMarked left.value = true ∧ IsMark fault := by
  have marked : Name.isMarked left.value = true :=
    eq_true_of_ne_false fun free => (runs_pairHelper legal free g).not_fails failed
  refine ⟨marked, ?_⟩
  unfold pairHelper at failed
  split at failed
  · exact absurd failed (runs_pure _ _).not_fails
  · have checked := legal left List.mem_cons_self
    rw [← isMarked_join checked right.value] at marked
    have refused := fails_of_bind (fun _ _ _ => runs_pure _ _) failed
    exact isMark_of_helper (fun _ =>
      Name.isPlain_of_mem_escape) (join_filled checked _) marked (List.cons_ne_nil _ _) refused

end Pair

section Body

variable {pairs more : Pairs} {last : Symbol} {before : List Symbol} {body : Body}

section Legal

variable {left next : Symbol} (legal : ∀ symbol ∈ last :: left :: next :: before, Name.check symbol = .ok ())

include legal

theorem legal_pair : ∀ symbol ∈ [left, last], Name.check symbol = .ok () := by
  simp only [List.forall_mem_cons] at legal ⊢
  exact ⟨legal.2.1, legal.1, List.forall_mem_nil _⟩

theorem legal_folded {name : String} (named : Name.checkNonterminal name = .ok ()) :
    ∀ symbol ∈ .nonterminal name :: next :: before, Name.check symbol = .ok () := by
  simp only [List.forall_mem_cons] at legal ⊢
  exact ⟨named, legal.2.2⟩

end Legal

theorem Serving.of_splitFrom (serving : Serving pairs g) (legal : ∀ symbol ∈ last :: before, Name.check symbol = .ok ())
    (ran : (splitFrom pairs last before).Succeeds g (body, more) h) : Serving more h ∧ Unmarked before.dropLast := by
  fun_induction splitFrom pairs last before generalizing g with
  | case1 pairs last =>
    obtain ⟨same, rfl⟩ := succeeds_pure.1 ran
    cases same
    exact ⟨serving, List.forall_mem_nil _⟩
  | case2 pairs last first =>
    obtain ⟨same, rfl⟩ := succeeds_pure.1 ran
    cases same
    exact ⟨serving, List.forall_mem_nil _⟩
  | case3 pairs last left next before ih =>
    obtain ⟨⟨name, between⟩, k, helped, ran⟩ := succeeds_bind.1 ran
    obtain ⟨serves, free, named⟩ := serving.of_pairHelper (legal_pair legal left List.mem_cons_self) helped
    obtain ⟨serves, others⟩ := ih name between serves (legal_folded legal named) ran
    exact ⟨serves, List.forall_mem_cons.2 ⟨free, others⟩⟩

theorem Serving.runs_splitFrom (serving : Serving pairs g)
    (legal : ∀ symbol ∈ last :: before, Name.check symbol = .ok ())
    (free : Unmarked before.dropLast) : (splitFrom pairs last before).Runs g := by
  fun_induction splitFrom pairs last before generalizing g with
  | case1 => exact runs_pure _ _
  | case2 => exact runs_pure _ _
  | case3 pairs last left next before ih =>
    obtain ⟨here, others⟩ := List.forall_mem_cons.1 free
    refine runs_bind (runs_pairHelper (legal_pair legal) here g) fun answer k helped => ?_
    obtain ⟨name, between⟩ := answer
    obtain ⟨serves, -, named⟩ := serving.of_pairHelper (legal_pair legal left List.mem_cons_self) helped
    exact ih name between serves (legal_folded legal named) others

theorem Serving.fails_splitFrom (serving : Serving pairs g)
    (legal : ∀ symbol ∈ last :: before, Name.check symbol = .ok ())
    (failed : (splitFrom pairs last before).Fails g fault h) : ¬ Unmarked before.dropLast ∧ IsMark fault := by
  refine ⟨fun free => (serving.runs_splitFrom legal free).not_fails failed, ?_⟩
  fun_induction splitFrom pairs last before generalizing g with
  | case1 => exact absurd failed (runs_pure _ _).not_fails
  | case2 => exact absurd failed (runs_pure _ _).not_fails
  | case3 pairs last left next before ih =>
    rcases fails_bind.1 failed with first | ⟨⟨name, between⟩, k, helped, later⟩
    · exact (fails_pairHelper (legal_pair legal) first).2
    · obtain ⟨serves, -, named⟩ := serving.of_pairHelper (legal_pair legal left List.mem_cons_self) helped
      exact ih name between serves (legal_folded legal named) later

end Body

theorem inner_of_reversed {before : List Symbol} (some : before ≠ []) (last : Symbol) :
    inner (before.reverse ++ [last]) = before.dropLast.reverse := by
  rw [inner, List.tail_append_of_ne_nil (by simpa using some), List.dropLast_concat, List.tail_reverse]

theorem unmarked_reverse {symbols : List Symbol} : Unmarked symbols.reverse ↔ Unmarked symbols := by
  simp [Unmarked]

def Appended (productions : List Production) (g : Grammar) : Prop :=
  ∃ fresh, g.productions = productions ++ fresh ∧ ∀ p ∈ fresh, p.body ≠ []

theorem appended_self (g : Grammar) : Appended g.productions g := ⟨[], (List.append_nil _).symm, List.forall_mem_nil _⟩

theorem keeps_splitFrom_appended (productions : List Production) (before : List Symbol) (pairs : Pairs)
    (last : Symbol) :
    (splitFrom pairs last before).Keeps (Appended productions) := by
  refine keeps_splitFrom_of_pairHelper (fun pairs left right => ?_) before pairs last
  refine keeps_pairHelper_of_helper pairs (keeps_helper_of_fresh fun g filled _ ⟨fresh, same, bodies⟩ => ?_)
  refine ⟨fresh ++ [_], by rw [Grammar.productions_added, same, List.append_assoc], fun p member => ?_⟩
  rcases List.mem_append.1 member with old | new
  · exact bodies p old
  · rw [List.mem_singleton.1 new]
    exact filled

section Place

variable {pairs more : Pairs} {front back : List Production} {p : Production}

theorem Serving.emptied {index : Nat} (serving : Serving pairs g) (found : g.productions[index]? = some p)
    (long : 2 < p.body.length) : Serving pairs (withBody index [] g) where
  closed := closed_withBody serving.closed nofun
  heads := robust_heads.keeps_setBody index [] g serving.heads
  served := allServed_emptied found long serving.served
  unmarked := serving.unmarked

structure SplitsAt (front : List Production) (p : Production) (back : List Production) (g h : Grammar) : Prop where
  unmarked : Unmarked (inner p.body)
  productions : ∃ q fresh, h.productions = front ++ q :: (back ++ fresh)
  filled : (∀ q ∈ g.productions, q.body ≠ []) → ∀ q ∈ h.productions, q.body ≠ []

theorem inner_of_short {body : Body} (short : body.length ≤ 2) : inner body = [] := by
  rw [← List.length_eq_zero_iff, inner, List.length_dropLast, List.length_tail]
  omega

theorem legal_reversed {body : Body} {before : List Symbol} {last : Symbol} (whole : body = before.reverse ++ [last])
    (legal : ∀ symbol ∈ body, Name.check symbol = .ok ()) : ∀ symbol ∈ last :: before, Name.check symbol = .ok () := by
  intro symbol member
  apply legal
  rw [whole, List.mem_append, List.mem_reverse, List.mem_singleton]
  exact (List.mem_cons.1 member).symm

variable (serving : Serving pairs g) (legal : ∀ symbol ∈ p.body, Name.check symbol = .ok ())
  (listed : g.productions = front ++ p :: back)

include serving legal listed

theorem Serving.of_splitAt (ran : (splitAt pairs front.length).Succeeds g more h) :
    Serving more h ∧ SplitsAt front p back g h := by
  have found := found_of_listed listed
  obtain ⟨served, conserves⟩ := conserves_of_splitAt serving.closed serving.served ran
  have heads := (robust_heads.keeps_splitAt pairs front.length).of_succeeds ran serving.heads
  obtain ⟨short, rfl, rfl⟩ | ⟨long, before, last, body, k, some, whole, folds, rfl⟩ := splitAt_opened found ran
  · refine ⟨serving, ?_, ⟨p, [], ?_⟩, id⟩
    · rw [inner_of_short short]
      exact nofun
    · rw [listed, List.append_nil]
  · obtain ⟨serves, free⟩ := (serving.emptied found long).of_splitFrom (legal_reversed whole legal) folds
    obtain ⟨fresh, productions, bodies⟩ :=
      (keeps_splitFrom_appended _ before pairs last).of_succeeds folds (appended_self _)
    have after := productions_withBody (listed_emptied listed productions) body
    refine ⟨⟨conserves.closed, heads, served, serves.unmarked⟩, ?_, ⟨_, fresh, after⟩, fun filled => ?_⟩
    · rw [whole, inner_of_reversed some]
      exact unmarked_reverse.2 free
    · have here : body ≠ [] := List.ne_nil_of_length_eq_add_one (length_of_splitFrom some folds)
      rw [listed, List.forall_mem_append, List.forall_mem_cons] at filled
      rw [after, List.forall_mem_append, List.forall_mem_cons, List.forall_mem_append]
      exact ⟨filled.1, here, filled.2.2, bodies⟩

theorem Serving.runs_splitAt (free : Unmarked (inner p.body)) : (splitAt pairs front.length).Runs g := by
  have found := found_of_listed listed
  rcases splitAt_run pairs found with ⟨-, same⟩ | ⟨long, before, last, some, whole, same⟩
  · exact ⟨_, _, succeeds_of_run same⟩
  · rw [whole, inner_of_reversed some, unmarked_reverse] at free
    obtain ⟨⟨body, more⟩, k, folds⟩ := (serving.emptied found long).runs_splitFrom (legal_reversed whole legal) free
    refine ⟨more, withBody front.length body k, ?_⟩
    rw [Succeeds, same]
    exact succeeds_foldAt.2 ⟨body, k, folds, rfl⟩

/-- A refused split has taken the body already. -/
theorem Serving.fails_splitAt (failed : (splitAt pairs front.length).Fails g fault h) :
    ¬ Unmarked (inner p.body) ∧ IsMark fault ∧
      ∃ fresh, h.productions = front ++ { p with body := [] } :: (back ++ fresh) ∧ ∀ q ∈ fresh, q.body ≠ [] := by
  refine ⟨fun free => (serving.runs_splitAt legal listed free).not_fails failed, ?_⟩
  have found := found_of_listed listed
  rcases splitAt_run pairs found with ⟨-, same⟩ | ⟨long, before, last, some, whole, same⟩
  · exact absurd failed (Runs.not_fails ⟨_, _, succeeds_of_run same⟩)
  · rw [Fails, same] at failed
    have folds : (splitFrom pairs last before).Fails (withBody front.length [] g) fault h :=
      fails_of_bind (fun _ _ _ => runs_bind ⟨(), _, succeeds_change.2 rfl⟩ fun _ _ _ => runs_pure _ _) failed
    refine ⟨((serving.emptied found long).fails_splitFrom (legal_reversed whole legal) folds).2, ?_⟩
    have appended := keeps_splitFrom_appended _ before pairs last (withBody front.length [] g) (appended_self _)
    rw [folds.2] at appended
    obtain ⟨fresh, productions, bodies⟩ := appended
    exact ⟨fresh, listed_emptied listed productions, bodies⟩

end Place

section Places

variable {pairs : Pairs} {front todo back : List Production}

theorem SplitsAt.next {p : Production} {rest : List Production} (splits : SplitsAt front p (rest ++ back) g h) :
    ∃ split fresh, split.length = front.length + 1 ∧ h.productions = split ++ (rest ++ (back ++ fresh)) := by
  obtain ⟨q, fresh, productions⟩ := splits.productions
  exact ⟨front ++ [q], fresh, List.length_append, listed_next productions⟩

variable (serving : Serving pairs g) (legal : ∀ p ∈ todo, ∀ symbol ∈ p.body, Name.check symbol = .ok ())
  (listed : g.productions = front ++ (todo ++ back))

include serving legal listed

theorem Serving.of_splitEach (ran : (splitEach pairs (List.range' front.length todo.length)).Succeeds g u h) :
    (∀ p ∈ todo, Unmarked (inner p.body)) ∧
      ((∀ p ∈ g.productions, p.body ≠ []) → ∀ p ∈ h.productions, p.body ≠ []) := by
  induction todo generalizing g pairs front back with
  | nil =>
    obtain ⟨-, rfl⟩ := succeeds_pure.1 ran
    exact ⟨nofun, id⟩
  | cons p rest ih =>
    obtain ⟨here, later⟩ := List.forall_mem_cons.1 legal
    obtain ⟨more, k, one, others⟩ := succeeds_bind.1 ran
    obtain ⟨serves, splits⟩ := serving.of_splitAt here listed one
    obtain ⟨split, fresh, length, productions⟩ := splits.next
    rw [← length] at others
    obtain ⟨free, filled⟩ := ih serves later productions others
    exact ⟨List.forall_mem_cons.2 ⟨splits.unmarked, free⟩, fun before => filled (splits.filled before)⟩

theorem Serving.runs_splitEach (free : ∀ p ∈ todo, Unmarked (inner p.body)) :
    (splitEach pairs (List.range' front.length todo.length)).Runs g := by
  induction todo generalizing g pairs front back with
  | nil => exact runs_pure _ _
  | cons p rest ih =>
    obtain ⟨here, later⟩ := List.forall_mem_cons.1 legal
    obtain ⟨first, others⟩ := List.forall_mem_cons.1 free
    refine runs_bind (serving.runs_splitAt here listed first) fun more k one => ?_
    obtain ⟨serves, splits⟩ := serving.of_splitAt here listed one
    obtain ⟨split, fresh, length, productions⟩ := splits.next
    rw [← length]
    exact ih serves later productions others

/-- The first production with a mark inside is the one that loses its body. -/
theorem Serving.fails_splitEach (filled : ∀ p ∈ g.productions, p.body ≠ [])
    (failed : (splitEach pairs (List.range' front.length todo.length)).Fails g fault h) : IsMark fault ∧
      ∃ before p after split behind, todo = before ++ p :: after ∧ (∀ q ∈ before, Unmarked (inner q.body)) ∧
        ¬ Unmarked (inner p.body) ∧ split.length = front.length + before.length ∧
        h.productions = split ++ { p with body := [] } :: behind ∧ ∀ q ∈ split ++ behind, q.body ≠ [] := by
  induction todo generalizing g pairs front back with
  | nil => exact absurd failed (runs_pure _ _).not_fails
  | cons p rest ih =>
    obtain ⟨here, later⟩ := List.forall_mem_cons.1 legal
    rcases fails_bind.1 failed with first | ⟨more, k, one, failed⟩
    · obtain ⟨marked, fault, fresh, productions, bodies⟩ := serving.fails_splitAt here listed first
      refine ⟨fault, [], p, rest, front, rest ++ back ++ fresh, rfl, nofun, marked, rfl, productions, ?_⟩
      rw [listed] at filled
      simp only [List.forall_mem_append, List.forall_mem_cons, List.cons_append] at filled ⊢
      exact ⟨filled.1, filled.2.2, bodies⟩
    · obtain ⟨serves, splits⟩ := serving.of_splitAt here listed one
      obtain ⟨split, fresh, length, productions⟩ := splits.next
      rw [← length] at failed
      obtain ⟨fault, before, q, after, done, behind, rfl, free, marked, place, left⟩ :=
        ih serves later productions (splits.filled filled) failed
      refine ⟨fault, p :: before, q, after, done, behind, rfl, ?_, marked, ?_, left⟩
      · exact List.forall_mem_cons.2 ⟨splits.unmarked, free⟩
      · rw [place, length, List.length_cons]
        omega

end Places

section All

variable (closed : g.Closed) (legal : ∀ p ∈ g.productions, p.Legal)

include closed legal

theorem serving_nil : Serving [] g where
  closed := closed
  heads p rule := (legal p rule).head
  served := by simp [AllServed]
  unmarked := by simp

theorem splitAll_unmarked (ran : splitAll.Succeeds g u h) : (∀ p ∈ g.productions, Unmarked (inner p.body)) ∧
    ((∀ p ∈ g.productions, p.body ≠ []) → ∀ p ∈ h.productions, p.body ≠ []) := by
  rw [succeeds_splitAll, List.range_eq_range'] at ran
  exact (serving_nil closed legal).of_splitEach (fun p rule => (legal p rule).body) (listed_all g) ran

theorem runs_splitAll_of_unmarked (free : ∀ p ∈ g.productions, Unmarked (inner p.body)) : splitAll.Runs g := by
  refine runs_bind ⟨_, _, succeeds_grammar.2 ⟨rfl, rfl⟩⟩ fun _ _ found => ?_
  obtain ⟨rfl, rfl⟩ := succeeds_grammar.1 found
  rw [List.range_eq_range']
  exact (serving_nil closed legal).runs_splitEach (fun p rule => (legal p rule).body) (listed_all g) free

theorem fails_splitAll (filled : ∀ p ∈ g.productions, p.body ≠ []) (failed : splitAll.Fails g fault h) : IsMark fault ∧
    ∃ before p after split behind, g.productions = before ++ p :: after ∧ (∀ q ∈ before, Unmarked (inner q.body)) ∧
      ¬ Unmarked (inner p.body) ∧ split.length = before.length ∧
        h.productions = split ++ { p with body := [] } :: behind ∧
      ∀ q ∈ split ++ behind, q.body ≠ [] := by
  obtain ⟨_, _, found, failed⟩ := fails_bind_of_runs ⟨_, _, succeeds_grammar.2 ⟨rfl, rfl⟩⟩ failed
  obtain ⟨rfl, rfl⟩ := succeeds_grammar.1 found
  rw [List.range_eq_range'] at failed
  obtain ⟨mark, before, p, after, split, behind, productions, free, marked, length, left⟩ :=
    (serving_nil closed legal).fails_splitEach (fun p rule => (legal p rule).body) (listed_all g) filled failed
  exact ⟨mark, before, p, after, split, behind, productions, free, marked, length.trans (Nat.zero_add _), left⟩

end All

end ContextFree.Pass
