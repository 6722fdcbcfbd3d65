import ContextFree.Proofs.Pass.FoldBodies

namespace ContextFree.Pass

open Edit

variable {g h k : Grammar} {u : Unit}

def Replaces (p q : Production) (ps qs : List Production) : Prop :=
  q.head = p.head ∧ ∃ before after, ps = before ++ p :: after ∧ qs = before ++ q :: after

section Replacing

variable {p q : Production} {ps qs : List Production}

theorem Replaces.symm (replaces : Replaces p q ps qs) : Replaces q p qs ps := by
  obtain ⟨heads, before, after, first, second⟩ := replaces
  exact ⟨heads.symm, before, after, second, first⟩

theorem Replaces.append (replaces : Replaces p q ps qs) (fresh : List Production) :
    Replaces p q (ps ++ fresh) (qs ++ fresh) := by
  obtain ⟨heads, before, after, rfl, rfl⟩ := replaces
  exact ⟨heads, before, after ++ fresh, by simp, by simp⟩

theorem Replaces.serves (replaces : Replaces p q ps qs) {name : String} {body : Body}
    (differs : p.body ≠ body) (serves : Serves ps name body) : Serves qs name body := by
  obtain ⟨heads, before, after, rfl, rfl⟩ := replaces
  obtain ⟨only, found, reads⟩ := serves
  have other : ¬ p.head = name := by
    intro same
    have listed : p ∈ (before ++ p :: after).filter (·.head == name) := by simp [same]
    rw [found, List.mem_singleton] at listed
    exact differs (listed ▸ reads)
  refine ⟨only, ?_, reads⟩
  rw [← found]
  simp [List.filter_append, heads, other]

theorem Replaces.allServed (replaces : Replaces p q ps qs) (short : p.body.length ≠ 2) {pairs : Pairs}
    (served : AllServed ps pairs) : AllServed qs pairs := by
  intro left right name member
  apply replaces.serves _ (served left right name member)
  intro same
  rw [same] at short
  exact short rfl

theorem Replaces.derives (replaces : Replaces p q ps qs)
    (reads : ∀ w, Derives qs p.body w → Derives qs q.body w) {body : Body} {w : Sentence}
    (d : Derives ps body w) : Derives qs body w := by
  obtain ⟨heads, before, after, rfl, rfl⟩ := replaces
  apply Derives.of_matched _ d
  intro r rule
  rcases List.mem_append.1 rule with old | rule
  · exact ⟨r, List.mem_append_left _ old, rfl, fun _ inner => inner⟩
  · rcases List.mem_cons.1 rule with rfl | old
    · exact ⟨q, by simp, heads, reads⟩
    · exact ⟨r, by simp [old], rfl, fun _ inner => inner⟩

end Replacing

def withBody (index : Nat) (body : Body) (g : Grammar) : Grammar :=
  { g with productions := g.productions.modify index fun p => { p with body } }

theorem setBody_eq (index : Nat) (body : Body) : setBody index body = change (withBody index body) := rfl

theorem replaces_withBody {index : Nat} {p : Production} (found : g.productions[index]? = some p)
    (body : Body) : Replaces p { p with body } g.productions (withBody index body g).productions := by
  obtain ⟨inside, rfl⟩ := List.getElem?_eq_some_iff.1 found
  refine ⟨rfl, g.productions.take index, g.productions.drop (index + 1), ?_, ?_⟩
  · rw [List.getElem_cons_drop, List.take_append_drop]
  · exact List.modify_eq_take_cons_drop inside

theorem getElem?_withBody {index place : Nat} {body : Body} {q : Production}
    (found : (withBody index body g).productions[place]? = some q) : ∃ p, g.productions[place]? = some p ∧
      q = if index = place then { p with body } else p := by
  rw [withBody, List.getElem?_modify] at found
  obtain ⟨p, old, rfl⟩ := Option.map_eq_some_iff.1 found
  exact ⟨p, old, rfl⟩

section Listed

variable {front back : List Production} {p : Production}

theorem found_of_listed (listed : g.productions = front ++ p :: back) : g.productions[front.length]? = some p := by
  rw [listed, List.getElem?_append_right (Nat.le_refl _), Nat.sub_self]
  rfl

theorem listed_all (g : Grammar) : g.productions = [] ++ (g.productions ++ []) := (List.append_nil _).symm

theorem listed_next {rest fresh : List Production} (listed : g.productions = front ++ p :: (rest ++ back ++ fresh)) :
    g.productions = (front ++ [p]) ++ (rest ++ (back ++ fresh)) := by
  rw [listed, List.append_assoc, List.append_assoc]
  rfl

theorem productions_withBody (listed : g.productions = front ++ p :: back) (body : Body) :
    (withBody front.length body g).productions = front ++ { p with body } :: back := by
  rw [withBody, listed]
  show (front ++ p :: back).modify front.length _ = _
  rw [List.modify_eq_take_cons_drop (by simp)]
  simp

theorem listed_emptied {fresh : List Production} (listed : g.productions = front ++ p :: back)
    (grown : k.productions = (withBody front.length [] g).productions ++ fresh) :
    k.productions = front ++ { p with body := [] } :: (back ++ fresh) := by
  rw [grown, productions_withBody listed, List.append_assoc, List.cons_append]

end Listed

theorem closed_withBody {index : Nat} {body : Body} (closed : g.Closed)
    (known : ∀ symbol ∈ body, g.hasSymbol symbol) : (withBody index body g).Closed := by
  apply Grammar.Closed.with_productions
  intro q member
  obtain ⟨place, found⟩ := List.mem_iff_getElem?.1 member
  obtain ⟨p, old, rfl⟩ := getElem?_withBody found
  have before := closed p (List.mem_of_getElem? old)
  split
  · exact ⟨before.1, known⟩
  · exact before

theorem coherent_withBody {index : Nat} {body : Body} (coherent : g.Coherent)
    (known : ∀ symbol ∈ body, g.hasSymbol symbol) : (withBody index body g).Coherent where
  closed := closed_withBody coherent.closed known
  start_known := coherent.start_known
  started some := coherent.started fun none => some (by rw [withBody, none, List.modify_nil])

theorem succeeds_productionAt {index : Nat} {p : Production} :
    (productionAt index).Succeeds g p h ↔ g.productions[index]? = some p ∧ g = h := by
  simp only [productionAt, succeeds_bind, succeeds_grammar]
  constructor
  · rintro ⟨_, _, ⟨rfl, rfl⟩, ran⟩
    split at ran
    · next q found =>
      obtain ⟨rfl, rfl⟩ := succeeds_pure.1 ran
      exact ⟨found, rfl⟩
    · exact absurd ran succeeds_refuse
  · rintro ⟨found, rfl⟩
    refine ⟨g, g, ⟨rfl, rfl⟩, ?_⟩
    rw [found]
    exact succeeds_pure.2 ⟨rfl, rfl⟩

/-- What is left to do of a split once the body is taken: it is folded and put back. -/
def foldAt (pairs : Pairs) (index : Nat) (last : Symbol) (before : List Symbol) : Edit Pairs := do
  let (body, more) ← splitFrom pairs last before
  setBody index body
  return more

theorem succeeds_foldAt {pairs more : Pairs} {index : Nat} {last : Symbol} {before : List Symbol} :
    (foldAt pairs index last before).Succeeds g more h ↔
      ∃ body k, (splitFrom pairs last before).Succeeds g (body, more) k ∧ h = withBody index body k := by
  simp only [foldAt, setBody_eq, succeeds_bind, succeeds_change, succeeds_pure]
  constructor
  · rintro ⟨⟨body, _⟩, k, folds, _, _, filled, same, rfl⟩
    cases same
    exact ⟨body, k, folds, filled⟩
  · rintro ⟨body, k, folds, filled⟩
    exact ⟨(body, more), k, folds, (), h, filled, rfl, rfl⟩

theorem splitAt_run {index : Nat} {p : Production} (pairs : Pairs) (found : g.productions[index]? = some p) :
    (p.body.length ≤ 2 ∧ splitAt pairs index g = ⟨.ok pairs, g, []⟩) ∨
      (2 < p.body.length ∧ ∃ before last, before ≠ [] ∧ p.body = before.reverse ++ [last] ∧
        splitAt pairs index g = foldAt pairs index last before (withBody index [] g)) := by
  have first : productionAt index g = ⟨.ok p, g, []⟩ := by
    rw [productionAt, bind_of_ok (grammar_run g), found]
    rfl
  have length := p.body.length_reverse
  rw [splitAt, bind_of_ok first]
  rcases reversed : p.body.reverse with _ | ⟨last, _ | ⟨left, _ | ⟨next, before⟩⟩⟩
  all_goals rw [reversed] at length
  · exact Or.inl ⟨length ▸ Nat.zero_le 2, rfl⟩
  · exact Or.inl ⟨length ▸ Nat.le_succ 1, rfl⟩
  · exact Or.inl ⟨length ▸ Nat.le_refl 2, rfl⟩
  · right
    have whole : p.body = (left :: next :: before).reverse ++ [last] := by
      rw [← List.reverse_cons, ← reversed, List.reverse_reverse]
    refine ⟨length ▸ by simp, _, last, List.cons_ne_nil _ _, whole, ?_⟩
    dsimp only
    rw [setBody_eq, bind_of_ok (change_run (withBody index []) g)]
    rfl

theorem found_of_splitAt {pairs more : Pairs} {index : Nat} (ran : (splitAt pairs index).Succeeds g more h) :
    ∃ p, g.productions[index]? = some p := by
  obtain ⟨p, _, first, -⟩ := succeeds_bind.1 ran
  exact ⟨p, (succeeds_productionAt.1 first).1⟩

theorem splitAt_opened {pairs more : Pairs} {index : Nat} {p : Production} (found : g.productions[index]? = some p)
    (ran : (splitAt pairs index).Succeeds g more h) : (p.body.length ≤ 2 ∧ more = pairs ∧ h = g) ∨
      (2 < p.body.length ∧ ∃ before last body k, before ≠ [] ∧ p.body = before.reverse ++ [last] ∧
        (splitFrom pairs last before).Succeeds (withBody index [] g) (body, more) k ∧ h = withBody index body k) := by
  rcases splitAt_run pairs found with ⟨short, same⟩ | ⟨long, before, last, some, whole, same⟩
  · rw [Succeeds, same] at ran
    obtain ⟨answer, rfl⟩ := ran
    cases answer
    exact Or.inl ⟨short, rfl, rfl⟩
  · rw [Succeeds, same] at ran
    obtain ⟨body, k, folds, filled⟩ := succeeds_foldAt.1 ran
    exact Or.inr ⟨long, before, last, body, k, some, whole, folds, filled⟩

/-- While a production stands without its body, the pairs stay served. -/
theorem allServed_emptied {pairs : Pairs} {index : Nat} {p : Production} (found : g.productions[index]? = some p)
    (long : 2 < p.body.length) (served : AllServed g.productions pairs) :
    AllServed (withBody index [] g).productions pairs :=
  (replaces_withBody found []).allServed (by omega) served

theorem splitAt_cases {pairs more : Pairs} {index : Nat} (closed : g.Closed)
    (served : AllServed g.productions pairs) (ran : (splitAt pairs index).Succeeds g more h) :
    ∃ p, g.productions[index]? = some p ∧
      ((p.body.length ≤ 2 ∧ more = pairs ∧ h = g) ∨
        (2 < p.body.length ∧ ∃ body k, Folded p.body body more (withBody index [] g) k ∧
          body.length = 2 ∧ h = withBody index body k)) := by
  obtain ⟨p, found⟩ := found_of_splitAt ran
  obtain short | ⟨long, before, last, body, k, some, whole, folds, rfl⟩ := splitAt_opened found ran
  · exact ⟨p, found, Or.inl short⟩
  · have emptied : (withBody index [] g).Closed := closed_withBody closed nofun
    have folded := (folded_of_splitFrom emptied (allServed_emptied found long served) folds).1
    rw [← whole] at folded
    exact ⟨p, found, Or.inr ⟨long, body, k, folded, length_of_splitFrom some folds, rfl⟩⟩

theorem modify_append {α : Type} {front back : List α} {index : Nat} (inside : index < front.length)
    (f : α → α) : (front ++ back).modify index f = front.modify index f ++ back := by
  have within : index < (front ++ back).length := by
    rw [List.length_append]
    omega
  rw [List.modify_eq_take_cons_drop within, List.modify_eq_take_cons_drop inside,
    List.take_append_of_le_length (Nat.le_of_lt inside), List.drop_append_of_le_length inside,
    List.getElem_append_left inside, List.append_assoc, List.cons_append]

theorem productions_of_folded {long body : Body} {more : Pairs} {index : Nat} {p : Production}
    (found : g.productions[index]? = some p) (folded : Folded long body more (withBody index [] g) k) :
    ∃ fresh, (∀ q ∈ fresh, q.head ∉ g.nonterminals) ∧
      k.productions = (withBody index [] g).productions ++ fresh ∧
      (withBody index body k).productions = (withBody index body g).productions ++ fresh := by
  obtain ⟨fresh, productions, heads⟩ := folded.grows.productions
  refine ⟨fresh, heads, productions, ?_⟩
  have inside : index < g.productions.length := (List.getElem?_eq_some_iff.1 found).1
  show k.productions.modify index _ = _
  rw [productions]
  show (g.productions.modify index _ ++ fresh).modify index _ = g.productions.modify index _ ++ fresh
  rw [modify_append (by rwa [List.length_modify]), List.modify_modify_eq]
  rfl

theorem conserves_of_folded {body : Body} {more : Pairs} {index : Nat} {p : Production} (closed : g.Closed)
    (found : g.productions[index]? = some p) (long : 2 < p.body.length)
    (folded : Folded p.body body more (withBody index [] g) k) :
    AllServed (withBody index body k).productions more ∧ Grammar.Conserves g (withBody index body k) := by
  obtain ⟨fresh, heads, emptied, filled⟩ := productions_of_folded found folded
  -- The grammars before and after are compared by way of the old productions with the new helpers.
  have without := (replaces_withBody found []).append fresh
  have within := (replaces_withBody found body).append fresh
  rw [← emptied] at without
  rw [← filled] at within
  have between : AllServed (g.productions ++ fresh) more :=
    without.symm.allServed (show [].length ≠ 2 by decide) folded.served
  have served : AllServed (withBody index body k).productions more := within.allServed (by omega) between
  have known : ∀ symbol ∈ body, k.hasSymbol symbol := by
    apply folded.known
    intro symbol inBody
    exact Grammar.hasSymbol_productions.2 ((closed p (List.mem_of_getElem? found)).2 symbol inBody)
  refine ⟨served, folded.grows.kind, folded.grows.start, fun symbol present => ?_,
    fun name known w => ?_, ?_, fun coherent => ?_⟩
  · exact Grammar.hasSymbol_productions.2
      (folded.grows.symbols symbol (Grammar.hasSymbol_productions.2 present))
  · rw [← Grammar.derives_append_fresh closed heads known]
    constructor
    · exact within.symm.derives fun w => (folded.reads _ between w).1
    · exact within.derives fun w => (folded.reads _ served w).2
  · exact closed_withBody (folded.grows.closed (closed_withBody closed nofun)) known
  · exact coherent_withBody (folded.grows.coherent (coherent_withBody coherent nofun)) known

theorem conserves_of_splitAt {pairs more : Pairs} {index : Nat} (closed : g.Closed)
    (served : AllServed g.productions pairs) (ran : (splitAt pairs index).Succeeds g more h) :
    AllServed h.productions more ∧ Grammar.Conserves g h := by
  obtain ⟨p, found, ⟨-, rfl, rfl⟩ | ⟨long, body, k, folded, -, rfl⟩⟩ := splitAt_cases closed served ran
  · exact ⟨served, .refl closed⟩
  · exact conserves_of_folded closed found long folded

theorem conserves_of_splitEach {remaining : List Nat} {pairs : Pairs} (closed : g.Closed)
    (served : AllServed g.productions pairs) (ran : (splitEach pairs remaining).Succeeds g u h) :
    Grammar.Conserves g h := by
  induction remaining generalizing g pairs with
  | nil =>
    rw [← (succeeds_pure.1 ran).2]
    exact .refl closed
  | cons index rest ih =>
    obtain ⟨more, k, one, others⟩ := succeeds_bind.1 ran
    obtain ⟨serving, first⟩ := conserves_of_splitAt closed served one
    exact first.trans (ih first.closed serving others)

theorem splitEach_of_short {remaining : List Nat} {pairs : Pairs} (short : ∀ p ∈ g.productions, p.body.length ≤ 2)
    (inside : ∀ index ∈ remaining, index < g.productions.length) : splitEach pairs remaining g = ⟨.ok (), g, []⟩ := by
  induction remaining with
  | nil => rfl
  | cons index rest ih =>
    have found := List.getElem?_eq_getElem (inside index List.mem_cons_self)
    rcases splitAt_run pairs found with ⟨-, same⟩ | ⟨long, -⟩
    · rw [splitEach, bind_of_ok same, ih fun place listed => inside place (List.mem_cons_of_mem index listed)]
      rfl
    · exact absurd (short _ (List.getElem_mem _)) (Nat.not_le.2 long)

theorem succeeds_splitAll : splitAll.Succeeds g u h ↔
    (splitEach [] (List.range g.productions.length)).Succeeds g u h := by
  simp only [splitAll, succeeds_bind, succeeds_grammar]
  constructor
  · rintro ⟨_, _, ⟨rfl, rfl⟩, each⟩
    exact each
  · exact fun each => ⟨g, g, ⟨rfl, rfl⟩, each⟩

theorem splitAll_of_short (short : ∀ p ∈ g.productions, p.body.length ≤ 2) : splitAll g = ⟨.ok (), g, []⟩ := by
  rw [splitAll, bind_of_ok (grammar_run g), splitEach_of_short short fun _ => List.mem_range.1]
  rfl

theorem eq_of_splitAll (short : ∀ p ∈ g.productions, p.body.length ≤ 2) (ran : splitAll.Succeeds g u h) : h = g :=
  ran.2.symm.trans (congrArg Outcome.grammar (splitAll_of_short short))

theorem conserves_of_splitAll (closed : g.Closed) (ran : splitAll.Succeeds g u h) :
    Grammar.Conserves g h :=
  conserves_of_splitEach closed (by simp [AllServed]) (succeeds_splitAll.1 ran)

/-- Every body is separated, and normal but at the places that are still to be split. -/
def Pending (remaining : List Nat) (productions : List Production) : Prop :=
  ∀ place p, productions[place]? = some p →
    Separated [] p.body ∧ (place ∈ remaining ∨ Grammar.isNormalBody p.body = true)

theorem separated_of_normal {body : Body} (normal : Grammar.isNormalBody body = true) :
    Separated [] body := by
  unfold Grammar.isNormalBody at normal
  split at normal
  · exact Or.inl ⟨_, rfl⟩
  · exact Or.inr ⟨rfl, by simp⟩
  · cases normal

theorem overNames_of_symbols {body : Body} (symbols : ∀ symbol ∈ body,
    (∃ name, symbol = .nonterminal name) ∨ ∃ token ∈ [], symbol = .terminal token) : OverNames body := by
  intro symbol member
  rcases symbols symbol member with isName | ⟨token, listed, -⟩
  · exact isName
  · cases listed

theorem normal_of_separated {body : Body} (separated : Separated [] body) (short : body.length ≤ 2) :
    Grammar.isNormalBody body = true := by
  rcases separated with ⟨token, rfl⟩ | ⟨long, symbols⟩
  · rfl
  · rw [isLong, decide_eq_true_eq] at long
    exact normal_of_names (by omega) (overNames_of_symbols symbols)

theorem overNames_of_separated {body : Body} (separated : Separated [] body) (long : 2 < body.length) :
    OverNames body := by
  rcases separated with ⟨token, rfl⟩ | ⟨-, symbols⟩
  · exact absurd long (by simp)
  · exact overNames_of_symbols symbols

theorem normal_of_fresh {index : Nat} {fresh : List Production} (closed : g.Closed)
    (normal : ∀ p ∈ k.productions,
      p ∈ (withBody index [] g).productions ∨ Grammar.isNormalBody p.body = true)
    (productions : k.productions = (withBody index [] g).productions ++ fresh)
    (heads : ∀ q ∈ fresh, q.head ∉ g.nonterminals) :
    ∀ q ∈ fresh, Grammar.isNormalBody q.body = true := by
  intro q new
  have member : q ∈ k.productions := productions ▸ List.mem_append_right _ new
  have emptied : (withBody index [] g).Closed := closed_withBody closed nofun
  exact (normal q member).resolve_left fun old => heads q new (emptied q old).1

theorem pending_of_splitAt {pairs more : Pairs} {index : Nat} {rest : List Nat} (closed : g.Closed)
    (served : AllServed g.productions pairs) (before : Pending (index :: rest) g.productions)
    (ran : (splitAt pairs index).Succeeds g more h) : Pending rest h.productions := by
  obtain ⟨p, found, split⟩ := splitAt_cases closed served ran
  obtain ⟨separated, -⟩ := before index p found
  have elsewhere : ∀ place q, place ≠ index → g.productions[place]? = some q →
      Separated [] q.body ∧ (place ∈ rest ∨ Grammar.isNormalBody q.body = true) := by
    intro place q differs there
    obtain ⟨shape, pending⟩ := before place q there
    refine ⟨shape, pending.imp_left fun listed => ?_⟩
    exact (List.mem_cons.1 listed).resolve_left differs
  rcases split with ⟨short, -, rfl⟩ | ⟨long, body, k, folded, length, rfl⟩
  · intro place q there
    by_cases here : place = index
    · rw [here, found] at there
      cases there
      exact ⟨separated, Or.inr (normal_of_separated separated short)⟩
    · exact elsewhere place q here there
  · have names := overNames_of_separated separated long
    have done : Grammar.isNormalBody body = true := normal_of_names length (folded.names names)
    obtain ⟨fresh, heads, emptied, filled⟩ := productions_of_folded found folded
    have helpers := normal_of_fresh closed (folded.normal names) emptied heads
    rw [filled]
    intro place q there
    rw [List.getElem?_append] at there
    split at there
    · rw [withBody, List.getElem?_modify] at there
      obtain ⟨old, was, rfl⟩ := Option.map_eq_some_iff.1 there
      split
      · exact ⟨separated_of_normal done, Or.inr done⟩
      · next differs => exact elsewhere place old (Ne.symm differs) was
    · have normal := helpers q (List.mem_of_getElem? there)
      exact ⟨separated_of_normal normal, Or.inr normal⟩

theorem normal_of_splitEach {remaining : List Nat} {pairs : Pairs} (closed : g.Closed)
    (served : AllServed g.productions pairs) (before : Pending remaining g.productions)
    (ran : (splitEach pairs remaining).Succeeds g u h) : h.isNormal = true := by
  induction remaining generalizing g pairs with
  | nil =>
    rw [← (succeeds_pure.1 ran).2, Grammar.isNormal, List.all_eq_true]
    intro p rule
    obtain ⟨place, found⟩ := List.mem_iff_getElem?.1 rule
    exact (before place p found).2.resolve_left List.not_mem_nil
  | cons index rest ih =>
    obtain ⟨more, k, one, others⟩ := succeeds_bind.1 ran
    obtain ⟨serving, first⟩ := conserves_of_splitAt closed served one
    exact ih first.closed serving (pending_of_splitAt closed served before one) others

theorem pending_range (separated : ∀ p ∈ g.productions, Separated [] p.body) :
    Pending (List.range g.productions.length) g.productions := by
  intro place p found
  have inside := (List.getElem?_eq_some_iff.1 found).1
  exact ⟨separated p (List.mem_of_getElem? found), Or.inl (List.mem_range.2 inside)⟩

theorem normal_of_splitAll (closed : g.Closed) (separated : ∀ p ∈ g.productions, Separated [] p.body)
    (ran : splitAll.Succeeds g u h) : h.isNormal = true :=
  normal_of_splitEach closed (by simp [AllServed]) (pending_range separated) (succeeds_splitAll.1 ran)

theorem tight_withBody {index : Nat} {p : Production} (tight : g.Tight) (found : g.productions[index]? = some p)
    (free : ∀ token, .terminal token ∉ p.body) (body : Body) : (withBody index body g).Tight := by
  obtain ⟨heads, before, after, old, new⟩ := replaces_withBody found body
  refine tight.with_productions (fun q rule => ?_) fun q rule token inBody => ?_
  · change ∃ r ∈ (withBody index body g).productions, r.head = q.head
    rw [new]
    rw [old, List.mem_append, List.mem_cons] at rule
    rcases rule with front | rfl | back
    · exact ⟨q, List.mem_append_left _ front, rfl⟩
    · exact ⟨_, List.mem_append_right _ List.mem_cons_self, heads⟩
    · exact ⟨q, List.mem_append_right _ (List.mem_cons_of_mem _ back), rfl⟩
  · change ∃ r ∈ (withBody index body g).productions, .terminal token ∈ r.body
    rw [new]
    rw [old, List.mem_append, List.mem_cons] at rule
    rcases rule with front | rfl | back
    · exact ⟨q, List.mem_append_left _ front, inBody⟩
    · exact absurd inBody (free token)
    · exact ⟨q, List.mem_append_right _ (List.mem_cons_of_mem _ back), inBody⟩

-- The body is set twice, and no terminal is lost: there is none in a body over names, nor in an empty one.
theorem tight_of_splitAt {pairs more : Pairs} {index : Nat} {rest : List Nat} (closed : g.Closed)
    (served : AllServed g.productions pairs) (before : Pending (index :: rest) g.productions) (tight : g.Tight)
    (ran : (splitAt pairs index).Succeeds g more h) : h.Tight := by
  obtain ⟨p, found, ⟨-, -, rfl⟩ | ⟨long, body, k, folded, -, rfl⟩⟩ := splitAt_cases closed served ran
  · exact tight
  · have names := overNames_of_separated (before index p found).1 long
    have free : ∀ token, .terminal token ∉ p.body := by
      intro token inBody
      obtain ⟨name, same⟩ := names _ inBody
      cases same
    have known : ∀ symbol ∈ p.body, (withBody index [] g).hasSymbol symbol := fun symbol inBody =>
      Grammar.hasSymbol_productions.2 ((closed p (List.mem_of_getElem? found)).2 symbol inBody)
    have between := folded.tight known (tight_withBody tight found free [])
    obtain ⟨fresh, -, productions, -⟩ := productions_of_folded found folded
    have emptied : k.productions[index]? = some { p with body := [] } := by
      have inside := (List.getElem?_eq_some_iff.1 found).1
      rw [productions, List.getElem?_append_left (by rwa [withBody, List.length_modify]), withBody,
        List.getElem?_modify,
        found]
      simp
    exact tight_withBody between emptied (fun _ => List.not_mem_nil) body

theorem tight_of_splitEach {remaining : List Nat} {pairs : Pairs} (closed : g.Closed)
    (served : AllServed g.productions pairs) (before : Pending remaining g.productions) (tight : g.Tight)
    (ran : (splitEach pairs remaining).Succeeds g u h) : h.Tight := by
  induction remaining generalizing g pairs with
  | nil =>
    rw [← (succeeds_pure.1 ran).2]
    exact tight
  | cons index rest ih =>
    obtain ⟨more, k, one, others⟩ := succeeds_bind.1 ran
    obtain ⟨serving, first⟩ := conserves_of_splitAt closed served one
    exact ih first.closed serving (pending_of_splitAt closed served before one)
      (tight_of_splitAt closed served before tight one) others

theorem tight_of_splitAll (closed : g.Closed) (separated : ∀ p ∈ g.productions, Separated [] p.body) (tight : g.Tight)
    (ran : splitAll.Succeeds g u h) : h.Tight :=
  tight_of_splitEach closed (by simp [AllServed]) (pending_range separated) tight (succeeds_splitAll.1 ran)

end ContextFree.Pass
