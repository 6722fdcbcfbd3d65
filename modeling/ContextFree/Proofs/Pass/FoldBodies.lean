import ContextFree.Pass.Helpers
import ContextFree.Proofs.Pass.SeparateTerminals

namespace ContextFree.Pass

open Edit

variable {g h k : Grammar} {u : Unit}

/-- Each name remembered stands for the pair that it is remembered for. -/
def AllServed (productions : List Production) (pairs : Pairs) : Prop :=
  ∀ left right name, ((left, right), name) ∈ pairs → Serves productions name [left, right]

structure Paired (pairs : Pairs) (left right : Symbol) (name : String) (more : Pairs)
    (g h : Grammar) : Prop where
  helped : Helped name [left, right] g h
  served : AllServed h.productions more
  subset : pairs ⊆ more
  remembered : ((left, right), name) ∈ more

theorem pairHelper_cases {pairs more : Pairs} {left right : Symbol} {name : String}
    (ran : (pairHelper pairs left right).Succeeds g (name, more) h) :
    (pairs.lookup (left, right) = some name ∧ more = pairs ∧ h = g) ∨
      (pairs.lookup (left, right) = none ∧ more = ((left, right), name) :: pairs ∧
        (helper (Name.escape (left.value ++ "-" ++ right.value)) [left, right] "").Succeeds g name h) := by
  unfold pairHelper at ran
  split at ran
  · next found =>
    obtain ⟨same, rfl⟩ := succeeds_pure.1 ran
    cases same
    exact Or.inl ⟨found, rfl, rfl⟩
  · next absent =>
    simp only [succeeds_bind, succeeds_pure] at ran
    obtain ⟨new, _, helped, same, rfl⟩ := ran
    cases same
    exact Or.inr ⟨absent, rfl, helped⟩

theorem mem_of_lookup {pairs : Pairs} {pair : Symbol × Symbol} {name : String} (found : pairs.lookup pair = some name) :
    (pair, name) ∈ pairs := by
  obtain ⟨before, after, rfl, -⟩ := List.lookup_eq_some_iff.1 found
  exact List.mem_append_right before List.mem_cons_self

theorem paired_of_pairHelper {pairs more : Pairs} {left right : Symbol} {name : String}
    (closed : g.Closed) (served : AllServed g.productions pairs)
    (ran : (pairHelper pairs left right).Succeeds g (name, more) h) :
    Paired pairs left right name more g h := by
  obtain ⟨found, rfl, rfl⟩ | ⟨-, rfl, added⟩ := pairHelper_cases ran
  · have member := mem_of_lookup found
    exact ⟨.of_serves closed (served left right name member), served, List.Subset.refl _, member⟩
  · have helped := helped_of_helper closed added
    refine ⟨helped, ?_, List.subset_cons_self _ _, List.mem_cons_self⟩
    intro first second other member
    rcases List.mem_cons.1 member with new | old
    · cases new
      exact helped.serves
    · exact helped.grows.serves closed (served first second other old)

def OverNames (body : Body) : Prop := ∀ symbol ∈ body, ∃ name, symbol = .nonterminal name

theorem normal_pair {left right : Symbol} (names : OverNames [left, right]) :
    Grammar.isNormalBody [left, right] = true := by
  obtain ⟨first, rfl⟩ := names left (by simp)
  obtain ⟨second, rfl⟩ := names right (by simp)
  rfl

theorem normal_of_names {body : Body} (two : body.length = 2) (names : OverNames body) :
    Grammar.isNormalBody body = true :=
  match body, two with
  | [_, _], _ => normal_pair names

theorem OverNames.folded {front tail : Body} (names : OverNames (front ++ tail)) (name : String) :
    OverNames (front ++ [.nonterminal name]) := by
  intro symbol member
  rcases List.mem_append.1 member with inFront | single
  · exact names symbol (List.mem_append_left _ inFront)
  · exact ⟨name, List.mem_singleton.1 single⟩

/-- What comes of folding the end of a body into helpers: a short body that reads like the long one
wherever the helpers are served. -/
structure Folded (long : Body) (body : Body) (more : Pairs) (g h : Grammar) : Prop where
  grows : Grammar.Extends g h
  served : AllServed h.productions more
  reads : ∀ ps, AllServed ps more → ∀ w, Derives ps body w ↔ Derives ps long w
  known : (∀ symbol ∈ long, g.hasSymbol symbol) → ∀ symbol ∈ body, h.hasSymbol symbol
  tight : (∀ symbol ∈ long, g.hasSymbol symbol) → g.Tight → h.Tight
  names : OverNames long → OverNames body
  normal : OverNames long → ∀ p ∈ h.productions, p ∈ g.productions ∨ Grammar.isNormalBody p.body = true

theorem Folded.of_short {pairs : Pairs} (served : AllServed g.productions pairs) (body : Body) :
    Folded body body pairs g g where
  grows := .refl g
  served := served
  reads _ _ _ := Iff.rfl
  known present := present
  tight _ tight := tight
  names named := named
  normal _ _ rule := Or.inl rule

theorem derives_folded {ps : List Production} {name : String} {front tail : Body}
    (serves : Serves ps name tail) (w : Sentence) :
    Derives ps (front ++ [.nonterminal name]) w ↔ Derives ps (front ++ tail) w := by
  simp only [Derives.append_iff, serves.derives_iff]

theorem Paired.known_folded {pairs more : Pairs} {front : Body} {left right : Symbol} {name : String}
    (paired : Paired pairs left right name more g h) (present : ∀ symbol ∈ front ++ [left, right], g.hasSymbol symbol) :
    ∀ symbol ∈ front ++ [.nonterminal name], h.hasSymbol symbol := by
  intro symbol member
  rcases List.mem_append.1 member with inFront | single
  · exact paired.helped.grows.symbols symbol (present symbol (List.mem_append_left _ inFront))
  · rw [List.mem_singleton.1 single]
    exact paired.helped.known

theorem Folded.of_paired {pairs more last : Pairs} {front : Body} {left right : Symbol} {name : String}
    {body : Body} (paired : Paired pairs left right name more g h)
    (rest : Folded (front ++ [.nonterminal name]) body last h k) (subset : more ⊆ last) :
    Folded (front ++ [left, right]) body last g k where
  grows := paired.helped.grows.trans rest.grows
  served := rest.served
  reads ps served w := by
    have serves := served left right name (subset paired.remembered)
    exact (rest.reads ps served w).trans (derives_folded serves w)
  known present := rest.known (paired.known_folded present)
  tight present tight := by
    apply rest.tight (paired.known_folded present)
    refine paired.helped.tight (fun other member => ?_) tight
    exact present (.nonterminal other) (List.mem_append_right _ member)
  names named := rest.names (named.folded name)
  normal named p rule := by
    rcases rest.normal (named.folded name) p rule with old | normal
    · rcases paired.helped.productions p old with old | rfl
      · exact Or.inl old
      · exact Or.inr (normal_pair fun symbol member => named symbol (List.mem_append_right _ member))
    · exact Or.inr normal

theorem folded_of_splitFrom {before : List Symbol} {pairs more : Pairs} {last : Symbol} {body : Body}
    (closed : g.Closed) (served : AllServed g.productions pairs)
    (ran : (splitFrom pairs last before).Succeeds g (body, more) h) :
    Folded (before.reverse ++ [last]) body more g h ∧ pairs ⊆ more := by
  fun_induction splitFrom pairs last before generalizing g with
  | case1 pairs last =>
    obtain ⟨same, rfl⟩ := succeeds_pure.1 ran
    cases same
    exact ⟨.of_short served _, List.Subset.refl _⟩
  | case2 pairs last first =>
    obtain ⟨same, rfl⟩ := succeeds_pure.1 ran
    cases same
    exact ⟨.of_short served _, List.Subset.refl _⟩
  | case3 pairs last left next before ih =>
    obtain ⟨⟨name, between⟩, k, helped, ran⟩ := succeeds_bind.1 ran
    have paired := paired_of_pairHelper closed served helped
    obtain ⟨rest, subset⟩ := ih name between (paired.helped.grows.closed closed) paired.served ran
    have whole := Folded.of_paired paired rest subset
    rw [List.reverse_cons, List.append_assoc]
    exact ⟨whole, List.Subset.trans paired.subset subset⟩

theorem length_of_splitFrom {before : List Symbol} {pairs more : Pairs} {last : Symbol} {body : Body}
    (some : before ≠ []) (ran : (splitFrom pairs last before).Succeeds g (body, more) h) :
    body.length = 2 := by
  fun_induction splitFrom pairs last before generalizing g with
  | case1 => exact absurd rfl some
  | case2 pairs last first =>
    obtain ⟨same, -⟩ := succeeds_pure.1 ran
    cases same
    rfl
  | case3 pairs last left next before ih =>
    obtain ⟨⟨name, between⟩, k, -, ran⟩ := succeeds_bind.1 ran
    exact ih name between nofun ran

end ContextFree.Pass
