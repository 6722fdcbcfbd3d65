import ContextFree.Proofs.Pass.Stable

namespace ContextFree

open Edit

/-- The names are the same, or the list has the first one before the second one. -/
def Precedes (names : List String) (first second : String) : Prop := first = second ∨ [first, second].Sublist names

namespace Precedes

variable {names more : List String} {first second : String}

theorem grown (precedes : Precedes names first second) (sublist : names.Sublist more) : Precedes more first second :=
  precedes.imp_right fun pair => pair.trans sublist

theorem of_cons {name : String} (precedes : Precedes (name :: names) first second) (differs : first ≠ name) :
    Precedes names first second := by
  rcases precedes with same | pair
  · exact Or.inl same
  · cases pair with
    | cons _ inRest => exact Or.inr inRest
    | cons_cons _ _ => exact absurd rfl differs

theorem erase {name : String} (precedes : Precedes names first second) (distinct : names.Nodup)
    (notFirst : first ≠ name)
    (notSecond : second ≠ name) : Precedes (names.erase name) first second := by
  refine precedes.imp_right fun pair => ?_
  rw [distinct.erase_eq_filter]
  have kept := pair.filter (· != name)
  rwa [List.filter_eq_self.2 (by simp [notFirst, notSecond])] at kept

theorem of_last (listed : first ∈ names) (fresh : [second].Sublist more) : Precedes (names ++ more) first second :=
  Or.inr ((List.singleton_sublist.2 listed).append fresh)

end Precedes

namespace Production

theorem filter_append_filter {name : String} {ps : List Production}
    (front : ps.Pairwise fun p q => q.head = name → p.head = name) :
    ps.filter (·.head == name) ++ ps.filter (·.head != name) = ps := by
  induction ps with
  | nil => rfl
  | cons p rest ih =>
    rw [List.pairwise_cons] at front
    by_cases here : p.head = name
    · rw [List.filter_cons_of_pos (by simp [here]), List.filter_cons_of_neg (by simp [here]), List.cons_append,
        ih front.2]
    · have none : (p :: rest).filter (·.head == name) = [] := by
        refine List.filter_eq_nil_iff.2 fun q member same => here ?_
        rcases List.mem_cons.1 member with rfl | inRest
        · exact eq_of_beq same
        · exact front.1 q inRest (eq_of_beq same)
      have all : (p :: rest).filter (·.head != name) = p :: rest := by
        refine List.filter_eq_self.2 fun q member => bne_iff_ne.2 fun same => here ?_
        rcases List.mem_cons.1 member with rfl | inRest
        · exact same
        · exact front.1 q inRest same
      rw [none, all, List.nil_append]

/-- Taking the productions name by name leaves them where they are, if they are in this order. -/
theorem flatMap_filter_of_ordered {names : List String} {ps : List Production} (distinct : names.Nodup)
    (headed : ∀ p ∈ ps, p.head ∈ names) (ordered : ps.Pairwise fun p q => Precedes names p.head q.head) :
    (names.flatMap fun name => ps.filter (·.head == name)) = ps := by
  induction names generalizing ps with
  | nil => exact (List.eq_nil_iff_forall_not_mem.2 fun p rule => nomatch headed p rule).symm
  | cons name rest ih =>
    rw [List.nodup_cons] at distinct
    have front : ps.Pairwise fun p q => q.head = name → p.head = name := by
      refine ordered.imp fun {p q} precedes last => Decidable.byContradiction fun differs => ?_
      rcases precedes.of_cons differs with same | pair
      · exact differs (same.trans last)
      · exact distinct.1 (last ▸ pair.subset (by simp))
    have others : ∀ p ∈ ps.filter (·.head != name), p ∈ ps ∧ p.head ≠ name := by
      intro p member
      obtain ⟨rule, differs⟩ := List.mem_filter.1 member
      exact ⟨rule, bne_iff_ne.1 differs⟩
    have tail : (rest.flatMap fun other => (ps.filter (·.head != name)).filter (·.head == other)) =
        ps.filter (·.head != name) := by
      refine ih distinct.2 (fun p member => ?_) ?_
      · obtain ⟨rule, differs⟩ := others p member
        exact (List.mem_cons.1 (headed p rule)).resolve_left differs
      · refine (ordered.filter _).imp_of_mem fun {p q} member _ precedes => ?_
        exact precedes.of_cons (others p member).2
    have same : (rest.flatMap fun other => ps.filter (·.head == other)) =
        rest.flatMap fun other => (ps.filter (·.head != name)).filter (·.head == other) := by
      rw [List.flatMap_def, List.flatMap_def]
      refine congrArg List.flatten (List.map_congr_left fun other listed => ?_)
      rw [List.filter_filter]
      refine List.filter_congr fun p _ => ?_
      by_cases here : p.head = other
      · have differs : other ≠ name := by
          rintro rfl
          exact distinct.1 listed
        simp [here, differs]
      · simp [here]
    rw [List.flatMap_cons, same, tail, filter_append_filter front]

end Production

namespace Edit

variable {g : Grammar}

theorem names_putSymbol (symbol : Symbol) (g : Grammar) :
    g.nonterminals.names.Sublist (putSymbol symbol g).nonterminals.names := by
  cases symbol with
  | nonterminal name =>
    rw [putSymbol, putNonterminal, Table.names_add]
    split
    · exact List.Sublist.refl _
    · exact List.sublist_append_left _ _
  | _ => exact List.Sublist.refl _

theorem names_putBody (body : Body) (g : Grammar) :
    g.nonterminals.names.Sublist (putBody body g).nonterminals.names := by
  unfold putBody
  induction body generalizing g with
  | nil => exact List.Sublist.refl _
  | cons symbol rest ih => exact (names_putSymbol symbol g).trans (ih (putSymbol symbol g))

end Edit

namespace Grammar

variable {g h k : Grammar} {u : Unit} {p : Production}

theorem names_added (p : Production) (g : Grammar) : g.nonterminals.names.Sublist (g.added p).nonterminals.names :=
  (names_putSymbol (.nonterminal p.head) g).trans (names_putBody p.body (putNonterminal p.head g))

theorem names_added_fresh (fresh : p.head ∉ g.nonterminals) :
    (g.nonterminals.names ++ [p.head]).Sublist (g.added p).nonterminals.names := by
  have head : (putNonterminal p.head g).nonterminals.names = g.nonterminals.names ++ [p.head] := by
    rw [putNonterminal, Table.names_add]
    exact if_neg fresh
  rw [← head]
  exact names_putBody p.body (putNonterminal p.head g)

/-- The productions stand in the order in which the table has their heads. -/
structure Arranged (g : Grammar) : Prop where
  headed : ∀ p ∈ g.productions, p.head ∈ g.nonterminals
  ordered : g.productions.Pairwise fun p q => Precedes g.nonterminals.names p.head q.head

namespace Arranged

theorem flatMap_productionsOf (arranged : g.Arranged) : g.nonterminals.names.flatMap g.productionsOf = g.productions :=
  Production.flatMap_filter_of_ordered g.nonterminals.distinct arranged.headed arranged.ordered

theorem dropNonterminal {name : String} (arranged : g.Arranged) (bare : ∀ p ∈ g.productions, p.head ≠ name) :
    (dropNonterminal name g).Arranged where
  headed p rule := Table.mem_remove.2 ⟨bare p rule, arranged.headed p rule⟩
  ordered := arranged.ordered.imp_of_mem fun {p q} first second precedes =>
    precedes.erase g.nonterminals.distinct (bare p first) (bare q second)

theorem added (arranged : g.Arranged) (fresh : p.head ∉ g.nonterminals) : (g.added p).Arranged where
  headed q rule := by
    show (g.added p).hasSymbol (.nonterminal q.head)
    rw [productions_added, List.mem_append, List.mem_singleton] at rule
    rcases rule with old | rfl
    · exact hasSymbol_added.2 (Or.inr (Or.inr (arranged.headed q old)))
    · exact hasSymbol_added.2 (Or.inr (Or.inl rfl))
  ordered := by
    rw [productions_added]
    refine List.pairwise_append.2 ⟨?_, List.pairwise_singleton _ _, fun q old r new => ?_⟩
    · exact arranged.ordered.imp fun precedes => precedes.grown (names_added p g)
    · rw [List.mem_singleton.1 new]
      exact (Precedes.of_last (arranged.headed q old) (List.Sublist.refl _)).grown (names_added_fresh fresh)

end Arranged

end Grammar

namespace Pass

variable {g h k : Grammar} {u : Unit}

theorem robust_arranged : Robust Grammar.Arranged where
  productions g productions frames arranged := by
    refine ⟨fun p rule => ?_, ?_⟩
    · obtain ⟨q, old, head, -⟩ := Production.origin_of_frames frames rule
      rw [head]
      exact arranged.headed q old
    · have ordered : (g.productions.map Production.frame).Pairwise fun p q => Precedes g.nonterminals.names p.1 q.1 :=
        List.pairwise_map.2 arranged.ordered
      have kept : (productions.map Production.frame).Pairwise fun p q => Precedes g.nonterminals.names p.1 q.1 :=
        ordered.sublist frames
      have back := List.pairwise_map.1 kept
      exact back
  dropped g symbol bare arranged := by
    cases symbol with
    | nonterminal name => exact arranged.dropNonterminal (bare name rfl).2
    | _ => exact ⟨arranged.headed, arranged.ordered⟩
  helped g p fresh _ _ _ arranged := arranged.added fresh

theorem ordered_withoutUnits (ps : List Production) {names : List String} :
    (Units.withoutUnits ps names).Pairwise fun p q => Precedes names p.head q.head := by
  have heads : ∀ name, ∀ q ∈ (Units.reach ps name).flatMap (copies ps name), q.head = name := by
    intro name q member
    obtain ⟨reached, -, copied⟩ := List.mem_flatMap.1 member
    obtain ⟨p, -, rfl⟩ := List.mem_map.1 copied
    rfl
  refine List.pairwise_flatMap.2 ⟨fun name _ => ?_,
    List.pairwise_iff_forall_sublist.2 fun {a b} pair p first q second => ?_⟩
  · exact List.pairwise_of_forall_mem_list fun p first q second =>
      Or.inl ((heads name p first).trans (heads name q second).symm)
  · rw [heads a p first, heads b q second]
    exact Or.inr pair

theorem arranged_of_removeUnits (ran : removeUnits.Succeeds g u h) : h.Arranged := by
  have productions := productions_of_removeUnits ran
  obtain ⟨k, looped, rfl⟩ := takeOverAll_of_removeUnits ran
  rw [Grammar.productions_pruned] at productions
  have names : g.nonterminals.names.Sublist k.nonterminals.names := by
    refine (keeps_forM fun name _ => keeps_forM fun reached _ => ?_ :
      Keeps (fun m =>
        g.nonterminals.names.Sublist m.nonterminals.names) (takeOverAll g)).of_succeeds looped (List.Sublist.refl _)
    exact keeps_takeOver (keeps_mergeAttributes (fun _ _ => id) _) fun p _ => keeps_addNewRule fun m _ _ before =>
      before.trans (Grammar.names_added p m)
  refine robust_arranged.pruned ⟨fun p rule => ?_, ?_⟩
  · rw [productions] at rule
    exact names.subset (Units.mem_withoutUnits.1 (Production.mem_of_mem_distinctRules rule)).1
  · rw [productions]
    refine ((ordered_withoutUnits g.productions).sublist (Production.distinctRules_sublist _)).imp fun precedes => ?_
    exact precedes.grown names

end Pass

end ContextFree
