import ContextFree.Proofs.Derivation.Rewriting
import ContextFree.Proofs.Pass.SplitBodies
import ContextFree.Proofs.Pass.UselessSymbols

namespace ContextFree

open Edit

namespace Useful

variable {g : Grammar}

theorem exists_derived_of_generating :
    ∀ name ∈ generating g, ∃ sentence, Derives g.productions [.nonterminal name] sentence := by
  refine Closure.saturate_induction
    (P := fun name => ∃ sentence, Derives g.productions [.nonterminal name] sentence) nofun ?_
  intro seen known name found
  obtain ⟨p, listed, rfl⟩ := List.mem_map.1 found
  obtain ⟨rule, inner⟩ := List.mem_filter.1 listed
  obtain ⟨sentence, body⟩ := Derives.exists_of_names fun name inBody =>
    known name (isGenerating_iff.1 inner name inBody)
  exact ⟨sentence, .of_rule rule body⟩

theorem exists_derived_of_rule {p : Production} (rule : p ∈ generatingRules g) :
    ∃ sentence, Derives (generatingRules g) p.body sentence := by
  have inner := (Bool.and_eq_true_iff.1 (List.mem_filter.1 rule).2).2
  obtain ⟨sentence, body⟩ := Derives.exists_of_names fun name inBody =>
    exists_derived_of_generating name (isGenerating_iff.1 inner name inBody)
  exact ⟨sentence, derives_generatingRules_iff.2 body⟩

theorem derives_reachableRules_of_rule {p : Production} (rule : p ∈ reachableRules g) {sentence : Sentence}
    (body : Derives g.productions p.body sentence) : Derives (reachableRules g) p.body sentence := by
  obtain ⟨listed, known⟩ := mem_reachableRules.1 rule
  apply body.restrict (P := fun name => name ∈ reachable g)
  · intro q other head
    exact ⟨mem_reachableRules.2 ⟨other, head⟩, fun name inBody => mem_reachable_of_rule other head inBody⟩
  · intro name inBody
    exact mem_reachable_of_rule listed known inBody

theorem leads_generatingRules {first last : Body} {sentence : Sentence} (leads : Leads g.productions first last)
    (d : Derives g.productions last sentence) : Leads (generatingRules g) first last := by
  induction leads generalizing sentence with
  | refl => exact .refl
  | @step p left right _ rule ih =>
    obtain ⟨_, _, -, -, rest⟩ := Derives.append_iff.1 d
    obtain ⟨_, _, -, body, -⟩ := Derives.append_iff.1 rest
    exact (ih ((Leads.refl.step rule).derives d)).step (mem_generatingRules_of_derives rule body)

theorem mem_reachable_of_leads {body first : Body} (leads : Leads g.productions first body)
    (start : ∀ name, .nonterminal name ∈ first → name ∈ reachable g) :
    ∀ name, .nonterminal name ∈ body → name ∈ reachable g := by
  induction leads with
  | refl => exact start
  | @step p left right _ rule ih =>
    intro name member
    rcases List.mem_append.1 member with inLeft | member
    · exact ih name (List.mem_append_left _ inLeft)
    · rcases List.mem_append.1 member with inBody | inRight
      · exact mem_reachable_of_rule rule (ih p.head (by simp)) inBody
      · exact ih name (by simp [inRight])

/-- Where each body derives a sentence, what is reached from the start symbol is used on the way. -/
theorem applies_of_reachable (bodies : ∀ p ∈ g.productions, ∃ sentence, Derives g.productions p.body sentence) :
    ∀ p ∈ reachableRules g, ({ g with productions := reachableRules g } : Grammar).Applies p := by
  let k : Grammar := { g with productions := reachableRules g }
  have inner : ∀ p ∈ reachableRules g, ∃ sentence, Derives k.productions p.body sentence := by
    intro p rule
    obtain ⟨sentence, body⟩ := bodies p (mem_reachableRules.1 rule).1
    exact ⟨sentence, derives_reachableRules_of_rule rule body⟩
  have all : ∀ name ∈ reachable g, name ∈ reachable g ∧ ∀ p ∈ reachableRules g, p.head = name → k.Applies p := by
    refine Closure.saturate_induction
      (P := fun name => name ∈ reachable g ∧ ∀ p ∈ reachableRules g, p.head = name → k.Applies p) ?_ ?_
    · intro name first
      have start : g.start = some name := Option.mem_toList.1 first
      refine ⟨start_mem_reachable start, ?_⟩
      rintro p rule rfl
      obtain ⟨sentence, body⟩ := inner p rule
      exact ⟨rule, [], [], sentence, ⟨p.head, start, .refl⟩, by simpa using body⟩
    · intro seen known name found
      obtain ⟨head, inSeen, listed⟩ := List.mem_flatMap.1 found
      obtain ⟨p, ofHead, inBody⟩ := List.mem_flatMap.1 listed
      obtain ⟨rule, same⟩ := List.mem_filter.1 ofHead
      obtain rfl := eq_of_beq same
      obtain ⟨reached, uses⟩ := known p.head inSeen
      have mentions := mem_nonterminalsOf.1 inBody
      refine ⟨mem_reachable_of_rule rule reached mentions, ?_⟩
      rintro q other rfl
      obtain ⟨sentence, body⟩ := inner q other
      have applies := uses p (mem_reachableRules.2 ⟨rule, reached⟩) rfl
      exact (applies.occurs_of_mem mentions).applies other body
  intro p rule
  exact (all p.head (mem_reachableRules.1 rule).2).2 p rule rfl

end Useful

namespace Pass

variable {g h k : Grammar} {u : Unit}

section UselessSymbols

theorem applies_usefulPart : ∀ p ∈ (usefulPart g).productions, (usefulPart g).Applies p := by
  intro p rule
  rw [rules_usefulPart] at rule
  have reached := @Useful.applies_of_reachable (generatingPart g) (fun _ => Useful.exists_derived_of_rule) p rule
  exact reached.mono start_usefulPart (rules_usefulPart ▸ List.Subset.refl _)

theorem applies_of_removeUseless (ran : removeUseless.Succeeds g u h) : ∀ p ∈ h.productions, h.Applies p := by
  rw [succeeds_removeUseless.1 ran]
  exact applies_usefulPart

/-- A production that is put to use generates, and it is reached by way of others that generate. -/
theorem mem_usefulPart_iff {p : Production} : p ∈ (usefulPart g).productions ↔ g.Applies p := by
  constructor
  · intro rule
    exact (applies_usefulPart p rule).mono start_usefulPart.symm usefulPart_subset
  · intro applies
    obtain ⟨sentence, body⟩ := applies.derives_body
    obtain ⟨rule, left, right, _, ⟨start, started, leads⟩, d⟩ := applies
    have generates : Leads (generatingPart g).productions [.nonterminal start] (left ++ .nonterminal p.head :: right) :=
      Useful.leads_generatingRules leads ((Leads.refl.step rule).derives d)
    rw [rules_usefulPart]
    refine Useful.mem_reachableRules.2 ⟨Useful.mem_generatingRules_of_derives rule body, ?_⟩
    refine Useful.mem_reachable_of_leads generates (fun name single => ?_) p.head (by simp)
    cases List.mem_singleton.1 single
    exact Useful.start_mem_reachable started

open Classical in
theorem productions_usefulPart (g : Grammar) : (usefulPart g).productions = g.productions.filter (g.Applies ·) := by
  have twice : (usefulPart g).productions = g.productions.filter fun p =>
      (Useful.reachable (generatingPart g)).contains p.head &&
        ((Useful.generating g).contains p.head && Useful.isGenerating (Useful.generating g) p.body) := by
    rw [rules_usefulPart]
    exact List.filter_filter
  rw [twice]
  refine List.filter_congr fun p rule => ?_
  have member := @mem_usefulPart_iff g p
  rw [twice, List.mem_filter, and_iff_right rule] at member
  rw [Bool.eq_iff_iff, member, decide_eq_true_eq]

theorem usefulPart_of_useful (applies : ∀ p ∈ g.productions, g.Applies p)
    (used : ∀ symbol, g.hasSymbol symbol → g.usesSymbol symbol = true) : usefulPart g = g := by
  have generate : Useful.generatingRules g = g.productions := by
    refine List.filter_eq_self.2 fun p rule => ?_
    obtain ⟨sentence, body⟩ := (applies p rule).derives_body
    exact (List.mem_filter.1 (Useful.mem_generatingRules_of_derives rule body)).2
  have first : generatingPart g = g := by rw [generatingPart, generate]
  have reached : Useful.reachableRules g = g.productions := by
    refine List.filter_eq_self.2 fun p rule => List.contains_iff_mem.2 ?_
    obtain ⟨-, left, right, sentence, ⟨start, started, leads⟩, -⟩ := applies p rule
    refine Useful.mem_reachable_of_leads leads (fun name single => ?_) p.head (by simp)
    cases List.mem_singleton.1 single
    exact Useful.start_mem_reachable started
  have second : reachablePart g = g := by rw [reachablePart, reached]
  rw [usefulPart, first, second, (Grammar.pruned_of_used used).2]

theorem usefulPart_again (g : Grammar) : usefulPart (usefulPart g) = usefulPart g :=
  usefulPart_of_useful applies_usefulPart fun _ => Grammar.used_pruned

end UselessSymbols

section SeparateTerminals

variable {terminal name : String}

theorem leads_substitute {ps : List Production} (leads : Leads ps [.nonterminal name] [.terminal terminal])
    (body : Body) :
    Leads ps (body.map (substitute (.terminal terminal) (.nonterminal name))) body := by
  refine Leads.map_symbols fun symbol => ?_
  unfold substitute
  split
  · next here =>
    rw [here]
    exact leads
  · exact .refl

theorem leads_separateIn {ps : List Production} (leads : Leads ps [.nonterminal name] [.terminal terminal])
    (p : Production) :
    Leads ps (separateIn terminal name p).body p.body := by
  unfold separateIn
  split
  · exact leads_substitute leads p.body
  · exact .refl

theorem leads_separateIn_of_mem {ps : List Production} (leads : Leads ps [.nonterminal name] [.terminal terminal])
    {p : Production} (long : isLong p.body = true) (inBody : .terminal terminal ∈ p.body) :
    ∃ left right, (separateIn terminal name p).body = left ++ .nonterminal name :: right ∧
      Leads ps (left ++ .terminal terminal :: right) p.body := by
  obtain ⟨before, after, split⟩ := List.append_of_mem inBody
  let change := substitute (.terminal terminal) (.nonterminal name)
  refine ⟨before.map change, after.map change, ?_, ?_⟩
  · rw [separateIn, if_pos long, split, List.map_append, List.map_cons, substitute, if_pos rfl]
  · have front := (leads_substitute leads before).between [] (.terminal terminal :: after.map change)
    have back := (leads_substitute leads after).between (before ++ [.terminal terminal]) []
    rw [split]
    simp only [List.nil_append, List.append_nil, List.append_assoc, List.cons_append] at front back
    exact front.trans back

theorem elaborates_of_separate (closed : g.Closed)
    (needed : ∃ p ∈ g.productions, isLong p.body = true ∧ .terminal terminal ∈ p.body)
    (ran : (separate terminal).Succeeds g u h) : Grammar.Elaborates g h := by
  obtain ⟨name, k, helped, rfl⟩ := helped_of_separate closed ran
  have leads := (serves_separated rfl helped.serves terminal name).leads
  have mapped : ∀ p ∈ g.productions, separateIn terminal name p ∈ k.productions.map (separateIn terminal name) :=
    fun p rule => List.mem_map_of_mem (helped.grows.subset rule)
  refine ⟨helped.grows.start, fun p rule => ?_, fun q member => ?_⟩
  · have step := Leads.of_rule (mapped p rule)
    rw [head_separateIn] at step
    exact step.trans (leads_separateIn leads p)
  · obtain ⟨r, between, rfl⟩ := List.mem_map.1 member
    rcases helped.productions r between with rule | rfl
    · refine ⟨r, rule, [], [], ?_, ?_⟩
      · rw [head_separateIn]
        exact .refl
      · rw [List.append_nil]
        exact leads_separateIn leads r
    -- The helper stands where a long body had the terminal.
    · obtain ⟨p, rule, long, inBody⟩ := needed
      obtain ⟨left, right, body, back⟩ := leads_separateIn_of_mem leads long inBody
      have step := Leads.of_rule (mapped p rule)
      rw [head_separateIn, body] at step
      exact ⟨p, rule, left, right, step, back⟩

def Awaited (remaining : List String) (g : Grammar) : Prop :=
  ∀ token ∈ remaining, ∃ p ∈ g.productions, isLong p.body = true ∧ .terminal token ∈ p.body

theorem awaited_of_separate {rest : List String} (closed : g.Closed) (absent : terminal ∉ rest)
    (awaited : Awaited rest g)
    (ran : (separate terminal).Succeeds g u h) : Awaited rest h := by
  obtain ⟨name, k, helped, rfl⟩ := helped_of_separate closed ran
  intro token listed
  obtain ⟨p, rule, long, inBody⟩ := awaited token listed
  refine ⟨separateIn terminal name p, List.mem_map_of_mem (helped.grows.subset rule), ?_,
    terminal_mem_separateIn ?_ inBody⟩
  · rw [isLong_separateIn]
    exact long
  · rintro rfl
    exact absent listed

theorem elaborates_of_separates {remaining : List String} (closed : g.Closed) (distinct : remaining.Nodup)
    (awaited : Awaited remaining g) (ran : (remaining.forM separate).Succeeds g u h) : Grammar.Elaborates g h := by
  induction remaining generalizing g with
  | nil =>
    rw [← succeeds_forM_nil.1 ran]
    exact .refl g
  | cons terminal rest ih =>
    obtain ⟨k, one, others⟩ := succeeds_forM_cons.1 ran
    rw [List.nodup_cons] at distinct
    have later :=
      awaited_of_separate closed distinct.1 (fun token listed => awaited token (List.mem_cons_of_mem _ listed)) one
    have first := elaborates_of_separate closed (awaited terminal List.mem_cons_self) one
    exact first.trans (ih (conserves_of_separate closed one).closed distinct.2 later others)

theorem elaborates_of_separateAll (closed : g.Closed) (ran : separateAll.Succeeds g u h) : Grammar.Elaborates g h := by
  apply elaborates_of_separates closed (Closure.extend_nodup List.nodup_nil) _ (succeeds_separateAll.1 ran)
  exact fun token => mem_longTerminals.1

end SeparateTerminals

section SplitBodies

/-- The short body leads back to the long one, by way of the head and the body of each helper that
was added for it. -/
structure Unfolds (long body : Body) (more : Pairs) (g h : Grammar) : Prop where
  leads : ∀ ps, AllServed ps more → Leads ps body long
  origin : ∀ q ∈ h.productions, q ∈ g.productions ∨ ∃ left right, ∀ ps, AllServed ps more →
    Leads ps body (left ++ .nonterminal q.head :: right) ∧ Leads ps (left ++ (q.body ++ right)) long

theorem Unfolds.of_short (body : Body) (more : Pairs) (g : Grammar) : Unfolds body body more g g where
  leads _ _ := .refl
  origin _ rule := Or.inl rule

theorem Unfolds.of_paired {pairs more last : Pairs} {front : Body} {left right : Symbol} {name : String} {body : Body}
    (paired : Paired pairs left right name more g h) (rest : Unfolds (front ++ [.nonterminal name]) body last h k)
    (subset : more ⊆ last) : Unfolds (front ++ [left, right]) body last g k := by
  have open_pair : ∀ ps, AllServed ps last → Leads ps (front ++ [.nonterminal name]) (front ++ [left, right]) := by
    intro ps served
    have step := (served left right name (subset paired.remembered)).leads.between front []
    rwa [List.append_nil, List.append_nil] at step
  refine ⟨fun ps served => (rest.leads ps served).trans (open_pair ps served), fun q rule => ?_⟩
  rcases rest.origin q rule with between | ⟨before, after, ways⟩
  · rcases paired.helped.productions q between with old | rfl
    · exact Or.inl old
    · exact Or.inr ⟨front, [], fun ps served => ⟨rest.leads ps served, by simpa using Leads.refl⟩⟩
  · refine Or.inr ⟨before, after, fun ps served => ?_⟩
    obtain ⟨toHead, toBody⟩ := ways ps served
    exact ⟨toHead, toBody.trans (open_pair ps served)⟩

theorem unfolds_of_splitFrom {before : List Symbol} {pairs more : Pairs} {last : Symbol} {body : Body}
    (closed : g.Closed) (served : AllServed g.productions pairs)
    (ran : (splitFrom pairs last before).Succeeds g (body, more) h) :
    Unfolds (before.reverse ++ [last]) body more g h := by
  fun_induction splitFrom pairs last before generalizing g with
  | case1 pairs last =>
    obtain ⟨same, rfl⟩ := succeeds_pure.1 ran
    cases same
    exact .of_short _ _ _
  | case2 pairs last first =>
    obtain ⟨same, rfl⟩ := succeeds_pure.1 ran
    cases same
    exact .of_short _ _ _
  | case3 pairs last left next before ih =>
    obtain ⟨⟨name, between⟩, k, helped, ran⟩ := succeeds_bind.1 ran
    have paired := paired_of_pairHelper closed served helped
    have rest := ih name between (paired.helped.grows.closed closed) paired.served ran
    have subset := (folded_of_splitFrom (paired.helped.grows.closed closed) paired.served ran).2
    have whole := Unfolds.of_paired paired rest subset
    rwa [List.reverse_cons, List.append_assoc]

theorem elaborates_of_unfolds {body : Body} {more : Pairs} {index : Nat} {p : Production} (closed : g.Closed)
    (found : g.productions[index]? = some p) (served : AllServed (withBody index body k).productions more)
    (folded : Folded p.body body more (withBody index [] g) k)
    (unfolds : Unfolds p.body body more (withBody index [] g) k) :
    Grammar.Elaborates g (withBody index body k) := by
  obtain ⟨fresh, heads, emptied, filled⟩ := productions_of_folded found folded
  have within := (replaces_withBody found body).append fresh
  rw [← filled] at within
  obtain ⟨-, front, back, old, new⟩ := replaces_withBody found body
  have leads := unfolds.leads _ served
  have short : Leads (withBody index body k).productions [.nonterminal p.head] body := by
    obtain ⟨-, before, after, -, after'⟩ := within
    exact Leads.of_rule (p := { p with body }) (after' ▸ by simp)
  have rule : p ∈ g.productions := List.mem_of_getElem? found
  refine ⟨folded.grows.start, fun q listed => ?_, fun q listed => ?_⟩
  · rw [old, List.mem_append, List.mem_cons] at listed
    have kept : q = p ∨ q ∈ (withBody index body k).productions := by
      rw [filled, new]
      simp only [List.mem_append, List.mem_cons]
      grind
    rcases kept with rfl | kept
    · exact short.trans leads
    · exact .of_rule kept
  · rw [filled, new] at listed
    simp only [List.mem_append, List.mem_cons] at listed
    rcases listed with (inFront | rfl | inBack) | added
    · exact ⟨q, old ▸ List.mem_append_left _ inFront, [], [], .refl, by simpa using Leads.refl⟩
    · exact ⟨p, rule, [], [], .refl, by simpa using leads⟩
    · exact ⟨q, old ▸ by simp [inBack], [], [], .refl, by simpa using Leads.refl⟩
    · have member : q ∈ k.productions := emptied ▸ List.mem_append_right _ added
      have before : (withBody index [] g).Closed := closed_withBody closed nofun
      obtain ⟨left, right, ways⟩ := (unfolds.origin q member).resolve_left fun was => heads q added (before q was).1
      obtain ⟨toHead, toBody⟩ := ways _ served
      exact ⟨p, rule, left, right, short.trans toHead, toBody⟩

theorem elaborates_of_splitAt {pairs more : Pairs} {index : Nat} (closed : g.Closed)
    (served : AllServed g.productions pairs) (ran : (splitAt pairs index).Succeeds g more h) :
    Grammar.Elaborates g h := by
  obtain ⟨p, found⟩ := found_of_splitAt ran
  obtain ⟨-, -, rfl⟩ | ⟨long, before, last, body, k, -, whole, folds, rfl⟩ := splitAt_opened found ran
  · exact .refl h
  · have emptied : (withBody index [] g).Closed := closed_withBody closed nofun
    have serving := allServed_emptied found long served
    have folded := (folded_of_splitFrom emptied serving folds).1
    have unfolds := unfolds_of_splitFrom emptied serving folds
    rw [← whole] at folded unfolds
    exact elaborates_of_unfolds closed found (conserves_of_folded closed found long folded).1 folded unfolds

theorem elaborates_of_splitEach {remaining : List Nat} {pairs : Pairs} (closed : g.Closed)
    (served : AllServed g.productions pairs) (ran : (splitEach pairs remaining).Succeeds g u h) :
    Grammar.Elaborates g h := by
  induction remaining generalizing g pairs with
  | nil =>
    rw [← (succeeds_pure.1 ran).2]
    exact .refl g
  | cons index rest ih =>
    obtain ⟨more, k, one, others⟩ := succeeds_bind.1 ran
    obtain ⟨serving, first⟩ := conserves_of_splitAt closed served one
    exact (elaborates_of_splitAt closed served one).trans (ih first.closed serving others)

theorem elaborates_of_splitAll (closed : g.Closed) (ran : splitAll.Succeeds g u h) : Grammar.Elaborates g h :=
  elaborates_of_splitEach closed (by simp [AllServed]) (succeeds_splitAll.1 ran)

end SplitBodies

end Pass

end ContextFree
