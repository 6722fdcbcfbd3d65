import ContextFree.Pass.Helpers
import ContextFree.Proofs.Pass.Basic

namespace ContextFree.Pass

open Edit

variable {g h k : Grammar} {u : Unit}

theorem derives_substitute {ps : List Production} {source target : Symbol} {body : Body}
    (same : ∀ w, Derives ps [target] w ↔ Derives ps [source] w) (w : Sentence) :
    Derives ps (body.map (substitute source target)) w ↔ Derives ps body w := by
  have each : ∀ symbol w, Derives ps [substitute source target symbol] w ↔ Derives ps [symbol] w := by
    intro symbol w
    unfold substitute
    split
    · next here =>
      rw [here]
      exact same w
    · exact Iff.rfl
  exact ⟨Derives.of_map_symbols fun symbol _ w => (each symbol w).1,
    Derives.map_symbols fun symbol _ w => (each symbol w).2⟩

theorem head_separateIn (terminal name : String) (p : Production) :
    (separateIn terminal name p).head = p.head := by
  unfold separateIn
  split <;> rfl

theorem isLong_separateIn (terminal name : String) (p : Production) :
    isLong (separateIn terminal name p).body = isLong p.body := by
  unfold separateIn
  split
  · rw [isLong, List.length_map, isLong]
  · rfl

theorem separateIn_short {p : Production} (short : isLong p.body = false) (terminal name : String) :
    separateIn terminal name p = p := by
  unfold separateIn
  rw [short]
  rfl

theorem derives_separateIn {ps : List Production} {terminal name : String}
    (serves : Serves ps name [.terminal terminal]) (p : Production) (w : Sentence) :
    Derives ps (separateIn terminal name p).body w ↔ Derives ps p.body w := by
  unfold separateIn
  split
  · exact derives_substitute (fun _ => serves.derives_iff) w
  · exact Iff.rfl

theorem serves_separated {ps : List Production} {name : String} {body : Body} (short : isLong body = false)
    (serves : Serves ps name body) (terminal other : String) :
    Serves (ps.map (separateIn terminal other)) name body := by
  obtain ⟨only, found, rfl⟩ := serves
  have heads : ((fun p : Production => p.head == name) ∘ separateIn terminal other) = (·.head == name) := by
    funext p
    simp only [Function.comp_apply, head_separateIn]
  exact ⟨only, by rw [List.filter_map, heads, found, List.map_singleton, separateIn_short short], rfl⟩

def separated (terminal name : String) (g : Grammar) : Grammar :=
  { g with productions := g.productions.map (separateIn terminal name) }

theorem derives_separated {terminal name : String} {body : Body} {w : Sentence}
    (serves : Serves g.productions name [.terminal terminal]) :
    Derives (separated terminal name g).productions body w ↔ Derives g.productions body w := by
  have serving : Serves (separated terminal name g).productions name [.terminal terminal] :=
    serves_separated rfl serves terminal name
  constructor
  · apply Derives.of_matched
    intro q member
    obtain ⟨p, rule, rfl⟩ := List.mem_map.1 member
    refine ⟨p, rule, (head_separateIn terminal name p).symm, fun w inner => ?_⟩
    exact (derives_separateIn serves p w).1 inner
  · apply Derives.of_matched
    intro p rule
    refine ⟨separateIn terminal name p, List.mem_map_of_mem rule, head_separateIn terminal name p, ?_⟩
    intro w inner
    exact (derives_separateIn serving p w).2 inner

theorem mem_separateIn_body {terminal name : String} {p : Production} {symbol : Symbol}
    (inBody : symbol ∈ (separateIn terminal name p).body) :
    symbol ∈ p.body ∨ symbol = .nonterminal name := by
  unfold separateIn at inBody
  split at inBody
  · obtain ⟨origin, member, same⟩ := List.mem_map.1 inBody
    unfold substitute at same
    split at same
    · exact Or.inr same.symm
    · exact Or.inl (same ▸ member)
  · exact Or.inl inBody

theorem closed_separated {terminal name : String} (closed : g.Closed) (known : name ∈ g.nonterminals) :
    (separated terminal name g).Closed := by
  apply Grammar.Closed.with_productions
  intro q member
  obtain ⟨p, rule, rfl⟩ := List.mem_map.1 member
  have old := closed p rule
  rw [head_separateIn]
  refine ⟨old.1, fun symbol inBody => ?_⟩
  rcases mem_separateIn_body inBody with inOld | rfl
  · exact old.2 symbol inOld
  · exact known

theorem coherent_separated {terminal name : String} (coherent : g.Coherent) (known : name ∈ g.nonterminals) :
    (separated terminal name g).Coherent where
  closed := closed_separated coherent.closed known
  start_known := coherent.start_known
  started some := coherent.started fun none => some (List.map_eq_nil_iff.2 none)

theorem helped_of_separate {terminal : String} (closed : g.Closed) (ran : (separate terminal).Succeeds g u h) :
    ∃ name k, Helped name [.terminal terminal] g k ∧ h = separated terminal name k := by
  simp only [separate, succeeds_bind, succeeds_change] at ran
  obtain ⟨name, k, helped, rfl⟩ := ran
  exact ⟨name, k, helped_of_helper closed helped, rfl⟩

theorem succeeds_separateAll : separateAll.Succeeds g u h ↔
    ((longTerminals g.productions).forM separate).Succeeds g u h := by
  simp only [separateAll, succeeds_bind, succeeds_grammar]
  constructor
  · rintro ⟨_, _, ⟨rfl, rfl⟩, looped⟩
    exact looped
  · exact fun looped => ⟨g, g, ⟨rfl, rfl⟩, looped⟩

theorem conserves_of_separate {terminal : String} (closed : g.Closed)
    (ran : (separate terminal).Succeeds g u h) : Grammar.Conserves g h := by
  obtain ⟨name, k, helped, rfl⟩ := helped_of_separate closed ran
  have first := helped.grows.conserves closed
  refine first.trans ⟨rfl, fun _ same => same, fun symbol present => ?_, fun other _ sentence => ?_, ?_, ?_⟩
  · exact Grammar.hasSymbol_productions.2 present
  · exact derives_separated helped.serves
  · exact closed_separated first.closed helped.known
  · exact fun coherent => coherent_separated coherent helped.known

/-- A terminal alone, or a body of at least two symbols that are nonterminals or among the
terminals still to be separated. -/
def Separated (remaining : List String) (body : Body) : Prop :=
  (∃ token, body = [.terminal token]) ∨
    (isLong body = true ∧ ∀ symbol ∈ body,
      (∃ name, symbol = .nonterminal name) ∨ ∃ token ∈ remaining, symbol = .terminal token)

theorem separated_separateIn {terminal name : String} {remaining : List String} {p : Production}
    (before : Separated (terminal :: remaining) p.body) :
    Separated remaining (separateIn terminal name p).body := by
  rcases before with ⟨token, alone⟩ | ⟨long, symbols⟩
  · have short : isLong p.body = false := by
      rw [alone]
      rfl
    rw [separateIn_short short]
    exact Or.inl ⟨token, alone⟩
  · right
    have mapped : (separateIn terminal name p).body =
        p.body.map (substitute (.terminal terminal) (.nonterminal name)) := by
      rw [separateIn, if_pos long]
    rw [mapped]
    refine ⟨?_, fun symbol member => ?_⟩
    · unfold isLong at *
      rwa [List.length_map]
    · obtain ⟨origin, inBody, rfl⟩ := List.mem_map.1 member
      unfold substitute
      split
      · exact Or.inl ⟨name, rfl⟩
      · next differs =>
        rcases symbols origin inBody with isName | ⟨token, listed, rfl⟩
        · exact Or.inl isName
        · right
          refine ⟨token, (List.mem_cons.1 listed).resolve_left fun same => ?_, rfl⟩
          exact differs (same ▸ rfl)

theorem separated_of_separates {remaining : List String} (closed : g.Closed)
    (before : ∀ p ∈ g.productions, Separated remaining p.body)
    (ran : (remaining.forM separate).Succeeds g u h) : ∀ p ∈ h.productions, Separated [] p.body := by
  induction remaining generalizing g with
  | nil =>
    rw [← succeeds_forM_nil.1 ran]
    exact before
  | cons terminal rest ih =>
    obtain ⟨l, one, others⟩ := succeeds_forM_cons.1 ran
    refine ih (conserves_of_separate closed one).closed (fun q member => ?_) others
    obtain ⟨name, k, helped, rfl⟩ := helped_of_separate closed one
    obtain ⟨p, rule, rfl⟩ := List.mem_map.1 member
    apply separated_separateIn
    rcases helped.productions p rule with old | rfl
    · exact before p old
    · exact Or.inl ⟨terminal, rfl⟩

theorem mem_longTerminals {productions : List Production} {terminal : String} :
    terminal ∈ longTerminals productions ↔ ∃ p ∈ productions, isLong p.body = true ∧ .terminal terminal ∈ p.body := by
  rw [longTerminals, Closure.mem_extend, or_iff_right List.not_mem_nil, List.mem_flatMap]
  constructor
  · intro ⟨p, kept, inBody⟩
    obtain ⟨rule, long⟩ := List.mem_filter.1 kept
    obtain ⟨symbol, member, same⟩ := List.mem_filterMap.1 inBody
    refine ⟨p, rule, long, ?_⟩
    cases symbol with
    | terminal token =>
      cases same
      exact member
    | nonterminal name => cases same
    | empty => cases same
  · intro ⟨p, rule, long, inBody⟩
    exact ⟨p, List.mem_filter.2 ⟨rule, long⟩, List.mem_filterMap.2 ⟨.terminal terminal, inBody, rfl⟩⟩

theorem separated_longTerminals {productions : List Production} {p : Production} (rule : p ∈ productions)
    (full : p.body ≠ [] ∧ Symbol.empty ∉ p.body) (notUnit : p.isUnit = false) :
    Separated (longTerminals productions) p.body := by
  by_cases long : isLong p.body = true
  · refine Or.inr ⟨long, fun symbol inBody => ?_⟩
    cases symbol with
    | nonterminal name => exact Or.inl ⟨name, rfl⟩
    | empty => exact absurd inBody full.2
    | terminal token => exact Or.inr ⟨token, mem_longTerminals.2 ⟨p, rule, long, inBody⟩, rfl⟩
  · left
    have one : p.body.length = 1 := by
      have positive := List.length_pos_iff.2 full.1
      rw [isLong, decide_eq_true_eq] at long
      omega
    obtain ⟨symbol, single⟩ := List.length_eq_one_iff.1 one
    rw [single] at full ⊢
    cases symbol with
    | terminal token => exact ⟨token, rfl⟩
    | nonterminal name =>
      rw [Production.isUnit, Production.unitTarget?, single] at notUnit
      cases notUnit
    | empty => exact absurd List.mem_cons_self full.2

theorem separated_of_separateAll (closed : g.Closed)
    (shape : ∀ p ∈ g.productions, (p.body ≠ [] ∧ Symbol.empty ∉ p.body) ∧ p.isUnit = false)
    (ran : separateAll.Succeeds g u h) : ∀ p ∈ h.productions, Separated [] p.body := by
  refine separated_of_separates closed (fun p rule => ?_) (succeeds_separateAll.1 ran)
  exact separated_longTerminals rule (shape p rule).1 (shape p rule).2

theorem eq_of_separateAll (bare : g.productions = []) (ran : separateAll.Succeeds g u h) : h = g := by
  rw [succeeds_separateAll, bare] at ran
  exact (succeeds_forM_nil.1 ran).symm

theorem conserves_of_separateAll (closed : g.Closed) (ran : separateAll.Succeeds g u h) :
    Grammar.Conserves g h := by
  apply (succeeds_separateAll.1 ran).forM_induction (P := fun h => Grammar.Conserves g h) (.refl closed)
  intro terminal _ k l one before
  exact before.trans (conserves_of_separate before.closed one)

theorem terminal_mem_separateIn {terminal name token : String} {p : Production} (other : token ≠ terminal)
    (inBody : .terminal token ∈ p.body) : .terminal token ∈ (separateIn terminal name p).body := by
  unfold separateIn
  split
  · refine List.mem_map.2 ⟨.terminal token, inBody, if_neg fun same => other ?_⟩
    cases same
    rfl
  · exact inBody

theorem tight_separated {terminal name : String} (serves : Serves g.productions name [.terminal terminal])
    (tight : g.Tight) : (separated terminal name g).Tight := by
  refine tight.with_productions (fun p rule => ?_) fun p rule token inBody => ?_
  · exact ⟨_, List.mem_map_of_mem rule, head_separateIn terminal name p⟩
  · by_cases here : token = terminal
    · obtain ⟨helper, listed, -, reads⟩ := (serves_separated rfl serves terminal name).exists_rule
      refine ⟨helper, listed, ?_⟩
      rw [here, reads]
      exact List.mem_cons_self
    · exact ⟨_, List.mem_map_of_mem rule, terminal_mem_separateIn here inBody⟩

theorem tight_of_separateAll (closed : g.Closed) (tight : g.Tight) (ran : separateAll.Succeeds g u h) : h.Tight := by
  refine And.right ((succeeds_separateAll.1 ran).forM_induction (P := fun k => k.Closed ∧ k.Tight) ⟨closed, tight⟩ ?_)
  intro terminal _ k l one before
  obtain ⟨closed, tight⟩ := before
  refine ⟨(conserves_of_separate closed one).closed, ?_⟩
  obtain ⟨name, m, helped, rfl⟩ := helped_of_separate closed one
  exact tight_separated helped.serves (helped.tight (by simp) tight)

end ContextFree.Pass
