import ContextFree.Pass.Basic
import ContextFree.Proofs.Edit.Tables
import ContextFree.Proofs.Grammar.FreshName

namespace ContextFree

open Edit

variable {g h k : Grammar} {u : Unit}

theorem Pass.keeps_reportSymbols {P : Grammar → Prop} (before after : String) (symbols : List Symbol) :
    (reportSymbols before after symbols).Keeps P := keeps_forM fun _ _ => keeps_report _ _

theorem Pass.reportSymbols_run (before after : String) (symbols : List Symbol) (g : Grammar) :
    reportSymbols before after symbols g =
      ⟨.ok (), g, symbols.map fun symbol => ⟨.debug, before ++ symbol.text ++ after⟩⟩ := by
  rw [reportSymbols, List.forM_eq_forM]
  induction symbols with
  | nil => rfl
  | cons symbol rest ih =>
    have first : debug (before ++ symbol.text ++ after) g = ⟨.ok (), g, [⟨.debug, before ++ symbol.text ++ after⟩]⟩ :=
      rfl
    rw [List.forM_cons, bind_of_ok first, ih]
    rfl

theorem Pass.same_of_reportSymbols {before after : String} {symbols : List Symbol}
    (ran : (reportSymbols before after symbols).Succeeds g u h) : h = g := by
  rw [Succeeds, reportSymbols_run] at ran
  exact ran.2.symm

namespace Grammar

/-- The second grammar is the first one with productions behind the others whose heads are new. -/
structure Extends (g h : Grammar) : Prop where
  productions : ∃ fresh, h.productions = g.productions ++ fresh ∧ ∀ p ∈ fresh, p.head ∉ g.nonterminals
  kind : h.kind = g.kind
  start : ∀ name, g.start = some name → h.start = some name
  symbols : ∀ symbol, g.hasSymbol symbol → h.hasSymbol symbol
  closed : g.Closed → h.Closed
  coherent : g.Coherent → h.Coherent

/-- What the first grammar says of its names, the second one says too. -/
structure Conserves (g h : Grammar) : Prop where
  kind : h.kind = g.kind
  start : ∀ name, g.start = some name → h.start = some name
  symbols : ∀ symbol, g.hasSymbol symbol → h.hasSymbol symbol
  derives : ∀ name ∈ g.nonterminals, ∀ sentence, h.DerivesFrom name sentence ↔ g.DerivesFrom name sentence
  closed : h.Closed
  coherent : g.Coherent → h.Coherent

theorem Extends.refl (g : Grammar) : Extends g g where
  productions := ⟨[], (List.append_nil _).symm, by simp⟩
  kind := rfl
  start _ same := same
  symbols _ present := present
  closed := id
  coherent := id

theorem Extends.trans (first : Extends g h) (second : Extends h k) : Extends g k where
  productions := by
    obtain ⟨fresh, productions, heads⟩ := first.productions
    obtain ⟨more, moreProductions, moreHeads⟩ := second.productions
    refine ⟨fresh ++ more, by rw [moreProductions, productions, List.append_assoc], ?_⟩
    intro p member old
    rcases List.mem_append.1 member with member | member
    · exact heads p member old
    · exact moreHeads p member (first.symbols (.nonterminal p.head) old)
  kind := second.kind.trans first.kind
  start name same := second.start name (first.start name same)
  symbols symbol present := second.symbols symbol (first.symbols symbol present)
  closed closed := second.closed (first.closed closed)
  coherent coherent := second.coherent (first.coherent coherent)

theorem Extends.subset (more : Extends g h) : g.productions ⊆ h.productions := by
  obtain ⟨fresh, productions, -⟩ := more.productions
  rw [productions]
  exact List.subset_append_left _ _

theorem extends_added {p : Production} (fresh : p.head ∉ g.nonterminals) : Extends g (g.added p) where
  productions := by
    refine ⟨[p], productions_added, fun q member => ?_⟩
    rw [List.mem_singleton.1 member]
    exact fresh
  kind := kind_added
  start name same := by
    rw [start_added, same]
    rfl
  symbols symbol present := hasSymbol_added.2 (Or.inr (Or.inr present))
  closed closed := closed.added p
  coherent coherent := coherent.added p

theorem Closed.names_of_body (closed : g.Closed) {p : Production} (rule : p ∈ g.productions) :
    ∀ name, .nonterminal name ∈ p.body → name ∈ g.nonterminals :=
  fun name inBody => (closed p rule).2 (.nonterminal name) inBody

theorem derives_append_fresh (closed : g.Closed) {fresh : List Production}
    (heads : ∀ p ∈ fresh, p.head ∉ g.nonterminals) {name : String} (known : name ∈ g.nonterminals)
    {sentence : Sentence} :
    Derives (g.productions ++ fresh) [.nonterminal name] sentence ↔ g.DerivesFrom name sentence := by
  constructor
  · intro d
    apply d.restrict (P := fun name => name ∈ g.nonterminals)
    · intro p member old
      have rule := (List.mem_append.1 member).resolve_right fun new => heads p new old
      exact ⟨rule, closed.names_of_body rule⟩
    · intro other single
      cases List.mem_singleton.1 single
      exact known
  · exact Derives.mono (List.subset_append_left _ _)

theorem Extends.conserves (more : Extends g h) (closed : g.Closed) : Conserves g h where
  kind := more.kind
  start := more.start
  symbols := more.symbols
  derives name known sentence := by
    obtain ⟨fresh, productions, heads⟩ := more.productions
    rw [DerivesFrom, productions]
    exact derives_append_fresh closed heads known
  closed := more.closed closed
  coherent := more.coherent

theorem Conserves.trans (first : Conserves g h) (second : Conserves h k) : Conserves g k where
  kind := second.kind.trans first.kind
  start name same := second.start name (first.start name same)
  symbols symbol present := second.symbols symbol (first.symbols symbol present)
  derives name known sentence :=
    (second.derives name (first.symbols (.nonterminal name) known) sentence).trans
      (first.derives name known sentence)
  closed := second.closed
  coherent coherent := second.coherent (first.coherent coherent)

theorem Conserves.refl (closed : g.Closed) : Conserves g g := (Extends.refl g).conserves closed

theorem Closed.known_of_serves (closed : g.Closed) {name : String} {body : Body}
    (serves : Serves g.productions name body) : name ∈ g.nonterminals := by
  obtain ⟨p, rule, rfl, -⟩ := serves.exists_rule
  exact (closed p rule).1

theorem Extends.serves (more : Extends g h) (closed : g.Closed) {name : String} {body : Body}
    (serves : Serves g.productions name body) : Serves h.productions name body := by
  have known := closed.known_of_serves serves
  obtain ⟨only, found, reads⟩ := serves
  obtain ⟨fresh, productions, heads⟩ := more.productions
  have none : fresh.filter (·.head == name) = [] := by
    rw [List.filter_eq_nil_iff]
    intro p member same
    apply heads p member
    rw [eq_of_beq same]
    exact known
  exact ⟨only, by rw [productions, List.filter_append, found, none, List.append_nil], reads⟩

end Grammar

namespace Pass

theorem isHelper_iff {name : String} {body : Body} :
    isHelper g name body = true ↔ Serves g.productions name body := by
  unfold isHelper Serves
  split
  · next only found =>
    change g.productions.filter (·.head == name) = [only] at found
    rw [found, beq_iff_eq]
    constructor
    · intro reads
      exact ⟨only, rfl, reads⟩
    · intro ⟨other, same, reads⟩
      rw [(List.cons.inj same).1]
      exact reads
  · next other =>
    refine ⟨nofun, fun ⟨only, found, _⟩ => ?_⟩
    exact absurd found (other only)

/-- The name of a helper serves for its body, whether it was there or is new. -/
structure Helped (name : String) (body : Body) (g h : Grammar) : Prop where
  grows : Grammar.Extends g h
  serves : Serves h.productions name body
  known : name ∈ h.nonterminals
  productions : ∀ p ∈ h.productions, p ∈ g.productions ∨ p = { head := name, body }
  tight : (∀ other, .nonterminal other ∈ body → other ∈ g.nonterminals) → g.Tight → h.Tight

theorem Helped.of_serves {name : String} {body : Body} (closed : g.Closed)
    (serves : Serves g.productions name body) : Helped name body g g where
  grows := .refl g
  serves := serves
  known := closed.known_of_serves serves
  productions _ rule := Or.inl rule
  tight _ tight := tight

theorem Helped.of_fresh {name : String} {body : Body} (closed : g.Closed) (fresh : name ∉ g.nonterminals) :
    Helped name body g (g.added { head := name, body }) where
  grows := Grammar.extends_added fresh
  serves := by
    have none : g.productions.filter (·.head == name) = [] := by
      rw [List.filter_eq_nil_iff]
      intro p rule same
      apply fresh
      rw [← eq_of_beq same]
      exact (closed p rule).1
    refine ⟨{ head := name, body }, ?_, rfl⟩
    rw [Grammar.productions_added, List.filter_append, none, List.nil_append, List.filter_eq_self]
    intro p single
    rw [List.mem_singleton.1 single]
    exact beq_self_eq_true name
  known := by
    show Grammar.hasSymbol _ (.nonterminal name)
    exact Grammar.hasSymbol_added.2 (Or.inr (Or.inl rfl))
  productions p rule := by
    rw [Grammar.productions_added, List.mem_append, List.mem_singleton] at rule
    exact rule
  tight known tight := tight.added known

theorem helped_of_helper {base told name : String} {body : Body} (closed : g.Closed)
    (ran : (helper base body told).Succeeds g name h) : Helped name body g h := by
  unfold helper at ran
  simp only [succeeds_bind, succeeds_grammar] at ran
  obtain ⟨_, _, ⟨rfl, rfl⟩, ran⟩ := ran
  split at ran
  · next isThere =>
    obtain ⟨rfl, rfl⟩ := succeeds_pure.1 ran
    exact .of_serves closed (isHelper_iff.1 isThere)
  · simp only [succeeds_bind, succeeds_debug, succeeds_addProduction, succeeds_pure] at ran
    obtain ⟨_, _, rfl, _, _, ⟨-, rfl⟩, rfl, rfl⟩ := ran
    exact .of_fresh closed (g.freshName_not_mem base)

end Pass

end ContextFree
