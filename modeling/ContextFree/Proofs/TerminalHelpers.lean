import ContextFree.Proofs.Pass.Totality
import ContextFree.Proofs.Reading.Coherent

namespace ContextFree.Pass

open Edit

variable {g h k : Grammar} {u : Unit}

section Names

variable (names : String → Option String)

/-- The name that stands for a terminal, if there is one. -/
def named : Symbol → Symbol
  | .terminal token => (names token).elim (.terminal token) .nonterminal
  | symbol => symbol

def namedRule (p : Production) : Production :=
  if isLong p.body then { p with body := p.body.map (named names) } else p

def put (terminal name : String) (token : String) : Option String :=
  if token = terminal then some name else names token

variable {names} {p : Production}

theorem namedRule_short (short : isLong p.body = false) : namedRule names p = p := by
  unfold namedRule
  rw [short]
  rfl

theorem namedRule_long (long : isLong p.body = true) : (namedRule names p).body = p.body.map (named names) := by
  rw [namedRule, if_pos long]

theorem isLong_namedRule : isLong (namedRule names p).body = isLong p.body := by
  unfold namedRule
  split
  · rw [isLong, List.length_map, isLong]
  · rfl

theorem namedRule_none (p : Production) : namedRule (fun _ => none) p = p := by
  have same : ∀ symbol, named (fun _ => none) symbol = symbol := by
    intro symbol
    cases symbol <;> rfl
  unfold namedRule
  split
  · rw [List.map_congr_left fun symbol _ => same symbol, List.map_id']
  · rfl

theorem named_substitute (terminal name : String) (symbol : Symbol) :
    named names (substitute (.terminal terminal) (.nonterminal name) symbol) = named
      (put names terminal name) symbol := by
  unfold substitute
  split
  · next here =>
    rw [here, named, put, if_pos rfl]
    rfl
  · next other =>
    cases symbol with
    | terminal token => rw [named, named, put, if_neg fun same => other (congrArg Symbol.terminal same)]
    | nonterminal name => rfl
    | empty => rfl

theorem namedRule_separateIn (terminal name : String) (p : Production) :
    namedRule names (separateIn terminal name p) = namedRule (put names terminal name) p := by
  cases long : isLong p.body with
  | false => rw [separateIn_short long, namedRule_short long, namedRule_short long]
  | true =>
    have mapped : separateIn terminal name p =
        { p with body := p.body.map (substitute (.terminal terminal) (.nonterminal name)) } := if_pos long
    have still := (isLong_separateIn terminal name p).trans long
    rw [namedRule, if_pos still, mapped, namedRule, if_pos long]
    simp only [List.map_map, Function.comp_def, named_substitute]

end Names

theorem serves_of_separate {terminal name : String} {body : Body} (closed : g.Closed) (short : isLong body = false)
    (serves : Serves g.productions name body) (ran : (separate terminal).Succeeds g u h) :
    Serves h.productions name body := by
  obtain ⟨other, k, helped, rfl⟩ := helped_of_separate closed ran
  exact serves_separated short (helped.grows.serves closed serves) terminal other

theorem serves_of_separates {remaining : List String} {name : String} {body : Body} (closed : g.Closed)
    (short : isLong body = false) (serves : Serves g.productions name body)
    (ran : (remaining.forM separate).Succeeds g u h) : Serves h.productions name body := by
  refine And.right (ran.forM_induction (P := fun k => k.Closed ∧ Serves k.productions name body) ⟨closed, serves⟩ ?_)
  intro terminal _ k l one before
  exact ⟨(conserves_of_separate before.1 one).closed, serves_of_separate before.1 short before.2 one⟩

/-- The terminals get their names, and new names get their productions. -/
structure Names (names : String → Option String) (terminals : List String) (g h : Grammar) : Prop where
  known : ∀ token, (∃ name, names token = some name) ↔ token ∈ terminals
  serves : ∀ token name, names token = some name → Serves h.productions name [.terminal token]
  productions : ∃ fresh, h.productions = g.productions.map (namedRule names) ++ fresh ∧
    ∀ q ∈ fresh, q.head ∉ g.nonterminals ∧
      ∃ token, names token = some q.head ∧ q = { head := q.head, body := [.terminal token] }

theorem productions_of_helped {terminal name : String} (closed : g.Closed)
    (helped : Helped name [.terminal terminal] g k) :
    ∃ fresh, k.productions = g.productions ++ fresh ∧
      ∀ q ∈ fresh, q.head ∉ g.nonterminals ∧ q = { head := name, body := [.terminal terminal] } := by
  obtain ⟨fresh, productions, heads⟩ := helped.grows.productions
  refine ⟨fresh, productions, fun q new => ⟨heads q new, ?_⟩⟩
  have rule : q ∈ k.productions := productions ▸ List.mem_append_right _ new
  exact (helped.productions q rule).resolve_left fun old => heads q new (closed q old).1

theorem Names.cons {names : String → Option String} {terminal name : String} {rest : List String} (closed : g.Closed)
    (absent : terminal ∉ rest) (helped : Helped name [.terminal terminal] g k)
    (after : Names names rest (separated terminal name k) h) (serves : Serves h.productions name [.terminal terminal]) :
    Names (put names terminal name) (terminal :: rest) g h where
  known token := by
    unfold put
    split
    · next here => simp [here]
    · next other => rw [after.known, List.mem_cons, or_iff_right other]
  serves token other same := by
    unfold put at same
    split at same
    · next here =>
      cases same
      exact here ▸ serves
    · exact after.serves token other same
  productions := by
    obtain ⟨first, grown, helpers⟩ := productions_of_helped closed helped
    obtain ⟨others, productions, heads⟩ := after.productions
    have short : ∀ q ∈ first, namedRule (put names terminal name) q = q := by
      intro q new
      rw [(helpers q new).2]
      rfl
    refine ⟨first ++ others, ?_, fun q new => ?_⟩
    · rw [productions, separated, List.map_map, Function.comp_def]
      simp only [namedRule_separateIn, grown, List.map_append, List.append_assoc]
      rw [List.map_congr_left short, List.map_id']
    · rcases List.mem_append.1 new with here | later
      · obtain ⟨fresh, rfl⟩ := helpers q here
        exact ⟨fresh, terminal, if_pos rfl, rfl⟩
      · obtain ⟨fresh, token, found, same⟩ := heads q later
        refine ⟨fun old => fresh (helped.grows.symbols (.nonterminal q.head) old), token, ?_, same⟩
        have differs : token ≠ terminal := by
          rintro rfl
          exact absent ((after.known token).1 ⟨_, found⟩)
        rw [put, if_neg differs, found]

theorem names_of_separates {remaining : List String} (closed : g.Closed) (distinct : remaining.Nodup)
    (ran : (remaining.forM separate).Succeeds g u h) : ∃ names, Names names remaining g h := by
  induction remaining generalizing g with
  | nil =>
    obtain rfl := succeeds_forM_nil.1 ran
    refine ⟨fun _ => none, by simp, nofun, [], ?_, nofun⟩
    rw [List.append_nil, List.map_congr_left fun p _ => namedRule_none p, List.map_id']
  | cons terminal rest ih =>
    obtain ⟨l, one, others⟩ := succeeds_forM_cons.1 ran
    obtain ⟨absent, distinct⟩ := List.nodup_cons.1 distinct
    have conserves := conserves_of_separate closed one
    obtain ⟨names, after⟩ := ih conserves.closed distinct others
    obtain ⟨name, k, helped, rfl⟩ := helped_of_separate closed one
    have serves := serves_separated rfl helped.serves terminal name
    exact ⟨_, after.cons closed absent helped (serves_of_separates conserves.closed rfl serves others)⟩

theorem Names.injective {names : String → Option String} {terminals : List String} (named : Names names terminals g h)
    {first second name : String} (left : names first = some name) (right : names second = some name) :
    first = second := by
  obtain ⟨p, rule, headed, reads⟩ := (named.serves first name left).exists_rule
  have same := ((named.serves second name right).only_rule rule headed).2
  rw [reads] at same
  cases same
  rfl

theorem Names.separated {names : String → Option String} (found : Names names (longTerminals g.productions) g h)
    {p : Production}
    (rule : p ∈ h.productions) (long : isLong p.body = true) (token : String) : .terminal token ∉ p.body := by
  intro inBody
  obtain ⟨fresh, productions, heads⟩ := found.productions
  rw [productions, List.mem_append, List.mem_map] at rule
  rcases rule with ⟨origin, old, rfl⟩ | new
  · rw [isLong_namedRule] at long
    rw [namedRule_long long] at inBody
    obtain ⟨symbol, member, same⟩ := List.mem_map.1 inBody
    cases symbol with
    | terminal other =>
      obtain ⟨name, named⟩ := (found.known other).2 (mem_longTerminals.2 ⟨origin, old, long, member⟩)
      rw [Pass.named, named] at same
      cases same
    | nonterminal name => cases same
    | empty => cases same
  · obtain ⟨-, _, -, same⟩ := heads p new
    rw [same] at long
    cases long

/-- Over valid symbols the pass is never refused. Every production stays in its place, and just the
terminals of long bodies give way to names. Each of them has one name throughout, whose only production
is that terminal, and no two have the same; the helpers that are added have new names. The old names
derive what they derived before. -/
theorem separateTerminals_exact (closed : g.Closed)
    (valid : ∀ p ∈ g.productions, ∀ symbol ∈ p.body, Name.check symbol = .ok ()) :
    ∃ h names fresh, separateTerminals.run.Succeeds g () h ∧
      h.productions = g.productions.map (namedRule names) ++ fresh ∧
      (∀ p ∈ h.productions, isLong p.body = true → ∀ token, .terminal token ∉ p.body) ∧
      (∀ p ∈ g.productions, isLong p.body = false → namedRule names p = p) ∧
      (∀ token, (∃ name, names token = some name) ↔ ∃ p ∈ g.productions, isLong p.body = true ∧
        .terminal token ∈ p.body) ∧
      (∀ token name, names token = some name → Serves h.productions name [.terminal token]) ∧
      (∀ first second name, names first = some name → names second = some name → first = second) ∧
      (∀ q ∈ fresh, q.head ∉ g.nonterminals ∧
        ∃ token, names token = some q.head ∧ q = { head := q.head, body := [.terminal token] }) ∧
      ∀ name ∈ g.nonterminals, ∀ sentence, h.DerivesFrom name sentence ↔ g.DerivesFrom name sentence := by
  obtain ⟨_, h, ran⟩ := runs_separateAll valid
  obtain ⟨names, found⟩ := names_of_separates closed (Closure.extend_nodup List.nodup_nil) (succeeds_separateAll.1 ran)
  obtain ⟨fresh, productions, heads⟩ := found.productions
  refine ⟨h, names, fresh, ran, productions, fun p => found.separated, fun p _ => namedRule_short, fun token => ?_,
    found.serves, fun _ _ _ => found.injective, heads, (conserves_of_separateAll closed ran).derives⟩
  exact (found.known token).trans mem_longTerminals

-- Escaped, the brace is u7B; T-a has two rules and T-b another one, and T-c has none.
def escapedText : String :=
  "S = '\x7b' 'u7B' | 'a' 'b' 'c' S | T-a T-b T-c | '\x7b' | '' 'a' ;\nT-a = 'a' | 'b' ;\nT-b = 'c' ;"

def escapedSample : Reading.Sample .plain
    escapedText (fun _ => true) :=
  .ofChars rfl (by decide +kernel)

theorem separateTerminals_exact_of_escaped : ∃ g, Reading.readText .plain
    escapedText = .ok g ∧ g.Closed ∧
      (∀ p ∈ g.productions, ∀ symbol ∈ p.body, Name.check symbol = .ok ()) ∧
      ∃ h names fresh, separateTerminals.run.Succeeds g () h ∧
        h.productions = g.productions.map (namedRule names) ++ fresh ∧
        (∀ token name, names token = some name → Serves h.productions name [.terminal token]) ∧
        (∀ first second name, names first = some name → names second = some name → first = second) := by
  obtain ⟨g, read, -⟩ := escapedSample
  have closed := (Reading.coherent_of_readText read).closed
  have valid : ∀ p ∈ g.productions, ∀ symbol ∈ p.body, Name.check symbol = .ok () := fun p rule =>
    ((Reading.legal_of_readText read).production closed rule).body
  obtain ⟨h, names, fresh, ran, productions, -, -, -, serves, injective, -, -⟩ := separateTerminals_exact closed valid
  exact ⟨g, read, closed, valid, h, names, fresh, ran, productions, serves, injective⟩

end ContextFree.Pass
