import ContextFree.Proofs.Derivation.Weighed
import ContextFree.Proofs.PairHelpers
import ContextFree.Proofs.TerminalHelpers

namespace ContextFree.Pass

open Edit

variable {g h : Grammar}

/-- Each production is rewritten in its place and keeps its head and its weight, and what stands behind is new and
weighs one. Each name that is written has one production, which reads like what was there before. -/
structure Rewrites (rewrite : Production → Production) (written : String → Body → Prop) (g h : Grammar) : Prop where
  keeps : ∀ p, (rewrite p).head = p.head ∧ (rewrite p).weight = p.weight
  productions : ∃ fresh, h.productions = g.productions.map rewrite ++ fresh ∧
    ∀ q ∈ fresh, q.head ∉ g.nonterminals ∧ q.weight = .one
  serves : ∀ name body, written name body → Serves h.productions name body

/-- A name that is written weighs one unless a production that was there has it and weighs something else; and if none
does, the trees of the old names read the same sentences for the same weights. -/
structure Helps (rewrite : Production → Production) (written : String → Body → Prop) (g h : Grammar) : Prop
    extends Rewrites rewrite written g h where
  neutral_iff : ∀ name body, written name body →
    (Neutral h.productions name body ↔ ∀ p ∈ g.productions, p.head = name → p.weight = .one)
  trees : (∀ name body, written name body → Neutral h.productions name body) →
    ∀ name ∈ g.nonterminals, ∀ sentence factors,
      (∃ tree : Forest h.productions [.nonterminal name], tree.sentence? = some sentence ∧ tree.factors = factors) ↔
        ∃ tree : Forest g.productions [.nonterminal name], tree.sentence? = some sentence ∧ tree.factors = factors

namespace Rewrites

variable {rewrite : Production → Production} {written : String → Body → Prop} {name : String} {body : Body}
  {sentence : Sentence} {factors : List Weight}

section

variable (rewrites : Rewrites rewrite written g h)

include rewrites

theorem mem_rewritten {p : Production} (rule : p ∈ g.productions) : rewrite p ∈ h.productions := by
  obtain ⟨fresh, productions, -⟩ := rewrites.productions
  rw [productions]
  exact List.mem_append_left _ (List.mem_map_of_mem rule)

theorem origin {q : Production} (rule : q ∈ h.productions) :
    (∃ p ∈ g.productions, q = rewrite p) ∨ (q.head ∉ g.nonterminals ∧ q.weight = .one) := by
  obtain ⟨fresh, productions, new⟩ := rewrites.productions
  rw [productions, List.mem_append, List.mem_map] at rule
  rcases rule with ⟨p, old, rfl⟩ | late
  · exact Or.inl ⟨p, old, rfl⟩
  · exact Or.inr (new q late)

theorem neutral_iff (asked : written name body) :
    Neutral h.productions name body ↔ ∀ p ∈ g.productions, p.head = name → p.weight = .one := by
  constructor
  · intro neutral p rule headed
    obtain ⟨head, weight⟩ := rewrites.keeps p
    rw [← weight]
    exact neutral.one (rewrites.mem_rewritten rule) (head.trans headed)
  · intro one
    obtain ⟨q, rule, headed, reads⟩ := (rewrites.serves name body asked).exists_rule
    obtain ⟨found, -⟩ := (rewrites.serves name body asked).only_rule rule headed
    refine ⟨q, found, reads, ?_⟩
    rcases rewrites.origin rule with ⟨p, old, rfl⟩ | ⟨-, weighs⟩
    · obtain ⟨head, weight⟩ := rewrites.keeps p
      rw [weight]
      exact one p old (head.symm.trans headed)
    · exact weighs

/-- The induction is on the levels: a body is unfolded in the new productions first, where that costs no level. -/
theorem weighs_of_new (closed : g.Closed)
    (opens : ∀ p ∈ g.productions, ∀ {levels sentence factors},
      Weighs h.productions levels (rewrite p).body sentence factors →
        Weighs h.productions levels p.body sentence factors)
    (bound : Nat) (known : ∀ name, .nonterminal name ∈ body → name ∈ g.nonterminals)
    (weighs : Weighs h.productions bound body sentence factors) : Weighs g.productions bound body sentence factors := by
  induction bound generalizing body sentence factors with
  | zero => exact weighs.of_zero
  | succ bound ih =>
    refine weighs.transport fun name member sentence factors reads => ?_
    obtain ⟨q, rule, rfl, lower, inner, below, rfl, result⟩ := Weighs.nonterminal_iff.1 reads
    obtain ⟨p, old, rfl⟩ := (rewrites.origin rule).resolve_right fun new => new.1 (known _ member)
    obtain ⟨head, weight⟩ := rewrites.keeps p
    have within : lower ≤ bound := by simpa using below
    have source :=
      ih (fun name inside => (closed p old).2 (.nonterminal name) inside) ((opens p old result).mono within)
    rw [weight]
    exact Weighs.nonterminal_iff.2 ⟨p, old, head.symm, bound, inner, le_of_eq (Nat.cast_succ bound).symm, rfl, source⟩

theorem weighs_of_old (folds : ∀ p ∈ g.productions, ∀ {sentence factors},
      Weighs h.productions ⊤ p.body sentence factors → Weighs h.productions ⊤ (rewrite p).body sentence factors)
    (bound : Nat) (weighs : Weighs g.productions bound body sentence factors) :
    Weighs h.productions ⊤ body sentence factors := by
  induction bound generalizing body sentence factors with
  | zero => exact weighs.of_zero
  | succ bound ih =>
    refine weighs.transport fun name member sentence factors reads => ?_
    obtain ⟨p, rule, rfl, lower, inner, below, rfl, source⟩ := Weighs.nonterminal_iff.1 reads
    obtain ⟨head, weight⟩ := rewrites.keeps p
    have within : lower ≤ bound := by simpa using below
    have result := folds p rule (ih (source.mono within))
    refine Weighs.nonterminal_iff.2 ⟨rewrite p, rewrites.mem_rewritten rule, head, ⊤, inner, le_top, ?_, result⟩
    rw [weight]

theorem helps (closed : g.Closed)
    (opens : (∀ name body, written name body → Neutral h.productions name body) → ∀ p ∈ g.productions,
      ∀ {levels sentence factors}, Weighs h.productions levels (rewrite p).body sentence factors →
        Weighs h.productions levels p.body sentence factors)
    (folds : (∀ name body, written name body → Neutral h.productions name body) → ∀ p ∈ g.productions,
      ∀ {sentence factors}, Weighs h.productions ⊤ p.body sentence factors →
        Weighs h.productions ⊤ (rewrite p).body sentence factors) : Helps rewrite written g h where
  toRewrites := rewrites
  neutral_iff _ _ := rewrites.neutral_iff
  trees neutral name known sentence factors := by
    rw [← Weighs.top_iff, ← Weighs.top_iff]
    constructor
    · intro weighs
      obtain ⟨bound, weighs⟩ := weighs.bounded
      refine (rewrites.weighs_of_new closed (opens neutral) bound (fun other member => ?_) weighs).mono le_top
      cases List.mem_singleton.1 member
      exact known
    · intro weighs
      obtain ⟨bound, weighs⟩ := weighs.bounded
      exact rewrites.weighs_of_old (folds neutral) bound weighs

end

end Rewrites

section Terminals

variable {ps : List Production} {names : String → Option String} {p : Production} {levels : ℕ∞} {sentence : Sentence}
  {factors : List Weight}

/-- The name is written in place of a terminal. -/
def ForTerminal (names : String → Option String) (name : String) (body : Body) : Prop :=
  ∃ token, names token = some name ∧ body = [.terminal token]

theorem namedRule_keeps (names : String → Option String) (p : Production) :
    (namedRule names p).head = p.head ∧ (namedRule names p).weight = p.weight := by
  unfold namedRule
  split <;> exact ⟨rfl, rfl⟩

theorem named_cases (names : String → Option String) (symbol : Symbol) :
    named names symbol = symbol ∨
      ∃ token name, symbol = .terminal token ∧ names token = some name ∧ named names symbol = .nonterminal name := by
  cases symbol with
  | terminal token =>
    cases found : names token with
    | none => exact Or.inl (by rw [named, found]; rfl)
    | some name => exact Or.inr ⟨token, name, rfl, found, by rw [named, found]; rfl⟩
  | nonterminal name => exact Or.inl rfl
  | empty => exact Or.inl rfl

theorem opens_namedRule (neutral : ∀ name body, ForTerminal names name body → Neutral ps name body)
    (weighs : Weighs ps levels (namedRule names p).body sentence factors) :
    Weighs ps levels p.body sentence factors := by
  unfold namedRule at weighs
  split at weighs
  · rw [← List.map_id p.body]
    refine weighs.map_symbols fun symbol _ sentence factors reads => ?_
    rcases named_cases names symbol with same | ⟨token, name, rfl, found, same⟩
    · rwa [same] at reads
    · rw [same] at reads
      exact (neutral name _ ⟨token, found, rfl⟩).opens reads
  · exact weighs

theorem folds_namedRule (neutral : ∀ name body, ForTerminal names name body → Neutral ps name body)
    (weighs : Weighs ps ⊤ p.body sentence factors) : Weighs ps ⊤ (namedRule names p).body sentence factors := by
  unfold namedRule
  split
  · rw [← List.map_id p.body] at weighs
    refine weighs.map_symbols fun symbol _ sentence factors reads => ?_
    rcases named_cases names symbol with same | ⟨token, name, rfl, found, same⟩
    · rwa [same]
    · rw [same]
      exact (neutral name _ ⟨token, found, rfl⟩).folds reads
  · exact weighs

theorem helps_of_separateAll {u : Unit} (closed : g.Closed) (ran : separateAll.Succeeds g u h) :
    ∃ names, Helps (namedRule names) (ForTerminal names) g h := by
  obtain ⟨names, found⟩ := names_of_separates closed (Closure.extend_nodup List.nodup_nil) (succeeds_separateAll.1 ran)
  have rewrites : Rewrites (namedRule names) (ForTerminal names) g h := by
    refine ⟨namedRule_keeps names, ?_, ?_⟩
    · obtain ⟨fresh, productions, heads⟩ := found.productions
      refine ⟨fresh, productions, fun q new => ⟨(heads q new).1, ?_⟩⟩
      obtain ⟨-, token, -, same⟩ := heads q new
      rw [same]
    · rintro name _ ⟨token, named, rfl⟩
      exact found.serves token name named
  exact ⟨names, rewrites.helps closed (fun neutral _ _ => opens_namedRule neutral) fun neutral _ _ =>
    folds_namedRule neutral⟩

end Terminals

section PairsOfSymbols

variable {ps : List Production} {names : Symbol × Symbol → String} {symbol : Symbol} {row : List Symbol} {levels : ℕ∞}
  {sentence : Sentence} {factors : List Weight}

/-- The name is written in place of the last two symbols, where a body of these productions is split. -/
def ForPair (names : Symbol × Symbol → String) (productions : List Production) (name : String) (body : Body) : Prop :=
  ∃ p ∈ productions, ∃ pair ∈ pairsOf names p.body.tail, name = names pair ∧ body = [pair.1, pair.2]

theorem opens_standIn (neutral : ∀ pair ∈ pairsOf names (symbol :: row), Neutral ps (names pair) [pair.1, pair.2])
    (weighs : Weighs ps levels [standIn names symbol row] sentence factors) :
    Weighs ps levels (symbol :: row) sentence factors := by
  induction row generalizing symbol sentence factors with
  | nil => exact weighs
  | cons next rest ih =>
    have pair := (neutral (symbol, standIn names next rest) List.mem_cons_self).opens weighs
    exact pair.tail fun later => ih (fun pair inside => neutral pair (List.mem_cons_of_mem _ inside)) later

theorem folds_standIn (neutral : ∀ pair ∈ pairsOf names (symbol :: row), Neutral ps (names pair) [pair.1, pair.2])
    (weighs : Weighs ps ⊤ (symbol :: row) sentence factors) :
    Weighs ps ⊤ [standIn names symbol row] sentence factors := by
  induction row generalizing symbol sentence factors with
  | nil => exact weighs
  | cons next rest ih =>
    have pair : Weighs ps ⊤ [symbol, standIn names next rest] sentence factors :=
      weighs.tail fun later => ih (fun pair inside => neutral pair (List.mem_cons_of_mem _ inside)) later
    exact (neutral (symbol, standIn names next rest) List.mem_cons_self).folds pair

theorem opens_binarized {body : Body}
    (neutral : ∀ pair ∈ pairsOf names body.tail, Neutral ps (names pair) [pair.1, pair.2])
    (weighs : Weighs ps levels (binarized names body) sentence factors) : Weighs ps levels body sentence factors := by
  unfold binarized at weighs
  split at weighs
  · exact weighs.tail fun later => opens_standIn neutral later
  · exact weighs

theorem folds_binarized {body : Body}
    (neutral : ∀ pair ∈ pairsOf names body.tail, Neutral ps (names pair) [pair.1, pair.2])
    (weighs : Weighs ps ⊤ body sentence factors) : Weighs ps ⊤ (binarized names body) sentence factors := by
  unfold binarized
  split
  · exact weighs.tail fun later => folds_standIn neutral later
  · exact weighs

theorem helps_of_splitAll {u : Unit} (closed : g.Closed) (ran : splitAll.Succeeds g u h) :
    ∃ names, Helps (splitRule names) (ForPair names g.productions) g h := by
  rw [succeeds_splitAll, List.range_eq_range'] at ran
  obtain ⟨more, done, fresh, -, served, productions, heads, told⟩ :=
    binarizes_of_splitEach closed (by simp [AllServed]) (listed_all g) ran
  obtain ⟨rfl, made, remembered⟩ := told (nameIn more) (follows_nameIn more)
  have rewrites : Rewrites (splitRule (nameIn more)) (ForPair (nameIn more) g.productions) g h := by
    refine ⟨fun p => ⟨rfl, rfl⟩, ⟨fresh, productions, fun q new => ⟨heads q new, ?_⟩⟩, ?_⟩
    · obtain ⟨p, -, pair, -, rfl⟩ := made q new
      rfl
    · rintro _ _ ⟨p, rule, pair, inside, rfl, rfl⟩
      obtain ⟨name, found⟩ := remembered p rule pair inside
      rw [follows_nameIn more pair name found]
      exact served pair.1 pair.2 name (mem_of_lookup found)
  refine ⟨nameIn more, rewrites.helps closed (fun neutral p rule => ?_) fun neutral p rule => ?_⟩
  · exact opens_binarized fun pair inside => neutral _ _ ⟨p, rule, pair, inside, rfl, rfl⟩
  · exact folds_binarized fun pair inside => neutral _ _ ⟨p, rule, pair, inside, rfl, rfl⟩

end PairsOfSymbols

/-- Of a text that is read, for either pass and for both in turn: each name that is written has one production, which
weighs one just where all of this name that were there do. If that is so for each of them, derivations weigh what they
weighed before. -/
theorem helpers_neutral {kind : Kind} {text : String} (read : Reading.readText kind text = .ok g) :
    (∃ k, separateTerminals.run.Succeeds g () k ∧ (∃ names, Helps (namedRule names) (ForTerminal names) g k) ∧
      ∀ h, splitBodies.run.Succeeds k () h → ∃ names, Helps (splitRule names) (ForPair names k.productions) k h) ∧
    ∀ h, splitBodies.run.Succeeds g () h → ∃ names, Helps (splitRule names) (ForPair names g.productions) g h := by
  have closed := (Reading.coherent_of_readText read).closed
  obtain ⟨_, k, ran⟩ := runs_separateAll fun p rule => ((Reading.legal_of_readText read).production closed rule).body
  have between := (conserves_of_separateAll closed ran).closed
  exact ⟨⟨k, ran, helps_of_separateAll closed ran, fun h => helps_of_splitAll between⟩, fun h =>
    helps_of_splitAll closed⟩

-- T-a is there and weighs one, unlike the productions with long bodies.
def sharedHelperText : String := "S -0.5-> 'a' B 'a' ;\nB -2-> 'b' 'a' ;\nT-a -1-> 'a' ;"

def sharedHelperSample : Reading.Sample .weighted sharedHelperText (fun g =>
    decide (∀ q ∈ (separateTerminals.run g).grammar.productions, q.body.length = 1 → q.weight = .one) &&
      decide ("S" ∈ g.nonterminals)) := .ofChars rfl (by decide +kernel)

theorem helpers_neutral_of_sharing : ∃ g h,
    Reading.readText .weighted sharedHelperText = .ok g ∧
      separateTerminals.run.Succeeds g () h ∧
      ∃ names, (∀ name body, ForTerminal names name body → Neutral h.productions name body) ∧ ∀ sentence factors,
        (∃ tree : Forest h.productions [.nonterminal "S"], tree.sentence? = some sentence ∧ tree.factors = factors) ↔
          ∃ tree : Forest g.productions [.nonterminal "S"], tree.sentence? = some sentence ∧
            tree.factors = factors := by
  obtain ⟨g, read, passes⟩ := sharedHelperSample
  obtain ⟨short, known⟩ := Bool.and_eq_true_iff.1 passes
  obtain ⟨⟨h, ran, ⟨names, helps⟩, -⟩, -⟩ := helpers_neutral read
  have neutral : ∀ name body, ForTerminal names name body → Neutral h.productions name body := by
    rintro name _ ⟨token, found, rfl⟩
    obtain ⟨only, one, reads⟩ := helps.serves name _ ⟨token, found, rfl⟩
    have rule : only ∈ h.productions := (List.mem_filter.1 (one ▸ List.mem_singleton_self only)).1
    rw [← ran.2] at rule
    exact ⟨only, one, reads, of_decide_eq_true short only rule (by rw [reads]; rfl)⟩
  exact ⟨g, h, read, ran, names, neutral, helps.trees neutral "S" (of_decide_eq_true known)⟩

def outline (p : Production) : String × Body × Bool := (p.head, p.body, p.weight = .one)

theorem weighs_nil_iff {ps : List Production} {name : String} {sentence : Sentence} :
    Weighs ps ⊤ [.nonterminal name] sentence [] ↔
      ∃ body, (name, body, true) ∈ ps.map outline ∧ Weighs ps ⊤ body sentence [] := by
  simp only [List.mem_map, outline, Prod.mk.injEq, decide_eq_true_eq]
  constructor
  · intro weighs
    obtain ⟨p, rule, headed, lower, inner, -, product, reads⟩ := Weighs.nonterminal_iff.1 weighs
    obtain ⟨none, rfl⟩ := List.append_eq_nil_iff.1 product.symm
    refine ⟨p.body, ⟨p, rule, headed, rfl, ?_⟩, reads.mono le_top⟩
    simpa using none
  · rintro ⟨_, ⟨p, rule, rfl, rfl, one⟩, weighs⟩
    exact weighs.of_rule rule one

def heavyHelperText : String := "S -1-> 'a' B ;\nB -1-> 'b' ;\nT-a -0.5-> 'a' ;"

def heavyHelperSample : Reading.Sample .weighted heavyHelperText (fun g =>
    decide ((separateTerminals.run g).result = .ok ()) &&
    decide (g.productions.map outline =
      [("S", [.terminal "a", .nonterminal "B"], true), ("B", [.terminal "b"], true),
        ("T-a", [.terminal "a"], false)]) &&
    decide ((separateTerminals.run g).grammar.productions.map outline =
      [("S", [.nonterminal "T-a", .nonterminal "B"], true), ("B", [.terminal "b"], true),
        ("T-a", [.terminal "a"], false)])) :=
  .ofChars rfl (by decide +kernel)

/-- T-a is written for the terminal, and with it comes its weight into what S derives. -/
theorem separateTerminals_takes_weight : ∃ g h,
    Reading.readText .weighted heavyHelperText = .ok g ∧
      separateTerminals.run.Succeeds g () h ∧
      g.productions.map outline =
        [("S", [.terminal "a", .nonterminal "B"], true), ("B", [.terminal "b"], true),
          ("T-a", [.terminal "a"], false)] ∧
      h.productions.map outline =
        [("S", [.nonterminal "T-a", .nonterminal "B"], true), ("B", [.terminal "b"], true),
          ("T-a", [.terminal "a"], false)] ∧
      (∃ tree : Forest g.productions [.nonterminal "S"], tree.sentence? = some ["a", "b"] ∧ tree.factors = []) ∧
      ¬ ∃ tree : Forest h.productions [.nonterminal "S"], tree.sentence? = some ["a", "b"] ∧ tree.factors = [] := by
  obtain ⟨g, read, passes⟩ := heavyHelperSample
  rw [Bool.and_eq_true, Bool.and_eq_true] at passes
  obtain ⟨⟨finished, before⟩, after⟩ := passes
  have before := of_decide_eq_true before
  have after := of_decide_eq_true after
  refine ⟨g, (separateTerminals.run g).grammar, read, ⟨of_decide_eq_true finished, rfl⟩, before, after, ?_, ?_⟩
  · rw [← Weighs.top_iff, weighs_nil_iff, before]
    have below : Weighs g.productions ⊤ [.nonterminal "B"] ["b"] [] := by
      rw [weighs_nil_iff, before]
      exact ⟨[.terminal "b"], by decide, Weighs.terminal_iff.2 ⟨rfl, rfl⟩⟩
    have beside : Weighs g.productions ⊤ [.terminal "a"] ["a"] [] := Weighs.terminal_iff.2 ⟨rfl, rfl⟩
    exact ⟨_, List.mem_cons_self, Weighs.cons_iff.2 ⟨["a"], ["b"], [], [], rfl, rfl, beside, below⟩⟩
  · rw [← Weighs.top_iff, weighs_nil_iff, after]
    rintro ⟨body, listed, weighs⟩
    obtain rfl : body = [.nonterminal "T-a", .nonterminal "B"] := by simpa using listed
    obtain ⟨_, _, _, _, -, product, helper, -⟩ := Weighs.cons_iff.1 weighs
    obtain ⟨rfl, -⟩ := List.append_eq_nil_iff.1 product.symm
    obtain ⟨_, heavy, -⟩ := weighs_nil_iff.1 helper
    rw [after] at heavy
    simp at heavy

end ContextFree.Pass
