import ContextFree.Proofs.Edit.Reports
import ContextFree.Proofs.Pass.Totality
import ContextFree.Proofs.Reading.Coherent

namespace ContextFree.Pass

open Edit

variable {g k : Grammar} {text : String}

/-- The pass is never refused. No body is empty or mentions the empty string after it, each rule
stands once, and every nonterminal derives what it derived before, less the empty sentence. -/
theorem emptyString_exact (closed : g.Closed) (valid : ∀ p ∈ g.productions, checkProduction p = .ok ()) :
    ∃ h, emptyString.run.Succeeds g () h ∧
      (∀ p ∈ h.productions, p.body ≠ [] ∧ Symbol.empty ∉ p.body) ∧
      Production.Distinct h.productions ∧
      ∀ name sentence, h.DerivesFrom name sentence ↔ sentence ≠ [] ∧ g.DerivesFrom name sentence := by
  have legal : ∀ p ∈ g.productions, p.Legal := fun p rule =>
    (Production.checkProduction_iff_legal.1 (valid p rule)).2
  obtain ⟨_, h, ran⟩ := runs_removeEmptyString legal
  have varied := varied_of_removeEmptyString closed ran
  exact ⟨h, ran, fun p rule => varied.full rule, varied.distinct, varied.derives_iff⟩

def emptyBodiesText : String :=
  "S = A '' B | '' '' | S C | U ;\nA = '' ;\nB = 'b' | C ;\nC = D | '' ;\nD = C A ;\nE = '' 'e' ''  ;"

theorem emptyString_exact_of_cycle : ∃ g h,
    Reading.readText .plain emptyBodiesText = .ok g ∧
      g.Closed ∧ (∀ p ∈ g.productions, checkProduction p = .ok ()) ∧ emptyString.run.Succeeds g () h ∧
      ∀ name sentence, h.DerivesFrom name sentence ↔ sentence ≠ [] ∧ g.DerivesFrom name sentence := by
  obtain ⟨g, read, some⟩ := Reading.exists_of_written .plain
    emptyBodiesText rfl
    (fun g => g.productions.all fun p => !p.body.isEmpty) (by decide +kernel)
  have closed := (Reading.coherent_of_readText read).closed
  have valid : ∀ p ∈ g.productions, checkProduction p = .ok () := by
    intro p rule
    have filled : p.body ≠ [] := by simpa using List.all_eq_true.1 some p rule
    exact Production.checkProduction_iff_legal.2 ⟨filled, (Reading.legal_of_readText read).production closed rule⟩
  obtain ⟨h, ran, -, -, derives⟩ := emptyString_exact closed valid
  exact ⟨g, h, read, closed, valid, ran, derives⟩

theorem reports_removeEpsilons {Q : Message → Prop} (debug : ∀ text, Q ⟨.debug, text⟩) (names : List String) :
    (removeEpsilons names).Reports Q := by
  induction names with
  | nil => exact reports_pure _
  | cons name rest ih =>
    rw [removeEpsilons]
    refine reports_bind (reports_keepProductions _) fun removed => ?_
    split
    · exact ih
    · refine reports_bind reports_grammar fun k => ?_
      dsimp only
      split
      · refine reports_bind (reports_report (debug _)) fun _ =>
          reports_bind (reports_removeNonterminal name) fun _ => ?_
        exact reports_bind ih fun _ => reports_pure _
      · exact reports_bind ih fun _ => reports_pure _

theorem mem_log_warnOfStart {nullable : List String} : ⟨.warning, text⟩ ∈ (warnOfStart k nullable g).log ↔
    ∃ start, k.start = some start ∧ start ∈ nullable ∧
      text = "Start symbol `" ++ start ++ "` derives the empty string, which the converted grammar will not" := by
  unfold warnOfStart
  cases k.start with
  | none => simp
  | some start => by_cases null : start ∈ nullable <;> simp [warn, null]

theorem log_removeEmptyString {direct deleted : List String}
    (removed : (removeEpsilons g.nonterminals.names).Succeeds g (direct, deleted) k) :
    (removeEmptyString g).log = (removeEpsilons g.nonterminals.names g).log ++
      ⟨.debug, "Nullable nonterminals: " ++ String.intercalate ", " (Nullable.closure k direct)⟩ ::
        (warnOfStart k (Nullable.closure k direct) k).log := by
  obtain ⟨_, l, warned⟩ := runs_warnOfStart k (Nullable.closure k direct) k
  have rest : (takeProductions >>= fun productions => productions.forM fun p =>
      (variants (Nullable.closure k direct) deleted p).forM addNewRule).Reports fun _ => False := by
    refine reports_bind reports_takeProductions fun productions => ?_
    exact reports_forM fun _ _ => reports_forM fun q _ => reports_addNewRule q
  rw [removeEmptyString, log_bind_of_succeeds (succeeds_grammar.2 ⟨rfl, rfl⟩), log_bind_of_succeeds removed,
    log_bind_of_succeeds (succeeds_grammar.2 ⟨rfl, rfl⟩), log_bind_of_succeeds (succeeds_debug (u := ()) |>.2 rfl),
    log_bind_of_succeeds warned, log_eq_nil_of_reports rest l, List.append_nil]
  rfl

theorem mem_log_removeEmptyString {direct deleted : List String}
    (removed : (removeEpsilons g.nonterminals.names).Succeeds g (direct, deleted) k) :
    ⟨.warning, text⟩ ∈ (removeEmptyString g).log ↔ ∃ start, k.start = some start ∧ start ∈ Nullable.closure k direct ∧
      text = "Start symbol `" ++ start ++ "` derives the empty string, which the converted grammar will not" := by
  have early : ⟨.warning, text⟩ ∉ (removeEpsilons g.nonterminals.names g).log := by
    intro told
    have level := reports_removeEpsilons (Q := fun m => m.level = .debug) (fun _ => rfl) _ g _ told
    cases level
  rw [log_removeEmptyString removed, List.mem_append, List.mem_cons, mem_log_warnOfStart]
  simp [early]

/-- The nonterminals with an empty production are taken, and closed after their empty productions are
gone: these are all that derived the empty sentence before. The pass warns of the start symbol, and of
nothing else, just if it is one of them. -/
theorem nullable_exact_and_reported (closed : g.Closed) : ∃ direct deleted k,
    (removeEpsilons g.nonterminals.names).Succeeds g (direct, deleted) k ∧
      (∀ name, name ∈ Nullable.closure k direct ↔ g.DerivesFrom name []) ∧
      ∀ text, ⟨.warning, text⟩ ∈ (emptyString.run g).log ↔ ∃ start, g.start = some start ∧ g.DerivesFrom start [] ∧
        text = "Start symbol `" ++ start ++ "` derives the empty string, which the converted grammar will not" := by
  have known : ∀ name ∈ g.nonterminals.names, name ∈ g.nonterminals := fun _ listed => listed
  obtain ⟨⟨direct, deleted⟩, k, removed⟩ := runs_removeEpsilons g.nonterminals.distinct known
  have cleared := cleared_of_removeEpsilons removed
  have exact := cleared.exact closed
  refine ⟨direct, deleted, k, removed, exact.nullable_iff, fun text => ?_⟩
  have same : ∀ start, start ∈ Nullable.closure k direct ↔ g.DerivesFrom start [] := exact.nullable_iff
  rw [show emptyString.run g = removeEmptyString g from rfl, mem_log_removeEmptyString removed, cleared.start]
  simp only [same]

-- Only A has an empty production. B, D and S follow from it, one in each round of the closure.
def nullableText : String :=
  "S = B '' D | S S ;\nA = '' | 'a' ;\nB = '' A '' ;\nC = 'c' | C A ;\nD = B B | C ;"

def nullableSample : Reading.Sample .plain nullableText
    (fun g => (emptyString.run g).log.contains
      ⟨.warning,
        "Start symbol `S` derives the empty string, which the converted grammar will not"⟩ && g.start == some "S") :=
  .ofChars rfl (by decide +kernel)

theorem nullable_reported_of_cycle : ∃ g,
    Reading.readText .plain nullableText = .ok g ∧
      g.Closed ∧ g.DerivesFrom "S" [] ∧ ∃ direct deleted k,
        (removeEpsilons g.nonterminals.names).Succeeds g (direct, deleted) k ∧
          (∀ name, name ∈ Nullable.closure k direct ↔ g.DerivesFrom name []) ∧
          ∀ text, ⟨.warning, text⟩ ∈ (emptyString.run g).log ↔ ∃ start, g.start = some start ∧ g.DerivesFrom start [] ∧
            text = "Start symbol `" ++ start ++ "` derives the empty string, which the converted grammar will not" := by
  obtain ⟨g, read, told⟩ := nullableSample
  have closed := (Reading.coherent_of_readText read).closed
  obtain ⟨warned, started⟩ := Bool.and_eq_true_iff.1 told
  obtain ⟨_, _, _, -, -, reported⟩ := nullable_exact_and_reported closed
  obtain ⟨start, first, derived, -⟩ := (reported _).1 (List.contains_iff_mem.1 warned)
  obtain rfl : start = "S" := Option.some.inj (first.symm.trans (eq_of_beq started))
  exact ⟨g, read, closed, derived, nullable_exact_and_reported closed⟩

end ContextFree.Pass
