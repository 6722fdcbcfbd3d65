import ContextFree.Proofs.Pass.Orderly
import ContextFree.Proofs.Pipeline
import ContextFree.Proofs.Reading.RoundTrip

namespace ContextFree

open Edit Pass

variable {g h c : Grammar} {u : Unit}

namespace Pass

variable {P : Grammar → Prop}

theorem head?_add (table : Table) (name : String) :
    (table.add name).names.head? = table.names.head?.or (some name) := by
  rw [Table.names_add]
  cases names : table.names with
  | nil => rfl
  | cons first rest => split <;> rfl

theorem head?_putBody {first : String} (body : Body) (leads : g.nonterminals.names.head? = some first) :
    (putBody body g).nonterminals.names.head? = some first := by
  unfold putBody
  induction body generalizing g with
  | nil => exact leads
  | cons symbol rest ih =>
    refine ih ?_
    cases symbol with
    | nonterminal name => exact (head?_add g.nonterminals name).trans (by rw [leads, Option.some_or])
    | _ => exact leads

theorem led_added (p : Production) (led : g.Led) : (g.added p).Led := by
  have front : (g.added p).nonterminals.names.head? = g.nonterminals.names.head?.or (some p.head) := by
    have head : (putNonterminal p.head g).nonterminals.names.head? = g.nonterminals.names.head?.or (some p.head) :=
      head?_add g.nonterminals p.head
    cases names : g.nonterminals.names.head? with
    | none =>
      rw [names] at head
      exact head?_putBody p.body head
    | some first =>
      rw [names] at head
      exact head?_putBody p.body head
  rw [Grammar.Led, front, Grammar.start_added, led]

theorem led_dropNonterminal {name : String} (other : g.start ≠ some name) (led : g.Led) :
    (dropNonterminal name g).Led := by
  change g.start = (g.nonterminals.names.erase name).head?
  rw [Grammar.Led] at led
  cases names : g.nonterminals.names with
  | nil => rw [led, names, List.erase_nil]
  | cons first rest =>
    rw [led, names] at other
    rw [led, names, List.erase_cons_tail]
    · rfl
    · exact fun same => other (congrArg some (eq_of_beq same))

theorem stable_led : Stable Grammar.Led where
  productions _ _ _ led := led
  dropped g symbol bare led := by
    cases symbol with
    | nonterminal name => exact led_dropNonterminal (bare name rfl).1 led
    | _ => exact led
  helped _ p _ _ _ _ led := led_added p led
  attributes _ _ led := led
  added _ p _ _ led := led_added p led

theorem Stable.of_run {kind : Kind} {passes : List Pass} (stable : Stable P) (listed : passes ⊆ Pipeline.standard kind)
    (ran : (Pipeline.run false passes g).result = .ok c) (holds : P g) : P c := by
  induction passes generalizing g with
  | nil =>
    rw [← Pipeline.run_nil_iff.1 ran]
    exact holds
  | cons pass rest ih =>
    obtain ⟨h, one, others⟩ := Pipeline.run_cons_iff.1 ran
    rw [List.cons_subset] at listed
    exact ih listed.2 others ((stable.keeps_pass listed.1).of_succeeds one holds)

end Pass

namespace Pipeline

theorem Shaped.keeps {P : Grammar → Prop} {full proper useful separated : Grammar}
    (shaped : Shaped g full proper useful separated c) (robust : Robust P) (holds : P proper) : P c := by
  have usefulHolds := robust.keeps_removeUseless.of_succeeds shaped.uselessRan holds
  have separatedHolds := robust.keeps_separateAll.of_succeeds shaped.separateRan usefulHolds
  exact robust.keeps_splitAll.of_succeeds shaped.splitRan separatedHolds

theorem tight_of_shaping (coherent : g.Coherent) (ran : (run false shaping g).result = .ok c)
    (some : c.productions ≠ []) :
    c.Tight := by
  obtain ⟨full, proper, useful, separated, shaped⟩ := exists_shaped coherent ran
  -- The last two passes have nothing to do where nothing useful is left.
  have left : useful.productions ≠ [] := by
    intro bare
    have same := eq_of_separateAll bare shaped.separateRan
    rw [← same] at bare
    rw [eq_of_splitAll (by simp [bare]) shaped.splitRan] at some
    exact some bare
  have tight :=
    tight_of_separateAll shaped.coherent.closed (tight_of_removeUseless shaped.uselessRan left) shaped.separateRan
  exact tight_of_splitAll shaped.separating.closed shaped.separates tight shaped.splitRan

theorem orderly_of_shaping (coherent : g.Coherent) (orderly : g.Orderly)
    (ran : (run false shaping g).result = .ok c) : c.Orderly := by
  obtain ⟨full, proper, useful, separated, shaped⟩ := exists_shaped coherent ran
  have fullOrderly := orderly_of_removeEmptyString orderly shaped.emptyRan
  exact shaped.keeps robust_orderly (orderly_of_removeUnits fullOrderly shaped.unitsRan)

theorem orderly_weighed (orderly : g.Orderly) (kind : Kind) : (weighed kind g).Orderly := by
  cases kind with
  | plain => exact orderly
  | weighted => exact orderly.with_productions fun p rule => orderly.fits p (List.mem_filter.1 rule).1

section Read

variable {source kind : Kind} {text : String}

theorem readable_of_standard (read : Reading.readText source text = .ok g)
    (ran : (run false (standard kind) g).result = .ok c) (some : c.productions ≠ []) : c.Readable := by
  have coherent := Reading.coherent_of_readText read
  have normalised := normalised_of_standard coherent ran
  have shaping := run_standard ran
  have tight := tight_of_shaping (coherent_weighed coherent kind) shaping some
  have orderly := orderly_of_shaping (coherent_weighed coherent kind)
    (orderly_weighed (Reading.readable_of_readText read).orderly kind) shaping
  have legal := stable_legal.of_run (List.Subset.refl _) ran (Reading.legal_of_readText read)
  have led := stable_led.of_run (List.Subset.refl _) ran (Reading.assembled_of_readText read).led
  refine .of_tight tight normalised.coherent legal orderly led fun p rule bare => ?_
  have normal := List.all_eq_true.1 normalised.normal p rule
  rw [bare] at normal
  cases normal

/-- What a grammar is converted to, if it has a production, is read again from its own text. -/
theorem readText_text_of_standard (read : Reading.readText source text = .ok g)
    (ran : (run false (standard kind) g).result = .ok c) (rules : c.productions ≠ []) :
    ∃ d, Reading.readText source c.text = .ok d ∧ Grammar.ReadsAs c d := by
  have same := (stable_kind source).of_run (List.Subset.refl _) ran (Reading.kind_of_readText read)
  rw [← same]
  exact Reading.readsAs_of_readable (readable_of_standard read ran rules) rules

theorem exists_converted_rules (source kind : Kind) (text : String) {chars : List Char}
    (spelled : String.ofList chars = text)
    (ends : (Reading.readChars source chars).toOption.any (fun g =>
      (run false (standard kind) g).result.toOption.any fun c => !c.isEmpty) = true) :
    ∃ g c, Reading.readText source text = .ok g ∧ (run false (standard kind) g).result = .ok c ∧
      c.productions ≠ [] := by
  obtain ⟨g, read, passes⟩ := Reading.exists_of_written source text spelled _ ends
  cases ran : (run false (standard kind) g).result with
  | error failure =>
    rw [ran] at passes
    cases passes
  | ok c =>
    rw [ran] at passes
    refine ⟨g, c, read, ran, fun none => ?_⟩
    have filled : (!c.productions.isEmpty) = true := passes
    rw [none] at filled
    cases filled

-- S takes over the attribute weight of A together with the attribute, and both get helpers.
def annotatedUnitText : String :=
  "S -1-> A\x7ba,b\x7d ;\nA\x7ba;b\x7d -&a-> 'x' S '->' ;\nA\x7ba;\x7d -2-> ';' ;"

theorem readText_text_of_standard_with_blocks : ∃ g c,
    Reading.readText .weighted annotatedUnitText = .ok g ∧
      (run false (standard .weighted) g).result = .ok c ∧ c.productions ≠ [] ∧
      ∃ d, Reading.readText .weighted c.text = .ok d ∧ Grammar.ReadsAs c d := by
  obtain ⟨g, c, read, ran, rules⟩ := exists_converted_rules .weighted .weighted
    annotatedUnitText rfl (by decide +kernel)
  exact ⟨g, c, read, ran, rules, readText_text_of_standard read ran rules⟩

end Read

end Pipeline

end ContextFree
