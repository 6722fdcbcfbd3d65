import ContextFree.Proofs.Reading.RoundTrip

namespace ContextFree

open Text

namespace Grammar

def linesOf (g : Grammar) (head : String) : List String :=
  match g.kind with
  | .plain => [g.plainLine head]
  | .weighted => (g.productionsOf head).map g.weightedLine

def mentionedHeads (g : Grammar) : List String :=
  (Production.nonterminals g.grouped).eraseDups.filter fun name => !(g.productionsOf name).isEmpty

section Lines

variable {g d : Grammar} {names others : List String}

theorem textLines_eq (g : Grammar) : g.textLines = g.heads.flatMap g.linesOf := by
  unfold textLines linesOf
  cases g.kind with
  | plain => exact List.map_eq_flatMap
  | weighted => rfl

/-- The groups of productions show in which order their heads stand. -/
theorem eq_of_flatMap_productionsOf (some : ∀ name ∈ names, g.productionsOf name ≠ [])
    (others_some : ∀ name ∈ others, g.productionsOf name ≠ [])
    (same : names.flatMap g.productionsOf = others.flatMap g.productionsOf) : names = others := by
  induction names generalizing others with
  | nil =>
    cases others with
    | nil => rfl
    | cons other more =>
      rw [List.flatMap_nil, List.flatMap_cons] at same
      exact absurd (List.append_eq_nil_iff.1 same.symm).1 (others_some other List.mem_cons_self)
  | cons name rest ih =>
    rw [List.forall_mem_cons] at some
    cases others with
    | nil =>
      rw [List.flatMap_nil, List.flatMap_cons] at same
      exact absurd (List.append_eq_nil_iff.1 same).1 some.1
    | cons other more =>
      rw [List.forall_mem_cons] at others_some
      rw [List.flatMap_cons, List.flatMap_cons] at same
      have first : name = other := by
        obtain ⟨p, _, group⟩ := List.exists_cons_of_ne_nil some.1
        obtain ⟨q, _, otherGroup⟩ := List.exists_cons_of_ne_nil others_some.1
        have head : p.head = name := (mem_productionsOf.1 (by rw [group]; exact List.mem_cons_self)).2
        have otherHead : q.head = other := (mem_productionsOf.1 (by rw [otherGroup]; exact List.mem_cons_self)).2
        rw [group, otherGroup, List.cons_append, List.cons_append] at same
        rw [← head, ← otherHead, List.head_eq_of_cons_eq same]
      subst first
      rw [ih some.2 others_some.2 (List.append_cancel_left same)]

namespace ReadsAs

theorem symbolText (readsAs : ReadsAs g d) (orderly : g.Orderly) (reorderly : d.Orderly) (symbol : Symbol) :
    d.symbolText symbol = g.symbolText symbol := by
  have tokens : d.symbolToken symbol = g.symbolToken symbol := by
    cases symbol with
    | nonterminal name => rw [symbolToken, symbolToken, readsAs.attributes]
    | _ => rfl
  rw [← text_symbolToken reorderly.unattributed, ← text_symbolToken orderly.unattributed, tokens]

theorem linesOf (readsAs : ReadsAs g d) (orderly : g.Orderly) (reorderly : d.Orderly) (head : String) :
    d.linesOf head = g.linesOf head := by
  have bodies : d.bodyText = g.bodyText := by
    funext body
    rw [bodyText, bodyText, funext (readsAs.symbolText orderly reorderly)]
  unfold Grammar.linesOf
  rw [readsAs.kind]
  cases kind : g.kind with
  | plain =>
    simp only [plainLine, readsAs.productions, bodies]
  | weighted =>
    have weighted : d.kind = .weighted := readsAs.kind.trans kind
    simp only [readsAs.productions]
    refine List.map_congr_left fun p _ => ?_
    rw [weightedLine, weightedLine, bodies, ← text_headToken weighted, ← text_headToken kind, headToken, headToken,
      readsAs.attributes]

theorem perm_heads (readsAs : ReadsAs g d) : d.heads.Perm g.heads := by
  refine (List.perm_ext_iff_of_nodup (nodup_heads d) (nodup_heads g)).2 fun name => ?_
  rw [mem_heads, mem_heads, readsAs.nonterminals, readsAs.productions]

end ReadsAs

end Lines

end Grammar

namespace Reading

open Grammar

section Rereading

variable {kind : Kind} {text : String} {g d : Grammar}

theorem productions_of_readText_text (read : readText kind text = .ok g) (rules : g.productions ≠ [])
    (again : readText kind g.text = .ok d) : d.productions = g.grouped := by
  have readable := readable_of_readText read
  rw [← kind_of_readText read] at again
  have lays := lays_text readable.orderly readable.filled readable.legal rules
  rw [(describes_of_readText again lays).productions, productions_writtenRules readable.orderly]

theorem heads_of_readText_text (read : readText kind text = .ok g) (rules : g.productions ≠ [])
    (again : readText kind g.text = .ok d) (readsAs : ReadsAs g d) : d.heads = g.mentionedHeads := by
  rw [heads, mentionedHeads, (assembled_of_readText again).nonterminals, productions_of_readText_text read rules again]
  simp only [readsAs.productions]

theorem productions_ne_nil_of_readsAs (rules : g.productions ≠ []) (readsAs : ReadsAs g d) : d.productions ≠ [] := by
  obtain ⟨p, rule⟩ := List.exists_mem_of_ne_nil _ rules
  have again : p ∈ d.productionsOf p.head := by
    rw [readsAs.productions]
    exact mem_productionsOf.2 ⟨rule, rfl⟩
  exact List.ne_nil_of_mem (mem_productionsOf.1 again).1

theorem heads_eq_of_text_eq (read : readText kind text = .ok g) (rules : g.productions ≠ [])
    (again : readText kind g.text = .ok d) (readsAs : ReadsAs g d) (same : d.text = g.text) : d.heads = g.heads := by
  have groups : d.productionsOf = g.productionsOf := funext readsAs.productions
  have grouped : d.grouped = g.grouped := by
    have rereads : readText kind d.text = .ok d := by rw [same, again]
    rw [← productions_of_readText_text again (productions_ne_nil_of_readsAs rules readsAs) rereads,
      productions_of_readText_text read rules again]
  rw [Grammar.grouped, Grammar.grouped, groups] at grouped
  refine eq_of_flatMap_productionsOf (fun name listed => ?_) (fun name listed => (mem_heads.1 listed).2) grouped
  rw [← groups]
  exact (mem_heads.1 listed).2

/-- The text of a grammar that was read is read, and written again it has the same lines in the order
in which it first mentions their heads. It comes out as it was just if they stand in that order
already. -/
theorem text_of_readText_text (read : readText kind text = .ok g) (rules : g.productions ≠ []) :
    ∃ d, readText kind g.text = .ok d ∧ d.textLines = g.mentionedHeads.flatMap g.linesOf ∧
      d.textLines.Perm g.textLines ∧ (d.text = g.text ↔ g.mentionedHeads = g.heads) := by
  have readable := readable_of_readText read
  have kind_eq := kind_of_readText read
  obtain ⟨d, again, readsAs⟩ := readsAs_of_readable readable rules
  rw [kind_eq] at again
  have heads := heads_of_readText_text read rules again readsAs
  have lines : d.linesOf = g.linesOf :=
    funext (readsAs.linesOf readable.orderly (readable_of_readText again).orderly)
  have reordered : d.textLines = g.mentionedHeads.flatMap g.linesOf := by rw [textLines_eq, heads, lines]
  refine ⟨d, again, reordered, ?_, ?_, ?_⟩
  · rw [reordered, ← heads, textLines_eq]
    exact readsAs.perm_heads.flatMap_right g.linesOf
  · intro same
    rw [← heads]
    exact heads_eq_of_text_eq read rules again readsAs same
  · intro same
    rw [text_eq (productions_ne_nil_of_readsAs rules readsAs), text_eq rules, reordered, same, textLines_eq]

def interleavedText : String :=
  "S\x7ba;\x7d -&a-> 'x' ;\nA\x7b;b\x7d -0.5-> '' ;\nB -2-> S\x7ba\x7d ;\nS -&a-> B A\x7bb\x7d ;"

theorem text_of_readText_text_of_blocks : ∃ g,
    readText .weighted interleavedText = .ok g ∧
      g.productions ≠ [] ∧ ∃ d, readText .weighted g.text = .ok d ∧ d.textLines = g.mentionedHeads.flatMap g.linesOf ∧
        d.textLines.Perm g.textLines ∧ (d.text = g.text ↔ g.mentionedHeads = g.heads) := by
  obtain ⟨g, read, some⟩ := exists_of_written .weighted
    interleavedText rfl
    (fun g => !g.productions.isEmpty) (by decide +kernel)
  have rules : g.productions ≠ [] := by simpa using some
  exact ⟨g, read, rules, text_of_readText_text read rules⟩

def reorderedText : String := "S = 'x' ;\nA = 'x' ;\nB = 'x' ;\nS = B ;"

/-- Not every text comes out again: `S` mentions `B` before `A`. -/
theorem text_reordered : ∃ g d, readText .plain reorderedText = .ok g ∧
    g.productions ≠ [] ∧ readText .plain g.text = .ok d ∧ d.text ≠ g.text := by
  obtain ⟨g, read, found⟩ := exists_of_written .plain reorderedText rfl
    (fun g => !g.productions.isEmpty && (readText .plain g.text).toOption.any fun d =>
      d.text != g.text) (by decide +kernel)
  rw [Bool.and_eq_true, Bool.not_eq_true', List.isEmpty_eq_false_iff] at found
  obtain ⟨d, again, differs⟩ := exists_of_readText found.2
  exact ⟨g, d, read, found.1, again, bne_iff_ne.1 differs⟩

end Rereading

end Reading

end ContextFree
