import ContextFree.Proofs.Chart.Flags
import ContextFree.Proofs.Chart.Rules

namespace ContextFree

namespace NormalRules

structure InRange (rules : NormalRules) : Prop where
  start : rules.start < rules.size
  unary : ∀ token head, (token, head) ∈ rules.unary → head < rules.size
  binary : ∀ head left right, (head, left, right) ∈ rules.binary →
    head < rules.size ∧ left < rules.size ∧ right < rules.size

theorem Numbers.inRange {g : Grammar} {rules : NormalRules} (numbers : Numbers g rules) : rules.InRange where
  start := by
    obtain ⟨name, -, number⟩ := numbers.start
    exact numbers.size ▸ Table.index?_lt number
  unary token head listed := by
    obtain ⟨p, -, -, headed⟩ := (numbers.unary token head).1 listed
    exact numbers.size ▸ Table.index?_lt headed
  binary head left right listed := by
    obtain ⟨p, -, headed, _, _, -, l, r⟩ := (numbers.binary head left right).1 listed
    rw [numbers.size]
    exact ⟨Table.index?_lt headed, Table.index?_lt l, Table.index?_lt r⟩

theorem Spans.length_pos {rules : NormalRules} {head : Nat} {w : Sentence} (spans : Spans rules head w) :
    0 < w.length := by
  induction spans with
  | token => exact Nat.one_pos
  | pair _ _ _ first _ =>
    rw [List.length_append]
    omega

theorem Spans.of_single {rules : NormalRules} {head : Nat} {token : String}
    (spans : Spans rules head [token]) : (token, head) ∈ rules.unary := by
  generalize single : [token] = w at spans
  cases spans with
  | token rule =>
    cases single
    exact rule
  | pair _ l r =>
    have positive := l.length_pos
    have more := r.length_pos
    have both := congrArg List.length single
    rw [List.length_singleton, List.length_append] at both
    omega

end NormalRules

namespace Chart

open NormalRules

def span (sentence : Sentence) (place length : Nat) : Sentence := (sentence.drop place).take length

theorem length_span {sentence : Sentence} {place length : Nat} (fits : place + length ≤ sentence.length) :
    (span sentence place length).length = length := by
  rw [span, List.length_take, List.length_drop]
  omega

theorem span_whole (sentence : Sentence) : span sentence 0 sentence.length = sentence := by
  rw [span, List.drop_zero, List.take_length]

theorem span_append (sentence : Sentence) (place first second : Nat) :
    span sentence place (first + second) = span sentence place first ++ span sentence (place + first) second := by
  rw [span, List.take_add, List.drop_drop]
  rfl

theorem span_one {sentence : Sentence} {place : Nat} {token : String} (found : sentence[place]? = some token) :
    span sentence place 1 = [token] := by
  obtain ⟨inside, rfl⟩ := List.getElem?_eq_some_iff.1 found
  rw [span, List.drop_eq_getElem_cons inside, List.take_succ_cons, List.take_zero]

theorem exists_pair_of_spans {rules : NormalRules} {sentence : Sentence} {name place length : Nat}
    (spans : Spans rules name (span sentence place length)) (long : 2 ≤ length)
    (fits : place + length ≤ sentence.length) :
    ∃ left right split, (name, left, right) ∈ rules.binary ∧ 0 < split ∧ split < length ∧
      Spans rules left (span sentence place split) ∧
      Spans rules right (span sentence (place + split) (length - split)) := by
  have whole := length_span fits
  generalize spanned : span sentence place length = w at spans whole
  cases spans with
  | token =>
    rw [List.length_singleton] at whole
    omega
  | @pair _ left right first second rule l r =>
    rw [List.length_append] at whole
    have positive := l.length_pos
    have more := r.length_pos
    have parts := span_append sentence place first.length second.length
    rw [whole, spanned] at parts
    have short : (span sentence place first.length).length = first.length := length_span (by omega)
    obtain ⟨start, rest⟩ := List.append_inj parts short.symm
    refine ⟨left, right, first.length, rule, positive, by omega, ?_, ?_⟩
    · exact start ▸ l
    · rw [← whole, Nat.add_sub_cancel_left]
      exact rest ▸ r

/-- The invariant: no flag of the chart is out of reach, each one set is set with reason, and the
rows of the shorter lengths are done. -/
structure Filled (rules : NormalRules) (sentence : Sentence) (below : Nat) (chart : Chart) : Prop where
  wide : ∀ row place name, row < sentence.length → place < sentence.length → name < rules.size →
    (chart.flag? row place name).isSome = true
  sound : ∀ row place name, chart.flag? row place name = some true →
    place + row < sentence.length ∧ Spans rules name (span sentence place (row + 1))
  complete : ∀ length place, 0 < length → length < below → place + length ≤ sentence.length →
    ∀ name, Spans rules name (span sentence place length) → chart.flag? (length - 1) place name = some true

section Steps

variable {rules : NormalRules} {sentence : Sentence} {below : Nat} {chart : Chart}

theorem reaches_mark (filled : Filled rules sentence below chart) {length place name : Nat}
    (positive : 0 < length) (fits : place + length ≤ sentence.length) (known : name < rules.size)
    (spans : Spans rules name (span sentence place length)) :
    Reaches (Filled rules sentence below) (fun next => next.flag? (length - 1) place name = some true) chart
      (chart.mark? (length - 1) place name) := by
  have present := filled.wide (length - 1) place name (by omega) (by omega) known
  obtain ⟨next, marked⟩ := exists_mark? present
  have flags := flag?_mark? marked
  have grows : chart.Grows next := by
    intro row place name set
    rw [flags]
    split
    · rfl
    · exact set
  refine ⟨next, marked, ⟨?_, ?_, ?_⟩, ?_, grows⟩
  · intro row p n inRow inPlace inName
    rw [flags]
    split
    · rfl
    · exact filled.wide row p n inRow inPlace inName
  · intro row p n set
    rw [flags] at set
    split at set
    · next here =>
      obtain ⟨rfl, rfl, rfl⟩ := here
      rw [Nat.sub_add_cancel positive]
      exact ⟨by omega, spans⟩
    · exact filled.sound row p n set
  · intro length place some short inside name spans
    exact grows _ _ _ (filled.complete length place some short inside name spans)
  · show next.flag? (length - 1) place name = some true
    rw [flags, if_pos ⟨rfl, rfl, rfl⟩]

theorem reaches_putToken (inRange : rules.InRange) (filled : Filled rules sentence below chart)
    {token : String} {place : Nat} (found : sentence[place]? = some token) :
    Reaches (Filled rules sentence below)
      (fun next => ∀ head, (token, head) ∈ rules.unary → next.flag? 0 place head = some true) chart
      (putToken rules chart (token, place)) := by
  have inside := (List.getElem?_eq_some_iff.1 found).1
  have each : ∀ rule ∈ rules.unary.filter (·.1 == token), ∀ chart, Filled rules sentence below chart →
      Reaches (Filled rules sentence below) (fun next => next.flag? 0 place rule.2 = some true) chart
        (chart.mark? 0 place rule.2) := by
    intro rule member chart filled
    obtain ⟨listed, same⟩ := List.mem_filter.1 member
    have known := inRange.unary rule.1 rule.2 listed
    refine reaches_mark filled Nat.one_pos (by omega) known ?_
    rw [span_one found, ← eq_of_beq same]
    exact .token listed
  have loop : Reaches (Filled rules sentence below)
      (fun next => ∀ rule ∈ rules.unary.filter (·.1 == token), next.flag? 0 place rule.2 = some true)
      chart (putToken rules chart (token, place)) :=
    .foldlM (fun rule _ _ _ grows set => grows 0 place rule.2 set) each filled
  refine loop.imp fun next holds all => ⟨holds, fun head listed => ?_⟩
  exact all (token, head) (List.mem_filter.2 ⟨listed, beq_self_eq_true token⟩)

/-- What a rule asks of a split: if the parts have the names of its pair, the head is marked. -/
def Joined (rules : NormalRules) (sentence : Sentence) (length place split : Nat)
    (rule : Nat × Nat × Nat) (chart : Chart) : Prop :=
  Spans rules rule.2.1 (span sentence place split) →
    Spans rules rule.2.2 (span sentence (place + split) (length - split)) →
      chart.flag? (length - 1) place rule.1 = some true

theorem reaches_join (inRange : rules.InRange) {length place split : Nat}
    (filled : Filled rules sentence length chart) (positive : 0 < split) (short : split < length)
    (fits : place + length ≤ sentence.length) {rule : Nat × Nat × Nat} (listed : rule ∈ rules.binary) :
    Reaches (Filled rules sentence length) (Joined rules sentence length place split rule) chart
      (join length place split chart rule) := by
  obtain ⟨head, left, right⟩ := rule
  obtain ⟨inHead, inLeft, inRight⟩ := inRange.binary head left right listed
  obtain ⟨onLeft, lefts⟩ := Option.isSome_iff_exists.1
    (filled.wide (split - 1) place left (by omega) (by omega) inLeft)
  obtain ⟨onRight, rights⟩ := Option.isSome_iff_exists.1
    (filled.wide (length - split - 1) (place + split) right (by omega) (by omega) inRight)
  -- A flag that is not set means that the part has no such name, for the shorter rows are done.
  cases onLeft with
  | false =>
    have stays : join length place split chart (head, left, right) = some chart := by simp [join, lefts]
    rw [stays]
    refine .done filled fun l => ?_
    have set := filled.complete split place positive short (by omega) left l
    rw [lefts] at set
    cases set
  | true =>
    cases onRight with
    | false =>
      have stays : join length place split chart (head, left, right) = some chart := by
        simp [join, lefts, rights]
      rw [stays]
      refine .done filled fun _ r => ?_
      have set := filled.complete (length - split) (place + split) (by omega) (by omega) (by omega) right r
      rw [rights] at set
      cases set
    | true =>
      have marks : join length place split chart (head, left, right) =
          chart.mark? (length - 1) place head := by simp [join, lefts, rights]
      have l := (filled.sound _ _ _ lefts).2
      have r := (filled.sound _ _ _ rights).2
      rw [Nat.sub_add_cancel positive] at l
      rw [Nat.sub_add_cancel (by omega)] at r
      have spans : Spans rules head (span sentence place length) := by
        rw [← Nat.add_sub_of_le (Nat.le_of_lt short), span_append]
        exact .pair listed l r
      rw [marks]
      exact (reaches_mark filled (by omega) fits inHead spans).imp fun next holds set =>
        ⟨holds, fun _ _ => set⟩

theorem reaches_joinAt (inRange : rules.InRange) {length place split : Nat}
    (filled : Filled rules sentence length chart) (positive : 0 < split) (short : split < length)
    (fits : place + length ≤ sentence.length) :
    Reaches (Filled rules sentence length)
      (fun next => ∀ rule ∈ rules.binary, Joined rules sentence length place split rule next) chart
      (joinAt rules length place chart split) := by
  apply Reaches.foldlM _ _ filled
  · intro rule _ _ _ grows joined l r
    exact grows _ _ _ (joined l r)
  · intro rule listed chart filled
    exact reaches_join inRange filled positive short fits listed

def Complete (rules : NormalRules) (sentence : Sentence) (length place : Nat) (chart : Chart) : Prop :=
  ∀ name, Spans rules name (span sentence place length) → chart.flag? (length - 1) place name = some true

theorem Complete.grows {length place : Nat} {next : Chart} (complete : Complete rules sentence length place chart)
    (grows : chart.Grows next) : Complete rules sentence length place next :=
  fun name spans => grows _ _ _ (complete name spans)

theorem reaches_joinSpan (inRange : rules.InRange) {length place : Nat}
    (filled : Filled rules sentence length chart) (long : 2 ≤ length) (fits : place + length ≤ sentence.length) :
    Reaches (Filled rules sentence length) (Complete rules sentence length place) chart
      (joinSpan rules length chart place) := by
  have loop : Reaches (Filled rules sentence length)
      (fun next => ∀ split ∈ List.range' 1 (length - 1), ∀ rule ∈ rules.binary,
        Joined rules sentence length place split rule next) chart (joinSpan rules length chart place) := by
    apply Reaches.foldlM _ _ filled
    · intro split _ _ _ grows joined rule listed l r
      exact grows _ _ _ (joined rule listed l r)
    · intro split member chart filled
      rw [List.mem_range'_1] at member
      exact reaches_joinAt inRange filled (by omega) (by omega) fits
  refine loop.imp fun next holds all => ⟨holds, fun name spans => ?_⟩
  obtain ⟨left, right, split, listed, positive, short, l, r⟩ := exists_pair_of_spans spans long fits
  exact all split (List.mem_range'_1.2 (by omega)) (name, left, right) listed l r

theorem Filled.next {length : Nat} (filled : Filled rules sentence length chart)
    (row : ∀ place, place + length ≤ sentence.length → Complete rules sentence length place chart) :
    Filled rules sentence (length + 1) chart where
  wide := filled.wide
  sound := filled.sound
  complete shorter place positive short fits := by
    by_cases here : shorter = length
    · subst here
      exact row place fits
    · exact filled.complete shorter place positive (by omega) fits

theorem reaches_joinRow (inRange : rules.InRange) {length : Nat} (filled : Filled rules sentence length chart)
    (long : 2 ≤ length) (fits : length ≤ sentence.length) :
    Reaches (Filled rules sentence (length + 1)) (fun _ => True) chart
      (joinRow rules sentence.length chart length) := by
  have loop : Reaches (Filled rules sentence length)
      (fun next => ∀ place ∈ List.range (sentence.length - length + 1), Complete rules sentence length place next)
      chart (joinRow rules sentence.length chart length) := by
    apply Reaches.foldlM _ _ filled
    · intro place _ _ _ grows complete
      exact complete.grows grows
    · intro place member chart filled
      rw [List.mem_range] at member
      exact reaches_joinSpan inRange filled long (by omega)
  refine loop.imp fun next holds all => ⟨holds.next fun place inside => ?_, trivial⟩
  exact all place (List.mem_range.2 (by omega))

theorem exists_joinRows (inRange : rules.InRange) (filled : Filled rules sentence 2 chart) {rows : Nat}
    (fits : rows ≤ sentence.length - 1) :
    ∃ next, (List.range' 2 rows).foldlM (joinRow rules sentence.length) chart = some next ∧
      Filled rules sentence (2 + rows) next := by
  -- The row of a length is joined from the rows before it, so the invariant moves on row by row.
  induction rows with
  | zero => exact ⟨chart, rfl, filled⟩
  | succ rows ih =>
    obtain ⟨before, looped, filled⟩ := ih (by omega)
    obtain ⟨next, joined, done, -, -⟩ := reaches_joinRow inRange filled (by omega) (by omega)
    refine ⟨next, ?_, done⟩
    rw [List.range'_1_concat, List.foldlM_append, looped]
    simp [joined]

theorem filled_blank (rules : NormalRules) (sentence : Sentence) :
    Filled rules sentence 1 (blank sentence.length rules.size) where
  wide row place name inRow inPlace inName := by
    rw [flag?_blank inRow inPlace inName]
    rfl
  sound row place name set := absurd set flag?_blank_ne
  complete length place positive short := by omega

theorem exists_putTokens (inRange : rules.InRange) : ∃ next,
    sentence.zipIdx.foldlM (putToken rules) (blank sentence.length rules.size) = some next ∧
      Filled rules sentence 2 next := by
  have loop : Reaches (Filled rules sentence 1)
      (fun next => ∀ entry ∈ sentence.zipIdx, ∀ head, (entry.1, head) ∈ rules.unary →
        next.flag? 0 entry.2 head = some true) (blank sentence.length rules.size)
      (sentence.zipIdx.foldlM (putToken rules) (blank sentence.length rules.size)) := by
    apply Reaches.foldlM _ _ (filled_blank rules sentence)
    · intro entry _ _ _ grows set head listed
      exact grows _ _ _ (set head listed)
    · intro ⟨token, place⟩ member chart filled
      exact reaches_putToken inRange filled (List.mem_zipIdx_iff_getElem?.1 member)
  obtain ⟨next, looped, filled, all, -⟩ := loop
  refine ⟨next, looped, filled.next fun place fits name spans => ?_⟩
  have inside : place < sentence.length := by omega
  have found := List.getElem?_eq_getElem inside
  rw [span_one found] at spans
  exact all (sentence[place], place) (List.mem_zipIdx_iff_getElem?.2 found) name spans.of_single

theorem exists_ofSentence (inRange : rules.InRange) (some : sentence ≠ []) : ∃ chart,
    ofSentence rules sentence = .some chart ∧ Filled rules sentence (sentence.length + 1) chart := by
  have positive := List.length_pos_iff.2 some
  obtain ⟨first, tokens, short⟩ := @exists_putTokens rules sentence inRange
  obtain ⟨last, rows, filled⟩ := exists_joinRows inRange short (Nat.le_refl (sentence.length - 1))
  refine ⟨last, ?_, ?_⟩
  · simp [ofSentence, tokens, rows]
  · have all : 2 + (sentence.length - 1) = sentence.length + 1 := by omega
    rwa [all] at filled

end Steps

end Chart

namespace NormalRules

variable {g : Grammar} {rules : NormalRules}

theorem answer_spec (inRange : rules.InRange) (sentence : Sentence) : ∃ accepted,
    rules.answer sentence = some accepted ∧ (accepted = true ↔ Spans rules rules.start sentence) := by
  unfold answer
  split
  · next none =>
    rw [List.isEmpty_iff] at none
    subst none
    exact ⟨false, rfl, nofun, fun spans => absurd spans.length_pos (Nat.lt_irrefl 0)⟩
  · next some =>
    rw [List.isEmpty_iff] at some
    have positive := List.length_pos_iff.2 some
    obtain ⟨chart, made, filled⟩ := Chart.exists_ofSentence inRange some
    obtain ⟨flag, read⟩ := Option.isSome_iff_exists.1
      (filled.wide (sentence.length - 1) 0 rules.start (by omega) positive inRange.start)
    refine ⟨flag, by simp [made, read], ?_⟩
    constructor
    · intro set
      have spans := (filled.sound _ _ _ (set ▸ read)).2
      rwa [Nat.sub_add_cancel positive, Chart.span_whole] at spans
    · intro spans
      rw [← Chart.span_whole sentence] at spans
      have set := filled.complete sentence.length 0 positive (by omega) (by omega) _ spans
      rw [read] at set
      exact Option.some.inj set

theorem recognises_iff (made : ofGrammar g = .ok rules) (sentence : Sentence) :
    rules.recognises sentence = true ↔ g.Generates sentence := by
  have numbers := numbers_of_ofGrammar made
  obtain ⟨accepted, answers, exact⟩ := answer_spec numbers.inRange sentence
  rw [recognises, answers, ← numbers.spans_start_iff, ← exact]
  cases accepted <;> decide

/-- Rules are made of just the grammars in normal form that know their names. Then every sentence is
answered, so that the chart is never left, and the answer is whether the start symbol derives it. -/
theorem recognises_exact (g : Grammar) :
    ((∃ rules, ofGrammar g = .ok rules) ↔
      (∃ start, g.start = some start ∧ start ∈ g.nonterminals) ∧ g.isNormal = true ∧
        ∀ p ∈ g.productions, p.head ∈ g.nonterminals ∧
          ∀ name, .nonterminal name ∈ p.body → name ∈ g.nonterminals) ∧
    ∀ rules, ofGrammar g = .ok rules → ∀ sentence,
      (rules.answer sentence).isSome = true ∧ (rules.recognises sentence = true ↔ g.Generates sentence) := by
  constructor
  · rw [exists_ofGrammar_iff, Grammar.isNormal, List.all_eq_true]
    constructor
    · intro ⟨start, all⟩
      exact ⟨start, fun p rule => (all p rule).1, fun p rule => (all p rule).2⟩
    · intro ⟨start, normal, known⟩
      exact ⟨start, fun p rule => ⟨normal p rule, known p rule⟩⟩
  · intro rules made sentence
    obtain ⟨accepted, answers, -⟩ := answer_spec (numbers_of_ofGrammar made).inRange sentence
    rw [answers]
    exact ⟨rfl, recognises_iff made sentence⟩

-- Every sentence of three tokens or more has several derivations.
def ambiguousSample : Grammar where
  kind := .plain
  start := some "S"
  nonterminals := ⟨["S"], by simp⟩
  terminals := ⟨["a"], by simp⟩
  productions :=
    [{ head := "S", body := [.nonterminal "S", .nonterminal "S"] }, { head := "S", body := [.terminal "a"] }]

theorem recognises_exact_ambiguous : ofGrammar ambiguousSample = .ok ⟨0, 1, [("a", 0)], [(0, 0, 0)]⟩ ∧
    ∀ sentence, (answer ⟨0, 1, [("a", 0)], [(0, 0, 0)]⟩ sentence).isSome = true ∧
      (recognises ⟨0, 1, [("a", 0)], [(0, 0, 0)]⟩ sentence = true ↔ ambiguousSample.Generates sentence) :=
  have made : ofGrammar ambiguousSample = .ok ⟨0, 1, [("a", 0)], [(0, 0, 0)]⟩ := rfl
  ⟨made, (recognises_exact ambiguousSample).2 _ made⟩

end NormalRules

end ContextFree
