import ContextFree.Proofs.Reading.Rendered

namespace ContextFree.Token

open Text

/-- How tokens are written: none holds what would end it too early, and names are legal. -/
def IsFormed : Token → Prop
  | .arrow weight => ¬ ['-', '>'] <:+: weight.toList
  | .name word none => Name.checkNonterminal word = .ok ()
  | .name word (some block) => Name.checkNonterminal word = .ok () ∧ '\x7d' ∉ block.toList
  | .quoted value => value.toList ≠ [] ∧ '\'' ∉ value.toList
  | _ => True

/-- Only a bare name has to be followed by white space, or by nothing. -/
def EndsAt (after : List Char) : Token → Prop
  | .name _ none => ∀ c ∈ after.head?, isBlank c = true
  | _ => True

/-- The tokens of a line, each with the white space before it, and the white space at the end. -/
inductive Reads : List Char → List (List Char × Token) → List Char → Prop where
  | done {gap : List Char} (white : ∀ c ∈ gap, isBlank c = true) : Reads gap [] gap
  | token {gap after last : List Char} {token : Token} {pieces : List (List Char × Token)}
    (white : ∀ c ∈ gap, isBlank c = true) (formed : token.IsFormed) (ends : token.EndsAt after)
    (rest : Reads after pieces last) : Reads (gap ++ (token.text.toList ++ after)) ((gap, token) :: pieces) last

variable {text after other line last : List Char} {token found : Token} {tokens : List Token} {c : Char}
  {pieces : List (List Char × Token)}

theorem starts_iff :
    Starts text token after ↔ text = token.text.toList ++ after ∧ token.IsFormed ∧ token.EndsAt after := by
  constructor
  · intro starts
    cases starts with
    | equals | bar | stop | empty => exact ⟨rfl, trivial, trivial⟩
    | quoted filled unquoted => exact ⟨by rw [toList_text_quoted]; simp, ⟨filled, unquoted⟩, trivial⟩
    | arrow unpointed => exact ⟨by rw [toList_text_arrow]; simp, unpointed, trivial⟩
    | bare legal ends => exact ⟨rfl, legal, ends⟩
    | block legal unbraced => exact ⟨by rw [toList_text_block]; simp, ⟨legal, unbraced⟩, trivial⟩
  · rintro ⟨rfl, formed, ends⟩
    cases token with
    | equals => exact .equals
    | bar => exact .bar
    | stop => exact .stop
    | empty => exact .empty
    | arrow weight =>
      rw [toList_text_arrow, List.cons_append, List.append_assoc]
      exact .arrow formed
    | quoted value =>
      rw [toList_text_quoted, List.cons_append, List.append_assoc]
      exact .quoted formed.1 formed.2
    | name word block =>
      cases block with
      | none => exact .bare formed ends
      | some block =>
        rw [toList_text_block, List.append_assoc, List.cons_append, List.append_assoc]
        exact .block formed.1 formed.2

theorem Starts.unique (first : Starts text token after) (second : Starts text found other) :
    token = found ∧ after = other := by
  obtain ⟨c, rest, rfl, -⟩ := solid_of_starts first
  cases (scan_of_starts first).symm.trans (scan_of_starts second)
  exact ⟨rfl, rfl⟩

theorem Starts.head_solid (starts : Starts text token after) : ∀ c ∈ text.head?, isBlank c = false := by
  obtain ⟨c, rest, rfl, solid⟩ := solid_of_starts starts
  rintro _ ⟨⟩
  exact solid

theorem Starts.not_white (starts : Starts text token after) (gap : List Char) :
    ¬ ∀ c ∈ gap ++ text, isBlank c = true := by
  obtain ⟨c, rest, rfl, solid⟩ := solid_of_starts starts
  intro white
  rw [white c (by simp)] at solid
  cases solid

theorem Spells.skip {gap : List Char} (white : ∀ c ∈ gap, isBlank c = true) (spells : Spells text tokens) :
    Spells (gap ++ text) tokens := by
  induction gap with
  | nil => exact spells
  | cons c gap ih =>
    obtain ⟨here, rest⟩ := List.forall_mem_cons.1 white
    exact .blank here (ih rest)

namespace Reads

theorem next (starts : Starts text token after) (rest : Reads after pieces last) :
    Reads text (([], token) :: pieces) last := by
  obtain ⟨rfl, formed, ends⟩ := starts_iff.1 starts
  rw [← List.nil_append (token.text.toList ++ after)]
  exact .token (fun _ none => nomatch none) formed ends rest

theorem blank (white : isBlank c = true) (reads : Reads line pieces last) :
    ∃ pieces' last', Reads (c :: line) pieces' last' ∧ pieces'.map Prod.snd = pieces.map Prod.snd := by
  cases reads with
  | done whites => exact ⟨[], c :: line, .done (List.forall_mem_cons.2 ⟨white, whites⟩), rfl⟩
  | @token gap _ _ token pieces whites formed ends rest =>
    exact ⟨(c :: gap, token) :: pieces, last, .token (List.forall_mem_cons.2 ⟨white, whites⟩) formed ends rest, rfl⟩

theorem spells (reads : Reads line pieces last) : Spells line (pieces.map Prod.snd) := by
  induction reads with
  | done white =>
    have blank := Spells.done.skip white
    rwa [List.append_nil] at blank
  | token white formed ends _ ih => exact (Spells.token (starts_iff.2 ⟨rfl, formed, ends⟩) ih).skip white

theorem unique {others : List (List Char × Token)} {final : List Char} (first : Reads line pieces last)
    (second : Reads line others final) : pieces = others ∧ last = final := by
  induction first generalizing others final with
  | done white =>
    cases second with
    | done => exact ⟨rfl, rfl⟩
    | token _ formed ends _ => exact absurd white ((starts_iff.2 ⟨rfl, formed, ends⟩).not_white _)
  | @token gap after last token pieces white formed ends rest ih =>
    have starts := starts_iff.2 ⟨rfl, formed, ends⟩
    generalize whole : gap ++ (token.text.toList ++ after) = line at second
    cases second with
    | done blank => exact absurd (whole ▸ blank) (starts.not_white gap)
    | @token other behind _ found others white' formed' ends' rest' =>
      have starts' := starts_iff.2 ⟨rfl, formed', ends'⟩
      obtain ⟨taken, left⟩ := cut_append white starts.head_solid
      obtain ⟨taken', left'⟩ := cut_append white' starts'.head_solid
      rw [whole] at taken left
      obtain rfl := taken.symm.trans taken'
      rw [left.symm.trans left'] at starts
      obtain ⟨rfl, rfl⟩ := starts.unique starts'
      obtain ⟨rfl, rfl⟩ := ih rest'
      exact ⟨rfl, rfl⟩

end Reads

theorem spells_iff : Spells line tokens ↔ ∃ pieces last, Reads line pieces last ∧ pieces.map Prod.snd = tokens := by
  constructor
  · intro spells
    induction spells with
    | done => exact ⟨[], [], .done (fun _ none => nomatch none), rfl⟩
    | blank white _ ih =>
      obtain ⟨pieces, last, reads, same⟩ := ih
      obtain ⟨others, final, longer, keeps⟩ := reads.blank white
      exact ⟨others, final, longer, keeps.trans same⟩
    | @token token text after tokens starts _ ih =>
      obtain ⟨pieces, last, reads, same⟩ := ih
      exact ⟨([], token) :: pieces, last, reads.next starts, congrArg (token :: ·) same⟩
  · rintro ⟨pieces, last, reads, rfl⟩
    exact reads.spells

theorem scanAll_text (formed : token.IsFormed) (ends : token.EndsAt []) : scanAll token.text.toList = .ok [token] := by
  refine scanAll_iff.2 (.token (starts_iff.2 ⟨?_, formed, ends⟩) .done)
  rw [List.append_nil]

/-- A line is scanned to some tokens just if it has a reading with these, and it has one reading at most. A legal name
by itself is read back, and so is a legal value in quotes. -/
theorem scanAll_exact :
    (∀ line tokens, scanAll line = .ok tokens ↔ ∃ pieces last, Reads line pieces last ∧ pieces.map Prod.snd = tokens) ∧
    (∀ line pieces last others final, Reads line pieces last → Reads line others final →
      pieces = others ∧ last = final) ∧
    (∀ word, Name.checkNonterminal word = .ok () → scanAll word.toList = .ok [.name word none]) ∧
    ∀ value, Name.checkValue value = .ok () → scanAll ("'" ++ value ++ "'").toList = .ok [.quoted value] := by
  refine ⟨fun line tokens => scanAll_iff.trans spells_iff, fun _ _ _ _ _ => Reads.unique, fun word legal => ?_,
    fun value legal => ?_⟩
  · exact @scanAll_text (.name word none) legal nofun
  · obtain ⟨filled, solid⟩ := Name.checkValue_iff.1 legal
    exact @scanAll_text (.quoted value) ⟨filled, fun quote => (solid '\'' quote).2 rfl⟩ trivial

end ContextFree.Token
