import ContextFree.Proofs.Text.Lines
import ContextFree.Reading.Rule
import Mathlib.Data.List.Forall2

namespace ContextFree

open Text

/-- Single letters with commas between them. Nothing has to stand between two commas. -/
def Letters.IsList (text : List Char) (letters : Letters) : Prop :=
  ∃ items : List (List Char), text = [','].intercalate items ∧
    (∀ item ∈ items, item = [] ∨ ∃ c, item = [c] ∧ isLetter c = true) ∧ ∀ c, c ∈ letters ↔ [c] ∈ items

inductive Occurrence.IsWritten : Kind → Token → Occurrence → Prop where
  | terminal {kind : Kind} {value : String} : IsWritten kind (.quoted value) { symbol := .terminal value }
  | empty {kind : Kind} : IsWritten kind .empty { symbol := .empty }
  | bare {kind : Kind} {name : String} : IsWritten kind (.name name none) { symbol := .nonterminal name }
  | annotated {name block : String} {letters : Letters} (list : letters.IsList block.toList) :
    IsWritten .weighted (.name name (some block)) { symbol := .nonterminal name, annotation := some letters }

namespace Rule

/-- How a weighted rule names its head and declares attributes. -/
inductive Declares : Token → String → Attributes → Prop where
  | bare {name : String} : Declares (.name name none) name ∅
  | block {name block : String} {before after : List Char} {attributes : Attributes}
    (halves : block.toList = before ++ ';' :: after) (inherited : attributes.inherited.IsList before)
    (synthesized : attributes.synthesized.IsList after) : Declares (.name name (some block)) name attributes

inductive IsWritten : Kind → List Token → Rule → Prop where
  | plain {head : String} {bodies : List (List Token)} {alternatives : List (List Occurrence)} (some : bodies ≠ [])
    (filled : ∀ body ∈ bodies, body ≠ [])
    (read : List.Forall₂ (List.Forall₂ (Occurrence.IsWritten .plain)) bodies alternatives) :
    IsWritten .plain (.name head none :: .equals :: ([.bar].intercalate bodies ++ [.stop])) { head, alternatives }
  | weighted {first : Token} {head weightText : String} {attributes : Attributes} {weight : Weight} {body : List Token}
    {occurrences : List Occurrence} (declares : Declares first head attributes)
    (parses : Weight.read weightText.toList = .ok weight) (filled : body ≠ [])
    (read : List.Forall₂ (Occurrence.IsWritten .weighted) body occurrences) :
    IsWritten .weighted (first :: .arrow weightText :: (body ++ [.stop]))
      { head, attributes, weight, alternatives := [occurrences] }

section Blocks

variable {block : String} {text : List Char} {letters : Letters} {kind : Kind} {token : Token}

theorem isSingleLetter_iff {item : List Char} :
    isSingleLetter item = true ↔ ∃ c, item = [c] ∧ Letters.isLetter c = true := by
  unfold isSingleLetter
  split
  · simp
  · next other =>
    refine ⟨nofun, fun ⟨c, single, _⟩ => ?_⟩
    exact absurd single (other c)

theorem isList_iff_pieces : letters.IsList text ↔
    (∀ item ∈ pieces ',' text, item = [] ∨ ∃ c, item = [c] ∧ Letters.isLetter c = true) ∧
      ∀ c, c ∈ letters ↔ [c] ∈ pieces ',' text := by
  constructor
  · rintro ⟨items, rfl, single, members⟩
    cases items with
    | nil =>
      refine ⟨fun item listed => Or.inl (List.mem_singleton.1 listed), fun c => (members c).trans ?_⟩
      simp [pieces]
    | cons first rest =>
      rw [pieces_intercalate (List.cons_ne_nil first rest)]
      · exact ⟨single, members⟩
      · intro item listed comma
        rcases single item listed with rfl | ⟨c, rfl, letter⟩
        · cases comma
        · rw [← List.mem_singleton.1 comma] at letter
          cases letter
  · rintro ⟨single, members⟩
    exact ⟨pieces ',' text, (intercalate_pieces ',' text).symm, single, members⟩

theorem mem_flatten_letters {items : List (List Char)}
    (single : ∀ item ∈ items, item = [] ∨ ∃ c, item = [c] ∧ Letters.isLetter c = true) {c : Char} :
    c ∈ (items.filter fun item => !item.isEmpty).flatten ↔ [c] ∈ items := by
  rw [List.mem_flatten]
  constructor
  · rintro ⟨item, kept, inside⟩
    have listed := (List.mem_filter.1 kept).1
    rcases single item listed with rfl | ⟨d, rfl, -⟩
    · cases inside
    · rwa [List.mem_singleton.1 inside]
  · intro listed
    exact ⟨[c], List.mem_filter.2 ⟨listed, rfl⟩, List.mem_singleton_self c⟩

theorem readLetters_iff : readLetters block text = .ok letters ↔ letters.IsList text := by
  have single : ((pieces ',' text).filter fun item => !item.isEmpty).all isSingleLetter = true ↔
      ∀ item ∈ pieces ',' text, item = [] ∨ ∃ c, item = [c] ∧ Letters.isLetter c = true := by
    simp only [List.all_eq_true, List.mem_filter, Bool.not_eq_true', List.isEmpty_eq_false_iff,
      isSingleLetter_iff, and_imp]
    exact forall_congr' fun item => imp_congr_right fun _ => or_iff_not_imp_left.symm
  rw [isList_iff_pieces, ← single]
  simp only [readLetters]
  split
  · next all =>
    have members := fun c => @mem_flatten_letters _ (single.1 all) c
    rw [Except.ok.injEq]
    constructor
    · rintro rfl
      exact ⟨all, fun c => Letters.mem_ofList.trans (members c)⟩
    · rintro ⟨-, same⟩
      exact Letters.ext_mem fun c => (Letters.mem_ofList.trans (members c)).trans (same c).symm
  · next none => exact ⟨nofun, fun ⟨all, _⟩ => absurd all none⟩

theorem isLetter_of_isList (list : letters.IsList text) : ∀ c ∈ letters, Letters.isLetter c = true := by
  obtain ⟨items, -, single, members⟩ := list
  intro c member
  rcases single [c] ((members c).1 member) with none | ⟨d, same, letter⟩
  · cases none
  · cases same
    exact letter

theorem mem_of_isList (list : letters.IsList text) : ∀ c ∈ text, c = ',' ∨ Letters.isLetter c = true := by
  obtain ⟨items, rfl, single, -⟩ := list
  intro c member
  rcases mem_of_mem_intercalate member with comma | ⟨item, listed, inside⟩
  · exact Or.inl (List.mem_singleton.1 comma)
  · rcases single item listed with rfl | ⟨d, rfl, letter⟩
    · cases inside
    · rw [List.mem_singleton.1 inside]
      exact Or.inr letter

theorem stop_not_mem_of_isList (list : letters.IsList text) : ';' ∉ text := by
  intro stop
  rcases mem_of_isList list ';' stop with comma | letter
  · cases comma
  · cases letter

theorem isList_text (lower : ∀ c ∈ letters, Letters.isLetter c = true) : letters.IsList letters.text.toList := by
  refine ⟨letters.toList.map fun c => [c], ?_, fun item listed => ?_, fun c => ?_⟩
  · rw [Letters.text, String.toList_intercalate, List.map_map]
    congr 1
    exact List.map_congr_left fun c _ => String.toList_singleton c
  · obtain ⟨c, member, rfl⟩ := List.mem_map.1 listed
    exact Or.inr ⟨c, rfl, lower c member⟩
  · simp only [List.mem_map, List.cons.injEq, and_true, exists_eq_right]
    rfl

theorem readHeadBlock_iff {attributes : Attributes} : readHeadBlock block = .ok attributes ↔
    ∃ before after, block.toList = before ++ ';' :: after ∧ attributes.inherited.IsList before ∧
      attributes.synthesized.IsList after := by
  simp only [← @readLetters_iff block]
  unfold readHeadBlock
  constructor
  · intro ran
    split at ran
    · cases ran
    · next before after found =>
      cases first : readLetters block before with
      | error problem =>
        rw [first] at ran
        cases ran
      | ok inherited =>
        cases second : readLetters block after with
        | error problem =>
          rw [first, second] at ran
          cases ran
        | ok synthesized =>
          rw [first, second] at ran
          cases ran
          exact ⟨before, after, (Token.upTo_eq_some found).2, first, second⟩
  · rintro ⟨before, after, halves, inherited, synthesized⟩
    rw [halves, Token.upTo_append (stop_not_mem_of_isList (readLetters_iff.1 inherited))]
    dsimp only
    rw [inherited, synthesized]
    rfl

theorem readBodyBlock_iff : readBodyBlock block = .ok letters ↔ letters.IsList block.toList := by
  rw [← @readLetters_iff block]
  unfold readBodyBlock
  split
  · next stop =>
    refine ⟨nofun, fun read => ?_⟩
    exact absurd (List.contains_iff_mem.1 stop) (stop_not_mem_of_isList (readLetters_iff.1 read))
  · exact Iff.rfl

theorem readOccurrence_iff {occurrence : Occurrence} :
    readOccurrence kind token = .ok occurrence ↔ occurrence.IsWritten kind token := by
  constructor
  · intro read
    cases token with
    | equals => cases read
    | bar => cases read
    | stop => cases read
    | arrow weight => cases read
    | quoted value =>
      cases read
      exact .terminal
    | empty =>
      cases read
      exact .empty
    | name name block =>
      cases block with
      | none =>
        cases read
        exact .bare
      | some block =>
        cases kind with
        | plain => cases read
        | weighted =>
          rw [readOccurrence] at read
          cases inner : readBodyBlock block with
          | error problem =>
            rw [inner] at read
            cases read
          | ok letters =>
            rw [inner] at read
            cases read
            exact .annotated (readBodyBlock_iff.1 inner)
  · intro written
    cases written with
    | terminal => rfl
    | empty => rfl
    | bare => rfl
    | annotated list =>
      rw [readOccurrence, readBodyBlock_iff.2 list]
      rfl

end Blocks

section Lines

variable {kind : Kind} {tokens : List Token} {rule : Rule}

theorem mapM_eq_ok_iff {α β ε : Type} {f : α → Except ε β} {xs : List α} {ys : List β} :
    xs.mapM f = .ok ys ↔ List.Forall₂ (fun x y => f x = .ok y) xs ys := by
  induction xs generalizing ys with
  | nil => simp [pure, Except.pure, eq_comm]
  | cons x rest ih =>
    rw [List.mapM_cons, List.forall₂_cons_left_iff]
    cases first : f x with
    | error problem => simp [bind, Except.bind]
    | ok y =>
      cases others : rest.mapM f with
      | error problem => simp [bind, Except.bind, ← ih, others]
      | ok more => simp [bind, Except.bind, pure, Except.pure, ← ih, others, eq_comm]

theorem exists_of_forall₂ {α β : Type} {R : α → β → Prop} {xs : List α} {ys : List β} (related : List.Forall₂ R xs ys) :
    ∀ x ∈ xs, ∃ y ∈ ys, R x y := by
  induction related with
  | nil => exact fun _ member => nomatch member
  | @cons x y _ _ here _ ih =>
    intro z member
    rcases List.mem_cons.1 member with rfl | later
    · exact ⟨y, List.mem_cons_self, here⟩
    · obtain ⟨w, found, holds⟩ := ih z later
      exact ⟨w, List.mem_cons_of_mem y found, holds⟩

theorem exists_of_forall₂_right {α β : Type} {R : α → β → Prop} {xs : List α} {ys : List β}
    (related : List.Forall₂ R xs ys) : ∀ y ∈ ys, ∃ x ∈ xs, R x y :=
  exists_of_forall₂ related.flip

theorem readAlternative_iff {occurrences : List Occurrence} : readAlternative kind tokens = .ok occurrences ↔
    tokens ≠ [] ∧ List.Forall₂ (Occurrence.IsWritten kind) tokens occurrences := by
  have each : (tokens.mapM (readOccurrence kind) = .ok occurrences) ↔
      List.Forall₂ (Occurrence.IsWritten kind) tokens occurrences := by
    simp only [mapM_eq_ok_iff, readOccurrence_iff]
  rw [← each, ← List.isEmpty_eq_false_iff]
  unfold readAlternative
  cases tokens.isEmpty <;> simp

theorem bar_not_mem_of_written {body : List Token} {occurrences : List Occurrence}
    (read : List.Forall₂ (Occurrence.IsWritten kind) body occurrences) : .bar ∉ body := by
  induction read with
  | nil => exact List.not_mem_nil
  | cons written _ ih =>
    rw [List.mem_cons, not_or]
    refine ⟨?_, ih⟩
    rintro rfl
    cases written

theorem readHead_plain_iff {first : Token} {rest : List Token} {head : String} {attributes : Attributes} :
    readHead .plain (first :: rest) = .ok (head, attributes) ↔ first = .name head none ∧ attributes = ∅ := by
  constructor
  · intro read
    unfold readHead at read
    split at read
    · next nothing => cases nothing
    · next same =>
      cases same
      cases read
      exact ⟨rfl, rfl⟩
    · next same =>
      cases read
    · cases read
  · rintro ⟨rfl, rfl⟩
    rfl

theorem readHead_weighted_iff {first : Token} {rest : List Token} {head : String} {attributes : Attributes} :
    readHead .weighted (first :: rest) = .ok (head, attributes) ↔ Declares first head attributes := by
  constructor
  · intro read
    unfold readHead at read
    split at read
    · next nothing => cases nothing
    · next same =>
      cases same
      cases read
      exact .bare
    · next name block _ same =>
      cases same
      dsimp only at read
      cases inner : readHeadBlock block with
      | error problem =>
        rw [inner] at read
        cases read
      | ok found =>
        rw [inner] at read
        cases read
        obtain ⟨before, after, halves, inherited, synthesized⟩ := readHeadBlock_iff.1 inner
        exact .block halves inherited synthesized
    · cases read
  · intro declares
    cases declares with
    | bare => rfl
    | block halves inherited synthesized =>
      rw [readHead, readHeadBlock_iff.2 ⟨_, _, halves, inherited, synthesized⟩]
      rfl

theorem withoutEnds_iff {first : Token} {rest inner : List Token} (notStop : first ≠ .stop) :
    withoutEnds (first :: rest) = .ok inner ↔ rest = inner ++ [.stop] := by
  unfold withoutEnds
  constructor
  · intro read
    split at read
    · next ends =>
      cases read
      obtain ⟨front, whole⟩ := List.getLast?_eq_some_iff.1 ends
      cases front with
      | nil =>
        cases whole
        exact absurd rfl notStop
      | cons _ front =>
        rw [List.cons_append] at whole
        rw [(List.cons.inj whole).2, List.tail_cons, List.dropLast_concat]
    · cases read
  · rintro rfl
    have ends : (first :: (inner ++ [.stop])).getLast? = some .stop := List.getLast?_eq_some_iff.2 ⟨first :: inner, rfl⟩
    rw [if_pos ends, List.tail_cons, List.dropLast_concat]

theorem readSign_plain_iff {bodies : List Token} {weight : Weight} :
    readSign .plain tokens = .ok (weight, bodies) ↔ tokens = .equals :: bodies ∧ weight = .one := by
  constructor
  · intro read
    cases tokens with
    | nil => cases read
    | cons first rest =>
      cases first with
      | equals =>
        cases read
        exact ⟨rfl, rfl⟩
      | _ => cases read
  · rintro ⟨rfl, rfl⟩
    rfl

theorem readSign_weighted_iff {bodies : List Token} {weight : Weight} :
    readSign .weighted tokens = .ok (weight, bodies) ↔
      ∃ weightText, tokens = .arrow weightText :: bodies ∧ Weight.read weightText.toList = .ok weight := by
  constructor
  · intro read
    cases tokens with
    | nil => cases read
    | cons first rest =>
      cases first with
      | arrow weightText =>
        rw [readSign] at read
        split at read
        · next parses =>
          cases read
          exact ⟨weightText, rfl, parses⟩
        · cases read
      | _ => cases read
  · rintro ⟨weightText, rfl, parses⟩
    simp only [readSign, parses]

theorem bind_eq_ok_iff {α β ε : Type} {read : Except ε α} {next : α → Except ε β} {b : β} :
    (read >>= next) = .ok b ↔ ∃ a, read = .ok a ∧ next a = .ok b := by
  cases read with
  | error problem => simp [bind, Except.bind]
  | ok a => simp [bind, Except.bind]

theorem ofTokens_eq_ok_iff : ofTokens kind tokens = .ok rule ↔
    ∃ head attributes inner weight bodies alternatives, readHead kind tokens = .ok (head, attributes) ∧
      withoutEnds tokens = .ok inner ∧ readSign kind inner = .ok (weight, bodies) ∧
      ¬ (kind = .weighted ∧ .bar ∈ bodies) ∧
      (pieces .bar bodies).mapM (readAlternative kind) = .ok alternatives ∧
      rule = { head, attributes, weight, alternatives } := by
  constructor
  · intro read
    simp only [ofTokens, bind_eq_ok_iff] at read
    obtain ⟨⟨head, attributes⟩, first, inner, ends, ⟨weight, bodies⟩, sign, read⟩ := read
    split at read
    · obtain ⟨_, thrown, -⟩ := bind_eq_ok_iff.1 read
      cases thrown
    · next single =>
      obtain ⟨alternatives, each, same⟩ := bind_eq_ok_iff.1 read
      cases same
      exact ⟨head, attributes, inner, weight, bodies, alternatives, first, ends, sign, single, each, rfl⟩
  · rintro ⟨head, attributes, inner, weight, bodies, alternatives, first, ends, sign, single, each, rfl⟩
    simp only [ofTokens, bind_eq_ok_iff]
    refine ⟨(head, attributes), first, inner, ends, (weight, bodies), sign, ?_⟩
    rw [if_neg single]
    exact bind_eq_ok_iff.2 ⟨alternatives, each, rfl⟩

theorem readBodies_iff {bodies : List (List Token)} {alternatives : List (List Occurrence)} :
    bodies.mapM (readAlternative kind) = .ok alternatives ↔
      (∀ body ∈ bodies, body ≠ []) ∧ List.Forall₂ (List.Forall₂ (Occurrence.IsWritten kind)) bodies alternatives := by
  rw [mapM_eq_ok_iff, ← List.forall₂_and_left]
  simp only [readAlternative_iff]

theorem ofTokens_iff : ofTokens kind tokens = .ok rule ↔ IsWritten kind tokens rule := by
  rw [ofTokens_eq_ok_iff]
  constructor
  · rintro ⟨head, attributes, inner, weight, bodies, alternatives, named, ends, sign, single, each, rfl⟩
    obtain ⟨filled, read⟩ := readBodies_iff.1 each
    cases tokens with
    | nil => cases named
    | cons first rest =>
      cases kind with
      | plain =>
        obtain ⟨rfl, rfl⟩ := readHead_plain_iff.1 named
        have notStop : Token.name head none ≠ .stop := nofun
        obtain rfl := (withoutEnds_iff notStop).1 ends
        obtain ⟨rfl, rfl⟩ := readSign_plain_iff.1 sign
        have written := @IsWritten.plain head _ _ (pieces_ne_nil .bar bodies) filled read
        rwa [intercalate_pieces] at written
      | weighted =>
        have declares := readHead_weighted_iff.1 named
        have notStop : first ≠ .stop := by
          rintro rfl
          cases declares
        obtain rfl := (withoutEnds_iff notStop).1 ends
        obtain ⟨weightText, rfl, parses⟩ := readSign_weighted_iff.1 sign
        have noBar : .bar ∉ bodies := fun bar => single ⟨rfl, bar⟩
        rw [pieces_of_not_mem noBar] at filled read
        obtain ⟨occurrences, _, one, none, rfl⟩ := List.forall₂_cons_left_iff.1 read
        rw [List.forall₂_nil_left_iff.1 none]
        exact .weighted declares parses (filled bodies List.mem_cons_self) one
  · intro written
    cases written with
    | @plain head bodies alternatives some filled read =>
      have free : ∀ body ∈ bodies, Token.bar ∉ body := by
        intro body listed
        obtain ⟨occurrences, -, written⟩ := exists_of_forall₂ read body listed
        exact bar_not_mem_of_written written
      have notStop : Token.name head none ≠ .stop := nofun
      refine ⟨head, ∅, _, .one, _, alternatives, readHead_plain_iff.2 ⟨rfl, rfl⟩, (withoutEnds_iff notStop).2 rfl,
        readSign_plain_iff.2 ⟨rfl, rfl⟩, nofun, ?_, rfl⟩
      rw [pieces_intercalate some free]
      exact readBodies_iff.2 ⟨filled, read⟩
    | @weighted first head weightText attributes weight body occurrences declares parses filled read =>
      have notStop : first ≠ .stop := by
        rintro rfl
        cases declares
      have noBar := bar_not_mem_of_written read
      refine ⟨head, attributes, _, weight, body, [occurrences], readHead_weighted_iff.2 declares,
        (withoutEnds_iff notStop).2 rfl, readSign_weighted_iff.2 ⟨weightText, rfl, parses⟩, fun bar =>
          noBar bar.2, ?_, rfl⟩
      rw [pieces_of_not_mem noBar]
      refine readBodies_iff.2 ⟨fun body single => ?_, .cons read .nil⟩
      rw [List.mem_singleton.1 single]
      exact filled

end Lines

end Rule

end ContextFree
