import ContextFree.Proofs.Name
import ContextFree.Proofs.Text.Lines
import ContextFree.Reading.Token

namespace ContextFree.Token

open Text

inductive Starts : List Char → Token → List Char → Prop where
  | equals {after : List Char} : Starts ('=' :: after) .equals after
  | bar {after : List Char} : Starts ('|' :: after) .bar after
  | stop {after : List Char} : Starts (';' :: after) .stop after
  | empty {after : List Char} : Starts ('\'' :: '\'' :: after) .empty after
  | quoted {value : String} {after : List Char} (filled : value.toList ≠ []) (unquoted : '\'' ∉ value.toList) :
    Starts ('\'' :: (value.toList ++ '\'' :: after)) (.quoted value) after
  | arrow {weight : String} {after : List Char} (unpointed : ¬ ['-', '>'] <:+: weight.toList) :
    Starts ('-' :: (weight.toList ++ '-' :: '>' :: after)) (.arrow weight) after
  | bare {name : String} {after : List Char} (legal : Name.checkNonterminal name = .ok ())
    (ends : ∀ c ∈ after.head?, isBlank c = true) : Starts (name.toList ++ after) (.name name none) after
  | block {name block : String} {after : List Char} (legal : Name.checkNonterminal name = .ok ())
    (unbraced : '\x7d' ∉ block.toList) :
    Starts (name.toList ++ '\x7b' :: (block.toList ++ '\x7d' :: after)) (.name name (some block)) after

/-- The tokens of a text, between which there may be white space. -/
inductive Spells : List Char → List Token → Prop where
  | done : Spells [] []
  | blank {c : Char} {text : List Char} {tokens : List Token} (white : isBlank c = true)
    (rest : Spells text tokens) : Spells (c :: text) tokens
  | token {token : Token} {text after : List Char} {tokens : List Token} (first : Starts text token after)
    (rest : Spells after tokens) : Spells text (token :: tokens)

section Scanning

variable {first : Char} {text before after : List Char} {token : Token}

theorem upToArrow_append (unpointed : ¬ ['-', '>'] <:+: before) (after : List Char) :
    upToArrow (before ++ '-' :: '>' :: after) = some (before, after) := by
  induction before with
  | nil => rfl
  | cons c before ih =>
    have later : ¬ ['-', '>'] <:+: before := fun found => unpointed (List.infix_cons found)
    have notHere : ∀ rest, c :: (before ++ '-' :: '>' :: after) ≠ '-' :: '>' :: rest := by
      intro rest same
      cases before with
      | nil => cases same
      | cons d before =>
        cases same
        exact unpointed ⟨[], before, rfl⟩
    rw [List.cons_append, upToArrow.eq_3 _ _ (by simpa using notHere), ih later]
    rfl

theorem unpointed_of_upToArrow (found : upToArrow text = some (before, after)) : ¬ ['-', '>'] <:+: before := by
  fun_induction upToArrow text generalizing before with
  | case1 => cases found
  | case2 rest =>
    cases found
    simp
  | case3 c rest notHere ih =>
    obtain ⟨⟨before', after'⟩, inRest, pair⟩ := Option.map_eq_some_iff.1 found
    cases pair
    rw [List.infix_cons_iff]
    rintro (⟨more, same⟩ | later)
    · cases same
      exact notHere _ rfl (upToArrow_eq_some inRest)
    · exact ih inRest later

theorem solid_of_starts (starts : Starts text token after) :
    ∃ first rest, text = first :: rest ∧ isBlank first = false := by
  have named : ∀ name rest, Name.checkNonterminal name = .ok () →
      ∃ first more, name.toList ++ rest = first :: more ∧ isBlank first = false := by
    intro name rest legal
    obtain ⟨⟨c, more, spelled, -⟩, plain⟩ := Name.checkNonterminal_iff.1 legal
    rw [spelled] at plain ⊢
    exact ⟨c, more ++ rest, rfl, (Name.isPlain_iff.1 (plain c List.mem_cons_self)).2.2⟩
  cases starts with
  | bare legal => exact named _ _ legal
  | block legal => exact named _ _ legal
  | _ => exact ⟨_, _, rfl, by decide⟩

theorem starts_of_scanQuoted {found : Scanned text} (ran : scanQuoted text = .ok found) :
    Starts ('\'' :: text) found.1.1 found.1.2 := by
  unfold scanQuoted at ran
  split at ran
  · cases ran
  · next value rest found =>
    cases ran
    obtain ⟨unquoted, rfl⟩ := upTo_eq_some found
    dsimp only
    split
    · next none =>
      rw [List.isEmpty_iff.1 none]
      exact .empty
    · next filled =>
      have starts := @Starts.quoted (String.ofList value) rest
      rw [String.toList_ofList] at starts
      exact starts (by simpa using filled) unquoted

theorem starts_of_scanArrow {found : Scanned text} (ran : scanArrow text = .ok found) :
    Starts ('-' :: text) found.1.1 found.1.2 := by
  unfold scanArrow at ran
  split at ran
  · cases ran
  · next weight rest found =>
    cases ran
    obtain rfl := upToArrow_eq_some found
    have starts := @Starts.arrow (String.ofList weight) rest
    rw [String.toList_ofList] at starts
    exact starts (unpointed_of_upToArrow found)

theorem starts_of_scanName {found : Scanned text} (ran : scanName first text = .ok found) :
    Starts (first :: text) found.1.1 found.1.2 := by
  have whole : text = text.takeWhile isNamePart ++ text.dropWhile isNamePart := List.takeWhile_append_dropWhile.symm
  simp only [scanName] at ran
  cases legal : Name.checkNonterminal (String.ofList (first :: text.takeWhile isNamePart)) with
  | error fault =>
    simp only [legal, reduceCtorEq] at ran
  | ok done =>
    simp only [legal] at ran
    split at ran
    · next inside left =>
      split at ran
      · cases ran
      · next block rest closed =>
        cases ran
        obtain ⟨unbraced, rfl⟩ := upTo_eq_some closed
        have starts := @Starts.block _ (String.ofList block) rest legal
        rw [String.toList_ofList, String.toList_ofList, List.cons_append, ← left, ← whole] at starts
        exact starts unbraced
    · next notBlock =>
      cases ran
      have starts := @Starts.bare _ (text.dropWhile isNamePart) legal
      rw [String.toList_ofList, List.cons_append, ← whole] at starts
      refine starts fun c leads => ?_
      have ends := List.head?_dropWhile_not isNamePart text
      rw [leads] at ends
      change isNamePart c = false at ends
      rw [isNamePart, Bool.and_eq_false_iff, Bool.not_eq_false', bne_eq_false_iff_eq] at ends
      obtain ⟨rest, left⟩ := List.head?_eq_some_iff.1 leads
      exact ends.resolve_right fun brace => notBlock rest (brace ▸ left)

theorem scanQuoted_of_upTo {value : List Char} (found : upTo '\'' text = some (value, after)) :
    (scanQuoted text).map Subtype.val = .ok
      (if value.isEmpty then .empty else .quoted (String.ofList value), after) := by
  unfold scanQuoted
  split
  · next none =>
    rw [found] at none
    cases none
  · next again =>
    cases found.symm.trans again
    rfl

theorem scanArrow_of_upToArrow {weight : List Char} (found : upToArrow text = some (weight, after)) :
    (scanArrow text).map Subtype.val = .ok (.arrow (String.ofList weight), after) := by
  unfold scanArrow
  split
  · next none =>
    rw [found] at none
    cases none
  · next again =>
    cases found.symm.trans again
    rfl

theorem isNamePart_of_legal {name : String} (legal : Name.checkNonterminal name = .ok ()) :
    ∀ c ∈ name.toList, isNamePart c = true := by
  intro c member
  obtain ⟨free, -, solid⟩ := Name.isPlain_iff.1 ((Name.checkNonterminal_iff.1 legal).2 c member)
  rw [isNamePart, solid, Bool.not_false, Bool.true_and, bne_iff_ne]
  rintro rfl
  cases free

theorem parts_of_legal {name : String} {more : List Char} (legal : Name.checkNonterminal name = .ok ())
    (ends : ∀ c ∈ after.head?, isNamePart c = false) (spelled : name.toList = first :: more) :
    (more ++ after).takeWhile isNamePart = more ∧ (more ++ after).dropWhile isNamePart = after := by
  refine cut_append (fun c member => isNamePart_of_legal legal c ?_) ends
  rw [spelled]
  exact List.mem_cons_of_mem first member

theorem scanName_of_bare {name : String} {more : List Char} (legal : Name.checkNonterminal name = .ok ())
    (spelled : name.toList = first :: more) (ends : ∀ c ∈ after.head?, isBlank c = true) :
    (scanName first (more ++ after)).map Subtype.val = .ok (.name name none, after) := by
  obtain ⟨taken, left⟩ := @parts_of_legal first after _ _ legal
    (fun c leads => by rw [isNamePart, ends c leads]; rfl) spelled
  have text : String.ofList (first :: more) = name := by rw [← spelled, String.ofList_toList]
  simp only [scanName, taken, text, legal]
  split
  · next inside brace =>
    rw [left] at brace
    have white := ends '\x7b' (by rw [brace]; rfl)
    cases white
  · simp only [left]
    rfl

theorem scanName_of_block {name block : String} {more : List Char} (legal : Name.checkNonterminal name = .ok ())
    (spelled : name.toList = first :: more) (unbraced : '\x7d' ∉ block.toList) :
    (scanName first (more ++ '\x7b' :: (block.toList ++ '\x7d' :: after))).map Subtype.val =
      .ok (.name name (some block), after) := by
  obtain ⟨taken, left⟩ := @parts_of_legal first ('\x7b' :: (block.toList ++ '\x7d' :: after)) _ _ legal
    (fun c leads => by cases leads; rfl) spelled
  have text : String.ofList (first :: more) = name := by rw [← spelled, String.ofList_toList]
  have closed := upTo_append unbraced after
  simp only [scanName, taken, text, legal]
  split
  · next inside brace =>
    cases left.symm.trans brace
    split
    · next none =>
      rw [closed] at none
      cases none
    · next again =>
      cases closed.symm.trans again
      rw [String.ofList_toList]
      rfl
  · next notBlock => exact absurd left (notBlock _)

theorem scan_of_legal {name : String} {more : List Char} (legal : Name.checkNonterminal name = .ok ())
    (spelled : name.toList = first :: more) (text : List Char) : scan first text = scanName first text := by
  obtain ⟨⟨c, _, same, dash, -⟩, plain⟩ := Name.checkNonterminal_iff.1 legal
  rw [spelled] at same plain
  cases same
  obtain ⟨free, unquoted, -⟩ := Name.isPlain_iff.1 (plain first List.mem_cons_self)
  simp only [Name.isReserved, Bool.or_eq_false_iff, beq_eq_false_iff_ne] at free
  obtain ⟨⟨⟨⟨opened, closed⟩, stop⟩, bar⟩, equals⟩ := free
  rw [scan, if_neg equals, if_neg bar, if_neg stop, if_neg unquoted, if_neg dash, if_neg opened]

theorem scan_of_starts (starts : Starts (first :: text) token after) :
    (scan first text).map Subtype.val = .ok (token, after) := by
  generalize whole : first :: text = line at starts
  cases starts with
  | equals =>
    cases whole
    rfl
  | bar =>
    cases whole
    rfl
  | stop =>
    cases whole
    rfl
  | empty =>
    cases whole
    exact scanQuoted_of_upTo (upTo_append List.not_mem_nil _)
  | @quoted value after filled unquoted =>
    cases whole
    have found := scanQuoted_of_upTo (upTo_append unquoted after)
    rw [List.isEmpty_eq_false_iff.2 filled, String.ofList_toList] at found
    exact found
  | @arrow weight after unpointed =>
    cases whole
    have found := scanArrow_of_upToArrow (upToArrow_append unpointed after)
    rw [String.ofList_toList] at found
    exact found
  | @bare name after legal ends =>
    obtain ⟨⟨c, more, spelled, -⟩, -⟩ := Name.checkNonterminal_iff.1 legal
    rw [spelled] at whole
    cases whole
    rw [scan_of_legal legal spelled]
    exact scanName_of_bare legal spelled ends
  | @block name block after legal unbraced =>
    obtain ⟨⟨c, more, spelled, -⟩, -⟩ := Name.checkNonterminal_iff.1 legal
    rw [spelled] at whole
    cases whole
    rw [scan_of_legal legal spelled]
    exact scanName_of_block legal spelled unbraced

theorem starts_of_scan {found : Scanned text} (ran : scan first text = .ok found) :
    Starts (first :: text) found.1.1 found.1.2 := by
  unfold scan at ran
  split at ran
  · next same =>
    cases ran
    exact same ▸ .equals
  split at ran
  · next same =>
    cases ran
    exact same ▸ .bar
  split at ran
  · next same =>
    cases ran
    exact same ▸ .stop
  split at ran
  · next same => exact same ▸ starts_of_scanQuoted ran
  split at ran
  · next same => exact same ▸ starts_of_scanArrow ran
  split at ran
  · cases ran
  · exact starts_of_scanName ran

theorem scanAll_iff {tokens : List Token} : scanAll text = .ok tokens ↔ Spells text tokens := by
  constructor
  · intro ran
    fun_induction scanAll text generalizing tokens with
    | case1 =>
      cases ran
      exact .done
    | case2 c rest white ih => exact .blank white (ih ran)
    | case3 => cases ran
    | case4 c rest solid token after short scanned ih =>
      cases others : scanAll after with
      | error problem =>
        rw [others] at ran
        cases ran
      | ok more =>
        rw [others] at ran
        cases ran
        exact .token (starts_of_scan scanned) (ih others)
  · intro spells
    induction spells with
    | done => rw [scanAll]
    | blank white _ ih =>
      rw [scanAll, if_pos white]
      exact ih
    | @token token text after tokens starts _ ih =>
      obtain ⟨first, rest, rfl, solid⟩ := solid_of_starts starts
      rw [scanAll, if_neg (Bool.eq_false_iff.1 solid)]
      split
      · next problem refused =>
        have scanned := scan_of_starts starts
        rw [refused] at scanned
        cases scanned
      · next again left short found =>
        have scanned := scan_of_starts starts
        rw [found] at scanned
        cases scanned
        rw [ih]
        rfl

end Scanning

def IsLegal : Token → Prop
  | .name word _ => Name.checkNonterminal word = .ok ()
  | .quoted value => value.toList ≠ [] ∧ '\'' ∉ value.toList
  | _ => True

theorem Starts.isLegal {text after : List Char} {token : Token} (starts : Starts text token after) : token.IsLegal := by
  cases starts with
  | quoted filled unquoted => exact ⟨filled, unquoted⟩
  | bare legal => exact legal
  | block legal => exact legal
  | _ => trivial

theorem Spells.isLegal {text : List Char} {tokens : List Token} (spells : Spells text tokens) :
    ∀ token ∈ tokens, token.IsLegal := by
  induction spells with
  | done => exact fun _ none => nomatch none
  | blank _ _ ih => exact ih
  | token first _ ih => exact List.forall_mem_cons.2 ⟨first.isLegal, ih⟩

end ContextFree.Token
