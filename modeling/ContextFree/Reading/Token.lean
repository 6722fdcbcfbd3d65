import ContextFree.Name
import ContextFree.Reading.Problem

namespace ContextFree

inductive Token where
  | equals
  | bar
  | stop
  | arrow (weight : String)
  | name (text : String) (block : Option String)
  | quoted (text : String)
  | empty
  deriving DecidableEq

namespace Token

open Text

def upTo (stop : Char) : List Char → Option (List Char × List Char)
  | [] => none
  | c :: rest =>
    if c = stop then some ([], rest)
    else (upTo stop rest).map fun found => (c :: found.1, found.2)

def upToArrow : List Char → Option (List Char × List Char)
  | [] => none
  | '-' :: '>' :: rest => some ([], rest)
  | c :: rest => (upToArrow rest).map fun found => (c :: found.1, found.2)

theorem upTo_eq_some {stop : Char} {text before after : List Char}
    (found : upTo stop text = some (before, after)) :
    stop ∉ before ∧ text = before ++ stop :: after := by
  induction text generalizing before with
  | nil => cases found
  | cons c rest ih =>
    rw [upTo] at found
    split at found
    · next same =>
      cases found
      simp [same]
    · next differs =>
      obtain ⟨⟨before', after'⟩, inRest, pair⟩ := Option.map_eq_some_iff.1 found
      cases pair
      obtain ⟨absent, rfl⟩ := ih inRest
      simp [absent, Ne.symm differs]

theorem upTo_append {stop : Char} {before : List Char} (absent : stop ∉ before)
    (after : List Char) : upTo stop (before ++ stop :: after) = some (before, after) := by
  induction before with
  | nil => simp [upTo]
  | cons c before ih =>
    rw [List.mem_cons, not_or] at absent
    simp [upTo, Ne.symm absent.1, ih absent.2]

theorem upToArrow_eq_some {text before after : List Char}
    (found : upToArrow text = some (before, after)) : text = before ++ '-' :: '>' :: after := by
  fun_induction upToArrow text generalizing before with
  | case1 => cases found
  | case2 rest => cases found; rfl
  | case3 c rest _ ih =>
    obtain ⟨⟨before', after'⟩, inRest, pair⟩ := Option.map_eq_some_iff.1 found
    cases pair
    rw [ih inRest, List.cons_append]

theorem length_of_upTo {stop : Char} {text before after : List Char}
    (found : upTo stop text = some (before, after)) : after.length ≤ text.length := by
  rw [(upTo_eq_some found).2, List.length_append, List.length_cons]
  omega

theorem length_of_upToArrow {text before after : List Char}
    (found : upToArrow text = some (before, after)) : after.length ≤ text.length := by
  rw [upToArrow_eq_some found, List.length_append, List.length_cons, List.length_cons]
  omega

def isNamePart (c : Char) : Bool := !isBlank c && c != '\x7b'

/-- A token and the text after it, which is no longer than what followed the first character. -/
abbrev Scanned (rest : List Char) : Type := { found : Token × List Char // found.2.length ≤ rest.length }

def scanQuoted (rest : List Char) : Except Problem (Scanned rest) :=
  match found : upTo '\'' rest with
  | none => .error .unmatchedQuote
  | some (text, after) =>
    .ok ⟨(if text.isEmpty then .empty else .quoted (String.ofList text), after), length_of_upTo found⟩

def scanArrow (rest : List Char) : Except Problem (Scanned rest) :=
  match found : upToArrow rest with
  | none => .error .malformedArrow
  | some (weight, after) => .ok ⟨(.arrow (String.ofList weight), after), length_of_upToArrow found⟩

def scanName (first : Char) (rest : List Char) : Except Problem (Scanned rest) :=
  let text := String.ofList (first :: rest.takeWhile isNamePart)
  match Name.checkNonterminal text with
  | .error fault => .error (.refused fault)
  | .ok () =>
    match left : rest.dropWhile isNamePart with
    | '\x7b' :: inside =>
      match found : upTo '\x7d' inside with
      | none => .error .unmatchedBrace
      | some (block, after) =>
        .ok ⟨(.name text (some (String.ofList block)), after), by
          have whole : (rest.dropWhile isNamePart).length ≤ rest.length := (List.dropWhile_sublist isNamePart).length_le
          have part := length_of_upTo found
          rw [left, List.length_cons] at whole
          exact Nat.le_trans part (Nat.le_of_succ_le whole)⟩
    | after => .ok ⟨(.name text none, after), left ▸ (List.dropWhile_sublist isNamePart).length_le⟩

/-- Takes a token off a text that starts with a character that is no white space. A brace opens no
token, since a name has to stand before it. -/
def scan (first : Char) (rest : List Char) : Except Problem (Scanned rest) :=
  if first = '=' then .ok ⟨(.equals, rest), Nat.le_refl _⟩
  else if first = '|' then .ok ⟨(.bar, rest), Nat.le_refl _⟩
  else if first = ';' then .ok ⟨(.stop, rest), Nat.le_refl _⟩
  else if first = '\'' then scanQuoted rest
  else if first = '-' then scanArrow rest
  else if first = '\x7b' then .error (.refused (.invalid .blankName))
  else scanName first rest

def scanAll : List Char → Except Problem (List Token)
  | [] => .ok []
  | c :: rest =>
    if isBlank c then scanAll rest
    else
      match scan c rest with
      | .error problem => .error problem
      | .ok ⟨(token, after), _⟩ => (scanAll after).map (token :: ·)
termination_by text => text.length
decreasing_by
  · exact Nat.lt_succ_self _
  · next shorter => exact Nat.lt_succ_of_le shorter

end Token

end ContextFree
