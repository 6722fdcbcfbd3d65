import ContextFree.Proofs.Reading.Layout

namespace ContextFree

open Text

namespace Token

def text : Token → String
  | .equals => "="
  | .bar => "|"
  | .stop => ";"
  | .arrow weight => "-" ++ weight ++ "->"
  | .name word none => word
  | .name word (some block) => word ++ "\x7b" ++ block ++ "\x7d"
  | .quoted value => "'" ++ value ++ "'"
  | .empty => "''"

/-- The parts of a token hold no mark that would end them too early, and no white space. -/
def IsWritable : Token → Prop
  | .arrow weight => ∀ c ∈ weight.toList, isBlank c = false ∧ c ≠ '>'
  | .name word none => Name.checkNonterminal word = .ok ()
  | .name word (some block) =>
    Name.checkNonterminal word = .ok () ∧ ∀ c ∈ block.toList, isBlank c = false ∧ c ≠ '\x7d'
  | .quoted value => value.toList ≠ [] ∧ ∀ c ∈ value.toList, isBlank c = false ∧ c ≠ '\''
  | _ => True

variable {token : Token} {tokens : List Token} {after : List Char}

theorem toList_text_arrow (weight : String) : (arrow weight).text.toList = '-' :: (weight.toList ++ ['-', '>']) := by
  simp [text, String.toList_append]

theorem toList_text_quoted (value : String) : (quoted value).text.toList = '\'' :: (value.toList ++ ['\'']) := by
  simp [text, String.toList_append]

theorem toList_text_block (word block : String) :
    (name word (some block)).text.toList = word.toList ++ '\x7b' :: (block.toList ++ ['\x7d']) := by
  simp [text, String.toList_append]

theorem starts_text (writable : token.IsWritable) (ends : ∀ c ∈ after.head?, isBlank c = true) :
    Starts (token.text.toList ++ after) token after := by
  cases token with
  | equals => exact .equals
  | bar => exact .bar
  | stop => exact .stop
  | empty => exact .empty
  | arrow weight =>
    rw [toList_text_arrow, List.cons_append, List.append_assoc]
    refine .arrow fun pointed => ?_
    exact (writable '>' (pointed.subset (by simp))).2 rfl
  | quoted value =>
    rw [toList_text_quoted, List.cons_append, List.append_assoc]
    exact .quoted writable.1 fun quote => (writable.2 '\'' quote).2 rfl
  | name word block =>
    cases block with
    | none => exact .bare writable ends
    | some block =>
      rw [toList_text_block, List.append_assoc, List.cons_append, List.append_assoc]
      exact .block writable.1 fun brace => (writable.2 '\x7d' brace).2 rfl

theorem solid_of_checkNonterminal {word : String} (legal : Name.checkNonterminal word = .ok ()) :
    ∀ c ∈ word.toList, isBlank c = false := fun c member =>
  (Name.isPlain_iff.1 ((Name.checkNonterminal_iff.1 legal).2 c member)).2.2

theorem solid_of_all {text : List Char} (all : (text.all fun c => !isBlank c) = true) :
    ∀ c ∈ text, isBlank c = false := fun c member => by simpa using List.all_eq_true.1 all c member

theorem solid_of_mem_text (writable : token.IsWritable) : ∀ c ∈ token.text.toList, isBlank c = false := by
  intro c member
  cases token with
  | arrow weight =>
    rw [toList_text_arrow, List.mem_cons, List.mem_append] at member
    rcases member with rfl | inside | ends
    · decide
    · exact (writable c inside).1
    · exact solid_of_all (by decide) c ends
  | quoted value =>
    rw [toList_text_quoted, List.mem_cons, List.mem_append] at member
    rcases member with rfl | inside | ends
    · decide
    · exact (writable.2 c inside).1
    · rw [List.mem_singleton.1 ends]
      decide
  | name word block =>
    cases block with
    | none => exact solid_of_checkNonterminal writable c member
    | some block =>
      rw [toList_text_block, List.mem_append, List.mem_cons, List.mem_append] at member
      rcases member with front | rfl | inside | ends
      · exact solid_of_checkNonterminal writable.1 c front
      · decide
      · exact (writable.2 c inside).1
      · rw [List.mem_singleton.1 ends]
        decide
  | _ => exact solid_of_all (by decide) c member

theorem spells_texts (writable : ∀ token ∈ tokens, token.IsWritable) :
    Spells (String.intercalate " " (tokens.map text)).toList tokens := by
  rw [String.toList_intercalate, List.map_map]
  induction tokens with
  | nil => exact .done
  | cons token rest ih =>
    rw [List.forall_mem_cons] at writable
    cases rest with
    | nil =>
      rw [List.map_singleton, List.intercalate_singleton]
      have starts := starts_text writable.1 (show ∀ c ∈ ([] : List Char).head?, isBlank c = true from nofun)
      rw [List.append_nil] at starts
      exact .token starts .done
    | cons next more =>
      rw [List.map_cons, List.map_cons, List.intercalate_cons_cons, List.append_assoc]
      refine .token (starts_text writable.1 fun c space => ?_) (.blank (by decide) (ih writable.2))
      cases space
      decide

theorem mem_of_mem_texts (writable : ∀ token ∈ tokens, token.IsWritable) :
    ∀ c ∈ (String.intercalate " " (tokens.map text)).toList, c = ' ' ∨ isBlank c = false := by
  intro c member
  rw [String.toList_intercalate, List.map_map] at member
  rcases mem_of_mem_intercalate member with space | ⟨_, listed, inside⟩
  · exact Or.inl (List.mem_singleton.1 space)
  · obtain ⟨token, found, rfl⟩ := List.mem_map.1 listed
    exact Or.inr (solid_of_mem_text (writable token found) c inside)

end Token

namespace Reading

variable {kind : Kind}

/-- A line that writes a rule, token by token and with a name in front. -/
def Renders (kind : Kind) (line : String) (rule : Rule) : Prop :=
  ∃ name block tokens, line = String.intercalate " " ((Token.name name block :: tokens).map Token.text) ∧
    (∀ token ∈ Token.name name block :: tokens, token.IsWritable) ∧ rule.IsWritten kind (.name name block :: tokens)

theorem isPrefix_text (token : Token) (rest : List Token) :
    token.text.toList <+: (String.intercalate " " ((token :: rest).map Token.text)).toList := by
  cases rest with
  | nil => simp
  | cons next more =>
    rw [List.map_cons, List.map_cons, String.intercalate_cons_cons, String.toList_append, String.toList_append,
      List.append_assoc]
    exact List.prefix_append _ _

theorem isPrefix_name (name : String) (block : Option String) :
    name.toList <+: (Token.name name block).text.toList := by
  cases block with
  | none => exact List.prefix_rfl
  | some block =>
    rw [Token.toList_text_block]
    exact List.prefix_append _ _

theorem not_isPassed_of_name {name : String} {line : List Char} (legal : Name.checkNonterminal name = .ok ())
    (starts : name.toList <+: line) : ¬ IsPassed line := by
  obtain ⟨⟨first, rest, chars, -, hash⟩, plain⟩ := Name.checkNonterminal_iff.1 legal
  obtain ⟨more, rfl⟩ := starts
  have solid := (Name.isPlain_iff.1 (plain first (by rw [chars]; exact List.mem_cons_self))).2.2
  rw [chars, List.cons_append, isPassed_cons_iff, solid]
  rintro (⟨blank, -⟩ | ⟨-, same⟩)
  · cases blank
  · exact hash same

theorem checkNonterminal_of_writable {name : String} {block : Option String}
    (writable : (Token.name name block).IsWritable) :
    Name.checkNonterminal name = .ok () := by
  cases block with
  | none => exact writable
  | some block => exact writable.1

theorem counts_of_renders {line : String} {rule : Rule} (renders : Renders kind line rule) :
    ¬ IsPassed line.toList := by
  obtain ⟨name, block, tokens, rfl, writable, -⟩ := renders
  exact not_isPassed_of_name (checkNonterminal_of_writable (writable _ List.mem_cons_self))
    ((isPrefix_name name block).trans (isPrefix_text _ tokens))

theorem not_mem_of_renders {line : String} {rule : Rule} {c : Char} (renders : Renders kind line rule)
    (blank : isBlank c = true) (noSpace : c ≠ ' ') : c ∉ line.toList := by
  obtain ⟨name, block, tokens, rfl, writable, -⟩ := renders
  intro member
  rcases Token.mem_of_mem_texts writable c member with space | solid
  · exact noSpace space
  · rw [blank] at solid
    cases solid

theorem lays_of_counted {lines : List (List Char)} {rules : List Rule}
    (written : List.Forall₂ (fun line rule => ¬ IsPassed line ∧ ∃ tokens, Token.Spells line tokens ∧
      rule.IsWritten kind tokens) lines rules) : Lays kind lines rules := by
  induction written with
  | nil => exact .done
  | cons here _ ih =>
    obtain ⟨counts, tokens, spells, written⟩ := here
    exact .rule counts spells written ih

theorem lays_of_renders {texts : List String} {rules : List Rule} (renders : List.Forall₂ (Renders kind) texts rules) :
    Lays kind (lines '\n' '\r' (String.intercalate "\n" texts).toList) rules := by
  have each : ∀ line ∈ texts.map String.toList, line ≠ [] ∧ '\n' ∉ line ∧ line.getLast? ≠ some '\r' := by
    intro line listed
    obtain ⟨text, member, rfl⟩ := List.mem_map.1 listed
    obtain ⟨rule, -, here⟩ := Rule.exists_of_forall₂ renders text member
    refine ⟨?_, not_mem_of_renders here (by decide) (by decide), fun ends => ?_⟩
    · intro none
      exact counts_of_renders here (Or.inl (by simp [none]))
    · exact not_mem_of_renders here (by decide) (by decide) (List.mem_of_getLast? ends)
  rw [String.toList_intercalate]
  rw [show "\n".toList = ['\n'] from rfl, lines_intercalate (fun line listed => (each line listed).2.1)
    (fun line listed => (each line listed).1) fun line listed => (each line listed).2.2]
  refine lays_of_counted (List.forall₂_map_left_iff.2 (renders.imp fun line rule here => ?_))
  refine ⟨counts_of_renders here, ?_⟩
  obtain ⟨name, block, tokens, rfl, writable, written⟩ := here
  exact ⟨_, Token.spells_texts writable, written⟩

end Reading

end ContextFree
