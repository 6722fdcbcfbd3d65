import ContextFree.Grammar.Basic
import ContextFree.Reading.Token
import ContextFree.Text.Basic

namespace ContextFree

structure Occurrence where
  symbol : Symbol
  annotation : Option Letters := none
  deriving DecidableEq

structure Rule where
  head : String
  attributes : Attributes := ∅
  weight : Weight := .one
  alternatives : List (List Occurrence)
  deriving DecidableEq

namespace Rule

open Text

def isSingleLetter : List Char → Bool
  | [c] => Letters.isLetter c
  | _ => false

/-- Single letters between commas; a comma with nothing before it is passed over. -/
def readLetters (block : String) (text : List Char) : Except Problem Letters :=
  let items := (pieces ',' text).filter fun item => !item.isEmpty
  if items.all isSingleLetter then .ok (Letters.ofList items.flatten)
  else .error (.malformedAttributes block)

def readHeadBlock (block : String) : Except Problem Attributes :=
  match Token.upTo ';' block.toList with
  | none => .error (.malformedAttributes block)
  | some (before, after) => do
    let inherited ← readLetters block before
    let synthesized ← readLetters block after
    return { inherited, synthesized }

def readBodyBlock (block : String) : Except Problem Letters :=
  if block.toList.contains ';' then .error (.malformedAttributes block)
  else readLetters block block.toList

def readHead (kind : Kind) : List Token → Except Problem (String × Attributes)
  | [] => .error .blankLine
  | .name name none :: _ => .ok (name, ∅)
  | .name name (some block) :: _ =>
    match kind with
    | .plain => .error (.unexpectedAttributes name)
    | .weighted => (readHeadBlock block).map fun attributes => (name, attributes)
  | _ :: _ => .error .missingName

def withoutEnds (tokens : List Token) : Except Problem (List Token) :=
  if tokens.getLast? = some .stop then .ok tokens.tail.dropLast else .error .missingEnd

def readSign (kind : Kind) (tokens : List Token) : Except Problem (Weight × List Token) :=
  match kind, tokens with
  | .plain, .equals :: rest => .ok (.one, rest)
  | .plain, .arrow _ :: _ => .error .unexpectedArrow
  | .plain, _ => .error .missingEquals
  | .weighted, .arrow text :: rest =>
    match Weight.read text.toList with
    | .ok weight => .ok (weight, rest)
    | .error _ => .error (.invalidWeight text)
  | .weighted, .equals :: _ => .error .unexpectedEquals
  | .weighted, _ => .error .missingArrow

def readOccurrence (kind : Kind) : Token → Except Problem Occurrence
  | .equals => .error .unexpectedEquals
  | .arrow _ => .error .unexpectedArrow
  | .bar => .error .emptyAlternative
  | .stop => .error .emptyAlternative
  | .quoted text => .ok { symbol := .terminal text }
  | .empty => .ok { symbol := .empty }
  | .name name none => .ok { symbol := .nonterminal name }
  | .name name (some block) =>
    match kind with
    | .plain => .error (.unexpectedAttributes name)
    | .weighted =>
      (readBodyBlock block).map fun letters =>
        { symbol := .nonterminal name, annotation := some letters }

def readAlternative (kind : Kind) (tokens : List Token) : Except Problem (List Occurrence) :=
  if tokens.isEmpty then .error .emptyAlternative else tokens.mapM (readOccurrence kind)

def ofTokens (kind : Kind) (tokens : List Token) : Except Problem Rule := do
  let (head, attributes) ← readHead kind tokens
  let inner ← withoutEnds tokens
  let (weight, bodies) ← readSign kind inner
  if kind = .weighted ∧ .bar ∈ bodies then throw .unexpectedBar
  let alternatives ← (pieces .bar bodies).mapM (readAlternative kind)
  return { head, attributes, weight, alternatives }

/-- `name = body | ... | body ;` in plain grammars, `name -weight-> body ;` in weighted ones, where names may
carry attribute blocks. -/
def read (kind : Kind) (line : List Char) : Except Problem Rule := do
  let tokens ← Token.scanAll line
  ofTokens kind tokens

end Rule

end ContextFree
