import ContextFree.Weight

namespace ContextFree

inductive FileFault where
  | system (text : String) (code : Nat)
  | notText
  deriving DecidableEq

def FileFault.message : FileFault → String
  | .system text code => text ++ " (os error " ++ code.repr ++ ")"
  | .notText => "stream did not contain valid UTF-8"

inductive Problem where
  | missingEquals
  | missingArrow
  | unexpectedEquals
  | unexpectedArrow
  | unexpectedBar
  | missingName
  | unmatchedQuote
  | unmatchedBrace
  | malformedArrow
  | missingEnd
  | emptyAlternative
  | malformedAttributes (block : String)
  | unexpectedAttributes (name : String)
  | invalidWeight (text : String)
  | attributeMismatch (name : String) (declared found : Letters)
  | undefinedAttribute (name : String) (weight : Weight)
  | refused (fault : Fault)
  | blankLine
  | unreadable (fault : FileFault)
  deriving DecidableEq

namespace Problem

def message : Problem → String
  | .missingEquals => "Expected `=` after nonterminal"
  | .missingArrow => "Expected a weight arrow `-w->` after nonterminal"
  | .unexpectedEquals => "Unexpected `=` encountered"
  | .unexpectedArrow => "Unexpected weight arrow encountered"
  | .unexpectedBar => "A weighted production has exactly one body; write one line per production"
  | .missingName => "Tried to define something other than a nonterminal"
  | .unmatchedQuote => "Unmatched quotes"
  | .unmatchedBrace => "Unmatched `\x7b`"
  | .malformedArrow => "Weight arrow is missing its `->`"
  | .missingEnd => "Expected `;` at the end of the line"
  | .emptyAlternative => "Empty alternative; write `''` for the empty string"
  | .malformedAttributes block => "Malformed attribute block `\x7b" ++ block ++ "\x7d`"
  | .unexpectedAttributes name =>
    "`" ++ name ++ "` has attributes, which a plain grammar cannot carry"
  | .invalidWeight text => "`" ++ text ++ "` is not a weight"
  | .attributeMismatch name declared found =>
    "`" ++ name ++ "` is declared with attributes \x7b" ++ declared.text ++
      "\x7d but used with \x7b" ++ found.text ++ "\x7d"
  | .undefinedAttribute name weight =>
    "Weight `" ++ weight.text ++ "` refers to an attribute `" ++ name ++ "` does not have"
  | .refused fault => fault.message
  | .blankLine =>
    "Blank line encountered in rule parser (this is a problem with the reader, not the grammar)"
  | .unreadable fault => "File error: " ++ fault.message

/-- The problem without the texts it quotes; only a refusal by the grammar keeps its cause. -/
def outline : Problem → Problem
  | .malformedAttributes _ => .malformedAttributes ""
  | .unexpectedAttributes _ => .unexpectedAttributes ""
  | .invalidWeight _ => .invalidWeight ""
  | .attributeMismatch _ _ _ => .attributeMismatch "" ∅ ∅
  | .undefinedAttribute _ _ => .undefinedAttribute "" .one
  | .unreadable (.system _ code) => .unreadable (.system "" code)
  | problem => problem

end Problem

/-- A line of a file, or of a text without a name; line zero stands for the whole. -/
structure Location where
  file : String := ""
  line : Nat := 0
  deriving DecidableEq

def Location.text (location : Location) : String :=
  if location.file.isEmpty then
    if location.line = 0 then "<input>" else "line " ++ location.line.repr
  else
    if location.line = 0 then location.file else location.file ++ ":" ++ location.line.repr

structure Placed (α : Type) where
  location : Location
  item : α
  deriving DecidableEq

namespace Placed

def display (placed : Placed Problem) : String :=
  "\x1b[31;49;1m[" ++ placed.location.text ++ "]\x1b[39;49;1m  " ++ placed.item.message ++ "\x1b[0m"

def agrees (s t : Placed Problem) : Bool :=
  s.location == t.location && s.item.outline == t.item.outline

end Placed

end ContextFree
