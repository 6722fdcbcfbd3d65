import ContextFree.Attributes
import ContextFree.Binary64.Decimal
import ContextFree.Symbol

namespace ContextFree

inductive Invalidity where
  | blankName
  | spacedName (value : String)
  | reservedName (value : String) (found : Char)
  | leadingName (value : String) (found : Char)
  | emptyBody (head : String)
  | replacedHead (source target : Symbol)
  | letter (found : Char)
  | notWeight (text : String)
  | weightRange (value : Binary64)
  | other (reason : String)
  deriving DecidableEq

inductive Place where
  | nonterminals
  | terminals
  | productions
  deriving DecidableEq

inductive Fault where
  | outOfRange (place : Place) (index size : Nat)
  | clash (letter : Char) (owner : String) (present : AttributeKind)
  | invalid (reason : Invalidity)
  | undefined (name : String)
  deriving DecidableEq

def Invalidity.message : Invalidity → String
  | .blankName => "symbol value is empty"
  | .spacedName value => "symbol value `" ++ value ++ "` contains whitespace or a quote"
  | .reservedName value found => "nonterminal `" ++ value ++ "` contains `" ++ found.toString ++ "`"
  | .leadingName value found =>
    "nonterminal `" ++ value ++ "` cannot start with `" ++ found.toString ++ "`"
  | .emptyBody head => "production of `" ++ head ++ "` has an empty body"
  | .replacedHead source target =>
    "`" ++ source.text ++ "` is a production head and cannot become `" ++ target.text ++ "`"
  | .letter found => "attribute name `" ++ found.toString ++ "` is not a lowercase letter"
  | .notWeight text => "`" ++ text ++ "` is not a weight"
  | .weightRange value => "weight `" ++ value.text ++ "` is not a finite non-negative number"
  | .other reason => reason

def Place.text : Place → String
  | .nonterminals => "nonterminals"
  | .terminals => "terminals"
  | .productions => "productions"

def Fault.message : Fault → String
  | .outOfRange place index size =>
    "index " ++ index.repr ++ " is out of range for " ++ place.text ++ " of length " ++ size.repr
  | .clash letter owner present =>
    "duplicate definition: attribute `" ++ letter.toString ++ "` of `" ++ owner ++
      "` is already " ++ present.word
  | .invalid reason => "invalid value: " ++ reason.message
  | .undefined name => "`" ++ name ++ "` is not defined in the grammar"

end ContextFree
