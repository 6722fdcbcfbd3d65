import ContextFree.Grammar.Basic

namespace ContextFree.Grammar

def braced (block : String) : String := "\x7b" ++ block ++ "\x7d"

def annotated (name : String) (attributes : Option Attributes) (block : Attributes → String) :
    String :=
  match attributes with
  | some a => if a.isEmpty then name else name ++ braced (block a)
  | none => name

def headText (g : Grammar) (head : String) : String :=
  match g.kind with
  | .plain => head
  | .weighted => annotated head (g.attributesOf? head) Attributes.headText

def symbolText (g : Grammar) (symbol : Symbol) : String :=
  match g.kind, symbol with
  | .weighted, .nonterminal name => annotated name (g.attributesOf? name) Attributes.bodyText
  | _, _ => symbol.text

def bodyText (g : Grammar) (body : Body) : String :=
  String.intercalate " " (body.map g.symbolText)

def plainLine (g : Grammar) (head : String) : String :=
  head ++ " = " ++
    String.intercalate " | " ((g.productionsOf head).map fun p => g.bodyText p.body) ++ " ;"

def weightedLine (g : Grammar) (p : Production) : String :=
  g.headText p.head ++ " -" ++ p.weight.text ++ "-> " ++ g.bodyText p.body ++ " ;"

def heads (g : Grammar) : List String :=
  g.nonterminals.names.filter fun name => !(g.productionsOf name).isEmpty

def textLines (g : Grammar) : List String :=
  match g.kind with
  | .plain => g.heads.map g.plainLine
  | .weighted => g.heads.flatMap fun head => (g.productionsOf head).map g.weightedLine

def text (g : Grammar) : String :=
  if g.isEmpty then
    match g.kind with
    | .plain => "Empty grammar"
    | .weighted => "Empty WAG"
  else String.intercalate "\n" g.textLines

end ContextFree.Grammar
