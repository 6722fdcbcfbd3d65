import ContextFree.Edit.Attributes
import ContextFree.Edit.Productions
import ContextFree.Reading.Rule

namespace ContextFree.Reading

open Text

abbrev Problems := List (Placed Problem)

def Problems.agree (s t : Problems) : Bool :=
  s.length == t.length && (s.zip t).all fun pair => pair.1.agrees pair.2

def isRuleLine (line : List Char) : Bool :=
  match line.dropWhile isBlank with
  | [] => false
  | c :: _ => c != '#'

def addRule (rule : Rule) : Edit Unit := do
  rule.alternatives.forM fun alternative =>
    Edit.addProduction
      { head := rule.head, weight := rule.weight, body := alternative.map Occurrence.symbol }
  Edit.mergeAttributes rule.head rule.attributes

/-- A rule that is refused keeps what it had done, and the next one goes on from there. -/
def addRules : List (Placed Rule) → Grammar → Grammar × Problems
  | [], g => (g, [])
  | rule :: rest, g =>
    let outcome := addRule rule.item g
    let (h, more) := addRules rest outcome.grammar
    match outcome.result with
    | .ok () => (h, more)
    | .error fault => (h, ⟨rule.location, .refused fault⟩ :: more)

def weightProblem (g : Grammar) (rule : Rule) : Option Problem :=
  match rule.weight with
  | .number _ => none
  | .attribute kind letter =>
    if letter ∈ (g.attributesOf rule.head).ofKind kind then none
    else some (.undefinedAttribute rule.head rule.weight)

def annotationProblem (g : Grammar) (occurrence : Occurrence) : Option Problem :=
  match occurrence.symbol, occurrence.annotation with
  | .nonterminal name, some found =>
    let declared := g.staticOf name
    if found = declared then none else some (.attributeMismatch name declared found)
  | _, _ => none

def attributeProblems (g : Grammar) (rule : Rule) : List Problem :=
  (weightProblem g rule).toList ++
    rule.alternatives.flatMap fun alternative => alternative.filterMap (annotationProblem g)

def ofRules (kind : Kind) (rules : List (Placed Rule)) : Except Problems Grammar :=
  let (g, refusals) := addRules rules { kind }
  if refusals.isEmpty then
    let problems := rules.flatMap fun rule =>
      (attributeProblems g rule.item).map fun problem => ⟨rule.location, problem⟩
    if problems.isEmpty then .ok g else .error problems
  else .error refusals

def ruleLines (file : String) (lines : List (Option (List Char))) :
    List (Except (Placed Problem) (Placed (List Char))) :=
  (lines.zipIdx 1).filterMap fun
    | (none, _) => some (.error ⟨{ file }, .unreadable .notText⟩)
    | (some line, number) =>
      if isRuleLine line then some (.ok ⟨{ file, line := number }, line⟩) else none

def readLine (kind : Kind) (line : Placed (List Char)) : Except (Placed Problem) (Placed Rule) :=
  match Rule.read kind line.item with
  | .ok rule => .ok ⟨line.location, rule⟩
  | .error problem => .error ⟨line.location, problem⟩

def failure? {ε α : Type} : Except ε α → Option ε
  | .error e => some e
  | .ok _ => none

/-- Problems of single lines come first and all together; if there are none, those of the grammar that the
rules build; and last those of attributes, which only the whole text declares. -/
def readLines (kind : Kind) (file : String) (lines : List (Option (List Char))) :
    Except Problems Grammar :=
  let results := (ruleLines file lines).map fun line => line.bind (readLine kind)
  let problems := results.filterMap failure?
  if problems.isEmpty then ofRules kind (results.filterMap Except.toOption) else .error problems

def readText (kind : Kind) (text : String) : Except Problems Grammar :=
  readLines kind "" ((lines '\n' '\r' text.toList).map some)

def decode (bytes : List UInt8) : Option (List Char) :=
  bytes.toByteArray.utf8Decode?.map Array.toList

/-- Reads the content of a file, whose lines are decoded one by one. -/
def readBytes (kind : Kind) (file : String) (bytes : List UInt8) : Except Problems Grammar :=
  readLines kind file ((lines 10 13 bytes).map decode)

end ContextFree.Reading
