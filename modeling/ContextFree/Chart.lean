import ContextFree.Derivation

namespace ContextFree

inductive ChartFault where
  | notNormal (head : String)
  | noStart
  deriving DecidableEq

def ChartFault.message : ChartFault → String
  | .notNormal head => "`" ++ head ++ "` has a production that is not in Chomsky normal form"
  | .noStart => "The grammar has no start symbol"

/-- The rules of a normal form. Nonterminals are numbered by their places in the table; a rule is a
terminal with its head, or a head with the pair that it stands for. -/
structure NormalRules where
  start : Nat
  size : Nat
  unary : List (String × Nat) := []
  binary : List (Nat × Nat × Nat) := []

namespace NormalRules

def addRule (g : Grammar) (rules : NormalRules) (p : Production) : Except ChartFault NormalRules :=
  match g.nonterminals.index? p.head, p.body with
  | some head, [.terminal token] => .ok { rules with unary := rules.unary ++ [(token, head)] }
  | some head, [.nonterminal left, .nonterminal right] =>
    match g.nonterminals.index? left, g.nonterminals.index? right with
    | some left, some right => .ok { rules with binary := rules.binary ++ [(head, left, right)] }
    | _, _ => .error (.notNormal p.head)
  | _, _ => .error (.notNormal p.head)

def addRules (g : Grammar) : List Production → NormalRules → Except ChartFault NormalRules
  | [], rules => .ok rules
  | p :: rest, rules =>
    match addRule g rules p with
    | .ok more => addRules g rest more
    | .error fault => .error fault

def ofGrammar (g : Grammar) : Except ChartFault NormalRules :=
  match g.start.bind g.nonterminals.index? with
  | some start => addRules g g.productions { start, size := g.nonterminals.size }
  | none => .error .noStart

end NormalRules

/-- By length less one, beginning, and nonterminal. -/
abbrev Chart := Array (Array (Array Bool))

namespace Chart

def blank (tokens size : Nat) : Chart := .replicate tokens (.replicate tokens (.replicate size false))

def flag? (chart : Chart) (row place name : Nat) : Option Bool :=
  match chart[row]? with
  | some columns =>
    match columns[place]? with
    | some cell => cell[name]?
    | none => none
  | none => none

def mark? (chart : Chart) (row place name : Nat) : Option Chart :=
  if (chart.flag? row place name).isSome then
    some (chart.modify row fun columns => columns.modify place fun cell => cell.setIfInBounds name true)
  else none

def putToken (rules : NormalRules) (chart : Chart) (entry : String × Nat) : Option Chart :=
  (rules.unary.filter (·.1 == entry.1)).foldlM (fun chart rule => chart.mark? 0 entry.2 rule.2) chart

/-- Marks the head of a rule over a span if the parts of the span that meet at the split have the
flags of its pair. -/
def join (length place split : Nat) (chart : Chart) (rule : Nat × Nat × Nat) : Option Chart := do
  if ← chart.flag? (split - 1) place rule.2.1 then
    if ← chart.flag? (length - split - 1) (place + split) rule.2.2 then
      chart.mark? (length - 1) place rule.1
    else return chart
  else return chart

def joinAt (rules : NormalRules) (length place : Nat) (chart : Chart) (split : Nat) : Option Chart :=
  rules.binary.foldlM (join length place split) chart

def joinSpan (rules : NormalRules) (length : Nat) (chart : Chart) (place : Nat) : Option Chart :=
  (List.range' 1 (length - 1)).foldlM (joinAt rules length place) chart

def joinRow (rules : NormalRules) (tokens : Nat) (chart : Chart) (length : Nat) : Option Chart :=
  (List.range (tokens - length + 1)).foldlM (joinSpan rules length) chart

def ofSentence (rules : NormalRules) (sentence : Sentence) : Option Chart := do
  let tokens := sentence.length
  let chart ← sentence.zipIdx.foldlM (putToken rules) (blank tokens rules.size)
  (List.range' 2 (tokens - 1)).foldlM (joinRow rules tokens) chart

end Chart

namespace NormalRules

/-- Whether the start symbol derives the sentence, which never is so for the empty one. No answer
comes if the chart is left on the way. -/
def answer (rules : NormalRules) (sentence : Sentence) : Option Bool :=
  if sentence.isEmpty then some false
  else do (← Chart.ofSentence rules sentence).flag? (sentence.length - 1) 0 rules.start

def recognises (rules : NormalRules) (sentence : Sentence) : Bool := rules.answer sentence == some true

end NormalRules

end ContextFree
