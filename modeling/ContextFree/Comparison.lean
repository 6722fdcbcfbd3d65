import ContextFree.Chart
import ContextFree.Log
import ContextFree.Random.Sample

namespace ContextFree

structure Comparison where
  sampled : Nat := 0
  recognised : Nat := 0
  deriving DecidableEq

structure Compared where
  counts : Comparison
  log : List Message
  position : Nat

namespace Comparison

def attempts : Nat := 20

def rejection (sentence : Sentence) : Message :=
  ⟨.warning, "The converted grammar rejects `" ++ String.intercalate " " sentence ++ "`"⟩

def summary (counts : Comparison) : Message :=
  ⟨.info, "The converted grammar recognises " ++ counts.recognised.repr ++ " of " ++
    counts.sampled.repr ++ " sampled sentences"⟩

def sampleOn (g : Grammar) (rules : NormalRules) (words : Words) :
    Nat → Comparison → Nat → Compared
  | 0, counts, position => ⟨counts, [summary counts], position⟩
  | amount + 1, counts, position =>
    match g.sample words attempts position with
    | (none, after) => sampleOn g rules words amount counts after
    | (some sentence, after) =>
      if rules.recognises sentence then
        sampleOn g rules words amount ⟨counts.sampled + 1, counts.recognised + 1⟩ after
      else
        let rest := sampleOn g rules words amount ⟨counts.sampled + 1, counts.recognised⟩ after
        ⟨rest.counts, rejection sentence :: rest.log, rest.position⟩

end Comparison

/-- Counts how many of up to `amount` sentences of one grammar another one recognises. -/
def compareLanguages (source converted : Grammar) (amount : Nat) (words : Words)
    (position : Nat) : Except ChartFault Compared :=
  match NormalRules.ofGrammar converted with
  | .ok rules => .ok (Comparison.sampleOn source rules words amount {} position)
  | .error fault => .error fault

end ContextFree
