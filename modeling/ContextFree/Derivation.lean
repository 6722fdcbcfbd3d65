import ContextFree.Grammar.Basic

namespace ContextFree

abbrev Sentence := List String

/-- The sentences of a body, symbol by symbol. -/
inductive Derives (productions : List Production) : Body → Sentence → Prop where
  | nil : Derives productions [] []
  | empty {rest : Body} {sentence : Sentence} (tail : Derives productions rest sentence) :
    Derives productions (.empty :: rest) sentence
  | terminal {token : String} {rest : Body} {sentence : Sentence}
    (tail : Derives productions rest sentence) :
    Derives productions (.terminal token :: rest) (token :: sentence)
  | expand {p : Production} {rest : Body} {first second : Sentence} (rule : p ∈ productions)
    (body : Derives productions p.body first) (tail : Derives productions rest second) :
    Derives productions (.nonterminal p.head :: rest) (first ++ second)

namespace Derives

variable {productions : List Production}

theorem append {left right : Body} {first second : Sentence} (l : Derives productions left first)
    (r : Derives productions right second) : Derives productions (left ++ right) (first ++ second) := by
  induction l with
  | nil => exact r
  | empty _ ih => exact .empty ih
  | terminal _ ih => exact .terminal ih
  | expand rule body _ _ ih =>
    rw [List.append_assoc]
    exact .expand rule body ih

theorem split {left right : Body} {sentence : Sentence}
    (whole : Derives productions (left ++ right) sentence) :
    ∃ first second, sentence = first ++ second ∧ Derives productions left first ∧
      Derives productions right second := by
  induction left generalizing sentence with
  | nil => exact ⟨[], sentence, rfl, .nil, whole⟩
  | cons symbol left ih =>
    rw [List.cons_append] at whole
    cases whole with
    | empty tail =>
      obtain ⟨first, second, rfl, l, r⟩ := ih tail
      exact ⟨first, second, rfl, .empty l, r⟩
    | @terminal token _ _ tail =>
      obtain ⟨first, second, rfl, l, r⟩ := ih tail
      exact ⟨token :: first, second, rfl, .terminal l, r⟩
    | @expand p _ before _ rule body tail =>
      obtain ⟨first, second, rfl, l, r⟩ := ih tail
      exact ⟨before ++ first, second, (List.append_assoc _ _ _).symm, .expand rule body l, r⟩

end Derives

namespace Grammar

/-- The productions that count: of a weighted grammar not those whose weight is the number zero. -/
def counted (g : Grammar) : List Production :=
  match g.kind with
  | .plain => g.productions
  | .weighted => g.productions.filter fun p => !p.weight.isZero

def DerivesFrom (g : Grammar) (name : String) (sentence : Sentence) : Prop :=
  Derives g.productions [.nonterminal name] sentence

def Generates (g : Grammar) (sentence : Sentence) : Prop :=
  ∃ start, g.start = some start ∧ g.DerivesFrom start sentence

end Grammar

end ContextFree
