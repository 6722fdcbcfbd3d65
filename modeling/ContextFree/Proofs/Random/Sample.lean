import ContextFree.Proofs.Random.Trees

namespace ContextFree

namespace Sampler

/-- Where the attempts begin, each of them where the one before it has stopped. -/
def begins (g : Grammar) (words : Words) (position : Nat) : Nat → Nat
  | 0 => position
  | made + 1 => (sentence g words (begins g words position made)).position

def IsVain (run : Drawn Sentence) : Prop := ∀ sentence, run.result = .ok sentence → sentence = []

variable {g : Grammar} {words : Words} {position after : Nat}

theorem begins_next (g : Grammar) (words : Words) (position made : Nat) :
    begins g words (sentence g words position).position made = begins g words position (made + 1) := by
  induction made with
  | zero => rfl
  | succ made ih =>
    rw [begins, ih]
    rfl

theorem mem_counted {p : Production} (rule : p ∈ g.productions) (weighs : p.weight.isZero = false) :
    p ∈ g.counted := by
  unfold Grammar.counted
  split
  · exact rule
  · exact List.mem_filter.2 ⟨rule, by simp [weighs]⟩

theorem Grows.derives {levels : Nat} {body : Body} {sentence : Sentence} {forest : Forest g.productions body}
    (grown : Grows levels position ⟨.ok sentence, after⟩ forest) : Derives g.counted body sentence :=
  forest.derives grown.sentence fun p used => mem_counted (forest.rules_subset used) (grown.weighs p used)

theorem exists_grown_of_sentence {sentence : Sentence}
    (made : Sampler.sentence g words position = ⟨.ok sentence, after⟩) :
    ∃ start, g.start = some start ∧ ∃ tree : Forest g.productions [.nonterminal start],
      Grows (depthLimit + 1) position ⟨.ok sentence, after⟩ tree := by
  cases started : g.start with
  | none =>
    rw [Sampler.sentence, started] at made
    cases made
  | some start =>
    rw [Sampler.sentence, started] at made
    change expand g words (depthLimit + 1) start position = _ at made
    rw [← made]
    exact ⟨start, rfl, exists_grown_of_expand (depthLimit + 1) start position⟩

end Sampler

namespace Grammar

open Sampler

variable {g : Grammar} {words : Words} {attempts position after : Nat} {sentence : Sentence}

theorem sample_cases (g : Grammar) (words : Words) (attempts position : Nat) :
    (∃ sentence after, sentence ≠ [] ∧ Sampler.sentence g words position = ⟨.ok sentence, after⟩ ∧
      g.sample words (attempts + 1) position = (some sentence, after)) ∨
    (IsVain (Sampler.sentence g words position) ∧
      g.sample words (attempts + 1) position = g.sample words attempts
        (Sampler.sentence g words position).position) := by
  rw [sample]
  rcases Sampler.sentence g words position with ⟨_ | _ | ⟨token, rest⟩, after⟩
  · exact Or.inr ⟨nofun, rfl⟩
  · refine Or.inr ⟨fun sentence same => ?_, rfl⟩
    cases same
    rfl
  · exact Or.inl ⟨_, after, List.cons_ne_nil token rest, rfl, rfl⟩

theorem sample_attempts (g : Grammar) (words : Words) (attempts position : Nat) :
    (g.sample words attempts position = (none, begins g words position attempts) ∧
      ∀ earlier < attempts, IsVain (Sampler.sentence g words (begins g words position earlier))) ∨
    ∃ last < attempts, ∃ sentence ≠ [],
      g.sample words attempts position = (some sentence, begins g words position (last + 1)) ∧
      Sampler.sentence g words (begins g words position last) = ⟨.ok sentence, begins g words position (last + 1)⟩ ∧
      ∀ earlier < last, IsVain (Sampler.sentence g words (begins g words position earlier)) := by
  induction attempts generalizing position with
  | zero => exact Or.inl ⟨rfl, nofun⟩
  | succ attempts ih =>
    have shift : ∀ {last}, IsVain (Sampler.sentence g words position) →
        (∀ earlier < last, IsVain (Sampler.sentence g words (begins g words position (earlier + 1)))) →
        ∀ earlier < last + 1, IsVain (Sampler.sentence g words (begins g words position earlier)) := by
      intro last first later earlier before
      cases earlier with
      | zero => exact first
      | succ earlier => exact later earlier (Nat.lt_of_succ_lt_succ before)
    rcases sample_cases g words attempts position with ⟨sentence, after, filled, made, found⟩ | ⟨vain, same⟩
    · have stop : begins g words position 1 = after := congrArg Drawn.position made
      refine Or.inr ⟨0, Nat.succ_pos attempts, sentence, filled, ?_, ?_, nofun⟩
      · rw [found, stop]
      · rw [stop]
        exact made
    · rw [same]
      have later := ih (Sampler.sentence g words position).position
      simp only [begins_next] at later
      rcases later with ⟨none, all⟩ | ⟨last, before, sentence, filled, found, made, all⟩
      · exact Or.inl ⟨none, shift vain all⟩
      · exact Or.inr ⟨last + 1, Nat.succ_lt_succ before, sentence, filled, found, made, shift vain all⟩

theorem derives_of_sample (sampled : g.sample words attempts position = (some sentence, after)) :
    sentence ≠ [] ∧ ∃ start, g.start = some start ∧ Derives g.counted [.nonterminal start] sentence := by
  rcases sample_attempts g words attempts position with ⟨none, -⟩ | ⟨last, -, found, filled, same, made, -⟩
  · rw [sampled] at none
    cases none
  · rw [sampled] at same
    cases same
    obtain ⟨start, started, tree, grown⟩ := exists_grown_of_sentence made
    exact ⟨filled, start, started, grown.derives⟩

/-- Whatever the words are, a run from any nonterminal grows a tree of productions that do not weigh zero, with a
node for each word that was read and no nonterminal further below the root than the limit; the sentence is that of
the tree. Sampling makes its attempts one behind the other, no more than it is given, and stops at the first sentence
that is not empty, which has such a tree from the start symbol. -/
theorem sampled_with_trees (g : Grammar) (words : Words) (position : Nat) :
    (∀ name, ∃ tree : Forest g.productions [.nonterminal name],
      Grows (depthLimit + 1) position (sentenceOf g words name position) tree) ∧
    ∀ attempts, ∃ made ≤ attempts, (g.sample words attempts position).2 = begins g words position made ∧
      (((g.sample words attempts position).1 = none ∧ made = attempts ∧
          ∀ earlier < made, IsVain (Sampler.sentence g words (begins g words position earlier))) ∨
        ∃ start last sentence, g.start = some start ∧ made = last + 1 ∧ sentence ≠ [] ∧
          (g.sample words attempts position).1 = some sentence ∧
          (∃ tree : Forest g.productions [.nonterminal start],
            Grows (depthLimit + 1) (begins g words position last) ⟨.ok sentence, begins g words position made⟩ tree) ∧
          ∀ earlier < last, IsVain (Sampler.sentence g words (begins g words position earlier))) := by
  refine ⟨fun name => exists_grown_of_expand (depthLimit + 1) name position, fun attempts => ?_⟩
  rcases sample_attempts g words attempts position with ⟨none, vain⟩ | ⟨last, before, sentence, filled, found,
    made, vain⟩
  · rw [none]
    exact ⟨attempts, Nat.le_refl attempts, rfl, Or.inl ⟨rfl, rfl, vain⟩⟩
  · obtain ⟨start, started, tree, grown⟩ := exists_grown_of_sentence made
    rw [found]
    exact ⟨last + 1, before, rfl, Or.inr ⟨start, last, sentence, started, rfl, filled, rfl, ⟨tree, grown⟩, vain⟩⟩

end Grammar

end ContextFree
