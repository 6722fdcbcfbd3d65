import ContextFree.Comparison
import ContextFree.Proofs.Chart.Fill
import ContextFree.Proofs.Pipeline
import ContextFree.Proofs.Random.Sample

namespace ContextFree

namespace Comparison

variable {g : Grammar} {rules : NormalRules} {words : Words}

theorem sampleOn_recognised
    (all : ∀ position sentence after, g.sample words attempts position = (some sentence, after) →
      rules.recognises sentence = true)
    {amount position : Nat} {counts : Comparison} (start : counts.recognised = counts.sampled) :
    (sampleOn g rules words amount counts position).counts.recognised =
        (sampleOn g rules words amount counts position).counts.sampled ∧
      ∀ m ∈ (sampleOn g rules words amount counts position).log, m.level ≠ .warning := by
  induction amount generalizing counts position with
  | zero =>
    refine ⟨start, fun m member => ?_⟩
    rw [List.mem_singleton.1 member]
    exact nofun
  | succ amount ih =>
    unfold sampleOn
    split
    · next after sampled => exact ih start
    · next sentence after sampled =>
      rw [if_pos (all position sentence after sampled)]
      exact ih (congrArg (· + 1) start)

end Comparison

section Converted

variable {g c : Grammar}

theorem exists_rules_of_convert {start : String} (coherent : g.Coherent) (started : g.start = some start)
    (converted : g.convert.result = .ok c) : ∃ rules, NormalRules.ofGrammar c = .ok rules := by
  have normalised := Pipeline.normalised_of_standard coherent converted
  have kept := Pipeline.start_of_standard coherent started converted
  have closed := normalised.coherent.closed
  refine NormalRules.exists_ofGrammar_iff.2 ⟨⟨start, kept, ?_⟩, fun p rule => ?_⟩
  · exact normalised.coherent.start_known start kept
  · exact ⟨List.all_eq_true.1 normalised.normal p rule, (closed p rule).1, closed.names_of_body rule⟩

theorem recognises_of_sample (coherent : g.Coherent) (converted : g.convert.result = .ok c)
    {rules : NormalRules} (made : NormalRules.ofGrammar c = .ok rules) {words : Words}
    {attempts position after : Nat} {sentence : Sentence}
    (sampled : g.sample words attempts position = (some sentence, after)) : rules.recognises sentence = true := by
  obtain ⟨some, start, started, derived⟩ := Grammar.derives_of_sample sampled
  have kept := Pipeline.start_of_standard coherent started converted
  have derives := (Pipeline.derives_of_standard coherent started converted sentence).2 ⟨some, derived⟩
  exact (NormalRules.recognises_iff made sentence).2 ⟨start, kept, derives⟩

variable {kind : Kind} {text : String}

/-- However many sentences are sampled, and with whatever words: the comparison of a grammar with
what it converts to comes to an end, all samples are recognised, and nothing is warned of. -/
theorem compareLanguages_converted (read : Reading.readText kind text = .ok g) (rules : g.productions ≠ [])
    (converted : g.convert.result = .ok c) (amount : Nat) (words : Words) (position : Nat) :
    ∃ compared, compareLanguages g c amount words position = .ok compared ∧
      compared.counts.recognised = compared.counts.sampled ∧ ∀ m ∈ compared.log, m.level ≠ .warning := by
  have coherent := Reading.coherent_of_readText read
  obtain ⟨start, started⟩ := coherent.started rules
  obtain ⟨rules, made⟩ := exists_rules_of_convert coherent started converted
  refine ⟨Comparison.sampleOn g rules words amount {} position, ?_, ?_⟩
  · rw [compareLanguages, made]
  · apply Comparison.sampleOn_recognised _ rfl
    intro place sentence after sampled
    exact recognises_of_sample coherent converted made sampled

theorem compareLanguages_converted_weighted : ∃ g c,
    Reading.readText .weighted Pipeline.zeroWeightText = .ok g ∧
      g.productions ≠ [] ∧ g.convert.result = .ok c ∧
      ∃ compared, compareLanguages g c 3 (Words.splitMix 1) 0 = .ok compared ∧
        compared.counts.recognised = compared.counts.sampled ∧ ∀ m ∈ compared.log, m.level ≠ .warning := by
  obtain ⟨g, c, read, rules, ran⟩ := Pipeline.exists_converted .weighted .weighted
    Pipeline.zeroWeightText rfl (by decide +kernel)
  have converted : g.convert.result = .ok c := by
    rw [Grammar.convert, Reading.kind_of_readText read]
    exact ran
  exact ⟨g, c, read, rules, converted, compareLanguages_converted read rules converted 3 (Words.splitMix 1) 0⟩

end Converted

end ContextFree
