import ContextFree.Derivation

namespace ContextFree

/-- How the one production of a name reads, if there is just one. -/
def Serves (productions : List Production) (name : String) (body : Body) : Prop :=
  ∃ only, productions.filter (·.head == name) = [only] ∧ only.body = body

namespace Derives

variable {ps qs : List Production} {body : Body} {sentence : Sentence}

theorem nil_iff : Derives ps [] sentence ↔ sentence = [] := by
  constructor
  · intro d
    cases d
    rfl
  · rintro rfl
    exact .nil

theorem append_iff {left right : Body} : Derives ps (left ++ right) sentence ↔
    ∃ first second, sentence = first ++ second ∧ Derives ps left first ∧ Derives ps right second := by
  constructor
  · exact split
  · rintro ⟨first, second, rfl, l, r⟩
    exact l.append r

theorem cons_iff {symbol : Symbol} {rest : Body} : Derives ps (symbol :: rest) sentence ↔
    ∃ first second, sentence = first ++ second ∧ Derives ps [symbol] first ∧ Derives ps rest second :=
  @append_iff ps sentence [symbol] rest

theorem empty_iff {rest : Body} : Derives ps (.empty :: rest) sentence ↔ Derives ps rest sentence := by
  constructor
  · intro d
    cases d with
    | empty tail => exact tail
  · exact .empty

theorem terminal_iff {token : String} : Derives ps [.terminal token] sentence ↔ sentence = [token] := by
  constructor
  · intro d
    cases d with
    | terminal tail => rw [nil_iff.1 tail]
  · rintro rfl
    exact .terminal .nil

theorem nonterminal_iff {name : String} : Derives ps [.nonterminal name] sentence ↔
    ∃ p ∈ ps, p.head = name ∧ Derives ps p.body sentence := by
  constructor
  · intro d
    cases d with
    | expand rule inner tail =>
      rw [nil_iff.1 tail, List.append_nil]
      exact ⟨_, rule, rfl, inner⟩
  · rintro ⟨p, rule, rfl, inner⟩
    have whole := expand rule inner .nil
    rwa [List.append_nil] at whole

theorem of_rule {p : Production} (rule : p ∈ ps) (inner : Derives ps p.body sentence) :
    Derives ps [.nonterminal p.head] sentence := nonterminal_iff.2 ⟨p, rule, rfl, inner⟩

theorem pair_iff {left right : Symbol} : Derives ps [left, right] sentence ↔
    ∃ first second, sentence = first ++ second ∧ Derives ps [left] first ∧
      Derives ps [right] second := cons_iff

/-- A derivation goes through in a list of productions where each rule it may use is at least
derivable. -/
theorem of_derivable
    (derivable : ∀ p ∈ ps, ∀ w, Derives qs p.body w → Derives qs [.nonterminal p.head] w)
    (d : Derives ps body sentence) : Derives qs body sentence := by
  induction d with
  | nil => exact .nil
  | empty _ ih => exact .empty ih
  | terminal _ ih => exact .terminal ih
  | expand rule _ _ inner tail => exact (derivable _ rule _ inner).append tail

theorem of_matched
    (matched : ∀ p ∈ ps, ∃ q ∈ qs, q.head = p.head ∧
      ∀ w, Derives qs p.body w → Derives qs q.body w)
    (d : Derives ps body sentence) : Derives qs body sentence := by
  apply of_derivable _ d
  intro p rule w inner
  obtain ⟨q, inQs, heads, carried⟩ := matched p rule
  exact heads ▸ of_rule inQs (carried w inner)

theorem of_rules (kept : ∀ p ∈ ps, ∃ q ∈ qs, q.sameRule p = true)
    (d : Derives ps body sentence) : Derives qs body sentence := by
  apply of_matched _ d
  intro p rule
  obtain ⟨q, inQs, same⟩ := kept p rule
  obtain ⟨heads, bodies⟩ := Production.sameRule_iff.1 same
  exact ⟨q, inQs, heads, fun w inner => bodies ▸ inner⟩

theorem mono (subset : ps ⊆ qs) (d : Derives ps body sentence) : Derives qs body sentence :=
  of_rules (fun p rule => ⟨p, subset rule, Production.sameRule_iff.2 ⟨rfl, rfl⟩⟩) d

/-- Of a derivation that starts within a set of names, only productions of those names matter, if
these lead nowhere else. -/
theorem restrict {P : String → Prop}
    (inside : ∀ p ∈ ps, P p.head → p ∈ qs ∧ ∀ name, .nonterminal name ∈ p.body → P name)
    (d : Derives ps body sentence) (start : ∀ name, .nonterminal name ∈ body → P name) :
    Derives qs body sentence := by
  induction d with
  | nil => exact .nil
  | empty _ ih => exact .empty (ih fun name member => start name (List.mem_cons_of_mem _ member))
  | terminal _ ih => exact .terminal (ih fun name member => start name (List.mem_cons_of_mem _ member))
  | expand rule _ _ inner tail =>
    obtain ⟨kept, names⟩ := inside _ rule (start _ List.mem_cons_self)
    exact .expand kept (inner names)
      (tail fun name member => start name (List.mem_cons_of_mem _ member))

theorem map_symbols {change : Symbol → Symbol}
    (each : ∀ symbol ∈ body, ∀ w, Derives ps [symbol] w → Derives ps [change symbol] w)
    (d : Derives ps body sentence) : Derives ps (body.map change) sentence := by
  induction body generalizing sentence with
  | nil => exact d
  | cons symbol rest ih =>
    obtain ⟨first, second, rfl, head, tail⟩ := cons_iff.1 d
    apply (each symbol List.mem_cons_self first head).append
    exact ih (fun other member => each other (List.mem_cons_of_mem symbol member)) tail

theorem of_map_symbols {change : Symbol → Symbol}
    (each : ∀ symbol ∈ body, ∀ w, Derives ps [change symbol] w → Derives ps [symbol] w)
    (d : Derives ps (body.map change) sentence) : Derives ps body sentence := by
  induction body generalizing sentence with
  | nil => exact d
  | cons symbol rest ih =>
    rw [List.map_cons] at d
    obtain ⟨first, second, rfl, head, tail⟩ := cons_iff.1 d
    apply (each symbol List.mem_cons_self first head).append
    exact ih (fun other member => each other (List.mem_cons_of_mem symbol member)) tail

theorem length_le (full : ∀ p ∈ ps, p.body ≠ [] ∧ Symbol.empty ∉ p.body)
    (d : Derives ps body sentence) (mentions : Symbol.empty ∉ body) :
    body.length ≤ sentence.length := by
  induction d with
  | nil => exact Nat.le_refl _
  | empty => exact absurd List.mem_cons_self mentions
  | terminal _ ih =>
    have rest := ih fun member => mentions (List.mem_cons_of_mem _ member)
    exact Nat.succ_le_succ rest
  | @expand p rest first second rule _ _ inner tail =>
    have head := inner (full p rule).2
    have more := tail fun member => mentions (List.mem_cons_of_mem _ member)
    have positive := List.length_pos_iff.2 (full p rule).1
    rw [List.length_cons, List.length_append]
    omega

end Derives

namespace Serves

variable {ps : List Production} {name : String} {body : Body}

theorem exists_rule (serves : Serves ps name body) : ∃ p ∈ ps, p.head = name ∧ p.body = body := by
  obtain ⟨only, found, reads⟩ := serves
  have listed : only ∈ ps.filter (·.head == name) := found ▸ List.mem_singleton_self only
  rw [List.mem_filter, beq_iff_eq] at listed
  exact ⟨only, listed.1, listed.2, reads⟩

theorem only_rule (serves : Serves ps name body) {p : Production} (rule : p ∈ ps) (headed : p.head = name) :
    ps.filter (·.head == name) = [p] ∧ p.body = body := by
  obtain ⟨only, found, reads⟩ := serves
  have listed : p ∈ ps.filter (·.head == name) := List.mem_filter.2 ⟨rule, beq_iff_eq.2 headed⟩
  rw [found, List.mem_singleton] at listed
  rw [listed]
  exact ⟨found, reads⟩

theorem derives_iff {sentence : Sentence} (serves : Serves ps name body) :
    Derives ps [.nonterminal name] sentence ↔ Derives ps body sentence := by
  constructor
  · intro d
    obtain ⟨p, rule, headed, inner⟩ := Derives.nonterminal_iff.1 d
    rwa [(serves.only_rule rule headed).2] at inner
  · intro inner
    obtain ⟨p, rule, rfl, rfl⟩ := serves.exists_rule
    exact Derives.of_rule rule inner

end Serves

end ContextFree
