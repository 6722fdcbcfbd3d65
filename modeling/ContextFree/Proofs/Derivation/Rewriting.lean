import ContextFree.Proofs.Derivation.Basic

namespace ContextFree

/-- What a body comes to when nonterminals give way to bodies of theirs. -/
inductive Leads (productions : List Production) (first : Body) : Body → Prop where
  | refl : Leads productions first first
  | step {p : Production} {left right : Body}
    (before : Leads productions first (left ++ .nonterminal p.head :: right)) (rule : p ∈ productions) :
    Leads productions first (left ++ (p.body ++ right))

namespace Leads

variable {ps qs : List Production} {first middle last : Body} {sentence : Sentence}

theorem trans (one : Leads ps first middle) (two : Leads ps middle last) : Leads ps first last := by
  induction two with
  | refl => exact one
  | step _ rule ih => exact ih.step rule

theorem between (left right : Body) (leads : Leads ps first last) :
    Leads ps (left ++ (first ++ right)) (left ++ (last ++ right)) := by
  induction leads with
  | refl => exact .refl
  | @step p before after _ rule ih =>
    have next := @step ps _ p (left ++ before) (after ++ right) (by simpa using ih) rule
    simpa using next

theorem of_rule {p : Production} (rule : p ∈ ps) : Leads ps [.nonterminal p.head] p.body := by
  have next := @step ps _ p [] [] .refl rule
  rwa [List.nil_append, List.append_nil] at next

theorem cons (symbol : Symbol) (leads : Leads ps first last) : Leads ps (symbol :: first) (symbol :: last) := by
  have beside := leads.between [symbol] []
  rwa [List.append_nil, List.append_nil] at beside

theorem derives (leads : Leads ps first last) (d : Derives ps last sentence) : Derives ps first sentence := by
  induction leads generalizing sentence with
  | refl => exact d
  | step _ rule ih =>
    obtain ⟨before, others, rfl, l, rest⟩ := Derives.append_iff.1 d
    obtain ⟨inner, after, rfl, body, r⟩ := Derives.append_iff.1 rest
    exact ih (l.append (.expand rule body r))

theorem mono (subset : ps ⊆ qs) (leads : Leads ps first last) : Leads qs first last := by
  induction leads with
  | refl => exact .refl
  | step _ rule ih => exact ih.step (subset rule)

theorem carry (covers : ∀ p ∈ ps, Leads qs [.nonterminal p.head] p.body) (leads : Leads ps first last) :
    Leads qs first last := by
  induction leads with
  | refl => exact .refl
  | @step p left right _ rule ih => exact ih.trans ((covers p rule).between left right)

theorem map_symbols {change : Symbol → Symbol} {body : Body} (each : ∀ symbol, Leads ps [change symbol] [symbol]) :
    Leads ps (body.map change) body := by
  induction body with
  | nil => exact .refl
  | cons symbol rest ih =>
    have front := (each symbol).between [] (rest.map change)
    exact front.trans (ih.cons symbol)

end Leads

theorem Serves.leads {ps : List Production} {name : String} {body : Body} (serves : Serves ps name body) :
    Leads ps [.nonterminal name] body := by
  obtain ⟨p, rule, rfl, rfl⟩ := serves.exists_rule
  exact Leads.of_rule rule

theorem Derives.carry {ps qs : List Production} {body : Body} {sentence : Sentence}
    (covers : ∀ p ∈ ps, Leads qs [.nonterminal p.head] p.body) (d : Derives ps body sentence) :
    Derives qs body sentence :=
  d.of_derivable fun p rule _ inner => (covers p rule).derives inner

theorem Derives.exists_of_names {ps : List Production} {body : Body}
    (each : ∀ name, .nonterminal name ∈ body → ∃ sentence, Derives ps [.nonterminal name] sentence) :
    ∃ sentence, Derives ps body sentence := by
  induction body with
  | nil => exact ⟨[], .nil⟩
  | cons symbol rest ih =>
    obtain ⟨sentence, tail⟩ := ih fun name inRest => each name (List.mem_cons_of_mem symbol inRest)
    cases symbol with
    | terminal token => exact ⟨token :: sentence, .terminal tail⟩
    | empty => exact ⟨sentence, .empty tail⟩
    | nonterminal name =>
      obtain ⟨first, front⟩ := each name List.mem_cons_self
      exact ⟨first ++ sentence, front.append tail⟩

theorem Derives.mem_of_terminal {ps : List Production} {body : Body} {sentence : Sentence} {token : String}
    (d : Derives ps body sentence) (inBody : .terminal token ∈ body) : token ∈ sentence := by
  obtain ⟨left, right, rfl⟩ := List.append_of_mem inBody
  obtain ⟨before, rest, rfl, -, rest'⟩ := Derives.append_iff.1 d
  cases rest' with
  | terminal tail => exact List.mem_append_right _ List.mem_cons_self

namespace Grammar

variable {g h : Grammar} {p : Production}

/-- What the start symbol leads to. -/
def Forms (g : Grammar) (body : Body) : Prop :=
  ∃ start, g.start = some start ∧ Leads g.productions [.nonterminal start] body

/-- The symbol stands somewhere on the way from the start symbol to a sentence. -/
def Occurs (g : Grammar) (symbol : Symbol) : Prop :=
  ∃ left right sentence, g.Forms (left ++ symbol :: right) ∧ Derives g.productions (left ++ symbol :: right) sentence

/-- The production is used somewhere on the way from the start symbol to a sentence. -/
def Applies (g : Grammar) (p : Production) : Prop :=
  p ∈ g.productions ∧ ∃ left right sentence, g.Forms (left ++ .nonterminal p.head :: right) ∧
    Derives g.productions (left ++ (p.body ++ right)) sentence

theorem not_generates (bare : g.productions = []) (sentence : Sentence) : ¬ g.Generates sentence := by
  rintro ⟨start, -, derived⟩
  rw [DerivesFrom, bare] at derived
  obtain ⟨p, absent, -⟩ := Derives.nonterminal_iff.1 derived
  cases absent

theorem Forms.generates {body : Body} {sentence : Sentence} (forms : g.Forms body)
    (d : Derives g.productions body sentence) : g.Generates sentence := by
  obtain ⟨start, started, leads⟩ := forms
  exact ⟨start, started, leads.derives d⟩

theorem Forms.next {left right : Body} (forms : g.Forms (left ++ .nonterminal p.head :: right))
    (rule : p ∈ g.productions) :
    g.Forms (left ++ (p.body ++ right)) := by
  obtain ⟨start, started, leads⟩ := forms
  exact ⟨start, started, leads.step rule⟩

theorem Occurs.applies (occurs : g.Occurs (.nonterminal p.head)) (rule : p ∈ g.productions) {inner : Sentence}
    (body : Derives g.productions p.body inner) : g.Applies p := by
  obtain ⟨left, right, sentence, forms, d⟩ := occurs
  obtain ⟨first, _, -, front, rest⟩ := Derives.append_iff.1 d
  obtain ⟨_, last, -, -, back⟩ := Derives.cons_iff.1 rest
  exact ⟨rule, left, right, first ++ (inner ++ last), forms, front.append (body.append back)⟩

namespace Applies

theorem mono (applies : g.Applies p) (start : h.start = g.start) (subset : g.productions ⊆ h.productions) :
    h.Applies p := by
  obtain ⟨rule, left, right, sentence, ⟨first, started, leads⟩, d⟩ := applies
  exact ⟨subset rule, left, right, sentence, ⟨first, start.trans started, leads.mono subset⟩, d.mono subset⟩

theorem occurs_head (applies : g.Applies p) : g.Occurs (.nonterminal p.head) := by
  obtain ⟨rule, left, right, sentence, forms, d⟩ := applies
  exact ⟨left, right, sentence, forms, (Leads.refl.step rule).derives d⟩

theorem occurs_of_mem (applies : g.Applies p) {symbol : Symbol} (inBody : symbol ∈ p.body) : g.Occurs symbol := by
  obtain ⟨rule, left, right, sentence, forms, d⟩ := applies
  obtain ⟨before, after, split⟩ := List.append_of_mem inBody
  have place : left ++ (p.body ++ right) = (left ++ before) ++ symbol :: (after ++ right) := by simp [split]
  have next := forms.next rule
  rw [place] at d next
  exact ⟨_, _, sentence, next, d⟩

theorem generates (applies : g.Applies p) : ∃ sentence, g.Generates sentence ∧
    ∀ token, .terminal token ∈ p.body → token ∈ sentence := by
  obtain ⟨rule, left, right, sentence, forms, d⟩ := applies
  refine ⟨sentence, (forms.next rule).generates d, fun token inBody => d.mem_of_terminal ?_⟩
  exact List.mem_append_right _ (List.mem_append_left _ inBody)

theorem derives_body (applies : g.Applies p) : ∃ sentence, Derives g.productions p.body sentence := by
  obtain ⟨-, left, right, sentence, -, d⟩ := applies
  obtain ⟨_, _, -, -, rest⟩ := Derives.append_iff.1 d
  obtain ⟨inner, _, -, body, -⟩ := Derives.append_iff.1 rest
  exact ⟨inner, body⟩

end Applies

/-- The second grammar goes each step of the first one in steps of its own, and it has no production
that is not used in one of these. -/
structure Elaborates (g h : Grammar) : Prop where
  start : ∀ name, g.start = some name → h.start = some name
  covers : ∀ p ∈ g.productions, Leads h.productions [.nonterminal p.head] p.body
  origin : ∀ q ∈ h.productions, ∃ p ∈ g.productions, ∃ left right,
    Leads h.productions [.nonterminal p.head] (left ++ .nonterminal q.head :: right) ∧
      Leads h.productions (left ++ (q.body ++ right)) p.body

namespace Elaborates

variable {k : Grammar}

theorem refl (g : Grammar) : Elaborates g g where
  start _ same := same
  covers _ rule := .of_rule rule
  origin q rule := ⟨q, rule, [], [], .refl, by simpa using Leads.refl⟩

theorem trans (first : Elaborates g h) (second : Elaborates h k) : Elaborates g k where
  start name same := second.start name (first.start name same)
  covers p rule := (first.covers p rule).carry second.covers
  origin q rule := by
    obtain ⟨r, between, left, right, toHead, toBody⟩ := second.origin q rule
    obtain ⟨p, old, before, after, outerHead, outerBody⟩ := first.origin r between
    refine ⟨p, old, before ++ left, right ++ after, ?_, ?_⟩
    · have there := (outerHead.carry second.covers).trans (toHead.between before after)
      simpa using there
    · have back := (toBody.between before after).trans (outerBody.carry second.covers)
      simpa using back

theorem generates (elaborates : Elaborates g h) {sentence : Sentence} (made : g.Generates sentence) :
    h.Generates sentence := by
  obtain ⟨start, started, d⟩ := made
  exact ⟨start, elaborates.start start started, d.carry elaborates.covers⟩

theorem applies (elaborates : Elaborates g h) (all : ∀ p ∈ g.productions, g.Applies p) :
    ∀ q ∈ h.productions, h.Applies q := by
  intro q new
  obtain ⟨p, rule, before, after, toHead, toBody⟩ := elaborates.origin q new
  obtain ⟨-, left, right, sentence, ⟨start, started, leads⟩, d⟩ := all p rule
  refine ⟨new, left ++ before, after ++ right, sentence, ⟨start, elaborates.start start started, ?_⟩, ?_⟩
  · have forms := (leads.carry elaborates.covers).trans (toHead.between left right)
    simpa using forms
  · have derived := (toBody.between left right).derives (d.carry elaborates.covers)
    simpa using derived

end Elaborates

end Grammar

end ContextFree
