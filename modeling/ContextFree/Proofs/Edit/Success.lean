import ContextFree.Edit.Basic

namespace ContextFree.Edit

variable {α β : Type}

/-- Run on the first grammar, the edit answers `a` and leaves the second grammar. -/
def Succeeds (edit : Edit α) (g : Grammar) (a : α) (h : Grammar) : Prop :=
  (edit g).result = .ok a ∧ (edit g).grammar = h

def Keeps (P : Grammar → Prop) (edit : Edit α) : Prop := ∀ g, P g → P (edit g).grammar

theorem succeeds_of_run {edit : Edit α} {g h : Grammar} {a : α} {log : List Message}
    (run : edit g = ⟨.ok a, h, log⟩) : edit.Succeeds g a h := by
  rw [Succeeds, run]
  exact ⟨rfl, rfl⟩

section Steps

variable {g h k : Grammar} {a : α} {b : β}

@[simp] theorem succeeds_pure {c : α} : (pure c : Edit α).Succeeds g a h ↔ c = a ∧ g = h := by
  simp only [Succeeds, pure_run, Except.ok.injEq]

@[simp] theorem succeeds_done {c : α} : (done c).Succeeds g a h ↔ c = a ∧ g = h := succeeds_pure

@[simp] theorem succeeds_grammar {c : Grammar} : grammar.Succeeds g c h ↔ g = c ∧ g = h := by
  simp only [Succeeds, grammar_run, Except.ok.injEq]

@[simp] theorem succeeds_refuse {fault : Fault} : ¬ (refuse fault : Edit α).Succeeds g a h := by
  simp only [Succeeds, refuse_run, reduceCtorEq, false_and, not_false_eq_true]

@[simp] theorem succeeds_change {f : Grammar → Grammar} {u : Unit} :
    (change f).Succeeds g u h ↔ h = f g := by
  simp only [Succeeds, change_run, true_and, eq_comm]

@[simp] theorem succeeds_report {level : Level} {text : String} {u : Unit} :
    (report level text).Succeeds g u h ↔ g = h := by
  simp only [Succeeds, report_run, true_and]

@[simp] theorem succeeds_debug {text : String} {u : Unit} : (debug text).Succeeds g u h ↔ g = h :=
  succeeds_report

theorem succeeds_bind {edit : Edit α} {next : α → Edit β} :
    (edit >>= next).Succeeds g b k ↔ ∃ a h, edit.Succeeds g a h ∧ (next a).Succeeds h b k := by
  constructor
  · intro ran
    rcases first : edit g with ⟨result, h, log⟩
    cases result with
    | error fault =>
      rw [Succeeds, bind_of_error first] at ran
      cases ran.1
    | ok a =>
      rw [Succeeds, bind_of_ok first] at ran
      exact ⟨a, h, succeeds_of_run first, ran⟩
  · rintro ⟨a, h, ⟨answer, rfl⟩, ran⟩
    rcases first : edit g with ⟨result, h, log⟩
    rw [first] at answer ran
    cases answer
    rw [Succeeds, bind_of_ok first]
    exact ran

end Steps

section Loops

variable {edit : α → Edit Unit} {g h : Grammar} {u : Unit}

@[simp] theorem succeeds_forM_nil : (([] : List α).forM edit).Succeeds g u h ↔ g = h := by
  simp only [List.forM_eq_forM, List.forM_nil, succeeds_pure, true_and]

theorem succeeds_forM_cons {x : α} {rest : List α} :
    ((x :: rest).forM edit).Succeeds g u h ↔
      ∃ k, (edit x).Succeeds g () k ∧ (rest.forM edit).Succeeds k () h := by
  simp only [List.forM_eq_forM, List.forM_cons, succeeds_bind]
  constructor
  · rintro ⟨_, k, first, more⟩
    exact ⟨k, first, more⟩
  · rintro ⟨k, first, more⟩
    exact ⟨(), k, first, more⟩

theorem succeeds_forM_append {before after : List α} : ((before ++ after).forM edit).Succeeds g u h ↔
    ∃ k, (before.forM edit).Succeeds g () k ∧ (after.forM edit).Succeeds k () h := by
  induction before generalizing g with
  | nil => simp
  | cons x rest ih =>
    simp only [List.cons_append, succeeds_forM_cons, ih]
    constructor
    · intro ⟨l, first, k, middle, last⟩
      exact ⟨k, ⟨l, first, middle⟩, last⟩
    · intro ⟨k, ⟨l, first, middle⟩, last⟩
      exact ⟨l, first, k, middle, last⟩

theorem Succeeds.forM_induction {P : Grammar → Prop} {items : List α}
    (ran : (items.forM edit).Succeeds g u h) (start : P g)
    (round : ∀ x ∈ items, ∀ {g h : Grammar}, (edit x).Succeeds g () h → P g → P h) : P h := by
  induction items generalizing g with
  | nil =>
    rw [← succeeds_forM_nil.1 ran]
    exact start
  | cons x rest ih =>
    obtain ⟨k, first, more⟩ := succeeds_forM_cons.1 ran
    apply ih more (round x List.mem_cons_self first start)
    intro y member
    exact round y (List.mem_cons_of_mem x member)

theorem forM_flatMap {edit : β → Edit Unit} (items : List α) (parts : α → List β) :
    (items.forM fun x => (parts x).forM edit) = (items.flatMap parts).forM edit := by
  simp only [List.forM_eq_forM]
  induction items with
  | nil => rfl
  | cons x rest ih => rw [List.forM_cons, List.flatMap_cons, List.forM_append, ih]

end Loops

section Invariants

variable {P : Grammar → Prop}

theorem keeps_of_grammar {edit : Edit α} (same : ∀ g, (edit g).grammar = g) : edit.Keeps P := by
  intro g holds
  rw [same]
  exact holds

theorem keeps_pure (a : α) : (pure a : Edit α).Keeps P := keeps_of_grammar fun _ => rfl

theorem keeps_grammar : grammar.Keeps P := keeps_of_grammar fun _ => rfl

theorem keeps_refuse (fault : Fault) : (refuse fault : Edit α).Keeps P :=
  keeps_of_grammar fun _ => rfl

theorem keeps_report (level : Level) (text : String) : (report level text).Keeps P :=
  keeps_of_grammar fun _ => rfl

theorem keeps_require (checked : Except Fault α) : (require checked).Keeps P := by
  cases checked with
  | ok a => exact keeps_pure a
  | error fault => exact keeps_refuse fault

theorem keeps_change {f : Grammar → Grammar} (step : ∀ g, P g → P (f g)) : (change f).Keeps P :=
  step

theorem keeps_bind {edit : Edit α} {next : α → Edit β} (first : edit.Keeps P)
    (more : ∀ a, (next a).Keeps P) : (edit >>= next).Keeps P := by
  intro g holds
  have between := first g holds
  rcases ran : edit g with ⟨result, h, log⟩
  rw [ran] at between
  cases result with
  | error fault =>
    rw [bind_of_error ran]
    exact between
  | ok a =>
    rw [bind_of_ok ran]
    exact more a h between

theorem keeps_forM {edit : α → Edit Unit} {items : List α} (round : ∀ x ∈ items, (edit x).Keeps P) :
    (items.forM edit).Keeps P := by
  rw [List.forM_eq_forM]
  induction items with
  | nil => exact keeps_pure ()
  | cons x rest ih =>
    rw [List.forM_cons]
    apply keeps_bind (round x List.mem_cons_self)
    intro _
    exact ih fun y member => round y (List.mem_cons_of_mem x member)

theorem Keeps.of_succeeds {edit : Edit α} {g h : Grammar} {a : α} (keeps : edit.Keeps P)
    (ran : edit.Succeeds g a h) (holds : P g) : P h := ran.2 ▸ keeps g holds

end Invariants

end ContextFree.Edit
