import ContextFree.Grammar.Basic
import ContextFree.Log

namespace ContextFree

structure Outcome (α : Type) where
  result : Except Fault α
  grammar : Grammar
  log : List Message

/-- A computation on a grammar that may be refused and that reports what it does. A refused edit leaves the
grammar as it was when the refusal struck. -/
def Edit (α : Type) : Type := Grammar → Outcome α

namespace Edit

variable {α β : Type}

def done (a : α) : Edit α := fun g => ⟨.ok a, g, []⟩

def andThen (edit : Edit α) (next : α → Edit β) : Edit β := fun g =>
  match edit g with
  | ⟨.error fault, h, log⟩ => ⟨.error fault, h, log⟩
  | ⟨.ok a, h, log⟩ =>
    let last := next a h
    ⟨last.result, last.grammar, log ++ last.log⟩

instance : Monad Edit where
  pure := done
  bind := andThen

def grammar : Edit Grammar := fun g => ⟨.ok g, g, []⟩

def refuse (fault : Fault) : Edit α := fun g => ⟨.error fault, g, []⟩

def change (f : Grammar → Grammar) : Edit Unit := fun g => ⟨.ok (), f g, []⟩

def require : Except Fault α → Edit α
  | .ok a => done a
  | .error fault => refuse fault

def report (level : Level) (text : String) : Edit Unit := fun g => ⟨.ok (), g, [⟨level, text⟩]⟩

def debug (text : String) : Edit Unit := report .debug text

def warn (text : String) : Edit Unit := report .warning text

@[simp] theorem pure_run (a : α) (g : Grammar) : (pure a : Edit α) g = ⟨.ok a, g, []⟩ := rfl

@[simp] theorem grammar_run (g : Grammar) : grammar g = ⟨.ok g, g, []⟩ := rfl

@[simp] theorem refuse_run (fault : Fault) (g : Grammar) :
    (refuse fault : Edit α) g = ⟨.error fault, g, []⟩ := rfl

@[simp] theorem change_run (f : Grammar → Grammar) (g : Grammar) :
    change f g = ⟨.ok (), f g, []⟩ := rfl

@[simp] theorem report_run (level : Level) (text : String) (g : Grammar) :
    report level text g = ⟨.ok (), g, [⟨level, text⟩]⟩ := rfl

theorem bind_run (edit : Edit α) (next : α → Edit β) (g : Grammar) :
    (edit >>= next) g = match edit g with
      | ⟨.error fault, h, log⟩ => ⟨.error fault, h, log⟩
      | ⟨.ok a, h, log⟩ => ⟨(next a h).result, (next a h).grammar, log ++ (next a h).log⟩ := rfl

theorem bind_of_ok {edit : Edit α} {next : α → Edit β} {g h : Grammar} {a : α}
    {log : List Message} (run : edit g = ⟨.ok a, h, log⟩) :
    (edit >>= next) g = ⟨(next a h).result, (next a h).grammar, log ++ (next a h).log⟩ := by
  rw [bind_run, run]

theorem bind_of_error {edit : Edit α} {next : α → Edit β} {g h : Grammar} {fault : Fault}
    {log : List Message} (run : edit g = ⟨.error fault, h, log⟩) :
    (edit >>= next) g = ⟨.error fault, h, log⟩ := by
  rw [bind_run, run]

theorem andThen_done (edit : Edit α) : andThen edit (fun a => done a) = edit := by
  funext g
  unfold andThen
  split <;> simp_all [done]

theorem done_andThen (a : α) (next : α → Edit β) : andThen (done a) next = next a := by
  funext g
  simp [andThen, done]

theorem andThen_assoc {γ : Type} (edit : Edit α) (next : α → Edit β) (more : β → Edit γ) :
    andThen (andThen edit next) more = andThen edit fun a => andThen (next a) more := by
  funext g
  unfold andThen
  rcases edit g with ⟨result, h, log⟩
  cases result with
  | error fault => rfl
  | ok a =>
    dsimp only
    rcases next a h with ⟨result, k, log'⟩
    cases result <;> simp

instance : LawfulMonad Edit := LawfulMonad.mk' Edit andThen_done done_andThen andThen_assoc

end Edit

end ContextFree
