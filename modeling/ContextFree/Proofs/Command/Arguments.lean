import ContextFree.Command.Arguments
import ContextFree.Proofs.Reading.Written

namespace ContextFree.Command

def Setting.reports : Setting → Bool
  | .out => false
  | .log => true
  | .check => true

/-- The arguments but for those that set what is told. -/
def withoutReports : List String → List String
  | [] => []
  | argument :: rest =>
    match classify argument.toList with
    | .attached setting _ => if setting.reports then withoutReports rest else argument :: withoutReports rest
    | .awaiting setting =>
      match rest with
      | [] => [argument]
      | value :: rest =>
        if setting.reports then withoutReports rest else argument :: value :: withoutReports rest
    | .terminator => argument :: rest
    | _ => argument :: withoutReports rest

def Draft.quiet (draft : Draft) : Draft := { draft with log := none, check := none }

/-- The request with what is told left as it is set by default. -/
def Request.quiet (request : Request) : Request := { request with log := .warning, check := none }

namespace Draft

variable {draft final : Draft} {path value : String} {paths arguments : List String} {switch : Switch}
  {setting : Setting}

theorem addFile_quiet (read : draft.addFile path = .ok final) : draft.quiet.addFile path = .ok final.quiet := by
  unfold addFile at read ⊢
  split at read
  · cases read
  · next some =>
    cases read
    exact if_neg some

theorem turnOn_quiet (read : draft.turnOn switch = .ok final) : draft.quiet.turnOn switch = .ok final.quiet := by
  cases switch with
  | plain | goOn =>
    unfold turnOn at read ⊢
    dsimp only at read ⊢
    split at read
    · cases read
    · next off =>
      cases read
      exact if_neg off
  | help | version => cases read

theorem set_out_quiet (read : draft.set .out value = .ok final) : draft.quiet.set .out value = .ok final.quiet := by
  unfold set at read ⊢
  dsimp only at read
  split at read
  · cases read
  · next some =>
    cases read
    exact if_neg some

theorem quiet_of_set (reports : setting.reports = true) (read : draft.set setting value = .ok final) :
    final.quiet = draft.quiet := by
  cases setting with
  | out => cases reports
  | log | check =>
    unfold set at read
    dsimp only at read
    split at read
    · cases read
      rfl
    · cases read

theorem set_quiet (kept : ¬ setting.reports = true) (read : draft.set setting value = .ok final) :
    draft.quiet.set setting value = .ok final.quiet := by
  cases setting with
  | out => exact set_out_quiet read
  | log | check => exact absurd rfl kept

theorem addFiles_quiet (read : draft.addFiles paths = .ok final) : draft.quiet.addFiles paths = .ok final.quiet := by
  induction paths generalizing draft with
  | nil =>
    cases read
    rfl
  | cons path rest ih =>
    obtain ⟨next, first, others⟩ := Rule.bind_eq_ok_iff.1 read
    exact Rule.bind_eq_ok_iff.2 ⟨next.quiet, addFile_quiet first, ih others⟩

theorem addAll_withoutReports (read : draft.addAll arguments = .ok final) :
    draft.quiet.addAll (withoutReports arguments) = .ok final.quiet := by
  fun_induction withoutReports arguments generalizing draft with
  | case1 =>
    cases read
    rfl
  | case2 argument rest setting value is reports ih =>
    rw [addAll, is] at read
    obtain ⟨next, first, others⟩ := Rule.bind_eq_ok_iff.1 read
    rw [← quiet_of_set reports first]
    exact ih others
  | case3 argument rest setting value is kept ih =>
    rw [addAll, is] at read ⊢
    obtain ⟨next, first, others⟩ := Rule.bind_eq_ok_iff.1 read
    exact Rule.bind_eq_ok_iff.2 ⟨next.quiet, set_quiet kept first, ih others⟩
  | case4 argument setting is =>
    rw [addAll, is] at read
    cases read
  | case5 argument setting is value rest reports ih =>
    rw [addAll, is] at read
    dsimp only at read
    split at read
    · obtain ⟨next, first, others⟩ := Rule.bind_eq_ok_iff.1 read
      rw [← quiet_of_set reports first]
      exact ih others
    · cases read
  | case6 argument setting is value rest kept ih =>
    rw [addAll, is] at read ⊢
    dsimp only at read ⊢
    split at read
    · next fit =>
      obtain ⟨next, first, others⟩ := Rule.bind_eq_ok_iff.1 read
      rw [if_pos fit]
      exact Rule.bind_eq_ok_iff.2 ⟨next.quiet, set_quiet kept first, ih others⟩
    · cases read
  | case7 argument rest is =>
    rw [addAll, is] at read ⊢
    exact addFiles_quiet read
  | case8 argument rest notAttached notAwaiting notTerminator ih =>
    rw [addAll] at read ⊢
    split at read
    · next is => exact absurd is notTerminator
    · obtain ⟨next, first, others⟩ := Rule.bind_eq_ok_iff.1 read
      exact Rule.bind_eq_ok_iff.2 ⟨next.quiet, addFile_quiet first, ih others⟩
    · obtain ⟨next, first, others⟩ := Rule.bind_eq_ok_iff.1 read
      exact Rule.bind_eq_ok_iff.2 ⟨next.quiet, turnOn_quiet first, ih others⟩
    · next is => exact absurd is (notAttached _ _)
    · next is => exact absurd is (notAwaiting _)
    · cases read

end Draft

/-- Leaving out what only asks for reports changes nothing else of a request. -/
theorem Request.ofArguments_withoutReports {arguments : List String} {request : Request}
    (read : ofArguments arguments = .ok request) : ofArguments (withoutReports arguments) = .ok request.quiet := by
  obtain ⟨draft, added, made⟩ := Rule.bind_eq_ok_iff.1 read
  refine Rule.bind_eq_ok_iff.2 ⟨draft.quiet, Draft.addAll_withoutReports added, ?_⟩
  split at made
  · next found =>
    cases made
    rw [show draft.quiet.file = draft.file from rfl, found]
    rfl
  · cases made

-- The last argument is a file, whatever it looks like.
example : withoutReports ["--log", "debug", "-n5", "--cfg", "-o", "out", "--", "--log"] =
    ["--cfg", "-o", "out", "--", "--log"] := by decide +kernel

end ContextFree.Command
