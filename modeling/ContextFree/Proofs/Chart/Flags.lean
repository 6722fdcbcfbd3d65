import ContextFree.Chart

namespace ContextFree.Chart

section Flags

variable {chart next : Chart} {row place name : Nat}

theorem flag?_eq : chart.flag? row place name =
    chart[row]?.bind fun columns => columns[place]?.bind fun cell => cell[name]? := by
  unfold flag?
  cases chart[row]? with
  | none => rfl
  | some columns =>
    dsimp only [Option.bind_some]
    cases columns[place]? <;> rfl

theorem exists_of_flag? (present : (chart.flag? row place name).isSome = true) : ∃ columns cell,
    chart[row]? = some columns ∧ columns[place]? = some cell ∧ name < cell.size := by
  rw [flag?_eq, Option.isSome_iff_exists] at present
  obtain ⟨flag, found⟩ := present
  obtain ⟨columns, there, found⟩ := Option.bind_eq_some_iff.1 found
  obtain ⟨cell, here, found⟩ := Option.bind_eq_some_iff.1 found
  exact ⟨columns, cell, there, here, (Array.getElem?_eq_some_iff.1 found).1⟩

theorem flag?_mark? (marked : chart.mark? row place name = some next) (r p n : Nat) : next.flag? r p n =
    if row = r ∧ place = p ∧ name = n then some true else chart.flag? r p n := by
  unfold mark? at marked
  split at marked
  · next present =>
    cases marked
    obtain ⟨columns, cell, there, here, inside⟩ := exists_of_flag? present
    simp only [flag?_eq, Array.getElem?_modify]
    by_cases sameRow : row = r
    · subst sameRow
      by_cases samePlace : place = p
      · subst samePlace
        by_cases sameName : name = n
        · subst sameName
          simp [there, here, inside, Array.getElem?_modify]
        · simp [there, here, sameName, Array.getElem?_modify]
      · simp [there, samePlace, Array.getElem?_modify]
    · simp [sameRow]
  · cases marked

theorem exists_mark? (present : (chart.flag? row place name).isSome = true) :
    ∃ next, chart.mark? row place name = some next := by
  unfold mark?
  rw [if_pos present]
  exact ⟨_, rfl⟩

theorem flag?_blank {tokens size : Nat} (inRow : row < tokens) (inPlace : place < tokens) (inName : name < size) :
    (blank tokens size).flag? row place name = some false := by
  simp [flag?_eq, blank, inRow, inPlace, inName]

theorem flag?_blank_ne {tokens size : Nat} : (blank tokens size).flag? row place name ≠ some true := by
  intro set
  obtain ⟨columns, there, rest⟩ := Option.bind_eq_some_iff.1 (flag?_eq.symm.trans set)
  obtain ⟨cell, here, flag⟩ := Option.bind_eq_some_iff.1 rest
  simp only [blank, Array.getElem?_replicate, Option.ite_none_right_eq_some, Option.some.injEq] at there
  obtain ⟨-, rfl⟩ := there
  simp only [Array.getElem?_replicate, Option.ite_none_right_eq_some, Option.some.injEq] at here
  obtain ⟨-, rfl⟩ := here
  simp [Array.getElem?_replicate] at flag

end Flags

def Grows (chart next : Chart) : Prop :=
  ∀ row place name, chart.flag? row place name = some true → next.flag? row place name = some true

/-- What one step, or a whole loop, comes to: a chart that is still sound, in which every flag set
before is set and what was to be done is done. -/
def Reaches (keeps done : Chart → Prop) (chart : Chart) (result : Option Chart) : Prop :=
  ∃ next, result = some next ∧ keeps next ∧ done next ∧ chart.Grows next

section Loops

variable {α : Type} {keeps : Chart → Prop} {chart : Chart}

theorem Reaches.done {work : Chart → Prop} (holds : keeps chart) (done : work chart) :
    Reaches keeps work chart (some chart) := ⟨chart, rfl, holds, done, fun _ _ _ => id⟩

theorem Reaches.imp {keeps' work work' : Chart → Prop} {result : Option Chart}
    (reaches : Reaches keeps work chart result)
    (follows : ∀ next, keeps next → work next → keeps' next ∧ work' next) :
    Reaches keeps' work' chart result := by
  obtain ⟨next, same, holds, done, grows⟩ := reaches
  obtain ⟨holds, done⟩ := follows next holds done
  exact ⟨next, same, holds, done, grows⟩

/-- If every step does its part and no part comes undone, then the loop does them all. -/
theorem Reaches.foldlM {step : Chart → α → Option Chart} {work : α → Chart → Prop} {items : List α}
    (lasts : ∀ x ∈ items, ∀ chart next : Chart, chart.Grows next → work x chart → work x next)
    (each : ∀ x ∈ items, ∀ chart, keeps chart → Reaches keeps (work x) chart (step chart x))
    (holds : keeps chart) :
    Reaches keeps (fun next => ∀ x ∈ items, work x next) chart (items.foldlM step chart) := by
  induction items generalizing chart with
  | nil => exact .done holds (by simp)
  | cons x rest ih =>
    obtain ⟨middle, first, kept, did, grew⟩ := each x List.mem_cons_self chart holds
    have others := @ih middle (fun y member => lasts y (List.mem_cons_of_mem x member))
      (fun y member => each y (List.mem_cons_of_mem x member)) kept
    obtain ⟨next, loop, keptOn, didRest, grows⟩ := others
    refine ⟨next, ?_, keptOn, ?_, fun row place name set => grows row place name (grew row place name set)⟩
    · rw [List.foldlM_cons, first]
      exact loop
    · exact List.forall_mem_cons.2 ⟨lasts x List.mem_cons_self middle next grows did, didRest⟩

end Loops

end ContextFree.Chart
