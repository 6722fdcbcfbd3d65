import ContextFree.Proofs.Edit.Tables

namespace ContextFree.Edit

variable {α β : Type} {Q : Message → Prop}

def Reports (Q : Message → Prop) (edit : Edit α) : Prop := ∀ g, ∀ m ∈ (edit g).log, Q m

section Steps

theorem log_bind_of_succeeds {edit : Edit α} {next : α → Edit β} {g h : Grammar} {a : α} (ran : edit.Succeeds g a h) :
    ((edit >>= next) g).log = (edit g).log ++ (next a h).log := by
  obtain ⟨answered, rfl⟩ := ran
  rcases first : edit g with ⟨result, k, log⟩
  rw [first] at answered
  cases answered
  rw [bind_of_ok first]

theorem reports_of_silent {edit : Edit α} (silent : ∀ g, (edit g).log = []) : edit.Reports Q := by
  intro g m told
  rw [silent] at told
  cases told

theorem log_eq_nil_of_reports {edit : Edit α} (none : edit.Reports fun _ => False) (g : Grammar) : (edit g).log = [] :=
  List.eq_nil_iff_forall_not_mem.2 (none g)

theorem reports_pure (a : α) : (pure a : Edit α).Reports Q := reports_of_silent fun _ => rfl

theorem reports_grammar : grammar.Reports Q := reports_of_silent fun _ => rfl

theorem reports_refuse (fault : Fault) : (refuse fault : Edit α).Reports Q := reports_of_silent fun _ => rfl

theorem reports_change (f : Grammar → Grammar) : (change f).Reports Q := reports_of_silent fun _ => rfl

theorem reports_report {level : Level} {text : String} (sort : Q ⟨level, text⟩) : (report level text).Reports Q := by
  intro g m told
  rw [List.mem_singleton.1 told]
  exact sort

theorem reports_bind {edit : Edit α} {next : α → Edit β} (first : edit.Reports Q) (more : ∀ a, (next a).Reports Q) :
    (edit >>= next).Reports Q := by
  intro g m told
  rcases ran : edit g with ⟨result, h, log⟩
  have before := first g
  rw [ran] at before
  cases result with
  | error fault =>
    rw [bind_of_error ran] at told
    exact before m told
  | ok a =>
    rw [bind_of_ok ran] at told
    rcases List.mem_append.1 told with early | late
    · exact before m early
    · exact more a h m late

theorem reports_forM {edit : α → Edit Unit} {items : List α} (round : ∀ x ∈ items, (edit x).Reports Q) :
    (items.forM edit).Reports Q := by
  rw [List.forM_eq_forM]
  induction items with
  | nil => exact reports_pure ()
  | cons x rest ih =>
    rw [List.forM_cons]
    apply reports_bind (round x List.mem_cons_self)
    intro _
    exact ih fun y member => round y (List.mem_cons_of_mem x member)

end Steps

section Silent

theorem reports_keepProductions (keep : Production → Bool) : (keepProductions keep).Reports Q := by
  refine reports_bind reports_grammar fun _ => reports_bind (reports_change _) fun _ => ?_
  exact reports_bind reports_grammar fun _ => reports_pure _

theorem reports_takeProductions : takeProductions.Reports Q :=
  reports_bind reports_grammar fun _ => reports_bind (reports_change _) fun _ => reports_pure _

theorem reports_removeNonterminal (name : String) : (removeNonterminal name).Reports Q := by
  refine reports_bind reports_grammar fun k => ?_
  split
  · exact reports_change _
  · exact reports_refuse _

theorem reports_addProduction (p : Production) : (addProduction p).Reports Q := by
  apply reports_of_silent
  intro g
  cases checked : checkProduction p with
  | ok done => rw [addProduction_run checked]
  | error fault => rw [addProduction_refused checked]

theorem reports_addNewRule (p : Production) : (addNewRule p).Reports Q := by
  refine reports_bind reports_grammar fun k => ?_
  split
  · exact reports_pure ()
  · exact reports_addProduction p

end Silent

end ContextFree.Edit
