import ContextFree.Proofs.Edit.Attributes

namespace ContextFree.Edit

variable {g h : Grammar} {p : Production} {name : String} {symbol source target : Symbol} {u : Unit}

section Names

theorem eq_of_addNonterminal {place : Nat} (ran : (addNonterminal name).Succeeds g place h) :
    h = putNonterminal name g := by
  simp only [addNonterminal, succeeds_bind, succeeds_require, succeeds_change, succeeds_grammar, succeeds_pure] at ran
  obtain ⟨_, _, ⟨-, rfl⟩, _, _, rfl, _, _, ⟨rfl, rfl⟩, -, rfl⟩ := ran
  rfl

theorem removeSymbol_run (known : g.hasSymbol symbol) : removeSymbol symbol g = ⟨.ok (), dropSymbol symbol g, []⟩ := by
  cases symbol with
  | terminal name =>
    have present : name ∈ g.terminals := known
    rw [removeSymbol, removeTerminal, bind_of_ok (grammar_run g), if_pos present]
    rfl
  | nonterminal name =>
    have present : name ∈ g.nonterminals := known
    rw [removeSymbol, removeNonterminal, bind_of_ok (grammar_run g), if_pos present]
    rfl
  | empty => rfl

theorem removeSymbol_refused (unknown : ¬ g.hasSymbol symbol) :
    removeSymbol symbol g = ⟨.error (.undefined symbol.value), g, []⟩ := by
  cases symbol with
  | terminal name =>
    have absent : name ∉ g.terminals := unknown
    rw [removeSymbol, removeTerminal, bind_of_ok (grammar_run g), if_neg absent]
    rfl
  | nonterminal name =>
    have absent : name ∉ g.nonterminals := unknown
    rw [removeSymbol, removeNonterminal, bind_of_ok (grammar_run g), if_neg absent]
    rfl
  | empty => exact absurd trivial unknown

end Names

section Replacement

def substituted (source target : Symbol) (g : Grammar) : Grammar :=
  { g with productions := g.productions.map (substituteIn source target) }

theorem head_substituteIn (source target : Symbol) (p : Production) :
    (substituteIn source target p).head = p.head ∨ target = .nonterminal (substituteIn source target p).head := by
  unfold substituteIn
  dsimp only
  split
  · split
    · exact Or.inr rfl
    · exact Or.inl rfl
  · exact Or.inl rfl

theorem mem_body_substituteIn (inBody : symbol ∈ (substituteIn source target p).body) :
    symbol = target ∨ symbol ∈ p.body ∧ symbol ≠ source := by
  obtain ⟨origin, member, rfl⟩ := List.mem_map.1 inBody
  unfold substitute
  split
  · exact Or.inl rfl
  · next differs => exact Or.inr ⟨member, differs⟩

def Avoids (symbol : Symbol) (p : Production) : Prop := .nonterminal p.head ≠ symbol ∧ symbol ∉ p.body

theorem avoids_of_closed (closed : g.Closed) (unknown : ¬ g.hasSymbol symbol) (rule : p ∈ g.productions) :
    Avoids symbol p := by
  obtain ⟨head, body⟩ := closed p rule
  constructor
  · intro same
    exact unknown (same ▸ head)
  · intro inBody
    exact unknown (body symbol inBody)

/-- Where no head stands in the way, the source is not mentioned any more. -/
theorem avoids_substituteIn (differs : source ≠ target) (unblocked : headBlocks source target g = false)
    (rule : p ∈ g.productions) : Avoids source (substituteIn source target p) := by
  constructor
  · cases source with
    | nonterminal old =>
      cases target with
      | nonterminal new =>
        intro same
        have head : (if p.head = old then new else p.head) = old := Symbol.nonterminal.inj same
        split at head
        · exact differs (congrArg Symbol.nonterminal head.symm)
        · next other => exact other head
      | _ =>
        intro same
        have head : p.head = old := Symbol.nonterminal.inj same
        exact List.any_eq_false.1 unblocked p rule (beq_iff_eq.2 head)
    | _ => nofun
  · intro inBody
    rcases mem_body_substituteIn inBody with same | ⟨-, other⟩
    · exact differs same
    · exact other rfl

def restart (source target : Symbol) (g : Grammar) : Grammar :=
  if g.start = source.nonterminal? then { g with start := target.nonterminal? } else g

theorem restart_dropSymbol (source target : Symbol) (g : Grammar) :
    restart source target (dropSymbol source g) = dropSymbol source (restart source target g) := by
  have start : (dropSymbol source g).start = g.start := by cases source <;> rfl
  rw [restart, restart, start]
  split
  · cases source <;> rfl
  · rfl

def replaced (source target : Symbol) (g : Grammar) : Grammar := substituted source target (putSymbol target g)

theorem hasSymbol_replaced : (replaced source target g).hasSymbol symbol ↔ symbol = target ∨ g.hasSymbol symbol :=
  Grammar.hasSymbol_productions.trans hasSymbol_putSymbol

/-- How a replacement goes. Only the last refusal strikes when something has been done. -/
inductive Replaces (source target : Symbol) (removing : Bool) (g : Grammar) : Outcome Unit → Prop where
  | blocked (blocked : headBlocks source target g = true) :
    Replaces source target removing g ⟨.error (.invalid (.replacedHead source target)), g, []⟩
  | illegal {fault : Fault} (free : headBlocks source target g = false) (illegal : Name.check target = .error fault) :
    Replaces source target removing g ⟨.error fault, g, []⟩
  | unknown (free : headBlocks source target g = false) (legal : Name.check target = .ok ()) (removes : removing = true)
    (unknown : ¬ g.hasSymbol source) :
    Replaces source target removing g ⟨.error (.undefined source.value), replaced source target g, []⟩
  | kept (free : headBlocks source target g = false) (legal : Name.check target = .ok ()) (keeps : removing = false) :
    Replaces source target removing g ⟨.ok (), replaced source target g, []⟩
  | removed (free : headBlocks source target g = false) (legal : Name.check target = .ok ()) (removes : removing = true)
    (known : g.hasSymbol source) :
    Replaces source target removing g ⟨.ok (), restart source target (dropSymbol source (replaced source target g)), []⟩

def retire (source target : Symbol) : Edit Unit := removeSymbol source >>= fun _ => change (restart source target)

theorem replaceSymbol_run (free : headBlocks source target g = false) (legal : Name.check target = .ok ())
    (removeSource : Bool) : replaceSymbol source target removeSource g =
      (if removeSource && source != target then retire source target else done ()) (replaced source target g) := by
  rw [replaceSymbol, bind_of_ok (grammar_run g), if_neg (Bool.eq_false_iff.1 free), bind_of_ok (addSymbol_run legal g),
    bind_of_ok (change_run _ _)]
  rfl

theorem replaceSymbol_replaces (source target : Symbol) (removeSource : Bool) (g : Grammar) :
    Replaces source target (removeSource && source != target) g (replaceSymbol source target removeSource g) := by
  cases blocked : headBlocks source target g with
  | true =>
    rw [replaceSymbol, bind_of_ok (grammar_run g), if_pos blocked]
    exact .blocked blocked
  | false =>
    cases checked : Name.check target with
    | error fault =>
      rw [replaceSymbol, bind_of_ok (grammar_run g), if_neg (Bool.eq_false_iff.1 blocked),
        bind_of_error (addSymbol_refused checked g)]
      exact .illegal blocked checked
    | ok done =>
      rw [replaceSymbol_run blocked checked]
      cases removes : removeSource && source != target with
      | false => exact .kept blocked checked rfl
      | true =>
        have differs : source ≠ target := bne_iff_ne.1 (Bool.and_eq_true_iff.1 removes).2
        by_cases known : g.hasSymbol source
        · have present : (replaced source target g).hasSymbol source := hasSymbol_replaced.2 (Or.inr known)
          rw [if_pos rfl, retire, bind_of_ok (removeSymbol_run present)]
          exact .removed blocked checked rfl known
        · have absent : ¬ (replaced source target g).hasSymbol source := by
            rw [hasSymbol_replaced]
            exact not_or.2 ⟨differs, known⟩
          rw [if_pos rfl, retire, bind_of_error (removeSymbol_refused absent)]
          exact .unknown blocked checked rfl known

theorem succeeds_replaceSymbol {removeSource : Bool} : (replaceSymbol source target removeSource).Succeeds g u h ↔
    headBlocks source target g = false ∧ Name.check target = .ok () ∧
      ((removeSource && source != target) = false ∧ h = replaced source target g ∨
        (removeSource && source != target) = true ∧ g.hasSymbol source ∧
          h = restart source target (dropSymbol source (replaced source target g))) := by
  have course := replaceSymbol_replaces source target removeSource g
  unfold Succeeds
  generalize replaceSymbol source target removeSource g = outcome at course
  cases course with
  | blocked blocked => simp [blocked]
  | illegal _ illegal => simp [illegal]
  | unknown _ _ removes unknown => simp [removes, unknown]
  | kept free legal keeps => simp [free, legal, keeps, eq_comm]
  | removed free legal removes known => simp [free, legal, removes, known, eq_comm]

end Replacement

end ContextFree.Edit
