import ContextFree.Proofs.Edit.Attributes

namespace ContextFree.Edit

variable {α β : Type} {g h : Grammar} {fault : Fault}

def Fails (edit : Edit α) (g : Grammar) (fault : Fault) (h : Grammar) : Prop :=
  (edit g).result = .error fault ∧ (edit g).grammar = h

def Refuses (edit : Edit α) (g : Grammar) (fault : Fault) : Prop := (edit g).result = .error fault

theorem fails_of_run {edit : Edit α} {log : List Message} (run : edit g = ⟨.error fault, h, log⟩) :
    edit.Fails g fault h := by
  rw [Fails, run]
  exact ⟨rfl, rfl⟩

theorem refuses_iff {edit : Edit α} : edit.Refuses g fault ↔ ∃ h, edit.Fails g fault h := by
  simp [Refuses, Fails]

theorem exists_refuses_iff {edit : Edit α} : (∃ fault, edit.Refuses g fault) ↔ ¬ edit.Runs g := by
  unfold Runs Succeeds Refuses
  cases (edit g).result <;> simp

theorem Runs.not_refuses {edit : Edit α} (runs : edit.Runs g) : ¬ edit.Refuses g fault :=
  fun refused => exists_refuses_iff.1 ⟨fault, refused⟩ runs

theorem Runs.not_fails {edit : Edit α} (runs : edit.Runs g) : ¬ edit.Fails g fault h :=
  fun failed => runs.not_refuses failed.1

theorem fails_bind {edit : Edit α} {next : α → Edit β} : (edit >>= next).Fails g fault h ↔
    edit.Fails g fault h ∨ ∃ a k, edit.Succeeds g a k ∧ (next a).Fails k fault h := by
  rcases ran : edit g with ⟨result, k, log⟩
  cases result with
  | error other => simp [Fails, Succeeds, bind_of_error ran, ran]
  | ok a =>
    simp only [Fails, Succeeds, bind_of_ok ran, ran, reduceCtorEq, false_and, false_or, Except.ok.injEq]
    constructor
    · intro failed
      exact ⟨a, k, ⟨rfl, rfl⟩, failed⟩
    · intro later
      obtain ⟨_, _, ⟨rfl, rfl⟩, failed⟩ := later
      exact failed

theorem fails_bind_of_runs {edit : Edit α} {next : α → Edit β} (runs : edit.Runs g)
    (failed : (edit >>= next).Fails g fault h) :
    ∃ a k, edit.Succeeds g a k ∧ (next a).Fails k fault h :=
  (fails_bind.1 failed).resolve_left runs.not_fails

theorem fails_of_bind {edit : Edit α} {next : α → Edit β} (runs : ∀ a k, edit.Succeeds g a k → (next a).Runs k)
    (failed : (edit >>= next).Fails g fault h) : edit.Fails g fault h :=
  (fails_bind.1 failed).resolve_right fun ⟨a, k, ran, later⟩ => (runs a k ran).not_fails later

theorem fails_addProduction {p : Production} :
    (addProduction p).Fails g fault h ↔ checkProduction p = .error fault ∧ h = g := by
  cases checked : checkProduction p with
  | ok done => simp [Fails, addProduction_run checked]
  | error other => simp [Fails, addProduction_refused checked, eq_comm]

theorem refuses_bind {edit : Edit α} {next : α → Edit β} : (edit >>= next).Refuses g fault ↔
    edit.Refuses g fault ∨ ∃ a h, edit.Succeeds g a h ∧ (next a).Refuses h fault := by
  simp only [refuses_iff, fails_bind, exists_or]
  refine or_congr_right ⟨fun later => ?_, fun later => ?_⟩
  · obtain ⟨k, a, h, ran, failed⟩ := later
    exact ⟨a, h, ran, k, failed⟩
  · obtain ⟨a, h, ran, k, failed⟩ := later
    exact ⟨k, a, h, ran, failed⟩

theorem refuses_bind_of_runs {edit : Edit α} {next : α → Edit β} (runs : edit.Runs g)
    (refused : (edit >>= next).Refuses g fault) :
    ∃ a h, edit.Succeeds g a h ∧ (next a).Refuses h fault :=
  (refuses_bind.1 refused).resolve_left runs.not_refuses

theorem fails_forM_iff {edit : α → Edit Unit} {items : List α} : (items.forM edit).Fails g fault h ↔
    ∃ before x after k, items = before ++ x :: after ∧ (before.forM edit).Succeeds g () k ∧
      (edit x).Fails k fault h := by
  induction items generalizing g with
  | nil =>
    have runs : (([] : List α).forM edit).Runs g := runs_pure () g
    constructor
    · intro failed
      exact absurd failed runs.not_fails
    · intro ⟨before, _, _, _, split, _⟩
      cases before <;> cases split
  | cons y rest ih =>
    rw [List.forM_eq_forM, List.forM_cons, fails_bind]
    simp only [← List.forM_eq_forM, ih]
    constructor
    · intro stage
      rcases stage with now | ⟨_, l, first, before, x, after, k, rfl, ran, later⟩
      · exact ⟨[], y, rest, g, rfl, succeeds_forM_nil.2 rfl, now⟩
      · exact ⟨y :: before, x, after, k, rfl, succeeds_forM_cons.2 ⟨l, first, ran⟩, later⟩
    · intro ⟨before, x, after, k, split, ran, failed⟩
      cases before with
      | nil =>
        obtain ⟨rfl, rfl⟩ := List.cons.inj split
        obtain rfl := succeeds_forM_nil.1 ran
        exact Or.inl failed
      | cons first others =>
        obtain ⟨rfl, rfl⟩ := List.cons.inj split
        obtain ⟨l, one, more⟩ := succeeds_forM_cons.1 ran
        exact Or.inr ⟨(), l, one, others, x, after, k, rfl, more, failed⟩

theorem refuses_forM_iff {edit : α → Edit Unit} {items : List α} : (items.forM edit).Refuses g fault ↔
    ∃ before x after k, items = before ++ x :: after ∧ (before.forM edit).Succeeds g () k ∧
      (edit x).Refuses k fault := by
  simp only [refuses_iff, fails_forM_iff]
  constructor
  · intro ⟨h, before, x, after, k, split, ran, failed⟩
    exact ⟨before, x, after, k, split, ran, h, failed⟩
  · intro ⟨before, x, after, k, split, ran, h, failed⟩
    exact ⟨h, before, x, after, k, split, ran, failed⟩

theorem bare_of_addNewRule {p : Production} (legal : p.Legal) (refused : (addNewRule p).Refuses g fault) :
    p.body = [] ∧ fault = .invalid (.emptyBody p.head) := by
  have bare : p.body = [] := by
    by_cases bare : p.body = []
    · exact bare
    · exact absurd refused (runs_addNewRule bare legal g).not_refuses
  have checked : checkProduction p = .error (.invalid (.emptyBody p.head)) := by rw [checkProduction, bare]; rfl
  refine ⟨bare, ?_⟩
  rcases refuses_bind.1 refused with found | ⟨_, k, -, refused⟩
  · cases found
  · split at refused
    · cases refused
    · rw [Refuses, addProduction_refused checked] at refused
      exact (Except.error.inj refused).symm

section Letters

variable {kind : AttributeKind} {name : String} {letter : Char} {letters : List Char} {source : Attributes}

inductive Unfit (g : Grammar) (kind : AttributeKind) (name : String) (letter : Char) : Fault → Prop where
  | unknown (absent : name ∉ g.nonterminals) : Unfit g kind name letter (.undefined name)
  | unlike (known : name ∈ g.nonterminals) (upper : Letters.isLetter letter = false) :
    Unfit g kind name letter (.invalid (.letter letter))
  | clash (known : name ∈ g.nonterminals) (lower : Letters.isLetter letter = true)
    (held : letter ∈ (g.attributesOf name).ofKind kind.other) : Unfit g kind name letter (.clash letter name kind.other)

theorem putLetter_refused (unfit : Unfit g kind name letter fault) :
    putLetter kind name letter g = ⟨.error fault, g, []⟩ := by
  cases unfit with
  | unknown absent =>
    have refused : checkAttribute name letter g = ⟨.error (.undefined name), g, []⟩ := by
      rw [checkAttribute, bind_of_ok (grammar_run g), if_neg absent]
      rfl
    rw [putLetter, bind_of_error refused]
  | unlike known upper =>
    have refused : checkAttribute name letter g = ⟨.error (.invalid (.letter letter)), g, []⟩ := by
      rw [checkAttribute, bind_of_ok (grammar_run g), if_pos known, Weight.checkLetter, upper]
      rfl
    rw [putLetter, bind_of_error refused]
  | clash known lower held =>
    have found : checkAttribute name letter g = ⟨.ok (g.attributesOf name), g, []⟩ := by
      rw [checkAttribute, bind_of_ok (grammar_run g), if_pos known, checkLetter_iff.2 lower]
      rfl
    rw [putLetter, bind_of_ok found, if_pos held]
    rfl

theorem fails_putLetter : (putLetter kind name letter).Fails g fault h ↔ Unfit g kind name letter fault ∧ h = g := by
  constructor
  · intro failed
    have unfit : ∃ reason, Unfit g kind name letter reason := by
      by_cases known : name ∈ g.nonterminals
      · by_cases lower : Letters.isLetter letter = true
        · by_cases held : letter ∈ (g.attributesOf name).ofKind kind.other
          · exact ⟨_, .clash known lower held⟩
          · have runs : (putLetter kind name letter).Runs g := ⟨(), _, succeeds_putLetter.2 ⟨known, lower, held, rfl⟩⟩
            exact absurd failed runs.not_fails
        · exact ⟨_, .unlike known (Bool.eq_false_iff.2 lower)⟩
      · exact ⟨_, .unknown known⟩
    obtain ⟨reason, unfit⟩ := unfit
    rw [Fails, putLetter_refused unfit] at failed
    obtain ⟨same, left⟩ := failed
    cases same
    exact ⟨unfit, left.symm⟩
  · rintro ⟨unfit, rfl⟩
    exact fails_of_run (putLetter_refused unfit)

theorem fails_putLetters (failed : (letters.forM (putLetter kind name)).Fails g fault h) :
    ∃ before letter after, letters = before ++ letter :: after ∧ h = putLetters kind name before g ∧
      Unfit h kind name letter fault := by
  obtain ⟨before, letter, after, k, split, ran, now⟩ := fails_forM_iff.1 failed
  obtain ⟨unfit, rfl⟩ := fails_putLetter.1 now
  exact ⟨before, letter, after, split, (succeeds_putLetters.1 ran).2.2, unfit⟩

theorem fails_mergeAttributes : (mergeAttributes name source).Fails g fault h ↔
    (source.inherited.toList.forM (putLetter .inherited name)).Fails g fault h ∨
      ∃ k, (source.inherited.toList.forM (putLetter .inherited name)).Succeeds g () k ∧
        (source.synthesized.toList.forM (putLetter .synthesized name)).Fails k fault h := by
  rw [mergeAttributes_eq, fails_bind]
  apply or_congr_right
  constructor
  · intro ⟨_, k, first, second⟩
    exact ⟨k, first, second⟩
  · intro ⟨k, first, second⟩
    exact ⟨(), k, first, second⟩

/-- What a letter of a known name clashes with is not changed by the letters ahead of it. -/
theorem clash_of_putLetters (known : name ∈ g.nonterminals) (lower : ∀ letter ∈ letters, Letters.isLetter letter = true)
    (failed : (letters.forM (putLetter kind name)).Fails g fault h) :
    ∃ letter ∈ letters, letter ∈ (g.attributesOf name).ofKind kind.other ∧ fault = .clash letter name kind.other := by
  obtain ⟨before, letter, after, rfl, rfl, unfit⟩ := fails_putLetters failed
  have listed : letter ∈ before ++ letter :: after := by simp
  cases unfit with
  | unknown absent =>
    rw [nonterminals_putLetters] at absent
    exact absurd known absent
  | unlike _ upper =>
    rw [lower letter listed] at upper
    cases upper
  | clash _ _ held =>
    rw [(sets_putLetters kind name before g).here, Attributes.ofKind_other_merge_only] at held
    exact ⟨letter, listed, held, rfl⟩

theorem clash_of_mergeAttributes (known : name ∈ g.nonterminals) (lower : source.Lowercase)
    (refused : (mergeAttributes name source).Refuses g fault) :
    ∃ letter present, fault = .clash letter name present ∧
      letter ∈ ((g.attributesOf name).merge source).inherited ∧
        letter ∈ ((g.attributesOf name).merge source).synthesized := by
  simp only [Attributes.mem_merge_inherited, Attributes.mem_merge_synthesized]
  obtain ⟨_, failed⟩ := refuses_iff.1 refused
  rcases fails_mergeAttributes.1 failed with first | ⟨k, ran, second⟩
  · obtain ⟨letter, new, held, same⟩ := clash_of_putLetters known
      (fun letter listed => lower letter (Attributes.mem_static.2 (Or.inl listed))) first
    exact ⟨letter, .synthesized, same, Or.inr new, Or.inl held⟩
  · obtain ⟨-, -, rfl⟩ := succeeds_putLetters.1 ran
    rw [← nonterminals_putLetters .inherited name source.inherited.toList] at known
    obtain ⟨letter, new, held, same⟩ := clash_of_putLetters known
      (fun letter listed => lower letter (Attributes.mem_static.2 (Or.inr listed))) second
    rw [(sets_putLetters .inherited name source.inherited.toList g).here, Attributes.only,
      Letters.ofList_toList] at held
    exact ⟨letter, .inherited, same, Attributes.mem_merge_inherited.1 held, Or.inr new⟩

end Letters

end ContextFree.Edit
