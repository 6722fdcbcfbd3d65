import ContextFree.Command.Directory
import ContextFree.Proofs.AttributeReferences
import ContextFree.Proofs.Command.Arguments

namespace ContextFree.Command

variable {disk : Disk} {request : Request} {told again : Report} {g h c d : Grammar}

def Reads (disk : Disk) (request : Request) (g : Grammar) : Prop :=
  ∃ bytes, disk.opens request.file = .ok (.bytes bytes) ∧
    Reading.readBytes request.kind request.file bytes = .ok g

/-- What an opened file gives for the line with that number, counted from zero, if it has not ended. -/
def Opened.line? : Opened → Nat → Option (Except FileFault (List UInt8))
  | .bytes content, n => (Text.lines 10 13 content)[n]?.map .ok
  | .failing fault, _ => some (.error fault)

/-- The file is opened, and there is always one line more. -/
def Endless (disk : Disk) (request : Request) : Prop :=
  ∃ opened, disk.opens request.file = .ok opened ∧ ∀ n, (opened.line? n).isSome = true

/-- The full conversion, which goes on after failures if that is asked for, makes the second grammar of the first. -/
def Converts (request : Request) (g c : Grammar) : Prop :=
  (Pipeline.run request.goOn (Pipeline.standard request.kind) g).result = .ok c

def Refused (disk : Disk) (request : Request) : Prop :=
  ∃ path fault, request.out = some path ∧ disk.refuses path = some fault

def delivered (text : String) : Option String → String × Option (String × String)
  | none => (text, none)
  | some path => ("", some (path, text))

/-- The four ways in which a run comes to its end. -/
inductive Course (disk : Disk) (request : Request) : Report → Prop where
  | unreadable {log : List Message} (none : ∀ g, ¬ Reads disk request g) :
    Course disk request { exit := .unreadable, log }
  | unconverted {log : List Message} {g : Grammar} (reads : Reads disk request g) (none : ∀ c, ¬ Converts request g c) :
    Course disk request { exit := .unconverted, log }
  | unwritten {log : List Message} {g c : Grammar} (reads : Reads disk request g) (converts : Converts request g c)
    (refused : Refused disk request) : Course disk request { exit := .unwritten, log }
  | success {log : List Message} {g c : Grammar} (reads : Reads disk request g) (converts : Converts request g c)
    (free : ¬ Refused disk request) : Course disk request
      { exit := .success, output := (delivered (c.text ++ "\n") request.out).1, log,
        written := (delivered (c.text ++ "\n") request.out).2 }

theorem reads_iff : Reads disk request g ↔
    ∃ content, content? (disk.opens request.file) = some content ∧ readGrammar request content = .ok g := by
  unfold Reads
  rcases disk.opens request.file with fault | (bytes | fault) <;> simp [content?, readGrammar]

theorem endless_iff : Endless disk request ↔ content? (disk.opens request.file) = none := by
  unfold Endless
  rcases disk.opens request.file with fault | (bytes | fault)
  · simp [content?]
  · simp only [content?, reduceCtorEq, iff_false]
    rintro ⟨_, same, more⟩
    cases same
    -- No line comes after the last one.
    have last := more (Text.lines 10 13 bytes).length
    simp [Opened.line?] at last
  · exact ⟨fun _ => rfl, fun _ => ⟨_, rfl, fun _ => rfl⟩⟩

theorem run_eq_none_iff {words : Words} : run disk request words = none ↔ Endless disk request := by
  rw [run, Option.map_eq_none_iff, endless_iff]

theorem Reads.unique (first : Reads disk request g) (second : Reads disk request h) : g = h := by
  obtain ⟨content, found, read⟩ := reads_iff.1 first
  obtain ⟨_, same, readToo⟩ := reads_iff.1 second
  cases found.symm.trans same
  exact Except.ok.inj (read.symm.trans readToo)

theorem Converts.unique (first : Converts request g c) (second : Converts request g d) : c = d :=
  Except.ok.inj (first.symm.trans second)

theorem exists_converts (goesOn : request.goOn = true) (g : Grammar) : ∃ c, Converts request g c := by
  refine ⟨Pipeline.left (Pipeline.standard request.kind) g, ?_⟩
  rw [Converts, goesOn, Pipeline.run_goOn_eq]

theorem course_report (reads : Reads disk request g) (converts : Converts request g c) (log : List Message) :
    Course disk request (report request (log, .ok (c.text ++ "\n")) disk.refuses) := by
  obtain ⟨file, plain, goOn, out, level, check⟩ := request
  cases out with
  | none =>
    refine @Course.success _ _ log _ _ reads converts ?_
    rintro ⟨_, _, nowhere, -⟩
    cases nowhere
  | some path =>
    cases refuses : disk.refuses path with
    | none =>
      simp only [report, refuses]
      refine @Course.success _ _ log _ _ reads converts ?_
      rintro ⟨_, fault, there, refused⟩
      cases there
      cases refuses.symm.trans refused
    | some fault =>
      simp only [report, refuses]
      exact .unwritten reads converts ⟨path, fault, rfl, refuses⟩

theorem course_run {words : Words} (ran : run disk request words = some told) : Course disk request told := by
  obtain ⟨content, found, rfl⟩ := Option.map_eq_some_iff.1 ran
  unfold convertFile
  cases read : readGrammar request content with
  | error problems =>
    refine .unreadable fun g reads => ?_
    obtain ⟨_, same, readToo⟩ := reads_iff.1 reads
    cases found.symm.trans same
    cases read.symm.trans readToo
  | ok g =>
    have reads : Reads disk request g := reads_iff.2 ⟨content, found, read⟩
    dsimp only
    cases converted : (Pipeline.run request.goOn (Pipeline.standard request.kind) g).result with
    | error failure =>
      refine .unconverted reads fun c converts => ?_
      cases converted.symm.trans converts
    | ok c => exact course_report reads converted _

theorem Course.quiet (course : Course disk request told) : Course disk request.quiet told := by
  cases course with
  | unreadable none => exact .unreadable none
  | unconverted reads none => exact .unconverted reads none
  | unwritten reads converts refused => exact .unwritten reads converts refused
  | success reads converts free => exact .success reads converts free

theorem Course.unique (first : Course disk request told) (second : Course disk request again) :
    told.exit = again.exit ∧ told.output = again.output ∧ told.written = again.written := by
  cases first with
  | unreadable none =>
    cases second with
    | unreadable => exact ⟨rfl, rfl, rfl⟩
    | unconverted reads | unwritten reads | success reads => exact absurd reads (none _)
  | unconverted reads none =>
    cases second with
    | unreadable no => exact absurd reads (no _)
    | unconverted => exact ⟨rfl, rfl, rfl⟩
    | unwritten later converts | success later converts =>
      cases reads.unique later
      exact absurd converts (none _)
  | unwritten reads converts refused =>
    cases second with
    | unreadable no => exact absurd reads (no _)
    | unconverted later no =>
      cases reads.unique later
      exact absurd converts (no _)
    | unwritten => exact ⟨rfl, rfl, rfl⟩
    | success _ _ free => exact absurd refused free
  | success reads converts free =>
    cases second with
    | unreadable no => exact absurd reads (no _)
    | unconverted later no =>
      cases reads.unique later
      exact absurd converts (no _)
    | unwritten _ _ refused => exact absurd refused free
    | success later convertsToo =>
      cases reads.unique later
      cases converts.unique convertsToo
      exact ⟨rfl, rfl, rfl⟩

section Codes

variable (course : Course disk request told)

include course

theorem Course.unreadable_iff : told.exit.code = 2 ↔ ∀ g, ¬ Reads disk request g := by
  constructor
  · intro code
    cases course with
    | unreadable none => exact none
    | _ => cases code
  · intro none
    rw [(course.unique (@Course.unreadable _ _ [] none)).1]
    rfl

theorem Course.unconverted_iff : told.exit.code = 3 ↔ ∃ g, Reads disk request g ∧ ∀ c, ¬ Converts request g c := by
  constructor
  · intro code
    cases course with
    | unconverted reads none => exact ⟨_, reads, none⟩
    | _ => cases code
  · rintro ⟨g, reads, none⟩
    rw [(course.unique (@Course.unconverted _ _ [] _ reads none)).1]
    rfl

theorem Course.unwritten_iff :
    told.exit.code = 4 ↔ ∃ g c, Reads disk request g ∧ Converts request g c ∧ Refused disk request := by
  constructor
  · intro code
    cases course with
    | unwritten reads converts refused => exact ⟨_, _, reads, converts, refused⟩
    | _ => cases code
  · rintro ⟨g, c, reads, converts, refused⟩
    rw [(course.unique (@Course.unwritten _ _ [] _ _ reads converts refused)).1]
    rfl

theorem Course.success_iff :
    told.exit.code = 0 ↔ ∃ g c, Reads disk request g ∧ Converts request g c ∧ ¬ Refused disk request := by
  constructor
  · intro code
    cases course with
    | success reads converts free => exact ⟨_, _, reads, converts, free⟩
    | _ => cases code
  · rintro ⟨g, c, reads, converts, free⟩
    rw [(course.unique (@Course.success _ _ [] _ _ reads converts free)).1]
    rfl

theorem Course.not_unconverted (goesOn : request.goOn = true) : told.exit.code ≠ 3 := by
  intro code
  obtain ⟨g, -, none⟩ := course.unconverted_iff.1 code
  obtain ⟨c, converts⟩ := exists_converts goesOn g
  exact none c converts

theorem Course.silent (early : told.exit.code = 2 ∨ told.exit.code = 3) : told.output = "" ∧ told.written = none := by
  cases course with
  | unreadable | unconverted | unwritten => exact ⟨rfl, rfl⟩
  | success => rcases early with code | code <;> cases code

theorem Course.rendered (code : told.exit.code = 0) (reads : Reads disk request g) (converts : Converts request g c) :
    (told.output, told.written) = delivered (c.text ++ "\n") request.out := by
  cases course with
  | success readsToo convertsToo =>
    cases reads.unique readsToo
    cases converts.unique convertsToo
    rfl
  | _ => cases code

end Codes

/-- Command lines that differ in nothing but what is told leave the same behind, whatever words the checks draw. If
the file opens but has no end, neither run ends. Otherwise both do, and the code is 2 if no grammar is read, else 3 if
it is not converted, which cannot be if the conversion is to go on, else 4 if the file cannot be written, else 0.
Nothing is printed or written of a grammar that is not read or not converted; if all goes well, the text of the
converted grammar is. -/
theorem diagnostics_change_nothing {arguments others : List String} {request other : Request}
    (asked : Request.ofArguments arguments = .ok request) (askedToo : Request.ofArguments others = .ok other)
    (same : withoutReports arguments = withoutReports others) (disk : Disk) (words more : Words) :
    (Endless disk request → run disk request words = none ∧ run disk other more = none) ∧
    (¬ Endless disk request → ∃ told again, run disk request words = some told ∧ run disk other more = some again ∧
      (told.exit = again.exit ∧ told.output = again.output ∧ told.written = again.written) ∧
      (told.exit.code = 2 ↔ ∀ g, ¬ Reads disk request g) ∧
      (told.exit.code = 3 ↔ ∃ g, Reads disk request g ∧ ∀ c, ¬ Converts request g c) ∧
      (request.goOn = true → told.exit.code ≠ 3) ∧
      (told.exit.code = 4 ↔ ∃ g c, Reads disk request g ∧ Converts request g c ∧ Refused disk request) ∧
      (told.exit.code = 0 ↔ ∃ g c, Reads disk request g ∧ Converts request g c ∧ ¬ Refused disk request) ∧
      (told.exit.code = 2 ∨ told.exit.code = 3 → told.output = "" ∧ told.written = none) ∧
      (told.exit.code = 0 → ∀ g c, Reads disk request g → Converts request g c →
        (told.output, told.written) = delivered (c.text ++ "\n") request.out)) := by
  have quiet : other.quiet = request.quiet := by
    have first := Request.ofArguments_withoutReports asked
    rw [same, Request.ofArguments_withoutReports askedToo] at first
    exact Except.ok.inj first
  have file : other.file = request.file := show other.quiet.file = request.quiet.file by rw [quiet]
  have endlessToo : Endless disk other ↔ Endless disk request := by rw [endless_iff, endless_iff, file]
  constructor
  · intro endless
    exact ⟨run_eq_none_iff.2 endless, run_eq_none_iff.2 (endlessToo.2 endless)⟩
  · intro ends
    obtain ⟨told, ran⟩ := Option.ne_none_iff_exists'.1 fun none => ends (run_eq_none_iff.1 none)
    obtain ⟨again, ranToo⟩ := Option.ne_none_iff_exists'.1 fun none => ends (endlessToo.1 (run_eq_none_iff.1 none))
    have course := course_run ran
    have courseToo := (course_run ranToo).quiet
    rw [quiet] at courseToo
    exact ⟨told, again, ran, ranToo, course.quiet.unique courseToo, course.unreadable_iff, course.unconverted_iff,
      course.not_unconverted, course.unwritten_iff, course.success_iff, course.silent,
      fun code _ _ reads converts => course.rendered code reads converts⟩

-- One file, with S = 'a' | '' in it.
def sampleFolder : Directory := ⟨[("g", [83, 32, 61, 32, 39, 97, 39, 32, 124, 32, 39, 39, 32, 59])]⟩

def checkedRequest : Request :=
  { file := "g", plain := true, goOn := false, out := none, log := .debug, check := some 3 }

theorem diagnostics_change_nothing_of_check :
    Request.ofArguments ["--cfg", "--log=debug", "g", "-n", "3"] = .ok checkedRequest ∧
    Request.ofArguments ["--cfg", "g"] = .ok checkedRequest.quiet ∧
    withoutReports ["--cfg", "--log=debug", "g", "-n", "3"] = withoutReports ["--cfg", "g"] ∧
    ¬ Endless sampleFolder.disk checkedRequest ∧
    ∃ told, run sampleFolder.disk checkedRequest (Words.splitMix 1) = some told ∧
      told.exit.code = 0 ∧ told.output = "S = 'a' ;\n" ∧ told.written = none ∧
      ∃ g c, Reads sampleFolder.disk checkedRequest g ∧ Converts checkedRequest g c ∧
        ¬ Refused sampleFolder.disk checkedRequest := by
  have asked : Request.ofArguments ["--cfg", "--log=debug", "g", "-n", "3"] = .ok checkedRequest := by decide +kernel
  have askedToo : Request.ofArguments ["--cfg", "g"] = .ok checkedRequest.quiet := by decide +kernel
  have same : withoutReports ["--cfg", "--log=debug", "g", "-n", "3"] = withoutReports ["--cfg", "g"] := by
    decide +kernel
  have ends : ¬ Endless sampleFolder.disk checkedRequest := by
    rw [endless_iff]
    decide +kernel
  obtain ⟨told, again, ran, ranToo, ⟨exit, output, written⟩, -, -, -, -, success, -, -⟩ :=
    (diagnostics_change_nothing asked askedToo same sampleFolder.disk (Words.splitMix 1) (Words.splitMix 2)).2 ends
  have quiet : (run sampleFolder.disk checkedRequest.quiet (Words.splitMix 2)).map
      (fun again => (again.exit.code, again.output, again.written)) = some (0, "S = 'a' ;\n", none) := by decide +kernel
  rw [ranToo, Option.map_some, Option.some.injEq, Prod.mk.injEq, Prod.mk.injEq] at quiet
  obtain ⟨code, printed, none⟩ := quiet
  rw [← exit] at code
  exact ⟨asked, askedToo, same, ends, told, ran, code, output.trans printed, written.trans none, success.1 code⟩

/-- A directory opens like a file and gives no grammar, but the run that is to read it does not end with code 2. -/
theorem run_endless_of_folder : ∃ request, Request.ofArguments ["--cfg", "."] = .ok request ∧
    (∀ g, ¬ Reads sampleFolder.disk request g) ∧ ∀ words, run sampleFolder.disk request words = none := by
  have endless : content? (sampleFolder.disk.opens ".") = none := by decide +kernel
  refine ⟨{ file := ".", plain := true, goOn := false, out := none, log := .warning, check := none },
    by decide +kernel, ?_, fun words => ?_⟩
  · intro g reads
    obtain ⟨content, found, -⟩ := reads_iff.1 reads
    cases endless.symm.trans found
  · rw [run, endless]
    rfl

end ContextFree.Command
