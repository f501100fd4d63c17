import SyntaxMarkup.CommandLine.Run
import SyntaxMarkup.Proofs.CommandLine.Places

namespace SyntaxMarkup.CommandLine

/-- Whether there is something at a path that has a fault. -/
def FileFault.isPresent : FileFault → Bool
  | isDirectory | other _ => true
  | _ => false

def Outcome.exitCode : Outcome → Nat
  | wrongUsage => usageExitCode
  | finished report => report.exitCode

namespace FileSystem

variable {files : FileSystem} {path : String} {tree : Tree}

/-- A path holds a tree if there is a file with the text of a document that describes it. -/
def Holds (files : FileSystem) (path : String) (tree : Tree) : Prop :=
  ∃ bytes text value, files.read path = .ok bytes ∧ String.fromUTF8? bytes = some text ∧
    Json.readDocument? text = some value ∧ Tree.ofJson value = .ok tree

/-- Why a path holds no tree, and what is said of it. -/
inductive Lacks (files : FileSystem) (path : String) : Failure → Prop
  | absent {fault : FileFault} (read : files.read path = .error fault)
      (nothing : fault.isPresent = false) : Lacks files path (.notFound path)
  | unreadable {fault : FileFault} (read : files.read path = .error fault)
      (present : fault.isPresent = true) : Lacks files path (.unreadable path fault)
  | notText {bytes : ByteArray} (read : files.read path = .ok bytes)
      (decoded : String.fromUTF8? bytes = none) : Lacks files path (.unreadable path .notText)
  | notJson {bytes : ByteArray} {text : String} (read : files.read path = .ok bytes)
      (decoded : String.fromUTF8? bytes = some text) (parsed : Json.readDocument? text = none) :
      Lacks files path (.invalidJson path)
  | notTree {bytes : ByteArray} {text : String} {value : Json} {error : TreeError}
      (read : files.read path = .ok bytes) (decoded : String.fromUTF8? bytes = some text)
      (parsed : Json.readDocument? text = some value)
      (lowered : Tree.ofJson value = .error error) : Lacks files path (.malformed error)

theorem Lacks.readTree_eq {failure : Failure} (lacks : files.Lacks path failure) :
    readTree path (files.read path) = .error failure := by
  cases lacks with
  | absent hr nothing => rw [hr]; cases ‹FileFault› <;> first | rfl | cases nothing
  | unreadable hr hpresent => rw [hr]; cases ‹FileFault› <;> first | rfl | cases hpresent
  | notText hr hd => simp only [readTree, hr, hd]
  | notJson hr hd hp => simp only [readTree, hr, hd, hp]
  | notTree hr hd hp hj =>
    simp only [readTree, hr, hd, hp, hj, Except.mapError]

theorem Holds.readTree_eq (hh : files.Holds path tree) :
    readTree path (files.read path) = .ok tree := by
  obtain ⟨bytes, text, value, hr, hd, hp, hj⟩ := hh
  simp only [readTree, hr, hd, hp, hj, Except.mapError]

/-- A path holds a tree, or one thing can be said of it. -/
theorem holds_or_lacks (files : FileSystem) (path : String) :
    (∃ tree, files.Holds path tree) ∨ ∃ failure, files.Lacks path failure := by
  cases hr : files.read path with
  | error fault =>
    cases hpresent : fault.isPresent with
    | true => exact .inr ⟨_, .unreadable hr hpresent⟩
    | false => exact .inr ⟨_, .absent hr hpresent⟩
  | ok bytes =>
    cases hd : String.fromUTF8? bytes with
    | none => exact .inr ⟨_, .notText hr hd⟩
    | some text =>
      cases hp : Json.readDocument? text with
      | none => exact .inr ⟨_, .notJson hr hd hp⟩
      | some value =>
        cases hj : Tree.ofJson value with
        | error error => exact .inr ⟨_, .notTree hr hd hp hj⟩
        | ok tree => exact .inl ⟨tree, bytes, text, value, hr, hd, hp, hj⟩

theorem Lacks.not_holds {failure : Failure} (lacks : files.Lacks path failure) :
    ¬files.Holds path tree := fun hh =>
  nomatch lacks.readTree_eq.symm.trans hh.readTree_eq

end FileSystem

section Command

variable {files : FileSystem} {path : String} {tree : Tree}

theorem run_of_lacks {failure : Failure} (command : Command)
    (lacks : files.Lacks command.path failure) :
    command.run files = ({ failure := some failure }, files) := by
  rw [Command.run, Command.planFor, lacks.readTree_eq]

theorem exitCode_eq_zero {report : Report} : report.exitCode = 0 ↔ report.failure = none := by
  rw [Report.exitCode]
  cases report.failure <;> simp

def Command.isRender : Command → Bool
  | render _ _ _ => true
  | paths _ | check _ => false

/-- A command that only prints changes nothing, and ends well exactly if its input holds a tree. -/
theorem run_of_not_isRender (files : FileSystem) (command : Command)
    (prints : command.isRender = false) :
    (command.run files).2 = files ∧
      ((command.run files).1.exitCode = 0 ↔ ∃ tree, files.Holds command.path tree) := by
  rcases files.holds_or_lacks command.path with ⟨tree, hh⟩ | ⟨failure, lacks⟩
  · have done : ∃ report, report.failure = none ∧ command.run files = (report, files) := by
      rw [Command.run, Command.planFor, hh.readTree_eq]
      cases command with
      | render => cases prints
      | paths path => exact ⟨_, rfl, rfl⟩
      | check path => exact ⟨_, rfl, rfl⟩
    obtain ⟨report, none, eq⟩ := done
    rw [eq]
    exact ⟨rfl, iff_of_true (exitCode_eq_zero.mpr none) ⟨tree, hh⟩⟩
  · rw [run_of_lacks command lacks]
    exact ⟨rfl, iff_of_false nofun fun ⟨_, hh⟩ => lacks.not_holds hh⟩

/-- The path that a rendering writes to. -/
def outputOf (path : String) (output : Option String) : String :=
  output.getD (defaultOutput path)

theorem run_render_of_holds (hh : files.Holds path tree) (output stylesheet : Option String) :
    let written := files.write (outputOf path output) (page tree (title path) stylesheet).toUTF8
    (∀ after, written = .ok after → ∃ report, report.failure = none ∧
      (Command.render path output stylesheet).run files = (report, after)) ∧
    ∀ fault, written = .error fault → ∃ report, report.failure.isSome ∧
      (Command.render path output stylesheet).run files = (report, files) := by
  intro written
  constructor
  · intro after (done : files.write (output.getD (defaultOutput path)) _ = .ok after)
    refine ⟨reportWritten (outputOf path output) tree.renderNotices none, rfl, ?_⟩
    simp only [Command.run, Command.planFor, Command.path, hh.readTree_eq, Command.plan, done]
    rfl
  · intro fault (hfail : files.write (output.getD (defaultOutput path)) _ = .error fault)
    refine ⟨reportWritten (outputOf path output) tree.renderNotices (some fault), rfl, ?_⟩
    simp only [Command.run, Command.planFor, Command.path, hh.readTree_eq, Command.plan, hfail]
    rfl

/-- A rendering ends well exactly if its input holds a tree and its output is at no directory. Then
the page of the tree is read at the output, and nothing else has changed. Otherwise nothing has. -/
structure Renders (files : FileSystem) (path target : String) (stylesheet : Option String)
    (code : Nat) (after : FileSystem) : Prop where
  ends : code = 0 ↔ (∃ tree, files.Holds path tree) ∧
    ∃ name, files.locate target = .ok name ∧ files.entry? name ≠ some .directory
  writes : code = 0 → ∃ tree name, files.Holds path tree ∧ files.locate target = .ok name ∧
    files.Replaced name (page tree (title path) stylesheet).toUTF8 after ∧
    after.read target = .ok (page tree (title path) stylesheet).toUTF8
  fails : code ≠ 0 → after = files

theorem renders (files : FileSystem) (path : String) (output stylesheet : Option String) :
    let done := (Command.render path output stylesheet).run files
    Renders files path (outputOf path output) stylesheet done.1.exitCode done.2 := by
  rcases files.holds_or_lacks path with ⟨tree, hh⟩ | ⟨failure, lacks⟩
  · obtain ⟨good, bad⟩ := run_render_of_holds hh output stylesheet
    cases hw : files.write (outputOf path output)
        (page tree (title path) stylesheet).toUTF8 with
    | ok after =>
      obtain ⟨report, none, eq⟩ := good after hw
      obtain ⟨name, hl, hf, hrep⟩ := FileSystem.exists_replaced hw
      rw [eq]
      have well := exitCode_eq_zero.mpr none
      exact ⟨iff_of_true well ⟨⟨tree, hh⟩, name, hl, hf⟩,
        fun _ => ⟨tree, name, hh, hl, hrep, hrep.read_self hf hl⟩,
        fun hfail => absurd well hfail⟩
    | error fault =>
      obtain ⟨report, some, eq⟩ := bad fault hw
      have hfail : report.exitCode ≠ 0 := fun well => by
        rw [exitCode_eq_zero.mp well] at some
        cases some
      rw [eq]
      refine ⟨iff_of_false hfail ?_, fun well => absurd well hfail, fun _ => rfl⟩
      rintro ⟨-, name, hl, hf⟩
      cases hw.symm.trans (FileSystem.write_eq_ok.mpr ⟨name, hl, hf, rfl⟩)
  · rw [run_of_lacks _ lacks]
    exact ⟨iff_of_false nofun fun ⟨⟨_, hh⟩, _⟩ => lacks.not_holds hh, nofun, fun _ => rfl⟩

end Command

/-- What a run of the program with some arguments does to a file system: nothing if it does not end
well, nothing if it is no rendering, and otherwise no more than the rendering. -/
structure Affects (arguments : List String) (files : FileSystem) (code : Nat)
    (after : FileSystem) : Prop where
  fails : code ≠ 0 → after = files
  prints : (∀ path output stylesheet,
    Request.ofArguments? arguments ≠ some (.run (.render path output stylesheet))) → after = files
  reads : ∀ command, Request.ofArguments? arguments = some (.run command) →
    command.isRender = false → (code = 0 ↔ ∃ tree, files.Holds command.path tree)
  renders : ∀ path output stylesheet,
    Request.ofArguments? arguments = some (.run (.render path output stylesheet)) →
    Renders files path (outputOf path output) stylesheet code after

theorem run_of_command {arguments : List String} {command : Command}
    (hasked : Request.ofArguments? arguments = some (.run command)) (files : FileSystem) :
    run arguments files = (.finished (command.run files).1, (command.run files).2) := by
  rw [run, hasked]

/-- Help, the version and wrong usage leave everything as it is. -/
theorem run_of_no_command {arguments : List String}
    (unasked : ∀ command, Request.ofArguments? arguments ≠ some (.run command))
    (files : FileSystem) : (run arguments files).2 = files := by
  rw [run]
  split
  next => rfl
  next command hasked => exact absurd hasked (unasked command)
  next => rfl
  next => rfl

theorem affects_run (arguments : List String) (files : FileSystem) :
    Affects arguments files (run arguments files).1.exitCode (run arguments files).2 := by
  by_cases hasked : ∃ command, Request.ofArguments? arguments = some (.run command)
  · obtain ⟨command, hasked⟩ := hasked
    rw [run_of_command hasked]
    cases kind : command.isRender with
    | false =>
      obtain ⟨same, ends⟩ := run_of_not_isRender files command kind
      refine ⟨fun _ => same, fun _ => same, fun other hk _ => ?_,
        fun path output stylesheet hk => ?_⟩
      · cases hasked.symm.trans hk
        exact ends
      · cases hasked.symm.trans hk
        cases kind
    | true =>
      cases command with
      | paths | check => cases kind
      | render path output stylesheet =>
        have done := renders files path output stylesheet
        refine ⟨done.fails, fun never => absurd hasked (never path output stylesheet),
          fun other hk none => ?_, fun path output stylesheet hk => ?_⟩
        · cases hasked.symm.trans hk
          cases none
        · cases hasked.symm.trans hk
          exact done
  · have unasked := not_exists.mp hasked
    have same := run_of_no_command unasked files
    exact ⟨fun _ => same, fun _ => same, fun command hk => absurd hk (unasked command),
      fun path output stylesheet hk => absurd hk (unasked _)⟩

/-- A run that does not end well, and one that is no rendering, leave the file system as it was; a
rendering that ends well changes what is at its output and nothing else, and leaves there the page
of the tree that its input holds. If the input holds no tree, there is one report for it, whatever
the command and its other arguments are. -/
theorem run_changes_output_only (files : FileSystem) :
    (∀ arguments,
      Affects arguments files (run arguments files).1.exitCode (run arguments files).2) ∧
    ∀ path, (∀ tree, ¬files.Holds path tree) → ∃ failure report, files.Lacks path failure ∧
      report.exitCode = 1 ∧ report.stdout = "" ∧
      report.errorText = "Error: " ++ failure.message ++ "\n" ∧
      ∀ arguments command, Request.ofArguments? arguments = some (.run command) →
        command.path = path → run arguments files = (.finished report, files) := by
  refine ⟨fun arguments => affects_run arguments files, fun path none => ?_⟩
  obtain ⟨tree, hh⟩ | ⟨failure, lacks⟩ := files.holds_or_lacks path
  · exact absurd hh (none tree)
  · refine ⟨failure, { failure := some failure }, lacks, rfl, rfl, ?_, ?_⟩
    · simp [Report.errorText, String.join]
    · rintro arguments command hasked rfl
      rw [run_of_command hasked, run_of_lacks command lacks]

/-- A file with an empty program and one that is no document. -/
def filesSample : FileSystem :=
  ⟨[(.below ["tree.json"], .file "\x7b\"type\":\"Program\",\"body\":[]\x7d".toUTF8),
    (.below ["text.json"], .file "a b".toUTF8)]⟩

theorem run_changes_output_of_filesSample :
    let done := run ["render", "-o", "page.html", "tree.json"] filesSample
    let after := done.2
    done.1.exitCode = 0 ∧
      (∃ tree, filesSample.Holds "tree.json" tree ∧
        after.read "page.html" = .ok (page tree "tree" none).toUTF8) ∧
      after.entry? (.below ["tree.json"]) = filesSample.entry? (.below ["tree.json"]) ∧
      ∃ report, report.exitCode = 1 ∧
        run ["render", "text.json"] filesSample = (.finished report, filesSample) ∧
        run ["paths", "text.json"] filesSample = (.finished report, filesSample) ∧
        run ["check", "--", "text.json"] filesSample = (.finished report, filesSample) := by
  intro done after
  obtain ⟨affects, lacking⟩ := run_changes_output_only filesSample
  have he : done.1.exitCode = 0 := by decide +kernel
  have hasked : Request.ofArguments? ["render", "-o", "page.html", "tree.json"] =
      some (.run (.render "tree.json" (some "page.html") none)) := by decide +kernel
  obtain ⟨tree, name, hh, hl, hrep, hw⟩ :=
    ((affects _).renders _ _ _ hasked).writes he
  have ha : Name.below ["tree.json"] ≠ name := by
    have place : filesSample.locate "page.html" = .ok (.below ["page.html"]) := by decide +kernel
    cases hl.symm.trans place
    decide
  have title : title "tree.json" = "tree" := by decide +kernel
  obtain ⟨failure, report, -, code, -, -, same⟩ := lacking "text.json" fun tree hh => by
    have none : (filesSample.read "text.json").toOption.bind (fun bytes =>
        (String.fromUTF8? bytes).bind Json.readDocument?) |>.isNone := by decide +kernel
    obtain ⟨bytes, text, value, hr, hd, hp, -⟩ := hh
    rw [hr] at none
    simp [Except.toOption, hd, hp] at none
  exact ⟨he, ⟨tree, hh, title ▸ hw⟩, hrep.others _ ha, report, code,
    same _ (.render "text.json" none none) (by decide +kernel) rfl,
    same _ (.paths "text.json") (by decide +kernel) rfl,
    same _ (.check "text.json") (by decide +kernel) rfl⟩

end SyntaxMarkup.CommandLine
