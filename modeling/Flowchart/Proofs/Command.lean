import Flowchart.Command
import Flowchart.Proofs.Files
import Flowchart.Proofs.Repair.Line

/-!
# What a command line does to files

`run_effect`: a command line writes one file, the chart of the source that it names, and nothing
where it fails. Mending the source on the way gives the chart of the mended source.

* `OnlyReads`: a program that leaves files as they are. `onlyReads_load`: reading the configuration
  and the source does.
* `draw_eq`: the chart that is drawn into a file has the text that `Chart.convert` gives, and fails
  where that does, before the file is written.
* `Charts`: the text of the chart that a command line asks for, if all it reads is there and right.
  `performed_cases`: the command writes such a text, or it fails because there is none or no place
  for it.
* `charts_mended`: the chart that mending asks for is the one that the mended source asks for.
-/

namespace Flowchart.Command

/-! ## Programs that only read -/

/-- The program leaves the files as they are. -/
def OnlyReads {α : Type} (x : StateM Files α) : Prop := ∀ files, (x.run files).2 = files

namespace OnlyReads

variable {α β : Type} {x : StateM Files α} {f : α → StateM Files β}

theorem pure (a : α) : OnlyReads (Pure.pure a) := fun _ => rfl

theorem bind (hx : OnlyReads x) (hf : ∀ a, OnlyReads (f a)) : OnlyReads (x >>= f) := by
  intro files
  have hrest := hf (x.run files).1 (x.run files).2
  exact hrest.trans (hx files)

theorem isThere (path : String) : OnlyReads (Files.access.isThere path) := fun _ => rfl

theorem read (path : String) : OnlyReads (Files.access.read path) := fun _ => rfl

end OnlyReads

theorem onlyReads_readFile (path : String) : OnlyReads (readFile Files.access path) :=
  .bind (.read path) fun _ => .pure _

theorem onlyReads_readConfig (path : String) : OnlyReads (readConfig Files.access path) := by
  refine .bind (.isThere path) fun there => ?_
  cases there with
  | true => exact .bind (onlyReads_readFile path) fun _ => .pure _
  | false => exact .pure _

theorem onlyReads_findConfig (paths : List String) : OnlyReads (findConfig Files.access paths) := by
  induction paths with
  | nil => exact .pure _
  | cons path paths ih =>
    refine .bind (.isThere path) fun there => ?_
    cases there with
    | true => exact onlyReads_readConfig path
    | false => exact ih

theorem onlyReads_loadConfig (user : Option String) (args : Arguments) :
    OnlyReads (loadConfig Files.access user args) := by
  unfold loadConfig
  split
  · exact onlyReads_readConfig _
  · exact onlyReads_findConfig _

theorem onlyReads_load (user : Option String) (args : Arguments) :
    OnlyReads (load Files.access user args) := by
  refine .bind (onlyReads_loadConfig user args) fun config => ?_
  cases config with
  | error => exact .pure _
  | ok => exact .bind (onlyReads_readFile args.input) fun _ => .pure _

/-! ## The chart that is written -/

section Draw

variable {m : Type → Type} [Monad m] (files : FileAccess m) (config : Config)

/-- Writes a text, or fails as making the text has failed. -/
def writeText (text : Except Failure String) (path : String) : m (Except Failure Unit) := do
  match text with
  | .error failure => return .error failure
  | .ok text => return (← files.write path text).mapError .unwritable

/-- An exporter with a path writes the text that one without a path gives. -/
theorem write_eq (s : Scene Float32) (path : String) :
    Chart.write config files s path = writeText files (Chart.render config s) path := by
  unfold Chart.write Chart.render Exporter.ofStyle
  cases config.style.palette <;> rfl

/-- What is written is what `Chart.convert` gives. -/
theorem draw_eq (source : List Char) (path : String) :
    draw files config source path = writeText files (Chart.convert config source) path := by
  unfold draw Chart.convert
  cases Chart.parse config source with
  | error failure => rfl
  | ok program =>
    dsimp only [bind, Except.bind]
    cases Chart.layout config program with
    | error failure => rfl
    | ok scene => exact write_eq files config scene path

end Draw

/-! ## The chart that is asked for -/

section Charts

variable (files : Files) (user : Option String) (args : Arguments)

/-- The configuration that is read for a command line. -/
def configIn : Except Failure Config := ((loadConfig Files.access user args).run files).1

/-- The source that a chart is made of, mended if it is to be. -/
def drawnSource (fix : Bool) (source : List Char) : List Char :=
  if fix then (Repair.analyze source).fixed else source

/-- The command line asks for the chart with the text `svg`. -/
def Charts (svg : String) : Prop := ∃ config source,
  configIn files user args = .ok config ∧ files.read args.input = .ok source ∧
    Chart.convert config (drawnSource args.fix source.toList) = .ok svg

/-- What comes of a command line, and the files after it. -/
def performed : Outcome × Files := (run Files.access user args).run files

end Charts

variable {files : Files} {user : Option String} {args : Arguments} {svg : String}

/-- Where there is nothing to mend, mending changes nothing. -/
theorem ite_hasIssues (fix : Bool) (source : List Char) :
    (if fix && (Repair.analyze source).hasIssues then (Repair.analyze source).fixed else source) =
      drawnSource fix source := by
  unfold drawnSource
  cases fix with
  | false => rfl
  | true =>
    cases hissues : (Repair.analyze source).hasIssues with
    | true => simp
    | false =>
      have hnone : (Repair.analyze source).diagnostics = [] := by
        simpa [Repair.Analysis.hasIssues] using hissues
      simp [Repair.fixed_of_diagnostics_eq_nil hnone]

theorem load_run : (load Files.access user args).run files =
    (match configIn files user args with
      | .error failure => .error failure
      | .ok config => ((files.read args.input).mapError .unreadable).map fun source =>
          (config, source), files) := by
  have hconfig :
      (loadConfig Files.access user args).run files = (configIn files user args, files) :=
    Prod.ext rfl (onlyReads_loadConfig user args files)
  unfold load
  rw [StateT.run_bind, hconfig]
  cases configIn files user args <;> rfl

theorem write_run (path text : String) : (Files.access.write path text).run files =
    match files.write path text with
    | .error fault => (.error fault, files)
    | .ok files' => (.ok (), files') := by
  simp only [Files.access, StateT.run_bind, StateT.run_get, pure_bind]
  cases files.write path text <;> rfl

theorem writeText_run (text : Except Failure String) (path : String) :
    (writeText Files.access text path).run files =
      match text with
      | .error failure => (.error failure, files)
      | .ok text =>
        match files.write path text with
        | .error fault => (.error (.unwritable fault), files)
        | .ok files' => (.ok (), files') := by
  cases text with
  | error failure => rfl
  | ok text =>
    show StateT.run (Files.access.write path text >>= _) files = _
    rw [StateT.run_bind, write_run]
    dsimp only
    cases files.write path text <;> rfl

theorem performed_eq : performed files user args =
    match ((load Files.access user args).run files).1 with
    | .error failure => (⟨[], .error failure⟩, files)
    | .ok (config, source) =>
      let warnings :=
        Report.ofDiagnostics source.toList (Repair.analyze source.toList).diagnostics
      match Chart.convert config (drawnSource args.fix source.toList) with
      | .error failure => (⟨warnings, .error failure⟩, files)
      | .ok svg =>
        match files.write args.output svg with
        | .error fault => (⟨warnings, .error (.unwritable fault)⟩, files)
        | .ok files' => (⟨warnings, .ok ()⟩, files') := by
  have hload : (load Files.access user args).run files =
      (((load Files.access user args).run files).1, files) :=
    Prod.ext rfl (onlyReads_load user args files)
  unfold performed run
  rw [StateT.run_bind, hload]
  cases ((load Files.access user args).run files).1 with
  | error failure => rfl
  | ok loaded =>
    obtain ⟨config, source⟩ := loaded
    show StateT.run (draw Files.access config _ args.output >>= _) files = _
    rw [ite_hasIssues, draw_eq, StateT.run_bind, writeText_run]
    dsimp only
    cases Chart.convert config (drawnSource args.fix source.toList) with
    | error failure => rfl
    | ok svg =>
      dsimp only
      cases files.write args.output svg <;> rfl

/-- A chart is asked for and written, or the command fails and leaves the files as they are. -/
theorem performed_cases (files : Files) (user : Option String) (args : Arguments) :
    (∃ svg there, Charts files user args svg ∧ (files.find args.output).place? = some there ∧
      (performed files user args).1.result = .ok () ∧
      (performed files user args).2 = files.put there svg) ∨
    ((∃ failure, (performed files user args).1.result = .error failure) ∧
      (performed files user args).2 = files ∧
      ∀ svg, Charts files user args svg → (files.find args.output).place? = none) := by
  rw [performed_eq, load_run]
  unfold Charts
  cases configIn files user args with
  | error failure => exact .inr ⟨⟨failure, rfl⟩, rfl, fun svg ⟨_, _, hconfig, _⟩ => nomatch hconfig⟩
  | ok config =>
    cases files.read args.input with
    | error fault =>
      exact .inr ⟨⟨.unreadable fault, rfl⟩, rfl, fun svg ⟨_, _, _, hread, _⟩ => nomatch hread⟩
    | ok source =>
      simp only [Except.mapError, Except.map, Except.ok.injEq, exists_and_left, exists_eq_left']
      cases hdrawn : Chart.convert config (drawnSource args.fix source.toList) with
      | error failure => exact .inr ⟨⟨failure, rfl⟩, rfl, fun svg h => nomatch h⟩
      | ok svg =>
        dsimp only
        cases hwrite : files.write args.output svg with
        | ok files' =>
          obtain ⟨there, hplace, rfl⟩ := Files.write_eq_ok_iff.mp hwrite
          exact .inl ⟨svg, rfl, there, hplace, rfl, rfl⟩
        | error fault =>
          refine .inr ⟨⟨.unwritable fault, rfl⟩, rfl, fun _ _ => ?_⟩
          by_contra hne
          obtain ⟨there, hplace⟩ := Option.ne_none_iff_exists'.mp hne
          rw [Files.write_eq_ok_iff.mpr ⟨there, hplace, rfl⟩] at hwrite
          cases hwrite

theorem Charts.unique {svg' : String} (h : Charts files user args svg)
    (h' : Charts files user args svg') : svg = svg' := by
  obtain ⟨config, source, hconfig, hread, hsvg⟩ := h
  obtain ⟨config', source', hconfig', hread', hsvg'⟩ := h'
  obtain rfl : config = config' := Except.ok.inj (hconfig.symm.trans hconfig')
  obtain rfl : source = source' := Except.ok.inj (hread.symm.trans hread')
  exact Except.ok.inj (hsvg.symm.trans hsvg')

theorem result_eq_ok_iff : (performed files user args).1.result = .ok () ↔
    ∃ svg there, Charts files user args svg ∧
      (files.find args.output).place? = some there := by
  obtain ⟨svg, there, hcharts, hplace, hok, -⟩ | ⟨⟨failure, herror⟩, -, hnone⟩ :=
    performed_cases files user args
  · exact iff_of_true hok ⟨svg, there, hcharts, hplace⟩
  · refine iff_of_false (by simp [herror]) fun ⟨svg, there, hcharts, hplace⟩ => ?_
    simp [hnone svg hcharts] at hplace

/-- The files after the command, where a chart is asked for and there is a place for it. -/
theorem performed_of_charts {there : Path} (hcharts : Charts files user args svg)
    (hplace : (files.find args.output).place? = some there) :
    (performed files user args).2 = files.put there svg := by
  obtain ⟨svg', there', hcharts', hplace', -, hfiles⟩ | ⟨-, -, hnone⟩ :=
    performed_cases files user args
  · obtain rfl := hcharts.unique hcharts'
    obtain rfl := Option.some.inj (hplace.symm.trans hplace')
    exact hfiles
  · exact absurd (hnone svg hcharts) (by simp [hplace])

/-- The chart that mending asks for is the one that the mended source asks for. -/
theorem charts_mended {files' : Files} {mended source : String}
    (hread : files.read args.input = .ok source)
    (hmended : files'.read mended = .ok (String.ofList (Repair.analyze source.toList).fixed))
    (hconfig : configIn files' user args = configIn files user args) :
    Charts files user { args with fix := true } svg ↔
      Charts files' user { args with fix := false, input := mended } svg := by
  have hsame : configIn files' user { args with fix := false, input := mended } =
      configIn files user { args with fix := true } := hconfig
  simp [Charts, hsame, hread, hmended, drawnSource]

/-! ## The whole run -/

/-- A command line that fails changes no file. One that succeeds has changed the file at the path
that it names for its output, which holds the chart of the source, mended if it is to be. To mend
the source is to have a mended source from the start. -/
theorem run_effect (files : Files) (user : Option String) (args : Arguments) :
    (∀ failure, (performed files user args).1.result = .error failure →
      (performed files user args).2 = files) ∧
    ((performed files user args).1.result = .ok () ↔
      ∃ svg there, Charts files user args svg ∧
        (files.find args.output).place? = some there) ∧
    (∀ svg there, Charts files user args svg → (files.find args.output).place? = some there →
      (performed files user args).2.read args.output = .ok svg ∧
      (performed files user args).2.entries.lookup there = some svg.toUTF8 ∧
      ∀ other, other ≠ there →
        (performed files user args).2.entries.lookup other = files.entries.lookup other) ∧
    ∀ files' mended source, files.read args.input = .ok source →
      files'.read mended = .ok (String.ofList (Repair.analyze source.toList).fixed) →
      configIn files' user args = configIn files user args →
      (files'.find args.output).place? = (files.find args.output).place? →
      let mending := performed files user { args with fix := true }
      let plain := performed files' user { args with fix := false, input := mended }
      (mending.1.result = .ok () ↔ plain.1.result = .ok ()) ∧
        (mending.1.result = .ok () →
          ∃ svg, mending.2.read args.output = .ok svg ∧ plain.2.read args.output = .ok svg) := by
  refine ⟨fun failure herror => ?_, result_eq_ok_iff, fun svg there hcharts hplace => ?_,
    fun files' mended source hread hmended hconfig hplaces => ?_⟩
  · obtain ⟨-, -, -, -, hok, -⟩ | ⟨-, hfiles, -⟩ := performed_cases files user args
    · cases herror.symm.trans hok
    · exact hfiles
  · rw [performed_of_charts hcharts hplace]
    exact ⟨Files.read_put hplace svg, Files.lookup_put_self there svg files,
      fun other hother => Files.lookup_put_of_ne hother svg files⟩
  · intro mending plain
    have hsame (svg : String) : Charts files user { args with fix := true } svg ↔
        Charts files' user { args with fix := false, input := mended } svg :=
      charts_mended hread hmended hconfig
    have hplain : mending.1.result = .ok () ↔ plain.1.result = .ok () := by
      simp only [mending, plain, result_eq_ok_iff, hsame, hplaces]
    refine ⟨hplain, fun hok => ?_⟩
    obtain ⟨svg, there, hcharts, hplace⟩ := result_eq_ok_iff.mp hok
    have hplace' : (files'.find args.output).place? = some there := hplaces.trans hplace
    refine ⟨svg, ?_, ?_⟩
    · rw [performed_of_charts hcharts hplace]
      exact Files.read_put hplace svg
    · rw [performed_of_charts ((hsame svg).mp hcharts) hplace']
      exact Files.read_put hplace' svg

end Flowchart.Command
