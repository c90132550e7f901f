import Flowchart.Chart

/-!
# Sessions

A session works on one source step by step: it keeps the source, the program that was read from it and
the scene that was laid out, each from the last step that made one. A step that fails changes nothing.
-/

namespace Flowchart

/-- What a session keeps. -/
structure Session where
  config : Config := {}
  source : List Char := []
  program : Program := .empty
  scene : Scene Float32 := .empty 0

namespace Session

/-- A step of a session. -/
inductive Step where
  /-- Sets the source. -/
  | load (text : List Char)
  /-- Adds to the source. -/
  | append (text : List Char)
  /-- Sets the configuration, if the settings make one. -/
  | configure (settings : Setting)
  /-- Looks for slips in the source. -/
  | analyze
  /-- Carries out what is proposed against slips in the source. -/
  | fix
  /-- Reads the source. -/
  | parse
  /-- Takes the first node off the program. -/
  | unwrap
  /-- Lays out the program. -/
  | layout
  /-- Draws the scene. -/
  | render
  /-- Makes a chart of the source, past the program and the scene. -/
  | convert

/-- What a step answers. -/
inductive Answer where
  /-- The length of the source in bytes. -/
  | loaded (length : Nat)
  | configured (config : Config)
  | analyzed (analysis : Repair.Analysis)
  /-- How many findings were mended, and the source now. -/
  | fixed (count : Nat) (source : List Char)
  | parsed (program : Program)
  | placed (scene : Scene Float32)
  | rendered (text : String)
  | converted (text : String)
  /-- The settings make no configuration. -/
  | misconfigured
  | failed (failure : Failure)

/-- The session with another source, and the length of that. -/
def withSource (source : List Char) (s : Session) : Session × Answer :=
  ({ s with source }, .loaded (Text.byteLength source))

/-- Takes one step. -/
def step (s : Session) : Step → Session × Answer
  | .load text => s.withSource text
  | .append text => s.withSource (s.source ++ text)
  | .configure settings =>
    match Config.ofSetting? true settings with
    | none => (s, .misconfigured)
    | some config => ({ s with config }, .configured config)
  | .analyze => (s, .analyzed (Repair.analyze s.source))
  | .fix =>
    let analysis := Repair.analyze s.source
    ({ s with source := analysis.fixed }, .fixed analysis.diagnostics.length analysis.fixed)
  | .parse =>
    match Chart.parse s.config s.source with
    | .error failure => (s, .failed failure)
    | .ok program => ({ s with program }, .parsed program)
  | .unwrap =>
    let program := Program.ofNodes s.program.nodes.tail
    ({ s with program }, .parsed program)
  | .layout =>
    match Chart.layout s.config s.program with
    | .error failure => (s, .failed failure)
    | .ok scene => ({ s with scene }, .placed scene)
  | .render =>
    match Chart.render s.config s.scene with
    | .error failure => (s, .failed failure)
    | .ok text => (s, .rendered text)
  | .convert =>
    match Chart.convert s.config s.source with
    | .error failure => (s, .failed failure)
    | .ok text => (s, .converted text)

/-- Takes steps one after the other and gives their answers. -/
def run (s : Session) : List Step → List Answer
  | [] => []
  | step :: steps =>
    let (next, answer) := s.step step
    answer :: next.run steps

end Session

end Flowchart
