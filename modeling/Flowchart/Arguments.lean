/-!
# Arguments of the command line

A command line names a source and says what becomes of it. `Arguments.parse` reads one from left to
right.

- The value of an option follows it or is attached to it: `-o V`, `-oV`, `-o=V`, `--output V`,
  `--output=V`.
- An option takes effect with the next argument that is known, and only then is it wrong that it has no
  value or is there twice. So an argument that nobody knows is the worse mistake.
- After `--` every argument is a source.
-/

namespace Flowchart

/-- What a command line asks for. -/
structure Arguments where
  input : String
  output : String
  config : Option String
  /-- The source is repaired before it is read. -/
  fix : Bool
  logLevel : String
deriving DecidableEq, Repr

namespace Arguments

/-- The options that have a value. -/
inductive Valued where
  | output
  | config
  | logLevel
deriving DecidableEq, Repr

/-- The options that have none. -/
inductive Flag where
  | fix
  | help
  | version
deriving DecidableEq, Repr

/-- Everything on a command line that begins with a hyphen. -/
inductive Switch where
  | valued (option : Valued)
  | flag (option : Flag)
deriving DecidableEq, Repr

/-- The options by their long names. -/
def longNames : List (String × Switch) :=
  [("output", .valued .output), ("config", .valued .config), ("log-level", .valued .logLevel),
    ("fix", .flag .fix), ("help", .flag .help), ("version", .flag .version)]

/-- The options by their short names. -/
def shortNames : List (Char × Switch) :=
  [('o', .valued .output), ('c', .valued .config), ('h', .flag .help), ('V', .flag .version)]

/-- The long name of an option, as it is written. -/
def Switch.name : Switch → String
  | .valued .output => "--output"
  | .valued .config => "--config"
  | .valued .logLevel => "--log-level"
  | .flag .fix => "--fix"
  | .flag .help => "--help"
  | .flag .version => "--version"

end Arguments

/-- Why a command line asks for no chart. -/
inductive UsageError where
  /-- There is no source. -/
  | noInput
  /-- Nobody knows the argument, or there is a second source. -/
  | unknown (argument : String)
  /-- An option has no value. -/
  | noValue (option : Arguments.Valued)
  /-- An option is there twice. -/
  | twice (option : Arguments.Switch)
  /-- What has no value is given one. -/
  | extraValue (option : Arguments.Flag)
  /-- Help is asked for. -/
  | help
  /-- The version is asked for. -/
  | version
deriving DecidableEq, Repr

/-- What is said of a command line that asks for no chart. -/
def UsageError.message : UsageError → String
  | .noInput => "the source is missing"
  | .unknown argument => "unexpected argument `" ++ argument ++ "`"
  | .noValue option => "`" ++ (Arguments.Switch.valued option).name ++ "` needs a value"
  | .twice option => "`" ++ option.name ++ "` is there twice"
  | .extraValue option => "`" ++ (Arguments.Switch.flag option).name ++ "` takes no value"
  | .help => "help is asked for"
  | .version => "the version is asked for"

namespace Arguments

/-! ## One argument -/

/-- What an argument is by its looks. -/
inductive Form where
  /-- It ends the options. -/
  | rest
  /-- It names an option, and may have a value attached. -/
  | switch (option : Switch) (attached : Option String)
  /-- It looks like an option that nobody knows. -/
  | stray
  /-- It is a source or the value of an option. -/
  | plain
deriving DecidableEq, Repr

/-- What comes after the first `=`, if there is one. -/
def attached? (cs : List Char) : Option String :=
  match cs.dropWhile (· ≠ '=') with
  | [] => none
  | _ :: value => some (String.ofList value)

/-- The form of an argument that begins with two hyphens. -/
def longForm (cs : List Char) : Form :=
  match longNames.lookup (String.ofList (cs.takeWhile (· ≠ '='))) with
  | none => .stray
  | some option => .switch option (attached? cs)

/-- The form of an argument that begins with one hyphen. What follows the letter is the value of an
option that has one, and counts for nothing after the others, as these end the reading. -/
def shortForm (letter : Char) (rest : List Char) : Form :=
  match shortNames.lookup letter, rest with
  | none, _ => .stray
  | some (.flag option), _ => .switch (.flag option) none
  | some (.valued option), [] => .switch (.valued option) none
  | some (.valued option), '=' :: value => .switch (.valued option) (some (String.ofList value))
  | some (.valued option), value => .switch (.valued option) (some (String.ofList value))

/-- The form of an argument. -/
def form (argument : String) : Form :=
  match argument.toList with
  | ['-', '-'] => .rest
  | '-' :: '-' :: cs => longForm cs
  | '-' :: letter :: cs => shortForm letter cs
  | _ => .plain

/-! ## Reading from left to right -/

/-- What has been read of a command line. -/
structure Draft where
  input : Option String := none
  values : List (Valued × String) := []
  fix : Bool := false
  /-- An option that has not taken effect yet, with its value if that has been read. -/
  waiting : Option (Valued × Option String) := none
  /-- The options are over. -/
  ended : Bool := false
deriving Repr

namespace Draft

/-- Gives an option its value. -/
def set (d : Draft) (option : Valued) (value : String) : Except UsageError Draft :=
  if (d.values.lookup option).isSome then .error (.twice (.valued option))
  else .ok { d with values := d.values ++ [(option, value)] }

/-- Lets the option that waits take effect. -/
def settle (d : Draft) : Except UsageError Draft :=
  match d.waiting with
  | none => .ok d
  | some (option, none) => .error (.noValue option)
  | some (option, some value) => { d with waiting := none }.set option value

/-- Takes an argument as the source. -/
def takeInput (d : Draft) (argument : String) : Except UsageError Draft :=
  match d.input with
  | some _ => .error (.unknown argument)
  | none => return { ← d.settle with input := some argument }

/-- Takes an argument that is no option: it goes to the option that waits for its value. -/
def takePlain (d : Draft) (argument : String) : Except UsageError Draft :=
  match d.waiting with
  | some (option, none) => .ok { d with waiting := some (option, some argument) }
  | _ => d.takeInput argument

/-- Takes an option. -/
def takeSwitch (d : Draft) : Switch → Option String → Except UsageError Draft
  | .valued option, none => return { ← d.settle with waiting := some (option, none) }
  | .valued option, some value => do (← d.settle).set option value
  | .flag option, some _ => .error (.extraValue option)
  | .flag .fix, none => do
    let d ← d.settle
    if d.fix then .error (.twice (.flag .fix)) else .ok { d with fix := true }
  | .flag .help, none => do
    let _ ← d.settle
    .error .help
  | .flag .version, none => do
    let _ ← d.settle
    .error .version

/-- Takes the next argument. -/
def take (d : Draft) (argument : String) : Except UsageError Draft :=
  if d.ended then d.takeInput argument
  else
    match form argument with
    | .rest => .ok { d with ended := true }
    | .switch option attached => d.takeSwitch option attached
    | .stray => .error (.unknown argument)
    | .plain => d.takePlain argument

/-- What the command line asks for, when it has been read to its end. -/
def finish (d : Draft) : Except UsageError Arguments := do
  let d ← d.settle
  match d.input with
  | none => .error .noInput
  | some input =>
    return {
      input
      output := (d.values.lookup .output).getD "out.svg"
      config := d.values.lookup .config
      fix := d.fix
      logLevel := (d.values.lookup .logLevel).getD "info" }

end Draft

/-- Reads a command line. -/
def parse (arguments : List String) : Except UsageError Arguments :=
  arguments.foldlM Draft.take {} >>= Draft.finish

end Arguments

end Flowchart
