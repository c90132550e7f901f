import Flowchart.Failure
import Flowchart.Text

/-!
# Files

What the command line needs of a file system is in `FileAccess`, for any monad. `Files` is a file system
as a value: the files that can be reached from one directory with what they hold. A file of it is text if
it holds UTF-8.

- `Files.find` says what is at a path, `Files.read` what text a file holds.
- `Files.write` puts a text into a file and leaves every other file as it is (`lookup_put_self`,
  `lookup_put_of_ne`); where it fails, nothing changes.
-/

namespace Flowchart

/-- Access to files: whether something is at a path, the text of a file, and putting a text into
one. -/
structure FileAccess (m : Type → Type) where
  isThere : String → m Bool
  read : String → m (Except FileFault String)
  write : String → String → m (Except FileFault Unit)

/-- The way to a file or a directory: first some steps up from the directory in which all starts, each
written `..`, or `/` for the root of the system, then names on the way down. -/
abbrev Path := List String

/-- The directory above a directory; above the root is the root. -/
def Path.parent (path : Path) : Path :=
  match path.getLast? with
  | none | some ".." => path ++ [".."]
  | some "/" => path
  | some _ => path.dropLast

/-- Files with what they hold. -/
structure Files where
  entries : List (Path × ByteArray)

namespace Files

/-- How many bytes a name in a directory has, at most. -/
def nameLimit : Nat := 255

/-- How many bytes a path has, at most. -/
def pathLimit : Nat := 4095

/-- What is at a path. -/
inductive Found where
  | file (path : Path) (content : ByteArray)
  | directory (path : Path)
  /-- Nothing, but the directory that it would be in is there. -/
  | free (path : Path)
  /-- No directory, though there is a slash behind the name. Writing takes the name for that of a
  directory, reading fails as `fault` says. -/
  | slashed (fault : FileFault)
  | absent (fault : FileFault)

/-- There is a directory at a path: the way to it leads only up, or something lies below it. -/
def isDirectory (files : Files) (path : Path) : Bool :=
  path == ["/"] || path.all (· == "..") ||
    files.entries.any fun e => path.isPrefixOf e.1 && path.length < e.1.length

/-- Why no way leads through a name at which there is no directory. -/
def fault (files : Files) (path : Path) (name : String) : FileFault :=
  if nameLimit < name.utf8ByteSize then .nameTooLong
  else if (files.entries.lookup path).isSome then .notDirectory
  else .notFound

/-- Follows names from a directory. One point is the directory itself, two are the one above it. With
`slashed`, a slash stands behind the last name. -/
def follow (files : Files) (slashed : Bool) (here : Path) : List String → Found
  | [] => .directory here
  | name :: rest =>
    if name = "." then follow files slashed here rest
    else if name = ".." then follow files slashed here.parent rest
    else
      let there := here ++ [name]
      if files.isDirectory there then follow files slashed there rest
      else if !rest.isEmpty then .absent (files.fault there name)
      else if slashed then .slashed (files.fault there name)
      else if nameLimit < name.utf8ByteSize then .absent .nameTooLong
      else
        match files.entries.lookup there with
        | some content => .file there content
        | none => .free there

/-- What is at a path, as it is written. A slash at its start stands for the root. -/
def find (files : Files) (path : String) : Found :=
  let text := path.toList
  let names := ((text.splitOn '/').filter (!·.isEmpty)).map String.ofList
  if text.contains '\x00' then .absent .nulInName
  else if text.isEmpty then .absent .notFound
  else if pathLimit < path.utf8ByteSize then .absent .nameTooLong
  else
    files.follow (text.getLast? == some '/') (if text.head? = some '/' then ["/"] else []) names

/-- Something is at a path. -/
def isThere (files : Files) (path : String) : Bool :=
  match files.find path with
  | .file .. | .directory _ => true
  | .free _ | .slashed _ | .absent _ => false

/-- The text of a file. -/
def read (files : Files) (path : String) : Except FileFault String :=
  match files.find path with
  | .file _ content =>
    match String.fromUTF8? content with
    | some text => .ok text
    | none => .error .notText
  | .directory _ => .error .isDirectory
  | .free _ => .error .notFound
  | .slashed fault | .absent fault => .error fault

/-- The files with a text in one of them. -/
def put (path : Path) (text : String) (files : Files) : Files :=
  ⟨(path, text.toUTF8) :: files.entries.filter (·.1 != path)⟩

@[simp] theorem lookup_put_self (path : Path) (text : String) (files : Files) :
    (files.put path text).entries.lookup path = some text.toUTF8 := by
  simp [put]

theorem lookup_put_of_ne {path other : Path} (h : other ≠ path) (text : String) (files : Files) :
    (files.put path text).entries.lookup other = files.entries.lookup other := by
  simp only [put, List.lookup_cons, beq_eq_false_iff_ne.2 h]
  induction files.entries with
  | nil => rfl
  | cons e entries ih =>
    obtain ⟨there, bytes⟩ := e
    by_cases he : there = path
    · simp [he, List.lookup_cons, beq_eq_false_iff_ne.2 h, ih]
    · by_cases ho : other = there
      · simp [he, ho]
      · simp [he, List.lookup_cons, beq_eq_false_iff_ne.2 ho, ih]

/-- Puts a text into a file, which comes about if it is not there. -/
def write (files : Files) (path text : String) : Except FileFault Files :=
  match files.find path with
  | .file there _ | .free there => .ok (files.put there text)
  | .directory _ | .slashed _ => .error .isDirectory
  | .absent fault => .error fault

/-- Access to files as a value, which writing changes. -/
def access : FileAccess (StateM Files) where
  isThere path := return (← get).isThere path
  read path := return (← get).read path
  write path text := do
    match (← get).write path text with
    | .ok files =>
      set files
      return .ok ()
    | .error fault => return .error fault

end Files

end Flowchart
