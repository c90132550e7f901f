import Flowchart.Setting

/-!
# Tables in TOML

While a document is read, a table remembers how it came about, since that says what may still be added
to it.

- A table that a header names is complete with its section: no other header may name it again.
- A table on the way to one that a header names may still be named by a header.
- A table on the way of a dotted key may only be added to by other dotted keys.

`Entries.put?` adds a value under a dotted key, `Entries.open?` and `Entries.openNext?` open the section
of a header. All of them fail where the document defines something twice.
-/

namespace Flowchart.Toml

/-- How a table came about. -/
inductive Origin where
  /-- A header names it. -/
  | header
  /-- It is on the way to a table that a header names. -/
  | path
  /-- It is on the way of a dotted key. -/
  | dotted
deriving DecidableEq, Repr

/-- An entry of a document under construction. -/
inductive Entry where
  | value (s : Setting)
  | table (origin : Origin) (entries : List (String × Entry))
  /-- Tables under the same name, the last one first. -/
  | tables (last : List (String × Entry)) (others : List (List (String × Entry)))
deriving Inhabited

/-- The entries of a table under construction, the last one first. -/
abbrev Entries := List (String × Entry)

namespace Entries

/-- The entries with another one under a name. -/
def set (name : String) (e : Entry) : Entries → Entries
  | [] => [(name, e)]
  | (other, old) :: rest =>
    if other = name then (name, e) :: rest else (other, old) :: set name e rest

/-- Changes the table at the end of a path. Tables that are missing on the way come about as `origin`
says. A dotted key may not pass through a table that a header names. -/
def change? (origin : Origin) (f : Origin → Entries → Option Entries) (at? : Origin) :
    List String → Entries → Option Entries
  | [], entries => f at? entries
  | name :: path, entries =>
    match entries.lookup name with
    | none => do
      return set name (.table origin (← change? origin f origin path [])) entries
    | some (.value _) => none
    | some (.table old inner) =>
      if origin = .dotted ∧ old = .header then none
      else do return set name (.table old (← change? origin f old path inner)) entries
    | some (.tables last others) => do
      return set name (.tables (← change? origin f .header path last) others) entries

/-- Adds a value to a table under a name that is not taken. -/
def insert? (name : String) (value : Setting) (entries : Entries) : Option Entries :=
  match entries.lookup name with
  | none => some (set name (.value value) entries)
  | some _ => none

/-- Adds a value under a dotted key. -/
def put? (path : List String) (name : String) (value : Setting) (entries : Entries) :
    Option Entries :=
  change? .dotted
    (fun origin inner =>
      if path.isEmpty ∨ origin = .dotted then insert? name value inner else none)
    .header path entries

/-- Opens the section of a table. -/
def open? (path : List String) (name : String) (entries : Entries) : Option Entries :=
  change? .path
    (fun _ inner =>
      match inner.lookup name with
      | none => some (set name (.table .header []) inner)
      | some (.table .path old) => some (set name (.table .header old) inner)
      | some _ => none)
    .header path entries

/-- Opens the section of one more table under the same name. -/
def openNext? (path : List String) (name : String) (entries : Entries) : Option Entries :=
  change? .path
    (fun _ inner =>
      match inner.lookup name with
      | none => some (set name (.tables [] []) inner)
      | some (.tables last others) => some (set name (.tables [] (last :: others)) inner)
      | some _ => none)
    .header path entries

/-- Adds a value under a dotted key to the section at the end of a path. -/
def putAt? (opened path : List String) (name : String) (value : Setting) (entries : Entries) :
    Option Entries :=
  change? .path (fun _ inner => put? path name value inner) .header opened entries

end Entries

mutual

/-- The setting of an entry. -/
def Entry.setting : Entry → Setting
  | .value s => s
  | .table _ entries => .table (settings entries)
  | .tables last others => .list (.table (settings last) :: tables others)

/-- The settings of the entries of a table. -/
def settings : List (String × Entry) → List (String × Setting)
  | [] => []
  | (name, e) :: rest => (name, e.setting) :: settings rest

/-- The settings of several tables. -/
def tables : List (List (String × Entry)) → List Setting
  | [] => []
  | entries :: rest => .table (settings entries) :: tables rest

end

end Flowchart.Toml
