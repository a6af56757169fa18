/-!
# TOML documents

A TOML text is a list of lines: each assigns a value to a key, or opens a table that the assignments
after it go into. This module holds the values, and says which lists of lines are documents and what
table each of them amounts to (`Toml.ofLines?`). Reading and writing texts is the business of
`CueFlow.Toml.Reader` and `CueFlow.Toml.Printer`.

The rules about repetition all come down to how a table came about. A table may be opened once by a
header; a header may still open what another header only implied. Keys with dots extend tables that
arose from such keys, and no others. A table written in braces is closed for good.
-/

namespace CueFlow

/-- How a table came about. -/
inductive TableOrigin where
  /-- It is the document itself, or was opened by a header. -/
  | opened
  /-- It was named on the way to a table that a header opened. -/
  | implied
  /-- It was named on the way to a key with dots. -/
  | dotted
  /-- It was written in braces. -/
  | closed
deriving DecidableEq, Repr

/-- A TOML value. Entries of a table keep the order of the document. -/
inductive Toml where
  | integer (n : Int)
  | float (x : Float)
  | bool (flag : Bool)
  | text (s : String)
  /-- A date, a time or both, as written. -/
  | moment (s : String)
  | array (items : List Toml)
  | table (origin : TableOrigin) (entries : List (String × Toml))
  /-- A table that is opened again and again; each time it starts anew. -/
  | tables (elements : List (List (String × Toml)))
deriving Inhabited

namespace Toml

/-- Integers are signed and have 64 bits: they lie below this limit, two to the power of 63, and not
below its opposite. -/
def integerLimit : Int := 0x8000000000000000

/-- The entries of a table. -/
abbrev Entries := List (String × Toml)

/-- A line of a document. A key with dots is the path to a table followed by a key in it. -/
inductive Line where
  | assign (path : List String) (key : String) (value : Toml)
  /-- A header that opens a table. -/
  | header (path : List String) (key : String)
  /-- A header that opens one more table of a row. -/
  | rowHeader (path : List String) (key : String)

/-- The entries with another value under a key that is there. -/
def replace (entries : Entries) (key : String) (value : Toml) : Entries :=
  entries.map fun entry ↦ if entry.1 == key then (key, value) else entry

/-- Whether a path may lead on through a table of this origin: headers pass through all tables that
are not closed, keys with dots only through those that no header opened. -/
def passes (viaDots : Bool) : TableOrigin → Bool
  | .opened => !viaDots
  | .implied | .dotted => true
  | .closed => false

/-- Change the table that a path leads to. Tables that are missing on the way are made, and a row of
tables is entered at its last one. -/
def editAt (viaDots : Bool) (edit : TableOrigin → Entries → Option Entries) (origin : TableOrigin)
    (entries : Entries) : List String → Option Entries
  | [] => edit origin entries
  | key :: path =>
    match entries.lookup key with
    | none => do
      let made := if viaDots then .dotted else .implied
      return entries ++ [(key, .table made (← editAt viaDots edit made [] path))]
    | some (.table inner below) =>
      if passes viaDots inner then do
        return replace entries key (.table inner (← editAt viaDots edit inner below path))
      else none
    | some (.tables elements) =>
      match elements.reverse with
      | [] => none
      | last :: before => do
        let last ← editAt viaDots edit .opened last path
        return replace entries key (.tables (before.reverse ++ [last]))
    | some _ => none

/-- Put a value under a new key at the end of a path. The path may only end in a table that arose
from keys with dots, unless it is empty. -/
def assign (path : List String) (key : String) (value : Toml) (origin : TableOrigin)
    (entries : Entries) : Option Entries :=
  editAt true
    (fun ending entries ↦
      if (ending == .dotted) == path.isEmpty then none
      else if (entries.lookup key).isSome then none
      else some (entries ++ [(key, value)]))
    origin entries path

/-- Open a table: a new one, or one that was only implied so far, which then moves behind the
others. -/
def openTable (key : String) (entries : Entries) : Option Entries :=
  match entries.lookup key with
  | none => some (entries ++ [(key, .table .opened [])])
  | some (.table .implied below) =>
    some (entries.filter (fun entry ↦ entry.1 != key) ++ [(key, .table .opened below)])
  | some _ => none

/-- Open one more table of a row. -/
def openNext (key : String) (entries : Entries) : Option Entries :=
  match entries.lookup key with
  | none => some (entries ++ [(key, .tables [[]])])
  | some (.tables elements) => some (replace entries key (.tables (elements ++ [[]])))
  | some _ => none

/-- A document under way: its entries, and the path to the table that was opened last. -/
structure Draft where
  entries : Entries := []
  here : List String := []

/-- Take in one line. -/
def Draft.add (d : Draft) : Line → Option Draft
  | .assign path key value => do
    return { d with entries := ← editAt false (assign path key value) .opened d.entries d.here }
  | .header path key => do
    let entries ← editAt false (fun _ ↦ openTable key) .opened d.entries path
    return ⟨entries, path ++ [key]⟩
  | .rowHeader path key => do
    let entries ← editAt false (fun _ ↦ openNext key) .opened d.entries path
    return ⟨entries, path ++ [key]⟩

/-- The entries of the document with these lines. -/
def ofLines? (lines : List Line) : Option Entries :=
  (lines.foldlM Draft.add {}).map Draft.entries

/-- The table in braces with these assignments. -/
def ofPairs? (pairs : List (List String × String × Toml)) : Option Toml :=
  (pairs.foldlM (fun entries pair ↦ assign pair.1 pair.2.1 pair.2.2 .closed entries) []).map
    (.table .closed)

end Toml

end CueFlow
