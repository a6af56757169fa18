/-!
# Files in a folder

The files that a program is given lie in one folder and are named by paths that lead from there.
`Folder.read` follows a path step by step. Nothing is known of what lies outside of the folder but
that there are folders above it.
-/

namespace CueFlow

/-- Why a file cannot be read. -/
inductive ReadFault where
  /-- A name on the path does not exist. -/
  | missing
  | denied
  /-- The path leads to a folder. -/
  | isFolder
  /-- The path goes on after a file. -/
  | notFolder
  | nameTooLong
deriving DecidableEq, Repr

/-- The text of a fault, with the number that systems give it. -/
def ReadFault.message : ReadFault → String
  | missing => "No such file or directory (os error 2)"
  | denied => "Permission denied (os error 13)"
  | notFolder => "Not a directory (os error 20)"
  | isFolder => "Is a directory (os error 21)"
  | nameTooLong => "File name too long (os error 36)"

/-- A folder: the text of each file by its name. -/
abbrev Folder := List (String × String)

namespace Folder

/-- Where a path has led so far. -/
inductive Place where
  /-- To the folder. -/
  | home
  /-- To some folder that the folder does not hold. -/
  | away
  | file (text : String)

/-- The most bytes that a name may have. -/
def longestName : Nat := 255

/-- The most bytes that a path may have. -/
def longestPath : Nat := 4095

/-- What a name that does not exist leads to. -/
def strayName (name : String) : ReadFault :=
  if name.utf8ByteSize ≤ longestName then .missing else .nameTooLong

/-- Follow one name. An empty name, as between two slashes, and a single dot lead nowhere else, but
do so in folders only. -/
def step (folder : Folder) (here : Place) (name : String) : Except ReadFault Place :=
  match here, name with
  | .file _, _ => .error .notFolder
  | here, "" | here, "." => .ok here
  | _, ".." => .ok .away
  | .home, name =>
    match folder.lookup name with
    | some text => .ok (.file text)
    | none => .error (strayName name)
  | .away, name => .error (strayName name)

/-- The text of the file that a path leads to. -/
def read (folder : Folder) (path : String) : Except ReadFault String :=
  if longestPath < path.utf8ByteSize then .error .nameTooLong
  else do
    let start : Place := if path.startsWith "/" then .away else .home
    match ← (path.splitOn "/").foldlM folder.step start with
    | .file text => return text
    | .home | .away => throw .isFolder

end Folder

end CueFlow
