import CueFlow.Character
import CueFlow.Document.Schema
import CueFlow.Folder
/-!
# Schema files

The schemas of all node types of a stage are kept in one file, from which a catalog of inert
definitions is made. A failure to do so says what was wrong and, in ever wider circles, what was
being done when it went wrong.
-/

namespace CueFlow

/-- What can be wrong with a file. -/
inductive FileFault where
  | unreadable (fault : ReadFault)
  /-- Its text is not of the expected form. -/
  | malformed
deriving DecidableEq, Repr

/-- The text of a fault. -/
def FileFault.message : FileFault → String
  | unreadable fault => "IO error: " ++ fault.message
  | malformed => "Serialization error"

/-- A fault together with what was being done, in the widest sense first. -/
structure FileFailure where
  contexts : List String
  fault : FileFault
deriving DecidableEq, Repr

namespace FileFailure

/-- The same failure in the course of doing something more. -/
def within (f : FileFailure) (context : String) : FileFailure :=
  { f with contexts := context :: f.contexts }

/-- The text of a failure, widest context first. -/
def message (f : FileFailure) : String := ": ".intercalate (f.contexts ++ [f.fault.message])

end FileFailure

/-- The characters that stand for one character of a path in a message: a backslash marks those that
would end the quotation or could not be seen. -/
def escapeInPath (c : Char) : List Char :=
  match c with
  | '"' => ['\\', '"']
  | '\\' => ['\\', '\\']
  | '\t' => ['\\', 't']
  | '\n' => ['\\', 'n']
  | '\r' => ['\\', 'r']
  | '\x00' => ['\\', '0']
  | c =>
    if Glyph.isSeen c then [c]
    else ['\\', 'u', '\x7b'] ++ Nat.toDigits 16 c.toNat ++ ['\x7d']

/-- A path as it stands in a message, in quotes. -/
def quotedPath (path : String) : String :=
  String.ofList ('"' :: (path.toList.flatMap escapeInPath ++ ['"']))

/-- The catalog that the schemas in a file make, given the path of the file and its text, if it can
be read. -/
def Catalog.ofSchemaFile (path : String) (file : Except ReadFault String) :
    Except FileFailure Catalog :=
  match file with
  | .error fault => .error ⟨["Failed to read schema file " ++ quotedPath path], .unreadable fault⟩
  | .ok text =>
    match NodeSchema.ofText? text with
    | none => .error ⟨["Failed to parse schema file " ++ quotedPath path], .malformed⟩
    | some schemas => .ok (.ofSchemas schemas)

end CueFlow
