import CueFlow.Decimal.Layout
import CueFlow.Toml
import CueFlow.Toml.Quoting
/-!
# Writing TOML texts

A document is written as the settings of its own table, one to a line, and then one section for each
table in it. An array of several items has one item to a line.
-/

namespace CueFlow.Toml

/-! ### Values -/

/-- Floats have a point and no exponent; a tie between two shortest decimals goes away from zero. -/
def floatLayout : Decimal.Layout := ⟨none, true, .awayFromZero⟩

/-- A float; the sign of what is not a number is not written. -/
def floatText (x : Float) : String :=
  if x.isNaN || x.isInf then (if x.isNaN then "nan" else Decimal.plainText x)
  else (floatLayout.write x).positionalText

/-- A key, in quotes unless letters, digits, underscores and dashes make it up. -/
def keyText (key : String) : String :=
  if !key.isEmpty && key.toList.all (fun c ↦ c.isAlphanum || c == '_' || c == '-') then key
  else quoted key

/-- The text of an array with these items. -/
def arrayText : List String → String
  | [] => "[]"
  | [item] => "[" ++ item ++ "]"
  | items => "[\n" ++ String.join (items.map fun item ↦ "    " ++ item ++ ",\n") ++ "]"

/-- The text of a table in braces with these assignments. -/
def bracedText : List String → String
  | [] => "\x7b\x7d"
  | assignments => "\x7b " ++ ", ".intercalate assignments ++ " \x7d"

mutual

/-- The text of a value. -/
def valueText : Toml → String
  | integer n => toString n
  | float x => floatText x
  | bool flag => if flag then "true" else "false"
  | text s => quoted s
  | moment s => s
  | array items => arrayText (itemTexts items)
  | table _ entries => bracedText (assignmentTexts entries)
  | tables elements => arrayText (elementTexts elements)
termination_by structural v => v

/-- The texts of the items of an array. -/
def itemTexts : List Toml → List String
  | [] => []
  | item :: rest => valueText item :: itemTexts rest
termination_by structural items => items

/-- The texts of the entries of a table. -/
def assignmentTexts : List (String × Toml) → List String
  | [] => []
  | entry :: rest => (keyText entry.1 ++ " = " ++ valueText entry.2) :: assignmentTexts rest
termination_by structural entries => entries

/-- The texts of a row of tables. -/
def elementTexts : List (List (String × Toml)) → List String
  | [] => []
  | entries :: rest => bracedText (assignmentTexts entries) :: elementTexts rest
termination_by structural elements => elements

end

/-! ### Documents -/

/-- The settings of a table, one to a line. -/
def settingsText (entries : Entries) : String :=
  String.join ((assignmentTexts entries).map (· ++ "\n"))

/-- Whether a value is written as a section of its own. -/
def isSection : Toml → Bool
  | table origin _ => origin != .closed
  | _ => false

/-- A section: an empty line, a header, and the settings of its table. -/
def sectionText (entry : String × Toml) : String :=
  match entry.2 with
  | table _ entries => "\n[" ++ keyText entry.1 ++ "]\n" ++ settingsText entries
  | _ => ""

/-- The text of a document. -/
def documentText (entries : Entries) : String :=
  settingsText (entries.filter fun entry ↦ !isSection entry.2) ++
    String.join ((entries.filter fun entry ↦ isSection entry.2).map sectionText)

end CueFlow.Toml
