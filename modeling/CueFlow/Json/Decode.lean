import CueFlow.Json
/-!
# Taking documents apart

How the parts of a domain type are found in a document. A record is written as an object, or as an
array of its fields in the order of their declaration; a choice is written as its name. Decoding is
strict where it looks and blind where it does not: a field that is not asked for may hold anything.

Containers nest no deeper than `depthLimit` levels; every decoder is told how many levels are left
for it, and takes one for itself when it opens a container.
-/

namespace CueFlow.Json

/-- How many levels of containers a document may nest, along the parts that are decoded. -/
def depthLimit : Nat := 127

/-- A decoder of `α`, given the number of levels left. -/
abbrev Decoder (α : Type) := Nat → Json → Option α

/-- A string that spells a text. -/
def asText : Decoder String := fun _ j ↦
  match j with
  | string s => s
  | _ => none

/-- A natural number below `2 ^ 64`, written in digits. -/
def asNat : Decoder Nat := fun _ j ↦
  match j with
  | number n => n.toNat?
  | _ => none

/-- Any number. -/
def asFloat : Decoder Float := fun _ j ↦
  match j with
  | number n => n.toFloat?
  | _ => none

/-- An array of anything that `item` decodes. -/
def asList {α : Type} (item : Decoder α) : Decoder (List α) := fun depth j ↦
  match depth, j with
  | depth + 1, array items => items.mapM (item depth)
  | _, _ => none

/-- One of the choices that `named` knows: its name, or an object that maps the name to null. -/
def asChoice {α : Type} (named : String → Option α) : Decoder α := fun depth j ↦
  match depth, j with
  | _, string s => s.bind named
  | _ + 1, object [(some name, null)] => named name
  | _, _ => none

/-! ### Records -/

/-- The fields of a record by name, with the levels left for them. -/
structure Fields where
  depth : Nat
  lookup : String → Option Json

/-- Whether an object may stand for a record with these fields: every key spells a text, and no
field occurs twice. -/
def fitsRecord (names : List String) (members : List (Option String × Json)) : Bool :=
  members.all (fun m ↦ m.1.isSome) &&
    names.all fun name ↦ members.countP (fun m ↦ m.1 == some name) ≤ 1

/-- The fields of a record with these names, in the order of declaration. -/
def asRecord (names : List String) : Decoder Fields := fun depth j ↦
  match depth, j with
  | depth + 1, object members =>
    if fitsRecord names members then
      some ⟨depth, fun name ↦ if names.contains name then members.lookup (some name) else none⟩
    else none
  | depth + 1, array items =>
    if items.length ≤ names.length then some ⟨depth, fun name ↦ (names.zip items).lookup name⟩
    else none
  | _, _ => none

namespace Fields

variable {α : Type} (f : Fields)

/-- A field that has to be there. -/
def required (name : String) (decode : Decoder α) : Option α :=
  (f.lookup name).bind (decode f.depth)

/-- A field that may be left out. -/
def optional (name : String) (fallback : α) (decode : Decoder α) : Option α :=
  match f.lookup name with
  | some j => decode f.depth j
  | none => some fallback

end Fields

end CueFlow.Json
