import CueFlow.Node
/-!
# The catalog of node types

A catalog holds one definition per node type, in the order in which the types were first registered.
-/

namespace CueFlow

/-- The registered node definitions. -/
structure Catalog where
  definitions : List NodeDefinition := []

namespace Catalog

/-- No node types. -/
def empty : Catalog := {}

/-- The definition of a type. -/
def get? (c : Catalog) (type : String) : Option NodeDefinition :=
  c.definitions.find? fun d ↦ d.type == type

/-- Whether a type is registered. -/
def contains (c : Catalog) (type : String) : Bool := (c.get? type).isSome

/-- Register a definition. A later definition of a type takes the place of the earlier one. -/
def register (c : Catalog) (d : NodeDefinition) : Catalog :=
  if c.contains d.type then
    ⟨c.definitions.map fun old ↦ if old.type == d.type then d else old⟩
  else ⟨c.definitions ++ [d]⟩

/-- The catalog of these definitions, registered in order. -/
def ofDefinitions (ds : List NodeDefinition) : Catalog := ds.foldl register empty

/-- The catalog of inert definitions with these ports. -/
def ofSchemas (schemas : List NodeSchema) : Catalog := ofDefinitions (schemas.map NodeSchema.inert)

/-- The registered types, in the order of their first registration. -/
def types (c : Catalog) : List String := c.definitions.map NodeDefinition.type

def size (c : Catalog) : Nat := c.definitions.length

def isEmpty (c : Catalog) : Bool := c.definitions.isEmpty

end Catalog

end CueFlow
