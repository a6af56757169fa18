import CueFlow.Value
/-!
# Ports

Every node type declares its ports. Their types decide which connections are allowed, and the kind
of an input decides whether a connection into it takes part in the order of computation.
-/

namespace CueFlow

/-- The semantic type of the data on a port. -/
inductive PortType where
  | number
  | boolean
  | string
  | color
  | audio
  | image
  | video
  | asset
  | scene
  | effect
  | client
  | command
  | any
deriving DecidableEq, Repr

namespace PortType

/-- All port types. -/
def all : List PortType :=
  [number, boolean, string, color, audio, image, video, asset, scene, effect, client, command, any]

/-- The name used in schemas. -/
def name : PortType → String
  | number => "number"
  | boolean => "boolean"
  | string => "string"
  | color => "color"
  | audio => "audio"
  | image => "image"
  | video => "video"
  | asset => "asset"
  | scene => "scene"
  | effect => "effect"
  | client => "client"
  | command => "command"
  | any => "any"

/-- The name used in messages. -/
def title : PortType → String
  | number => "Number"
  | boolean => "Boolean"
  | string => "String"
  | color => "Color"
  | audio => "Audio"
  | image => "Image"
  | video => "Video"
  | asset => "Asset"
  | scene => "Scene"
  | effect => "Effect"
  | client => "Client"
  | command => "Command"
  | any => "Any"

/-- The type with this schema name. -/
def ofName? (s : String) : Option PortType := all.find? fun ty ↦ ty.name == s

/-- Media types, which connect to their own type only. -/
def isSpecialized : PortType → Bool
  | audio | image | video | asset => true
  | _ => false

/-- Types that carry routing by the manager rather than data. -/
def isRouting : PortType → Bool
  | client | command => true
  | _ => false

/-- Whether an output of the first type may feed an input of the second. `any` goes with every type
that is not specialized; specialized types go with themselves. -/
def compatible (source target : PortType) : Bool :=
  source == target ||
    (!source.isSpecialized && !target.isSpecialized && (source == any || target == any))

end PortType

/-- Whether an input takes part in value propagation or in the delivery of side effects. -/
inductive PortKind where
  /-- An ordinary dependency, computed before its consumer. -/
  | compute
  /-- A point of delivery, gathered once all computation of a tick is done. -/
  | sink
deriving DecidableEq, Repr

namespace PortKind

/-- The name used in schemas. -/
def name : PortKind → String
  | compute => "compute"
  | sink => "sink"

/-- The kind with this schema name. -/
def ofName? (s : String) : Option PortKind := [compute, sink].find? fun kind ↦ kind.name == s

end PortKind

/-- One declared port of a node type. -/
structure Port where
  id : String
  type : PortType
  kind : PortKind := .compute
  /-- What an input holds when nothing is connected to it and nothing has been stored. -/
  default : Value := .null
deriving BEq

/-- Whether this is a point of delivery. -/
def Port.isSink (p : Port) : Bool := p.kind == .sink

/-- One declared config entry of a node type. -/
structure ConfigField where
  key : String
  type : PortType
  default : Value := .null
deriving BEq

end CueFlow
