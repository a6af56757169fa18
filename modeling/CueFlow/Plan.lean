import CueFlow.Digraph.Schedule
import CueFlow.Graph
/-!
# Execution plans

A plan lists every node of a graph in an order in which compute dependencies come first, with the
sources of its inputs resolved to places in the graph. Only connections into compute inputs
constrain the order. Connections into points of delivery are routed and otherwise ignored, so that
feedback through a device is allowed while a cycle of computation is refused.
-/

namespace CueFlow

/-- Where one compute input reads its connected value. -/
structure InputRoute where
  port : String
  /-- The place of the source node in the graph. -/
  source : Nat
  sourcePort : String
deriving DecidableEq, Repr

/-- All producers of one point of delivery, in the order of their connections. -/
structure SinkRoute where
  port : String
  /-- Places of source nodes with the ports read there. -/
  sources : List (Nat × String)
deriving DecidableEq, Repr

/-- One node of a plan. -/
structure PlanStep where
  /-- The place of the node in the graph. -/
  index : Nat
  node : NodeId
  definition : NodeDefinition
  /-- The connected compute inputs. -/
  computeRoutes : List InputRoute
  /-- Every point of delivery of the definition, connected or not. -/
  sinkRoutes : List SinkRoute

namespace PlanStep

variable (s : PlanStep)

/-- Where a compute input reads its connected value. -/
def computeRoute? (port : String) : Option InputRoute :=
  s.computeRoutes.find? fun r ↦ r.port == port

/-- How many connections lead into the points of delivery. -/
def sinkConnectionCount : Nat := (s.sinkRoutes.flatMap SinkRoute.sources).length

end PlanStep

/-- Figures about a plan. -/
structure PlanStats where
  totalNodes : Nat
  /-- Connections into compute inputs. -/
  computeEdges : Nat
  /-- Connections into points of delivery. -/
  sinkEdges : Nat
  /-- Nodes with a point of delivery. -/
  sinkNodes : Nat
deriving DecidableEq, Repr

/-- A compiled plan. -/
structure Plan where
  steps : List PlanStep
  /-- The generation of the graph it was compiled from. -/
  generation : Nat
  stats : PlanStats

/-- The node ids in the order of execution. -/
def Plan.order (p : Plan) : List NodeId := p.steps.map PlanStep.node

namespace Graph

variable (g : Graph)

/-- The places of both ends of a connection. -/
def endpoints? (c : Connection) : Option (Nat × Nat) :=
  match g.indexOf? c.source, g.indexOf? c.target with
  | some source, some target => some (source, target)
  | _, _ => none

/-- The connections whose ends exist and that lead into an input of the given kind. -/
def connectionsInto (kind : PortKind) : List Connection :=
  g.connections.filter fun c ↦
    (g.endpoints? c).isSome && (g.targetPort? c).any fun p ↦ p.kind == kind

/-- The dependencies of computation: an edge for every connection into a compute input. -/
def dependencies : Digraph where
  size := g.nodes.length
  edges := (g.connectionsInto .compute).filterMap g.endpoints?

/-- The route of a connection into a compute input of a node with this definition. -/
def computeRoute? (d : NodeDefinition) (c : Connection) : Option InputRoute :=
  match g.indexOf? c.source, d.input? c.targetPort with
  | some source, some port =>
    if port.isSink then none else some ⟨c.targetPort, source, c.sourcePort⟩
  | _, _ => none

/-- The producers of a point of delivery, given the connections into its node. -/
def sinkSources (d : NodeDefinition) (incoming : List Connection) (port : String) :
    List (Nat × String) :=
  incoming.filterMap fun c ↦
    if c.targetPort == port && (d.input? c.targetPort).any Port.isSink then
      (g.indexOf? c.source).map fun source ↦ (source, c.sourcePort)
    else none

/-- The routes of points of delivery, in order. Should a definition repeat an id, the first port of
that id takes all the connections. -/
def sinkRoutes (d : NodeDefinition) (incoming : List Connection) (seen : List String) :
    List Port → List SinkRoute
  | [] => []
  | p :: rest =>
    ⟨p.id, if p.id ∈ seen then [] else g.sinkSources d incoming p.id⟩ ::
      sinkRoutes d incoming (p.id :: seen) rest

/-- The step of the node at a place of the graph. -/
def planStep (index : Nat) (n : Node) (d : NodeDefinition) : PlanStep :=
  let incoming := g.connections.filter fun c ↦ c.target == n.id
  { index
    node := n.id
    definition := d
    computeRoutes := incoming.filterMap (g.computeRoute? d)
    sinkRoutes := g.sinkRoutes d incoming [] d.sinkInputs }

/-- The steps of the nodes at these places. -/
def planSteps (order : List Nat) : Except EngineError (List PlanStep) :=
  (order.filterMap fun index ↦ (g.nodes[index]?).map fun n ↦ (index, n)).mapM fun entry ↦
    match g.catalog.get? entry.2.type with
    | some d => .ok (g.planStep entry.1 entry.2 d)
    | none => .error (.unknownNodeType entry.2.id entry.2.type)

/-- The figures of the plan of this graph. -/
def planStats : PlanStats where
  totalNodes := g.nodes.length
  computeEdges := (g.connectionsInto .compute).length
  sinkEdges := (g.connectionsInto .sink).length
  sinkNodes := g.nodes.countP fun n ↦ (g.catalog.get? n.type).any NodeDefinition.hasSinkInputs

/-- Compile a graph. Refused if some nodes cannot be ordered, and then it names them. -/
def compile : Except EngineError Plan :=
  match g.dependencies.unscheduled with
  | [] => do
    let steps ← g.planSteps g.dependencies.schedule
    return ⟨steps, g.generation, g.planStats⟩
  | stuck => .error (.cycle (stuck.filterMap fun index ↦ (g.nodes[index]?).map Node.id))

end Graph

end CueFlow
