import CueFlow.Graph.Load
import CueFlow.Json.Decode
import CueFlow.Json.Printer
import CueFlow.Partition.Patch
import CueFlow.Plan
/-!
# Parts of a graph in documents

The form in which local loops are listed and handed back for export. The capabilities are a set: on
reading they are put in order, each once. A loaded graph is reported on as a whole: in which order
it is computed, what its load left out, its local loops, and the patch of every output.
-/

namespace CueFlow

/-! ### Local loops -/

namespace LocalLoop

/-- The fields of a loop, in order. -/
def fields : List String := ["id", "deviceNodeId", "nodeIds", "capabilities"]

/-- The loop that a document stands for. -/
def decode : Json.Decoder LocalLoop := fun depth j ↦ do
  let f ← Json.asRecord fields depth j
  let id ← f.required "id" Json.asText
  let device ← f.required "deviceNodeId" Json.asText
  let nodes ← f.required "nodeIds" (Json.asList Json.asText)
  let capabilities ← f.required "capabilities" (Json.asList Json.asText)
  return { id, device, nodes, capabilities := distinctTexts capabilities }

/-- A loop as a document. -/
def toJson (l : LocalLoop) : Json :=
  .record [("id", .text l.id), ("deviceNodeId", .text l.device), ("nodeIds", .texts l.nodes),
    ("capabilities", .texts l.capabilities)]

end LocalLoop

/-! ### Reports -/

/-- The report on one output: its patch, or why there is none. -/
def reportPatch (s : GraphState) (catalog : Catalog) (policy : PartitionPolicy) (root : NodeId) :
    Json :=
  match exportPatch s catalog [root] policy with
  | .ok patch => .record [("assetRefs", .texts patch.assetRefs), ("id", .text patch.id),
      ("nodes", .nat patch.graph.nodes.length), ("root", .text root)]
  | .error e => .record [("error", .text e.message), ("root", .text root)]

/-- The report on a loaded graph. -/
def reportGraph (catalog : Catalog) (s : GraphState) (report : LoadReport) (plan : Plan) : Json :=
  let policy := PartitionPolicy.standard
  .record [("droppedConnections", .texts report.droppedConnections),
    ("localLoops", .array ((detectLocalLoops s policy).map LocalLoop.toJson)),
    ("order", .texts plan.order),
    ("patches", .array ((patchRoots s policy).map (reportPatch s catalog policy))),
    ("skippedNodes", .texts report.skippedNodes)]

end CueFlow
