import CueFlow.Digraph
/-!
# Scheduling the nodes of a digraph

`Digraph.schedule` lists nodes so that every edge between listed nodes leads forward. A node is
ready once all edges into it have been settled; ready nodes are taken first come, first served,
beginning with the nodes that have no edge into them, in increasing order. So the schedule depends
on the graph alone. What lies on a cycle, or behind one, is never ready and stays unscheduled.
-/

namespace CueFlow.Digraph

/-- The nodes that are ready and, for each node, how many edges into it are not settled yet. -/
structure Pending where
  ready : List Nat
  unsettled : List Nat

namespace Pending

/-- Settle one edge into `w`; with the last one `w` becomes ready. -/
def settle (p : Pending) (w : Nat) : Pending :=
  let unsettled := p.unsettled.modify w (· - 1)
  ⟨if unsettled[w]? = some 0 then p.ready ++ [w] else p.ready, unsettled⟩

end Pending

variable (g : Digraph)

/-- No edge is settled, and the nodes without an edge into them are ready. -/
def pending : Pending :=
  ⟨(List.range g.size).filter fun v ↦ g.inDegree v == 0, (List.range g.size).map g.inDegree⟩

/-- Take ready nodes as long as there are any, at most `fuel` of them. -/
def scheduleFrom (fuel : Nat) (p : Pending) : List Nat :=
  match fuel, p.ready with
  | 0, _ => []
  | _, [] => []
  | fuel + 1, v :: ready =>
    v :: scheduleFrom fuel ((g.successors v).foldl Pending.settle ⟨ready, p.unsettled⟩)

/-- The nodes that become ready, in the order in which they do. No node becomes ready twice, so the
number of nodes is fuel enough. -/
def schedule : List Nat := g.scheduleFrom g.size g.pending

/-- The nodes that never become ready, in increasing order. -/
def unscheduled : List Nat :=
  let scheduled := g.schedule
  (List.range g.size).filter fun v ↦ !scheduled.contains v

end CueFlow.Digraph
