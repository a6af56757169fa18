/-!
# Finite directed graphs

A `Digraph` has the nodes `0, …, size - 1` and a list of edges, in which an edge may repeat and may
lead from a node to itself. Two algorithms run on it: ordering the nodes so that edges lead forward
(`CueFlow.Digraph.Schedule`) and grouping the nodes that reach each other
(`CueFlow.Digraph.Component`). `Digraph.Reaches` and `Digraph.OnCycle` are the notions that both are
about.
-/

namespace CueFlow

/-- A directed graph on an initial segment of the naturals. -/
structure Digraph where
  size : Nat
  /-- Edges from first to second component. -/
  edges : List (Nat × Nat)

namespace Digraph

variable (g : Digraph)

/-- The ends of the edges out of `v`, in the order of the edges. -/
def successors (v : Nat) : List Nat := (g.edges.filter fun e ↦ e.1 == v).map Prod.snd

/-- The number of edges into `v`. -/
def inDegree (v : Nat) : Nat := g.edges.countP fun e ↦ e.2 == v

/-- A walk of any length leads from one node to the other, the empty walk included. -/
inductive Reaches : Nat → Nat → Prop
  | refl (v : Nat) : Reaches v v
  | step {u v w : Nat} : (u, v) ∈ g.edges → Reaches v w → Reaches u w

/-- A walk of at least one edge leads from the node back to itself. -/
def OnCycle (v : Nat) : Prop := ∃ w, (v, w) ∈ g.edges ∧ g.Reaches w v

theorem mem_successors {v w : Nat} : w ∈ g.successors v ↔ (v, w) ∈ g.edges := by
  simp [successors]

end Digraph

end CueFlow
