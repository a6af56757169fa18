import CueFlow.Digraph
/-!
# Strongly connected components

`Digraph.components` groups the nodes of a digraph by mutual reachability. A depth-first search
numbers the nodes as it meets them and keeps those whose group is still open on a stack. Each visit
reports the least number on the stack that it can get back to; a node that gets back no further than
to itself closes its group, which is everything above it on the stack.

Groups are closed in such an order that no edge leads from an earlier group to a later one.
-/

namespace CueFlow.Digraph

/-- How far a search has come. -/
structure Search where
  /-- The nodes met so far with their numbers, latest first. -/
  numbers : List (Nat × Nat) := []
  /-- The nodes whose group is open, latest first. -/
  stack : List Nat := []
  /-- The closed groups, latest first. -/
  closed : List (List Nat) := []

namespace Search

variable (s : Search)

/-- The number of a node that has been met. -/
def number? (v : Nat) : Option Nat := s.numbers.lookup v

/-- Meet a node: number it and open its group. -/
def enter (v : Nat) : Search :=
  { s with numbers := (v, s.numbers.length) :: s.numbers, stack := v :: s.stack }

/-- Close the group of `v`: the stack down to `v`. -/
def close (v : Nat) : Search :=
  { s with
    stack := (s.stack.dropWhile (· != v)).drop 1
    closed := (s.stack.takeWhile (· != v) ++ [v]) :: s.closed }

end Search

variable (g : Digraph)

/-- Visit a node that has not been met, and report the least number that it gets back to. The fuel
bounds how deep visits nest. -/
def visit (fuel : Nat) (s : Search) (v : Nat) : Search × Nat :=
  match fuel with
  | 0 => (s, 0)
  | fuel + 1 =>
    let number := s.numbers.length
    let (searched, low) := (g.successors v).foldl
      (fun (acc : Search × Nat) w ↦
        match acc.1.number? w with
        | none =>
          let (searched, low) := visit fuel acc.1 w
          (searched, min acc.2 low)
        | some n => if acc.1.stack.contains w then (acc.1, min acc.2 n) else acc)
      (s.enter v, number)
    (if low = number then searched.close v else searched, low)

/-- Visit a node unless it has been met. A visit nests no deeper than there are nodes. -/
def visitNew (s : Search) (v : Nat) : Search :=
  match s.number? v with
  | some _ => s
  | none => (g.visit g.size s v).1

/-- The groups of mutually reachable nodes, in the order in which they are closed. -/
def components : List (List Nat) :=
  ((List.range g.size).foldl g.visitNew {}).closed.reverse

end CueFlow.Digraph
