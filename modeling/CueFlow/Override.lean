import CueFlow.Node
/-!
# Overrides of inputs and config

A host may override an input or a config entry of a node for a while. Overrides are kept beside the
graph and never written into it, so once one expires or is cleared the graph's own value is back on
the next tick.

The store has two levels, by node and then by side and key, and drops a node as soon as its last
override is gone. Times may be of any type with a difference and an order: `expire` compares
`now - updatedAt` with the lifetime and uses nothing else.
-/

namespace CueFlow

/-- The side of a node that an override replaces. -/
inductive OverrideKind where
  | input
  | config
deriving DecidableEq, Repr

namespace OverrideKind

/-- The name used by hosts. -/
def name : OverrideKind → String
  | input => "input"
  | config => "config"

/-- The kind with this name. -/
def ofName? (s : String) : Option OverrideKind := [input, config].find? fun kind ↦ kind.name == s

end OverrideKind

/-- One override. -/
structure Override (τ : Type) where
  value : Value
  /-- Host time at which the override was set or refreshed. -/
  updatedAt : τ
  /-- How long it lasts; without a lifetime it lasts until cleared. -/
  lifetime : Option τ

/-- Whether the lifetime has elapsed. -/
def Override.isExpired {τ : Type} [Sub τ] [LE τ] [DecidableLE τ] (o : Override τ) (now : τ) :
    Bool :=
  match o.lifetime with
  | some lifetime => decide (lifetime ≤ now - o.updatedAt)
  | none => false

/-- The overrides of one node. -/
structure NodeOverrides (τ : Type) where
  inputs : KeyMap (Override τ) := []
  config : KeyMap (Override τ) := []

namespace NodeOverrides

variable {τ : Type}

/-- The overrides of one side. -/
def side (o : NodeOverrides τ) : OverrideKind → KeyMap (Override τ)
  | .input => o.inputs
  | .config => o.config

/-- Change the overrides of one side. -/
def modifySide (o : NodeOverrides τ) (kind : OverrideKind)
    (f : KeyMap (Override τ) → KeyMap (Override τ)) : NodeOverrides τ :=
  match kind with
  | .input => { o with inputs := f o.inputs }
  | .config => { o with config := f o.config }

def isEmpty (o : NodeOverrides τ) : Bool := o.inputs.isEmpty && o.config.isEmpty

def size (o : NodeOverrides τ) : Nat := o.inputs.length + o.config.length

/-- Only the overrides that satisfy `keep`. -/
def filter (o : NodeOverrides τ) (keep : Override τ → Bool) : NodeOverrides τ :=
  ⟨o.inputs.filter fun entry ↦ keep entry.2, o.config.filter fun entry ↦ keep entry.2⟩

/-- The number of overrides that do not satisfy `keep`: by how much each side is longer than what is
kept of it. -/
def dropped (o : NodeOverrides τ) (keep : Override τ → Bool) : Nat :=
  (o.inputs.length - (o.filter keep).inputs.length) +
    (o.config.length - (o.filter keep).config.length)

end NodeOverrides

/-- All active overrides, by node, side and key. -/
structure OverrideStore (τ : Type) where
  nodes : KeyMap (NodeOverrides τ) := []

namespace OverrideStore

variable {τ : Type} (s : OverrideStore τ)

/-- No overrides. -/
def empty : OverrideStore τ := {}

/-- Create or refresh an override. -/
def set (node : NodeId) (kind : OverrideKind) (key : String) (value : Value) (lifetime : Option τ)
    (now : τ) : OverrideStore τ :=
  ⟨s.nodes.update node {} fun o ↦ o.modifySide kind (·.insert key ⟨value, now, lifetime⟩)⟩

/-- The override of this key. -/
def get? (node : NodeId) (kind : OverrideKind) (key : String) : Option (Override τ) :=
  (s.nodes.get? node).bind fun o ↦ (o.side kind).get? key

/-- Remove one override. -/
def clear (node : NodeId) (kind : OverrideKind) (key : String) : OverrideStore τ :=
  match s.nodes.get? node with
  | none => s
  | some o =>
    let rest := o.modifySide kind (·.erase key)
    if rest.isEmpty then ⟨s.nodes.erase node⟩ else ⟨s.nodes.insert node rest⟩

/-- Remove every override of a node. -/
def clearNode (node : NodeId) : OverrideStore τ := ⟨s.nodes.erase node⟩

/-- The number of overrides. -/
def size : Nat := (s.nodes.values.map NodeOverrides.size).foldr (· + ·) 0

/-- Whether no node has overrides. -/
def isEmpty : Bool := s.nodes.isEmpty

/-- The overriding value of an input. -/
def input? (node : NodeId) (port : String) : Option Value :=
  (s.get? node .input port).map Override.value

/-- A node's config with its config overrides laid on top. -/
def effectiveConfig (node : NodeId) (base : ValueMap) : ValueMap :=
  match s.nodes.get? node with
  | none => base
  | some o => base.overlay (o.config.map fun entry ↦ (entry.1, entry.2.value))

/-- Drop every override whose lifetime has elapsed. -/
def expire [Sub τ] [LE τ] [DecidableLE τ] (now : τ) : OverrideStore τ :=
  ⟨(s.nodes.map fun entry ↦ (entry.1, entry.2.filter fun o ↦ !o.isExpired now)).filter
    fun entry ↦ !entry.2.isEmpty⟩

/-- The number of overrides that `expire` drops, counted on each side of each node. -/
def expiredCount [Sub τ] [LE τ] [DecidableLE τ] (now : τ) : Nat :=
  (s.nodes.values.map fun o ↦ o.dropped fun override ↦ !override.isExpired now).foldr (· + ·) 0

end OverrideStore

end CueFlow
