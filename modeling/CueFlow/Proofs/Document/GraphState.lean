import CueFlow.Document.GraphState
import CueFlow.Proofs.Document.Value
/-!
# Snapshots read back

What is written of a snapshot is read back as the same snapshot, with null in place of every number
that is not finite (`GraphState.ofText_toText`), provided that its maps are in order
(`GraphState.Ordered`) and its text nests no deeper than documents may. Nothing is asked of its
strings, ids and keys, nor of how its nodes and connections fit together.

The text of a snapshot is a document because the document is well formed
(`GraphState.wellFormed_toJson`), and the document is decoded record by record: all fields are
there, each under its own name (`Node.decode_toJson`, `Connection.decode_toJson`,
`GraphState.decode_toJson`).
-/

namespace CueFlow

/-! ### Maps of values -/

namespace ValueMap

/-- The map and all maps in its values are in order. -/
def Ordered (m : ValueMap) : Prop := KeyMap.Sorted m ∧ Value.OrderedEntries m

theorem decode_toJson {m : ValueMap} {depth : Nat} (hordered : Ordered m)
    (hnumbers : Value.AllFaithful (Value.numbersOfEntries m)) (hdepth : (toJson m).depth ≤ depth) :
    decode depth (toJson m) = some (Value.finiteEntries m) := by
  obtain ⟨depth, rfl⟩ : ∃ k, depth = k + 1 :=
    Nat.exists_eq_add_of_le' (Nat.le_of_add_left_le hdepth)
  have hentries := Value.decodeMembers_entriesToJson m hordered.2 hnumbers
    (Nat.le_of_succ_le_succ hdepth)
  show (Value.decodeMembers depth (Value.entriesToJson m)).map _ = _
  rw [hentries, Option.map_some, Value.ofEntries_finiteEntries hordered.1]

end ValueMap

/-! ### Nodes -/

namespace Node

/-- All maps of a node are in order, at any depth. -/
structure Ordered (n : Node) : Prop where
  config : ValueMap.Ordered n.config
  inputValues : ValueMap.Ordered n.inputValues
  outputValues : ValueMap.Ordered n.outputValues

/-- The numbers in the maps of a node. -/
def numbers (n : Node) : List Float :=
  Value.numbersOfEntries n.config ++ Value.numbersOfEntries n.inputValues ++
    Value.numbersOfEntries n.outputValues

/-- A node with null in place of every number that is not finite. -/
def finitePart (n : Node) : Node :=
  { n with
    config := Value.finiteEntries n.config
    inputValues := Value.finiteEntries n.inputValues
    outputValues := Value.finiteEntries n.outputValues }

/-- A node of finite numbers is its own finite part. -/
theorem finitePart_eq_self {n : Node} (h : ∀ x ∈ n.numbers, x.isFinite = true) :
    n.finitePart = n := by
  simp only [numbers, List.mem_append] at h
  rw [finitePart, Value.finiteEntries_eq_self _ fun x hx ↦ h x (.inl (.inl hx)),
    Value.finiteEntries_eq_self _ fun x hx ↦ h x (.inl (.inr hx)),
    Value.finiteEntries_eq_self _ fun x hx ↦ h x (.inr hx)]

theorem nodup_fields : fields.Nodup := by decide

theorem wellFormed_toJson (n : Node) : n.toJson.WellFormed := by
  refine Json.wellFormed_record ?_
  simp only [List.forall_mem_cons]
  exact ⟨rfl, rfl, Value.wellFormed_entriesToJson _, Value.wellFormed_entriesToJson _,
    Value.wellFormed_entriesToJson _, List.forall_mem_nil _⟩

/-- All fields of what is written of a node are there, each under its own name. -/
theorem decode_record (n : Node) (depth : Nat) : decode (depth + 1) n.toJson = (do
    let config ← ValueMap.decode depth n.config.toJson
    let inputValues ← ValueMap.decode depth n.inputValues.toJson
    let outputValues ← ValueMap.decode depth n.outputValues.toJson
    return { id := n.id, type := n.type, config, inputValues, outputValues }) := by
  have hfields : Json.asRecord fields (depth + 1) n.toJson = _ :=
    Json.asRecord_record nodup_fields rfl depth
  -- The names are literals, so every look-up comes out by computation.
  rw [decode, hfields]
  rfl

/-- **What is written of a node** is decoded as its finite part. -/
theorem decode_toJson {n : Node} {depth : Nat} (hordered : n.Ordered)
    (hnumbers : Value.AllFaithful n.numbers) (hdepth : n.toJson.depth ≤ depth) :
    decode depth n.toJson = some n.finitePart := by
  obtain ⟨depth, rfl⟩ : ∃ k, depth = k + 1 :=
    Nat.exists_eq_add_of_le' (Nat.le_of_add_left_le hdepth)
  have hlevels := Json.depth_record_le_iff.1 hdepth
  simp only [List.forall_mem_cons] at hlevels
  obtain ⟨-, -, hconfig, hinputs, houtputs, -⟩ := hlevels
  rw [decode_record, ValueMap.decode_toJson hordered.config hnumbers.left.left hconfig,
    ValueMap.decode_toJson hordered.inputValues hnumbers.left.right hinputs,
    ValueMap.decode_toJson hordered.outputValues hnumbers.right houtputs]
  rfl

end Node

/-! ### Connections -/

namespace Connection

theorem nodup_fields : fields.Nodup := by decide

theorem wellFormed_toJson (c : Connection) : c.toJson.WellFormed := by
  refine Json.wellFormed_record ?_
  simp only [List.forall_mem_cons]
  exact ⟨rfl, rfl, rfl, rfl, rfl, List.forall_mem_nil _⟩

/-- **What is written of a connection** is decoded as that connection. -/
theorem decode_toJson {c : Connection} {depth : Nat} (hdepth : c.toJson.depth ≤ depth) :
    decode depth c.toJson = some c := by
  obtain ⟨depth, rfl⟩ : ∃ k, depth = k + 1 :=
    Nat.exists_eq_add_of_le' (Nat.le_of_add_left_le hdepth)
  have hfields : Json.asRecord fields (depth + 1) c.toJson = _ :=
    Json.asRecord_record nodup_fields rfl depth
  rw [decode, hfields]
  rfl

end Connection

/-! ### Snapshots -/

namespace GraphState

/-- All maps in a snapshot are in order, at any depth. -/
def Ordered (s : GraphState) : Prop := ∀ n ∈ s.nodes, n.Ordered

/-- The numbers in a snapshot. -/
def numbers (s : GraphState) : List Float := s.nodes.flatMap Node.numbers

/-- A snapshot with null in place of every number that is not finite. -/
def finitePart (s : GraphState) : GraphState := { s with nodes := s.nodes.map Node.finitePart }

/-- A snapshot of finite numbers is its own finite part. -/
theorem finitePart_eq_self {s : GraphState} (h : ∀ x ∈ s.numbers, x.isFinite = true) :
    s.finitePart = s := by
  have hnodes : s.nodes.map Node.finitePart = s.nodes.map id :=
    List.map_congr_left fun n hn ↦
      Node.finitePart_eq_self fun x hx ↦ h x (List.mem_flatMap.2 ⟨n, hn, hx⟩)
  rw [finitePart, hnodes, List.map_id]

theorem nodup_fields : fields.Nodup := by decide

theorem wellFormed_toJson (s : GraphState) : s.toJson.WellFormed := by
  refine Json.wellFormed_record ?_
  simp only [List.forall_mem_cons]
  refine ⟨Numeral.wellFormed_ofNat _, Json.wellFormed_array ?_, Json.wellFormed_array ?_,
    List.forall_mem_nil _⟩
  · exact List.forall_mem_map.2 fun n _ ↦ n.wellFormed_toJson
  · exact List.forall_mem_map.2 fun c _ ↦ c.wellFormed_toJson

/-- All fields of what is written of a snapshot are there, each under its own name. -/
theorem decode_record (s : GraphState) (depth : Nat) : decode (depth + 1) s.toJson = (do
    let version ← Json.asNat depth (.nat s.version.toNat)
    let nodes ← Json.asList Node.decode depth (.array (s.nodes.map Node.toJson))
    let connections ←
      Json.asList Connection.decode depth (.array (s.connections.map Connection.toJson))
    return { version := version.toUInt64, nodes, connections }) := by
  have hfields : Json.asRecord fields (depth + 1) s.toJson = _ :=
    Json.asRecord_record nodup_fields rfl depth
  rw [decode, hfields]
  rfl

/-- **What is written of a snapshot** is decoded as its finite part. -/
theorem decode_toJson {s : GraphState} {depth : Nat} (hordered : s.Ordered)
    (hnumbers : Value.AllFaithful s.numbers) (hdepth : s.toJson.depth ≤ depth) :
    decode depth s.toJson = some s.finitePart := by
  obtain ⟨depth, rfl⟩ : ∃ k, depth = k + 1 :=
    Nat.exists_eq_add_of_le' (Nat.le_of_add_left_le hdepth)
  have hlevels := Json.depth_record_le_iff.1 hdepth
  simp only [List.forall_mem_cons] at hlevels
  obtain ⟨-, hnodes, hconnections, -⟩ := hlevels
  obtain ⟨depth, rfl⟩ : ∃ k, depth = k + 1 :=
    Nat.exists_eq_add_of_le' (Nat.le_of_add_left_le hnodes)
  have hversion : Json.asNat (depth + 1) (.nat s.version.toNat) = some s.version.toNat :=
    Numeral.toNat?_ofNat s.version.toNat_lt
  have hnode : Json.asList Node.decode (depth + 1) (.array (s.nodes.map Node.toJson)) =
      some (s.nodes.map Node.finitePart) := by
    refine Json.asList_array fun n hn ↦ Node.decode_toJson (hordered n hn) ?_ ?_
    · exact fun x hx ↦ hnumbers x (List.mem_flatMap.2 ⟨n, hn, hx⟩)
    · exact Json.depth_array_le_iff.1 hnodes _ (List.mem_map_of_mem hn)
  have hconnection : Json.asList Connection.decode (depth + 1)
      (.array (s.connections.map Connection.toJson)) = some (s.connections.map id) := by
    refine Json.asList_array fun c hc ↦ Connection.decode_toJson ?_
    exact Json.depth_array_le_iff.1 hconnections _ (List.mem_map_of_mem hc)
  rw [decode_record, hversion, hnode, hconnection, List.map_id]
  show some (GraphState.mk s.version.toNat.toUInt64 _ _) = _
  rw [Nat.toUInt64, UInt64.ofNat_toNat]
  rfl

/-- **The text of a snapshot reads back** as the same snapshot if all of its numbers are finite, and
in any case with null in place of exactly those that are not. -/
theorem ofText_toText (s : GraphState) (hordered : s.Ordered)
    (hdepth : s.toJson.depth ≤ Json.depthLimit)
    (hnumbers : ∀ x ∈ s.numbers, x.isFinite = true → Numeral.IsFaithful x) :
    ((∀ x ∈ s.numbers, x.isFinite = true) → ofText s.toText = .ok s) ∧
      ofText s.toText = .ok s.finitePart := by
  have hread : ofText s.toText = .ok s.finitePart := by
    rw [ofText, toText, Json.parse?_indented s.wellFormed_toJson, Option.bind_some,
      decode_toJson hordered hnumbers hdepth]
  exact ⟨fun hfinite ↦ by rw [hread, finitePart_eq_self hfinite], hread⟩

/-- A show in which much is hard to write: quotes, control characters, no characters at all, a zero
with a sign, and the largest version. -/
def storedShow (level : Value) : GraphState where
  version := 18446744073709551615
  nodes := [
    { id := "lamp \"1\"", type := "lâmpada\n\x00",
      config := [("", .list []), ("\\", .map []), ("é", .list [.number (-0.0), .text "\t\x1b"])],
      inputValues := [("level", level)] }]
  connections := [⟨"", "lamp \"1\"", "out", "lamp \"1\"", "level"⟩]

theorem ordered_storedShow (x : Float) : (storedShow (.number x)).Ordered := by
  have hkeys : List.Pairwise (· < ·) ["", "\\", "é"] := by decide
  refine List.forall_mem_singleton.2
    ⟨⟨?_, trivial, ⟨List.Pairwise.nil, trivial⟩, ⟨trivial, trivial, trivial⟩, trivial⟩,
      ⟨List.pairwise_singleton _ _, trivial, trivial⟩, ⟨List.Pairwise.nil, trivial⟩⟩
  exact List.Pairwise.of_map _ (fun _ _ ↦ id) hkeys

theorem ofText_toText_storedShow :
    ofText (storedShow (.number 0.5)).toText = .ok (storedShow (.number 0.5)) ∧
      ofText (storedShow (.number (0.0 / 0.0))).toText = .ok (storedShow .null) := by
  constructor
  · refine (ofText_toText _ (ordered_storedShow 0.5) (by decide +kernel) ?_).1 ?_
    · show ∀ x ∈ [-0.0, 0.5], x.isFinite = true → Numeral.IsFaithful x
      decide +kernel
    · show ∀ x ∈ [-0.0, 0.5], x.isFinite = true
      decide +kernel
  · refine (ofText_toText _ (ordered_storedShow (0.0 / 0.0)) (by decide +kernel) ?_).2
    show ∀ x ∈ [-0.0, 0.0 / 0.0], x.isFinite = true → Numeral.IsFaithful x
    decide +kernel

end GraphState

end CueFlow
