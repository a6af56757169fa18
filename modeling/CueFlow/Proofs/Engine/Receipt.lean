import CueFlow.Proofs.Command.Change
import CueFlow.Proofs.Engine.Delivery
/-!
# What a device has received

A visit compares what it gathered with what the visit before it gathered, and delivers the
difference or nothing. A device sees deliveries only. A `Receipt` is what it can know from them at
one point of delivery: the last value it was handed there, and for every key of a bundle the last
item it was handed under that key.

`Receipt.Agrees` says that a receipt is up to date with what was gathered. It is what a visit keeps,
whether it delivers (`Agrees.deliver`) or not (`Agrees.quiet`), provided that the receipt agrees
with what the visit before it gathered.
-/

namespace CueFlow

/-! ### What a delivery holds -/

/-- Whether a value is a list that carries commands. -/
def Value.isBundle (v : Value) : Bool := v.asList?.isSome && carriesCommands v

/-- The members of a value that is handed over whole. -/
def wholeMembers : Value → List (MemberKey × Value)
  | .list items => members items
  | _ => []

/-- The members that are handed over for a value, given the value it is compared with. -/
def handedMembers (before : Option Value) (next : Value) : List (MemberKey × Value) :=
  (before.bind fun v ↦ changedMembers? v next).getD (wholeMembers next)

variable {v w : Value} {changed : List (MemberKey × Value)}

theorem isBundle_congr (h : v == w) : v.isBundle = w.isBundle := by
  rw [Value.isBundle, Value.isBundle, Value.carriesCommands_congr h]
  cases v <;> cases w <;> first | rfl | cases h

theorem changedMembers?_eq_some_iff : changedMembers? v w = some changed ↔
    ∃ before after, v = .list before ∧ w = .list after ∧ w.isBundle ∧
      changedMembers before after = changed := by
  constructor
  · intro h
    cases v with
    | list before =>
      cases w with
      | list after =>
        rw [changedMembers?] at h
        split at h
        next hcarries => exact ⟨before, after, rfl, rfl, hcarries, Option.some.inj h⟩
        next => cases h
      | _ => cases h
    | _ => cases h
  · rintro ⟨before, after, rfl, rfl, hbundle, rfl⟩
    have hcarries : carriesCommands (.list after) = true := hbundle
    rw [changedMembers?, if_pos hcarries]

/-- What a port delivers, and whether it calls for a delivery, in terms of changed members. -/
theorem portChange_of_some (h : changedMembers? v w = some changed) :
    (portChange (some v) w).value = .list (changed.map Prod.snd) ∧
      ((portChange (some v) w).isChanged = false → changed = []) := by
  rw [portChange, changedCommands?, h]
  cases changed with
  | nil => exact ⟨rfl, fun _ ↦ rfl⟩
  | cons entry rest => exact ⟨rfl, fun hsame ↦ by cases hsame⟩

theorem portChange_of_none (h : changedMembers? v w = none) :
    (portChange (some v) w).value = w ∧
      ((portChange (some v) w).isChanged = false → v == w) := by
  rw [portChange, changedCommands?, h]
  dsimp only [Option.map_none]
  split
  next hsame => exact ⟨rfl, fun _ ↦ hsame⟩
  next => exact ⟨rfl, fun hsame ↦ by cases hsame⟩

/-- **Where the items of a delivery come from.** What is delivered of a list are the members that
are handed over, and those are members of the list as a whole. -/
theorem handedMembers_spec (before : Option Value) (items : List Value) :
    (portChange before (.list items)).value =
        .list ((handedMembers before (.list items)).map Prod.snd) ∧
      (handedMembers before (.list items)).Sublist (members items) := by
  have hwhole : Value.list ((members items).map Prod.snd) = .list items :=
    congrArg Value.list (map_snd_members items)
  cases before with
  | none => exact ⟨hwhole.symm, List.Sublist.refl _⟩
  | some v =>
    rw [handedMembers, Option.bind_some]
    cases hchanged : changedMembers? v (.list items) with
    | none =>
      rw [(portChange_of_none hchanged).1]
      exact ⟨hwhole.symm, List.Sublist.refl _⟩
    | some changed =>
      obtain ⟨old, _, -, ⟨⟩, -, rfl⟩ := changedMembers?_eq_some_iff.1 hchanged
      exact ⟨(portChange_of_some hchanged).1, changedMembers_sublist old items⟩

/-! ### Receipts -/

/-- What a point of delivery has received since the last cleanup. -/
structure Receipt where
  /-- The last value that was handed over. -/
  last : Option Value := none
  /-- The last item that was handed over under each key. -/
  members : MemberKey → Option Value := fun _ ↦ none

/-- The items of the value that is handed over, under the given keys, or else under those that they
have in it. A value that is not a list has no items. -/
def givenMembers (given : Option Value) (keys : Option (List MemberKey)) :
    List (MemberKey × Value) :=
  match given with
  | some (.list items) => (keys.getD (memberKeys items)).zip items
  | _ => []

namespace Receipt

/-- Take in the value that is handed over, and its items under the keys that they have in the bundle
they were taken from; without such keys, the value stands for itself as a whole. -/
def take (r : Receipt) (given : Option Value) (keys : Option (List MemberKey)) : Receipt where
  last := given.or r.last
  members key := ((givenMembers given keys).lookup key).or (r.members key)

/-- Take in a list of members, each under its key. -/
def takeMembers (r : Receipt) (keyed : List (MemberKey × Value)) : Receipt :=
  r.take (some (.list (keyed.map Prod.snd))) (some (keyed.map Prod.fst))

/-- The members that are taken in are known afterwards under their keys. -/
theorem members_takeMembers (r : Receipt) (keyed : List (MemberKey × Value)) (key : MemberKey) :
    (r.takeMembers keyed).members key = (keyed.lookup key).or (r.members key) := by
  have hkeyed : (keyed.map Prod.fst).zip (keyed.map Prod.snd) = keyed :=
    (List.zip_of_prod rfl rfl).symm
  rw [takeMembers, take, givenMembers, Option.getD_some, hkeyed]

/-- A receipt is up to date with a bundle: under the key of each of its members it has an item that
equals the member. Members that do not equal themselves are left out. -/
def HasMembers (r : Receipt) (items : List Value) : Prop :=
  ∀ key y, member? items key = some y → y == y → ∃ z, r.members key = some z ∧ z == y

/-- A receipt is up to date with what a point of delivery gathered. It knows the members of every
list, bundle or not, because the next visit may find a bundle and compare it with that list. -/
def Agrees (r : Receipt) (gathered : Option Value) (fallback : Value) : Prop :=
  match gathered with
  | none => r.last = some fallback
  | some x => (∀ items, x = .list items → r.HasMembers items) ∧
      (x.isBundle = false → x == x → ∃ z, r.last = some z ∧ z == x)

variable {r : Receipt} {fallback : Value}

/-- What agrees with a value agrees with every value that equals it. -/
theorem Agrees.congr (h : r.Agrees (some v) fallback) (hvw : v == w) :
    r.Agrees (some w) fallback := by
  refine ⟨?_, fun hbundle _ ↦ ?_⟩
  · rintro after rfl key y hy -
    obtain ⟨before, rfl, hbefore⟩ := Value.exists_list_of_beq (BEq.symm hvw)
    have hrel := rel_member? hbefore key
    rw [hy] at hrel
    generalize hx : member? before key = x at hrel
    cases hrel with
    | @some _ x hyx =>
      obtain ⟨z, hz, hzx⟩ := h.1 before rfl key x hx (Value.beq_left (BEq.symm hyx))
      exact ⟨z, hz, BEq.trans hzx (BEq.symm hyx)⟩
  · obtain ⟨z, hz, hzv⟩ := h.2 ((isBundle_congr hvw).trans hbundle) (Value.beq_left hvw)
    exact ⟨z, hz, BEq.trans hzv hvw⟩

/-- A value that is handed over whole is known afterwards. -/
theorem agrees_whole (r : Receipt) (v : Value) :
    (r.take (some v) (some ((wholeMembers v).map Prod.fst))).Agrees (some v) fallback := by
  refine ⟨?_, fun _ hself ↦ ⟨v, rfl, hself⟩⟩
  rintro items rfl key y hy hself
  have hitems : (wholeMembers (.list items)).map Prod.snd = items := map_snd_members items
  have hlookup : (wholeMembers (.list items)).lookup key = some y := hy
  have hmembers := r.members_takeMembers (wholeMembers (.list items)) key
  rw [takeMembers, hitems, hlookup] at hmembers
  exact ⟨y, hmembers, hself⟩

/-- Handing over the members that changed makes up for the difference of two bundles. -/
theorem HasMembers.change {before after : List Value} (h : r.HasMembers before) :
    (r.takeMembers (changedMembers before after)).HasMembers after := by
  intro key y hy hself
  rw [members_takeMembers, lookup_changedMembers hy]
  split
  next hsame =>
    -- Its match in the bundle before is known and equal to it.
    obtain ⟨x, hx, hxy⟩ : ∃ x, member? before key = some x ∧ x == y := by
      cases hx : member? before key with
      | none => simp [hx] at hsame
      | some x => exact ⟨x, rfl, by simpa [hx] using hsame⟩
    obtain ⟨z, hz, hzx⟩ := h key x hx (Value.beq_left hxy)
    exact ⟨z, hz, BEq.trans hzx hxy⟩
  next => exact ⟨y, rfl, hself⟩

/-- **A delivery brings a receipt up to date.** -/
theorem Agrees.change {before : Option Value} (h : ∀ u, before = some u → r.Agrees before fallback)
    (next : Value) : (r.take (some (portChange before next).value)
      (some ((handedMembers before next).map Prod.fst))).Agrees (some next) fallback := by
  cases before with
  | none => exact r.agrees_whole next
  | some v =>
    rw [handedMembers, Option.bind_some]
    cases hchanged : changedMembers? v next with
    | none =>
      rw [(portChange_of_none hchanged).1]
      exact r.agrees_whole next
    | some changed =>
      rw [(portChange_of_some hchanged).1]
      obtain ⟨old, new, rfl, rfl, hbundle, rfl⟩ := changedMembers?_eq_some_iff.1 hchanged
      refine ⟨?_, fun hnone ↦ ?_⟩
      · rintro items heq
        obtain rfl := Value.list.inj heq
        exact ((h _ rfl).1 old rfl).change
      · rw [hbundle] at hnone
        cases hnone

/-- **What does not call for a delivery is known already.** -/
theorem Agrees.unchanged {next : Value} (h : r.Agrees (some v) fallback)
    (hsame : (portChange (some v) next).isChanged = false) : r.Agrees (some next) fallback := by
  cases hchanged : changedMembers? v next with
  | none => exact h.congr ((portChange_of_none hchanged).2 hsame)
  | some changed =>
    obtain rfl := (portChange_of_some hchanged).2 hsame
    obtain ⟨old, new, rfl, rfl, hbundle, hnone⟩ := changedMembers?_eq_some_iff.1 hchanged
    refine ⟨?_, fun hnot ↦ ?_⟩
    · rintro items heq
      obtain rfl := Value.list.inj heq
      -- Nothing has changed, so taking in what changed adds no item.
      have hmembers : (r.takeMembers (changedMembers old new)).HasMembers new :=
        (h.1 old rfl).change
      rw [hnone] at hmembers
      exact hmembers
    · rw [hbundle] at hnot
      cases hnot

end Receipt

/-! ### Visits -/

/-- The members that a visit hands over at a port, if it gathered anything there. -/
def handedAt? (previous : Option SinkSnapshot) (current : SinkSnapshot) (port : String) :
    Option (List (MemberKey × Value)) :=
  (current.sinkValues.get? port).map
    (handedMembers ((comparedWith previous current).get? port))

namespace Receipt

variable {r : Receipt} {fallback : Value} {previous : Option SinkSnapshot} {current : SinkSnapshot}
  {port : String}

/-- A receipt is up to date with a visit: it agrees with what the visit gathered on the port. -/
def UpToDate (r : Receipt) (visit : Option SinkSnapshot) (port : String) (fallback : Value) :
    Prop :=
  ∀ found, visit = some found → r.Agrees (found.sinkValues.get? port) fallback

/-- **A visit that delivers nothing** finds nothing that the receipt does not know. -/
theorem UpToDate.quiet (h : r.UpToDate previous port fallback)
    (hnone : delivery? previous current = none) : r.UpToDate (some current) port fallback := by
  rintro _ ⟨⟩
  obtain ⟨before, rfl, hequal | ⟨hlost, hkept⟩⟩ := exists_of_delivery?_eq_none hnone port
  · have hrel := Value.rel_get? hequal port
    have hbefore := h before rfl
    generalize before.sinkValues.get? port = a at hrel hbefore
    generalize current.sinkValues.get? port = b at hrel ⊢
    cases hrel with
    | some hab => exact hbefore.congr hab
    | none => exact hbefore
  · have hbefore := h before rfl
    cases hx : current.sinkValues.get? port with
    | none =>
      rw [hlost hx] at hbefore
      exact hbefore
    | some x =>
      obtain ⟨v, hv, hsame⟩ := hkept x hx
      rw [hv] at hbefore
      exact hbefore.unchanged hsame

/-- What a visit compares with is known from the visit before. -/
theorem UpToDate.comparedWith (h : r.UpToDate previous port fallback) (current : SinkSnapshot)
    {v : Value} (hv : (comparedWith previous current).get? port = some v) :
    r.Agrees (some v) fallback := by
  cases previous with
  | none => cases hv
  | some before =>
    rw [CueFlow.comparedWith] at hv
    split at hv
    · exact hv ▸ h before rfl
    · cases hv

/-- **A visit that delivers** brings the receipt up to date. -/
theorem UpToDate.deliver {delivered : ValueMap} (h : r.UpToDate previous port fallback)
    (hsome : delivery? previous current = some delivered) :
    (r.take (some ((delivered.get? port).getD fallback))
      ((handedAt? previous current port).map fun handed ↦ handed.map Prod.fst)).UpToDate
        (some current) port fallback := by
  rintro _ ⟨⟩
  rw [delivery?_eq_some hsome, get?_changesSince, handedAt?]
  cases hx : current.sinkValues.get? port with
  | none => rfl
  | some x =>
    refine Agrees.change (fun v hv ↦ ?_) x
    rw [hv]
    exact h.comparedWith current hv

end Receipt

end CueFlow
