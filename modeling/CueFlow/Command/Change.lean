import CueFlow.Command
/-!
# What changed in a bundle

The members of a bundle are told apart by a discriminant and by how often that discriminant has
occurred before them: the second `flash` of a bundle is matched with the second `flash` of the
bundle before it. Members that equal their match need not be delivered again.
-/

namespace CueFlow

/-- What identifies a member of a bundle. -/
structure MemberKey where
  discriminant : String
  /-- How many earlier members have the same discriminant. -/
  occurrence : Nat
deriving DecidableEq

/-- The text that sorts members of a bundle: the action, or for want of one the type. -/
def discriminant (v : Value) : String :=
  (((v.get? "action").or (v.get? "type")).bind Value.asText?).getD "_"

/-- The keys of the members of a bundle, given the discriminants that went before. -/
def memberKeysAfter (seen : List String) : List Value → List MemberKey
  | [] => []
  | item :: rest =>
    ⟨discriminant item, seen.count (discriminant item)⟩ ::
      memberKeysAfter (discriminant item :: seen) rest

/-- The keys of the members of a bundle, in order. No key occurs twice. -/
def memberKeys (items : List Value) : List MemberKey := memberKeysAfter [] items

/-- The members of a bundle with their keys, in order. -/
def members (items : List Value) : List (MemberKey × Value) := (memberKeys items).zip items

/-- The member of a bundle with this key. -/
def member? (items : List Value) (key : MemberKey) : Option Value := (members items).lookup key

/-- The members of `after` that differ from their match in `before`. -/
def changedMembers (before after : List Value) : List (MemberKey × Value) :=
  (members after).filter fun entry ↦ !(member? before entry.1 == some entry.2)

/-- The members of `next` that differ from their match in `previous`. None unless both values are
lists and the new one carries commands: then the value has to be delivered whole. -/
def changedMembers? (previous next : Value) : Option (List (MemberKey × Value)) :=
  match previous, next with
  | .list before, .list after =>
    if carriesCommands next then some (changedMembers before after) else none
  | _, _ => none

/-- The commands that have to be delivered again, in order. -/
def changedCommands? (previous next : Value) : Option (List Value) :=
  (changedMembers? previous next).map fun changed ↦ changed.map Prod.snd

end CueFlow
