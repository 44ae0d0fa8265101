import Containers.ChainedMap.Settings
import Containers.ChainedMap.Spread
import Containers.Foreign.Status

/-!
# Maps for callers in C

A map has integers or strings as keys, and 64-bit integers as payloads. A call first needs its
pointers, the map and the key of a string call; then the key has to be of the map's kind. Only
after that is the map asked (`withKey`). The operations on a map are defined for keys of the other
kind too and do nothing for them, but no call gets that far (`withKey_congr`).
-/

namespace Containers.Foreign

/-- A map by the kind of its keys. -/
inductive MapHandle where
  /-- Integers are keys. -/
  | int (map : ChainedMap Int64 Int64)
  /-- Strings are keys. -/
  | text (map : ChainedMap TextKey Int64)

/-- The width of the object that a handle points at. -/
instance : Layout MapHandle := .ofPos objectWidth objectWidth_ne_zero

/-- The key of a call. -/
inductive Key where
  /-- An integer. -/
  | int (key : Int64)
  /-- The address of a string that ends at a zero byte. -/
  | text (key : Pointer ByteString)

/-- A key that has been read. -/
inductive GivenKey where
  /-- An integer. -/
  | int (key : Int64)
  /-- A string. -/
  | text (key : TextKey)

/-- The key of a call, unless the pointer to it is null. A string is read up to its first zero
byte. -/
def Key.given? : Key → Option GivenKey
  | .int key => some (.int key)
  | .text key => key.map fun bytes => .text ⟨untilZero bytes⟩

namespace MapHandle

/-- Whether a key is of the kind that a map has. -/
def admits : MapHandle → GivenKey → Bool
  | .int _, .int _ | .text _, .text _ => true
  | _, _ => false

/-- Store a payload under a key. -/
def store [Allocator] (payload : Int64) : MapHandle → GivenKey → Status × MapHandle
  | .int m, .int key => settle (.int m) ((m.store key payload).map fun (_, m) => .int m)
  | .text m, .text key => settle (.text m) ((m.store key payload).map fun (_, m) => .text m)
  | map, _ => (.badKind, map)

/-- The payload under a key. -/
def get? : MapHandle → GivenKey → Option Int64
  | .int m, .int key => m.get? key
  | .text m, .text key => m.get? key
  | _, _ => none

/-- Remove the entry of a key. The answer is the payload it had. -/
def remove : MapHandle → GivenKey → Option Int64 × MapHandle
  | .int m, .int key =>
    let (old, changed) := m.remove key
    (old, .int changed)
  | .text m, .text key =>
    let (old, changed) := m.remove key
    (old, .text changed)
  | map, _ => (none, map)

end MapHandle

/-- Carry out an action on a map and a key of its kind. -/
def withKey {β : Type} (map : Pointer MapHandle) (key : Key) (action : MapHandle → GivenKey → β) :
    Except Status β :=
  match map, key.given? with
  | some map, some key => if map.admits key then .ok (action map key) else .error .badKind
  | _, _ => .error .nullHandle

/-- What an action does on a map and a key of another kind does not matter. -/
theorem withKey_congr {β : Type} {action other : MapHandle → GivenKey → β}
    (h : ∀ map key, map.admits key → action map key = other map key) (map : Pointer MapHandle)
    (key : Key) : withKey map key action = withKey map key other := by
  unfold withKey
  split
  next map given _ =>
    split
    next hadmits => rw [h map given hadmits]
    next => rfl
  next => rfl

/-- The measurements of a map. -/
def MapHandle.spread : MapHandle → Spread
  | .int m => m.spread
  | .text m => m.spread

/-- The number of entries of a map. -/
def MapHandle.len : MapHandle → Nat
  | .int m => m.len
  | .text m => m.len

/-- An empty map: with strings as keys if the flag is not zero, and with integers otherwise. -/
def newMap [Allocator] (flag : Int8) : Pointer MapHandle :=
  if flag = 0 then handle (boxed (ChainedMap.empty.map .int))
  else handle (boxed (ChainedMap.empty.map .text))

/-- The number of entries, or zero for null. -/
def entryCount (map : Pointer MapHandle) : Nat := map.elim 0 MapHandle.len

/-- The measurements, or zeros for null. -/
def measure (map : Pointer MapHandle) : Spread := map.elim .zero MapHandle.spread

/-- The measurements by name, for logs. -/
def spreadDebugText (spread : Spread) : String := spread.recordText "WaxMapStats"

/-- Store a payload under a key. -/
def storePayload [Allocator] (map : Pointer MapHandle) (key : Key) (payload : Int64) :
    Status × Pointer MapHandle :=
  match withKey map key (MapHandle.store payload) with
  | .ok (status, changed) => (status, some changed)
  | .error status => (status, map)

/-- Store what a lookup found through `out`, unless that is null. -/
def reportPayload (out : Pointer Int64) : Except Status (Option Int64) → Status × Pointer Int64
  | .ok (some payload) => (.ok, out.map fun _ => payload)
  | .ok none => (.keyNotFound, out)
  | .error status => (status, out)

/-- Look up the payload under a key and store it through `out`. With a null `out` the call only
says whether the key has an entry. -/
def findPayload (map : Pointer MapHandle) (key : Key) (out : Pointer Int64) :
    Status × Pointer Int64 :=
  reportPayload out (withKey map key MapHandle.get?)

/-- The payload under a key, or zero if there is none or the call is not possible. -/
def payloadOrZero (map : Pointer MapHandle) (key : Key) : Int64 :=
  match withKey map key MapHandle.get? with
  | .ok found => found.getD 0
  | .error _ => 0

/-- Remove the entry of a key. A key without an entry is no reason to complain. -/
def removeEntry (map : Pointer MapHandle) (key : Key) : Status × Pointer MapHandle :=
  match withKey map key MapHandle.remove with
  | .ok (_, changed) => (.ok, some changed)
  | .error status => (status, map)

end Containers.Foreign
