import Containers.ChainedMap.Key
import Containers.ExactVector
import Containers.Hash.KeyHash

/-!
# Chained hash maps

A map is a directory of buckets, allocated once and never resized. Each bucket heads a chain of
entries: those whose key's hash, reduced by the number of buckets, is the bucket's index. A new key
goes to the head of its chain, a key that is present gets its new payload where it stands, and
removal leaves the order of the other entries alone.

The operations first pick the chain of the key and then work on that chain alone
(`Chain.find?`, `Chain.exchange?`, `Chain.unlink?`). `ChainedMap.set` takes the memory of a new
entry for granted, and `ChainedMap.store` asks for it first: for the copy of the key and for the
entry itself (`Entry.make`), of which either may be refused.
-/

namespace Containers

/-- A key's bytes and the payload stored under it. -/
structure Entry (V : Type) where
  /-- The bytes of the key that count. -/
  key : ByteString
  /-- The payload. -/
  payload : V
deriving DecidableEq

/-- An entry takes two words for its key, one for its link and whole words for its payload. -/
instance {V : Type} [Layout V] : Layout (Entry V) :=
  .ofPos (24 + (Layout.width V + 7) / 8 * 8) (by omega)

/-- A new entry with a copy of the key, if there is memory for the copy and for the entry. -/
def Entry.make [Allocator] {V : Type} [Layout V] (key : ByteString) (payload : V) :
    Except Fault (Entry V) := do
  Allocation.request 1 key.length
  Allocation.after 1 (ExactVector.single ⟨key, payload⟩)

/-- The entries of one bucket, newest key first. -/
abbrev Chain (V : Type) := List (Entry V)

namespace Chain

variable {V : Type}

/-- The first entry with this key. -/
def find? (key : ByteString) (chain : Chain V) : Option (Entry V) :=
  List.find? (fun entry => entry.key == key) chain

/-- The payload of the first entry with this key, and the chain with another payload in its place.
Nothing if no entry has the key. -/
def exchange? (key : ByteString) (payload : V) : Chain V → Option (V × Chain V)
  | [] => none
  | entry :: chain =>
    if entry.key = key then some (entry.payload, { entry with payload } :: chain)
    else (exchange? key payload chain).map fun (old, rest) => (old, entry :: rest)

/-- The payload of the first entry with this key, and the chain without that entry. Nothing if no
entry has the key. -/
def unlink? (key : ByteString) : Chain V → Option (V × Chain V)
  | [] => none
  | entry :: chain =>
    if entry.key = key then some (entry.payload, chain)
    else (unlink? key chain).map fun (old, rest) => (old, entry :: rest)

end Chain

/-- A map from keys of type `κ` to payloads of type `V`. -/
structure ChainedMap (κ V : Type) where
  /-- The hash that picks a bucket. -/
  hash : KeyHash
  /-- The chains of the buckets. -/
  directory : Array (Chain V)
  /-- There is a bucket for every key to go to. -/
  directory_pos : 0 < directory.size
  /-- The number of entries, counted as they come and go. -/
  len : Nat

namespace ChainedMap

variable {κ V : Type}

/-- The number of bytes that one bucket takes in a directory. -/
def bucketWidth : Nat := 8

/-- A map with this many empty buckets. -/
def create [Allocator] (hash : KeyHash) (buckets : Nat) (positive : 0 < buckets) :
    Except Fault (ChainedMap κ V) := do
  Allocation.request bucketWidth buckets
  return ⟨hash, Array.replicate buckets [], by simpa using positive, 0⟩

/-- Whether the map has no entries. -/
def isEmpty (m : ChainedMap κ V) : Bool := m.len == 0

/-- The number of buckets. -/
def bucketCount (m : ChainedMap κ V) : Nat := m.directory.size

/-- The bucket of a key's bytes. -/
def bucketOfBytes (m : ChainedMap κ V) (bytes : ByteString) : Fin m.directory.size :=
  ⟨(m.hash.word bytes).toNat % m.directory.size, Nat.mod_lt _ m.directory_pos⟩

/-- The map with another chain in a bucket and another count of entries. -/
def withChain (m : ChainedMap κ V) (bucket : Fin m.directory.size) (chain : Chain V) (len : Nat) :
    ChainedMap κ V :=
  { m with
    directory := m.directory.set bucket chain
    directory_pos := by simpa using m.directory_pos
    len }

section
variable [MapKey κ]

/-- The bucket of a key. -/
def bucketOf (m : ChainedMap κ V) (key : κ) : Fin m.directory.size :=
  m.bucketOfBytes (MapKey.encode key)

/-- The hash of a key, before it is reduced to a bucket. -/
def hashOf (m : ChainedMap κ V) (key : κ) : UInt64 :=
  m.hash.word (MapKey.encode key)

/-- The payload under a key. -/
def get? (m : ChainedMap κ V) (key : κ) : Option V :=
  (Chain.find? (MapKey.encode key) m.directory[m.bucketOf key]).map Entry.payload

/-- The payload under a key, or a fault if there is none. -/
def get (m : ChainedMap κ V) (key : κ) : Except Fault V :=
  match m.get? key with
  | some payload => .ok payload
  | none => .error .keyNotFound

/-- The payload under a key, or the default payload if there is none. -/
def getD (m : ChainedMap κ V) (key : κ) (fallback : V) : V := (m.get? key).getD fallback

/-- Whether a key has an entry. -/
def contains (m : ChainedMap κ V) (key : κ) : Bool := (m.get? key).isSome

/-- Store a payload under a key. The answer is the payload that was there before. -/
def set (m : ChainedMap κ V) (key : κ) (payload : V) : Option V × ChainedMap κ V :=
  let bytes := MapKey.encode key
  let bucket := m.bucketOf key
  let chain := m.directory[bucket]
  match Chain.exchange? bytes payload chain with
  | some (old, chain) => (some old, m.withChain bucket chain m.len)
  | none => (none, m.withChain bucket (⟨bytes, payload⟩ :: chain) (m.len + 1))

/-- Store a payload under a key, if there is memory for the entry. A key that is present needs
none. -/
def store [Allocator] [Layout V] (m : ChainedMap κ V) (key : κ) (payload : V) :
    Except Fault (Option V × ChainedMap κ V) := do
  unless m.contains key do
    let _ ← Entry.make (MapKey.encode key) payload
  return m.set key payload

/-- Remove the entry of a key. The answer is the payload it had; without an entry nothing
happens. -/
def remove (m : ChainedMap κ V) (key : κ) : Option V × ChainedMap κ V :=
  let bucket := m.bucketOf key
  match Chain.unlink? (MapKey.encode key) m.directory[bucket] with
  | some (old, chain) => (some old, m.withChain bucket chain (m.len - 1))
  | none => (none, m)

end

/-- Remove every entry and keep the directory. -/
def clear (m : ChainedMap κ V) : ChainedMap κ V :=
  { m with
    directory := Array.replicate m.directory.size []
    directory_pos := by simpa using m.directory_pos
    len := 0 }

end ChainedMap

end Containers
