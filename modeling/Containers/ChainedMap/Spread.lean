import Containers.ChainedMap.Basic

/-!
# How entries are spread over the buckets

`ChainedMap.spread` takes the number of entries from the map's own count and measures everything
else by going through the chains.
-/

namespace Containers

/-- Measurements of a map. -/
structure Spread where
  /-- The number of entries. -/
  entries : Nat
  /-- The number of buckets. -/
  buckets : Nat
  /-- The number of buckets with an entry. -/
  occupied : Nat
  /-- The length of the longest chain. -/
  longest : Nat
deriving DecidableEq

namespace Spread

/-- The measurements of no map at all. -/
def zero : Spread := ⟨0, 0, 0, 0⟩

/-- The measurements in a sentence. -/
def text (s : Spread) : String :=
  s!"{s.entries} entries in {s.occupied}/{s.buckets} buckets, longest chain {s.longest}"

/-- The measurements by name, for logs, under the name of a record. -/
def recordText (name : String) (s : Spread) : String :=
  s!"{name} \x7b entries: {s.entries}, buckets: {s.buckets}, occupied: {s.occupied}, " ++
    s!"longest_chain: {s.longest} \x7d"

/-- The measurements by name, for logs. -/
def debugText (s : Spread) : String := s.recordText "ChainStats"

/-- The four numbers in 32 bytes: eight for each, low byte first. -/
def toBytes (s : Spread) : ByteString :=
  [s.entries, s.buckets, s.occupied, s.longest].flatMap (Bytes.ofNat 8)

/-- Count in one more chain. -/
def addChain {V : Type} (s : Spread) (chain : Chain V) : Spread :=
  { s with
    occupied := if chain.isEmpty then s.occupied else s.occupied + 1
    longest := max s.longest chain.length }

end Spread

/-- Measure a map. -/
def ChainedMap.spread {κ V : Type} (m : ChainedMap κ V) : Spread :=
  m.directory.foldl Spread.addChain ⟨m.len, m.bucketCount, 0, 0⟩

end Containers
