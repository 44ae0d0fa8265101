import Containers.ChainedMap.Walk
import Containers.Proofs.ChainedMap.Chain
import Mathlib.Logic.Function.Basic

/-!
# A map as a function of key bytes

`ChainedMap.lookup` is what a map stores under each string of bytes. Every reading operation asks
it at the bytes of its key. A writing operation changes one chain: `set` and `remove` have one
equation for a key that is missing and one for a key that is present (`set_of_not_mem`,
`set_split`, `remove_of_not_mem`, `remove_split`), from which what they do to `lookup` follows
(`lookup_set`, `lookup_remove`). Removal uncovers a second entry with the same key if there is one,
so its equation needs that the chain has none.
-/

namespace Containers.ChainedMap

variable {κ V : Type}

/-- The chain that an entry with these key bytes belongs to. -/
def chainOf (m : ChainedMap κ V) (bytes : ByteString) : Chain V :=
  m.directory[m.bucketOfBytes bytes]

/-- The payload stored under a key with these bytes. -/
def lookup (m : ChainedMap κ V) (bytes : ByteString) : Option V :=
  (Chain.find? bytes (m.chainOf bytes)).map Entry.payload

/-- Keys of the same bucket share a chain. -/
theorem chainOf_congr (m : ChainedMap κ V) {bytes other : ByteString}
    (h : m.bucketOfBytes bytes = m.bucketOfBytes other) : m.chainOf bytes = m.chainOf other := by
  simp only [chainOf, h]

/-- A key that is not in its chain is not found. -/
theorem lookup_of_not_mem {m : ChainedMap κ V} {bytes : ByteString}
    (h : bytes ∉ Chain.keys (m.chainOf bytes)) : m.lookup bytes = none := by
  rw [lookup, Chain.find?_of_not_mem h, Option.map_none]

/-- A key is found with the payload of the first entry of its chain that has it. -/
theorem lookup_split {m : ChainedMap κ V} {bytes : ByteString} {old : V} {front back : Chain V}
    (hchain : m.chainOf bytes = front ++ ⟨bytes, old⟩ :: back)
    (hfront : bytes ∉ Chain.keys front) : m.lookup bytes = some old := by
  rw [lookup, hchain, Chain.find?_split hfront, Option.map_some]

/-- A key that is not found is not in its chain. -/
theorem not_mem_of_lookup {m : ChainedMap κ V} {bytes : ByteString} (h : m.lookup bytes = none) :
    bytes ∉ Chain.keys (m.chainOf bytes) := by
  rcases Chain.not_mem_keys_or_split bytes (m.chainOf bytes) with
    hnot | ⟨front, old, back, hfront, hchain⟩
  · exact hnot
  · rw [lookup_split hchain hfront] at h
    cases h

/-- The chain of a key that is found splits around the first entry with the key, which has the
payload that was found. -/
theorem split_of_lookup {m : ChainedMap κ V} {bytes : ByteString} {old : V}
    (h : m.lookup bytes = some old) :
    ∃ front back, m.chainOf bytes = front ++ ⟨bytes, old⟩ :: back ∧ bytes ∉ Chain.keys front := by
  rcases Chain.not_mem_keys_or_split bytes (m.chainOf bytes) with
    hnot | ⟨front, stored, back, hfront, hchain⟩
  · rw [lookup_of_not_mem hnot] at h
    cases h
  · rw [lookup_split hchain hfront] at h
    cases h
    exact ⟨front, back, hchain, hfront⟩

/-! ## New and cleared maps -/

/-- A new map has only empty chains. -/
theorem of_create_eq_ok [Allocator] {hash : KeyHash} {buckets : Nat} {positive : 0 < buckets}
    {m : ChainedMap κ V} (hm : create hash buckets positive = .ok m) :
    m = ⟨hash, Array.replicate buckets [], by simpa using positive, 0⟩ := by
  obtain ⟨_, -, hdone⟩ := of_bind_eq_ok hm
  cases hdone
  rfl

/-- A new map holds nothing. -/
theorem lookup_create [Allocator] {hash : KeyHash} {buckets : Nat} {positive : 0 < buckets}
    {m : ChainedMap κ V} (hm : create hash buckets positive = .ok m) (bytes : ByteString) :
    m.lookup bytes = none := by
  rw [of_create_eq_ok hm]
  simp [lookup, chainOf, Chain.find?]

/-- No key is found in a cleared map. -/
theorem lookup_clear (m : ChainedMap κ V) (bytes : ByteString) : m.clear.lookup bytes = none := by
  simp [lookup, chainOf, clear, Chain.find?]

/-! ## Changing one chain -/

section
variable (m : ChainedMap κ V) (bucket : Fin m.directory.size) (chain : Chain V) (len : Nat)

@[simp] theorem len_withChain : (m.withChain bucket chain len).len = len := rfl

@[simp] theorem hash_withChain : (m.withChain bucket chain len).hash = m.hash := rfl

@[simp] theorem size_withChain :
    (m.withChain bucket chain len).directory.size = m.directory.size :=
  Array.size_set bucket.isLt

/-- Putting a chain into a bucket leaves the chains of all other buckets. -/
theorem directory_withChain (i : Nat) (hi : i < m.directory.size)
    (hnew : i < (m.withChain bucket chain len).directory.size) :
    (m.withChain bucket chain len).directory[i] =
      if bucket = i then chain else m.directory[i] :=
  Array.getElem_set bucket.isLt _

/-- A key's bucket is the same after a chain has changed. -/
theorem bucketOfBytes_withChain (bytes : ByteString) :
    ((m.withChain bucket chain len).bucketOfBytes bytes : Nat) = m.bucketOfBytes bytes := by
  simp [bucketOfBytes]

/-- Putting a chain into a bucket gives it to the keys of this bucket, and leaves all other keys
their chain. -/
theorem chainOf_withChain (bytes : ByteString) :
    (m.withChain bucket chain len).chainOf bytes =
      if bucket = m.bucketOfBytes bytes then chain else m.chainOf bytes := by
  rw [chainOf, Fin.getElem_fin]
  simp only [bucketOfBytes_withChain]
  rw [directory_withChain m bucket chain len _ (m.bucketOfBytes bytes).isLt]
  simp only [Fin.ext_iff]
  rfl

/-- Putting back the chain and the count that are there changes nothing. -/
theorem withChain_chainOf (bytes : ByteString) :
    m.withChain (m.bucketOfBytes bytes) (m.chainOf bytes) m.len = m := by
  simp only [withChain, chainOf, Fin.getElem_fin, Array.set_getElem_self]

/-- Of two changes to one chain the later one stands. -/
theorem withChain_withChain {bytes other : ByteString}
    (h : m.bucketOfBytes bytes = m.bucketOfBytes other) (chain' : Chain V) (len' : Nat) :
    (m.withChain (m.bucketOfBytes bytes) chain len).withChain
        ((m.withChain (m.bucketOfBytes bytes) chain len).bucketOfBytes other) chain' len' =
      m.withChain (m.bucketOfBytes bytes) chain' len' := by
  have hbucket := m.bucketOfBytes_withChain (m.bucketOfBytes bytes) chain len other
  rw [← h] at hbucket
  simp only [withChain] at hbucket ⊢
  simp only [hbucket, Array.set_set]

/-- A key whose bucket has been given a chain belongs to that chain. -/
theorem chainOf_withChain_self (bytes : ByteString) :
    (m.withChain (m.bucketOfBytes bytes) chain len).chainOf bytes = chain := by
  rw [chainOf_withChain, if_pos rfl]

/-- Changes to two chains may change places. -/
theorem directory_withChain_comm {bytes other : ByteString}
    (h : m.bucketOfBytes bytes ≠ m.bucketOfBytes other) (chain' : Chain V) (len' : Nat)
    (lenBefore lenBehind : Nat) :
    ((m.withChain (m.bucketOfBytes bytes) chain len).withChain
        ((m.withChain (m.bucketOfBytes bytes) chain len).bucketOfBytes other) chain'
        len').directory =
      ((m.withChain (m.bucketOfBytes other) chain' lenBefore).withChain
        ((m.withChain (m.bucketOfBytes other) chain' lenBefore).bucketOfBytes bytes) chain
        lenBehind).directory := by
  have hother := m.bucketOfBytes_withChain (m.bucketOfBytes bytes) chain len other
  have hbytes := m.bucketOfBytes_withChain (m.bucketOfBytes other) chain' lenBefore bytes
  simp only [withChain] at hother hbytes ⊢
  simp only [hother, hbytes]
  exact Array.set_comm _ _ (mt Fin.ext h)

/-- A new chain that answers for all other keys as the old one did changes what is stored under one
key only. -/
theorem lookup_withChain (bytes : ByteString)
    (hother : ∀ other, other ≠ bytes →
      Chain.find? other chain = Chain.find? other (m.chainOf bytes)) :
    (m.withChain (m.bucketOfBytes bytes) chain len).lookup =
      Function.update m.lookup bytes ((Chain.find? bytes chain).map Entry.payload) := by
  funext other
  rw [lookup, chainOf_withChain]
  by_cases hkey : other = bytes
  · rw [hkey, if_pos rfl, Function.update_self]
  · rw [Function.update_of_ne hkey]
    split
    next hbucket => rw [hother other hkey, m.chainOf_congr hbucket, lookup]
    next => rfl

/-- The chains in front of a bucket and behind it stay as they are when its chain changes. -/
theorem directory_split :
    ∃ before after : List (Chain V), before.length = bucket ∧
      m.directory.toList = before ++ m.directory[bucket] :: after ∧
      ∀ chain len, (m.withChain bucket chain len).directory.toList = before ++ chain :: after := by
  have hlt : (bucket : Nat) < m.directory.toList.length := by simp
  refine ⟨m.directory.toList.take bucket, m.directory.toList.drop (bucket + 1), by simp,
    ?_, fun chain len => ?_⟩
  · rw [Fin.getElem_fin, ← Array.getElem_toList, List.getElem_cons_drop, List.take_append_drop]
  · rw [withChain, Array.toList_set, List.set_eq_take_append_cons_drop, if_pos hlt]

end

/-! ## Writing -/

section
variable [MapKey κ] {m : ChainedMap κ V} {key : κ} {payload old : V} {front back : Chain V}

/-- A new key is stored at the head of its chain, and the map counts one more. -/
theorem set_of_not_mem (h : MapKey.encode key ∉ Chain.keys (m.chainOf (MapKey.encode key))) :
    m.set key payload = (none,
      m.withChain (m.bucketOf key) (⟨MapKey.encode key, payload⟩ :: m.chainOf (MapKey.encode key))
        (m.len + 1)) := by
  rw [set, show m.directory[m.bucketOf key] = m.chainOf (MapKey.encode key) from rfl]
  simp only [Chain.exchange?_of_not_mem h]

/-- A key that is there keeps its place in the chain and gets the new payload; the old one is the
answer. -/
theorem set_split
    (hchain : m.chainOf (MapKey.encode key) = front ++ ⟨MapKey.encode key, old⟩ :: back)
    (hfront : MapKey.encode key ∉ Chain.keys front) :
    m.set key payload = (some old,
      m.withChain (m.bucketOf key) (front ++ ⟨MapKey.encode key, payload⟩ :: back) m.len) := by
  rw [set, show m.directory[m.bucketOf key] = m.chainOf (MapKey.encode key) from rfl]
  simp only [hchain, Chain.exchange?_split hfront]

/-- Removing a key that is not there changes nothing. -/
theorem remove_of_not_mem (h : MapKey.encode key ∉ Chain.keys (m.chainOf (MapKey.encode key))) :
    m.remove key = (none, m) := by
  rw [remove, show m.directory[m.bucketOf key] = m.chainOf (MapKey.encode key) from rfl]
  simp only [Chain.unlink?_of_not_mem h]

/-- Removing a key takes its entry out of the chain, and the map counts one less. -/
theorem remove_split
    (hchain : m.chainOf (MapKey.encode key) = front ++ ⟨MapKey.encode key, old⟩ :: back)
    (hfront : MapKey.encode key ∉ Chain.keys front) :
    m.remove key = (some old, m.withChain (m.bucketOf key) (front ++ back) (m.len - 1)) := by
  rw [remove, show m.directory[m.bucketOf key] = m.chainOf (MapKey.encode key) from rfl]
  simp only [hchain, Chain.unlink?_split hfront]

/-- A key that is present needs no memory to be stored, and a new one asks for its entry. -/
theorem store_eq [Allocator] [Layout V] (m : ChainedMap κ V) (key : κ) (payload : V) :
    m.store key payload =
      match m.lookup (MapKey.encode key) with
      | some _ => .ok (m.set key payload)
      | none => (Entry.make (MapKey.encode key) payload).map fun _ => m.set key payload := by
  have hcontains : m.contains key = (m.lookup (MapKey.encode key)).isSome := rfl
  rw [store, hcontains]
  cases m.lookup (MapKey.encode key) with
  | some old => rfl
  | none => cases Entry.make (MapKey.encode key) payload <;> rfl

/-- Storing answers with what was stored under the key, and changes nothing else. -/
theorem lookup_set (m : ChainedMap κ V) (key : κ) (payload : V) :
    (m.set key payload).1 = m.lookup (MapKey.encode key) ∧
      (m.set key payload).2.lookup =
        Function.update m.lookup (MapKey.encode key) (some payload) := by
  rcases Chain.not_mem_keys_or_split (MapKey.encode key) (m.chainOf (MapKey.encode key)) with
    hnot | ⟨front, old, back, hfront, hchain⟩
  · rw [set_of_not_mem hnot, lookup_of_not_mem hnot]
    refine ⟨rfl, ?_⟩
    rw [bucketOf, lookup_withChain]
    · rw [← List.nil_append (_ :: _), Chain.find?_split (by simp), Option.map_some]
    · intro other hne
      rw [← List.nil_append (_ :: _), Chain.find?_middle hne, List.nil_append]
  · rw [set_split hchain hfront, lookup_split hchain hfront]
    refine ⟨rfl, ?_⟩
    rw [bucketOf, lookup_withChain]
    · rw [Chain.find?_split hfront, Option.map_some]
    · intro other hne
      rw [hchain, Chain.find?_middle hne, Chain.find?_middle hne]

/-- Removing answers with what was stored under the key, and changes nothing else. -/
theorem lookup_remove (m : ChainedMap κ V) (key : κ)
    (hdistinct : (Chain.keys (m.chainOf (MapKey.encode key))).Nodup) :
    (m.remove key).1 = m.lookup (MapKey.encode key) ∧
      (m.remove key).2.lookup = Function.update m.lookup (MapKey.encode key) none := by
  rcases Chain.not_mem_keys_or_split (MapKey.encode key) (m.chainOf (MapKey.encode key)) with
    hnot | ⟨front, old, back, hfront, hchain⟩
  · rw [remove_of_not_mem hnot]
    have hnone := lookup_of_not_mem hnot
    exact ⟨hnone.symm, by rw [← hnone, Function.update_eq_self]⟩
  · rw [remove_split hchain hfront, lookup_split hchain hfront]
    refine ⟨rfl, ?_⟩
    rw [bucketOf, lookup_withChain]
    · have hback : MapKey.encode key ∉ Chain.keys back := by
        rw [hchain, Chain.keys_append, Chain.keys_cons] at hdistinct
        exact (List.nodup_cons.1 (List.nodup_append.1 hdistinct).2.1).1
      rw [Chain.find?_of_not_mem (by simp [hfront, hback]), Option.map_none]
    · intro other hne
      rw [hchain, Chain.find?_middle hne]

end

end Containers.ChainedMap
