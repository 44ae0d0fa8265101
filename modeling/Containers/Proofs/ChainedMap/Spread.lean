import Containers.ChainedMap.Spread
import Containers.Proofs.ChainedMap.Refinement
import Mathlib.Algebra.Order.BigOperators.Group.Finset
import Mathlib.Data.Fintype.Card
import Mathlib.Order.Bounds.Basic

/-!
# What the measurements of a map say

The measurements are taken from a count and from the chains, but speak of the stored keys and the
buckets that the hash picks for them (`Spread.Describes`). The invariant connects the two: the chain
of a bucket lists the stored keys of this bucket, each once (`Intact.card_keysOf`), so a chain is as
long as its bucket has keys, and it is empty if the bucket has none. Hence the measurements describe
the map, whatever its hash (`Intact.spread_describes`). The inequalities between them count the keys
bucket by bucket (`Spread.Describes.consistent`).
-/

namespace Containers

namespace ChainedMap

variable {κ V : Type}

/-- The bytes of the stored keys. -/
def storedKeys (m : ChainedMap κ V) : Finset ByteString := (Chain.keys m.entries).toFinset

/-- The stored keys that belong to a bucket. -/
def keysOf (m : ChainedMap κ V) (bucket : Fin m.directory.size) : Finset ByteString :=
  {bytes ∈ m.storedKeys | m.bucketOfBytes bytes = bucket}

end ChainedMap

namespace Spread

variable {κ V : Type}

/-- The measurements are true of a map: its entries are as many as it counts, as a walk comes to and
as there are stored keys; it has that many buckets, the stored keys belong to that many different
ones, and no bucket has more of them than the number given, which one has. -/
structure Describes (s : Spread) (m : ChainedMap κ V) : Prop where
  counted : s.entries = m.len
  listed : s.entries = m.entries.length
  stored : s.entries = m.storedKeys.card
  buckets : s.buckets = m.directory.size
  occupied : s.occupied = (m.storedKeys.image m.bucketOfBytes).card
  longest : IsGreatest (Set.range fun bucket => (m.keysOf bucket).card) s.longest

/-- Measurements that a map can have: the keys of the occupied buckets are all the entries, and
there are no others. -/
structure Consistent (s : Spread) : Prop where
  occupied_le_entries : s.occupied ≤ s.entries
  occupied_le_buckets : s.occupied ≤ s.buckets
  longest_le : s.longest ≤ s.entries
  entries_le : s.entries ≤ s.occupied * s.longest
  entries_eq_zero : s.entries = 0 ↔ s.occupied = 0
  occupied_eq_zero : s.occupied = 0 ↔ s.longest = 0

/-- Measurements of a map are consistent. -/
theorem Describes.consistent {s : Spread} {m : ChainedMap κ V} (h : s.Describes m) :
    s.Consistent := by
  obtain ⟨⟨fullest, hfullest⟩, hmost⟩ := h.longest
  have hlongest : s.longest ≤ s.entries := by
    rw [← hfullest, h.stored]
    exact Finset.card_filter_le _ _
  have hproduct : s.entries ≤ s.occupied * s.longest := by
    rw [h.stored, h.occupied, Nat.mul_comm]
    exact Finset.card_le_mul_card_image _ _ fun bucket _ => hmost ⟨bucket, rfl⟩
  have hoccupied : s.occupied ≤ s.entries := by
    rw [h.stored, h.occupied]
    exact Finset.card_image_le
  have hbuckets : s.occupied ≤ s.buckets := by
    rw [h.occupied, h.buckets]
    exact (Finset.card_le_univ _).trans_eq (Fintype.card_fin _)
  have hnone : s.occupied = 0 → s.entries = 0 := by
    intro hzero
    rwa [hzero, Nat.zero_mul, Nat.le_zero] at hproduct
  have hempty : s.longest = 0 → s.entries = 0 := by
    intro hzero
    rwa [hzero, Nat.mul_zero, Nat.le_zero] at hproduct
  refine ⟨hoccupied, hbuckets, hlongest, hproduct, ⟨fun hzero => ?_, hnone⟩, fun hzero => ?_,
    fun hzero => ?_⟩
  · omega
  · have := hnone hzero
    omega
  · have := hempty hzero
    omega

/-! ## Going through the chains -/

/-- The greatest of some lengths is found by going through them from zero on. -/
theorem max?_eq_foldl {lengths : List Nat} (h : lengths ≠ []) :
    lengths.max? = some (lengths.foldl max 0) := by
  cases lengths with
  | nil => exact absurd rfl h
  | cons length lengths => rw [List.max?_cons', List.foldl_cons, Nat.zero_max]

/-- Going through chains counts those with an entry and finds the length of the longest. -/
theorem foldl_addChain (s : Spread) (chains : List (Chain V)) :
    chains.foldl addChain s = { s with
      occupied := s.occupied + (chains.map List.length).countP (· ≠ 0)
      longest := (chains.map List.length).foldl max s.longest } := by
  induction chains generalizing s with
  | nil => rfl
  | cons chain chains ih =>
    rw [List.foldl_cons, ih, List.map_cons, List.countP_cons, List.foldl_cons]
    cases chain with
    | nil => rfl
    | cons entry chain =>
      simp only [addChain, List.isEmpty_cons, Bool.false_eq_true, if_false, List.length_cons,
        ne_eq, Nat.add_one_ne_zero, not_false_eq_true, decide_true, if_true]
      rw [Nat.add_assoc, Nat.add_comm 1]

end Spread

namespace ChainedMap

variable {κ V : Type} {hash : KeyHash} {buckets : Nat} {m : ChainedMap κ V}

/-- The lengths of the chains, bucket by bucket. -/
def lengths (m : ChainedMap κ V) : List Nat := m.directory.toList.map List.length

/-- A map has a bucket. -/
theorem lengths_ne_nil (m : ChainedMap κ V) : m.lengths ≠ [] := by
  intro hnil
  have hpos := m.directory_pos
  rw [← Array.length_toList, List.map_eq_nil_iff.1 hnil] at hpos
  exact Nat.lt_irrefl _ hpos

/-- The spread of a map, in terms of the lengths of its chains. -/
theorem spread_eq (m : ChainedMap κ V) :
    m.spread =
      ⟨m.len, m.directory.size, m.lengths.countP (· ≠ 0), m.lengths.foldl max 0⟩ := by
  rw [spread, ← Array.foldl_toList, Spread.foldl_addChain, bucketCount, Nat.zero_add, lengths]

namespace Intact

variable [MapKey κ]

/-- A chain lists the stored keys of its bucket, each once. -/
theorem card_keysOf (h : Intact hash buckets m) (bucket : Nat)
    (hbucket : bucket < m.directory.size) :
    (m.keysOf ⟨bucket, hbucket⟩).card = m.directory[bucket].length := by
  have hkeys : m.keysOf ⟨bucket, hbucket⟩ = (Chain.keys m.directory[bucket]).toFinset := by
    ext bytes
    rw [keysOf, Finset.mem_filter, storedKeys, List.mem_toFinset, List.mem_toFinset,
      entries_eq_flatten]
    constructor
    · rintro ⟨hstored, hbytes⟩
      obtain ⟨entry, hentry, rfl⟩ := List.mem_map.1 hstored
      have hchain := h.mem_chainOf hentry
      simp only [ChainedMap.chainOf, hbytes, Fin.getElem_fin] at hchain
      exact Chain.mem_keys_of_mem hchain
    · intro hbytes
      obtain ⟨entry, hentry, rfl⟩ := List.mem_map.1 hbytes
      have hhashed := (h.chains bucket hbucket).hashed entry hentry
      refine ⟨Chain.mem_keys_of_mem (List.mem_flatten_of_mem ?_ hentry), Fin.ext ?_⟩
      · simp
      · rw [h.bucketOfBytes, hhashed]
  rw [hkeys, List.toFinset_card_of_nodup (h.chains bucket hbucket).distinct, Chain.keys,
    List.length_map]

/-- The chain of each bucket is as long as the bucket has stored keys. -/
theorem lengths_eq (h : Intact hash buckets m) :
    m.lengths = (List.finRange m.directory.size).map fun bucket => (m.keysOf bucket).card := by
  refine List.ext_getElem (by simp [lengths]) fun bucket hbucket _ => ?_
  rw [lengths, List.length_map, Array.length_toList] at hbucket
  simp [lengths, h.card_keysOf bucket hbucket]

/-- The buckets of the stored keys are those whose chains are not empty. -/
theorem card_image (h : Intact hash buckets m) :
    (m.storedKeys.image m.bucketOfBytes).card = m.lengths.countP (· ≠ 0) := by
  have himage : m.storedKeys.image m.bucketOfBytes =
      ((List.finRange m.directory.size).filter fun bucket =>
        (m.keysOf bucket).card ≠ 0).toFinset := by
    ext bucket
    rw [Finset.mem_image, ← Finset.filter_nonempty_iff, ← Finset.card_ne_zero, ← keysOf]
    simp
  rw [himage, List.toFinset_card_of_nodup ((List.nodup_finRange _).filter _),
    ← List.countP_eq_length_filter, h.lengths_eq, List.countP_map]
  rfl

/-- The longest chain is that of a bucket with the most keys. -/
theorem isGreatest_longest (h : Intact hash buckets m) :
    IsGreatest (Set.range fun bucket => (m.keysOf bucket).card) (m.lengths.foldl max 0) := by
  obtain ⟨hmem, hmost⟩ := List.max?_eq_some_iff.1 (Spread.max?_eq_foldl m.lengths_ne_nil)
  rw [h.lengths_eq] at hmem hmost ⊢
  refine ⟨?_, ?_⟩
  · obtain ⟨bucket, -, hbucket⟩ := List.mem_map.1 hmem
    exact ⟨bucket, hbucket⟩
  · rintro _ ⟨bucket, rfl⟩
    exact hmost _ (List.mem_map.2 ⟨bucket, List.mem_finRange bucket, rfl⟩)

/-- The measurements are true of the map. -/
theorem spread_describes (h : Intact hash buckets m) : m.spread.Describes m := by
  rw [spread_eq]
  exact ⟨rfl, h.length_entries.symm, h.card_keys_entries.symm, rfl, h.card_image.symm,
    h.isGreatest_longest⟩

/-- A key is stored if the map contains a key with these bytes. -/
theorem mem_storedKeys_iff (h : Intact hash buckets m) (bytes : ByteString) :
    bytes ∈ m.storedKeys ↔ ∃ key : κ, MapKey.encode key = bytes ∧ m.contains key = true := by
  rw [storedKeys, List.mem_toFinset]
  constructor
  · intro hbytes
    obtain ⟨entry, hentry, rfl⟩ := List.mem_map.1 hbytes
    have hlookup := (h.mem_entries_iff entry).1 hentry
    rw [entries_eq_flatten] at hentry
    obtain ⟨key, hkey⟩ := h.encoded entry hentry
    rw [← hkey] at hlookup
    exact ⟨key, hkey, Option.isSome_of_eq_some hlookup⟩
  · rintro ⟨key, rfl, hcontains⟩
    obtain ⟨payload, hlookup⟩ := Option.isSome_iff_exists.1 hcontains
    exact Chain.mem_keys_of_mem ((h.mem_entries_iff ⟨MapKey.encode key, payload⟩).2 hlookup)

end Intact

/-! ## How many entries there are -/

section
variable [MapKey κ]

/-- Storing adds at most one entry. -/
theorem len_set_le (m : ChainedMap κ V) (key : κ) (payload : V) :
    (m.set key payload).2.len ≤ m.len + 1 := by
  unfold set
  dsimp only
  split
  · exact Nat.le_succ _
  · exact Nat.le_refl _

/-- Where there is memory for the entry, storing is setting. -/
theorem of_store_eq_ok [Allocator] [Layout V] {m : ChainedMap κ V} {key : κ} {payload : V}
    {result : Option V × ChainedMap κ V} (h : m.store key payload = .ok result) :
    result = m.set key payload := by
  unfold store at h
  cases hcontains : m.contains key with
  | true =>
    rw [hcontains] at h
    cases h
    rfl
  | false =>
    rw [hcontains] at h
    obtain ⟨_, -, hdone⟩ := of_bind_eq_ok h
    cases hdone
    rfl

/-- Removing adds none. -/
theorem len_remove_le (m : ChainedMap κ V) (key : κ) : (m.remove key).2.len ≤ m.len := by
  unfold remove
  dsimp only
  split
  · exact Nat.sub_le _ _
  · exact Nat.le_refl _

end

end ChainedMap

end Containers
