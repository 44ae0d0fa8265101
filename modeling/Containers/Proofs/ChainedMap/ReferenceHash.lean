import Containers.Proofs.ChainedMap.Order
import Containers.Proofs.ChainedMap.Spread

/-!
# What is weak about the reference hash

The reference hash is the exclusive or of the bytes of a key. It adds up over parts of a string
(`xorBytes_append`), so the order of the bytes is lost (`xorBytes_perm`), and it is one byte itself
(`xorBytes_lt`). A map with this hash has entries in its first 256 chains only
(`Intact.lt_of_mem_directory`), and keys that are rearrangements of one another share a chain
(`Intact.together_of_perm`). This costs time and nothing else: keys in one chain are told apart as
all keys are.
-/

namespace Containers

/-! ## The exclusive or of bytes -/

/-- The exclusive or of all bytes is that of two parts, combined. -/
theorem xorBytes_append (bytes tail : ByteString) :
    xorBytes (bytes ++ tail) = xorBytes bytes ^^^ xorBytes tail := by
  have hinit : tail.foldl (· ^^^ ·) (bytes.foldl (· ^^^ ·) 0 ^^^ 0) =
      bytes.foldl (· ^^^ ·) 0 ^^^ tail.foldl (· ^^^ ·) (0 : UInt8) := List.foldl_assoc
  rw [UInt8.xor_zero] at hinit
  rw [xorBytes, List.foldl_append, hinit, UInt8.toUInt64_xor]
  rfl

/-- The exclusive or of one byte is the byte. -/
theorem xorBytes_singleton (byte : UInt8) : xorBytes [byte] = byte.toUInt64 := by
  simp [xorBytes]

/-- The order of the bytes does not count. -/
theorem xorBytes_perm {bytes other : ByteString} (h : bytes.Perm other) :
    xorBytes bytes = xorBytes other := by
  rw [xorBytes, xorBytes, h.foldl_op_eq]

/-- The exclusive or of bytes is not above the largest byte. -/
theorem xorBytes_lt (bytes : ByteString) : xorBytes bytes < 256 := by
  rw [UInt64.lt_iff_toNat_lt, xorBytes, UInt8.toNat_toUInt64]
  exact UInt8.toNat_lt _

namespace ChainedMap

variable {κ V : Type} [MapKey κ] {buckets : Nat} {m : ChainedMap κ V}

/-! ## Maps with the reference hash -/

omit [MapKey κ] in
/-- Keys that are rearrangements of one another belong to one bucket. -/
theorem bucketOfBytes_perm (hxor : m.hash = .xor) {bytes other : ByteString}
    (h : bytes.Perm other) : m.bucketOfBytes bytes = m.bucketOfBytes other := by
  have hword : KeyHash.xor.word bytes = KeyHash.xor.word other := xorBytes_perm h
  rw [bucketOfBytes, bucketOfBytes, Fin.mk.injEq, hxor, hword]

namespace Intact

/-- Entries lie in the first 256 buckets. -/
theorem lt_of_mem_directory (h : Intact .xor buckets m) {bucket : Nat}
    (hbucket : bucket < m.directory.size) {entry : Entry V} (hentry : entry ∈ m.directory[bucket]) :
    bucket < 256 := by
  have hhashed := (h.chains bucket hbucket).hashed entry hentry
  have hword := UInt64.lt_iff_toNat_lt.1 (xorBytes_lt entry.key)
  calc bucket = (xorBytes entry.key).toNat % buckets := hhashed.symm
    _ ≤ (xorBytes entry.key).toNat := Nat.mod_le _ _
    _ < 256 := hword

/-- All chains from the 256th on are empty, since no hash is that large. -/
theorem directory_eq_nil (h : Intact .xor buckets m) {bucket : Nat}
    (hbucket : bucket < m.directory.size) (hfar : 256 ≤ bucket) : m.directory[bucket] = [] := by
  rw [List.eq_nil_iff_forall_not_mem]
  intro entry hentry
  have hnear := h.lt_of_mem_directory hbucket hentry
  omega

/-- Stored keys belong to no more buckets than there are, and to no more than there are hashes. -/
theorem occupied_le (h : Intact .xor buckets m) : m.spread.occupied ≤ min buckets 256 := by
  have hdescribes := h.spread_describes
  refine Nat.le_min.2 ⟨?_, ?_⟩
  · rw [← h.size_eq, ← hdescribes.buckets]
    exact hdescribes.consistent.occupied_le_buckets
  · have hrange : ∀ bucket ∈ m.storedKeys.image m.bucketOfBytes,
        (bucket : Nat) ∈ Finset.range 256 := by
      intro bucket hbucket
      obtain ⟨bytes, hstored, rfl⟩ := Finset.mem_image.1 hbucket
      obtain ⟨entry, hentry, rfl⟩ := List.mem_map.1 (List.mem_toFinset.1 hstored)
      rw [entries_eq_flatten] at hentry
      exact Finset.mem_range.2 (h.lt_of_mem_directory _ (h.mem_chainOf hentry))
    have hcard := Finset.card_le_card_of_injOn _ hrange Fin.val_injective.injOn
    rw [hdescribes.occupied]
    rwa [Finset.card_range] at hcard

/-- So few buckets cannot all have short chains. -/
theorem len_le (h : Intact .xor buckets m) :
    m.len ≤ m.spread.longest * min buckets 256 := by
  have hdescribes := h.spread_describes
  calc m.len = m.spread.entries := hdescribes.counted.symm
    _ ≤ m.spread.occupied * m.spread.longest := hdescribes.consistent.entries_le
    _ ≤ min buckets 256 * m.spread.longest := Nat.mul_le_mul_right _ h.occupied_le
    _ = m.spread.longest * min buckets 256 := Nat.mul_comm _ _

/-- Entries whose keys are rearrangements of one another lie in one chain. -/
theorem together_of_perm (h : Intact .xor buckets m) {key other : ByteString}
    {payload otherPayload : V} (hkey : m.lookup key = some payload)
    (hother : m.lookup other = some otherPayload) (hperm : key.Perm other) :
    ∃ bucket, ∃ hbucket : bucket < m.directory.size,
      ⟨key, payload⟩ ∈ m.directory[bucket] ∧ ⟨other, otherPayload⟩ ∈ m.directory[bucket] := by
  have hmem : ∀ {bytes : ByteString} {payload : V}, m.lookup bytes = some payload →
      ⟨bytes, payload⟩ ∈ m.chainOf bytes := by
    intro bytes payload hlookup
    have hentries := (h.mem_entries_iff ⟨bytes, payload⟩).2 hlookup
    rw [entries_eq_flatten] at hentries
    exact h.mem_chainOf hentries
  have hchain := hmem hother
  rw [← m.chainOf_congr (bucketOfBytes_perm h.hash_eq hperm)] at hchain
  exact ⟨m.bucketOfBytes key, (m.bucketOfBytes key).isLt, hmem hkey, hchain⟩

end Intact

/-- A key is found with its payload, and it can be removed without any other key noticing: the
other entries stay in their order. -/
structure Separate (m : ChainedMap κ V) (key : κ) (payload : V) : Prop where
  found : m.get? key = some payload
  removed : (m.remove key).1 = some payload
  gone : (m.remove key).2.get? key = none
  others : ∀ other, MapKey.encode other ≠ MapKey.encode key →
    (m.remove key).2.get? other = m.get? other
  rest : (m.remove key).2.entries = m.entries.filter (·.key ≠ MapKey.encode key)

/-- A key that an intact map finds is separate from the others, wherever their entries lie. -/
theorem Intact.separate {hash : KeyHash} (h : Intact hash buckets m) {key : κ} {payload : V}
    (hlookup : m.lookup (MapKey.encode key) = some payload) : m.Separate key payload := by
  obtain ⟨hanswer, hafter⟩ := m.lookup_remove key (h.chainOf _).distinct
  refine ⟨hlookup, hanswer.trans hlookup, ?_, ?_, h.entries_remove key⟩
  · have hself := congrFun hafter (MapKey.encode key)
    rwa [Function.update_self] at hself
  · intro other hne
    have hother := congrFun hafter (MapKey.encode other)
    rwa [Function.update_of_ne hne] at hother

/-- The reference hash is weak, and only in this way. The hash of a byte is the byte, the hash of a
string is the exclusive or of the hashes of its parts, so it is the same in any order of the bytes,
and it is below 256. After any run of operations on a new map with this hash, all chains from the
256th on are empty, so no more than 256 buckets are occupied, and the longest chain has at least
its share of the entries. Stored keys that are rearrangements of one another lie in one chain. Each
is still found with the payload that the run stored under it, and removed without affecting the
others. -/
theorem reference_hash_weakness [Allocator] :
    (∀ byte, KeyHash.xor.word [byte] = byte.toUInt64) ∧
    (∀ bytes tail, KeyHash.xor.word (bytes ++ tail) =
      KeyHash.xor.word bytes ^^^ KeyHash.xor.word tail) ∧
    (∀ bytes other, bytes.Perm other → KeyHash.xor.word bytes = KeyHash.xor.word other) ∧
    (∀ bytes, KeyHash.xor.word bytes < 256) ∧
    ∀ {κ V : Type} [MapKey κ] {buckets : Nat} {positive : 0 < buckets} {m : ChainedMap κ V},
      create .xor buckets positive = .ok m → ∀ operations : List (Operation κ V),
        let reached := (m.run operations).1
        let stored := (Table.run .empty operations).1
        (∀ bucket (h : bucket < reached.directory.size),
          256 ≤ bucket → reached.directory[bucket] = []) ∧
        reached.spread.occupied ≤ min buckets 256 ∧
        reached.len ≤ reached.spread.longest * min buckets 256 ∧
        ∀ key other payload otherPayload,
          stored (MapKey.encode key) = some payload →
          stored (MapKey.encode other) = some otherPayload →
          (MapKey.encode key).Perm (MapKey.encode other) →
          (∃ bucket, ∃ h : bucket < reached.directory.size,
            ⟨MapKey.encode key, payload⟩ ∈ reached.directory[bucket] ∧
            ⟨MapKey.encode other, otherPayload⟩ ∈ reached.directory[bucket]) ∧
          reached.Separate key payload ∧ reached.Separate other otherPayload := by
  refine ⟨xorBytes_singleton, xorBytes_append, fun _ _ => xorBytes_perm, xorBytes_lt, ?_⟩
  intro κ V _ buckets positive m hm operations reached stored
  have h : Intact .xor buckets reached := (Intact.create hm).run operations
  have hstored : reached.lookup = stored := by
    have hrun := (Intact.create hm).run_lookup operations
    rw [show m.lookup = Table.empty from funext (lookup_create hm)] at hrun
    exact congrArg Prod.fst hrun
  refine ⟨fun bucket hbucket => h.directory_eq_nil hbucket, h.occupied_le, h.len_le, ?_⟩
  intro key other payload otherPayload hkey hother hperm
  rw [← hstored] at hkey hother
  exact ⟨h.together_of_perm hkey hother hperm, h.separate hkey, h.separate hother⟩

/-- Two strings of the same bytes in a map of 300 buckets, each stored twice. -/
theorem reference_hash_weakness_swapped :
    ∃ m : ChainedMap TextKey UInt64, create .xor 300 (by decide) = .ok m ∧
      ∃ reached, (m.run [.set ⟨[97, 98]⟩ 1, .set ⟨[98, 97]⟩ 2, .set ⟨[97, 98]⟩ 3,
        .set ⟨[98, 97, 0]⟩ 4]).1 = reached ∧
      KeyHash.xor.word [97, 98] = 3 ∧ KeyHash.xor.word [98, 97] = KeyHash.xor.word [97, 98] ∧
      (∀ h : 299 < reached.directory.size, reached.directory[299] = []) ∧
      (∃ bucket, ∃ h : bucket < reached.directory.size,
        ⟨[97, 98], 3⟩ ∈ reached.directory[bucket] ∧
        ⟨[98, 97], 4⟩ ∈ reached.directory[bucket]) ∧
      reached.get? ⟨[97, 98]⟩ = some 3 ∧
      (reached.remove ⟨[97, 98]⟩).2.get? ⟨[98, 97]⟩ = some 4 := by
  obtain ⟨-, -, hperm, -, hmaps⟩ := reference_hash_weakness
  let m : ChainedMap TextKey UInt64 := ⟨.xor, Array.replicate 300 [], by simp, 0⟩
  have hm : create .xor 300 (by decide) = .ok m := rfl
  have hswapped : ([98, 97] : ByteString).Perm [97, 98] := List.Perm.swap 97 98 []
  obtain ⟨hempty, -, -, hkeys⟩ := hmaps hm [.set ⟨[97, 98]⟩ 1, .set ⟨[98, 97]⟩ 2,
    .set ⟨[97, 98]⟩ 3, .set ⟨[98, 97, 0]⟩ 4]
  obtain ⟨htogether, hseparate, hother⟩ :=
    hkeys ⟨[97, 98]⟩ ⟨[98, 97]⟩ 3 4 (by decide) (by decide) hswapped.symm
  exact ⟨m, hm, _, rfl, by decide, hperm _ _ hswapped, fun h => hempty 299 h (by decide),
    htogether, hseparate.found, (hseparate.others ⟨[98, 97]⟩ (by decide)).trans hother.found⟩

end ChainedMap

end Containers
