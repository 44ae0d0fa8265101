import Containers.ChainedMap.Operation
import Containers.Proofs.ChainedMap.Lookup
import Mathlib.Algebra.GroupWithZero.Nat
import Mathlib.Data.List.Nodup

/-!
# The invariant of a map

Every entry of a map lies in the bucket its key's hash picks, the keys of a chain are distinct, and
the count is the number of entries (`Intact`). The invariant is stated chain by chain, since an
operation changes one chain at a time (`Intact.withChain`); that all keys of the map are distinct
follows, because entries with the same key lie in the same chain (`Intact.distinct`). It holds of a
new map, each operation preserves it (`Intact.apply`), and so it holds after every run
(`Intact.run`), whatever the hash.
-/

namespace Containers

/-- The entries that bucket `bucket` of a directory of `buckets` may hold: their keys hash to it,
are encoded keys and are distinct. -/
structure Chain.Fits (κ : Type) [MapKey κ] {V : Type} (hash : KeyHash) (buckets bucket : Nat)
    (chain : Chain V) : Prop where
  hashed : ∀ entry ∈ chain, (hash.word entry.key).toNat % buckets = bucket
  encoded : ∀ entry ∈ chain, ∃ key : κ, MapKey.encode key = entry.key
  distinct : (keys chain).Nodup

namespace ChainedMap

variable {κ V : Type} [MapKey κ]

/-- The invariant of a map with this hash and this many buckets. -/
structure Intact (hash : KeyHash) (buckets : Nat) (m : ChainedMap κ V) : Prop where
  hash_eq : m.hash = hash
  size_eq : m.directory.size = buckets
  chains : ∀ bucket (h : bucket < m.directory.size),
    Chain.Fits κ hash buckets bucket m.directory[bucket]
  counted : m.len = (m.directory.toList.map List.length).sum

end ChainedMap

/-! ## Chains -/

namespace Chain

variable {κ V : Type} [MapKey κ] {hash : KeyHash} {buckets bucket : Nat}
  {chain front back : Chain V} {bytes : ByteString} {payload old : V}

/-- The chain of an empty bucket. -/
theorem Fits.nil : Fits κ hash buckets bucket ([] : Chain V) :=
  ⟨by simp, by simp, by simp⟩

/-- A new key may go to the head of its chain. -/
theorem Fits.cons (h : Fits κ hash buckets bucket chain)
    (hbucket : (hash.word bytes).toNat % buckets = bucket)
    (hencoded : ∃ key : κ, MapKey.encode key = bytes) (hnew : bytes ∉ keys chain) :
    Fits κ hash buckets bucket (⟨bytes, payload⟩ :: chain) where
  hashed := List.forall_mem_cons.2 ⟨hbucket, h.hashed⟩
  encoded := List.forall_mem_cons.2 ⟨hencoded, h.encoded⟩
  distinct := List.nodup_cons.2 ⟨hnew, h.distinct⟩

/-- Another payload may take the place of a stored one. -/
theorem Fits.exchange (h : Fits κ hash buckets bucket (front ++ ⟨bytes, old⟩ :: back)) :
    Fits κ hash buckets bucket (front ++ ⟨bytes, payload⟩ :: back) where
  hashed := by simpa [or_imp, forall_and] using h.hashed
  encoded := by simpa [or_imp, forall_and] using h.encoded
  distinct := by simpa using h.distinct

/-- An entry may be taken out of its chain. -/
theorem Fits.unlink (h : Fits κ hash buckets bucket (front ++ ⟨bytes, old⟩ :: back)) :
    Fits κ hash buckets bucket (front ++ back) := by
  have hsub : (front ++ back).Sublist (front ++ ⟨bytes, old⟩ :: back) :=
    (List.Sublist.refl front).append (List.sublist_cons_self _ _)
  exact ⟨fun entry hentry => h.hashed entry (hsub.subset hentry),
    fun entry hentry => h.encoded entry (hsub.subset hentry),
    h.distinct.sublist (hsub.map Entry.key)⟩

end Chain

namespace ChainedMap

variable {κ V : Type} [MapKey κ] {hash : KeyHash} {buckets : Nat} {m : ChainedMap κ V}

/-! ## What the invariant says of a whole map -/

namespace Intact

/-- A key belongs to the bucket that its hash says, modulo their number. -/
theorem bucketOfBytes (h : Intact hash buckets m) (bytes : ByteString) :
    (m.bucketOfBytes bytes : Nat) = (hash.word bytes).toNat % buckets := by
  rw [ChainedMap.bucketOfBytes, ← h.hash_eq, ← h.size_eq]

/-- The chain that a key belongs to fits its bucket. -/
theorem chainOf (h : Intact hash buckets m) (bytes : ByteString) :
    Chain.Fits κ hash buckets ((hash.word bytes).toNat % buckets) (m.chainOf bytes) := by
  rw [← h.bucketOfBytes bytes]
  exact h.chains _ _

/-- An entry anywhere in the map lies in the chain that its key's bytes pick. -/
theorem mem_chainOf (h : Intact hash buckets m) {entry : Entry V}
    (hentry : entry ∈ m.directory.toList.flatten) : entry ∈ m.chainOf entry.key := by
  obtain ⟨chain, hchain, hentry⟩ := List.mem_flatten.1 hentry
  obtain ⟨bucket, hbucket, rfl⟩ := List.getElem_of_mem hchain
  rw [Array.length_toList] at hbucket
  rw [Array.getElem_toList] at hentry
  have hhash := (h.chains bucket hbucket).hashed entry hentry
  rw [← h.bucketOfBytes] at hhash
  simpa only [ChainedMap.chainOf, Fin.getElem_fin, hhash] using hentry

/-- Entries with the same key lie in the same chain, so the keys of a map are distinct because
those of each chain are. -/
theorem distinct (h : Intact hash buckets m) : (Chain.keys m.directory.toList.flatten).Nodup := by
  rw [Chain.keys, List.map_flatten, List.nodup_flatten]
  refine ⟨?_, ?_⟩
  · intro keys hkeys
    obtain ⟨chain, hchain, rfl⟩ := List.mem_map.1 hkeys
    obtain ⟨bucket, hbucket, rfl⟩ := List.getElem_of_mem hchain
    exact (h.chains bucket (by simpa using hbucket)).distinct
  · rw [List.pairwise_map, List.pairwise_iff_getElem]
    intro i j hi hj hij bytes hbytesi hbytesj
    obtain ⟨entry, hentry, rfl⟩ := List.mem_map.1 hbytesi
    obtain ⟨other, hother, hkey⟩ := List.mem_map.1 hbytesj
    have hhashi := (h.chains i (by simpa using hi)).hashed entry (by simpa using hentry)
    have hhashj := (h.chains j (by simpa using hj)).hashed other (by simpa using hother)
    rw [hkey, hhashi] at hhashj
    omega

/-- No chain has more entries than the map counts. -/
theorem length_le (h : Intact hash buckets m) (bytes : ByteString) :
    (m.chainOf bytes).length ≤ m.len := by
  obtain ⟨before, after, -, hold, -⟩ := directory_split m (m.bucketOfBytes bytes)
  rw [h.counted, hold, List.map_append, List.map_cons, List.sum_append, List.sum_cons,
    ChainedMap.chainOf]
  omega

/-- Each stored key is the encoding of one. -/
theorem encoded (h : Intact hash buckets m) :
    ∀ entry ∈ m.directory.toList.flatten, ∃ key : κ, MapKey.encode key = entry.key :=
  fun entry hentry => (h.chainOf entry.key).encoded entry (h.mem_chainOf hentry)

/-! ## What preserves the invariant -/

/-- A chain may be replaced by another that fits its bucket, if the count follows its length. -/
theorem withChain (h : Intact hash buckets m) {bytes : ByteString} {chain : Chain V} {len : Nat}
    (hchain : Chain.Fits κ hash buckets ((hash.word bytes).toNat % buckets) chain)
    (hlen : len + (m.chainOf bytes).length = m.len + chain.length) :
    Intact hash buckets (m.withChain (m.bucketOfBytes bytes) chain len) where
  hash_eq := h.hash_eq
  size_eq := (size_withChain m _ chain len).trans h.size_eq
  chains i hi := by
    rw [size_withChain] at hi
    rw [directory_withChain m _ chain len i hi]
    split
    next heq =>
      rw [← heq, h.bucketOfBytes]
      exact hchain
    next => exact h.chains i hi
  counted := by
    obtain ⟨before, after, -, hold, hnew⟩ := directory_split m (m.bucketOfBytes bytes)
    have hcount := h.counted
    rw [hold, ← ChainedMap.chainOf] at hcount
    rw [hnew]
    simp only [len_withChain, List.map_append, List.map_cons, List.sum_append,
      List.sum_cons] at hcount ⊢
    omega

/-- A new map is intact. -/
theorem create [Allocator] {positive : 0 < buckets}
    (hm : ChainedMap.create hash buckets positive = .ok m) : Intact hash buckets m := by
  rw [of_create_eq_ok hm]
  exact ⟨rfl, by simp, fun _ _ => by simpa using Chain.Fits.nil, by simp⟩

/-- Storing keeps a map intact: it exchanges a payload, or puts an entry in front of its chain. -/
theorem set (h : Intact hash buckets m) (key : κ) (payload : V) :
    Intact hash buckets (m.set key payload).2 := by
  have hfits := h.chainOf (MapKey.encode key)
  rcases Chain.not_mem_keys_or_split (MapKey.encode key) (m.chainOf (MapKey.encode key)) with
    hnew | ⟨front, old, back, hfront, hchain⟩
  · rw [set_of_not_mem hnew]
    refine h.withChain (hfits.cons rfl ⟨key, rfl⟩ hnew) ?_
    rw [List.length_cons]
    omega
  · rw [set_split hchain hfront]
    rw [hchain] at hfits
    refine h.withChain hfits.exchange ?_
    rw [hchain]
    simp

/-- A removal that finds an entry leaves one entry fewer. -/
theorem len_remove (h : Intact hash buckets m) (key : κ) (hfound : (m.remove key).1.isSome) :
    (m.remove key).2.len + 1 = m.len := by
  rcases Chain.not_mem_keys_or_split (MapKey.encode key) (m.chainOf (MapKey.encode key)) with
    hnot | ⟨front, old, back, hfront, hchain⟩
  · rw [remove_of_not_mem hnot] at hfound
    cases hfound
  · have hle := h.length_le (MapKey.encode key)
    rw [hchain, List.length_append, List.length_cons] at hle
    rw [remove_split hchain hfront, len_withChain]
    omega

/-- Removing keeps a map intact. -/
theorem remove (h : Intact hash buckets m) (key : κ) :
    Intact hash buckets (m.remove key).2 := by
  have hfits := h.chainOf (MapKey.encode key)
  rcases Chain.not_mem_keys_or_split (MapKey.encode key) (m.chainOf (MapKey.encode key)) with
    hnot | ⟨front, old, back, hfront, hchain⟩
  · rw [remove_of_not_mem hnot]
    exact h
  · -- The count does not stop at zero: the entry that was found is among those counted.
    have hcount := h.len_remove key (by rw [remove_split hchain hfront]; rfl)
    rw [remove_split hchain hfront] at hcount ⊢
    rw [hchain] at hfits
    refine h.withChain hfits.unlink ?_
    rw [hchain]
    simp only [len_withChain] at hcount
    simp
    omega

/-- A cleared map is intact. -/
theorem clear (h : Intact hash buckets m) : Intact hash buckets m.clear where
  hash_eq := h.hash_eq
  size_eq := by rw [ChainedMap.clear, Array.size_replicate, h.size_eq]
  chains _ _ := by simpa [ChainedMap.clear] using Chain.Fits.nil
  counted := by simp [ChainedMap.clear]

/-- An operation preserves the invariant. -/
theorem apply (h : Intact hash buckets m) (operation : Operation κ V) :
    Intact hash buckets (operation.apply m).1 := by
  cases operation with
  | set key payload => exact h.set key payload
  | remove key => exact h.remove key
  | clear => exact h.clear
  | get | tryGet | getOr | contains => exact h

/-- A run of operations preserves the invariant. -/
theorem run (h : Intact hash buckets m) (operations : List (Operation κ V)) :
    Intact hash buckets (m.run operations).1 := by
  induction operations generalizing m with
  | nil => exact h
  | cons operation operations ih => exact ih (h.apply operation)

end Intact

/-! ## Reachable maps -/

/-- After any run of operations on a new map with any hash, the directory has its buckets, every
entry lies in the bucket of its key's hash, no two entries have the same key, every stored key is
an encoded one, the count is the sum of the lengths of the chains, every key's bucket is inside the
directory, and a removal that finds an entry has one to count down. In particular, a key of text is
stored without a zero byte. -/
theorem reachable_intact [Allocator] {positive : 0 < buckets}
    (hm : ChainedMap.create hash buckets positive = .ok m) (operations : List (Operation κ V)) :
    let reached := (m.run operations).1
    reached.directory.size = buckets ∧
      (∀ bucket (h : bucket < reached.directory.size), ∀ entry ∈ reached.directory[bucket],
        (hash.word entry.key).toNat % buckets = bucket) ∧
      (reached.directory.toList.flatten.map Entry.key).Nodup ∧
      (∀ entry ∈ reached.directory.toList.flatten, ∃ key : κ, MapKey.encode key = entry.key) ∧
      reached.len = (reached.directory.toList.map List.length).sum ∧
      (∀ bytes, (reached.bucketOfBytes bytes : Nat) = (hash.word bytes).toNat % buckets ∧
        (reached.bucketOfBytes bytes : Nat) < buckets) ∧
      (∀ key, (reached.remove key).1.isSome →
        0 < reached.len ∧ (reached.remove key).2.len + 1 = reached.len) ∧
      ∀ text : ChainedMap TextKey V, ChainedMap.create hash buckets positive = .ok text →
        ∀ operations : List (Operation TextKey V),
          ∀ entry ∈ (text.run operations).1.directory.toList.flatten, 0 ∉ entry.key := by
  have h := (Intact.create hm).run operations
  refine ⟨h.size_eq, fun bucket hbucket => (h.chains bucket hbucket).hashed, h.distinct,
    h.encoded, h.counted, fun bytes => ⟨h.bucketOfBytes bytes, ?_⟩, fun key hfound => ?_, ?_⟩
  · rw [h.bucketOfBytes]
    exact Nat.mod_lt _ positive
  · have hlen := h.len_remove key hfound
    exact ⟨by omega, hlen⟩
  · intro text htext operations entry hentry
    obtain ⟨key, hkey⟩ := ((Intact.create htext).run operations).encoded entry hentry
    rw [← hkey]
    exact zero_not_mem_untilZero key.bytes

/-- Three keys in one bucket, one of them cut at its zero byte, stored, replaced and removed. -/
theorem reachable_intact_collisions :
    ∃ m : ChainedMap TextKey UInt64,
      ChainedMap.create (.constant 5) 3 (by decide) = .ok m ∧
      ∃ reached, (m.run [.set ⟨[97]⟩ 1, .set ⟨[98, 0, 99]⟩ 2, .set ⟨[98]⟩ 3, .set ⟨[]⟩ 4,
        .remove ⟨[98]⟩]).1 = reached ∧
      reached.directory = #[[], [], [⟨[], 4⟩, ⟨[97], 1⟩]] ∧
      (reached.directory.toList.flatten.map Entry.key).Nodup ∧
      reached.len = (reached.directory.toList.map List.length).sum ∧
      ∀ entry ∈ reached.directory.toList.flatten, 0 ∉ entry.key := by
  let m : ChainedMap TextKey UInt64 := ⟨.constant 5, #[[], [], []], by decide, 0⟩
  have hm : ChainedMap.create (.constant 5) 3 (by decide) = .ok m := rfl
  refine ⟨m, hm, _, rfl, by decide, ?_⟩
  obtain ⟨-, -, hdistinct, -, hlen, -, -, htext⟩ := reachable_intact hm
    [.set ⟨[97]⟩ 1, .set ⟨[98, 0, 99]⟩ 2, .set ⟨[98]⟩ 3, .set ⟨[]⟩ 4, .remove ⟨[98]⟩]
  exact ⟨hdistinct, hlen, htext m hm _⟩

end ChainedMap

end Containers
