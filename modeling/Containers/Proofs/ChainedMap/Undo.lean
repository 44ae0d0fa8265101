import Containers.Proofs.ChainedMap.Invariant

/-!
# Storing and removing undo each other

An operation changes one chain, so what undoes it has to give back that chain, entry by entry, and
the count (`withChain_withChain`, `withChain_self`). A new key goes to the head of its chain and is
taken from there again (`remove_set`). A payload that is replaced can be put back where it stood
(`set_set`). An entry that is removed cannot: stored again, it comes to the head of its chain, and
everything else is as before (`Intact.set_remove`).
-/

namespace Containers.ChainedMap

variable {κ V : Type} [MapKey κ] {hash : KeyHash} {buckets : Nat} {m : ChainedMap κ V} {key : κ}

/-- Removing a key that has just come into the map gives back the map without it. -/
theorem remove_set (hmissing : m.lookup (MapKey.encode key) = none) (payload : V) :
    (m.set key payload).2.remove key = (some payload, m) := by
  rw [set_of_not_mem (not_mem_of_lookup hmissing)]
  let stored := m.withChain (m.bucketOf key)
    (⟨MapKey.encode key, payload⟩ :: m.chainOf (MapKey.encode key)) (m.len + 1)
  have hhead : stored.chainOf (MapKey.encode key) =
      [] ++ ⟨MapKey.encode key, payload⟩ :: m.chainOf (MapKey.encode key) :=
    m.chainOf_withChain_self _ _ _
  calc stored.remove key
      = (some payload, stored.withChain (stored.bucketOf key) (m.chainOf (MapKey.encode key))
          (stored.len - 1)) := remove_split hhead (by simp)
    _ = (some payload, m.withChain (m.bucketOf key) (m.chainOf (MapKey.encode key)) m.len) :=
        congrArg _ (m.withChain_withChain _ _ rfl _ _)
    _ = (some payload, m) := congrArg _ (m.withChain_chainOf _)

/-- Putting back a payload that has been replaced gives back the map as it was. -/
theorem set_set {old : V} (hpresent : m.lookup (MapKey.encode key) = some old) (payload : V) :
    (m.set key payload).1 = some old ∧ (m.set key payload).2.set key old = (some payload, m) := by
  obtain ⟨front, back, hchain, hfront⟩ := split_of_lookup hpresent
  have hreplaced := m.chainOf_withChain_self (front ++ ⟨MapKey.encode key, payload⟩ :: back) m.len
    (MapKey.encode key)
  rw [set_split hchain hfront]
  refine ⟨rfl, ?_⟩
  dsimp only [bucketOf]
  rw [set_split hreplaced hfront, bucketOf, withChain_withChain _ _ _ rfl, len_withChain, ← hchain,
    withChain_chainOf]

namespace Intact

/-- A key that has been removed is missing. -/
theorem lookup_remove_self (h : Intact hash buckets m) (key : κ) :
    (m.remove key).2.lookup (MapKey.encode key) = none := by
  rw [(m.lookup_remove key (h.chainOf _).distinct).2, Function.update_self]

/-- Removing a key again does nothing. -/
theorem remove_remove (h : Intact hash buckets m) (key : κ) :
    (m.remove key).2.remove key = (none, (m.remove key).2) :=
  remove_of_not_mem (not_mem_of_lookup (h.lookup_remove_self key))

/-- Storing a payload again under a key that has been removed gives back the map with the entry of
the key at the head of its chain. -/
theorem set_remove (h : Intact hash buckets m) {old : V}
    (hpresent : m.lookup (MapKey.encode key) = some old) :
    ∃ front back, m.chainOf (MapKey.encode key) = front ++ ⟨MapKey.encode key, old⟩ :: back ∧
      (m.remove key).1 = some old ∧
      (m.remove key).2.set key old =
        (none,
          m.withChain (m.bucketOf key) (⟨MapKey.encode key, old⟩ :: (front ++ back)) m.len) := by
  obtain ⟨front, back, hchain, hfront⟩ := split_of_lookup hpresent
  have hremove := remove_split hchain hfront
  have hcount := h.len_remove key (by rw [hremove]; rfl)
  have hmissing := not_mem_of_lookup (h.lookup_remove_self key)
  refine ⟨front, back, hchain, by rw [hremove], ?_⟩
  rw [set_of_not_mem hmissing, hcount, hremove]
  dsimp only [bucketOf]
  rw [chainOf_withChain_self, withChain_withChain _ _ _ rfl]

end Intact

/-- Storing and removing undo each other exactly, after any run of operations on a new map. A key
that is missing can be stored and removed again, which gives the payload and the map as it was. A
key that is present can get another payload and its old one back, which gives both payloads and the
map as it was. If it is removed and stored again instead, its entry comes to the head of its chain;
the others of that chain keep their order, and the other chains and the count are as they were. A
key that is removed a second time is not there, and nothing happens. -/
theorem set_remove_undo [Allocator] {positive : 0 < buckets}
    (hm : ChainedMap.create hash buckets positive = .ok m) (operations : List (Operation κ V)) :
    let reached := (m.run operations).1
    (∀ key payload, reached.get? key = none →
      (reached.set key payload).1 = none ∧
        (reached.set key payload).2.remove key = (some payload, reached)) ∧
    (∀ key old payload, reached.get? key = some old →
      (reached.set key payload).1 = some old ∧
        (reached.set key payload).2.set key old = (some payload, reached)) ∧
    (∀ key old, reached.get? key = some old →
      ∃ front back,
        reached.chainOf (MapKey.encode key) = front ++ ⟨MapKey.encode key, old⟩ :: back ∧
        (reached.remove key).1 = some old ∧
        (reached.remove key).2.set key old =
          (none, reached.withChain (reached.bucketOf key)
            (⟨MapKey.encode key, old⟩ :: (front ++ back)) reached.len)) ∧
    ∀ key, (reached.remove key).2.remove key = (none, (reached.remove key).2) := by
  intro reached
  have h : Intact hash buckets reached := (Intact.create hm).run operations
  refine ⟨fun key payload hmissing => ⟨?_, remove_set hmissing payload⟩,
    fun key old payload hpresent => set_set hpresent payload,
    fun key old hpresent => h.set_remove hpresent, h.remove_remove⟩
  rw [(reached.lookup_set key payload).1]
  exact hmissing

/-- Three keys in one chain: a new one comes and goes, the middle one gets another payload and its
old one back, and is removed and stored again. -/
theorem set_remove_undo_middle :
    ∃ m : ChainedMap (Scalar 1) UInt64, create (.constant 7) 2 (by decide) = .ok m ∧
      ∃ reached, (m.run [.set 1 10, .set 2 20, .set 3 30]).1 = reached ∧
        reached.directory = #[[], [⟨[3], 30⟩, ⟨[2], 20⟩, ⟨[1], 10⟩]] ∧
        (reached.set 4 40).2.remove 4 = (some 40, reached) ∧
        (reached.set 2 25).2.set 2 20 = (some 25, reached) ∧
        (reached.remove 2).2.remove 2 = (none, (reached.remove 2).2) ∧
        ∃ front back, reached.chainOf [2] = front ++ ⟨[2], 20⟩ :: back ∧
          (reached.remove 2).2.set 2 20 =
            (none, reached.withChain (reached.bucketOf 2) (⟨[2], 20⟩ :: (front ++ back))
              reached.len) ∧
          ((reached.remove 2).2.set 2 20).2.directory =
            #[[], [⟨[2], 20⟩, ⟨[3], 30⟩, ⟨[1], 10⟩]] := by
  let m : ChainedMap (Scalar 1) UInt64 := ⟨.constant 7, #[[], []], by decide, 0⟩
  have hm : create (.constant 7) 2 (by decide) = .ok m := rfl
  obtain ⟨hmissing, hpresent, hback, htwice⟩ :=
    set_remove_undo hm [.set 1 10, .set 2 20, .set 3 30]
  obtain ⟨front, back, hchain, -, hagain⟩ := hback 2 20 (by decide)
  exact ⟨m, hm, _, rfl, by decide, (hmissing 4 40 (by decide)).2, (hpresent 2 20 25 (by decide)).2,
    htwice 2, front, back, hchain, hagain, by decide⟩

end Containers.ChainedMap
