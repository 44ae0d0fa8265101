import Containers.ChainedMap.InPlace
import Containers.Proofs.ChainedMap.Lookup

/-!
# Storing in place changes a map at once or not at all

The memory of a new entry is asked for before the first change (`InPlace.store`). A refused request
leaves the map as it was, whichever of the two requests it is, and what follows the requests cannot
fail. So storing in place comes to the same as `ChainedMap.store` does (`InPlace.store_eq`).
-/

namespace Containers

variable {κ V : Type}

/-- A new entry has its key and its payload. -/
theorem Entry.of_make_eq_ok [Allocator] [Layout V] {key : ByteString} {payload : V}
    {entry : Entry V} (h : Entry.make key payload = .ok entry) : entry = ⟨key, payload⟩ := by
  obtain ⟨_, -, hsingle⟩ := of_bind_eq_ok h
  exact (ExactVector.of_single_eq_ok hsingle).symm

/-- The usual allocator has room for an entry of ordinary size if it has room for its key. -/
theorem Entry.make_eq [Layout V] (h : Layout.width (Entry V) < Allocation.ceiling)
    (key : ByteString) (payload : V) :
    Entry.make key payload = if key.length < Allocation.ceiling then .ok ⟨key, payload⟩
      else .error (.ofRequest 1 key.length) := by
  rw [Entry.make, Allocation.after_usual, ExactVector.single_eq_ok h, Allocation.request_eq,
    Nat.one_mul]
  split <;> rfl

namespace InPlace

/-- Linking an entry puts it in front of its chain and counts it. -/
theorem link_eq (m : ChainedMap κ V) (entry : Entry V) :
    link entry m = commit m (.ok ((), m.withChain (m.bucketOfBytes entry.key)
      (entry :: m.chainOf entry.key) (m.len + 1))) := by
  have htwice := m.withChain_withChain [] m.len (rfl : m.bucketOfBytes entry.key = _)
    (entry :: m.chainOf entry.key) (m.len + 1)
  rw [← htwice]
  rfl

/-- Storing in place comes to the changed map, or to a fault with the map as it was. -/
theorem store_eq [Allocator] [Layout V] [MapKey κ] (m : ChainedMap κ V) (key : κ) (payload : V) :
    store key payload m = commit m (m.store key payload) := by
  rw [store, get_bind, ChainedMap.store_eq,
    show m.directory[m.bucketOf key] = m.chainOf (MapKey.encode key) from rfl]
  cases hfound : m.lookup (MapKey.encode key) with
  | some old =>
    obtain ⟨front, back, hchain, hfront⟩ := ChainedMap.split_of_lookup hfound
    rw [ChainedMap.set_split hchain hfront, hchain, Chain.exchange?_split hfront]
    rfl
  | none =>
    have hnot := ChainedMap.not_mem_of_lookup hfound
    rw [ChainedMap.set_of_not_mem hnot, Chain.exchange?_of_not_mem hnot]
    dsimp only
    rw [check_bind]
    cases hmade : Entry.make (MapKey.encode key) payload with
    | error fault => rfl
    | ok entry =>
      obtain rfl := Entry.of_make_eq_ok hmade
      exact commit_bind _ (link_eq m ⟨MapKey.encode key, payload⟩)

end InPlace

end Containers
