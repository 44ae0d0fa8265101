import Containers.Proofs.GrowableArray.Edits
import Containers.Proofs.GrowableArray.Refinement

/-!
# Full arrays

An array that is made of a given number of items has no spare capacity. A copy of a list gets its
capacity from the length of the list (`ofList_of_granted`). A loop of pushes starts with room for
all items, so no push finds the array full, and after the last one it is (`pushes_of_granted`). A
full array stays full while items are read, replaced and sliced (`Holds.run_keeps`), and the first
insert makes it grow by one step (`Holds.insert_of_full`).
-/

namespace Containers

namespace GrowableArray

variable [Allocator] {α : Type} [Layout α] {a : GrowableArray α} {s : Sequence α} {items : List α}
  {count : UInt64}

/-! ## Creation -/

/-- A buffer is made if its memory is granted. -/
theorem allocate_of_granted
    (hgranted : Allocation.request (Layout.width α) count.toNat = .ok ()) :
    ∃ buffer : Buffer α, Buffer.allocate count = .ok buffer := by
  rw [Buffer.allocate, hgranted]
  exact ⟨_, rfl⟩

/-- A copy of a list is full. -/
theorem ofList_of_granted (hlength : items.length = count.toNat)
    (hgranted : Allocation.request (Layout.width α) count.toNat = .ok ()) :
    ∃ a, ofList items = .ok a ∧ a.Holds ⟨items, count.toNat⟩ := by
  obtain ⟨buffer, hbuffer⟩ := allocate_of_granted (α := α) hgranted
  have ha : ofList items = .ok ⟨buffer.storeAll 0 items, count⟩ := by
    rw [ofList, hlength, saturate_toNat, hbuffer]
    rfl
  have hholds := of_ofList_eq_ok (hlength ▸ count.toNat_lt) ha
  rw [hlength] at hholds
  exact ⟨_, ha, hholds⟩

/-- Pushing items into an array with room for all of them never makes it grow. -/
theorem pushes_of_granted (hlength : items.length = count.toNat)
    (hgranted : Allocation.request (Layout.width α) count.toNat = .ok ()) :
    ∃ fresh : GrowableArray α, withCapacity count = .ok fresh ∧
      ∀ {_ : Allocator} k, ∃ b,
        (items.take k).foldlM push fresh = .ok b ∧ b.Holds ⟨items.take k, count.toNat⟩ := by
  obtain ⟨buffer, hbuffer⟩ := allocate_of_granted (α := α) hgranted
  have hfresh : withCapacity count = .ok (⟨buffer, 0⟩ : GrowableArray α) := by
    rw [withCapacity, hbuffer]
    rfl
  refine ⟨_, hfresh, fun {_} k => (of_withCapacity_eq_ok hfresh).foldlM_push ?_⟩
  have hle := List.length_take_le' k items
  simp only [List.length_nil]
  omega

/-- An array that is filled by pushes is full. -/
theorem ofPushes_of_granted (hlength : items.length = count.toNat)
    (hgranted : Allocation.request (Layout.width α) count.toNat = .ok ()) :
    ∃ a, ofPushes items = .ok a ∧ a.Holds ⟨items, count.toNat⟩ := by
  obtain ⟨fresh, hfresh, hpushes⟩ := pushes_of_granted hlength hgranted
  obtain ⟨a, ha, hholds⟩ :
      ∃ a, Allocation.after 1 ((items.take items.length).foldlM push fresh) = .ok a ∧
        a.Holds ⟨items.take items.length, count.toNat⟩ := hpushes items.length
  rw [List.take_length] at ha hholds
  refine ⟨a, ?_, hholds⟩
  rw [ofPushes, hlength, saturate_toNat, hfresh]
  exact ha

/-! ## The first insert -/

omit [Allocator] [Layout α] in
/-- An operation that leaves the number of items alone. -/
def Operation.Keeps : Operation α → Prop
  | .get _ | .set _ _ | .slice _ _ => True
  | _ => False

/-- An operation that leaves the number of items alone leaves the capacity alone too. -/
theorem Operation.Keeps.step {operation : Operation α} (h : operation.Keeps) (s : Sequence α) :
    (s.step operation).1.items.length = s.items.length ∧
      (s.step operation).1.capacity = s.capacity := by
  cases operation with
  | get | slice => exact ⟨rfl, rfl⟩
  | set i item =>
    simp only [Sequence.step, Sequence.set]
    split
    · exact ⟨List.length_set, rfl⟩
    · exact ⟨rfl, rfl⟩
  | _ => cases h

omit [Allocator] in
/-- A run of such operations leaves the number of items and the capacity alone. -/
theorem Holds.run_keeps {memory : Allocator} (h : a.Holds s) {operations : List (Operation α)}
    (hkeeps : ∀ operation ∈ operations, operation.Keeps) :
    ∃ items, items.length = s.items.length ∧
      (a.run operations).1.Holds ⟨items, s.capacity⟩ := by
  induction operations generalizing a s memory with
  | nil => exact ⟨s.items, rfl, h⟩
  | cons operation operations ih =>
    obtain ⟨hfirst, hrest⟩ := List.forall_mem_cons.1 hkeeps
    have hnext := (h.apply operation).1
    obtain ⟨items, hlength, hlast⟩ := ih hnext hrest
    obtain ⟨hsame, hcapacity⟩ := hfirst.step s
    rw [hsame] at hlength
    rw [hcapacity] at hlast
    exact ⟨items, hlength, hlast⟩

/-- An insert into a full array whose capacity cannot grow is refused the largest word. -/
theorem Holds.insert_of_exhausted (h : a.Holds s) (hfull : s.items.length = s.capacity)
    {i : UInt64} (hi : i.toNat ≤ s.items.length) (hnone : nextCapacity a.capacity = none)
    (item : α) : a.insert i item = .error (.allocation wordMax) := by
  have hcapacity : a.capacity.toNat = s.capacity := h.capacity_eq
  rw [nextCapacity_eq_none, hcapacity] at hnone
  have hroom : s.room = .error (.allocation wordMax) := by
    rw [Sequence.room, if_neg (by omega)]
    dsimp only
    rw [if_neg (by omega)]
  have hinsert := h.insert i item
  rw [Sequence.insert, if_pos hi, hroom] at hinsert
  exact hinsert.to_error

/-- An insert into a full array makes it grow by one step, if memory for that is granted. -/
theorem Holds.insert_of_full (h : a.Holds s) (hfull : s.items.length = s.capacity) {i : UInt64}
    (hi : i.toNat ≤ s.items.length) {grown : UInt64}
    (hgrown : nextCapacity a.capacity = some grown)
    (hgranted : Allocation.request (Layout.width α) grown.toNat = .ok ()) (item : α) :
    ∃ b, a.insert i item = .ok b ∧ b.capacity = grown := by
  have hcapacity : a.capacity.toNat = s.capacity := h.capacity_eq
  rw [nextCapacity_eq_some, hcapacity] at hgrown
  have hword : s.capacity + max 4 (s.capacity / 2) < UInt64.size := hgrown ▸ grown.toNat_lt
  have hroom : s.room = .ok grown.toNat := by
    rw [Sequence.room, if_neg (by omega)]
    dsimp only
    rw [if_pos hword, ← hgrown, hgranted]
    rfl
  have hinsert := h.insert i item
  rw [Sequence.insert, if_pos hi, hroom] at hinsert
  obtain ⟨b, hb, hholds⟩ := hinsert.to_ok
  exact ⟨b, hb, UInt64.toNat_inj.1 hholds.capacity_eq⟩

end GrowableArray

end Containers
