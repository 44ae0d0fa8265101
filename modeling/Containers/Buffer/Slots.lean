import Containers.Buffer.Basic

/-!
# What the operations do to the slots

A buffer is seen through its slots alone. Each operation on a sound buffer, one with a cell behind
every slot that needs memory, has one equation that says what every slot holds afterwards:
`slot?_store`, `slot?_storeAll`, `slot?_move`, `slot?_load`, `slot?_resize`. The equation of a move
says at once that the target slots hold what the source slots held before, and that no other slot
has changed, whichever way the two runs overlap. The equations hold for items of width zero as
well, whose slots all read as the same value.
-/

namespace Containers.Buffer

variable {α : Type} [Layout α]

/-- The memory of a buffer is below the limit of the layouts, and there is a cell behind every slot
of items that take memory and none otherwise. -/
structure Sound (b : Buffer α) : Prop where
  granted : Layout.width α * b.capacity.toNat < Allocation.layoutLimit
  size_eq : b.cells.size = cellCount α b.capacity

/-- Items of width zero have no cells, however many slots there are. -/
theorem cellCount_of_width_zero (h : Layout.width α = 0) (capacity : UInt64) :
    cellCount α capacity = 0 := if_pos h

/-- Items that take memory have a cell for each slot. -/
theorem cellCount_of_width_pos (h : Layout.width α ≠ 0) (capacity : UInt64) :
    cellCount α capacity = capacity.toNat := if_neg h

/-- A sound buffer of items that take memory has as many cells as slots. -/
theorem Sound.size {b : Buffer α} (hb : b.Sound) (h : Layout.width α ≠ 0) :
    b.cells.size = b.capacity.toNat := by
  rw [hb.size_eq, cellCount_of_width_pos h]

/-! ## Reading -/

/-- Each slot of items of width zero reads as the one value of the type. -/
theorem slot?_of_width_zero (h : Layout.width α = 0) (b : Buffer α) (i : Nat) :
    b.slot? i = some (Layout.sole h) := dif_pos h

/-- A slot of items that take memory holds what its cell holds. -/
theorem slot?_of_width_pos (h : Layout.width α ≠ 0) (b : Buffer α) (i : Nat) :
    b.slot? i = b.cells[i]?.join := dif_neg h

/-! ## Cells -/

omit [Layout α] in
/-- Copying cells lowest first does not change their number. -/
theorem size_copyUp (cells : Array (Option α)) (source target count : Nat) :
    (copyUp cells source target count).size = cells.size := by
  induction count generalizing cells source target with
  | zero => rfl
  | succ count ih => simp [copyUp, ih]

omit [Layout α] in
/-- Copying cells highest first does not change their number. -/
theorem size_copyDown (cells : Array (Option α)) (source target count : Nat) :
    (copyDown cells source target count).size = cells.size := by
  induction count generalizing cells with
  | zero => rfl
  | succ count ih => simp [copyDown, ih]

omit [Layout α] in
/-- Copying lowest first is right for a target at or below the source. -/
theorem join_copyUp (cells : Array (Option α)) {source target count : Nat}
    (hle : target ≤ source) (hin : target + count ≤ cells.size) (j : Nat) :
    (copyUp cells source target count)[j]?.join =
      if target ≤ j ∧ j < target + count then cells[j - target + source]?.join
      else cells[j]?.join := by
  induction count generalizing cells source target with
  | zero => rw [copyUp, if_neg (by omega)]
  | succ count ih =>
    rw [copyUp, ih _ (by omega) (by simp; omega)]
    simp only [Array.getElem?_setIfInBounds]
    by_cases hj : j = target
    · subst hj
      rw [if_neg (by omega), if_pos rfl, if_pos (by omega), if_pos (by omega)]
      simp
    · rw [if_neg (c := target = j) (by omega)]
      by_cases hrun : target ≤ j ∧ j < target + (count + 1)
      · rw [if_pos (by omega), if_pos hrun, if_neg (by omega)]
        congr 2
        omega
      · rw [if_neg (by omega), if_neg hrun]

omit [Layout α] in
/-- Copying highest first is right for a target at or above the source. -/
theorem join_copyDown (cells : Array (Option α)) {source target count : Nat}
    (hle : source ≤ target) (hin : target + count ≤ cells.size) (j : Nat) :
    (copyDown cells source target count)[j]?.join =
      if target ≤ j ∧ j < target + count then cells[j - target + source]?.join
      else cells[j]?.join := by
  induction count generalizing cells with
  | zero => rw [copyDown, if_neg (by omega)]
  | succ count ih =>
    rw [copyDown, ih _ (by simp; omega)]
    simp only [Array.getElem?_setIfInBounds]
    by_cases hj : j = target + count
    · subst hj
      rw [if_neg (by omega), if_pos rfl, if_pos (by omega), if_pos (by omega)]
      simp only [Option.join_some]
      congr 2
      omega
    · rw [if_neg (c := target + count = j) (by omega)]
      by_cases hrun : target ≤ j ∧ j < target + (count + 1)
      · rw [if_pos (by omega), if_pos hrun, if_neg (by omega)]
      · rw [if_neg (by omega), if_neg hrun]

/-! ## Operations -/

omit [Layout α] in
@[simp]
theorem capacity_store (b : Buffer α) (i : UInt64) (a : α) :
    (b.store i a).capacity = b.capacity := rfl

omit [Layout α] in
/-- A move does not change the number of slots. -/
@[simp]
theorem capacity_move (b : Buffer α) (source target count : UInt64) :
    (b.move source target count).capacity = b.capacity := by
  unfold move
  split <;> rfl

/-- A sound buffer is sound after a slot has been written. -/
theorem sound_store {b : Buffer α} (hb : b.Sound) (i : UInt64) (a : α) :
    (b.store i a).Sound where
  granted := hb.granted
  size_eq := by simpa [store] using hb.size_eq

/-- A sound buffer is sound after a move, in either direction. -/
theorem sound_move {b : Buffer α} (hb : b.Sound) (source target count : UInt64) :
    (b.move source target count).Sound where
  granted := by simpa using hb.granted
  size_eq := by
    unfold move
    split <;> simpa [size_copyUp, size_copyDown] using hb.size_eq

/-- Writing a slot changes that slot only. -/
theorem slot?_store {b : Buffer α} (hb : b.Sound) {i : UInt64} (hi : i < b.capacity) (a : α)
    (j : Nat) : (b.store i a).slot? j = if j = i.toNat then some a else b.slot? j := by
  by_cases h : Layout.width α = 0
  · simp only [slot?_of_width_zero h, Layout.eq_sole h a, ite_self]
  · have hsize := hb.size h
    have hlt := UInt64.lt_iff_toNat_lt.1 hi
    simp only [slot?_of_width_pos h, store, Array.getElem?_setIfInBounds]
    by_cases hj : j = i.toNat
    · subst hj
      rw [if_pos rfl, if_pos rfl, if_pos (by omega)]
      rfl
    · rw [if_neg (Ne.symm hj), if_neg hj]

/-- A move inside the buffer copies the source slots as they were before it to the target slots,
and changes no other slot. -/
theorem slot?_move {b : Buffer α} (hb : b.Sound) {source target count : UInt64}
    (hsource : source.toNat + count.toNat ≤ b.capacity.toNat)
    (htarget : target.toNat + count.toNat ≤ b.capacity.toNat) (j : Nat) :
    (b.move source target count).slot? j =
      if target.toNat ≤ j ∧ j < target.toNat + count.toNat then
        b.slot? (j - target.toNat + source.toNat)
      else b.slot? j := by
  by_cases h : Layout.width α = 0
  · simp only [slot?_of_width_zero h, ite_self]
  · have hsize := hb.size h
    have hinside :
        min count.toNat (b.cells.size - max source.toNat target.toNat) = count.toNat := by omega
    simp only [slot?_of_width_pos h, move, hinside]
    split
    next hle => exact join_copyUp b.cells (UInt64.le_iff_toNat_le.1 hle) (by omega) j
    next hgt =>
      have := mt UInt64.le_iff_toNat_le.2 hgt
      exact join_copyDown b.cells (by omega) (by omega) j

/-- A buffer is made exactly if the request for its size is granted. -/
theorem map_allocate [Allocator] (capacity : UInt64) :
    (allocate (α := α) capacity).map (fun _ => ()) =
      Allocation.request (Layout.width α) capacity.toNat := by
  unfold allocate
  cases Allocation.request (Layout.width α) capacity.toNat <;> rfl

/-- The size of a block that has been granted has a layout. -/
theorem Sound.blockSize {b : Buffer α} (hb : b.Sound) :
    Allocation.blockSize Allocation.layoutLimit (Layout.width α) b.capacity.toNat =
      .ok (Layout.width α * b.capacity.toNat) :=
  Allocation.blockSize_of_lt hb.granted

/-- A buffer changes its size exactly if the request for the new one is granted. -/
theorem map_resize [Allocator] {b : Buffer α} (hb : b.Sound) (capacity : UInt64) :
    (b.resize capacity).map (fun _ => ()) =
      Allocation.request (Layout.width α) capacity.toNat := by
  rw [resize, hb.blockSize]
  cases Allocation.request (Layout.width α) capacity.toNat <;> rfl

/-- A buffer is made only if its size is granted. It has the capacity asked for and is sound. -/
theorem of_allocate_eq_ok {_ : Allocator} {capacity : UInt64} {b : Buffer α}
    (hb : allocate capacity = .ok b) :
    Allocation.request (Layout.width α) capacity.toNat = .ok () ∧ b.capacity = capacity ∧
      b.Sound := by
  obtain ⟨_, hrequest, hdone⟩ := of_bind_eq_ok hb
  cases hdone
  exact ⟨hrequest, rfl, Allocation.lt_of_request_eq_ok hrequest, Array.size_replicate⟩

/-- Growing keeps what every old slot holds. -/
theorem slot?_resize {_ : Allocator} {b grown : Buffer α} (hb : b.Sound) {capacity : UInt64}
    (hle : b.capacity ≤ capacity) (hgrown : b.resize capacity = .ok grown) :
    grown.capacity = capacity ∧ grown.Sound ∧
      ∀ j, j < b.capacity.toNat → grown.slot? j = b.slot? j := by
  obtain ⟨_, -, hnew⟩ := of_bind_eq_ok hgrown
  obtain ⟨_, hrequest, hdone⟩ := of_bind_eq_ok hnew
  cases hdone
  have hcount := UInt64.le_iff_toNat_le.1 hle
  refine ⟨rfl, ⟨Allocation.lt_of_request_eq_ok hrequest, ?_⟩, fun j hj => ?_⟩
  · by_cases h : Layout.width α = 0
    · simp [cellCount_of_width_zero h]
    · have hsize := hb.size h
      simp [cellCount_of_width_pos h]
      omega
  · by_cases h : Layout.width α = 0
    · simp only [slot?_of_width_zero h]
    · have hsize := hb.size h
      simp only [slot?_of_width_pos h, cellCount_of_width_pos h]
      rw [Array.getElem?_append_left (by simp; omega), Array.getElem?_extract, if_pos (by omega),
        Nat.zero_add]

/-- Writing items from a slot on writes that run of slots and no other. -/
theorem slot?_storeAll {b : Buffer α} (hb : b.Sound) {start : UInt64} {items : List α}
    (hroom : start.toNat + items.length ≤ b.capacity.toNat) :
    (b.storeAll start items).capacity = b.capacity ∧ (b.storeAll start items).Sound ∧
      ∀ j, (b.storeAll start items).slot? j =
        if start.toNat ≤ j ∧ j < start.toNat + items.length then items[j - start.toNat]?
        else b.slot? j := by
  induction items generalizing b start with
  | nil => exact ⟨rfl, hb, fun j => by rw [storeAll, if_neg (by simp)]⟩
  | cons a items ih =>
    rw [List.length_cons] at hroom
    have hstart : start < b.capacity := UInt64.lt_iff_toNat_lt.2 (by omega)
    have hnext := toNat_succ_of_lt (UInt64.lt_iff_toNat_lt.1 hstart)
    have hrest : (start + 1).toNat + items.length ≤ (b.store start a).capacity.toNat := by
      rw [hnext, capacity_store]
      omega
    obtain ⟨hcap, hsound, hslot⟩ := ih (sound_store hb start a) hrest
    refine ⟨hcap, hsound, fun j => ?_⟩
    rw [storeAll, hslot, slot?_store hb hstart, hnext, List.length_cons]
    rcases Nat.lt_trichotomy j start.toNat with hj | hj | hj
    · rw [if_neg (by omega), if_neg (by omega), if_neg (by omega)]
    · rw [if_neg (by omega), if_pos hj, if_pos (by omega), hj, Nat.sub_self,
        List.getElem?_cons_zero]
    · obtain ⟨k, rfl⟩ := Nat.exists_eq_add_of_lt hj
      by_cases hk : k < items.length
      · rw [if_pos (by omega), if_pos (by omega), Nat.add_assoc, Nat.add_sub_cancel_left,
          List.getElem?_cons_succ, Nat.add_comm k 1, ← Nat.add_assoc, Nat.add_sub_cancel_left]
      · rw [if_neg (by omega), if_neg (by omega), if_neg (by omega)]

/-- Filling the front of a buffer copies a run of slots there and changes no other slot. -/
theorem slot?_load {b other : Buffer α} (hb : b.Sound) (hother : other.Sound)
    {start count : UInt64} (hsource : start.toNat + count.toNat ≤ other.capacity.toNat)
    (htarget : count.toNat ≤ b.capacity.toNat) :
    (b.load other start count).capacity = b.capacity ∧ (b.load other start count).Sound ∧
      ∀ j, (b.load other start count).slot? j =
        if j < count.toNat then other.slot? (start.toNat + j) else b.slot? j := by
  by_cases h : Layout.width α = 0
  · refine ⟨rfl, ⟨hb.granted, ?_⟩, fun j => by simp only [slot?_of_width_zero h, ite_self]⟩
    have hsize := hb.size_eq
    have hotherSize := hother.size_eq
    simp only [cellCount_of_width_zero h, Array.size_eq_zero_iff] at hsize hotherSize
    simp [load, hsize, hotherSize, cellCount_of_width_zero h]
  · have hsize := hb.size h
    have hotherSize := hother.size h
    have hpart : (other.cells.extract start.toNat (start.toNat + count.toNat)).size
        = count.toNat := by
      rw [Array.size_extract]
      omega
    refine ⟨rfl, ⟨hb.granted, ?_⟩, fun j => ?_⟩
    · simp only [cellCount_of_width_pos h]
      simp only [load, Array.size_append, hpart, Array.size_extract]
      omega
    · simp only [slot?_of_width_pos h, load, Array.getElem?_append, hpart,
        Array.getElem?_extract]
      split
      next hj => rw [if_pos (by omega)]
      next hj =>
        split
        next => rw [show count.toNat + (j - count.toNat) = j by omega]
        next hout => rw [Array.getElem?_eq_none (by omega)]

end Containers.Buffer
