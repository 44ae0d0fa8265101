import Containers.GrowableArray.InPlace
import Containers.Proofs.GrowableArray.Refinement

/-!
# When memory is refused

The usual allocator refuses blocks from `Allocation.ceiling` bytes on, and nothing else. What a
new array costs is the size of its slots (`Costs`), so it is refused exactly if they do not fit
below the ceiling, whether the layout of the block or the allocator refuses it
(`Allocation.refuses_iff_bind`). An insert costs something only if the array is full, and then it
costs the slots of the next capacity. The slots that an array has were granted once, when it was
made (`Created.granted`) or when it grew (`granted_step`), so they lie below the ceiling: the
capacity of an array whose items take memory can always grow by one step as a number, and only a
block can be too large. Items of width zero are the other way around. An insert in place that runs
into such a fault has not changed anything yet.
-/

namespace Containers

/-! ## Refused sizes -/

namespace Allocation

/-- One of the two steps of a request fails with this fault: there is no layout below the limit for
a block of this size, or the allocator does not grant the block. -/
def Refuses (limit width count : Nat) (fault : Fault) : Prop :=
  blockSize limit width count = .error fault ∨
    ∃ size, blockSize limit width count = .ok size ∧ grant size = .error fault

/-- One of the two steps fails exactly if they fail one after the other. -/
theorem refuses_iff_bind {limit width count : Nat} {fault : Fault} :
    Refuses limit width count fault ↔ (blockSize limit width count >>= grant) = .error fault := by
  unfold Refuses
  cases blockSize limit width count with
  | error other => simp [bind, Except.bind]
  | ok size => simp [bind, Except.bind]

end Allocation

/-- A computation of values that take `size` bytes: it has a value if the size is below the ceiling,
and otherwise reports the size, cut off at the largest word. -/
structure Costs {β : Type} (size : Nat) (result : Except Fault β) : Prop where
  ok_iff : (∃ b, result = .ok b) ↔ size < Allocation.ceiling
  error_iff : ∀ fault, result = .error fault ↔
    Allocation.ceiling ≤ size ∧
      ∃ requested, fault = .allocation requested ∧ requested.toNat = min size (UInt64.size - 1)

namespace Costs

variable {β γ : Type} {width count : Nat}

/-- The fault of a request reports the size of the block, cut off at the largest word. -/
theorem ofRequest_iff {fault : Fault} :
    fault = .ofRequest width count ↔
      ∃ requested, fault = .allocation requested ∧
        requested.toNat = min (width * count) (UInt64.size - 1) := by
  rw [Fault.ofRequest]
  constructor
  · rintro rfl
    exact ⟨_, rfl, toNat_saturate _⟩
  · rintro ⟨requested, rfl, hrequested⟩
    rw [← toNat_saturate, UInt64.toNat_inj] at hrequested
    rw [hrequested]

/-- A request costs the size of its block. -/
theorem request (width count : Nat) : Costs (width * count) (Allocation.request width count) := by
  rw [Allocation.request_eq]
  by_cases h : width * count < Allocation.ceiling
  · rw [if_pos h]
    exact ⟨by simp [h], fun fault => by simp [Nat.not_le_of_lt h]⟩
  · rw [if_neg h]
    refine ⟨by simp [h], fun fault => ?_⟩
    rw [← ofRequest_iff]
    simp [Nat.le_of_not_lt h, eq_comm]

/-- What is made of a value costs nothing more. -/
theorem bind_pure {size : Nat} {result : Except Fault β} (h : Costs size result) (f : β → γ) :
    Costs size (result >>= fun b => pure (f b)) where
  ok_iff := by
    rw [← h.ok_iff]
    cases result <;> simp [bind, Except.bind, pure, Except.pure]
  error_iff fault := by
    rw [← h.error_iff]
    cases result <;> simp [bind, Except.bind, pure, Except.pure]

end Costs

/-! ## New arrays -/

namespace GrowableArray

variable {α : Type} [Layout α] {a : GrowableArray α} {s : Sequence α}

/-- A way to make a new array. -/
inductive Creation (α : Type) where
  /-- An empty array with room for `count` items. -/
  | withCapacity (count : UInt64)
  /-- A copy of a list. -/
  | ofList (items : List α)
  /-- A copy of `count` items of another array, from position `i` on. -/
  | slice (i count : UInt64)

namespace Creation

omit [Layout α] in
/-- The number of slots of the new array. -/
def slots : Creation α → Nat
  | .withCapacity count | .slice _ count => count.toNat
  | .ofList items => items.length

omit [Layout α] in
/-- The items to copy are there: the length of a list is a word, and a range lies in the other
array. -/
def InRange (source : GrowableArray α) : Creation α → Prop
  | .withCapacity _ => True
  | .ofList items => items.length < UInt64.size
  | .slice i count => i.toNat + count.toNat ≤ source.len.toNat

/-- The new array. -/
def make (source : GrowableArray α) : Creation α → Except Fault (GrowableArray α)
  | .withCapacity count => GrowableArray.withCapacity count
  | .ofList items => GrowableArray.ofList items
  | .slice i count => source.slice i count

end Creation

/-- A new buffer costs its slots. -/
theorem costs_allocate (capacity : UInt64) :
    Costs (Layout.width α * capacity.toNat) (Buffer.allocate (α := α) capacity) :=
  (Costs.request _ _).bind_pure _

/-- A copy of a list costs as many slots as it has items. -/
theorem costs_ofList {items : List α} (hlength : items.length < UInt64.size) :
    Costs (Layout.width α * items.length) (ofList items) := by
  have hcosts := costs_allocate (α := α) (saturate items.length)
  rw [toNat_saturate, Nat.min_eq_left (by omega)] at hcosts
  exact hcosts.bind_pure _

/-- A new array costs its slots. -/
theorem Holds.costs_make (h : a.Holds s) {creation : Creation α} (hrange : creation.InRange a) :
    Costs (Layout.width α * creation.slots) (creation.make a) := by
  cases creation with
  | withCapacity count => exact (costs_allocate count).bind_pure _
  | ofList items => exact costs_ofList hrange
  | slice i count =>
    have hin : i.toNat + count.toNat ≤ s.items.length := h.len_eq ▸ hrange
    show Costs _ (a.slice i count)
    rw [h.slice_eq hin]
    exact (costs_allocate count).bind_pure _

/-- A range that is not in the array is reported as such. -/
theorem Holds.slice_of_not_inRange (h : a.Holds s) {i count : UInt64}
    (hrange : ¬ (Creation.slice i count : Creation α).InRange a) :
    a.slice i count = .error (.ofRange i count a.len) := by
  have hout : ¬ i.toNat + count.toNat ≤ s.items.length := by
    rw [← h.len_eq]
    exact hrange
  rcases h.checkedStop i count with ⟨_, -, -, hin⟩ | ⟨herror, -⟩
  · exact absurd hin hout
  · rw [GrowableArray.slice, herror, h.ofRange]
    rfl

/-! ## Inserting -/

/-- The slots of a new array are below the ceiling. -/
theorem Created.granted {items : List α} {capacity : UInt64} (h : Created a items capacity) :
    Layout.width α * capacity.toNat < Allocation.ceiling := by
  cases h with
  | empty turn h | withCapacity turn h =>
    obtain ⟨buffer, hbuffer, -⟩ := of_bind_eq_ok h
    exact Allocation.request_eq_ok.1 (Buffer.of_allocate_eq_ok hbuffer).1
  | ofList turn hlength h =>
    obtain ⟨buffer, hbuffer, -⟩ := of_bind_eq_ok h
    have hgranted := Allocation.request_eq_ok.1 (Buffer.of_allocate_eq_ok hbuffer).1
    rwa [toNat_saturate, Nat.min_eq_left (by omega), ← UInt64.toNat_ofNat_of_lt' hlength]
      at hgranted
  | slice turn later hsource operations hlast h =>
    cases hlast
    exact Allocation.request_eq_ok.1 ((hsource.holds.run operations).1.of_slice_eq_ok h).2

/-- An operation on slots below the ceiling leads to slots below the ceiling: only an insert changes
their number, and it has asked for the new ones. -/
theorem granted_step (hgranted : Layout.width α * s.capacity < Allocation.ceiling)
    (operation : Operation α) :
    Layout.width α * (s.step operation).1.capacity < Allocation.ceiling := by
  have hinsert : ∀ i item,
      Layout.width α * (s.settle (s.insert i item)).1.capacity < Allocation.ceiling := by
    intro i item
    unfold Sequence.insert
    split
    · cases hroom : s.room with
      | error fault => exact hgranted
      | ok capacity =>
        rcases Sequence.of_room_eq_ok hroom with ⟨-, rfl⟩ | ⟨-, -, hrequest⟩
        · exact hgranted
        · exact Allocation.request_eq_ok.1 hrequest
    · exact hgranted
  cases operation with
  | get | slice => exact hgranted
  | set i item =>
    simp only [Sequence.step, Sequence.set]
    split <;> exact hgranted
  | insert i item => exact hinsert i.toNat item
  | push item => exact hinsert s.items.length item
  | remove i count =>
    simp only [Sequence.step, Sequence.remove]
    split <;> exact hgranted

/-- A run of operations on slots below the ceiling leads to slots below the ceiling. -/
theorem granted_run (hgranted : Layout.width α * s.capacity < Allocation.ceiling)
    (operations : List (Operation α)) :
    Layout.width α * (s.run operations).1.capacity < Allocation.ceiling := by
  induction operations generalizing s with
  | nil => exact hgranted
  | cons operation operations ih => exact ih (granted_step hgranted operation)

/-- A capacity whose slots take memory and have been granted is far from the largest word. -/
theorem nextCapacity_ne_none {width : Nat} {capacity : UInt64} (hwidth : 1 ≤ width)
    (hgranted : width * capacity.toNat < Allocation.ceiling) : nextCapacity capacity ≠ none := by
  have hle : capacity.toNat ≤ width * capacity.toNat := Nat.le_mul_of_pos_left _ hwidth
  rw [Ne, nextCapacity_eq_none, UInt64.size]
  rw [Allocation.ceiling] at hgranted
  omega

/-- Growing a buffer costs all slots of the new one. -/
theorem costs_resize {b : Buffer α} (hb : b.Sound) (capacity : UInt64) :
    Costs (Layout.width α * capacity.toNat) (b.resize capacity) := by
  rw [Buffer.resize, hb.blockSize]
  exact (Costs.request _ _).bind_pure _

/-- The growth of a full array of this capacity is refused, with this number of bytes: the slots of
the next capacity take memory and reach the ceiling, or they take none and the next capacity is no
word. -/
def GrowthRefused (width : Nat) (capacity requested : UInt64) : Prop :=
  (1 ≤ width ∧ ∃ grown, nextCapacity capacity = some grown ∧
    Allocation.ceiling ≤ width * grown.toNat ∧
      requested.toNat = min (width * grown.toNat) (UInt64.size - 1)) ∨
  (width = 0 ∧ nextCapacity capacity = none ∧ requested = wordMax)

/-- A buffer below the ceiling is refused its growth for one of these two reasons only. -/
theorem grown_eq_error_iff {b : Buffer α} (hb : b.Sound)
    (hgranted : Layout.width α * b.capacity.toNat < Allocation.ceiling) {requested : UInt64} :
    b.grown = .error (.allocation requested) ↔
      GrowthRefused (Layout.width α) b.capacity requested := by
  rw [Buffer.grown, GrowthRefused]
  cases hnext : nextCapacity b.capacity with
  | none =>
    have hwidth : ¬ 1 ≤ Layout.width α := fun hwidth =>
      nextCapacity_ne_none hwidth hgranted hnext
    simp [Nat.eq_zero_of_not_pos hwidth, eq_comm]
  | some grown =>
    simp only [(costs_resize hb grown).error_iff]
    by_cases hwidth : Layout.width α = 0
    · simp [hwidth, Allocation.ceiling]
    · simp [Nat.one_le_iff_ne_zero.2 hwidth, hwidth]

/-- An insert is refused memory exactly if its position is in the array, or the end of it, and the
array is full and refused its growth. -/
theorem Holds.insert_eq_error_iff (h : a.Holds s)
    (hgranted : Layout.width α * a.capacity.toNat < Allocation.ceiling) {i : UInt64} {item : α}
    {requested : UInt64} :
    a.insert i item = .error (.allocation requested) ↔
      i ≤ a.len ∧ a.len = a.capacity ∧
        GrowthRefused (Layout.width α) a.capacity requested := by
  rw [show a.capacity = a.buffer.capacity from rfl, ← grown_eq_error_iff h.sound hgranted]
  obtain ⟨buffer, len⟩ := a
  rw [GrowableArray.insert, Buffer.withRoom]
  by_cases hout : len < i
  · have hnot : ¬ i ≤ len := UInt64.not_le.2 hout
    simp [hout, hnot, Fault.ofRange, throw, throwThe, MonadExceptOf.throw, bind, Except.bind]
  · have hle : i ≤ len := UInt64.not_lt.1 hout
    simp only [if_neg hout, hle, true_and]
    by_cases hfull : len = buffer.capacity
    · simp only [if_pos hfull]
      cases buffer.grown <;> simp [bind, Except.bind, pure, Except.pure, hfull]
    · simp [hfull, bind, Except.bind, pure, Except.pure]

/-- A fault in an insert comes before its first change. -/
theorem of_insertInPlace_eq_error {i : UInt64} {item : α} {fault : Fault}
    (h : a.insert i item = .error fault) : InPlace.insert i item a = (.error fault, a) := by
  rw [InPlace.insert_eq, h]
  rfl

/-- Memory is refused where the slots reach the ceiling and nowhere else. For every run of
operations on a new array: making a new array costs its slots, which the layout of the block and the
allocator refuse alike, so items of width zero are never refused; a range that is not in the array
is reported as such. An insert is refused memory exactly if its position is not behind the end and
the full array is refused its growth. The slots of an array whose items take memory are below the
ceiling, so its next capacity is a word. A refused insert has left length, capacity and items of the
array as they were, and every operation does what it did before. -/
theorem memory_refused_exactly {items : List α} {capacity : UInt64} (h : Created a items capacity)
    (operations : List (Operation α)) :
    let reached := (a.run operations).1
    let width := Layout.width α
    (∀ creation : Creation α, creation.InRange reached →
      Costs (width * creation.slots) (creation.make reached) ∧
        (width = 0 → ∃ made, creation.make reached = .ok made)) ∧
    (∀ i count, ¬ (Creation.slice i count : Creation α).InRange reached →
      reached.slice i count = .error (.ofRange i count reached.len)) ∧
    (∀ limit, Allocation.ceiling ≤ limit → limit ≤ UInt64.size → ∀ count fault,
      Allocation.Refuses limit width count fault ↔
        Allocation.ceiling ≤ width * count ∧ ∃ requested, fault = .allocation requested ∧
          requested.toNat = min (width * count) (UInt64.size - 1)) ∧
    (∀ i item requested, reached.insert i item = .error (.allocation requested) ↔
      i ≤ reached.len ∧ reached.len = reached.capacity ∧
        GrowthRefused width reached.capacity requested) ∧
    (1 ≤ width → width * reached.capacity.toNat < Allocation.ceiling ∧
      nextCapacity reached.capacity ≠ none) ∧
    ∀ i item requested, reached.insert i item = .error (.allocation requested) →
      ∃ after, InPlace.insert i item reached = (.error (.allocation requested), after) ∧
        after.len = reached.len ∧ after.capacity = reached.capacity ∧
        after.toList = reached.toList ∧
        ∀ operation : Operation α, operation.apply after = operation.apply reached := by
  intro reached width
  have hholds := h.holds_run operations
  have hgranted : width * reached.capacity.toNat < Allocation.ceiling := by
    rw [show reached.capacity.toNat = _ from hholds.capacity_eq]
    exact granted_run h.granted operations
  refine ⟨fun creation hrange => ?_, fun i count hrange => hholds.slice_of_not_inRange hrange,
    fun limit hceiling hlimit count fault => ?_,
    fun i item requested => hholds.insert_eq_error_iff hgranted,
    fun hwidth => ⟨hgranted, nextCapacity_ne_none hwidth hgranted⟩,
    fun i item requested hrefused => ?_⟩
  · have hcosts := hholds.costs_make hrange
    refine ⟨hcosts, fun hwidth => hcosts.ok_iff.2 ?_⟩
    rw [show Layout.width α = 0 from hwidth, Nat.zero_mul]
    decide
  · rw [Allocation.refuses_iff_bind, Allocation.blockSize_bind_grant hceiling hlimit,
      ← Allocation.request_eq]
    exact (Costs.request width count).error_iff fault
  · exact ⟨reached, of_insertInPlace_eq_error hrefused, rfl, rfl, rfl, fun _ => rfl⟩

/-- An array of as many bytes as can be granted is full, and an insert at its front is refused the
next capacity. -/
theorem memory_refused_exactly_largest :
    ∃ (a : GrowableArray UInt8) (items : List UInt8) (capacity : UInt64),
      Created a items capacity ∧ items.length = 140737488355327 ∧
      a.insert 0 7 = .error (.allocation 211106232532990) ∧
      ∃ after, InPlace.insert 0 7 a = (.error (.allocation 211106232532990), after) ∧
        after.toList = a.toList := by
  obtain ⟨items, hlength⟩ : ∃ items : List UInt8, items.length = 140737488355327 :=
    ⟨List.replicate 140737488355327 0, List.length_replicate⟩
  have hword : items.length < UInt64.size := by
    rw [hlength]
    decide
  have hfits : Layout.width UInt8 * items.length < Allocation.ceiling := by
    rw [hlength]
    decide
  obtain ⟨a, ha⟩ := (costs_ofList hword).ok_iff.2 hfits
  have hcreated := Created.ofList 0 hword ha
  have hcapacity : a.capacity = 140737488355327 := by
    rw [← show UInt64.ofNat items.length = 140737488355327 by rw [hlength]; rfl]
    exact UInt64.toNat_inj.1 hcreated.holds.capacity_eq
  have hlen : a.len = 140737488355327 := by
    rw [hcreated.holds.len, hlength]
    rfl
  have hgrowth : GrowthRefused (Layout.width UInt8) 140737488355327 211106232532990 :=
    .inl ⟨by decide, 211106232532990, by decide, by decide, by decide⟩
  obtain ⟨-, -, -, hinsert, -, hatomic⟩ := memory_refused_exactly hcreated []
  have hrefused : a.insert 0 7 = .error (.allocation 211106232532990) :=
    (hinsert 0 7 _).2 ⟨UInt64.zero_le, hlen.trans hcapacity.symm, by
      show GrowthRefused _ a.capacity _
      rwa [hcapacity]⟩
  obtain ⟨after, hafter, -, -, hitems, -⟩ := hatomic 0 7 _ hrefused
  exact ⟨a, items, _, hcreated, hlength, hrefused, after, hafter, hitems⟩

end GrowableArray

end Containers
