import Containers.Proofs.GrowableArray.Refinement

/-!
# Capacity and the greatest length

The capacities an array can have are those of a chain: its first capacity and the results of one
step of growth after another (`capacityAfter`). The chain increases strictly. An operation changes
the capacity only if it is an insert that finds the array full, and then by one step, so the
capacity is always the least one in the chain that the greatest length so far fits in
(`LeastCapacity`, `Holds.leastCapacity`). Nothing else of an array's history shows in it.
-/

namespace Containers

/-! ## The chain of capacities -/

/-- The capacity after `steps` steps of growth from `start` on, if all of them fit in a word. -/
def capacityAfter (start : UInt64) : (steps : Nat) → Option UInt64
  | 0 => some start
  | steps + 1 => (capacityAfter start steps).bind nextCapacity

/-- A capacity that grows gets larger. -/
theorem lt_of_nextCapacity {capacity grown : UInt64} (h : nextCapacity capacity = some grown) :
    capacity.toNat < grown.toNat := by
  rw [nextCapacity_eq_some] at h
  omega

/-- A capacity is at most every later one of its chain. -/
theorem capacityAfter_le {start capacity later : UInt64} {steps more : Nat}
    (h : capacityAfter start steps = some capacity)
    (hlater : capacityAfter start (steps + more) = some later) : capacity ≤ later := by
  induction more generalizing later with
  | zero =>
    rw [Nat.add_zero, h] at hlater
    cases hlater
    exact UInt64.le_refl _
  | succ more ih =>
    obtain ⟨middle, hmiddle, hnext⟩ := Option.bind_eq_some_iff.1 hlater
    exact UInt64.le_trans (ih hmiddle) (UInt64.le_of_lt (UInt64.lt_iff_toNat_lt.2
      (lt_of_nextCapacity hnext)))

/-- The least capacity of the chain from `start` on that a length of `peak` fits in. -/
structure LeastCapacity (start : UInt64) (peak : Nat) (capacity : UInt64) : Prop where
  reached : ∃ steps, capacityAfter start steps = some capacity
  enough : peak ≤ capacity.toNat
  least : ∀ steps other, capacityAfter start steps = some other → peak ≤ other.toNat →
    capacity ≤ other

namespace LeastCapacity

variable {start capacity grown other : UInt64} {peak : Nat}

/-- A length that fits in the first capacity needs no growth. -/
theorem start_self (h : peak ≤ start.toNat) : LeastCapacity start peak start where
  reached := ⟨0, rfl⟩
  enough := h
  least steps _ hother _ := by
    rw [← Nat.zero_add steps] at hother
    exact capacityAfter_le rfl hother

/-- A greatest length has one least capacity. -/
theorem unique (h : LeastCapacity start peak capacity) (hother : LeastCapacity start peak other) :
    capacity = other := by
  obtain ⟨steps, hsteps⟩ := h.reached
  obtain ⟨steps', hsteps'⟩ := hother.reached
  exact UInt64.le_antisymm (h.least steps' other hsteps' hother.enough)
    (hother.least steps capacity hsteps h.enough)

/-- A length that fits in the capacity does not change which capacity is the least. -/
theorem keep (h : LeastCapacity start peak capacity) {len : Nat} (hlen : len ≤ capacity.toNat) :
    LeastCapacity start (max peak len) capacity where
  reached := h.reached
  enough := Nat.max_le.2 ⟨h.enough, hlen⟩
  least steps other hother hpeak := h.least steps other hother (Nat.max_le.1 hpeak).1

/-- The first length that does not fit in the capacity needs exactly one step of growth: what
comes before the capacity in the chain is smaller, and what comes behind it is at least the next
capacity. -/
theorem grow (h : LeastCapacity start peak capacity) (hnext : nextCapacity capacity = some grown) :
    LeastCapacity start (max peak (capacity.toNat + 1)) grown := by
  obtain ⟨steps, hsteps⟩ := h.reached
  have hgrown : capacityAfter start (steps + 1) = some grown := by
    rw [capacityAfter, hsteps]
    exact hnext
  have hlt := lt_of_nextCapacity hnext
  have henough := h.enough
  refine ⟨⟨steps + 1, hgrown⟩, by omega, fun steps' other hother hpeak => ?_⟩
  -- No capacity lies between this one and the next, and up to this one all are too small.
  rcases Nat.lt_or_ge steps steps' with hbehind | hbefore
  · obtain ⟨more, rfl⟩ := Nat.exists_eq_add_of_le hbehind
    exact capacityAfter_le hgrown hother
  · obtain ⟨more, rfl⟩ := Nat.exists_eq_add_of_le hbefore
    have hle := UInt64.le_iff_toNat_le.1 (capacityAfter_le hother hsteps)
    omega

end LeastCapacity

/-! ## One operation -/

namespace Sequence

variable {α : Type} [Layout α] {s : Sequence α}

/-- An insert keeps the capacity and fits in it, or finds the sequence full and lets it grow. -/
theorem capacity_insert [Allocator] (hroom : s.items.length ≤ s.capacity) (i : Nat) (item : α) :
    ((s.settle (s.insert i item)).1.capacity = s.capacity ∧
      (s.settle (s.insert i item)).1.items.length ≤ s.capacity) ∨
    (s.items.length = s.capacity ∧
      (s.settle (s.insert i item)).1.capacity = s.capacity + max 4 (s.capacity / 2) ∧
      (s.settle (s.insert i item)).1.items.length = s.capacity + 1) := by
  unfold insert
  split
  next hi =>
    have hlength : (s.items.take i ++ item :: s.items.drop i).length = s.items.length + 1 := by
      rw [List.length_append, List.length_take, List.length_cons, List.length_drop]
      omega
    cases hresult : s.room with
    | error fault => exact .inl ⟨rfl, hroom⟩
    | ok capacity =>
      simp only [Except.map, settle, hlength]
      rcases of_room_eq_ok hresult with ⟨hfree, rfl⟩ | ⟨hfull, rfl, -⟩
      · exact .inl ⟨rfl, hfree⟩
      · exact .inr ⟨by omega, rfl, by omega⟩
  next => exact .inl ⟨rfl, hroom⟩

/-- An operation on a sequence keeps its capacity and fits in it, or it inserts an item into a full
sequence, which gains half its capacity and at least four slots. -/
theorem capacity_step [Allocator] (hroom : s.items.length ≤ s.capacity)
    (operation : GrowableArray.Operation α) :
    ((s.step operation).1.capacity = s.capacity ∧
      (s.step operation).1.items.length ≤ s.capacity) ∨
    ((∃ i item, operation = .insert i item ∨ operation = .push item) ∧
      s.items.length = s.capacity ∧
      (s.step operation).1.capacity = s.capacity + max 4 (s.capacity / 2) ∧
      (s.step operation).1.items.length = s.capacity + 1) := by
  cases operation with
  | get | slice => exact .inl ⟨rfl, hroom⟩
  | set i item =>
    left
    simp only [step, set]
    split
    · exact ⟨rfl, by simpa [settle] using hroom⟩
    · exact ⟨rfl, hroom⟩
  | insert i item =>
    exact (capacity_insert hroom i.toNat item).imp_right fun h => ⟨⟨i, item, .inl rfl⟩, h⟩
  | push item =>
    exact (capacity_insert hroom s.items.length item).imp_right fun h => ⟨⟨0, item, .inr rfl⟩, h⟩
  | remove i count =>
    left
    simp only [step, remove]
    split
    · refine ⟨rfl, ?_⟩
      simp only [settle, List.length_append, List.length_take, List.length_drop]
      omega
    · exact ⟨rfl, hroom⟩

end Sequence

namespace GrowableArray

variable {α : Type} [Layout α] {a : GrowableArray α} {s : Sequence α}

/-- The greatest length that an array has from the start of a run of operations to its end. -/
def peak [Allocator] (a : GrowableArray α) : List (Operation α) → Nat
  | [] => a.len.toNat
  | operation :: operations =>
    let next := (operation.apply a).1
    max a.len.toNat (Allocation.after 1 (next.peak operations))

/-- The peak of a run is not below the length at its start. -/
theorem len_le_peak {_ : Allocator} (a : GrowableArray α) (operations : List (Operation α)) :
    a.len.toNat ≤ a.peak operations := by
  cases operations with
  | nil => exact Nat.le_refl _
  | cons => exact Nat.le_max_left _ _

/-- The peak is a length that the array has after some of the operations, and no length that it
has on the way is greater. -/
theorem peak_attained {memory : Allocator} (a : GrowableArray α) (operations : List (Operation α)) :
    (∀ steps, (a.run (operations.take steps)).1.len.toNat ≤ a.peak operations) ∧
      ∃ steps, (a.run (operations.take steps)).1.len.toNat = a.peak operations := by
  induction operations generalizing a memory with
  | nil =>
    have hstay : ∀ steps, (a.run (([] : List (Operation α)).take steps)).1 = a := fun steps => by
      rw [List.take_nil]
      rfl
    exact ⟨fun steps => Nat.le_of_eq (by rw [hstay, peak]), 0, by rw [hstay, peak]⟩
  | cons operation operations ih =>
    obtain ⟨hbound, steps, hsteps⟩ := ih (operation.apply a).1
    refine ⟨fun steps => ?_, ?_⟩
    · cases steps with
      | zero => exact Nat.le_max_left _ _
      | succ steps => exact Nat.le_trans (hbound steps) (Nat.le_max_right _ _)
    · rw [peak, Nat.max_def]
      split
      · exact ⟨steps + 1, hsteps⟩
      · exact ⟨0, rfl⟩

/-- An operation keeps the capacity and fits in it, or it inserts an item into a full array, which
then grows by one step. -/
theorem Holds.capacity_apply [Allocator] (h : a.Holds s) (operation : Operation α) :
    ((operation.apply a).1.capacity = a.capacity ∧
      (operation.apply a).1.len.toNat ≤ a.capacity.toNat) ∨
    ((∃ i item, operation = .insert i item ∨ operation = .push item) ∧ a.len = a.capacity ∧
      nextCapacity a.capacity = some (operation.apply a).1.capacity ∧
      (operation.apply a).1.len.toNat = a.capacity.toNat + 1) := by
  have hnext := (h.apply operation).1
  have hcapacity : a.capacity.toNat = s.capacity := h.capacity_eq
  have hgrown : (operation.apply a).1.capacity.toNat = (s.step operation).1.capacity :=
    hnext.capacity_eq
  rw [nextCapacity_eq_some, ← UInt64.toNat_inj, ← UInt64.toNat_inj, h.len_eq, hnext.len_eq,
    hcapacity, hgrown]
  exact s.capacity_step h.room operation

/-- A run of operations on an array with the least capacity for its greatest length so far leads to
an array with the least capacity for its greatest length then. -/
theorem Holds.leastCapacity {memory : Allocator} (h : a.Holds s) {start : UInt64} {before : Nat}
    (hbefore : a.len.toNat ≤ before) (hleast : LeastCapacity start before a.capacity)
    (operations : List (Operation α)) :
    LeastCapacity start (max before (a.peak operations)) (a.run operations).1.capacity := by
  induction operations generalizing a s before memory with
  | nil =>
    rw [peak, Nat.max_eq_left hbefore]
    exact hleast
  | cons operation operations ih =>
    have hnext := (h.apply operation).1
    have hstep : LeastCapacity start (max before (operation.apply a).1.len.toNat)
        (operation.apply a).1.capacity := by
      rcases h.capacity_apply operation with ⟨hcapacity, hlen⟩ | ⟨-, -, hgrown, hlen⟩
      · rw [hcapacity]
        exact hleast.keep hlen
      · rw [hlen]
        exact hleast.grow hgrown
    let next := (operation.apply a).1
    have hlater : next.len.toNat ≤ Allocation.after 1 (next.peak operations) :=
      next.len_le_peak operations
    have hpeak : max before (a.peak (operation :: operations)) =
        max (max before next.len.toNat) (Allocation.after 1 (next.peak operations)) := by
      show max before (max a.len.toNat (Allocation.after 1 (next.peak operations))) = _
      omega
    rw [hpeak]
    exact ih hnext (Nat.le_max_right _ _) hstep

/-! ## New arrays -/

/-- After a run, a new array has the least capacity of its chain for the peak of the run. -/
theorem Created.leastCapacity [Allocator] {items : List α} {capacity : UInt64}
    (h : Created a items capacity) (operations : List (Operation α)) :
    LeastCapacity capacity (a.peak operations) (a.run operations).1.capacity := by
  have hholds := h.holds
  have hcapacity : a.capacity = capacity := UInt64.toNat_inj.1 hholds.capacity_eq
  have hroom : a.len.toNat ≤ capacity.toNat := by
    rw [hholds.len_eq]
    exact hholds.room
  have hstart : LeastCapacity capacity a.len.toNat a.capacity := by
    rw [hcapacity]
    exact .start_self hroom
  rw [← Nat.max_eq_right (a.len_le_peak operations)]
  exact hholds.leastCapacity (Nat.le_refl _) hstart operations

/-- After any run of operations on a new array, whether they succeed or report a fault, the
capacity is the least one of the chain from the first capacity on that the greatest length so far
fits in. The length is at most the capacity, an operation never makes the capacity smaller and
changes it only as an insert that finds the array full, by one step, and two arrays of any item
types with the same first capacity and the same greatest length have the same capacity. -/
theorem capacity_eq_of_peak [Allocator] {items : List α} {capacity : UInt64}
    (h : Created a items capacity) (operations : List (Operation α)) :
    let reached := (a.run operations).1
    let highest := a.peak operations
    LeastCapacity capacity highest reached.capacity ∧
      reached.len ≤ reached.capacity ∧
      (∀ [Allocator] (operation : Operation α),
        reached.capacity ≤ (operation.apply reached).1.capacity ∧
          ((operation.apply reached).1.capacity ≠ reached.capacity →
            (∃ i item, operation = .insert i item ∨ operation = .push item) ∧
              reached.len = reached.capacity ∧
              nextCapacity reached.capacity = some (operation.apply reached).1.capacity)) ∧
      ∀ (β : Type) [Layout β] [Allocator] (b : GrowableArray β) (items' : List β),
        Created b items' capacity → ∀ operations' : List (Operation β),
          b.peak operations' = highest → (b.run operations').1.capacity = reached.capacity := by
  intro reached highest
  have hholds := h.holds_run operations
  have hleast := h.leastCapacity operations
  refine ⟨hleast, ?_, fun operation => ?_, ?_⟩
  · have hroom := hholds.room
    rw [← hholds.len_eq, ← hholds.capacity_eq] at hroom
    exact UInt64.le_iff_toNat_le.2 hroom
  · rcases hholds.capacity_apply operation with ⟨hsame, -⟩ | ⟨hinsert, hfull, hgrown, -⟩
    · exact ⟨UInt64.le_of_eq hsame.symm, fun hne => absurd hsame hne⟩
    · have hlt := UInt64.lt_iff_toNat_lt.2 (lt_of_nextCapacity hgrown)
      exact ⟨UInt64.le_of_lt hlt, fun _ => ⟨hinsert, hfull, hgrown⟩⟩
  · intro β _ _ b items' hb operations' hpeak
    have hother := hb.leastCapacity operations'
    rw [hpeak] at hother
    exact hother.unique hleast

/-- Removing items and putting some back, beside an insert behind the end, does not show in the
capacity: an array of other items that was never longer has the same. -/
theorem capacity_eq_of_peak_three :
    ∃ (a : GrowableArray UInt8) (b : GrowableArray UInt64),
      Created a [1, 2] 2 ∧ Created b [7, 8] 2 ∧
      ∃ (operations : List (Operation UInt8)) (operations' : List (Operation UInt64)),
        operations = [.insert 1 9, .remove 0 3, .insert 1 5, .push 4, .push 6] ∧
        operations' = [.remove 0 1, .push 1, .push 2] ∧
        b.peak operations' = a.peak operations ∧
        LeastCapacity 2 (a.peak operations) (a.run operations).1.capacity ∧
        (b.run operations').1.capacity = (a.run operations).1.capacity := by
  let a : GrowableArray UInt8 := ⟨⟨2, #[some 1, some 2]⟩, 2⟩
  let b : GrowableArray UInt64 := ⟨⟨2, #[some 7, some 8]⟩, 2⟩
  have ha : Created a [1, 2] 2 := .ofList 0 (by decide) rfl
  have hb : Created b [7, 8] 2 := .ofList 0 (by decide) rfl
  refine ⟨a, b, ha, hb, _, _, rfl, rfl, by decide, ?_⟩
  obtain ⟨hleast, -, -, hsame⟩ := capacity_eq_of_peak ha
    [.insert 1 9, .remove 0 3, .insert 1 5, .push 4, .push 6]
  exact ⟨hleast, hsame UInt64 b [7, 8] hb [.remove 0 1, .push 1, .push 2] (by decide)⟩

end GrowableArray

end Containers
