import Containers.Proofs.GrowableArray.Contents

/-!
# An array is a list of items

Seen from outside, an array is a sequence: its items and its capacity (`GrowableArray.view`). An
operation answers as it does on the sequence and leads to an array of the new sequence
(`Holds.apply`), so a run of operations does (`Holds.run`). Arrays begin empty, as a copy of a
list or as a slice of another array (`Created`).
-/

namespace Containers.GrowableArray

variable {α : Type} [Layout α] {a : GrowableArray α} {s : Sequence α}

/-- The items and the capacity of an array. -/
def view (a : GrowableArray α) : Sequence α := ⟨a.toList, a.capacity.toNat⟩

/-- What an answer shows. -/
def Answer.view : Answer α → Sequence.Answer α
  | .done => .done
  | .item a => .item a
  | .array a => .sequence a.view

/-- A new array with these items and this capacity: an empty one with the default capacity or a
given one, a copy of a list whose length is a word, or a slice of an array after a run of
operations. Any number of other requests may lie between these steps: each has a turn from which on
its own requests are numbered. -/
inductive Created [Allocator] : GrowableArray α → List α → UInt64 → Prop where
  | empty (turn : Nat) {a : GrowableArray α}
      (h : Allocation.after turn GrowableArray.empty = .ok a) : Created a [] 16
  | withCapacity (turn : Nat) {a : GrowableArray α} {capacity : UInt64}
      (h : Allocation.after turn (GrowableArray.withCapacity capacity) = .ok a) :
      Created a [] capacity
  | ofList (turn : Nat) {a : GrowableArray α} {items : List α}
      (hlength : items.length < UInt64.size)
      (h : Allocation.after turn (GrowableArray.ofList items) = .ok a) :
      Created a items (.ofNat items.length)
  | slice (turn later : Nat) {a source last : GrowableArray α} {items : List α}
      {capacity i count : UInt64} (hsource : Created source items capacity)
      (operations : List (Operation α))
      (hlast : (Allocation.after turn (source.run operations)).1 = last)
      (h : Allocation.after later (last.slice i count) = .ok a) :
      Created a ((last.toList.drop i.toNat).take count.toNat) count

/-! ## Operations -/

/-- What is seen of an array is the sequence that it holds. -/
theorem Holds.view_eq (h : a.Holds s) : a.view = s := by
  rw [view, h.toList, GrowableArray.capacity, h.capacity_eq]

/-- A change leads to an array of the changed sequence, and a fault leaves both as they were. -/
theorem Holds.settle (h : a.Holds s) {changed : Except Fault (GrowableArray α)}
    {result : Except Fault (Sequence α)} (hresult : Alike Holds changed result) :
    (a.settle changed).1.Holds (s.settle result).1 ∧
      (a.settle changed).2.map Answer.view = (s.settle result).2 := by
  cases hresult with
  | ok hchanged => exact ⟨hchanged, rfl⟩
  | error fault => exact ⟨h, rfl⟩

/-- An operation answers as it does on the sequence, and leads to an array of the new sequence. -/
theorem Holds.apply [Allocator] (h : a.Holds s) (operation : Operation α) :
    (operation.apply a).1.Holds (s.step operation).1 ∧
      (operation.apply a).2.map Answer.view = (s.step operation).2 := by
  cases operation with
  | get i =>
    refine ⟨h, ?_⟩
    simp only [Operation.apply, Sequence.step, h.get]
    cases s.get i.toNat <;> rfl
  | set i item => exact h.settle (h.set i item)
  | insert i item => exact h.settle (h.insert i item)
  | push item =>
    refine h.settle ?_
    rw [← h.len_eq]
    exact h.insert a.len item
  | remove i count => exact h.settle (h.remove i count)
  | slice i count =>
    refine ⟨h, ?_⟩
    simp only [Operation.apply, Sequence.step]
    generalize hcut : a.slice i count = cut
    generalize hresult : s.slice i.toNat count.toNat = result
    cases (hcut ▸ hresult ▸ h.slice i count : Alike Holds cut result) with
    | ok hpart => exact congrArg (fun s => Except.ok (Sequence.Answer.sequence s)) hpart.view_eq
    | error fault => rfl

/-- A run of operations answers as it does on the sequence, and leads to an array of the last
sequence. -/
theorem Holds.run {memory : Allocator} (h : a.Holds s) (operations : List (Operation α)) :
    (a.run operations).1.Holds (s.run operations).1 ∧
      (a.run operations).2.map (Except.map Answer.view) = (s.run operations).2 := by
  induction operations generalizing a s memory with
  | nil => exact ⟨h, rfl⟩
  | cons operation operations ih =>
    obtain ⟨hnext, hanswer⟩ := h.apply operation
    obtain ⟨hlast, hanswers⟩ := ih hnext
    exact ⟨hlast, congrArg₂ List.cons hanswer hanswers⟩

/-! ## New arrays -/

/-- A new array holds its items, in slots as many as its capacity. -/
theorem Created.holds [Allocator] {items : List α} {capacity : UInt64}
    (h : Created a items capacity) : a.Holds ⟨items, capacity.toNat⟩ := by
  induction h with
  | empty turn h => exact of_withCapacity_eq_ok h
  | withCapacity turn h => exact of_withCapacity_eq_ok h
  | ofList turn hlength h =>
    rw [UInt64.toNat_ofNat_of_lt' hlength]
    exact of_ofList_eq_ok hlength h
  | slice turn later hsource operations hlast h ih =>
    cases hlast
    exact ((ih.run operations).1.of_slice_eq_ok h).1

/-- After a run of operations, a new array holds the sequence that the run leads to. -/
theorem Created.holds_run [Allocator] {items : List α} {capacity : UInt64}
    (h : Created a items capacity) (operations : List (Operation α)) :
    (a.run operations).1.Holds (Sequence.run ⟨items, capacity.toNat⟩ operations).1 :=
  (h.holds.run operations).1

/-- An array refines a list, whatever the allocator refuses. After every run of operations on a new
array, whether they succeed or report a fault, the array has the items, the number of items and the
capacity that the sequence has after the same run, and it has answered each operation as the
sequence did. -/
theorem run_refines_sequence [Allocator] {items : List α} {capacity : UInt64}
    (h : Created a items capacity) (operations : List (Operation α)) :
    let reached := (a.run operations).1
    let sequence := (Sequence.run ⟨items, capacity.toNat⟩ operations).1
    reached.toList = sequence.items ∧ reached.len.toNat = sequence.items.length ∧
      reached.capacity.toNat = sequence.capacity ∧
      (a.run operations).2.map (Except.map Answer.view) =
        (Sequence.run ⟨items, capacity.toNat⟩ operations).2 := by
  obtain ⟨hholds, hanswers⟩ := h.holds.run operations
  exact ⟨hholds.toList, hholds.len_eq, hholds.capacity_eq, hanswers⟩

/-- A full array of one item refuses a position behind its end without growing, then grows, and
refuses a range whose end is no word. -/
theorem run_refines_sequence_full :
    ∃ a : GrowableArray UInt8, withCapacity 1 = .ok a ∧
      ∃ operations : List (Operation UInt8),
        operations = [.push 5, .insert 2 9, .insert 0 7, .remove 1 18446744073709551615] ∧
        (a.run (operations.take 2)).1.capacity = 1 ∧
        (a.run operations).1.toList = [7, 5] ∧
        (a.run operations).1.capacity.toNat = (Sequence.run ⟨[], 1⟩ operations).1.capacity ∧
        (a.run operations).2.map (Except.map Answer.view) =
          (Sequence.run ⟨[], 1⟩ operations).2 := by
  let a : GrowableArray UInt8 := ⟨⟨1, #[none]⟩, 0⟩
  have ha : withCapacity 1 = .ok a := rfl
  refine ⟨a, ha, _, rfl, by decide, by decide, ?_⟩
  obtain ⟨-, -, hcapacity, hanswers⟩ := run_refines_sequence (.withCapacity 0 ha)
    [.push 5, .insert 2 9, .insert 0 7, .remove 1 18446744073709551615]
  exact ⟨hcapacity, hanswers⟩

end Containers.GrowableArray
