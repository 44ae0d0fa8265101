import Containers.GrowableArray.Operation
import Containers.InPlace

/-!
# Operating on an array in place

An insert changes one array step by step: a new block is asked for, the array takes it over, its
capacity is noted, items move up, the new one is written and the length is raised. Every fault comes
before the first change. So inserting in place comes to the same as `GrowableArray.insert` does,
with the array left alone by a fault (`insert_eq`), and the same holds of all operations
(`operate_eq`).
-/

namespace Containers.InPlace

open GrowableArray (Answer Operation)

variable {α : Type}

/-- Put another item at position `i`. -/
def set (i : UInt64) (item : α) : Procedure (GrowableArray α) Unit := do
  let len := (← get).len
  if i < len then
    modify fun a => { a with buffer := a.buffer.store i item }
  else
    throw (.ofRange i 1 len)

/-- Put an item at position `i` of an array with a free slot behind its items. -/
def edit (i : UInt64) (item : α) : Procedure (GrowableArray α) Unit := do
  let len := (← get).len
  modify fun a => { a with buffer := a.buffer.move i (i + 1) (len - i) }
  modify fun a => { a with buffer := a.buffer.store i item }
  modify fun a => { a with len := a.len + 1 }

/-- Take away `count` items from position `i` on. -/
def remove (i count : UInt64) : Procedure (GrowableArray α) Unit := do
  let len := (← get).len
  let stop ← checkedStop i count len
  modify fun a => { a with buffer := a.buffer.move stop i (len - stop) }
  modify fun a => { a with len := a.len - count }

/-- Note the number of slots of the block. -/
def noteCapacity (capacity : UInt64) : Procedure (GrowableArray α) Unit :=
  modify fun a => { a with buffer := { a.buffer with capacity } }

variable [Layout α]

/-- Take over a block with room for `capacity` items, with what the slots hold that the old block
has as well. -/
def takeBlock (capacity : UInt64) : Procedure (GrowableArray α) Unit :=
  modify fun a =>
    let count := Buffer.cellCount α capacity
    let cells := a.buffer.cells.extract 0 count ++
      Array.replicate (count - a.buffer.cells.size) none
    { a with buffer := { a.buffer with cells } }

/-- Change the number of slots. A block of no bytes needs no allocator. -/
def resize [Allocator] (capacity : UInt64) : Procedure (GrowableArray α) Unit := do
  let _ ← Allocation.blockSize Allocation.layoutLimit (Layout.width α) (← get).buffer.capacity.toNat
  let size ← Allocation.blockSize Allocation.layoutLimit (Layout.width α) capacity.toNat
  if size ≠ 0 then
    Allocation.grant size
  takeBlock capacity
  noteCapacity capacity

/-- Grow by one step. -/
def grow [Allocator] : Procedure (GrowableArray α) Unit := do
  match nextCapacity (← get).buffer.capacity with
  | none => throw (.allocation wordMax)
  | some capacity => resize capacity

/-- Put an item at position `i`, in front of those from there on. -/
def insert [Allocator] (i : UInt64) (item : α) : Procedure (GrowableArray α) Unit := do
  let len := (← get).len
  if len < i then
    throw (.ofRange i 0 len)
  if len = (← get).buffer.capacity then
    grow
  edit i item

/-- Carry out an operation. -/
def operate [Allocator] : Operation α → Procedure (GrowableArray α) (Answer α)
  | .get i => return .item (← (← get).get i)
  | .set i item => do
    set i item
    return .done
  | .insert i item => do
    insert i item
    return .done
  | .push item => do
    insert (← get).len item
    return .done
  | .remove i count => do
    remove i count
    return .done
  | .slice i count => return .array (← (← get).slice i count)

/-! ## What the procedures come to -/

omit [Layout α] in
/-- Replacing an item in place comes to the changed array, or to a fault with the array as it
was. -/
theorem set_eq (a : GrowableArray α) (i : UInt64) (item : α) :
    set i item a = commit a ((a.set i item).map ((), ·)) := by
  rw [set, get_bind, GrowableArray.set]
  by_cases hin : i < a.len
  · simp only [if_pos hin]
    rfl
  · simp only [if_neg hin]
    rfl

omit [Layout α] in
/-- Removing items in place comes to the changed array, or to a fault with the array as it was. -/
theorem remove_eq (a : GrowableArray α) (i count : UInt64) :
    remove i count a = commit a ((a.remove i count).map ((), ·)) := by
  obtain ⟨buffer, len⟩ := a
  rw [remove, get_bind, check_bind, GrowableArray.remove]
  cases checkedStop i count len <;> rfl

section
variable [Allocator]

/-- The array has its new block if there is memory for it, and its old one otherwise. -/
theorem resize_eq (a : GrowableArray α) (capacity : UInt64) :
    resize capacity a =
      commit a ((a.buffer.resize capacity).map fun buffer => ((), { a with buffer })) := by
  rw [resize, get_bind, check_bind, Buffer.resize, Allocation.request]
  cases Allocation.blockSize Allocation.layoutLimit (Layout.width α) a.buffer.capacity.toNat with
  | error fault => rfl
  | ok oldSize =>
    dsimp only
    rw [check_bind]
    cases Allocation.blockSize Allocation.layoutLimit (Layout.width α) capacity.toNat with
    | error fault => rfl
    | ok size =>
      by_cases hzero : size = 0
      · subst hzero
        rfl
      · dsimp only
        rw [if_pos hzero, check_bind]
        show _ = commit a (((Allocation.grant size >>= fun _ => _) : Except Fault _).map _)
        cases Allocation.grant size <;> rfl

/-- The array has grown by one step, or is as it was. -/
theorem grow_eq (a : GrowableArray α) :
    grow a = commit a (a.buffer.grown.map fun buffer => ((), { a with buffer })) := by
  rw [grow, get_bind, Buffer.grown]
  cases nextCapacity a.buffer.capacity with
  | none => rfl
  | some capacity => exact resize_eq a capacity

/-- Inserting in place comes to the changed array, or to a fault with the array as it was. -/
theorem insert_eq (a : GrowableArray α) (i : UInt64) (item : α) :
    insert i item a = commit a ((a.insert i item).map ((), ·)) := by
  obtain ⟨buffer, len⟩ := a
  rw [insert, get_bind, GrowableArray.insert, Buffer.withRoom]
  by_cases hout : len < i
  · simp only [if_pos hout]
    rfl
  · simp only [if_neg hout, get_bind]
    by_cases hfull : len = buffer.capacity
    · rw [if_pos hfull, if_pos hfull, commit_bind _ (grow_eq _)]
      cases buffer.grown <;> rfl
    · rw [if_neg hfull, if_neg hfull]
      rfl

omit [Layout α] [Allocator] in
/-- A change in place answers as the change of the array does, and leads to the same array. -/
theorem settle_eq {a : GrowableArray α} {change : Procedure (GrowableArray α) Unit}
    {changed : Except Fault (GrowableArray α)} (h : change a = commit a (changed.map ((), ·))) :
    (change >>= fun _ => pure Answer.done : Procedure _ (Answer α)) a =
      ((a.settle changed).2, (a.settle changed).1) := by
  rw [commit_bind _ h]
  cases changed <;> rfl

/-- An operation in place gives the answer of the operation and leads to the same array: the changed
one, or with a fault the array as it was. -/
theorem operate_eq (a : GrowableArray α) (operation : Operation α) :
    operate operation a = ((operation.apply a).2, (operation.apply a).1) := by
  cases operation with
  | get i =>
    rw [operate, get_bind, check_bind, Operation.apply]
    cases a.get i <;> rfl
  | set i item => exact settle_eq (set_eq a i item)
  | insert i item => exact settle_eq (insert_eq a i item)
  | push item => exact settle_eq (insert_eq a a.len item)
  | remove i count => exact settle_eq (remove_eq a i count)
  | slice i count =>
    rw [operate, get_bind, check_bind, Operation.apply]
    cases a.slice i count <;> rfl

end

end Containers.InPlace
