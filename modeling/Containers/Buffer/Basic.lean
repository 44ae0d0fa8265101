import Containers.Allocation
import Containers.Layout

/-!
# Buffers of slots

A buffer is a block of memory with room for a fixed number of items. Each slot is either unwritten
or holds an item; which slots have been written is for the owner of the buffer to know. A fresh
buffer has only unwritten slots, growing it keeps what the old slots held, and `move` moves a run
of slots to an overlapping place as if it had been copied out first.

Items of width zero take no memory. Their slots have no cells, and each of them reads as the one
value of the type. The primitive operations touch existing cells only, so they cost nothing for
such items, whatever the number of slots.
-/

namespace Containers

/-- A block of memory with room for `capacity` items of type `α`. -/
structure Buffer (α : Type) where
  /-- The number of slots. -/
  capacity : UInt64
  /-- The memory of the slots; an unwritten slot holds nothing. Items of width zero have none. -/
  cells : Array (Option α)

namespace Buffer

variable {α : Type}

section
variable [Layout α]

/-- The number of cells behind `capacity` slots. -/
def cellCount (α : Type) [Layout α] (capacity : UInt64) : Nat :=
  if Layout.width α = 0 then 0 else capacity.toNat

/-- What slot `i` holds, or nothing if it is unwritten or does not exist. -/
def slot? (b : Buffer α) (i : Nat) : Option α :=
  if h : Layout.width α = 0 then some (Layout.sole h) else b.cells[i]?.join

/-- A new buffer of unwritten slots. -/
def allocate [Allocator] (capacity : UInt64) : Except Fault (Buffer α) := do
  Allocation.request (Layout.width α) capacity.toNat
  return ⟨capacity, Array.replicate (cellCount α capacity) none⟩

/-- Change the number of slots. The slots that exist before and after keep what they hold, and new
slots are unwritten. The allocator wants to know the size of the old block as well, so this is
computed first. -/
def resize [Allocator] (b : Buffer α) (capacity : UInt64) : Except Fault (Buffer α) := do
  let _ ← Allocation.blockSize Allocation.layoutLimit (Layout.width α) b.capacity.toNat
  Allocation.request (Layout.width α) capacity.toNat
  let count := cellCount α capacity
  return ⟨capacity, b.cells.extract 0 count ++ Array.replicate (count - b.cells.size) none⟩

end

/-- Write an item to slot `i`. -/
def store (b : Buffer α) (i : UInt64) (a : α) : Buffer α :=
  { b with cells := b.cells.setIfInBounds i.toNat (some a) }

/-- Copy `count` cells from `source` on to `target` on, lowest first. No cell is overwritten before
it has been read if the target lies at or below the source. -/
def copyUp (cells : Array (Option α)) (source target : Nat) : (count : Nat) → Array (Option α)
  | 0 => cells
  | count + 1 =>
    copyUp (cells.setIfInBounds target cells[source]?.join) (source + 1) (target + 1) count

/-- Copy `count` cells from `source` on to `target` on, highest first. No cell is overwritten
before it has been read if the target lies at or above the source. -/
def copyDown (cells : Array (Option α)) (source target : Nat) : (count : Nat) → Array (Option α)
  | 0 => cells
  | count + 1 =>
    copyDown (cells.setIfInBounds (target + count) cells[source + count]?.join) source target count

/-- Move `count` items from slot `source` on to slot `target` on. The two runs may overlap. The
part of a move that leaves the buffer does not take place. -/
def move (b : Buffer α) (source target count : UInt64) : Buffer α :=
  let inside := min count.toNat (b.cells.size - max source.toNat target.toNat)
  if target ≤ source then
    { b with cells := copyUp b.cells source.toNat target.toNat inside }
  else
    { b with cells := copyDown b.cells source.toNat target.toNat inside }

/-- Write items to the slots from `start` on. -/
def storeAll (b : Buffer α) (start : UInt64) : List α → Buffer α
  | [] => b
  | a :: items => (b.store start a).storeAll (start + 1) items

/-- Fill the front of `b` with the `count` slots of `other` from `start` on. -/
def load (b other : Buffer α) (start count : UInt64) : Buffer α :=
  let part := other.cells.extract start.toNat (start.toNat + count.toNat)
  { b with cells := part ++ b.cells.extract part.size b.cells.size }

/-- Write one item to each of the first `count` slots. -/
def fill (b : Buffer α) (count : UInt64) (a : α) : Buffer α :=
  { b with cells := b.cells.mapIdx fun i cell => if i < count.toNat then some a else cell }

/-- Reverse the order of the first `count` slots. -/
def reverse (b : Buffer α) (count : UInt64) : Buffer α :=
  { b with
    cells := (b.cells.extract 0 count.toNat).reverse ++
      b.cells.extract count.toNat b.cells.size }

/-- One step of an edit: a move of items, or the writing of one item. -/
inductive Access (α : Type) where
  /-- Move `count` items from slot `source` on to slot `target` on. -/
  | move (source target count : UInt64)
  /-- Write an item to slot `index`. -/
  | store (index : UInt64) (item : α)

/-- Carry out one step of an edit. -/
def perform (b : Buffer α) : Access α → Buffer α
  | .move source target count => b.move source target count
  | .store index item => b.store index item

end Buffer

end Containers
