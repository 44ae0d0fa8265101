import Containers.Buffer.Basic
import Containers.GrowableArray.Growth

/-!
# Growable arrays

A growable array is a buffer and the number of items at its front. An insert that finds the buffer
full first lets it grow by one step (`nextCapacity`); nothing ever shrinks it. Inserting and
removing move the items behind the place by a move inside the buffer. Cutting a run out copies it
to an array of its own, with no spare capacity.

An operation that reports a fault gives no new array, so the array it was called on stands.
-/

namespace Containers

/-- A sequence of items that can grow. -/
structure GrowableArray (α : Type) where
  /-- The slots, of which those at the front hold the items. -/
  buffer : Buffer α
  /-- The number of items. -/
  len : UInt64

/-- The end of the range of `count` items from `start` on, if the range lies in a container of
`len` items. -/
def checkedStop (start count len : UInt64) : Except Fault UInt64 :=
  match checkedAdd start count with
  | some stop => if stop ≤ len then .ok stop else .error (.ofRange start count len)
  | none => .error (.ofRange start count len)

namespace Buffer

variable {α : Type} [Layout α]

/-- The buffer after one step of growth. -/
def grown [Allocator] (b : Buffer α) : Except Fault (Buffer α) :=
  match nextCapacity b.capacity with
  | none => .error (.allocation wordMax)
  | some capacity => b.resize capacity

/-- A buffer with a slot behind the first `len`: the same buffer, or a larger one if it is full. -/
def withRoom [Allocator] (b : Buffer α) (len : UInt64) : Except Fault (Buffer α) :=
  if len = b.capacity then b.grown else .ok b

end Buffer

namespace GrowableArray

variable {α : Type} [Layout α]

/-! ## Creation -/

/-- An empty array with room for `capacity` items. -/
def withCapacity [Allocator] (capacity : UInt64) : Except Fault (GrowableArray α) :=
  return ⟨← Buffer.allocate capacity, 0⟩

/-- An empty array with the default capacity. -/
def empty [Allocator] : Except Fault (GrowableArray α) := withCapacity usualCapacity

/-- An array of these items, with no spare capacity. -/
def ofList [Allocator] (items : List α) : Except Fault (GrowableArray α) := do
  let count := saturate items.length
  return ⟨(← Buffer.allocate count).storeAll 0 items, count⟩

/-- An array of `count` equal items, with no spare capacity. -/
def replicate [Allocator] (count : UInt64) (a : α) : Except Fault (GrowableArray α) :=
  return ⟨(← Buffer.allocate count).fill count a, count⟩

/-! ## Reading -/

/-- The number of items the array holds before it has to grow. -/
def capacity (a : GrowableArray α) : UInt64 := a.buffer.capacity

/-- Whether the array has no items. -/
def isEmpty (a : GrowableArray α) : Bool := a.len == 0

/-- The item at position `i`. -/
def get? (a : GrowableArray α) (i : UInt64) : Option α :=
  if i < a.len then a.buffer.slot? i.toNat else none

/-- The item at position `i`, or a fault if there is none. -/
def get (a : GrowableArray α) (i : UInt64) : Except Fault α :=
  match a.get? i with
  | some item => .ok item
  | none => .error (.ofRange i 1 a.len)

/-- The items in order. -/
def toList (a : GrowableArray α) : List α :=
  (List.range a.len.toNat).filterMap a.buffer.slot?

/-- Whether two arrays have the same length and `same` holds of their items in pairs. Items of
width zero are all alike, so that one pair of them speaks for all. -/
def agree (same : α → α → Bool) (a b : GrowableArray α) : Bool :=
  a.len == b.len &&
    if h : Layout.width α = 0 then a.isEmpty || same (Layout.sole h) (Layout.sole h)
    else a.toList.isEqv b.toList same

/-- The items between brackets, each as `item` writes it. -/
def debugText (item : α → String) (a : GrowableArray α) : String :=
  "[" ++ ", ".intercalate (a.toList.map item) ++ "]"

/-! ## Writing -/

/-- Put another item at position `i`. -/
def set (a : GrowableArray α) (i : UInt64) (item : α) : Except Fault (GrowableArray α) :=
  if i < a.len then .ok { a with buffer := a.buffer.store i item }
  else .error (.ofRange i 1 a.len)

omit [Layout α] in
/-- How an insert changes a buffer with room: the items from position `i` on move one slot up, and
the new item takes the slot that is left. -/
def insertAccesses (i len : UInt64) (item : α) : List (Buffer.Access α) :=
  [.move i (i + 1) (len - i), .store i item]

/-- Put an item at position `i`, in front of those from there on. The position may be the end of
the array. -/
def insert [Allocator] :
    GrowableArray α → (i : UInt64) → (item : α) → Except Fault (GrowableArray α)
  | ⟨buffer, len⟩, i, item => do
    if len < i then
      throw (.ofRange i 0 len)
    let roomy ← buffer.withRoom len
    return ⟨(insertAccesses i len item).foldl Buffer.perform roomy, len + 1⟩

/-- Put an item at the end. -/
def push [Allocator] (a : GrowableArray α) (item : α) : Except Fault (GrowableArray α) :=
  a.insert a.len item

omit [Layout α] in
/-- How the removal of the items from `start` to `stop` changes a buffer: the items behind them
move down to close the gap. -/
def removeAccesses (start stop len : UInt64) : List (Buffer.Access α) :=
  [.move stop start (len - stop)]

/-- Take away `count` items from position `i` on. -/
def remove : GrowableArray α → (i count : UInt64) → Except Fault (GrowableArray α)
  | ⟨buffer, len⟩, i, count => do
    let stop ← checkedStop i count len
    return ⟨(removeAccesses i stop len).foldl Buffer.perform buffer, len - count⟩

/-- A new array of the `count` items from position `i` on, with no spare capacity. -/
def slice [Allocator] (a : GrowableArray α) (i count : UInt64) :
    Except Fault (GrowableArray α) := do
  let stop ← checkedStop i count a.len
  let size := stop - i
  return ⟨(← Buffer.allocate size).load a.buffer i size, size⟩

/-- Put one item at every position. -/
def fill (a : GrowableArray α) (item : α) : GrowableArray α :=
  { a with buffer := a.buffer.fill a.len item }

/-- Turn the order of the items around. -/
def reverse (a : GrowableArray α) : GrowableArray α :=
  { a with buffer := a.buffer.reverse a.len }

/-- Put items at the end one by one, up to the first fault, with the capacities so far listed latest
first. The answer adds each capacity that a push changes it to, and has them in order. -/
def pushOn [Allocator] (a : GrowableArray α) :
    List α → List UInt64 → GrowableArray α × Except Fault (List UInt64)
  | [], capacities => (a, .ok capacities.reverse)
  | item :: items, capacities =>
    let before := a.capacity
    match a.push item with
    | .error fault => (a, .error fault)
    | .ok grown =>
      Allocation.after 1
        (grown.pushOn items
          (if grown.capacity = before then capacities else grown.capacity :: capacities))

/-- Put items at the end one by one, up to the first fault. The answer lists the capacity at the
start and each capacity that a push changed it to. -/
def pushAll [Allocator] (a : GrowableArray α) (items : List α) :
    GrowableArray α × Except Fault (List UInt64) :=
  a.pushOn items [a.capacity]

/-- An array of these items whose capacity is their number, filled by pushing them one by one. -/
def ofPushes [Allocator] (items : List α) : Except Fault (GrowableArray α) := do
  let fresh ← withCapacity (saturate items.length)
  Allocation.after 1 (items.foldlM push fresh)

end GrowableArray

end Containers
