import Containers.Foreign.Status
import Containers.GrowableArray.Basic

/-!
# Arrays and vectors for callers in C

Arrays hold items of four or eight bytes. Items pass between caller and array as 64-bit words; an
array of four-byte items keeps the low half of a word and gives it back with zeros above.

New arrays and vectors are made from values in the caller's memory. No values are needed if their
count is zero; otherwise a null pointer to them makes the result null. A new array needs memory for
its items and for itself, as its address is what the caller gets (`boxed`); of a vector the caller
gets the items.
-/

namespace Containers.Foreign

/-- An array by the width of its items. -/
inductive ArrayHandle where
  /-- Items of four bytes. -/
  | narrow (items : GrowableArray UInt32)
  /-- Items of eight bytes. -/
  | wide (items : GrowableArray UInt64)

/-- The width of the object that a handle points at. -/
instance : Layout ArrayHandle := .ofPos objectWidth objectWidth_ne_zero

/-- The `count` values that a pointer points at, or nothing if it is null and they are needed. -/
def borrow {α : Type} (values : Pointer (List α)) (count : UInt64) : Option (List α) :=
  if count = 0 then some [] else values.map (List.take count.toNat)

namespace ArrayHandle

/-- The number of items. -/
def len : ArrayHandle → UInt64
  | .narrow a => a.len
  | .wide a => a.len

/-- The number of items there is room for. -/
def capacity : ArrayHandle → UInt64
  | .narrow a => a.capacity
  | .wide a => a.capacity

/-- The items as words. -/
def toList : ArrayHandle → List UInt64
  | .narrow a => a.toList.map UInt32.toUInt64
  | .wide a => a.toList

/-- The item at position `i` as a word. -/
def get (i : UInt64) : ArrayHandle → Except Fault UInt64
  | .narrow a => (a.get i).map UInt32.toUInt64
  | .wide a => a.get i

/-- Put another item at position `i`. -/
def set (i item : UInt64) : ArrayHandle → Except Fault ArrayHandle
  | .narrow a => (a.set i item.toUInt32).map .narrow
  | .wide a => (a.set i item).map .wide

/-- Put an item in front of position `i`. -/
def insert [Allocator] (i item : UInt64) : ArrayHandle → Except Fault ArrayHandle
  | .narrow a => (a.insert i item.toUInt32).map .narrow
  | .wide a => (a.insert i item).map .wide

/-- Take away `count` items from position `i` on. -/
def remove (i count : UInt64) : ArrayHandle → Except Fault ArrayHandle
  | .narrow a => (a.remove i count).map .narrow
  | .wide a => (a.remove i count).map .wide

/-- A new array, of the same width, of the `count` items from position `i` on. -/
def slice [Allocator] (i count : UInt64) : ArrayHandle → Except Fault ArrayHandle
  | .narrow a => (a.slice i count).map .narrow
  | .wide a => (a.slice i count).map .wide

end ArrayHandle

/-! ## New arrays and vectors -/

/-- An empty array of items of `width` bytes; null unless that is four or eight. -/
def newArray [Allocator] (width : UInt64) : Pointer ArrayHandle :=
  if width = 4 then handle (boxed (GrowableArray.empty.map .narrow))
  else if width = 8 then handle (boxed (GrowableArray.empty.map .wide))
  else none

/-- A full array of integers, by their bits. -/
def newArrayOfInts [Allocator] (values : Pointer (List Int32)) (count : UInt64) :
    Pointer ArrayHandle := do
  let ints ← borrow values count
  handle (boxed ((GrowableArray.ofList (ints.map Int32.toUInt32)).map .narrow))

/-- A full array of the 32-bit numbers nearest to these 64-bit numbers, all as bits. -/
def newArrayOfFloats [Allocator] (values : Pointer (List UInt64)) (count : UInt64) :
    Pointer ArrayHandle := do
  let floats ← borrow values count
  handle (boxed ((GrowableArray.ofPushes (floats.map FloatFormat.narrow)).map .narrow))

/-- A full array of addresses of strings. The strings stay the caller's. -/
def newArrayOfStrings [Allocator] (values : Pointer (List UInt64)) (count : UInt64) :
    Pointer ArrayHandle := do
  let addresses ← borrow values count
  handle (boxed ((GrowableArray.ofPushes addresses).map .wide))

/-- A vector of integers, by their bits. -/
def newVectorOfInts [Allocator] (values : Pointer (List Int32)) (count : UInt64) :
    Pointer (Array UInt32) := do
  let ints ← borrow values count
  handle (ExactVector.ofList (ints.map Int32.toUInt32))

/-- A vector of the 32-bit numbers nearest to these 64-bit numbers, all as bits. -/
def newVectorOfFloats [Allocator] (values : Pointer (List UInt64)) (count : UInt64) :
    Pointer (Array UInt32) := do
  let floats ← borrow values count
  handle (ExactVector.ofFloats floats)

/-- A vector of addresses of strings. The strings stay the caller's. -/
def newVectorOfStrings [Allocator] (values : Pointer (List UInt64)) (count : UInt64) :
    Pointer (Array UInt64) := do
  let addresses ← borrow values count
  handle (ExactVector.ofList addresses)

/-! ## Calls on an array -/

/-- The number of items, or zero for null. -/
def itemCount (array : Pointer ArrayHandle) : UInt64 := array.elim 0 ArrayHandle.len

/-- The capacity, or zero for null. -/
def itemRoom (array : Pointer ArrayHandle) : UInt64 := array.elim 0 ArrayHandle.capacity

/-- Read the item at position `i` into `out`. -/
def readItem (array : Pointer ArrayHandle) (i : UInt64) (out : Pointer UInt64) :
    Status × Pointer UInt64 :=
  match array, out with
  | some a, some before => settle (some before) ((a.get i).map some)
  | _, _ => (.nullHandle, out)

/-- Change an array in place: the changed array, or the array as it was and the status of the
fault. -/
def changeItems (array : Pointer ArrayHandle) (change : ArrayHandle → Except Fault ArrayHandle) :
    Status × Pointer ArrayHandle :=
  match array with
  | none => (.nullHandle, none)
  | some a => settle (some a) ((change a).map some)

/-- Put another item at position `i`. -/
def writeItem (array : Pointer ArrayHandle) (i item : UInt64) : Status × Pointer ArrayHandle :=
  changeItems array (·.set i item)

/-- Put an item in front of position `i`. -/
def insertItem [Allocator] (array : Pointer ArrayHandle) (i item : UInt64) :
    Status × Pointer ArrayHandle :=
  changeItems array (·.insert i item)

/-- Take away `count` items from position `i` on. -/
def removeItems (array : Pointer ArrayHandle) (i count : UInt64) :
    Status × Pointer ArrayHandle :=
  changeItems array (·.remove i count)

/-- Store a new array of the `count` items from position `i` on through `out`. -/
def cutItems [Allocator] (array : Pointer ArrayHandle) (i count : UInt64)
    (out : Pointer (Pointer ArrayHandle)) : Status × Pointer (Pointer ArrayHandle) :=
  match array, out with
  | some a, some before => settle (some before) ((boxed (a.slice i count)).map (some ∘ some))
  | _, _ => (.nullHandle, out)

/-- A call without a new array leaves the place for it alone. -/
theorem cutItems_of_ne_ok [Allocator] {array : Pointer ArrayHandle} {i count : UInt64}
    {out : Pointer (Pointer ArrayHandle)} (h : (cutItems array i count out).1 ≠ .ok) :
    (cutItems array i count out).2 = out := by
  cases array <;> cases out <;> first | exact settle_of_ne_ok h | rfl

end Containers.Foreign
