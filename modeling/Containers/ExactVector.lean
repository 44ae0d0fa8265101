import Containers.Allocation
import Containers.FloatFormat.Narrow
import Containers.Layout

/-!
# Vectors of exactly the right size

Where the number of items is known from the start, they are put into one allocation of that size,
which never grows. Floating-point numbers come in as 64-bit numbers and are stored as the nearest
32-bit ones.
-/

namespace Containers.ExactVector

/-- Items of `width` bytes in a vector of their own. -/
def ofWidth [Allocator] {α : Type} (width : Nat) (items : List α) : Except Fault (Array α) := do
  Allocation.request width items.length
  return items.toArray

/-- A copy of these items. -/
def ofList [Allocator] {α : Type} [Layout α] (items : List α) : Except Fault (Array α) :=
  ofWidth (Layout.width α) items

/-- The 32-bit numbers nearest to these 64-bit numbers, all as bits. -/
def ofFloats [Allocator] (items : List UInt64) : Except Fault (Array UInt32) :=
  ofList (items.map FloatFormat.narrow)

/-- The number of bytes of a reference to a string: its address and its length. -/
def referenceWidth : Nat := 16

/-- References to these strings, which stay where they are. -/
def ofStrings [Allocator] (items : List String) : Except Fault (Array String) :=
  ofWidth referenceWidth items

/-- One item in an allocation of its own. -/
def single [Allocator] {α : Type} [Layout α] (item : α) : Except Fault α := do
  Allocation.request (Layout.width α) 1
  return item

/-- An item that has been moved is still the same. -/
theorem of_single_eq_ok {_ : Allocator} {α : Type} [Layout α] {item moved : α}
    (h : single item = .ok moved) : item = moved := by
  obtain ⟨_, -, hdone⟩ := of_bind_eq_ok h
  cases hdone
  rfl

/-- The usual allocator refuses no item of ordinary size. -/
theorem single_eq_ok {α : Type} [Layout α] (h : Layout.width α < Allocation.ceiling) (item : α) :
    single item = .ok item := by
  rw [single, Allocation.request_eq_ok.2 (by omega)]
  rfl

end Containers.ExactVector
