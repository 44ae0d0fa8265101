import Containers.GrowableArray.Basic

/-!
# Operations on growable arrays as data

An array's life is a run of operations, each with an answer. `Operation.apply` carries out one of
them, and `run` a list of them in order. An operation that answers with a fault leaves the array as
it was, and slicing and reading never change it.
-/

namespace Containers.GrowableArray

/-- An operation on one array. -/
inductive Operation (α : Type) where
  /-- Read the item at position `i`. -/
  | get (i : UInt64)
  /-- Put another item at position `i`. -/
  | set (i : UInt64) (item : α)
  /-- Put an item in front of position `i`. -/
  | insert (i : UInt64) (item : α)
  /-- Put an item at the end. -/
  | push (item : α)
  /-- Take away `count` items from position `i` on. -/
  | remove (i count : UInt64)
  /-- Copy `count` items from position `i` on to a new array. -/
  | slice (i count : UInt64)

/-- What an operation gives back. -/
inductive Answer (α : Type) where
  /-- The array has been changed. -/
  | done
  /-- The item that was asked for. -/
  | item (a : α)
  /-- The array that was cut out. -/
  | array (a : GrowableArray α)

variable {α : Type} [Layout α]

/-- The array after a change, or the array as it was and the fault of the change. -/
def settle (a : GrowableArray α) :
    Except Fault (GrowableArray α) → GrowableArray α × Except Fault (Answer α)
  | .ok changed => (changed, .ok .done)
  | .error fault => (a, .error fault)

/-- Carry out one operation. -/
def Operation.apply [Allocator] (a : GrowableArray α) :
    Operation α → GrowableArray α × Except Fault (Answer α)
  | .get i => (a, (a.get i).map .item)
  | .set i item => a.settle (a.set i item)
  | .insert i item => a.settle (a.insert i item)
  | .push item => a.settle (a.push item)
  | .remove i count => a.settle (a.remove i count)
  | .slice i count => (a, (a.slice i count).map .array)

/-- An operation that answers with a fault leaves the array as it was. -/
theorem Operation.apply_of_error [Allocator] {a : GrowableArray α} {operation : Operation α}
    {fault : Fault} (h : (operation.apply a).2 = .error fault) : (operation.apply a).1 = a := by
  have hsettle : ∀ {changed : Except Fault (GrowableArray α)},
      (a.settle changed).2 = .error fault → (a.settle changed).1 = a := by
    intro changed hchanged
    cases changed with
    | ok next => cases hchanged
    | error other => rfl
  cases operation with
  | get | slice => rfl
  | set | insert | push | remove => exact hsettle h

/-- Carry out operations in order, with all their answers. None of them asks for memory more than
once. -/
def run [Allocator] (a : GrowableArray α) :
    List (Operation α) → GrowableArray α × List (Except Fault (Answer α))
  | [] => (a, [])
  | operation :: operations =>
    let (next, answer) := operation.apply a
    let (last, answers) := Allocation.after 1 (next.run operations)
    (last, answer :: answers)

end Containers.GrowableArray
