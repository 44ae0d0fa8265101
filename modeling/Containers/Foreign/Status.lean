import Containers.ExactVector

/-!
# Status codes

Callers in C get a number for what became of a call. Every fault of a container has one, and two
more say that the call itself was not possible: a pointer that it needs is null, or the map has
keys of another kind.

A pointer is an `Option`: null is `none`, and otherwise the value is what it points at. A function
that writes through a pointer answers with what the pointer points at afterwards.
-/

namespace Containers.Foreign

/-- A pointer that may be null, as what it points at. -/
abbrev Pointer (α : Type) := Option α

/-- What became of a call. -/
inductive Status where
  /-- The call succeeded. -/
  | ok
  /-- Memory was refused. -/
  | allocation
  /-- A position or range was not in the container. -/
  | outOfRange
  /-- A lookup found no entry. -/
  | keyNotFound
  /-- A pointer that the call needs is null. -/
  | nullHandle
  /-- The key is not of the kind that the map has. -/
  | badKind
deriving DecidableEq

namespace Status

/-- The number of a status. -/
def code : Status → Nat
  | .ok => 0
  | .allocation => 1
  | .outOfRange => 2
  | .keyNotFound => 3
  | .nullHandle => 4
  | .badKind => 5

/-- The name of a status in logs. -/
def name : Status → String
  | .ok => "Ok"
  | .allocation => "Allocation"
  | .outOfRange => "OutOfRange"
  | .keyNotFound => "KeyNotFound"
  | .nullHandle => "NullHandle"
  | .badKind => "BadKind"

/-- The status of a fault. -/
def ofFault : Fault → Status
  | .allocation _ => .allocation
  | .outOfRange .. => .outOfRange
  | .keyNotFound => .keyNotFound

/-- The status of a result. -/
def ofResult {α : Type} : Except Fault α → Status
  | .ok _ => .ok
  | .error fault => ofFault fault

end Status

/-- The number of bytes of an array or a map as an object of its own: three words, and one more that
says of which kind it is. -/
def objectWidth : Nat := 32

/-- The object behind a handle takes memory, so its box is asked for. -/
theorem objectWidth_ne_zero : objectWidth ≠ 0 := by decide

/-- An object that has been made, in an allocation of its own: the callers know it by its
address. -/
def boxed [Allocator] {α : Type} [Layout α] (made : Except Fault α) : Except Fault α := do
  let object ← made
  Allocation.after 1 (ExactVector.single object)

/-- A result as a handle: null if there is none. -/
def handle {α : Type} : Except Fault α → Pointer α
  | .ok a => some a
  | .error _ => none

/-- What a call leaves behind: the result of a change with its status, or what was there before and
the status of the fault. -/
def settle {α : Type} (before : α) : Except Fault α → Status × α
  | .ok after => (.ok, after)
  | .error fault => (.ofFault fault, before)

/-- A handle is that of the object that has been made. -/
theorem of_handle_boxed [Allocator] {α : Type} [Layout α] {made : Except Fault α} {object : α}
    (h : handle (boxed made) = some object) : made = .ok object := by
  cases hboxed : boxed made with
  | error fault =>
    rw [hboxed] at h
    cases h
  | ok moved =>
    rw [hboxed] at h
    cases h
    obtain ⟨item, hmade, hsingle⟩ := of_bind_eq_ok hboxed
    rw [hmade, ExactVector.of_single_eq_ok hsingle]

/-- The usual allocator has room for every object that is made: it is of ordinary size. -/
theorem boxed_eq {α : Type} [Layout α] (h : Layout.width α < Allocation.ceiling)
    (made : Except Fault α) : boxed made = made := by
  cases made with
  | error fault => rfl
  | ok object => exact ExactVector.single_eq_ok h object

/-- Where the status is not the one of success, what was there before is still there. -/
theorem settle_of_ne_ok {α : Type} {before : α} {result : Except Fault α}
    (h : (settle before result).1 ≠ .ok) : (settle before result).2 = before := by
  cases result with
  | ok after => exact absurd rfl h
  | error fault => rfl

end Containers.Foreign
