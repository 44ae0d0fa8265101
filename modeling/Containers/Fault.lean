import Containers.Word

/-!
# Faults

The three things that can go wrong in a container operation, each with the data its report needs.
Everything else is defined behaviour: storing under a key that is present replaces its payload, and
removing an empty range does nothing. The wording of a report is in `Fault.message` alone.
-/

namespace Containers

/-- What an operation reports instead of a result. -/
inductive Fault where
  /-- The allocator refused a request of this many bytes. -/
  | allocation (requested : UInt64)
  /-- The positions from `start` up to, but not including, `stop` do not lie in a container of
  `len` items. -/
  | outOfRange (start stop len : UInt64)
  /-- A lookup that has to find something found no entry for its key. -/
  | keyNotFound
deriving DecidableEq

namespace Fault

/-- The fault of asking for `count` items from position `start` on. The end of the range is cut
off at the largest word. -/
def ofRange (start count len : UInt64) : Fault :=
  .outOfRange start (saturate (start.toNat + count.toNat)) len

/-- The fault of asking for `count` items of `width` bytes. The size is cut off at the largest
word. -/
def ofRequest (width count : Nat) : Fault :=
  .allocation (saturate (width * count))

/-- The sentence shown to a person. -/
def message : Fault → String
  | .allocation requested => s!"failed to allocate storage for {requested} bytes"
  | .outOfRange start stop len => s!"range {start}..{stop} is out of bounds for length {len}"
  | .keyNotFound => "no entry for the requested key"

/-- The name of the kind of fault. -/
def kind : Fault → String
  | .allocation _ => "Allocation"
  | .outOfRange .. => "OutOfRange"
  | .keyNotFound => "KeyNotFound"

/-- The kind of fault with its data by name, for logs. -/
def debugText (f : Fault) : String :=
  match f with
  | .allocation requested => s!"{f.kind} \x7b requested: {requested} \x7d"
  | .outOfRange start stop len =>
    s!"{f.kind} \x7b start: {start}, end: {stop}, len: {len} \x7d"
  | .keyNotFound => f.kind

end Fault

/-- What is computed in steps comes out well only if its first step does. -/
theorem of_bind_eq_ok {β γ : Type} {first : Except Fault β} {rest : β → Except Fault γ} {c : γ}
    (h : first >>= rest = .ok c) : ∃ b, first = .ok b ∧ rest b = .ok c := by
  cases first with
  | ok b => exact ⟨b, rfl, h⟩
  | error fault => cases h

end Containers
