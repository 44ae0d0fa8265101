import Containers.GrowableArray.Operation

/-!
# Sequences

A `Sequence` is what an array is to those who use it: a list of items and a number of slots. Its
operations cut and join lists, and all their arithmetic is on natural numbers, so that no position
wraps around and no slot is ever moved. An insert that finds no free slot asks for a larger number
of them (`Sequence.room`), which is the only thing about memory that shows.
-/

namespace Containers

/-- A list of items with room for `capacity` of them. -/
structure Sequence (α : Type) where
  /-- The items in order. -/
  items : List α
  /-- The number of items there is room for. -/
  capacity : Nat

namespace Sequence

/-- What an operation gives back. -/
inductive Answer (α : Type) where
  /-- The sequence has been changed. -/
  | done
  /-- The item that was asked for. -/
  | item (a : α)
  /-- The sequence that was cut out. -/
  | sequence (s : Sequence α)

variable {α : Type}

/-- The fault of asking for the positions from `start` up to, but not including, `stop`. The end
is cut off at the largest word. -/
def outOfRange (s : Sequence α) (start stop : Nat) : Fault :=
  .outOfRange (.ofNat start) (saturate stop) (.ofNat s.items.length)

/-- The item at position `i`. -/
def get (s : Sequence α) (i : Nat) : Except Fault α :=
  if h : i < s.items.length then .ok s.items[i] else .error (s.outOfRange i (i + 1))

/-- Another item at position `i`. -/
def set (s : Sequence α) (i : Nat) (item : α) : Except Fault (Sequence α) :=
  if i < s.items.length then .ok { s with items := s.items.set i item }
  else .error (s.outOfRange i (i + 1))

/-- Without the `count` items from position `i` on. -/
def remove (s : Sequence α) (i count : Nat) : Except Fault (Sequence α) :=
  if i + count ≤ s.items.length then
    .ok { s with items := s.items.take i ++ s.items.drop (i + count) }
  else .error (s.outOfRange i (i + count))

variable [Layout α]

/-- The capacity once there is room for another item. A full sequence gains half its capacity, and
at least four slots, if the new capacity is a word and the request for it is granted. -/
def room [Allocator] (s : Sequence α) : Except Fault Nat :=
  if s.items.length < s.capacity then .ok s.capacity
  else
    let grown := s.capacity + max 4 (s.capacity / 2)
    if grown < UInt64.size then (Allocation.request (Layout.width α) grown).map fun _ => grown
    else .error (.allocation wordMax)

/-- With another item in front of position `i`. A position behind the end is refused before any
growth. -/
def insert [Allocator] (s : Sequence α) (i : Nat) (item : α) : Except Fault (Sequence α) :=
  if i ≤ s.items.length then
    s.room.map fun capacity => ⟨s.items.take i ++ item :: s.items.drop i, capacity⟩
  else .error (s.outOfRange i i)

/-- The `count` items from position `i` on, with no spare room. -/
def slice [Allocator] (s : Sequence α) (i count : Nat) : Except Fault (Sequence α) :=
  if i + count ≤ s.items.length then
    (Allocation.request (Layout.width α) count).map fun _ =>
      ⟨(s.items.drop i).take count, count⟩
  else .error (s.outOfRange i (i + count))

/-- Room is a free slot, or what one step of growth adds to a full sequence. The slots are granted
then. -/
theorem of_room_eq_ok [Allocator] {s : Sequence α} {capacity : Nat} (h : s.room = .ok capacity) :
    (s.items.length < s.capacity ∧ capacity = s.capacity) ∨
      (s.capacity ≤ s.items.length ∧ capacity = s.capacity + max 4 (s.capacity / 2) ∧
        Allocation.request (Layout.width α) capacity = .ok ()) := by
  unfold room at h
  split at h
  next hfree =>
    cases h
    exact .inl ⟨hfree, rfl⟩
  next hfull =>
    dsimp only at h
    generalize s.capacity + max 4 (s.capacity / 2) = grown at h ⊢
    split at h
    · cases hrequest : Allocation.request (Layout.width α) grown with
      | error fault =>
        rw [hrequest] at h
        cases h
      | ok _ =>
        rw [hrequest] at h
        cases h
        exact .inr ⟨Nat.le_of_not_lt hfull, rfl, hrequest⟩
    · cases h

/-- A slice is the run of items with no spare room, and its slots have been granted. -/
theorem of_slice_eq_ok {_ : Allocator} {s part : Sequence α} {i count : Nat}
    (h : s.slice i count = .ok part) :
    part = ⟨(s.items.drop i).take count, count⟩ ∧
      Allocation.request (Layout.width α) count = .ok () := by
  unfold slice at h
  split at h
  · cases hrequest : Allocation.request (Layout.width α) count with
    | error fault =>
      rw [hrequest] at h
      cases h
    | ok _ =>
      rw [hrequest] at h
      cases h
      exact ⟨rfl, rfl⟩
  · cases h

omit [Layout α] in
/-- The sequence after a change, or the sequence as it was and the fault of the change. -/
def settle (s : Sequence α) :
    Except Fault (Sequence α) → Sequence α × Except Fault (Answer α)
  | .ok changed => (changed, .ok .done)
  | .error fault => (s, .error fault)

/-- One operation on a sequence. -/
def step [Allocator] (s : Sequence α) :
    GrowableArray.Operation α → Sequence α × Except Fault (Answer α)
  | .get i => (s, (s.get i.toNat).map .item)
  | .set i item => s.settle (s.set i.toNat item)
  | .insert i item => s.settle (s.insert i.toNat item)
  | .push item => s.settle (s.insert s.items.length item)
  | .remove i count => s.settle (s.remove i.toNat count.toNat)
  | .slice i count => (s, (s.slice i.toNat count.toNat).map .sequence)

/-- Operations on a sequence in order, with all their answers. -/
def run [Allocator] (s : Sequence α) :
    List (GrowableArray.Operation α) → Sequence α × List (Except Fault (Answer α))
  | [] => (s, [])
  | operation :: operations =>
    let (next, answer) := s.step operation
    let (last, answers) := Allocation.after 1 (next.run operations)
    (last, answer :: answers)

end Sequence

end Containers
