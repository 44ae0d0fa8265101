import Containers.Proofs.GrowableArray.Contents

/-!
# Edits of sequences

What the operations on a sequence make of it as long as there is memory (`Sequence.insert?` and the
like). Nothing but the range of positions decides whether they make anything, so they are the same
for items of every type: an operation on the image of a sequence, its items cast to another type,
comes to the image of what the edit makes (`Comes`), to a range that is not in the sequence exactly
if the edit makes nothing, or to a refusal of memory. An array with a free slot is not refused any
(`Holds.insert_of_lt`), so a push can only fail at a full one (`Holds.push_cases`).
-/

namespace Containers

namespace Sequence

variable {α β : Type}

/-- The sequence with a function applied to every item. -/
def map (f : α → β) (s : Sequence α) : Sequence β := ⟨s.items.map f, s.capacity⟩

/-- Another item at position `i`, if the sequence has this position. -/
def set? (s : Sequence α) (i : Nat) (item : α) : Option (Sequence α) :=
  if i < s.items.length then some { s with items := s.items.set i item } else none

/-- The capacity once there is room for another item. A full sequence gains half its capacity, and
at least four slots. -/
def roomyCapacity (s : Sequence α) : Nat :=
  if s.items.length < s.capacity then s.capacity else s.capacity + max 4 (s.capacity / 2)

/-- Another item in front of position `i`, if that is not behind the end. -/
def insert? (s : Sequence α) (i : Nat) (item : α) : Option (Sequence α) :=
  if i ≤ s.items.length then
    some ⟨s.items.take i ++ item :: s.items.drop i, s.roomyCapacity⟩
  else none

/-- Without the `count` items from position `i` on, if the sequence has them. -/
def remove? (s : Sequence α) (i count : Nat) : Option (Sequence α) :=
  if i + count ≤ s.items.length then
    some { s with items := s.items.take i ++ s.items.drop (i + count) }
  else none

/-- The `count` items from position `i` on with no spare room, if the sequence has them. -/
def slice? (s : Sequence α) (i count : Nat) : Option (Sequence α) :=
  if i + count ≤ s.items.length then some ⟨(s.items.drop i).take count, count⟩ else none

end Sequence

/-- What an operation comes to where it is expected to make something, or nothing if its range is
not in the container: that, or a refusal of memory. -/
inductive Comes {β γ : Type} (R : γ → β → Prop) : Except Fault γ → Option β → Prop where
  | done {c : γ} {b : β} (h : R c b) : Comes R (.ok c) (some b)
  | outside (start stop len : UInt64) : Comes R (.error (.outOfRange start stop len)) none
  | refused (requested : UInt64) (expected : Option β) :
    Comes R (.error (.allocation requested)) expected

namespace Comes

variable {β γ δ : Type} {R : γ → β → Prop} {result : Except Fault γ} {expected : Option β}

/-- What an operation makes may be changed, along with what it is expected to make. -/
theorem map {R' : δ → β → Prop} {f : γ → δ} (h : Comes R result expected)
    (hf : ∀ c b, R c b → R' (f c) b) : Comes R' (result.map f) expected := by
  cases h with
  | done h => exact .done (hf _ _ h)
  | outside start stop len => exact .outside start stop len
  | refused requested => exact .refused requested expected

/-- A computation that comes out like the operation comes to what the operation comes to. -/
theorem of_alike {R' : δ → β → Prop} {S : δ → γ → Prop} {other : Except Fault δ}
    (h : Comes R result expected) (halike : Alike S other result)
    (hR : ∀ d c b, S d c → R c b → R' d b) : Comes R' other expected := by
  cases halike with
  | ok hd =>
    cases h with
    | done hc => exact .done (hR _ _ _ hd hc)
  | error fault =>
    cases h with
    | outside start stop len => exact .outside start stop len
    | refused requested => exact .refused requested expected

/-- What needs memory comes to what is expected, or to a refusal. -/
theorem of_request [Allocator] {width count : Nat} {c : γ} {b : β} (h : R c b) :
    Comes R ((Allocation.request width count).map fun _ => c) (some b) := by
  rcases Allocation.request_cases width count with hgranted | hrefused
  · rw [hgranted]
    exact .done h
  · rw [hrefused]
    exact .refused _ _

end Comes

namespace Sequence

variable {α β : Type} {s : Sequence β} {f : β → α}

/-- A sequence is another one with a function applied to every item. -/
abbrev Image (f : β → α) (t : Sequence α) (s : Sequence β) : Prop := t = s.map f

/-- Setting an item comes to what the edit makes. -/
theorem comes_set (s : Sequence β) (f : β → α) (i : Nat) (item : β) :
    Comes (Image f) ((s.map f).set i (f item)) (s.set? i item) := by
  simp only [set, set?, map, List.length_map]
  split
  · exact .done (by simp [Image, map, List.map_set])
  · exact .outside _ _ _

/-- Removing items comes to what the edit makes. -/
theorem comes_remove (s : Sequence β) (f : β → α) (i count : Nat) :
    Comes (Image f) ((s.map f).remove i count) (s.remove? i count) := by
  simp only [remove, remove?, map, List.length_map]
  split
  · exact .done (by simp [Image, map])
  · exact .outside _ _ _

variable [Allocator] [Layout α]

/-- Slicing comes to what the edit makes, or to a refusal. -/
theorem comes_slice (s : Sequence β) (f : β → α) (i count : Nat) :
    Comes (Image f) ((s.map f).slice i count) (s.slice? i count) := by
  simp only [slice, slice?, map, List.length_map]
  split
  · exact .of_request (by simp [Image, map])
  · exact .outside _ _ _

/-- Making room comes to the capacity that is expected, or to a refusal. -/
theorem comes_room (s : Sequence α) : Comes Eq s.room (some s.roomyCapacity) := by
  unfold room roomyCapacity
  split
  · exact .done rfl
  · dsimp only
    split
    · exact .of_request rfl
    · exact .refused _ _

/-- Inserting comes to what the edit makes, or to a refusal. -/
theorem comes_insert (s : Sequence β) (f : β → α) (i : Nat) (item : β) :
    Comes (Image f) ((s.map f).insert i (f item)) (s.insert? i item) := by
  have hlength : (s.map f).items.length = s.items.length := List.length_map f
  have hcapacity : (s.map f).roomyCapacity = s.roomyCapacity := by
    unfold roomyCapacity
    rw [hlength]
    rfl
  have hroom := comes_room (s.map f)
  rw [insert, insert?, hlength]
  split
  · generalize (s.map f).room = granted at hroom ⊢
    cases hroom with
    | done h =>
      refine .done ?_
      simp only [Image, map, List.map_append, List.map_cons, List.map_take, List.map_drop, h]
      rw [← hcapacity]
      rfl
    | refused requested => exact .refused _ _
  · exact .outside _ _ _

end Sequence

/-! ## Inserting where there is room -/

namespace GrowableArray

variable [Allocator] {α : Type} [Layout α] {a : GrowableArray α} {s : Sequence α}

/-- An insert at a position of the array, or at its end, can only be refused memory, and only if
the array is full. -/
theorem Holds.insert_cases (h : a.Holds s) {i : UInt64} (hi : i.toNat ≤ s.items.length)
    (item : α) :
    (∃ b, a.insert i item = .ok b ∧
      b.Holds ⟨s.items.take i.toNat ++ item :: s.items.drop i.toNat, s.roomyCapacity⟩) ∨
    (s.items.length = s.capacity ∧
      ∃ requested, a.insert i item = .error (.allocation requested)) := by
  have hinsert := h.insert i item
  have hroom := s.comes_room
  have hle := h.room
  have hfree : s.items.length < s.capacity → s.room = .ok s.capacity := by
    intro hlt
    rw [Sequence.room, if_pos hlt]
  rw [Sequence.insert, if_pos hi] at hinsert
  generalize s.room = granted, a.insert i item = result at hinsert hroom hfree ⊢
  cases hroom with
  | done hcapacity =>
    subst hcapacity
    cases hinsert with
    | ok hb => exact .inl ⟨_, rfl, hb⟩
  | refused requested =>
    have hfull : ¬ s.items.length < s.capacity := by
      intro hlt
      cases hfree hlt
    cases hinsert with
    | error => exact .inr ⟨by omega, requested, rfl⟩

/-- An array with a free slot takes another item without growing. -/
theorem Holds.insert_of_lt (h : a.Holds s) (hfree : s.items.length < s.capacity) {i : UInt64}
    (hi : i.toNat ≤ s.items.length) (item : α) :
    ∃ b, a.insert i item = .ok b ∧
      b.Holds ⟨s.items.take i.toNat ++ item :: s.items.drop i.toNat, s.capacity⟩ := by
  rcases h.insert_cases hi item with hdone | ⟨hfull, -⟩
  · rwa [Sequence.roomyCapacity, if_pos hfree] at hdone
  · omega

/-- A push can only be refused memory, and only if the array is full. -/
theorem Holds.push_cases (h : a.Holds s) (item : α) :
    (∃ b, a.push item = .ok b ∧ b.Holds ⟨s.items ++ [item], s.roomyCapacity⟩) ∨
    (s.items.length = s.capacity ∧
      ∃ requested, a.push item = .error (.allocation requested)) := by
  have hcases := h.insert_cases (Nat.le_of_eq h.len_eq) item
  rwa [h.len_eq, List.take_length, List.drop_length] at hcases

/-- An array with a free slot for each of the items takes them all without growing. -/
theorem Holds.foldlM_push (h : a.Holds s) {items : List α}
    (hfree : s.items.length + items.length ≤ s.capacity) :
    ∃ b, items.foldlM push a = .ok b ∧ b.Holds ⟨s.items ++ items, s.capacity⟩ := by
  induction items generalizing a s with
  | nil => exact ⟨a, rfl, by rwa [List.append_nil]⟩
  | cons item items ih =>
    rw [List.length_cons] at hfree
    have hroom : s.items.length < s.capacity := by omega
    rcases h.push_cases item with ⟨b, hpush, hb⟩ | ⟨hfull, -⟩
    · rw [Sequence.roomyCapacity, if_pos hroom] at hb
      obtain ⟨c, hrest, hc⟩ := ih hb (by simp; omega)
      rw [List.append_assoc] at hc
      exact ⟨c, by rw [List.foldlM_cons, hpush]; exact hrest, hc⟩
    · omega

end GrowableArray

end Containers
