import Containers.Proofs.GrowableArray.Refinement
import Mathlib.Logic.Function.Basic

/-!
# Access to slots

A buffer does not know which of its slots have been written. Here a record of them is kept beside it
(`Marks`): storing an item marks a slot, a move takes the marks along, and a larger block has the
marks of the old one. The record tells written slots from unwritten ones also for items of width
zero, whose slots all read alike. For all other items it says exactly which cells hold something
(`Buffer.Marked`).

What an operation does in a buffer is a list of accesses (`Operation.work`). They are permitted if
they stay inside the buffer and read marked slots only (`Buffer.Permitted`). All of them are,
because the first slots of an array are marked, as many as it has items (`Accounted`): what moves
are items, and an insert writes the one slot in front of the new end that no item moves to.
-/

namespace Containers

/-- Which slots of a buffer have been written. -/
abbrev Marks := Nat → Bool

namespace Marks

/-- No slot has been written. -/
def none : Marks := fun _ => false

/-- The first slots have been written. -/
def front (count : Nat) : Marks := fun j => decide (j < count)

/-- The written slots that a block of `before` slots has in common with a block of `after`. -/
def carry (written : Marks) (before after : UInt64) : Marks :=
  fun j => written j && decide (j < before.toNat ∧ j < after.toNat)

/-- The written slots among `count` of them from slot `start` on. -/
def window (written : Marks) (start count : Nat) : Marks :=
  fun j => decide (j < count) && written (start + j)

end Marks

namespace Buffer

variable {α : Type}

/-! ## Accesses -/

namespace Access

/-- All slots that are read or written exist in a buffer of this many. -/
def InBounds (capacity : UInt64) : Access α → Prop
  | .move source target count =>
    source.toNat + count.toNat ≤ capacity.toNat ∧ target.toNat + count.toNat ≤ capacity.toNat
  | .store index _ => index < capacity

/-- The slots that are read. -/
def Reads : Access α → Nat → Prop
  | .move source _ count => fun j => source.toNat ≤ j ∧ j < source.toNat + count.toNat
  | .store _ _ => fun _ => False

/-- Which slots are written after an access. A slot that takes over what an unwritten one held is
unwritten. -/
def mark (written : Marks) : Access α → Marks
  | .move source target count => fun j =>
    if target.toNat ≤ j ∧ j < target.toNat + count.toNat then
      written (j - target.toNat + source.toNat)
    else written j
  | .store index _ => Function.update written index.toNat true

/-- After a move, a target slot is written if its source slot was, and the others are as before. -/
theorem mark_move (written : Marks) (source target count : UInt64) (j : Nat) :
    (Access.move source target count : Access α).mark written j =
      if target.toNat ≤ j ∧ j < target.toNat + count.toNat then
        written (j - target.toNat + source.toNat)
      else written j := rfl

end Access

/-- Accesses, one after the other, stay inside a buffer of this many slots and read only slots that
have been written by then. -/
def Permitted (capacity : UInt64) : Marks → List (Access α) → Prop
  | _, [] => True
  | written, access :: accesses =>
    access.InBounds capacity ∧ (∀ j, access.Reads j → written j) ∧
      Permitted capacity (access.mark written) accesses

/-- No access changes the number of slots. -/
theorem capacity_perform (b : Buffer α) (access : Access α) :
    (b.perform access).capacity = b.capacity := by
  cases access with
  | move source target count => exact capacity_move b source target count
  | store index item => rfl

variable [Layout α] {b : Buffer α} {written : Marks}

/-- A sound buffer of which only slots that exist are marked. For items that take memory, the marked
slots are those that hold an item. -/
structure Marked (b : Buffer α) (written : Marks) : Prop where
  sound : b.Sound
  lt_capacity : ∀ j, written j → j < b.capacity.toNat
  isSome_slot? : Layout.width α ≠ 0 → ∀ j, (b.slot? j).isSome = written j

namespace Marked

/-- An access inside the buffer writes what it marks. -/
theorem perform (h : Marked b written) {access : Access α} (hin : access.InBounds b.capacity) :
    Marked (b.perform access) (access.mark written) := by
  cases access with
  | move source target count =>
    obtain ⟨hsource, htarget⟩ := hin
    refine ⟨sound_move h.sound source target count, fun j hj => ?_, fun hwidth j => ?_⟩
    · rw [capacity_perform]
      rw [Access.mark_move] at hj
      split at hj
      · omega
      · exact h.lt_capacity j hj
    · rw [Buffer.perform, slot?_move h.sound hsource htarget, Access.mark_move]
      split <;> exact h.isSome_slot? hwidth _
  | store index item =>
    have hlt := UInt64.lt_iff_toNat_lt.1 hin
    refine ⟨sound_store h.sound index item, fun j hj => ?_, fun hwidth j => ?_⟩
    · rw [capacity_perform]
      by_cases heq : j = index.toNat
      · omega
      · rw [Access.mark, Function.update_of_ne heq] at hj
        exact h.lt_capacity j hj
    · rw [Buffer.perform, slot?_store h.sound hin, Access.mark, Function.update_apply]
      split
      · rfl
      · exact h.isSome_slot? hwidth j

/-- Permitted accesses write what they mark. -/
theorem foldl_perform {accesses : List (Access α)} (h : Marked b written)
    (hpermitted : Permitted b.capacity written accesses) :
    Marked (accesses.foldl Buffer.perform b) (accesses.foldl Access.mark written) := by
  induction accesses generalizing b written with
  | nil => exact h
  | cons access accesses ih =>
    obtain ⟨hin, -, hrest⟩ := hpermitted
    refine ih (h.perform hin) ?_
    rw [capacity_perform]
    exact hrest

/-- A block that is not smaller has all marks of the old one. -/
theorem carry_eq (h : Marked b written) {capacity : UInt64} (hle : b.capacity ≤ capacity) :
    written.carry b.capacity capacity = written := by
  funext j
  have hle := UInt64.le_iff_toNat_le.1 hle
  cases hj : written j with
  | false => simp [Marks.carry, hj]
  | true =>
    have hlt := h.lt_capacity j hj
    simp [Marks.carry, hj, hlt, Nat.lt_of_lt_of_le hlt hle]

end Marked

/-! ## Blocks -/

/-- A new block has no written slots. -/
theorem Marked.allocate {_ : Allocator} {capacity : UInt64} (hb : allocate capacity = .ok b) :
    Marked b .none := by
  obtain ⟨-, -, hsound⟩ := of_allocate_eq_ok hb
  obtain ⟨_, -, hdone⟩ := of_bind_eq_ok hb
  cases hdone
  refine ⟨hsound, fun j hj => (Bool.false_ne_true hj).elim, fun hwidth j => ?_⟩
  rw [slot?_of_width_pos hwidth, Array.getElem?_replicate]
  split <;> rfl

/-- The slots that a larger block has more than the old one are unwritten. -/
theorem Marked.resize {_ : Allocator} {grown : Buffer α} (h : Marked b written) {capacity : UInt64}
    (hle : b.capacity ≤ capacity) (hgrown : b.resize capacity = .ok grown) :
    Marked grown written := by
  obtain ⟨hcapacity, hsound, hslots⟩ := slot?_resize h.sound hle hgrown
  refine ⟨hsound, fun j hj => ?_, fun hwidth j => ?_⟩
  · rw [hcapacity]
    exact Nat.lt_of_lt_of_le (h.lt_capacity j hj) (UInt64.le_iff_toNat_le.1 hle)
  · by_cases hj : j < b.capacity.toNat
    · rw [hslots j hj]
      exact h.isSome_slot? hwidth j
    · have hunwritten : written j = false :=
        Bool.eq_false_iff.2 fun hwritten => hj (h.lt_capacity j hwritten)
      obtain ⟨_, -, hnew⟩ := of_bind_eq_ok hgrown
      obtain ⟨_, -, hdone⟩ := of_bind_eq_ok hnew
      cases hdone
      have hsize := h.sound.size hwidth
      rw [hunwritten, slot?_of_width_pos hwidth, Array.getElem?_append_right (by simp; omega),
        Array.getElem?_replicate]
      split <;> rfl

/-- Writing a list to the front of a new block marks as many slots as it has items. -/
theorem Marked.storeAll {items : List α} (h : Marked b .none)
    (hroom : items.length ≤ b.capacity.toNat) :
    Marked (b.storeAll 0 items) (.front items.length) := by
  have hzero : (0 : UInt64).toNat + items.length ≤ b.capacity.toNat := by simpa using hroom
  obtain ⟨hcapacity, hsound, hslots⟩ := slot?_storeAll h.sound hzero
  refine ⟨hsound, fun j hj => ?_, fun hwidth j => ?_⟩
  · rw [hcapacity]
    exact Nat.lt_of_lt_of_le (of_decide_eq_true hj) hroom
  · rw [hslots, UInt64.toNat_zero, Nat.zero_add, Nat.sub_zero, Marks.front]
    split
    next hin => simp [hin.2]
    next hout =>
      rw [h.isSome_slot? hwidth, Marks.none]
      simpa using hout

/-- Filling the front of a new block from another one takes over the marks of that run. -/
theorem Marked.load {other : Buffer α} {marks : Marks} {start count : UInt64}
    (h : Marked b .none) (hother : Marked other marks)
    (hsource : start.toNat + count.toNat ≤ other.capacity.toNat)
    (htarget : count.toNat ≤ b.capacity.toNat) :
    Marked (b.load other start count) (marks.window start.toNat count.toNat) := by
  obtain ⟨hcapacity, hsound, hslots⟩ := slot?_load h.sound hother.sound hsource htarget
  refine ⟨hsound, fun j hj => ?_, fun hwidth j => ?_⟩
  · rw [hcapacity]
    exact Nat.lt_of_lt_of_le (of_decide_eq_true (Bool.and_eq_true_iff.1 hj).1) htarget
  · rw [hslots, Marks.window]
    split
    next hin => rw [hother.isSome_slot? hwidth, decide_eq_true hin, Bool.true_and]
    next hout => rw [h.isSome_slot? hwidth, decide_eq_false hout, Bool.false_and, Marks.none]

end Buffer

namespace GrowableArray

variable {α : Type}

/-! ## Operations -/

/-- How an operation changes an array: the buffer that it works on, which is a larger one if it has
to make room, what it does there, and the number of items that it leaves. -/
structure Work (α : Type) where
  /-- The buffer that is worked on. -/
  buffer : Buffer α
  /-- The accesses, in order. -/
  accesses : List (Buffer.Access α)
  /-- The number of items in the end. -/
  len : UInt64

namespace Work

/-- The array that the work leads to. -/
def result (work : Work α) : GrowableArray α :=
  ⟨work.accesses.foldl Buffer.perform work.buffer, work.len⟩

/-- The slots that are written when the work begins, in a buffer that may have taken the place of
one of `before` slots. -/
def startMarks (work : Work α) (before : UInt64) (written : Marks) : Marks :=
  written.carry before work.buffer.capacity

/-- The slots that are written in the end. -/
def endMarks (work : Work α) (before : UInt64) (written : Marks) : Marks :=
  work.accesses.foldl Buffer.Access.mark (work.startMarks before written)

end Work

variable [Layout α] {a : GrowableArray α} {written : Marks} {i count : UInt64}

omit [Layout α] in
/-- No work, as for an operation that only reads or is refused. -/
def idle (a : GrowableArray α) : Work α := ⟨a.buffer, [], a.len⟩

/-- The work of putting an item at position `i`. -/
def insertWork [Allocator] (a : GrowableArray α) (i : UInt64) (item : α) : Work α :=
  if a.len < i then a.idle
  else
    match a.buffer.withRoom a.len with
    | .ok roomy => ⟨roomy, insertAccesses i a.len item, a.len + 1⟩
    | .error _ => a.idle

/-- The work of an operation. -/
def Operation.work [Allocator] (a : GrowableArray α) : Operation α → Work α
  | .get _ | .slice _ _ => a.idle
  | .set i item => if i < a.len then ⟨a.buffer, [.store i item], a.len⟩ else a.idle
  | .insert i item => a.insertWork i item
  | .push item => a.insertWork a.len item
  | .remove i count =>
    match checkedStop i count a.len with
    | .ok stop => ⟨a.buffer, removeAccesses i stop a.len, a.len - count⟩
    | .error _ => a.idle

/-- The kinds of work there are, each with the checks that come before it. -/
inductive Works [Allocator] (a : GrowableArray α) : Work α → Prop where
  | idle : Works a a.idle
  | store {i : UInt64} (item : α) (hi : i < a.len) :
    Works a ⟨a.buffer, [.store i item], a.len⟩
  | insert {i : UInt64} (item : α) {roomy : Buffer α} (hi : i ≤ a.len)
    (hroomy : a.buffer.withRoom a.len = .ok roomy) :
    Works a ⟨roomy, insertAccesses i a.len item, a.len + 1⟩
  | remove {i count stop : UInt64} (hstop : checkedStop i count a.len = .ok stop) :
    Works a ⟨a.buffer, removeAccesses i stop a.len, a.len - count⟩

/-- An insert does nothing, or works on a buffer with room after its position has passed the
check. -/
theorem works_insertWork [Allocator] (a : GrowableArray α) (i : UInt64) (item : α) :
    Works a (a.insertWork i item) := by
  unfold insertWork
  split
  next => exact .idle
  next hi =>
    split
    next roomy hroomy => exact .insert item (UInt64.not_lt.1 hi) hroomy
    next => exact .idle

/-- An operation does no work, or one of the three kinds after its checks. -/
theorem Operation.works [Allocator] (operation : Operation α) (a : GrowableArray α) :
    Works a (operation.work a) := by
  cases operation with
  | get | slice => exact .idle
  | set i item =>
    simp only [Operation.work]
    split
    next hi => exact .store item hi
    next => exact .idle
  | insert i item => exact a.works_insertWork i item
  | push item => exact a.works_insertWork a.len item
  | remove i count =>
    simp only [Operation.work]
    split
    next stop hstop => exact .remove hstop
    next => exact .idle

/-- An insert leads to the result of its work; where it is refused, that is the array as it was. -/
theorem settle_insert [Allocator] (a : GrowableArray α) (i : UInt64) (item : α) :
    (a.settle (a.insert i item)).1 = (a.insertWork i item).result := by
  obtain ⟨buffer, len⟩ := a
  rw [insert, insertWork]
  by_cases hi : len < i
  · rw [if_pos hi, if_pos hi]
    rfl
  · rw [if_neg hi, if_neg hi]
    cases buffer.withRoom len <;> rfl

/-- An operation does its work, and nothing else. -/
theorem Operation.apply_eq_result [Allocator] (operation : Operation α) (a : GrowableArray α) :
    (operation.apply a).1 = (operation.work a).result := by
  cases operation with
  | get | slice => rfl
  | set i item =>
    simp only [Operation.apply, Operation.work, GrowableArray.set]
    split <;> rfl
  | insert i item => exact a.settle_insert i item
  | push item => exact a.settle_insert a.len item
  | remove i count =>
    obtain ⟨buffer, len⟩ := a
    simp only [Operation.apply, Operation.work, GrowableArray.remove]
    cases checkedStop i count len <;> rfl

/-! ## Arrays with a record -/

/-- An array and the slots that have been written since it was made: none in an empty array, those
of the items in a copy of a list, and in a slice those that were written in the original. Each step
may have an allocator of its own. -/
inductive Recorded : GrowableArray α → Marks → Prop where
  | withCapacity {_ : Allocator} {a : GrowableArray α} {capacity : UInt64}
      (h : GrowableArray.withCapacity capacity = .ok a) : Recorded a .none
  | ofList {_ : Allocator} {a : GrowableArray α} {items : List α}
      (hlength : items.length < UInt64.size) (h : GrowableArray.ofList items = .ok a) :
      Recorded a (.front items.length)
  | slice {_ : Allocator} {a source : GrowableArray α} {written : Marks} {i count : UInt64}
      (hsource : Recorded source written) (h : source.slice i count = .ok a) :
      Recorded a (written.window i.toNat count.toNat)
  | step [Allocator] {a : GrowableArray α} {written : Marks} (h : Recorded a written)
      (operation : Operation α) :
      Recorded (operation.apply a).1 ((operation.work a).endMarks a.capacity written)

/-- A run of operations keeps a record. -/
theorem Recorded.run {memory : Allocator} (h : Recorded a written)
    (operations : List (Operation α)) : ∃ later, Recorded (a.run operations).1 later := by
  induction operations generalizing a written memory with
  | nil => exact ⟨written, h⟩
  | cons operation operations ih => exact ih (h.step operation)

/-- A new array has a record. -/
theorem Created.recorded [Allocator] {items : List α} {capacity : UInt64}
    (h : Created a items capacity) : ∃ written, Recorded a written := by
  induction h with
  | empty turn h => exact ⟨_, .withCapacity h⟩
  | withCapacity turn h => exact ⟨_, .withCapacity h⟩
  | ofList turn hlength h => exact ⟨_, .ofList hlength h⟩
  | slice turn later hsource operations hlast h ih =>
    cases hlast
    obtain ⟨written, hwritten⟩ := ih
    obtain ⟨marks, hmarks⟩ := hwritten.run operations
    exact ⟨_, hmarks.slice h⟩

/-- The invariant of an array and its record: the slots of the items have been written. -/
structure Accounted (a : GrowableArray α) (written : Marks) : Prop where
  holds : ∃ s, a.Holds s
  marked : a.buffer.Marked written
  front : ∀ j, j < a.len.toNat → written j

namespace Accounted

/-- The items of an array do not exceed its capacity. -/
theorem len_le (h : Accounted a written) : a.len ≤ a.capacity := by
  obtain ⟨s, hs⟩ := h.holds
  have hroom := hs.room
  rw [← hs.len_eq, ← hs.capacity_eq] at hroom
  exact UInt64.le_iff_toNat_le.2 hroom

/-- A range that has been checked lies in the array, and nothing that is computed from it leaves
the range of words. -/
theorem checkedStop (h : Accounted a written) {stop : UInt64}
    (hstop : checkedStop i count a.len = .ok stop) :
    stop.toNat = i.toNat + count.toNat ∧ (a.len - stop).toNat + stop.toNat = a.len.toNat ∧
      (a.len - count).toNat + count.toNat = a.len.toNat := by
  obtain ⟨s, hs⟩ := h.holds
  have hlen := hs.len_eq
  rcases hs.checkedStop i count with ⟨stop', hok, hsum, hin⟩ | ⟨herror, -⟩
  · rw [hstop] at hok
    cases hok
    rw [UInt64.toNat_sub_of_le _ _ (UInt64.le_iff_toNat_le.2 (by omega)),
      UInt64.toNat_sub_of_le _ _ (UInt64.le_iff_toNat_le.2 (by omega))]
    omega
  · rw [hstop] at herror
    cases herror

/-- Growth keeps the slots and their marks. -/
theorem grown [Allocator] (h : Accounted a written) {grown : Buffer α}
    (hgrown : a.buffer.grown = .ok grown) :
    a.capacity < grown.capacity ∧ grown.Marked written ∧
      ∀ j, j < a.capacity.toNat → grown.slot? j = a.buffer.slot? j := by
  unfold Buffer.grown at hgrown
  split at hgrown
  next => cases hgrown
  next capacity hnext =>
    have hnext := nextCapacity_eq_some.1 hnext
    have hlt : a.capacity < capacity := by
      rw [UInt64.lt_iff_toNat_lt, GrowableArray.capacity]
      omega
    obtain ⟨hcapacity, -, hslots⟩ :=
      Buffer.slot?_resize h.marked.sound (UInt64.le_of_lt hlt) hgrown
    exact ⟨by rwa [hcapacity], h.marked.resize (UInt64.le_of_lt hlt) hgrown, hslots⟩

/-- A buffer with room has the marks of the array and a free slot behind its items. -/
theorem withRoom [Allocator] (h : Accounted a written) {roomy : Buffer α}
    (hroomy : a.buffer.withRoom a.len = .ok roomy) :
    a.len < roomy.capacity ∧ a.capacity ≤ roomy.capacity ∧ roomy.Marked written := by
  have hle := h.len_le
  unfold Buffer.withRoom at hroomy
  split at hroomy
  next hfull =>
    obtain ⟨hlt, hmarked, -⟩ := h.grown hroomy
    exact ⟨UInt64.lt_of_le_of_lt hle hlt, UInt64.le_of_lt hlt, hmarked⟩
  next hfree =>
    cases hroomy
    exact ⟨UInt64.lt_of_le_of_ne hle hfree, UInt64.le_refl _, h.marked⟩

/-- What an insert computes does not leave the range of words. -/
theorem insert_exact [Allocator] (h : Accounted a written) {roomy : Buffer α} (hi : i ≤ a.len)
    (hroomy : a.buffer.withRoom a.len = .ok roomy) :
    (i + 1).toNat = i.toNat + 1 ∧ (a.len - i).toNat + i.toNat = a.len.toNat ∧
      (a.len + 1).toNat = a.len.toNat + 1 := by
  have hroom := UInt64.lt_iff_toNat_lt.1 (h.withRoom hroomy).1
  have hle := UInt64.le_iff_toNat_le.1 hi
  rw [toNat_succ_of_lt hroom, toNat_succ_of_lt (Nat.lt_of_le_of_lt hle hroom),
    UInt64.toNat_sub_of_le _ _ hi]
  omega

/-- The buffer that is worked on has the marks of the array. -/
theorem marked_buffer [Allocator] (h : Accounted a written) {work : Work α} (hwork : Works a work) :
    work.startMarks a.capacity written = written ∧ work.buffer.Marked written := by
  cases hwork with
  | idle | store | remove => exact ⟨h.marked.carry_eq (UInt64.le_refl _), h.marked⟩
  | insert item hi hroomy =>
    obtain ⟨-, hle, hmarked⟩ := h.withRoom hroomy
    exact ⟨h.marked.carry_eq hle, hmarked⟩

/-- The accesses of an operation are permitted. What moves are items. -/
theorem permitted [Allocator] (h : Accounted a written) {work : Work α} (hwork : Works a work) :
    Buffer.Permitted work.buffer.capacity written work.accesses := by
  have hfront := h.front
  have hroom := UInt64.le_iff_toNat_le.1 h.len_le
  cases hwork with
  | idle => trivial
  | store item hi => exact ⟨UInt64.lt_of_lt_of_le hi h.len_le, fun j hj => hj.elim, trivial⟩
  | @insert i item roomy hi hroomy =>
    obtain ⟨hnext, htail, -⟩ := h.insert_exact hi hroomy
    have hfree := UInt64.lt_iff_toNat_lt.1 (h.withRoom hroomy).1
    show Buffer.Permitted roomy.capacity written _
    refine ⟨⟨by omega, by omega⟩, fun j hj => hfront j (by have := hj.2; omega), ?_,
      fun j hj => hj.elim, trivial⟩
    exact UInt64.lt_of_le_of_lt hi (h.withRoom hroomy).1
  | @remove i count stop hstop =>
    obtain ⟨hsum, htail, -⟩ := h.checkedStop hstop
    rw [GrowableArray.capacity] at hroom
    show Buffer.Permitted a.buffer.capacity written _
    exact ⟨⟨by omega, by omega⟩, fun j hj => hfront j (by have := hj.2; omega), trivial⟩

/-- The items that an operation leaves lie in slots that have been written. -/
theorem front_work [Allocator] (h : Accounted a written) {work : Work α} (hwork : Works a work)
    {j : Nat} (hj : j < work.len.toNat) : work.accesses.foldl Buffer.Access.mark written j := by
  have hfront := h.front
  cases hwork with
  | idle => exact hfront j hj
  | @store i item hi =>
    show Function.update written i.toNat true j = true
    rw [Function.update_apply]
    split
    · rfl
    · exact hfront j hj
  | @insert i item roomy hi hroomy =>
    obtain ⟨hnext, htail, hlen⟩ := h.insert_exact hi hroomy
    replace hj : j < (a.len + 1).toNat := hj
    show Function.update (Buffer.Access.mark written (.move (α := α) i (i + 1) (a.len - i)))
      i.toNat true j = true
    -- Slots in front of the position keep what they hold, and those behind it take over an item.
    rcases Nat.lt_trichotomy j i.toNat with hlt | rfl | hgt
    · rw [Function.update_of_ne (by omega), Buffer.Access.mark_move, if_neg (by omega)]
      exact hfront j (by omega)
    · rw [Function.update_self]
    · rw [Function.update_of_ne (by omega), Buffer.Access.mark_move, if_pos (by omega)]
      exact hfront _ (by omega)
  | @remove i count stop hstop =>
    obtain ⟨hsum, htail, hlen⟩ := h.checkedStop hstop
    replace hj : j < (a.len - count).toNat := hj
    show Buffer.Access.mark written (.move (α := α) stop i (a.len - stop)) j = true
    rw [Buffer.Access.mark_move]
    split
    · exact hfront _ (by omega)
    · exact hfront j (by omega)

/-- An operation preserves the invariant. -/
theorem apply [Allocator] (h : Accounted a written) (operation : Operation α) :
    Accounted (operation.apply a).1 ((operation.work a).endMarks a.capacity written) := by
  have hwork := operation.works a
  obtain ⟨hstart, hmarked⟩ := h.marked_buffer hwork
  obtain ⟨s, hs⟩ := h.holds
  refine ⟨⟨_, (hs.apply operation).1⟩, ?_, ?_⟩
  · rw [operation.apply_eq_result, Work.endMarks, hstart]
    exact hmarked.foldl_perform (h.permitted hwork)
  · rw [operation.apply_eq_result, Work.endMarks, hstart]
    exact fun j hj => h.front_work hwork hj

/-- A slice is a copy of slots of items, with the marks that these have. -/
theorem slice [Allocator] (h : Accounted a written) {part : GrowableArray α}
    (hpart : a.slice i count = .ok part) :
    i.toNat + count.toNat ≤ a.len.toNat ∧ part.len = count ∧ part.capacity = count ∧
      Accounted part (written.window i.toNat count.toNat) ∧
      ∀ j, j < count.toNat → part.buffer.slot? j = a.buffer.slot? (i.toNat + j) := by
  obtain ⟨s, hs⟩ := h.holds
  have hlen := hs.len_eq
  have hroom := UInt64.le_iff_toNat_le.1 h.len_le
  rcases hs.checkedStop i count with ⟨stop, -, -, hin⟩ | ⟨herror, -⟩
  · have hholds := hs.slice i count
    rw [hpart] at hholds
    obtain ⟨cut, -, hcut⟩ := hholds.of_ok
    rw [hs.slice_eq hin] at hpart
    obtain ⟨buffer, hbuffer, hdone⟩ := of_bind_eq_ok hpart
    cases hdone
    obtain ⟨-, hcapacity, hsound⟩ := Buffer.of_allocate_eq_ok hbuffer
    have hsource : i.toNat + count.toNat ≤ a.buffer.capacity.toNat := by
      rw [GrowableArray.capacity] at hroom
      omega
    have htarget : count.toNat ≤ buffer.capacity.toNat := Nat.le_of_eq (by rw [hcapacity])
    obtain ⟨-, -, hslots⟩ := Buffer.slot?_load hsound h.marked.sound hsource htarget
    refine ⟨by omega, rfl, hcapacity, ⟨⟨cut, hcut⟩,
      (Buffer.Marked.allocate hbuffer).load h.marked hsource htarget, fun j hj => ?_⟩,
      fun j hj => by rw [hslots, if_pos hj]⟩
    replace hj : j < count.toNat := hj
    rw [Marks.window, decide_eq_true hj, Bool.true_and]
    exact h.front _ (by omega)
  · rw [GrowableArray.slice, herror] at hpart
    cases hpart

/-- An item that is read lies in a slot that has been written. -/
theorem get (h : Accounted a written) {item : α} (hitem : a.get i = .ok item) :
    i < a.len ∧ written i.toNat ∧ a.buffer.slot? i.toNat = some item := by
  unfold GrowableArray.get get? at hitem
  split at hitem
  next found hfound =>
    split at hfound
    next hi =>
      cases hitem
      exact ⟨hi, h.front _ (UInt64.lt_iff_toNat_lt.1 hi), hfound⟩
    next => cases hfound
  next => cases hitem

end Accounted

/-- The invariant holds of every array with its record. -/
theorem Recorded.accounted (h : Recorded a written) : Accounted a written := by
  induction h with
  | withCapacity h =>
    refine ⟨⟨_, of_withCapacity_eq_ok h⟩, ?_, ?_⟩
    · obtain ⟨buffer, hbuffer, hdone⟩ := of_bind_eq_ok h
      cases hdone
      exact Buffer.Marked.allocate hbuffer
    · rw [(of_withCapacity_eq_ok h).len_eq]
      exact fun j hj => (Nat.not_lt_zero j hj).elim
  | ofList hlength h =>
    have hholds := of_ofList_eq_ok hlength h
    refine ⟨⟨_, hholds⟩, ?_, ?_⟩
    · obtain ⟨buffer, hbuffer, hdone⟩ := of_bind_eq_ok h
      cases hdone
      obtain ⟨-, hcapacity, -⟩ := Buffer.of_allocate_eq_ok hbuffer
      refine (Buffer.Marked.allocate hbuffer).storeAll ?_
      rw [hcapacity, toNat_saturate]
      omega
    · rw [hholds.len_eq]
      exact fun j hj => decide_eq_true hj
  | slice hsource h ih => exact (ih.slice h).2.2.2.1
  | step h operation ih => exact ih.apply operation

/-- Every access to the buffer of an array is in bounds and reads written slots only, and no
position or count that is computed for it wraps around. Take an array after any run of operations on
a new one, with a record of the slots that have been written. The slots of its items are among them,
and all of them exist; for items that take memory, they are the slots that hold something. What an
insert or a removal computes, once it has passed its checks, is the number meant. Whatever the next
operation is, it comes to nothing but its accesses, and all of these are permitted. Growth keeps the
marks of all slots and what they hold, and an item that is read or copied to a slice is in the slot
of an item, which has been written. All this holds whatever the size of the items, and also if they
take no memory. -/
theorem accesses_permitted [Allocator] {items : List α} {capacity : UInt64}
    (h : Created a items capacity) (operations : List (Operation α)) :
    let reached := (a.run operations).1
    (∃ written, Recorded reached written) ∧ ∀ written, Recorded reached written →
      (reached.len ≤ reached.capacity ∧ (∀ j, j < reached.len.toNat → written j) ∧
        (∀ j, written j → j < reached.capacity.toNat) ∧
        (Layout.width α ≠ 0 → ∀ j, (reached.buffer.slot? j).isSome = written j)) ∧
      (∀ [Allocator] i roomy, i ≤ reached.len → reached.buffer.withRoom reached.len = .ok roomy →
        (i + 1).toNat = i.toNat + 1 ∧ (reached.len - i).toNat + i.toNat = reached.len.toNat ∧
          (reached.len + 1).toNat = reached.len.toNat + 1) ∧
      (∀ i count stop, checkedStop i count reached.len = .ok stop →
        stop.toNat = i.toNat + count.toNat ∧
          (reached.len - stop).toNat + stop.toNat = reached.len.toNat ∧
          (reached.len - count).toNat + count.toNat = reached.len.toNat) ∧
      (∀ [Allocator] (operation : Operation α),
        let work := operation.work reached
        (operation.apply reached).1 = work.result ∧
          Buffer.Permitted work.buffer.capacity (work.startMarks reached.capacity written)
            work.accesses ∧
          ∀ j, j < work.len.toNat → work.endMarks reached.capacity written j) ∧
      (∀ [Allocator] grown, reached.buffer.grown = .ok grown →
        reached.capacity < grown.capacity ∧
          written.carry reached.capacity grown.capacity = written ∧
          ∀ j, j < reached.capacity.toNat → grown.slot? j = reached.buffer.slot? j) ∧
      (∀ i item, reached.get i = .ok item →
        i < reached.len ∧ written i.toNat ∧ reached.buffer.slot? i.toNat = some item) ∧
      ∀ [Allocator] i count part, reached.slice i count = .ok part →
        part.len = count ∧ part.capacity = count ∧
          ∀ j, j < count.toNat → i.toNat + j < reached.len.toNat ∧ written (i.toNat + j) ∧
            part.buffer.slot? j = reached.buffer.slot? (i.toNat + j) := by
  intro reached
  obtain ⟨before, hbefore⟩ := h.recorded
  refine ⟨hbefore.run operations, fun written hwritten => ?_⟩
  have haccount : Accounted reached written := hwritten.accounted
  refine ⟨⟨haccount.len_le, haccount.front, haccount.marked.lt_capacity,
      haccount.marked.isSome_slot?⟩,
    fun i roomy => haccount.insert_exact, fun i count stop => haccount.checkedStop,
    fun operation => ⟨operation.apply_eq_result reached, ?_⟩, fun grown hgrown => ?_,
    fun i item => haccount.get, fun i count part hpart => ?_⟩
  · have hwork := operation.works reached
    rw [Work.endMarks, (haccount.marked_buffer hwork).1]
    exact ⟨haccount.permitted hwork, fun j hj => haccount.front_work hwork hj⟩
  · obtain ⟨hlt, -, hslots⟩ := haccount.grown hgrown
    exact ⟨hlt, haccount.marked.carry_eq (UInt64.le_of_lt hlt), hslots⟩
  · obtain ⟨hin, hlen, hcapacity, -, hslots⟩ := haccount.slice hpart
    exact ⟨hlen, hcapacity, fun j hj => ⟨by omega, haccount.front _ (by omega), hslots j hj⟩⟩

/-- An array has grown and lost an item: a slot behind its end was written, and the slots that it
gained were not. An array of items of width zero, with as many slots as there can be, has written
one slot, although the others read as the same item. -/
theorem accesses_permitted_stale :
    ∃ (a : GrowableArray UInt8) (b : GrowableArray (Scalar 0)), Created a [] 1 ∧
      Created b [] 18446744073709551615 ∧
      (∃ reached written, (a.run [.push 5, .insert 0 7, .remove 0 1]).1 = reached ∧
        Recorded reached written ∧ reached.len = 1 ∧ reached.capacity = 5 ∧
        written 0 ∧ written 1 ∧ ¬ written 2 ∧ (reached.buffer.slot? 2).isSome = written 2 ∧
        (∀ item, reached.get 0 = .ok item → reached.buffer.slot? (0 : UInt64).toNat = some item) ∧
        ((Operation.insert 0 9).work reached).accesses.length = 2 ∧
        ∀ operation : Operation UInt8, ∃ work, work = operation.work reached ∧
          Buffer.Permitted work.buffer.capacity (work.startMarks reached.capacity written)
            work.accesses) ∧
      ∃ reached written, (b.run [.push 0]).1 = reached ∧ Recorded reached written ∧
        written 0 ∧ ¬ written 1 ∧ reached.buffer.slot? 1 = some 0 ∧
        ∀ operation : Operation (Scalar 0), ∃ work, work = operation.work reached ∧
          Buffer.Permitted work.buffer.capacity (work.startMarks reached.capacity written)
            work.accesses := by
  let a : GrowableArray UInt8 := ⟨⟨1, #[none]⟩, 0⟩
  let b : GrowableArray (Scalar 0) := ⟨⟨18446744073709551615, #[]⟩, 0⟩
  have ha : withCapacity 1 = .ok a := rfl
  have hb : withCapacity 18446744073709551615 = .ok b := rfl
  have hrecord : Recorded (a.run [.push 5, .insert 0 7, .remove 0 1]).1 _ :=
    .step (.step (.step (.withCapacity ha) (.push 5)) (.insert 0 7)) (.remove 0 1)
  have hrecord' : Recorded (b.run [.push 0]).1 _ := .step (.withCapacity hb) (.push 0)
  obtain ⟨-, hall⟩ := accesses_permitted (.withCapacity 0 ha) [.push 5, .insert 0 7, .remove 0 1]
  obtain ⟨⟨-, -, -, hcells⟩, -, -, hwork, -, hget, -⟩ := hall _ hrecord
  obtain ⟨-, hall'⟩ := accesses_permitted (.withCapacity 0 hb) [.push 0]
  obtain ⟨-, -, -, hwork', -⟩ := hall' _ hrecord'
  refine ⟨a, b, .withCapacity 0 ha, .withCapacity 0 hb, ⟨_, _, rfl, hrecord, ?_⟩,
    _, _, rfl, hrecord', ?_⟩
  · exact ⟨by decide, by decide, by decide, by decide, by decide, hcells (by decide) 2,
      fun item hitem => (hget 0 item hitem).2.2, by decide,
      fun operation => ⟨_, rfl, (hwork operation).2.1⟩⟩
  · exact ⟨by decide, by decide, by decide, fun operation => ⟨_, rfl, (hwork' operation).2.1⟩⟩

end GrowableArray

end Containers
