import Containers.Buffer.Slots
import Containers.Proofs.GrowableArray.Sequence
import Mathlib.Data.List.Induction

/-!
# What an array holds

An array holds a sequence if the slots at the front of its buffer do, one slot for each item
(`GrowableArray.Holds`). Slots behind them keep what earlier operations left there, and do not
count. Each operation on an array that holds a sequence comes out as the operation on the sequence
does: with an array that holds the new sequence, or with the same fault (`Alike`). The slot
equations of the buffer turn a move of slots into a cut of the list. An insert finds a free slot or
makes one first (`Buffer.withRoom`), and that is the only place where the capacity changes.
-/

namespace Containers

/-- Two computations come out alike: with the same fault, or with values that are related. -/
inductive Alike {β γ : Type} (R : β → γ → Prop) : Except Fault β → Except Fault γ → Prop where
  | ok {b : β} {c : γ} (h : R b c) : Alike R (.ok b) (.ok c)
  | error (fault : Fault) : Alike R (.error fault) (.error fault)

/-- Computations that come out alike still do so after their values have been changed in step. -/
theorem Alike.map {β β' γ γ' : Type} {R : β → γ → Prop} {R' : β' → γ' → Prop} {f : β → β'}
    {g : γ → γ'} {x : Except Fault β} {y : Except Fault γ} (h : Alike R x y)
    (hfg : ∀ b c, R b c → R' (f b) (g c)) : Alike R' (x.map f) (y.map g) := by
  cases h with
  | ok h => exact .ok (hfg _ _ h)
  | error fault => exact .error fault

/-- If the first computation has a value, the second has a related one. -/
theorem Alike.of_ok {β γ : Type} {R : β → γ → Prop} {b : β} {y : Except Fault γ}
    (h : Alike R (.ok b) y) : ∃ c, y = .ok c ∧ R b c := by
  cases h with
  | ok h => exact ⟨_, rfl, h⟩

/-- If the second computation has a value, the first has a related one. -/
theorem Alike.to_ok {β γ : Type} {R : β → γ → Prop} {x : Except Fault β} {c : γ}
    (h : Alike R x (.ok c)) : ∃ b, x = .ok b ∧ R b c := by
  cases h with
  | ok h => exact ⟨_, rfl, h⟩

/-- If the second computation has a fault, the first has the same. -/
theorem Alike.to_error {β γ : Type} {R : β → γ → Prop} {x : Except Fault β} {fault : Fault}
    (h : Alike R x (.error fault)) : x = .error fault := by
  cases h with
  | error fault => rfl

variable {α : Type} [Layout α]

namespace GrowableArray

/-- An array holds this sequence. -/
structure Holds (a : GrowableArray α) (s : Sequence α) : Prop where
  sound : a.buffer.Sound
  len_eq : a.len.toNat = s.items.length
  capacity_eq : a.buffer.capacity.toNat = s.capacity
  room : s.items.length ≤ s.capacity
  slots : ∀ i, i < s.items.length → a.buffer.slot? i = s.items[i]?

variable {a : GrowableArray α} {s : Sequence α}

/-! ## Reading -/

omit [Layout α] in
/-- Slots that hold the items of a list in order list those items. -/
theorem filterMap_range_eq {items : List α} {slot? : Nat → Option α}
    (h : ∀ i, i < items.length → slot? i = items[i]?) :
    (List.range items.length).filterMap slot? = items := by
  induction items using List.reverseRecOn with
  | nil => rfl
  | append_singleton items item ih =>
    have hfront : ∀ i, i < items.length → slot? i = items[i]? := fun i hi => by
      rw [h i (by simp; omega), List.getElem?_append_left hi]
    have hlast : slot? items.length = some item := by
      rw [h _ (by simp), List.getElem?_concat_length]
    rw [List.length_append, List.length_singleton, List.range_succ, List.filterMap_append,
      ih hfront, List.filterMap_cons_some hlast, List.filterMap_nil]

/-- An array lists the items that it holds. -/
theorem Holds.toList (h : a.Holds s) : a.toList = s.items := by
  rw [GrowableArray.toList, h.len_eq, filterMap_range_eq h.slots]

/-- The length of an array is the number of items that it holds. -/
theorem Holds.len (h : a.Holds s) : a.len = .ofNat s.items.length := by
  rw [← h.len_eq, UInt64.ofNat_toNat]

/-- The fault of an array for a range is the fault of the sequence. -/
theorem Holds.ofRange (h : a.Holds s) (i count : UInt64) :
    Fault.ofRange i count a.len = s.outOfRange i.toNat (i.toNat + count.toNat) := by
  rw [Fault.ofRange, Sequence.outOfRange, h.len, UInt64.ofNat_toNat]

/-- Reading an item of an array is reading it of the sequence. -/
theorem Holds.get (h : a.Holds s) (i : UInt64) : a.get i = s.get i.toNat := by
  have hslot : a.get? i = s.items[i.toNat]? := by
    unfold get?
    simp only [UInt64.lt_iff_toNat_lt, h.len_eq]
    split
    next hi => exact h.slots _ hi
    next hi => rw [List.getElem?_eq_none (by omega)]
  rw [GrowableArray.get, hslot, Sequence.get]
  split
  next item hitem =>
    obtain ⟨hi, rfl⟩ := List.getElem?_eq_some_iff.1 hitem
    rw [dif_pos hi]
  next hnone =>
    rw [dif_neg (by simpa using hnone), h.ofRange]
    rfl

/-! ## Creation -/

/-- An empty array holds no items, and has the capacity it was given. -/
theorem of_withCapacity_eq_ok {_ : Allocator} {capacity : UInt64}
    (ha : withCapacity capacity = .ok a) : a.Holds ⟨[], capacity.toNat⟩ := by
  obtain ⟨buffer, hbuffer, hdone⟩ := of_bind_eq_ok ha
  cases hdone
  obtain ⟨-, rfl, hsound⟩ := Buffer.of_allocate_eq_ok hbuffer
  exact ⟨hsound, rfl, rfl, Nat.zero_le _, fun i hi => absurd hi (Nat.not_lt_zero i)⟩

/-- A copy of a list holds its items, and has no spare capacity. -/
theorem of_ofList_eq_ok {_ : Allocator} {items : List α} (hlength : items.length < UInt64.size)
    (ha : ofList items = .ok a) : a.Holds ⟨items, items.length⟩ := by
  obtain ⟨buffer, hbuffer, hdone⟩ := of_bind_eq_ok ha
  cases hdone
  obtain ⟨-, hcapacity, hsound⟩ := Buffer.of_allocate_eq_ok hbuffer
  have hcount : (saturate items.length).toNat = items.length := by
    rw [toNat_saturate]
    omega
  rw [← hcapacity] at hcount
  have hroom : (0 : UInt64).toNat + items.length ≤ buffer.capacity.toNat := by simp [hcount]
  obtain ⟨hcap, hsound', hslots⟩ := Buffer.slot?_storeAll hsound hroom
  refine ⟨hsound', by rw [← hcapacity, hcount], by rw [hcap, hcount], Nat.le_refl _, ?_⟩
  intro i hi
  rw [hslots, if_pos (by simpa using hi), UInt64.toNat_zero, Nat.sub_zero]

/-! ## Writing -/

/-- Writing the slot of an item puts another item into the list. -/
theorem Holds.set (h : a.Holds s) (i : UInt64) (item : α) :
    Alike Holds (a.set i item) (s.set i.toNat item) := by
  unfold GrowableArray.set Sequence.set
  simp only [UInt64.lt_iff_toNat_lt, h.len_eq]
  split
  next hi =>
    have hcap : i < a.buffer.capacity := by
      rw [UInt64.lt_iff_toNat_lt, h.capacity_eq]
      exact Nat.lt_of_lt_of_le hi h.room
    refine .ok ⟨Buffer.sound_store h.sound i item, ?_, h.capacity_eq, ?_, fun j hj => ?_⟩
    · rw [h.len_eq, List.length_set]
    · rw [List.length_set]
      exact h.room
    · rw [Buffer.slot?_store h.sound hcap, List.getElem?_set]
      rw [List.length_set] at hj
      by_cases heq : j = i.toNat
      · rw [if_pos heq, if_pos heq.symm, if_pos (heq ▸ hj)]
      · rw [if_neg heq, if_neg (Ne.symm heq), h.slots j hj]
  next hi =>
    rw [h.ofRange]
    exact .error _

/-- A buffer of this many slots holds the items of a sequence, and there is a free slot behind
them. -/
structure Roomy (s : Sequence α) (b : Buffer α) (capacity : Nat) : Prop where
  sound : b.Sound
  capacity_eq : b.capacity.toNat = capacity
  room : s.items.length < capacity
  slots : ∀ i, i < s.items.length → b.slot? i = s.items[i]?

/-- Making room keeps the slots at the front. -/
theorem Holds.withRoom [Allocator] (h : a.Holds s) :
    Alike (Roomy s) (a.buffer.withRoom a.len) s.room := by
  have hle := h.room
  have hfull : a.len = a.buffer.capacity ↔ ¬ s.items.length < s.capacity := by
    rw [← UInt64.toNat_inj, h.len_eq, h.capacity_eq]
    omega
  unfold Buffer.withRoom Sequence.room
  simp only [hfull, ite_not]
  by_cases hroom : s.items.length < s.capacity
  · rw [if_pos hroom, if_pos hroom]
    exact .ok ⟨h.sound, h.capacity_eq, hroom, h.slots⟩
  · rw [← h.capacity_eq] at hle hroom ⊢
    rw [if_neg hroom, if_neg hroom, Buffer.grown]
    cases hnext : nextCapacity a.buffer.capacity with
    | none =>
      have := nextCapacity_eq_none.1 hnext
      simp only
      rw [if_neg (by omega)]
      exact .error _
    | some grown =>
      have hgrown := nextCapacity_eq_some.1 hnext
      simp only [← hgrown]
      rw [if_pos grown.toNat_lt, ← Buffer.map_resize h.sound]
      cases hresize : a.buffer.resize grown with
      | error fault => exact .error _
      | ok roomy =>
        have hcap : a.buffer.capacity ≤ grown := by
          rw [UInt64.le_iff_toNat_le]
          omega
        obtain ⟨hcapacity, hsound, hslots⟩ := Buffer.slot?_resize h.sound hcap hresize
        refine .ok ⟨hsound, by rw [hcapacity], ?_, fun i hi => ?_⟩
        · show s.items.length < grown.toNat
          omega
        · rw [hslots i (by omega), h.slots i hi]

/-- Moving the items behind a position one slot up and writing the slot that is left puts an item
into the list. -/
theorem Roomy.insert {b : Buffer α} {capacity : Nat} (h : Roomy s b capacity) {i len : UInt64}
    (hlen : len.toNat = s.items.length) (hi : i.toNat ≤ s.items.length) (item : α) :
    Holds ⟨(insertAccesses i len item).foldl Buffer.perform b, len + 1⟩
      ⟨s.items.take i.toNat ++ item :: s.items.drop i.toNat, capacity⟩ := by
  have hroom := h.room
  rw [← h.capacity_eq] at hroom
  have hnext : (i + 1).toNat = i.toNat + 1 := toNat_succ_of_lt (b := b.capacity) (by omega)
  have htail : (len - i).toNat = s.items.length - i.toNat := by
    rw [UInt64.toNat_sub_of_le _ _ (UInt64.le_iff_toNat_le.2 (by omega)), hlen]
  have hmove := fun j => Buffer.slot?_move h.sound (j := j)
    (show i.toNat + (len - i).toNat ≤ b.capacity.toNat by omega)
    (show (i + 1).toNat + (len - i).toNat ≤ b.capacity.toNat by omega)
  have hsound := Buffer.sound_move h.sound i (i + 1) (len - i)
  have hstore := Buffer.slot?_store hsound (i := i)
    (by rw [Buffer.capacity_move, UInt64.lt_iff_toNat_lt]; omega) item
  have htake : (s.items.take i.toNat).length = i.toNat := by
    rw [List.length_take, Nat.min_eq_left hi]
  have hgrown : (s.items.take i.toNat ++ item :: s.items.drop i.toNat).length =
      s.items.length + 1 := by
    rw [List.length_append, htake, List.length_cons, List.length_drop]
    omega
  refine ⟨Buffer.sound_store hsound i item, ?_, ?_, ?_, fun j hj => ?_⟩
  · show (len + 1).toNat = _
    rw [hgrown, toNat_succ_of_lt (b := b.capacity) (by omega), hlen]
  · show ((b.move i (i + 1) (len - i)).store i item).capacity.toNat = capacity
    rw [Buffer.capacity_store, Buffer.capacity_move, h.capacity_eq]
  · simp only [hgrown]
    exact h.room
  · simp only [hgrown] at hj
    show ((b.move i (i + 1) (len - i)).store i item).slot? j = _
    rw [hstore, hmove, hnext, htail]
    -- Slots in front of the position are as before, and those behind it come from one slot below.
    rcases Nat.lt_trichotomy j i.toNat with hlt | rfl | hgt
    · rw [if_neg (by omega), if_neg (by omega), h.slots j (by omega),
        List.getElem?_append_left (by omega), List.getElem?_take_of_lt hlt]
    · rw [if_pos rfl, List.getElem?_append_right (by omega), htake, Nat.sub_self,
        List.getElem?_cons_zero]
    · obtain ⟨k, rfl⟩ := Nat.exists_eq_add_of_lt hgt
      rw [if_neg (by omega), if_pos (by omega), h.slots _ (by omega),
        List.getElem?_append_right (by omega), htake,
        show i.toNat + k + 1 - i.toNat = k + 1 by omega, List.getElem?_cons_succ,
        List.getElem?_drop]
      congr 1
      omega

/-- Inserting puts an item in front of those from its position on. -/
theorem Holds.insert [Allocator] (h : a.Holds s) (i : UInt64) (item : α) :
    Alike Holds (a.insert i item) (s.insert i.toNat item) := by
  have hroom := h.withRoom
  have hrange := h.ofRange i 0
  obtain ⟨buffer, len⟩ := a
  rw [GrowableArray.insert, Sequence.insert]
  by_cases hi : i.toNat ≤ s.items.length
  · have hnot : ¬ len < i := by
      rw [UInt64.lt_iff_toNat_lt, h.len_eq]
      omega
    rw [if_neg hnot, if_pos hi]
    exact hroom.map fun roomy capacity hroomy => hroomy.insert h.len_eq hi item
  · have hlt : len < i := by
      rw [UInt64.lt_iff_toNat_lt, h.len_eq]
      omega
    rw [if_pos hlt, if_neg hi, hrange]
    exact .error _

/-- The end of a range is a word if the range lies in a container, and a fault otherwise. -/
theorem Holds.checkedStop (h : a.Holds s) (i count : UInt64) :
    (∃ stop, checkedStop i count a.len = .ok stop ∧ stop.toNat = i.toNat + count.toNat ∧
      i.toNat + count.toNat ≤ s.items.length) ∨
    (checkedStop i count a.len = .error (s.outOfRange i.toNat (i.toNat + count.toNat)) ∧
      s.items.length < i.toNat + count.toNat) := by
  rw [Containers.checkedStop, h.ofRange]
  cases hstop : checkedAdd i count with
  | none =>
    have hover := checkedAdd_eq_none.1 hstop
    have hlen : a.len.toNat < UInt64.size := a.len.toNat_lt
    rw [h.len_eq] at hlen
    exact .inr ⟨rfl, by omega⟩
  | some stop =>
    have hsum := toNat_of_checkedAdd hstop
    simp only [UInt64.le_iff_toNat_le, h.len_eq]
    split
    next hle => exact .inl ⟨stop, rfl, hsum, by omega⟩
    next hgt => exact .inr ⟨rfl, by omega⟩

/-- Moving the items behind a run down over it takes the run out of the list. -/
theorem Holds.close {buffer : Buffer α} {len i count stop : UInt64} (h : Holds ⟨buffer, len⟩ s)
    (hstop : stop.toNat = i.toNat + count.toNat) (hin : stop.toNat ≤ s.items.length) :
    Holds ⟨(removeAccesses i stop len).foldl Buffer.perform buffer, len - count⟩
      { s with items := s.items.take i.toNat ++ s.items.drop stop.toNat } := by
  have hlen : len.toNat = s.items.length := h.len_eq
  have hcap : buffer.capacity.toNat = s.capacity := h.capacity_eq
  have hroom := h.room
  have htail : (len - stop).toNat = s.items.length - stop.toNat := by
    rw [UInt64.toNat_sub_of_le _ _ (UInt64.le_iff_toNat_le.2 (by omega)), hlen]
  have hless : (len - count).toNat = s.items.length - count.toNat := by
    rw [UInt64.toNat_sub_of_le _ _ (UInt64.le_iff_toNat_le.2 (by omega)), hlen]
  have hmove := fun j => Buffer.slot?_move h.sound (j := j)
    (show stop.toNat + (len - stop).toNat ≤ buffer.capacity.toNat by omega)
    (show i.toNat + (len - stop).toNat ≤ buffer.capacity.toNat by omega)
  have htake : (s.items.take i.toNat).length = i.toNat := by
    rw [List.length_take]
    omega
  have hleft : (s.items.take i.toNat ++ s.items.drop stop.toNat).length =
      s.items.length - count.toNat := by
    rw [List.length_append, htake, List.length_drop]
    omega
  refine ⟨Buffer.sound_move h.sound stop i (len - stop), by rw [hleft]; exact hless, ?_, ?_,
    fun j hj => ?_⟩
  · show (buffer.move stop i (len - stop)).capacity.toNat = s.capacity
    rw [Buffer.capacity_move, hcap]
  · simp only [hleft]
    omega
  · simp only [hleft] at hj
    show (buffer.move stop i (len - stop)).slot? j = _
    rw [hmove, htail]
    by_cases hlt : j < i.toNat
    · rw [if_neg (by omega), List.getElem?_append_left (by omega), List.getElem?_take_of_lt hlt]
      exact h.slots j (by omega)
    · rw [if_pos (by omega), List.getElem?_append_right (by omega), htake, List.getElem?_drop,
        Nat.add_comm]
      exact h.slots _ (by omega)

/-- Removing takes a run of items out of the list. -/
theorem Holds.remove (h : a.Holds s) (i count : UInt64) :
    Alike Holds (a.remove i count) (s.remove i.toNat count.toNat) := by
  have hcheck := h.checkedStop i count
  obtain ⟨buffer, len⟩ := a
  rw [GrowableArray.remove, Sequence.remove]
  rcases hcheck with ⟨stop, hok, hstop, hin⟩ | ⟨herror, hout⟩
  · rw [hok, if_pos hin, ← hstop]
    exact .ok (h.close hstop (by omega))
  · rw [herror, if_neg (by omega)]
    exact .error _

/-- A slice of a range in an array fills a buffer of just that size. -/
theorem Holds.slice_eq [Allocator] (h : a.Holds s) {i count : UInt64}
    (hin : i.toNat + count.toNat ≤ s.items.length) :
    a.slice i count = do return ⟨(← Buffer.allocate count).load a.buffer i count, count⟩ := by
  rcases h.checkedStop i count with ⟨stop, hok, hstop, -⟩ | ⟨-, hout⟩
  · have hsize : stop - i = count := by
      apply UInt64.toNat_inj.1
      rw [UInt64.toNat_sub_of_le _ _ (UInt64.le_iff_toNat_le.2 (by omega))]
      omega
    rw [GrowableArray.slice, hok, ← hsize]
    rfl
  · omega

/-- Slicing copies a run of items to slots of its own. -/
theorem Holds.slice [Allocator] (h : a.Holds s) (i count : UInt64) :
    Alike Holds (a.slice i count) (s.slice i.toNat count.toNat) := by
  have hroom := h.room
  rw [Sequence.slice]
  rcases h.checkedStop i count with ⟨_, -, -, hin⟩ | ⟨herror, hout⟩
  · rw [h.slice_eq hin, if_pos hin, ← Buffer.map_allocate (α := α)]
    cases hbuffer : Buffer.allocate (α := α) count with
    | error fault => exact .error fault
    | ok buffer =>
      obtain ⟨-, rfl, hsound⟩ := Buffer.of_allocate_eq_ok hbuffer
      have hsource : i.toNat + buffer.capacity.toNat ≤ a.buffer.capacity.toNat := by
        rw [h.capacity_eq]
        omega
      obtain ⟨hcap, hsound', hslots⟩ := Buffer.slot?_load hsound h.sound hsource (Nat.le_refl _)
      have hlength : ((s.items.drop i.toNat).take buffer.capacity.toNat).length =
          buffer.capacity.toNat := by
        rw [List.length_take, List.length_drop]
        omega
      refine .ok ⟨hsound', hlength.symm, by rw [hcap], Nat.le_of_eq hlength, fun j hj => ?_⟩
      simp only [hlength] at hj
      rw [hslots, if_pos hj, List.getElem?_take_of_lt hj, List.getElem?_drop]
      exact h.slots _ (by omega)
  · rw [GrowableArray.slice, herror, if_neg (by omega)]
    exact .error _

/-- A slice that has been made holds the run of items, with no spare room, and its slots have been
granted. -/
theorem Holds.of_slice_eq_ok {_ : Allocator} (h : a.Holds s) {i count : UInt64}
    {part : GrowableArray α} (hpart : a.slice i count = .ok part) :
    part.Holds ⟨(a.toList.drop i.toNat).take count.toNat, count.toNat⟩ ∧
      Allocation.request (Layout.width α) count.toNat = .ok () := by
  have hcut := h.slice i count
  rw [hpart] at hcut
  obtain ⟨cut, hcut, hholds⟩ := hcut.of_ok
  obtain ⟨rfl, hgranted⟩ := Sequence.of_slice_eq_ok hcut
  rw [h.toList]
  exact ⟨hholds, hgranted⟩

end GrowableArray

end Containers
