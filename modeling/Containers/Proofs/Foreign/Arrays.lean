import Containers.Proofs.Foreign.Failures
import Containers.Proofs.Foreign.Variables
import Containers.Proofs.GrowableArray.Edits

/-!
# Arrays of a caller are lists of words

Calls on arrays pass items as 64-bit words, whatever the width of the items. As long as there is
memory, calls on arrays do what `Sequences.step` does to lists of words and their capacities,
where no width occurs. An array presents such a list through its `Width`: its items are those of
the list, each cast to an item of the array. So one argument for any width
(`Session.step_sequences`) serves for both, and two sessions that carry out the same calls on arrays
of different widths stay in step.
-/

namespace Containers.Foreign

/-! ## Arrays of any width -/

/-- How calls reach the arrays of one width: an item goes in as a word cast to an item, and comes
out as a word again. -/
structure Width (α : Type) [Layout α] where
  /-- The array as a handle. -/
  wrap : GrowableArray α → ArrayHandle
  /-- A word as an item. -/
  cast : UInt64 → α
  /-- An item as a word. -/
  word : α → UInt64
  get_wrap (a : GrowableArray α) (i : UInt64) : (wrap a).get i = (a.get i).map word
  set_wrap (a : GrowableArray α) (i item : UInt64) :
    (wrap a).set i item = (a.set i (cast item)).map wrap
  insert_wrap (a : GrowableArray α) (i item : UInt64) :
    (wrap a).insert i item = (a.insert i (cast item)).map wrap
  remove_wrap (a : GrowableArray α) (i count : UInt64) :
    (wrap a).remove i count = (a.remove i count).map wrap
  slice_wrap (a : GrowableArray α) (i count : UInt64) :
    (wrap a).slice i count = (a.slice i count).map wrap
  len_wrap (a : GrowableArray α) : (wrap a).len = a.len
  capacity_wrap (a : GrowableArray α) : (wrap a).capacity = a.buffer.capacity
  toList_wrap (a : GrowableArray α) : (wrap a).toList = a.toList.map word

namespace Width

/-- Items of four bytes. -/
def narrow : Width UInt32 where
  wrap := .narrow
  cast := UInt64.toUInt32
  word := UInt32.toUInt64
  get_wrap _ _ := rfl
  set_wrap _ _ _ := rfl
  insert_wrap _ _ _ := rfl
  remove_wrap _ _ _ := rfl
  slice_wrap _ _ _ := rfl
  len_wrap _ := rfl
  capacity_wrap _ := rfl
  toList_wrap _ := rfl

/-- Items of eight bytes. -/
def wide : Width UInt64 where
  wrap := .wide
  cast := id
  word := id
  get_wrap a i := by
    show a.get i = _
    cases a.get i <;> rfl
  set_wrap _ _ _ := rfl
  insert_wrap _ _ _ := rfl
  remove_wrap _ _ _ := rfl
  slice_wrap _ _ _ := rfl
  len_wrap _ := rfl
  capacity_wrap _ := rfl
  toList_wrap a := (List.map_id a.toList).symm

variable {α : Type} [Layout α] {w : Width α} {handle : ArrayHandle} {s : Sequence UInt64}

/-- A handle of an array that holds the words of a sequence, each cast to an item. -/
def Presents (w : Width α) (handle : ArrayHandle) (s : Sequence UInt64) : Prop :=
  ∃ a, handle = w.wrap a ∧ a.Holds (s.map w.cast)

/-- What comes of an operation on an array comes of it on the handle. -/
theorem comes_wrap {result : Except Fault (GrowableArray α)} {sequence : Except Fault (Sequence α)}
    {expected : Option (Sequence UInt64)} (hcomes : Comes (Sequence.Image w.cast) sequence expected)
    (halike : Alike GrowableArray.Holds result sequence) :
    Comes w.Presents (result.map w.wrap) expected := by
  refine (hcomes.of_alike halike ?_).map fun a t h => ⟨a, rfl, h⟩
  rintro a _ t ha rfl
  exact ha

/-- Replacing an item through a handle comes to what the edit makes of the sequence. -/
theorem Presents.set (h : w.Presents handle s) (i item : UInt64) :
    Comes w.Presents (handle.set i item) (s.set? i.toNat item) := by
  obtain ⟨a, rfl, ha⟩ := h
  rw [w.set_wrap]
  exact comes_wrap (s.comes_set w.cast i.toNat item) (ha.set i _)

/-- Inserting through a handle comes to what the edit makes of the sequence, or to a refusal. -/
theorem Presents.insert (h : w.Presents handle s) (i item : UInt64) :
    Comes w.Presents (handle.insert i item) (s.insert? i.toNat item) := by
  obtain ⟨a, rfl, ha⟩ := h
  rw [w.insert_wrap]
  exact comes_wrap (s.comes_insert w.cast i.toNat item) (ha.insert i _)

/-- Removing through a handle comes to what the edit makes of the sequence. -/
theorem Presents.remove (h : w.Presents handle s) (i count : UInt64) :
    Comes w.Presents (handle.remove i count) (s.remove? i.toNat count.toNat) := by
  obtain ⟨a, rfl, ha⟩ := h
  rw [w.remove_wrap]
  exact comes_wrap (s.comes_remove w.cast i.toNat count.toNat) (ha.remove i count)

/-- Slicing through a handle comes to a handle of the part, or to a refusal. -/
theorem Presents.slice (h : w.Presents handle s) (i count : UInt64) :
    Comes w.Presents (handle.slice i count) (s.slice? i.toNat count.toNat) := by
  obtain ⟨a, rfl, ha⟩ := h
  rw [w.slice_wrap]
  exact comes_wrap (s.comes_slice w.cast i.toNat count.toNat) (ha.slice i count)

/-- Reading gives the word of the sequence as an item of the array has it. -/
theorem Presents.get (h : w.Presents handle s) (i : UInt64) :
    Comes (fun word expected => word = w.word (w.cast expected)) (handle.get i)
      s.items[i.toNat]? := by
  obtain ⟨a, rfl, ha⟩ := h
  rw [w.get_wrap, ha.get, Sequence.get]
  by_cases hi : i.toNat < s.items.length
  · have hlength : i.toNat < (s.map w.cast).items.length := by simpa [Sequence.map] using hi
    rw [dif_pos hlength, List.getElem?_eq_getElem hi]
    exact .done (by simp [Sequence.map])
  · have hlength : ¬ i.toNat < (s.map w.cast).items.length := by simpa [Sequence.map] using hi
    rw [dif_neg hlength, List.getElem?_eq_none (Nat.le_of_not_lt hi)]
    exact .outside _ _ _

/-- A handle tells the number of items of its sequence. -/
theorem Presents.len (h : w.Presents handle s) : handle.len = .ofNat s.items.length := by
  obtain ⟨a, rfl, ha⟩ := h
  rw [w.len_wrap, ha.len, Sequence.map, List.length_map]

/-- A handle tells the capacity of its sequence. -/
theorem Presents.capacity (h : w.Presents handle s) : handle.capacity = .ofNat s.capacity := by
  obtain ⟨a, rfl, ha⟩ := h
  rw [w.capacity_wrap, ← UInt64.ofNat_toNat (x := a.buffer.capacity), ha.capacity_eq, Sequence.map]

/-- A handle lists the items of its sequence, each as the array has it. -/
theorem Presents.toList (h : w.Presents handle s) :
    handle.toList = s.items.map (w.word ∘ w.cast) := by
  obtain ⟨a, rfl, ha⟩ := h
  rw [w.toList_wrap, ha.toList, Sequence.map, List.map_map]

end Width

/-! ## Calls on sequences -/

/-- A call that reads, edits or looks at arrays. -/
def Call.OnItems : Call → Prop
  | .lookAtItems | .readItem .. | .writeItem .. | .insertItem .. | .removeItems .. | .cutItems .. =>
    True
  | _ => False

/-- The sequences that the arrays of a caller stand for. -/
abbrev Sequences := Variables (Sequence UInt64)

namespace Sequences

/-- Change the sequence of a variable. -/
def change (v : Sequences) (array : Option String)
    (edited : Sequence UInt64 → Option (Sequence UInt64)) : Sequences × Reply :=
  match (v.get array).map edited with
  | some (some changed) => (v.keep array changed, .status .ok)
  | some none => (v, .status .outOfRange)
  | none => (v, .status .nullHandle)

/-- One call on arrays. -/
def step (v : Sequences) : Call → Sequences × Reply
  | .readItem array i out =>
    match v.get array, out with
    | some s, some _ =>
      match s.items[i.toNat]? with
      | some item => (v, .item .ok (some item))
      | none => (v, .item .outOfRange out)
    | _, _ => (v, .item .nullHandle out)
  | .writeItem array i item => v.change array (·.set? i.toNat item)
  | .insertItem array i item => v.change array (·.insert? i.toNat item)
  | .removeItems array i count => v.change array (·.remove? i.toNat count.toNat)
  | .cutItems array i count out target =>
    match v.get array, out with
    | some s, true =>
      match s.slice? i.toNat count.toNat with
      | some part => (v.keep target part, .status .ok)
      | none => (v, .status .outOfRange)
    | _, _ => (v, .status .nullHandle)
  | _ => (v, .none)

end Sequences

/-- The reply without the handle of a new array. -/
def Reply.withoutHandle : Reply → Reply
  | .array answer _ => .status answer
  | reply => reply

/-- The reply with what is read through a place for an item changed; a call that fails writes
nothing there. -/
def Reply.mapItem (f : UInt64 → UInt64) : Reply → Reply
  | .item .ok out => .item .ok (out.map f)
  | reply => reply

/-- A reply is as it was if what is read is not changed. -/
theorem Reply.mapItem_id : Reply.mapItem id = id := by
  funext reply
  rcases reply with _ | _ | ⟨status, out⟩ | _ | _ | _ | _ | _ | _ | _ | _
  case item => cases status <;> cases out <;> rfl
  all_goals rfl

namespace Session

variable {α : Type} [Layout α] {w : Width α} {s : Session} {v : Sequences}

/-- A call that changes an array changes its sequence, and replies what is expected of the
change. -/
theorem change_sequences (h : s.arrays.Shows w.Presents v) (array : Option String)
    {change : ArrayHandle → Except Fault ArrayHandle}
    {edited : Sequence UInt64 → Option (Sequence UInt64)}
    (hcomes : ∀ handle t, w.Presents handle t → Comes w.Presents (change handle) (edited t))
    (hmemory : (s.changeArray array (changeItems · change)).2.status? ≠ some .allocation) :
    (s.changeArray array (changeItems · change)).1.arrays.Shows w.Presents
        (v.change array edited).1 ∧
      (s.changeArray array (changeItems · change)).2.withoutHandle =
        (v.change array edited).2.mapItem (w.word ∘ w.cast) := by
  have harray := h.get array
  have hkept := s.arrays.keep_get array
  unfold changeArray Sequences.change at *
  generalize s.arrays.get array = handle, v.get array = sequence at *
  cases harray with
  | none =>
    exact ⟨h.keep_none array, rfl⟩
  | @some a t ha =>
    have hchange := hcomes a t ha
    simp only [changeItems, Option.map_some] at hmemory ⊢
    generalize change a = result, edited t = expected at *
    cases hchange with
    | done hchanged => exact ⟨h.keep array (.some hchanged), rfl⟩
    | outside start stop len =>
      refine ⟨?_, rfl⟩
      show (s.arrays.keep array (some a)).Shows _ v
      rw [hkept]
      exact h
    | refused requested => exact absurd rfl hmemory

/-- A call on arrays does to the arrays what it does to the sequences, unless memory is refused. -/
theorem step_sequences (h : s.arrays.Shows w.Presents v) {call : Call} (hcall : call.OnItems)
    (hmemory : (s.step call).2.status? ≠ some .allocation) :
    (s.step call).1.arrays.Shows w.Presents (v.step call).1 ∧
      (s.step call).2.withoutHandle = (v.step call).2.mapItem (w.word ∘ w.cast) := by
  cases call with
  | lookAtItems => exact ⟨h, rfl⟩
  | readItem array i out =>
    have harray := h.get array
    replace hmemory : (readItem (s.arrays.get array) i out).1 ≠ .allocation :=
      fun hstatus => hmemory (congrArg some hstatus)
    show s.arrays.Shows _ _ ∧ Reply.item (readItem (s.arrays.get array) i out).1
      (readItem (s.arrays.get array) i out).2 = _
    simp only [Sequences.step]
    generalize s.arrays.get array = handle, v.get array = sequence at *
    cases harray with
    | none => exact ⟨h, rfl⟩
    | @some a t ha =>
      cases out with
      | none => exact ⟨h, rfl⟩
      | some before =>
        have hget := ha.get i
        simp only [readItem] at hmemory ⊢
        generalize a.get i = result, t.items[i.toNat]? = expected at *
        cases hget with
        | done hword =>
          subst hword
          exact ⟨h, rfl⟩
        | outside start stop len => exact ⟨h, rfl⟩
        | refused requested => exact absurd rfl hmemory
  | writeItem array i item => exact change_sequences h array (fun _ _ ht => ht.set i item) hmemory
  | insertItem array i item =>
    exact change_sequences h array (fun _ _ ht => ht.insert i item) hmemory
  | removeItems array i count =>
    exact change_sequences h array (fun _ _ ht => ht.remove i count) hmemory
  | cutItems array i count out target =>
    have harray := h.get array
    replace hmemory : (cutItems (s.arrays.get array) i count (place out)).1 ≠ .allocation :=
      fun hstatus => hmemory (congrArg some hstatus)
    show (s.arrays.keep target (cutItems (s.arrays.get array) i count (place out)).2.join).Shows
        _ _ ∧
      Reply.status (cutItems (s.arrays.get array) i count (place out)).1 = _
    simp only [Sequences.step]
    generalize s.arrays.get array = handle, v.get array = sequence at *
    cases harray with
    | none => cases out <;> exact ⟨h, rfl⟩
    | @some a t ha =>
      cases out with
      | false => exact ⟨h, rfl⟩
      | true =>
        have hslice := ha.slice i count
        simp only [place, if_true, cutItems] at hmemory ⊢
        generalize a.slice i count = result, t.slice? i.toNat count.toNat = expected at *
        cases hslice with
        | done hpart => exact ⟨h.keep target (.some hpart), rfl⟩
        | outside start stop len => exact ⟨h, rfl⟩
        | refused requested => exact absurd rfl hmemory
  | _ => cases hcall

/-- Calls on arrays, one after the other. -/
theorem run_sequences (h : s.arrays.Shows w.Presents v) {calls : List Call}
    (hcalls : ∀ call ∈ calls, call.OnItems)
    (hmemory : ∀ reply ∈ (s.run calls).2, reply.status? ≠ some .allocation) :
    (s.run calls).1.arrays.Shows w.Presents (runCalls Sequences.step v calls).1 ∧
      (s.run calls).2.map Reply.withoutHandle =
        (runCalls Sequences.step v calls).2.map (Reply.mapItem (w.word ∘ w.cast)) := by
  rw [← List.forall₂_eq_eq_eq, List.forall₂_map_left_iff, List.forall₂_map_right_iff]
  exact run_related (R := fun s v => s.arrays.Shows w.Presents v) step_sequences h hcalls hmemory

end Session

/-! ## Runs of calls -/

/-- The first call of a run leaves an empty array of the default capacity in its variable. -/
theorem newArray_presents {α : Type} [Layout α] (w : Width α) {width : UInt64}
    {a : GrowableArray α} (hnew : newArray width = handle (GrowableArray.empty.map w.wrap))
    (ha : GrowableArray.empty = .ok a) (root : String) :
    (Session.step {} (.newArray root width)).1.arrays.Shows w.Presents
      (Variables.empty.keep root (some ⟨[], usualCapacity.toNat⟩)) := by
  have hholds := GrowableArray.of_withCapacity_eq_ok ha
  show (Table.keep {} root (newArray width)).Shows _ _
  rw [hnew, ha]
  exact Table.Shows.empty.keep root (.some ⟨a, rfl, hholds⟩)

/-- Replies that agree up to handles and items agree in their statuses. -/
theorem map_status?_eq {f : UInt64 → UInt64} {replies expected : List Reply}
    (h : replies.map Reply.withoutHandle = expected.map (Reply.mapItem f)) :
    replies.map Reply.status? = expected.map Reply.status? := by
  have hhandle : Reply.status? ∘ Reply.withoutHandle = Reply.status? := by
    funext reply
    cases reply <;> rfl
  have hitem : Reply.status? ∘ Reply.mapItem f = Reply.status? := by
    funext reply
    rcases reply with _ | _ | ⟨status, out⟩ | _ | _ | _ | _ | _ | _ | _ | _
    case item => cases status <;> rfl
    all_goals rfl
  have hstatus := congrArg (List.map Reply.status?) h
  rwa [List.map_map, List.map_map, hhandle, hitem] at hstatus

/-- The same calls on a new array with items of four bytes and on one with items of eight bytes, and
on the arrays cut out of them, get the same statuses as long as neither side is refused memory.
After the calls the arrays of every variable have the same number of items and the same capacity,
the items on the wide side are those of the list of words that the calls make, and those on the
narrow side are the same words modulo 2 to the 32, and so is what a call reads there. -/
theorem narrow_simulates_wide (root : String) (calls : List Call)
    (hcalls : ∀ call ∈ calls, call.OnItems) :
    let narrow := (Session.step {} (.newArray root 4)).1.run calls
    let wide := (Session.step {} (.newArray root 8)).1.run calls
    let start : Sequences := Variables.empty.keep root (some ⟨[], usualCapacity.toNat⟩)
    (∀ reply ∈ narrow.2 ++ wide.2, reply.status? ≠ some .allocation) →
      narrow.2.map Reply.status? = wide.2.map Reply.status? ∧
      wide.2.map Reply.withoutHandle = (runCalls Sequences.step start calls).2 ∧
      narrow.2.map Reply.withoutHandle =
        (runCalls Sequences.step start calls).2.map (Reply.mapItem (· % 4294967296)) ∧
      ∀ name,
        itemCount (narrow.1.arrays.get name) = itemCount (wide.1.arrays.get name) ∧
        itemRoom (narrow.1.arrays.get name) = itemRoom (wide.1.arrays.get name) ∧
        (wide.1.arrays.get name).map ArrayHandle.toList =
          ((runCalls Sequences.step start calls).1.get name).map Sequence.items ∧
        (narrow.1.arrays.get name).map ArrayHandle.toList =
          ((wide.1.arrays.get name).map ArrayHandle.toList).map (List.map (· % 4294967296)) := by
  intro narrow wide start hmemory
  -- Nothing relates the two sides directly: both do what the one run over sequences does.
  obtain ⟨hnarrowMemory, hwideMemory⟩ := List.forall_mem_append.1 hmemory
  obtain ⟨hnarrow, hnarrowReplies⟩ := Session.run_sequences
    (newArray_presents .narrow rfl rfl root) hcalls hnarrowMemory
  obtain ⟨hwide, hwideReplies⟩ := Session.run_sequences
    (newArray_presents .wide rfl rfl root) hcalls hwideMemory
  have hstatuses := (map_status?_eq hnarrowReplies).trans (map_status?_eq hwideReplies).symm
  have hmod : Width.narrow.word ∘ Width.narrow.cast = (· % 4294967296) :=
    funext UInt64.toUInt64_toUInt32
  have hid : Width.wide.word ∘ Width.wide.cast = id := rfl
  rw [hmod] at hnarrowReplies
  rw [hid, Reply.mapItem_id, List.map_id] at hwideReplies
  refine ⟨hstatuses, hwideReplies, hnarrowReplies, fun name => ?_⟩
  have hnarrowName := hnarrow.get name
  have hwideName := hwide.get name
  generalize narrow.1.arrays.get name = a, wide.1.arrays.get name = b,
    (runCalls Sequences.step start calls).1.get name = s at hnarrowName hwideName ⊢
  cases hnarrowName with
  | none =>
    cases hwideName
    exact ⟨rfl, rfl, rfl, rfl⟩
  | some ha =>
    cases hwideName with
    | some hb =>
      refine ⟨ha.len.trans hb.len.symm, ha.capacity.trans hb.capacity.symm, ?_, ?_⟩
      · rw [Option.map_some, hb.toList, hid, List.map_id]
        rfl
      · rw [Option.map_some, Option.map_some, ha.toList, hb.toList, hid, List.map_id, hmod]
        rfl

/-- A word that is too large for the narrow side goes in, comes out cut off, is cut out with its
neighbour into another array and replaced; a position behind the end and a range that runs over
the largest word are refused on both sides. -/
theorem narrow_simulates_wide_large :
    ∃ calls : List Call,
      calls = [.insertItem "a" 0 4294967301, .insertItem "a" 0 7, .readItem "a" 1 (some 0),
        .cutItems "a" 0 2 true "b", .writeItem "b" 0 8589934592, .readItem "a" 2 (some 3),
        .removeItems "b" 1 18446744073709551615] ∧
      (∀ call ∈ calls, call.OnItems) ∧
      (((Session.step {} (.newArray "a" 4)).1.run calls).2.map Reply.withoutHandle) =
        [.status .ok, .status .ok, .item .ok (some 5), .status .ok, .status .ok,
          .item .outOfRange (some 3), .status .outOfRange] ∧
      (((Session.step {} (.newArray "a" 8)).1.run calls).1.arrays.get "b").map
        ArrayHandle.toList = some [8589934592, 4294967301] := by
  refine ⟨_, rfl, by simp [Call.OnItems], ?_⟩
  obtain ⟨-, -, hreplies, hitems⟩ := narrow_simulates_wide "a"
    [.insertItem "a" 0 4294967301, .insertItem "a" 0 7, .readItem "a" 1 (some 0),
      .cutItems "a" 0 2 true "b", .writeItem "b" 0 8589934592, .readItem "a" 2 (some 3),
      .removeItems "b" 1 18446744073709551615] (by simp [Call.OnItems]) (by decide)
  exact ⟨hreplies.trans rfl, (hitems "b").2.2.1.trans rfl⟩

end Containers.Foreign
