import Containers.Foreign.Session
import Containers.GrowableArray.InPlace
import Containers.Proofs.ChainedMap.InPlace

/-!
# Calls that fail change nothing

A call that answers with a status first needs its pointers, then, on a map, a key of the map's kind,
and only then does it try its operation (`Verdict`). Each of the three can put an end to it, and
then nothing has changed: no array, map or string, no variable and no place for an answer. So the
status tells how far the call got. This is so for every allocator, whichever of the requests of a
call it refuses: for the slots of an array, the copy of a key, an entry, the copies of a string or
a new handle. Operations that change an array or a map in place have not begun to when they are
refused (`InPlace.operate_eq`, `InPlace.store_eq`).
-/

namespace Containers.Foreign

/-! ## Calls with a status -/

/-- The status in a reply. -/
def Reply.status? : Reply → Option Status
  | .status answer | .item answer _ | .array answer _ | .payload answer _ | .string answer _ =>
    some answer
  | _ => Option.none

/-- A key of the kind that a map does not have. -/
def MapHandle.Mismatches : MapHandle → Key → Prop
  | .int _, .text _ | .text _, .int _ => True
  | _, _ => False

namespace Call

/-- The call answers with a status. -/
def HasStatus : Call → Prop
  | .readItem .. | .writeItem .. | .insertItem .. | .removeItems .. | .cutItems ..
  | .storePayload .. | .findPayload .. | .removeEntry ..
  | .appendString .. | .appendCharacter .. | .cutString .. => True
  | _ => False

/-- A pointer that the call needs is null. The place for a payload is not needed. -/
def LacksPointer (s : Session) : Call → Prop
  | .readItem array _ out => s.arrays.get array = none ∨ out = none
  | .writeItem array .. | .insertItem array .. | .removeItems array .. =>
    s.arrays.get array = none
  | .cutItems array _ _ out _ => s.arrays.get array = none ∨ out = false
  | .storePayload map key _ | .findPayload map key _ | .removeEntry map key =>
    s.maps.get map = none ∨ key = .text none
  | .appendString name slot tail =>
    slot = false ∨ s.strings.get name = none ∨ s.tailBytes tail = none
  | .appendCharacter name slot _ => slot = false ∨ s.strings.get name = none
  | .cutString source _ _ out _ => s.tailBytes source = none ∨ out = false
  | _ => False

/-- The call has a key of the kind that its map does not have. -/
def OtherKind (s : Session) : Call → Prop
  | .storePayload map key _ | .findPayload map key _ | .removeEntry map key =>
    ∃ handle, s.maps.get map = some handle ∧ handle.Mismatches key
  | _ => False

/-- The status of the operation that the call tries, if it gets so far. -/
def outcome [Allocator] (s : Session) : Call → Option Status
  | .readItem array i _ => (s.arrays.get array).map fun a => .ofResult (a.get i)
  | .writeItem array i item => (s.arrays.get array).map fun a => .ofResult (a.set i item)
  | .insertItem array i item => (s.arrays.get array).map fun a => .ofResult (a.insert i item)
  | .removeItems array i count => (s.arrays.get array).map fun a => .ofResult (a.remove i count)
  | .cutItems array i count .. =>
    (s.arrays.get array).map fun a => .ofResult (boxed (a.slice i count))
  | .storePayload map key payload =>
    match s.maps.get map, key with
    | some (.int m), .int key => some (.ofResult (m.store key payload))
    | some (.text m), .text (some bytes) => some (.ofResult (m.store ⟨untilZero bytes⟩ payload))
    | _, _ => none
  | .findPayload map key _ =>
    match s.maps.get map, key with
    | some (.int m), .int key => some (.ofResult (m.get key))
    | some (.text m), .text (some bytes) => some (.ofResult (m.get ⟨untilZero bytes⟩))
    | _, _ => none
  | .removeEntry .. => some .ok
  | .appendString name _ tail => (s.tailBytes tail).bind fun bytes =>
    (s.strings.get name).map fun old =>
      .ofResult (old.replaced fun content => Text.extend content (untilZero bytes))
  | .appendCharacter name _ code =>
    (s.strings.get name).map fun old => .ofResult (old.replaced (withCharacter code))
  | .cutString source i count .. =>
    (s.tailBytes source).map fun bytes => .ofResult (OwnedString.part (untilZero bytes) i count)
  | _ => none

/-- The reply of a call that fails: the place for an answer holds what it held before. -/
def refusal (status : Status) : Call → Reply
  | .readItem _ _ out => .item status out
  | .cutItems .. => .array status none
  | .findPayload _ _ out => .payload status out
  | .cutString .. => .string status none
  | _ => .status status

end Call

/-! ## Only lookups miss a key -/

section Misses

variable {β γ : Type}

/-- The fault of a lookup without an entry. -/
def Misses (result : Except Fault β) : Prop := result = .error .keyNotFound

/-- Only the fault of a lookup has the status of a lookup without an entry. -/
theorem misses_of_ofResult {result : Except Fault β} (h : Status.ofResult result = .keyNotFound) :
    Misses result := by
  rcases result with (_ | _ | _) | _
  case error.keyNotFound => rfl
  all_goals cases h

/-- What comes out well does not miss a key. -/
theorem not_misses_ok (b : β) : ¬ Misses (.ok b) := fun h => by cases h

/-- Of two steps that do not miss a key, the whole does not either. -/
theorem not_misses_bind {first : Except Fault β} {rest : β → Except Fault γ}
    (hfirst : ¬ Misses first) (hrest : ∀ b, ¬ Misses (rest b)) : ¬ Misses (first >>= rest) := by
  cases first with
  | ok b => exact hrest b
  | error fault => exact fun h => hfirst (by cases h; rfl)

/-- What is made of a result does not miss a key if the result does not. -/
theorem not_misses_map {result : Except Fault β} (h : ¬ Misses result) (f : β → γ) :
    ¬ Misses (result.map f) := by
  cases result with
  | ok b => exact not_misses_ok (f b)
  | error fault => exact fun hmap => h (by cases hmap; rfl)

/-- What does not miss a key for any allocator does not do so behind other requests. -/
theorem not_misses_after [Allocator] {compute : [Allocator] → Except Fault β}
    (h : ∀ {_ : Allocator}, ¬ Misses compute) (count : Nat) :
    ¬ Misses (Allocation.after count compute) := h

/-- A block that is too large is no key that is missing. -/
theorem not_misses_blockSize (limit width count : Nat) :
    ¬ Misses (Allocation.blockSize limit width count) := by
  unfold Allocation.blockSize
  split
  · exact not_misses_ok _
  · exact fun h => by cases h

section
variable [Allocator]

/-- A refused request is no key that is missing. -/
theorem not_misses_request (width count : Nat) : ¬ Misses (Allocation.request width count) := by
  rcases Allocation.request_cases width count with hgranted | hrefused
  · rw [hgranted]
    exact not_misses_ok ()
  · rw [hrefused]
    exact fun h => by cases h

/-- Moving an object into an allocation of its own does not miss a key. -/
theorem not_misses_single [Layout β] (b : β) : ¬ Misses (ExactVector.single b) :=
  not_misses_bind (not_misses_request _ _) fun _ => not_misses_ok _

/-- Making a handle does not miss a key if making the object does not. -/
theorem not_misses_boxed [Layout β] {made : Except Fault β} (h : ¬ Misses made) :
    ¬ Misses (boxed made) :=
  not_misses_bind h fun b => not_misses_after (not_misses_single b) 1

/-- Appending to a string does not miss a key. -/
theorem not_misses_extend (bytes tail : ByteString) : ¬ Misses (Text.extend bytes tail) := by
  unfold Text.extend
  split
  · exact not_misses_ok _
  · exact not_misses_bind (not_misses_request _ _) fun _ => not_misses_ok _

/-- Copying a string does not miss a key. -/
theorem not_misses_copy (bytes : ByteString) : ¬ Misses (OwnedString.copy bytes) :=
  not_misses_bind (not_misses_extend _ _) fun _ => not_misses_ok _

/-- Changing a string does not miss a key if the change of its content does not. -/
theorem not_misses_replaced (old : OwnedString)
    {change : [Allocator] → ByteString → Except Fault ByteString}
    (h : ∀ [Allocator] content, ¬ Misses (change content)) : ¬ Misses (old.replaced change) :=
  not_misses_bind (not_misses_extend _ _) fun content =>
    not_misses_bind (not_misses_after (h content) 1) fun changed =>
      not_misses_after (not_misses_copy changed) 2

/-- Appending a character does not miss a key. -/
theorem not_misses_withCharacter (code : Int32) (content : ByteString) :
    ¬ Misses (withCharacter code content) := by
  unfold withCharacter
  split
  · exact not_misses_ok content
  · exact not_misses_extend _ _

/-- Cutting a string does not miss a key. -/
theorem not_misses_part (content : ByteString) (i count : UInt64) :
    ¬ Misses (OwnedString.part content i count) := by
  have hcut : ¬ Misses (Text.cut content i count) := by
    unfold Text.cut
    split
    · exact not_misses_ok _
    · exact fun h => by cases h
  exact not_misses_bind (not_misses_bind hcut fun _ => not_misses_extend _ _) fun bytes =>
    not_misses_after (not_misses_copy bytes) 1

/-- Storing under a key does not need it to be there. -/
theorem not_misses_store {κ V : Type} [MapKey κ] [Layout V] (m : ChainedMap κ V) (key : κ)
    (payload : V) : ¬ Misses (m.store key payload) := by
  have hmake : ¬ Misses (Entry.make (MapKey.encode key) payload) :=
    not_misses_bind (not_misses_request _ _) fun _ => not_misses_after (not_misses_single _) 1
  unfold ChainedMap.store
  split
  · exact not_misses_ok _
  · exact not_misses_bind hmake fun _ => not_misses_ok _

end

/-- A range that is not in an array is no key that is missing. -/
theorem not_misses_checkedStop (start count len : UInt64) :
    ¬ Misses (checkedStop start count len) := by
  unfold checkedStop
  split
  · split
    · exact not_misses_ok _
    · exact fun h => by cases h
  · exact fun h => by cases h

variable {α : Type} [Layout α]

/-- Making room does not miss a key. -/
theorem not_misses_withRoom [Allocator] (b : Buffer α) (len : UInt64) :
    ¬ Misses (b.withRoom len) := by
  unfold Buffer.withRoom Buffer.grown
  split
  · split
    · exact fun h => by cases h
    · exact not_misses_bind (not_misses_blockSize _ _ _) fun _ =>
        not_misses_bind (not_misses_request _ _) fun _ => not_misses_ok _
  · exact not_misses_ok b

/-- Reading an item does not miss a key. -/
theorem not_misses_get (a : GrowableArray α) (i : UInt64) : ¬ Misses (a.get i) := by
  unfold GrowableArray.get
  split
  · exact not_misses_ok _
  · exact fun h => by cases h

omit [Layout α] in
/-- Replacing an item does not miss a key. -/
theorem not_misses_set (a : GrowableArray α) (i : UInt64) (item : α) : ¬ Misses (a.set i item) := by
  unfold GrowableArray.set
  split
  · exact not_misses_ok _
  · exact fun h => by cases h

/-- Inserting an item does not miss a key. -/
theorem not_misses_insert [Allocator] (a : GrowableArray α) (i : UInt64) (item : α) :
    ¬ Misses (a.insert i item) := by
  obtain ⟨buffer, len⟩ := a
  rw [GrowableArray.insert]
  split
  · exact not_misses_bind (fun h => by cases h) fun _ => not_misses_bind
      (not_misses_withRoom buffer len) fun _ => not_misses_ok _
  · exact not_misses_bind (not_misses_withRoom buffer len) fun _ => not_misses_ok _

omit [Layout α] in
/-- Removing items does not miss a key. -/
theorem not_misses_remove (a : GrowableArray α) (i count : UInt64) :
    ¬ Misses (a.remove i count) :=
  not_misses_bind (not_misses_checkedStop _ _ _) fun _ => not_misses_ok _

/-- Copying items does not miss a key. -/
theorem not_misses_slice [Allocator] (a : GrowableArray α) (i count : UInt64) :
    ¬ Misses (a.slice i count) :=
  not_misses_bind (not_misses_checkedStop _ _ _) fun _ =>
    not_misses_bind (not_misses_bind (not_misses_request _ _) fun _ => not_misses_ok _)
      fun _ => not_misses_ok _

end Misses

/-! ## How far a call gets -/

/-- How far a call gets, with the session and the reply it leads to. -/
inductive Verdict [Allocator] (s : Session) (call : Call) : Session × Reply → Prop where
  | missing (h : call.LacksPointer s) : Verdict s call (s, call.refusal .nullHandle)
  | otherKind (hpointers : ¬ call.LacksPointer s) (h : call.OtherKind s) :
    Verdict s call (s, call.refusal .badKind)
  | refused (hpointers : ¬ call.LacksPointer s) (hkind : ¬ call.OtherKind s) (fault : Fault)
    (houtcome : call.outcome s = some (.ofFault fault)) :
    Verdict s call (s, call.refusal (.ofFault fault))
  | done (hpointers : ¬ call.LacksPointer s) (hkind : ¬ call.OtherKind s)
    (houtcome : call.outcome s = some .ok) (next : Session) (reply : Reply)
    (hreply : reply.status? = some .ok) : Verdict s call (next, reply)

namespace Verdict

variable [Allocator] {s : Session} {call : Call}

/-- Whatever ends a call, the session is as it was. -/
theorem session_eq {left : Session × Reply} (h : Verdict s call left)
    (hstatus : left.2.status? ≠ some .ok) : left.1 = s := by
  cases h with
  | missing | otherKind | refused => rfl
  | done hpointers hkind houtcome next reply hreply => exact absurd hreply hstatus

/-- A call that gets to its operation, with the session and the reply that it makes of what the
operation leaves behind: nothing has changed if that is what was there before. -/
theorem of_settle {β γ : Type} {result : Except Fault γ} {change : γ → β} {before : β}
    (next : β → Session) (reply : Status → β → Reply) (hpointers : ¬ call.LacksPointer s)
    (hkind : ¬ call.OtherKind s) (houtcome : call.outcome s = some (.ofResult result))
    (hnext : next before = s) (hrefused : ∀ status, reply status before = call.refusal status)
    (hdone : ∀ after, (reply .ok after).status? = some .ok) :
    let left := settle before (result.map change)
    Verdict s call (next left.2, reply left.1 left.2) := by
  cases result with
  | ok value => exact .done hpointers hkind houtcome _ _ (hdone (change value))
  | error fault =>
    show Verdict s call (next before, reply (.ofFault fault) before)
    rw [hnext, hrefused]
    exact .refused hpointers hkind fault houtcome

/-- A call that changes an array. -/
theorem of_changeItems {array : Option String} {change : ArrayHandle → Except Fault ArrayHandle}
    (hpointers : call.LacksPointer s ↔ s.arrays.get array = none) (hkind : ¬ call.OtherKind s)
    (houtcome : call.outcome s = (s.arrays.get array).map fun a => .ofResult (change a))
    (hrefusal : ∀ status, call.refusal status = .status status) :
    Verdict s call (s.changeArray array (changeItems · change)) := by
  have hkept := s.arrays.keep_get array
  unfold Session.changeArray
  generalize s.arrays.get array = handle at hpointers houtcome hkept ⊢
  cases handle with
  | none =>
    show Verdict s call ({ s with arrays := s.arrays.keep array none }, .status .nullHandle)
    rw [Table.keep_none, ← hrefusal]
    exact .missing (hpointers.2 rfl)
  | some a =>
    refine of_settle (fun changed => { s with arrays := s.arrays.keep array changed })
      (fun status _ => .status status) ?_ hkind houtcome ?_ (fun status => (hrefusal status).symm)
      fun _ => rfl
    · rw [hpointers]
      exact Option.some_ne_none a
    · rw [hkept]

/-- A call that changes the string of a variable. -/
theorem of_replaceString {name : Option String} {present : Bool}
    {change : [Allocator] → ByteString → Except Fault ByteString}
    (hpointers : call.LacksPointer s ↔ present = false ∨ s.strings.get name = none)
    (hkind : ¬ call.OtherKind s)
    (houtcome : call.outcome s = (s.strings.get name).map fun old =>
      .ofResult (old.replaced change))
    (hrefusal : ∀ status, call.refusal status = .status status) :
    Verdict s call (s.changeString name present (replaceString · change)) := by
  have hkept := s.strings.keep_get name
  cases present with
  | false =>
    show Verdict s call ({ s with strings := s.strings.keep name none }, .status .nullHandle)
    rw [Table.keep_none, ← hrefusal]
    exact .missing (hpointers.2 (.inl rfl))
  | true =>
    unfold Session.changeString Session.slot
    rw [if_pos rfl]
    generalize s.strings.get name = handle at hpointers houtcome hkept ⊢
    cases handle with
    | none =>
      show Verdict s call ({ s with strings := s.strings.keep name none }, .status .nullHandle)
      rw [Table.keep_none, ← hrefusal]
      exact .missing (hpointers.2 (.inr rfl))
    | some old =>
      refine of_settle
        (fun slot : Pointer (Pointer OwnedString) =>
          { s with strings := s.strings.keep name slot.join })
        (fun status _ => .status status) ?_ hkind houtcome ?_
        (fun status => (hrefusal status).symm) fun _ => rfl
      · simp [hpointers]
      · rw [Option.join_some, hkept]

/-- A call with a map and a key: it gets to its operation if both are of one kind. -/
theorem of_withKey {map : Option String} {key : Key} {left : Session × Reply}
    (hpointers : call.LacksPointer s ↔ s.maps.get map = none ∨ key = .text none)
    (hkind : call.OtherKind s ↔
      ∃ handle, s.maps.get map = some handle ∧ handle.Mismatches key)
    (hrefused : ∀ status,
      (∀ (β : Type) (action : MapHandle → GivenKey → β),
        withKey (s.maps.get map) key action = .error status) →
      left = (s, call.refusal status))
    (hint : ¬ call.LacksPointer s → ¬ call.OtherKind s → ∀ m k,
      s.maps.get map = some (.int m) → key = .int k → Verdict s call left)
    (htext : ¬ call.LacksPointer s → ¬ call.OtherKind s → ∀ m bytes,
      s.maps.get map = some (.text m) → key = .text (some bytes) → Verdict s call left) :
    Verdict s call left := by
  -- Only the pointers and the two kinds count, so they are all there is to take apart.
  generalize s.maps.get map = handle at *
  rcases handle with _ | m | m
  · rw [hrefused .nullHandle fun _ _ => rfl]
    exact .missing (hpointers.2 (.inl rfl))
  · rcases key with k | _ | bytes
    · exact hint (by simp [hpointers]) (by simp [hkind, MapHandle.Mismatches]) m k rfl rfl
    · rw [hrefused .nullHandle fun _ _ => rfl]
      exact .missing (hpointers.2 (.inr rfl))
    · rw [hrefused .badKind fun _ _ => rfl]
      exact .otherKind (by simp [hpointers]) (hkind.2 ⟨_, rfl, trivial⟩)
  · rcases key with k | _ | bytes
    · rw [hrefused .badKind fun _ _ => rfl]
      exact .otherKind (by simp [hpointers]) (hkind.2 ⟨_, rfl, trivial⟩)
    · rw [hrefused .nullHandle fun _ _ => rfl]
      exact .missing (hpointers.2 (.inr rfl))
    · exact htext (by simp [hpointers]) (by simp [hkind, MapHandle.Mismatches]) m bytes rfl rfl

/-- A lookup that gets to the map. -/
theorem of_found {out : Pointer Int64} (found : Option Int64) (hpointers : ¬ call.LacksPointer s)
    (hkind : ¬ call.OtherKind s)
    (houtcome : call.outcome s = some (if found.isSome then .ok else .keyNotFound))
    (hrefusal : ∀ status, call.refusal status = .payload status out) :
    Verdict s call (s, .payload (reportPayload out (.ok found)).1
      (reportPayload out (.ok found)).2) := by
  cases found with
  | none =>
    show Verdict s call (s, .payload .keyNotFound out)
    rw [← hrefusal]
    exact .refused hpointers hkind .keyNotFound houtcome
  | some payload => exact .done hpointers hkind houtcome _ _ rfl

end Verdict

/-- A lookup that has to find something has the status of the lookup that need not. -/
theorem ofResult_get {κ V : Type} [MapKey κ] (m : ChainedMap κ V) (key : κ) :
    Status.ofResult (m.get key) = if (m.get? key).isSome then .ok else .keyNotFound := by
  unfold ChainedMap.get
  cases m.get? key <;> rfl

open Session in
/-- Every call with a status has a verdict. -/
theorem verdict [Allocator] (s : Session) {call : Call} (hcall : call.HasStatus) :
    Verdict s call (s.step call) := by
  cases call with
  | readItem array i out =>
    show Verdict s _ (s, .item (readItem (s.arrays.get array) i out).1
      (readItem (s.arrays.get array) i out).2)
    cases harray : s.arrays.get array with
    | none => exact .missing (.inl harray)
    | some a =>
      cases out with
      | none => exact .missing (.inr rfl)
      | some before =>
        exact .of_settle (fun _ => s) .item (by simp [Call.LacksPointer, harray]) id
          (by rw [Call.outcome, harray]; rfl) rfl (fun _ => rfl) fun _ => rfl
  | writeItem | insertItem | removeItems => exact .of_changeItems Iff.rfl id rfl fun _ => rfl
  | cutItems array i count out target =>
    show Verdict s _
      ({ s with arrays :=
          s.arrays.keep target (cutItems (s.arrays.get array) i count (place out)).2.join },
        .array (cutItems (s.arrays.get array) i count (place out)).1
          (cutItems (s.arrays.get array) i count (place out)).2.join)
    cases harray : s.arrays.get array with
    | none =>
      have hmissing : Verdict s (.cutItems array i count out target) _ := .missing (.inl harray)
      cases out <;> exact hmissing
    | some a =>
      cases out with
      | false => exact .missing (.inr rfl)
      | true =>
        exact .of_settle
          (fun slot : Pointer (Pointer ArrayHandle) =>
            { s with arrays := s.arrays.keep target slot.join })
          (fun status slot => .array status slot.join) (by simp [Call.LacksPointer, harray]) id
          (by rw [Call.outcome, harray]; rfl) rfl (fun _ => rfl) fun _ => rfl
  | storePayload map key payload =>
    show Verdict s _
      ({ s with maps := s.maps.keep map (storePayload (s.maps.get map) key payload).2 },
        .status (storePayload (s.maps.get map) key payload).1)
    have hkept := s.maps.keep_get map
    refine .of_withKey Iff.rfl Iff.rfl (fun status hrefused => ?_) ?_ ?_
    · simp only [storePayload, hrefused, hkept]
      rfl
    -- Maps of both kinds settle alike, each with its own store.
    all_goals
      intro hpointers hkind m k hmap hkey
      subst hkey
      rw [hmap] at hkept ⊢
      exact .of_settle (fun changed => { s with maps := s.maps.keep map (some changed) })
        (fun status _ => .status status) hpointers hkind (by simp only [Call.outcome, hmap])
        (by rw [hkept]) (fun _ => rfl) fun _ => rfl
  | findPayload map key out =>
    show Verdict s _ (s, .payload (findPayload (s.maps.get map) key out).1
      (findPayload (s.maps.get map) key out).2)
    refine .of_withKey Iff.rfl Iff.rfl (fun status hrefused => ?_) ?_ ?_
    · simp only [findPayload, hrefused]
      rfl
    all_goals
      intro hpointers hkind m k hmap hkey
      subst hkey
      rw [hmap]
      exact .of_found (m.get? _) hpointers hkind
        (by simp only [Call.outcome, hmap, ofResult_get]) fun _ => rfl
  | removeEntry map key =>
    show Verdict s _
      ({ s with maps := s.maps.keep map (removeEntry (s.maps.get map) key).2 },
        .status (removeEntry (s.maps.get map) key).1)
    have hkept := s.maps.keep_get map
    refine .of_withKey Iff.rfl Iff.rfl (fun status hrefused => ?_) ?_ ?_
    · simp only [removeEntry, hrefused, hkept]
      rfl
    all_goals
      intro hpointers hkind m k hmap hkey
      subst hkey
      rw [hmap]
      exact .done hpointers hkind rfl _ _ rfl
  | appendString name present tail =>
    show Verdict s _ (s.changeString name present (appendString · (s.tailBytes tail)))
    cases htail : s.tailBytes tail with
    | none =>
      show Verdict s _ ({ s with strings := s.strings.keep name (s.slot name present).join },
        .status .nullHandle)
      rw [keep_slot]
      exact .missing (.inr (.inr htail))
    | some bytes =>
      exact .of_replaceString (by simp [Call.LacksPointer, htail]) id
        (by rw [Call.outcome, htail, Option.bind_some]) fun _ => rfl
  | appendCharacter name present code => exact .of_replaceString Iff.rfl id rfl fun _ => rfl
  | cutString source i count out target =>
    show Verdict s _
      ({ s with strings :=
          s.strings.keep target (cutString (s.tailBytes source) i count (place out)).2.join },
        .string (cutString (s.tailBytes source) i count (place out)).1
          (cutString (s.tailBytes source) i count (place out)).2.join)
    cases hsource : s.tailBytes source with
    | none =>
      have hmissing : Verdict s (.cutString source i count out target) _ := .missing (.inl hsource)
      cases out <;> exact hmissing
    | some bytes =>
      cases out with
      | false => exact .missing (.inr rfl)
      | true =>
        exact .of_settle
          (fun slot : Pointer (Pointer OwnedString) =>
            { s with strings := s.strings.keep target slot.join })
          (fun status slot => .string status slot.join) (by simp [Call.LacksPointer, hsource]) id
          (by rw [Call.outcome, hsource]; rfl) rfl (fun _ => rfl) fun _ => rfl
  | _ => cases hcall

/-- What does not miss a key on any object does not have the status of a lookup on a pointer. -/
theorem map_ofResult_ne {β γ : Type} {result : γ → Except Fault β} (handle : Pointer γ)
    (h : ∀ a, ¬ Misses (result a)) :
    (handle.map fun a => Status.ofResult (result a)) ≠ some .keyNotFound := by
  intro hmap
  obtain ⟨a, -, ha⟩ := Option.map_eq_some_iff.1 hmap
  exact h a (misses_of_ofResult ha)

/-- Only a lookup has an operation that can miss a key. -/
theorem eq_findPayload_of_outcome [Allocator] {s : Session} {call : Call}
    (h : call.outcome s = some .keyNotFound) : ∃ map key out, call = .findPayload map key out := by
  cases call with
  | findPayload map key out => exact ⟨map, key, out, rfl⟩
  | readItem array i out =>
    refine absurd h (map_ofResult_ne _ fun a => ?_)
    cases a with
    | narrow a => exact not_misses_map (not_misses_get a i) _
    | wide a => exact not_misses_get a i
  | writeItem array i item =>
    refine absurd h (map_ofResult_ne _ fun a => ?_)
    cases a <;> exact not_misses_map (not_misses_set _ _ _) _
  | insertItem array i item =>
    refine absurd h (map_ofResult_ne _ fun a => ?_)
    cases a <;> exact not_misses_map (not_misses_insert _ _ _) _
  | removeItems array i count =>
    refine absurd h (map_ofResult_ne _ fun a => ?_)
    cases a <;> exact not_misses_map (not_misses_remove _ _ _) _
  | cutItems array i count out target =>
    refine absurd h (map_ofResult_ne _ fun a => not_misses_boxed ?_)
    cases a <;> exact not_misses_map (not_misses_slice _ _ _) _
  | storePayload map key payload =>
    simp only [Call.outcome] at h
    split at h
    · exact absurd (misses_of_ofResult (Option.some.inj h)) (not_misses_store _ _ _)
    · exact absurd (misses_of_ofResult (Option.some.inj h)) (not_misses_store _ _ _)
    · cases h
  | appendString name present tail =>
    obtain ⟨bytes, -, h⟩ := Option.bind_eq_some_iff.1 h
    exact absurd h (map_ofResult_ne _ fun old =>
      not_misses_replaced old fun content => not_misses_extend content _)
  | appendCharacter name present code =>
    exact absurd h (map_ofResult_ne _ fun old =>
      not_misses_replaced old (not_misses_withCharacter code))
  | cutString source i count out target =>
    exact absurd h (map_ofResult_ne _ fun bytes => not_misses_part _ i count)
  | _ => cases h

/-- A call with a status that is not the status of success leaves the session as it was, the places
for answers included, whatever arrays, maps and strings there are, whichever pointers are null and
whichever requests the allocator refuses. The status says that a pointer is null exactly if one that
the call needs is, it says that the key is of another kind exactly if that is the first thing wrong,
a missing key is only reported by a lookup, and in all other cases the status is that of the
operation. Carried out step by step, an operation on an array and the storing of a payload in a map
have changed nothing when they run into a fault, and it is the fault of the operation. -/
theorem failed_step_changes_nothing [Allocator] (s : Session) (call : Call)
    (hcall : call.HasStatus) :
    (∃ status, (s.step call).2.status? = some status ∧
      (status ≠ .ok → s.step call = (s, call.refusal status)) ∧
      (status = .nullHandle ↔ call.LacksPointer s) ∧
      (status = .badKind ↔ ¬ call.LacksPointer s ∧ call.OtherKind s) ∧
      (status = .keyNotFound → ∃ map key out, call = .findPayload map key out) ∧
      (¬ call.LacksPointer s → ¬ call.OtherKind s → call.outcome s = some status)) ∧
    (∀ array i count out, (cutItems array i count out).1 ≠ .ok →
      (cutItems array i count out).2 = out) ∧
    (∀ source i count out, (cutString source i count out).1 ≠ .ok →
      (cutString source i count out).2 = out) ∧
    (∀ {α : Type} [Layout α] (a after : GrowableArray α) operation fault,
      InPlace.operate operation a = (.error fault, after) →
        (operation.apply a).2 = .error fault ∧ after = a) ∧
    ∀ {κ : Type} [MapKey κ] (m after : ChainedMap κ Int64) key payload fault,
      InPlace.store key payload m = (.error fault, after) →
        m.store key payload = .error fault ∧ after = m := by
  refine ⟨?_, fun _ _ _ _ => cutItems_of_ne_ok, fun _ _ _ _ => cutString_of_ne_ok,
    fun a after operation fault h => ?_, fun m after key payload fault h => ?_⟩
  · have hverdict := verdict s hcall
    generalize s.step call = left at hverdict ⊢
    have hrefusal : ∀ status, (call.refusal status).status? = some status := fun status => by
      cases call <;> rfl
    cases hverdict with
    | missing h =>
      exact ⟨.nullHandle, hrefusal _, fun _ => rfl, by simp [h], by simp [h], by simp,
        fun hpointers => absurd h hpointers⟩
    | otherKind hpointers h =>
      exact ⟨.badKind, hrefusal _, fun _ => rfl, by simp [hpointers], by simp [hpointers, h],
        by simp, fun _ hkind => absurd h hkind⟩
    | refused hpointers hkind fault houtcome =>
      refine ⟨_, hrefusal _, fun _ => rfl, ?_, ?_, fun h => ?_, fun _ _ => houtcome⟩
      · cases fault <;> simp [Status.ofFault, hpointers]
      · cases fault <;> simp [Status.ofFault, hkind]
      · exact eq_findPayload_of_outcome (h ▸ houtcome)
    | done hpointers hkind houtcome next reply hreply =>
      exact ⟨.ok, hreply, fun h => absurd rfl h, by simp [hpointers], by simp [hkind], by simp,
        fun _ _ => houtcome⟩
  · rw [InPlace.operate_eq] at h
    obtain ⟨hfault, rfl⟩ := Prod.mk.inj h
    exact ⟨hfault, GrowableArray.Operation.apply_of_error hfault⟩
  · rw [InPlace.store_eq] at h
    exact InPlace.of_commit_eq_error h

/-- An allocator that refuses one request of an operation, and grants all others. -/
@[reducible]
def refusing (turn : Nat) : Allocator := ⟨fun other _ => other != turn⟩

/-- A lookup of an integer in a map of strings, of a string in no map, and of a string that is not
there. A map of integers is refused the copy of a new key, or the entry for it when the key has been
copied, an array is refused the handle of a part that has been copied, and a string the copy that
would take its place. An array without slots is refused its first block, and a map the entry of a
new key, half way through the change. Each stays as it was. -/
theorem failed_step_changes_nothing_refused :
    ∃ s : Session, s = (Session.run {} [.newMap "m" 1, .newMap "n" 0, .newArray "a" 4,
        .newString "t" (some [104, 105])]).1 ∧
      s.step (.findPayload "m" (.int 5) (some 9)) = (s, .payload .badKind (some 9)) ∧
      s.step (.findPayload "o" (.int 5) (some 9)) = (s, .payload .nullHandle (some 9)) ∧
      s.step (.findPayload "m" (.text (some [5])) none) = (s, .payload .keyNotFound none) ∧
      @Session.step (refusing 0) s (.storePayload "n" (.int 5) 7) = (s, .status .allocation) ∧
      @Session.step (refusing 1) s (.storePayload "n" (.int 5) 7) = (s, .status .allocation) ∧
      @Session.step (refusing 1) s (.cutItems "a" 0 0 true "b") = (s, .array .allocation none) ∧
      @Session.step (refusing 2) s (.appendCharacter "t" true 33) = (s, .status .allocation) ∧
      (∃ a after : GrowableArray UInt32,
        @InPlace.operate _ _ (refusing 0) (.push 7) a = (.error (.allocation 16), after) ∧
        after = a) ∧
      ∃ m after : ChainedMap Int64 Int64,
        @InPlace.store _ _ (refusing 1) _ _ (5 : Int64) 7 m = (.error (.allocation 32), after) ∧
        after = m := by
  let s := (Session.run {} [.newMap "m" 1, .newMap "n" 0, .newArray "a" 4,
    .newString "t" (some [104, 105])]).1
  have hsame : ∀ (memory : Allocator) (call : Call) (status : Status), call.HasStatus →
      (@Session.step memory s call).2.status? = some status → status ≠ .ok →
      @Session.step memory s call = (s, call.refusal status) := by
    intro memory call status hcall hstatus hfailed
    obtain ⟨⟨other, hother, hsame, -⟩, -⟩ := failed_step_changes_nothing s call hcall
    rw [hstatus] at hother
    cases hother
    exact hsame hfailed
  refine ⟨s, rfl, hsame _ _ _ trivial rfl (by decide), hsame _ _ _ trivial rfl (by decide),
    hsame _ _ _ trivial rfl (by decide), hsame _ _ _ trivial rfl (by decide),
    hsame _ _ _ trivial rfl (by decide), hsame _ _ _ trivial rfl (by decide),
    hsame _ _ _ trivial rfl (by decide), ⟨⟨⟨0, #[]⟩, 0⟩, _, rfl, ?_⟩,
    ⟨.xor, #[[]], by decide, 0⟩, _, rfl, ?_⟩
  · obtain ⟨-, -, -, hoperate, -⟩ := @failed_step_changes_nothing (refusing 0) s
      (.insertItem none 0 7) trivial
    exact (hoperate (⟨⟨0, #[]⟩, 0⟩ : GrowableArray UInt32) _ (.push 7) _ rfl).2
  · obtain ⟨-, -, -, -, hstore⟩ := @failed_step_changes_nothing (refusing 1) s
      (.storePayload none (.int 5) 7) trivial
    exact (hstore ⟨.xor, #[[]], by decide, 0⟩ _ (5 : Int64) 7 _ rfl).2

end Containers.Foreign
