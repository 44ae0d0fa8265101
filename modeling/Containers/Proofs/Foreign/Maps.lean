import Containers.Proofs.ChainedMap.Keys
import Containers.Proofs.ChainedMap.Refinement
import Containers.Proofs.Foreign.Failures
import Containers.Proofs.Foreign.Variables

/-!
# Maps of a caller are dictionaries

A `Dictionary` is a partial function to payloads, from integers or from byte strings without a zero
byte. A map reads as one if every lookup does (`ChainedMap.Reads`), which storing and removing
preserve because different keys of a call have different bytes. A call names a map and a key and
gets no further than a status, or it meets a map and a key of one kind, and a dictionary of that
kind (`Resolved`). So calls on maps do to dictionaries what `Dictionaries.step` says, and give its
replies (`Session.step_dictionaries`).
-/

namespace Containers

/-! ## Maps that read as functions -/

namespace ChainedMap

variable {κ ι V : Type} [MapKey κ] [DecidableEq ι]

/-- An intact map whose lookups are those of a function, where `bytes` gives the bytes of the
function's arguments. -/
structure Reads (bytes : ι → ByteString) (m : ChainedMap κ V) (f : ι → Option V) : Prop where
  intact : ∃ hash buckets, Intact hash buckets m
  lookup_comp : m.lookup ∘ bytes = f

namespace Reads

variable {bytes : ι → ByteString} {m : ChainedMap κ V} {f : ι → Option V} {key : κ} {i : ι}

omit [DecidableEq ι] in
/-- A new map reads as the function that has nothing. -/
theorem of_empty (hm : ChainedMap.empty = .ok m) : Reads bytes m fun _ => none := by
  replace hm : ChainedMap.create .xor usualBuckets (by decide) = .ok m := hm
  exact ⟨⟨_, _, Intact.create hm⟩, funext fun i => lookup_create hm (bytes i)⟩

omit [DecidableEq ι] in
/-- A lookup finds what the function has. -/
theorem get?_eq (h : Reads bytes m f) (hkey : MapKey.encode key = bytes i) :
    m.get? key = f i := by
  show m.lookup (MapKey.encode key) = f i
  rw [hkey, ← h.lookup_comp, Function.comp_apply]

/-- Storing under a key updates the function there. -/
theorem set (h : Reads bytes m f) (hbytes : Function.Injective bytes)
    (hkey : MapKey.encode key = bytes i) (payload : V) :
    Reads bytes (m.set key payload).2 (Function.update f i (some payload)) := by
  obtain ⟨hash, buckets, hintact⟩ := h.intact
  refine ⟨⟨hash, buckets, hintact.set key payload⟩, ?_⟩
  rw [(m.lookup_set key payload).2, hkey, Function.update_comp_eq_of_injective _ hbytes,
    h.lookup_comp]

/-- Removing a key takes it from the function. -/
theorem remove (h : Reads bytes m f) (hbytes : Function.Injective bytes)
    (hkey : MapKey.encode key = bytes i) :
    Reads bytes (m.remove key).2 (Function.update f i none) := by
  obtain ⟨hash, buckets, hintact⟩ := h.intact
  have hlookup := (m.lookup_remove key (hintact.chainOf _).distinct).2
  refine ⟨⟨hash, buckets, hintact.remove key⟩, ?_⟩
  rw [hlookup, hkey, Function.update_comp_eq_of_injective _ hbytes, h.lookup_comp]

omit [DecidableEq ι] in
/-- A key that is present, or whose bytes there is memory for, can be stored. -/
theorem store_eq [Layout V] (hwidth : Layout.width (Entry V) < Allocation.ceiling)
    (h : Reads bytes m f) (hkey : MapKey.encode key = bytes i) (payload : V) :
    m.store key payload =
      if (f i).isSome ∨ (bytes i).length < Allocation.ceiling then .ok (m.set key payload)
      else .error (.ofRequest 1 (bytes i).length) := by
  have hcontains : m.contains key = (f i).isSome := congrArg Option.isSome (h.get?_eq hkey)
  rw [ChainedMap.store, hcontains, hkey, Entry.make_eq hwidth]
  cases (f i).isSome with
  | true => rfl
  | false =>
    by_cases hlength : (bytes i).length < Allocation.ceiling
    · simp [hlength]
    · simp [hlength]

end Reads

end ChainedMap

namespace Foreign

/-! ## Dictionaries -/

/-- A string of bytes without a zero byte. -/
abbrev ZeroFree := {bytes : ByteString // (0 : UInt8) ∉ bytes}

/-- The part of a string in front of its first zero byte. -/
def ZeroFree.ofBytes (bytes : ByteString) : ZeroFree :=
  ⟨untilZero bytes, zero_not_mem_untilZero bytes⟩

/-- A partial function to payloads from the keys of one kind. -/
inductive Dictionary where
  /-- From integers. -/
  | int (payload? : Int64 → Option Int64)
  /-- From strings. -/
  | text (payload? : ZeroFree → Option Int64)

namespace Dictionary

/-- A new dictionary. -/
def empty (flag : Int8) : Dictionary :=
  if flag = 0 then .int fun _ => none else .text fun _ => none

/-- The payload under the key of a call, or the status of a call without a dictionary or a key, or
with a key of the other kind. -/
def find : Option Dictionary → Key → Except Status (Option Int64)
  | none, _ => .error .nullHandle
  | some _, .text none => .error .nullHandle
  | some (.int f), .int key => .ok (f key)
  | some (.text f), .text (some bytes) => .ok (f (.ofBytes bytes))
  | some (.int _), .text (some _) => .error .badKind
  | some (.text _), .int _ => .error .badKind

/-- Another payload, or none, under the key of a call. -/
def update (payload? : Option Int64) : Option Dictionary → Key → Option Dictionary
  | some (.int f), .int key => some (.int (Function.update f key payload?))
  | some (.text f), .text (some bytes) =>
    some (.text (Function.update f (.ofBytes bytes) payload?))
  | dictionary, _ => dictionary

end Dictionary

/-- There is memory for a copy of the key. -/
def Key.Fits : Key → Prop
  | .text (some bytes) => (untilZero bytes).length < Allocation.ceiling
  | _ => True

instance : (key : Key) → Decidable key.Fits
  | .text (some _) => inferInstanceAs (Decidable (_ < _))
  | .text none => .isTrue trivial
  | .int _ => .isTrue trivial

/-- A call that stores, looks up or removes a payload. -/
def Call.OnMaps : Call → Prop
  | .storePayload .. | .findPayload .. | .payloadOrZero .. | .removeEntry .. => True
  | _ => False

/-- The dictionaries of a caller. -/
abbrev Dictionaries := Variables Dictionary

namespace Dictionaries

/-- One call on maps. -/
def step (v : Dictionaries) : Call → Dictionaries × Reply
  | .storePayload map key payload =>
    match Dictionary.find (v.get map) key with
    | .ok found =>
      if found.isSome ∨ key.Fits then
        (v.keep map (Dictionary.update (some payload) (v.get map) key), .status .ok)
      else (v, .status .allocation)
    | .error status => (v, .status status)
  | .findPayload map key out =>
    match Dictionary.find (v.get map) key with
    | .ok (some payload) => (v, .payload .ok (out.map fun _ => payload))
    | .ok none => (v, .payload .keyNotFound out)
    | .error status => (v, .payload status out)
  | .payloadOrZero map key =>
    match Dictionary.find (v.get map) key with
    | .ok (some payload) => (v, .value payload)
    | .ok none | .error _ => (v, .value 0)
  | .removeEntry map key =>
    match Dictionary.find (v.get map) key with
    | .ok _ => (v.keep map (Dictionary.update none (v.get map) key), .status .ok)
    | .error status => (v, .status status)
  | _ => (v, .none)

end Dictionaries

/-! ## One map -/

/-- A map that reads as a dictionary of its kind. -/
inductive MapHandle.Represents : MapHandle → Dictionary → Prop where
  | int {m : ChainedMap Int64 Int64} {f : Int64 → Option Int64}
    (h : m.Reads MapKey.encode f) : Represents (.int m) (.int f)
  | text {m : ChainedMap TextKey Int64} {f : ZeroFree → Option Int64}
    (h : m.Reads Subtype.val f) : Represents (.text m) (.text f)

/-- A new map reads as a new dictionary. -/
theorem newMap_represents (flag : Int8) :
    ∃ map, newMap flag = some map ∧ map.Represents (.empty flag) := by
  unfold newMap Dictionary.empty
  by_cases h : flag = 0
  · rw [if_pos h, if_pos h]
    exact ⟨_, rfl, .int (.of_empty rfl)⟩
  · rw [if_neg h, if_neg h]
    exact ⟨_, rfl, .text (.of_empty rfl)⟩

/-- Where a call with a map and a key gets: no further than a status, or to a map and a key of one
kind. -/
inductive Resolved : Pointer MapHandle → Option Dictionary → Key → Prop where
  | refused {map : Pointer MapHandle} {dictionary : Option Dictionary} {key : Key}
    (status : Status) (hfind : Dictionary.find dictionary key = .error status)
    (hcall : ∀ (β : Type) (action : MapHandle → GivenKey → β),
      withKey map key action = .error status) : Resolved map dictionary key
  | int {m : ChainedMap Int64 Int64} {f : Int64 → Option Int64} (h : m.Reads MapKey.encode f)
    (key : Int64) : Resolved (some (.int m)) (some (.int f)) (.int key)
  | text {m : ChainedMap TextKey Int64} {f : ZeroFree → Option Int64}
    (h : m.Reads Subtype.val f) (bytes : ByteString) :
    Resolved (some (.text m)) (some (.text f)) (.text (some bytes))

/-- A call with a map and a key is refused, or has a map and a key of one kind. -/
theorem resolved {map : Pointer MapHandle} {dictionary : Option Dictionary}
    (h : Option.Rel MapHandle.Represents map dictionary) (key : Key) :
    Resolved map dictionary key := by
  cases h with
  | none => exact .refused .nullHandle rfl fun _ _ => rfl
  | some hmap =>
    rcases key with key | _ | bytes
    · cases hmap with
      | int h => exact .int h key
      | text h => exact .refused .badKind rfl fun _ _ => rfl
    · exact .refused .nullHandle (by cases hmap <;> rfl) fun _ _ => rfl
    · cases hmap with
      | int h => exact .refused .badKind rfl fun _ _ => rfl
      | text h => exact .text h bytes

/-- The bytes of a key that a call has read. -/
theorem encode_untilZero (bytes : ByteString) :
    MapKey.encode (⟨untilZero bytes⟩ : TextKey) = (ZeroFree.ofBytes bytes).val :=
  untilZero_untilZero bytes

/-! ## One call -/

section Calls

variable {f : Int64 → Option Int64} {m : ChainedMap Int64 Int64}
  {g : ZeroFree → Option Int64} {n : ChainedMap TextKey Int64}

/-- An integer is a short key, so there is memory for it. -/
theorem storePayload_int (h : m.Reads MapKey.encode f) (key payload : Int64) :
    storePayload (some (.int m)) (.int key) payload = (.ok, some (.int (m.set key payload).2)) := by
  have hlength : (MapKey.encode key).length < Allocation.ceiling := by
    rw [show (MapKey.encode key).length = 8 from Bytes.length_ofNat 8 _]
    decide
  have hstore := h.store_eq (by decide) (show MapKey.encode key = _ from rfl) payload
  rw [if_pos (.inr hlength)] at hstore
  simp only [storePayload, withKey, Key.given?, MapHandle.admits, MapHandle.store, hstore]
  rfl

/-- A text is stored if it is present or there is memory for its bytes. Otherwise the map stays as
it was. -/
theorem storePayload_text (h : n.Reads Subtype.val g) (bytes : ByteString) (payload : Int64) :
    storePayload (some (.text n)) (.text (some bytes)) payload =
      if (g (.ofBytes bytes)).isSome ∨ (Key.text (some bytes)).Fits then
        (.ok, some (.text (n.set ⟨untilZero bytes⟩ payload).2))
      else (.allocation, some (.text n)) := by
  have hstore := h.store_eq (by decide) (encode_untilZero bytes) payload
  by_cases hroom : (g (.ofBytes bytes)).isSome ∨ (Key.text (some bytes)).Fits
  · replace hstore := hstore.trans (if_pos hroom)
    rw [if_pos hroom]
    simp only [storePayload, withKey, Key.given?, Option.map_some, MapHandle.admits,
      MapHandle.store, hstore]
    rfl
  · replace hstore := hstore.trans (if_neg hroom)
    rw [if_neg hroom]
    simp only [storePayload, withKey, Key.given?, Option.map_some, MapHandle.admits,
      MapHandle.store, hstore]
    rfl

/-- A lookup finds what the dictionary has. -/
theorem withKey_get? {map : Pointer MapHandle} {dictionary : Option Dictionary}
    (h : Option.Rel MapHandle.Represents map dictionary) (key : Key) :
    withKey map key MapHandle.get? = Dictionary.find dictionary key := by
  cases resolved h key with
  | refused status hfind hrefused => rw [hrefused, hfind]
  | int hreads key => exact congrArg Except.ok (hreads.get?_eq rfl)
  | text hreads bytes => exact congrArg Except.ok (hreads.get?_eq (encode_untilZero bytes))

end Calls

/-! ## One call of a session -/

namespace Session

variable {s : Session} {v : Dictionaries}

/-- A call on maps does to the maps what it does to the dictionaries. -/
theorem step_dictionaries (h : s.maps.Shows MapHandle.Represents v) {call : Call}
    (hcall : call.OnMaps) :
    (s.step call).1.maps.Shows MapHandle.Represents (v.step call).1 ∧
      (s.step call).2 = (v.step call).2 := by
  cases call with
  | storePayload map key payload =>
    have hkept := s.maps.keep_get map
    have hresolved := resolved (h.get map) key
    show (s.maps.keep map (storePayload (s.maps.get map) key payload).2).Shows _ _ ∧
      Reply.status (storePayload (s.maps.get map) key payload).1 = _
    simp only [Dictionaries.step]
    generalize s.maps.get map = handle, v.get map = dictionary at hkept hresolved ⊢
    cases hresolved with
    | refused status hfind hrefused =>
      simp only [storePayload, hrefused, hfind, hkept]
      exact ⟨h, trivial⟩
    | int hreads key =>
      have hset := hreads.set injective_encode_int64 (show MapKey.encode key = _ from rfl) payload
      rw [storePayload_int hreads]
      simp only [Dictionary.find, Key.Fits, or_true, if_true]
      exact ⟨h.keep map (.some (.int hset)), trivial⟩
    | text hreads bytes =>
      have hset := hreads.set Subtype.val_injective (encode_untilZero bytes) payload
      rw [storePayload_text hreads]
      simp only [Dictionary.find]
      split
      · exact ⟨h.keep map (.some (.text hset)), rfl⟩
      · rw [hkept]
        exact ⟨h, rfl⟩
  | findPayload map key out =>
    have hfind := withKey_get? (h.get map) key
    show s.maps.Shows _ _ ∧ Reply.payload (findPayload (s.maps.get map) key out).1
      (findPayload (s.maps.get map) key out).2 = _
    simp only [Dictionaries.step, findPayload, hfind]
    rcases Dictionary.find (v.get map) key with status | _ | payload
    all_goals exact ⟨h, rfl⟩
  | payloadOrZero map key =>
    have hfind := withKey_get? (h.get map) key
    show s.maps.Shows _ _ ∧ Reply.value (payloadOrZero (s.maps.get map) key) = _
    simp only [Dictionaries.step, payloadOrZero, hfind]
    rcases Dictionary.find (v.get map) key with status | _ | payload
    all_goals exact ⟨h, rfl⟩
  | removeEntry map key =>
    have hkept := s.maps.keep_get map
    have hresolved := resolved (h.get map) key
    show (s.maps.keep map (removeEntry (s.maps.get map) key).2).Shows _ _ ∧
      Reply.status (removeEntry (s.maps.get map) key).1 = _
    simp only [Dictionaries.step]
    generalize s.maps.get map = handle, v.get map = dictionary at hkept hresolved ⊢
    cases hresolved with
    | refused status hfind hrefused =>
      simp only [removeEntry, hrefused, hfind, hkept]
      exact ⟨h, trivial⟩
    | int hreads key =>
      have hremove := hreads.remove injective_encode_int64 (show MapKey.encode key = _ from rfl)
      exact ⟨h.keep map (.some (.int hremove)), rfl⟩
    | text hreads bytes =>
      have hremove := hreads.remove Subtype.val_injective (encode_untilZero bytes)
      exact ⟨h.keep map (.some (.text hremove)), rfl⟩
  | _ => cases hcall

/-- Calls on maps, one after the other. -/
theorem run_dictionaries (h : s.maps.Shows MapHandle.Represents v) {calls : List Call}
    (hcalls : ∀ call ∈ calls, call.OnMaps) :
    (s.run calls).1.maps.Shows MapHandle.Represents (runCalls Dictionaries.step v calls).1 ∧
      (s.run calls).2 = (runCalls Dictionaries.step v calls).2 := by
  rw [← List.forall₂_eq_eq_eq]
  exact run_related (R := fun s v => s.maps.Shows MapHandle.Represents v)
    (fun h _ hcall _ => step_dictionaries h hcall) h hcalls fun _ _ => trivial

/-- A call on maps changes nothing unless it answers that it succeeded. So lookups never do, and
neither do calls with a key of the other kind. -/
theorem step_of_ne_ok {call : Call} (hcall : call.OnMaps)
    (h : (s.step call).2 ≠ .status .ok) : (s.step call).1 = s := by
  cases call with
  | storePayload map key payload =>
    have hverdict := verdict s (show (Call.storePayload map key payload).HasStatus from trivial)
    exact hverdict.session_eq fun hok => h (congrArg Reply.status (Option.some.inj hok))
  | removeEntry map key =>
    have hverdict := verdict s (show (Call.removeEntry map key).HasStatus from trivial)
    exact hverdict.session_eq fun hok => h (congrArg Reply.status (Option.some.inj hok))
  | findPayload | payloadOrZero => rfl
  | _ => cases hcall

end Session

/-! ## Runs of calls -/

/-- After any run of calls with keys of both kinds, null pointers among them, a new map has given
the replies of a dictionary from integers (flag zero) or from strings without a zero byte (any other
flag), and its lookups are those of the dictionary. A call that does not answer that it succeeded
has changed nothing, and two actions that agree on maps and keys of one kind do the same when they
are carried out for a call: what they do for a key of the other kind is never asked. -/
theorem run_refines_dictionary (name : String) (flag : Int8) (calls : List Call)
    (hcalls : ∀ call ∈ calls, call.OnMaps) :
    let start := (Session.step {} (.newMap name flag)).1
    let dictionaries : Dictionaries := Variables.empty.keep name (some (.empty flag))
    (start.run calls).2 = (runCalls Dictionaries.step dictionaries calls).2 ∧
      (∀ other, Option.Rel MapHandle.Represents ((start.run calls).1.maps.get other)
        ((runCalls Dictionaries.step dictionaries calls).1.get other)) ∧
      (∀ (s : Session) (call : Call), call.OnMaps → (s.step call).2 ≠ .status .ok →
        (s.step call).1 = s) ∧
      ∀ (β : Type) (action other : MapHandle → GivenKey → β),
        (∀ m key, action (.int m) (.int key) = other (.int m) (.int key)) →
        (∀ m key, action (.text m) (.text key) = other (.text m) (.text key)) →
        ∀ map key, withKey map key action = withKey map key other := by
  intro start dictionaries
  obtain ⟨map, hmap, hrepresents⟩ := newMap_represents flag
  have hstart : start.maps.Shows MapHandle.Represents dictionaries := by
    show (Table.keep {} name (newMap flag)).Shows _ _
    rw [hmap]
    exact Table.Shows.empty.keep name (.some hrepresents)
  obtain ⟨hshows, hreplies⟩ := Session.run_dictionaries hstart hcalls
  refine ⟨hreplies, hshows.get, fun s call => Session.step_of_ne_ok, ?_⟩
  intro β action other hint htext
  refine withKey_congr fun map key hadmits => ?_
  cases map <;> cases key
  case int.int m key => exact hint m key
  case text.text m key => exact htext m key
  all_goals cases hadmits

/-- A map of strings forgets what follows a zero byte in a key, does not know integers, tells with a
null place for the payload whether a key is present, and takes a second removal as well as the
first. -/
theorem run_refines_dictionary_strings :
    ∃ calls : List Call,
      calls = [.storePayload "m" (.text (some [97, 0, 98])) (-7),
        .findPayload "m" (.text (some [97])) (some 1), .findPayload "m" (.text (some [97, 0])) none,
        .findPayload "m" (.text (some [98])) (some 1), .storePayload "m" (.int 97) 5,
        .payloadOrZero "m" (.int 97), .removeEntry "m" (.text (some [97])),
        .removeEntry "m" (.text (some [97])), .payloadOrZero "m" (.text (some [97]))] ∧
      (∀ call ∈ calls, call.OnMaps) ∧
      ((Session.step {} (.newMap "m" 3)).1.run calls).2 = [.status .ok, .payload .ok (some (-7)),
        .payload .ok none, .payload .keyNotFound (some 1), .status .badKind, .value 0, .status .ok,
        .status .ok, .value 0] := by
  refine ⟨_, rfl, by simp [Call.OnMaps], ?_⟩
  obtain ⟨hreplies, -⟩ := run_refines_dictionary "m" 3
    [.storePayload "m" (.text (some [97, 0, 98])) (-7),
      .findPayload "m" (.text (some [97])) (some 1), .findPayload "m" (.text (some [97, 0])) none,
      .findPayload "m" (.text (some [98])) (some 1), .storePayload "m" (.int 97) 5,
      .payloadOrZero "m" (.int 97), .removeEntry "m" (.text (some [97])),
      .removeEntry "m" (.text (some [97])), .payloadOrZero "m" (.text (some [97]))]
    (by simp [Call.OnMaps])
  exact hreplies.trans rfl

end Foreign

end Containers
