import Containers.Foreign.Session
import Containers.Proofs.ChainedMap.Spread

/-!
# The measurements that a caller gets

Every live map of a session is intact and has no more entries than there have been calls
(`MapHandle.Sound`), because every call leaves such maps in the variables (`Session.step_sound`). So
a caller gets measurements that are true of the map, whichever kind of keys it has
(`MapHandle.Sound.describes`), and zeros for null. The 32 bytes of the measurements give the four
numbers back if the number of entries is a word (`Spread.Consistent.numbers_toBytes`), which takes
no more than a bound on the number of calls.
-/

namespace Containers

/-! ## Measurements as bytes -/

/-- The `count` numbers at the front of a string, of eight bytes each, low byte first. -/
def Bytes.numbers : (count : Nat) → ByteString → List Nat
  | 0, _ => []
  | count + 1, bytes => toNat (bytes.take 8) :: numbers count (bytes.drop 8)

/-- Reading undoes writing for numbers that are words. -/
theorem Bytes.numbers_flatMap {ns : List Nat} (h : ∀ n ∈ ns, n < 2 ^ 64) :
    numbers ns.length (ns.flatMap (ofNat 8)) = ns := by
  induction ns with
  | nil => rfl
  | cons n ns ih =>
    obtain ⟨hn, hns⟩ := List.forall_mem_cons.1 h
    have hlength : (ofNat 8 n).length = 8 := length_ofNat 8 n
    rw [List.flatMap_cons, List.length_cons, numbers, List.take_left' hlength,
      List.drop_left' hlength, ih hns, toNat_ofNat]
    exact congrArg (· :: ns) (Nat.mod_eq_of_lt hn)

/-- The four measurements take 32 bytes. -/
theorem Spread.length_toBytes (s : Spread) : s.toBytes.length = 32 := by
  simp [toBytes]

/-- The bytes of the measurements give the four numbers back. -/
theorem Spread.Consistent.numbers_toBytes {s : Spread} (h : s.Consistent)
    (hentries : s.entries < 2 ^ 64) (hbuckets : s.buckets < 2 ^ 64) :
    Bytes.numbers 4 s.toBytes = [s.entries, s.buckets, s.occupied, s.longest] := by
  have hwords : ∀ n ∈ [s.entries, s.buckets, s.occupied, s.longest], n < 2 ^ 64 := by
    simp only [List.forall_mem_cons, List.not_mem_nil, false_implies, implies_true, and_true]
    exact ⟨hentries, hbuckets, Nat.lt_of_le_of_lt h.occupied_le_entries hentries,
      Nat.lt_of_le_of_lt h.longest_le hentries⟩
  exact Bytes.numbers_flatMap hwords

namespace Foreign

/-! ## Live maps are intact -/

namespace Table

variable {α : Type} {P Q : α → Prop} {t : Table α}

/-- Every live handle has a property. -/
def Every (P : α → Prop) (t : Table α) : Prop := ∀ name a, t.get name = some a → P a

/-- What follows from a property of every live handle is one as well. -/
theorem Every.mono (h : t.Every P) (himp : ∀ a, P a → Q a) : t.Every Q :=
  fun name a ha => himp a (h name a ha)

/-- Every live handle keeps a property that what is put into a variable has. -/
theorem Every.keep (h : t.Every P) (name : Option String) {made : Pointer α}
    (hmade : ∀ a, made = some a → P a) : (t.keep name made).Every P := by
  cases name with
  | none => exact h
  | some name =>
    cases made with
    | none => exact h
    | some made =>
      intro other a ha
      cases other with
      | none => cases ha
      | some other =>
        rw [Table.keep, get_put] at ha
        split at ha
        · exact hmade a ha
        · exact h _ a ha

/-- Every live handle keeps its property when a variable is released. -/
theorem Every.release (h : t.Every P) (name : String) : (t.release name).Every P := by
  intro other a ha
  cases other with
  | none => cases ha
  | some other =>
    rw [get_release] at ha
    split at ha
    · cases ha
    · exact h _ a ha

end Table

/-- A map as calls leave it: with the usual hash and number of buckets, intact, and with at most
`calls` entries. -/
structure SoundMap {κ : Type} [MapKey κ] (calls : Nat) (m : ChainedMap κ Int64) : Prop where
  intact : m.Intact .xor usualBuckets
  len_le : m.len ≤ calls

/-- A map of either kind as calls leave it. -/
def MapHandle.Sound (calls : Nat) : MapHandle → Prop
  | .int m => SoundMap calls m
  | .text m => SoundMap calls m

section
variable {κ : Type} [MapKey κ] {calls : Nat} {m : ChainedMap κ Int64}

/-- A new map is sound. -/
theorem SoundMap.of_empty [Allocator] (hm : ChainedMap.empty = .ok m) : SoundMap calls m := by
  replace hm : ChainedMap.create .xor usualBuckets (by decide) = .ok m := hm
  refine ⟨.create hm, ?_⟩
  rw [ChainedMap.of_create_eq_ok hm]
  exact Nat.zero_le _

/-- One more call may have stored one more entry. -/
theorem SoundMap.of_store [Allocator] (h : SoundMap calls m) {key : κ} {payload : Int64}
    {result : Option Int64 × ChainedMap κ Int64} (hresult : m.store key payload = .ok result) :
    SoundMap (calls + 1) result.2 := by
  rw [ChainedMap.of_store_eq_ok hresult]
  exact ⟨h.intact.set key payload,
    Nat.le_trans (m.len_set_le key payload) (Nat.succ_le_succ h.len_le)⟩

/-- Removing leaves a sound map, with no more entries. -/
theorem SoundMap.remove (h : SoundMap calls m) (key : κ) : SoundMap calls (m.remove key).2 :=
  ⟨h.intact.remove key, Nat.le_trans (m.len_remove_le key) h.len_le⟩

/-- A map is sound after a call that did not touch it. -/
theorem SoundMap.succ (h : SoundMap calls m) : SoundMap (calls + 1) m :=
  ⟨h.intact, Nat.le_succ_of_le h.len_le⟩

end

namespace MapHandle

variable {calls : Nat} {map : MapHandle}

/-- A map of either kind is sound after a call that did not touch it. -/
theorem Sound.succ (h : map.Sound calls) : map.Sound (calls + 1) := by
  cases map with
  | int m => exact SoundMap.succ h
  | text m => exact SoundMap.succ h

/-- Storing leaves a sound map, whether or not there is memory for it. -/
theorem Sound.store [Allocator] (h : map.Sound calls) (payload : Int64) (key : GivenKey) :
    (map.store payload key).2.Sound (calls + 1) := by
  cases map <;> cases key
  case int.int m key =>
    rw [MapHandle.store]
    cases hresult : m.store key payload with
    | ok result => exact SoundMap.of_store h hresult
    | error fault => exact Sound.succ h
  case text.text m key =>
    rw [MapHandle.store]
    cases hresult : m.store key payload with
    | ok result => exact SoundMap.of_store h hresult
    | error fault => exact Sound.succ h
  all_goals exact Sound.succ h

/-- Removing leaves a sound map of the same kind. -/
theorem Sound.remove (h : map.Sound calls) (key : GivenKey) :
    (map.remove key).2.Sound calls := by
  cases map <;> cases key
  case int.int m key => exact SoundMap.remove h key
  case text.text m key => exact SoundMap.remove h key
  all_goals exact h

end MapHandle

/-- The map behind a new handle is sound. -/
theorem newMap_sound [Allocator] (calls : Nat) (flag : Int8) {map : MapHandle}
    (h : newMap flag = some map) : map.Sound calls := by
  unfold newMap at h
  split at h
  all_goals
    have hmade := of_handle_boxed h
    cases hempty : ChainedMap.empty with
    | error fault =>
      rw [hempty] at hmade
      cases hmade
    | ok m =>
      rw [hempty] at hmade
      cases hmade
      exact SoundMap.of_empty hempty

/-- A call with a map and a key gets no further than a status, or it acts on the map. -/
theorem withKey_cases {β : Type} (map : Pointer MapHandle) (key : Key)
    (action : MapHandle → GivenKey → β) :
    (∃ status, withKey map key action = .error status) ∨
      ∃ handle given, map = some handle ∧ withKey map key action = .ok (action handle given) := by
  unfold withKey
  split
  next handle given _ =>
    split
    next => exact .inr ⟨handle, given, rfl, rfl⟩
    next => exact .inl ⟨_, rfl⟩
  next => exact .inl ⟨_, rfl⟩

section
variable {calls : Nat} {map : Pointer MapHandle}

/-- A call that stores leaves a sound map in its variable. -/
theorem storePayload_sound [Allocator] (h : ∀ handle, map = some handle → handle.Sound calls)
    (key : Key) (payload : Int64) :
    ∀ handle, (storePayload map key payload).2 = some handle → handle.Sound (calls + 1) := by
  intro handle hhandle
  unfold storePayload at hhandle
  rcases withKey_cases map key (MapHandle.store payload) with
    ⟨status, hrefused⟩ | ⟨before, given, hbefore, hdone⟩
  · rw [hrefused] at hhandle
    exact (h handle hhandle).succ
  · rw [hdone] at hhandle
    cases hhandle
    exact (h before hbefore).store payload given

/-- A call that removes leaves a sound map in its variable. -/
theorem removeEntry_sound (h : ∀ handle, map = some handle → handle.Sound calls) (key : Key) :
    ∀ handle, (removeEntry map key).2 = some handle → handle.Sound (calls + 1) := by
  intro handle hhandle
  unfold removeEntry at hhandle
  rcases withKey_cases map key MapHandle.remove with
    ⟨status, hrefused⟩ | ⟨before, given, hbefore, hdone⟩
  · rw [hrefused] at hhandle
    exact (h handle hhandle).succ
  · rw [hdone] at hhandle
    cases hhandle
    exact ((h before hbefore).remove given).succ

end

namespace Session

variable {s : Session} {count : Nat}

/-- Every call leaves sound maps in the variables. -/
theorem step_sound [Allocator] (h : s.maps.Every (MapHandle.Sound count)) (call : Call) :
    (s.step call).1.maps.Every (MapHandle.Sound (count + 1)) := by
  have hkept : s.maps.Every (MapHandle.Sound (count + 1)) := h.mono fun _ => MapHandle.Sound.succ
  cases call with
  | newMap target flag => exact hkept.keep target fun map => newMap_sound _ flag
  | storePayload map key payload =>
    exact hkept.keep map (storePayload_sound (h map) key payload)
  | removeEntry map key => exact hkept.keep map (removeEntry_sound (h map) key)
  | freeMap name =>
    cases name with
    | none => exact hkept
    | some name => exact hkept.release name
  | _ => exact hkept

/-- A run of calls leaves sound maps in the variables. -/
theorem run_sound {memory : Allocator} (h : s.maps.Every (MapHandle.Sound count))
    (calls : List Call) :
    (s.run calls).1.maps.Every (MapHandle.Sound (count + calls.length)) := by
  induction calls generalizing s count memory with
  | nil => exact h
  | cons call calls ih =>
    rw [List.length_cons, Nat.add_comm calls.length, ← Nat.add_assoc]
    exact ih (step_sound h call)

end Session

/-! ## Measuring -/

/-- The measurements are those of the map, and they are true of it. -/
def MapHandle.Describes (spread : Spread) : MapHandle → Prop
  | .int m => spread = m.spread ∧ spread.Describes m
  | .text m => spread = m.spread ∧ spread.Describes m

/-- The measurements of a sound map are true and consistent, and its entries are no more than the
calls. -/
theorem SoundMap.describes {κ : Type} [MapKey κ] {m : ChainedMap κ Int64} {calls : Nat}
    (h : SoundMap calls m) :
    m.spread.Describes m ∧ m.spread.Consistent ∧ m.spread.entries = m.len ∧
      m.spread.entries ≤ calls ∧ m.spread.buckets = usualBuckets := by
  have hdescribes := h.intact.spread_describes
  have hlen := hdescribes.counted
  exact ⟨hdescribes, hdescribes.consistent, hlen, hlen ▸ h.len_le,
    hdescribes.buckets.trans h.intact.size_eq⟩

/-- So are those of a sound map of either kind. -/
theorem MapHandle.Sound.describes {map : MapHandle} {calls : Nat} (h : map.Sound calls) :
    map.Describes map.spread ∧ map.spread.Consistent ∧ map.spread.entries = map.len ∧
      map.spread.entries ≤ calls ∧ map.spread.buckets = usualBuckets := by
  cases map with
  | int m =>
    obtain ⟨hdescribes, hrest⟩ := SoundMap.describes h
    exact ⟨⟨rfl, hdescribes⟩, hrest⟩
  | text m =>
    obtain ⟨hdescribes, hrest⟩ := SoundMap.describes h
    exact ⟨⟨rfl, hdescribes⟩, hrest⟩

/-- The measurements of a map are true. After any run of operations on a new map with any hash, the
number of entries is the count, the number of entries that a walk comes to and the number of stored
keys; there are as many buckets as the directory has, as many of them are occupied as the stored
keys have different buckets, and the longest chain is the greatest number of stored keys with the
same bucket. So the occupied buckets are at most the entries and the buckets, the longest chain is
at most the entries, which are at most their product, and all three are zero together. A caller in C
gets these measurements of every map it has, and zeros for null. The entries are at most as many as
the calls so far, and as long as they fit in a word, the 32 bytes give the numbers back. -/
theorem measurements_truthful [Allocator] :
    (∀ {κ V : Type} [MapKey κ] (hash : KeyHash) (buckets : Nat) (positive : 0 < buckets)
        (m : ChainedMap κ V), ChainedMap.create hash buckets positive = .ok m →
      ∀ operations : List (ChainedMap.Operation κ V),
        let reached := (m.run operations).1
        reached.spread.Describes reached ∧ reached.spread.Consistent ∧
          ∀ bytes, bytes ∈ reached.storedKeys ↔
            ∃ key : κ, MapKey.encode key = bytes ∧ reached.contains key = true) ∧
    ∀ (calls : List Call) (name : Option String),
      let s := (Session.run {} calls).1
      let spread := measure (s.maps.get name)
      (s.step (.measure name)).2 = .measured spread.entries spread ∧
        (∀ map, s.maps.get name = some map → map.Describes spread) ∧
        (s.maps.get name = none → spread = .zero) ∧
        spread.Consistent ∧ spread.entries ≤ calls.length ∧ spread.toBytes.length = 32 ∧
        (spread.entries < 2 ^ 64 → Bytes.numbers 4 spread.toBytes =
          [spread.entries, spread.buckets, spread.occupied, spread.longest]) := by
  refine ⟨?_, fun calls name => ?_⟩
  · intro κ V _ hash buckets positive m hm operations
    have h := (ChainedMap.Intact.create hm).run operations
    exact ⟨h.spread_describes, h.spread_describes.consistent, h.mem_storedKeys_iff⟩
  · intro s spread
    have hsound : s.maps.Every (MapHandle.Sound (0 + calls.length)) := by
      refine Session.run_sound (fun name map hmap => ?_) calls
      cases name <;> cases hmap
    have hspread : spread = measure (s.maps.get name) := rfl
    have hreply : (s.step (.measure name)).2 =
      .measured (entryCount (s.maps.get name)) (measure (s.maps.get name)) := rfl
    rw [hreply]
    clear_value spread
    cases hmap : s.maps.get name with
    | none =>
      rw [hmap] at hspread
      obtain rfl : spread = .zero := hspread
      refine ⟨rfl, fun map hsome => ?_, fun _ => rfl, ?_, Nat.zero_le _, rfl, fun _ => rfl⟩
      · cases hsome
      · constructor <;> simp [Spread.zero]
    | some map =>
      rw [hmap] at hspread
      obtain rfl : spread = map.spread := hspread
      obtain ⟨hdescribes, hconsistent, hlen, hcalls, hbuckets⟩ := (hsound name map hmap).describes
      refine ⟨by rw [hlen]; rfl, ?_, nofun, hconsistent, by omega, Spread.length_toBytes _,
        fun hword => hconsistent.numbers_toBytes hword (by rw [hbuckets]; decide)⟩
      rintro _ ⟨⟩
      exact hdescribes

/-- Three keys of which two are left in one bucket, and a caller's map of strings. -/
theorem measurements_truthful_collisions :
    ∃ m : ChainedMap TextKey UInt64,
      ChainedMap.create (.constant 5) 3 (by decide) = .ok m ∧
      (∃ reached, (m.run [.set ⟨[97]⟩ 1, .set ⟨[98]⟩ 2, .set ⟨[]⟩ 4, .remove ⟨[98]⟩]).1 = reached ∧
        reached.spread = ⟨2, 3, 1, 2⟩ ∧ reached.spread.Describes reached ∧
        reached.spread.Consistent) ∧
      ∃ calls : List Call,
        calls = [.newMap "m" 1, .storePayload "m" (.text (some [97])) 5,
          .storePayload "m" (.text (some [98])) 6, .storePayload "m" (.text (some [97, 0, 98])) 7] ∧
        ∃ spread : Spread, spread = ⟨2, 64, 2, 1⟩ ∧
          ((Session.run {} calls).1.step (.measure "m")).2 = .measured spread.entries spread ∧
          (∀ map, (Session.run {} calls).1.maps.get "m" = some map → map.Describes spread) ∧
          Bytes.numbers 4 spread.toBytes = [2, 64, 2, 1] := by
  let m : ChainedMap TextKey UInt64 := ⟨.constant 5, #[[], [], []], by decide, 0⟩
  have hm : ChainedMap.create (.constant 5) 3 (by decide) = .ok m := rfl
  let calls : List Call := [.newMap "m" 1, .storePayload "m" (.text (some [97])) 5,
    .storePayload "m" (.text (some [98])) 6, .storePayload "m" (.text (some [97, 0, 98])) 7]
  have hspread : measure ((Session.run {} calls).1.maps.get (some "m")) = ⟨2, 64, 2, 1⟩ := by
    decide +kernel
  obtain ⟨hdescribes, hconsistent, -⟩ := measurements_truthful.1 _ _ _ m hm
    [.set ⟨[97]⟩ 1, .set ⟨[98]⟩ 2, .set ⟨[]⟩ 4, .remove ⟨[98]⟩]
  obtain ⟨hreply, hmap, -, -, -, -, hnumbers⟩ := measurements_truthful.2 calls "m"
  rw [hspread] at hreply hmap hnumbers
  exact ⟨m, hm, ⟨_, rfl, by decide +kernel, hdescribes, hconsistent⟩, calls, rfl, _, rfl, hreply,
    hmap, hnumbers (by decide)⟩

end Foreign

end Containers
