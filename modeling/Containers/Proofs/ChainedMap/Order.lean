import Containers.Proofs.ChainedMap.Refinement
import Mathlib.Order.Lattice.Nat

/-!
# The order of a map's entries

The entries of a map come out bucket by bucket, and those of one bucket from the newest to the
oldest. How old an entry is, the run that led to the map tells: a key is born at the last step that
stored something under it and found nothing there (`InsertedAt`, `birth`).

An operation changes the list of all entries in one place (`Intact.entries_of_mem`,
`Intact.entries_of_not_mem`): it puts another payload into an entry, takes an entry out, or puts a
new entry in front of its bucket. So the order of the keys is kept step by step, with the number of
the step as the birth of a new key (`InOrder.concat`, `inOrder_run`).
-/

namespace Containers

/-- The bucket of a key among this many buckets. -/
def KeyHash.bucket (hash : KeyHash) (buckets : Nat) (bytes : ByteString) : Nat :=
  (hash.word bytes).toNat % buckets

/-- The only entry with a key is the one that a filter for the other keys takes out. -/
theorem Chain.filter_split {V : Type} {key : ByteString} {old : V} {front back : Chain V}
    (hdistinct : (Chain.keys (front ++ ⟨key, old⟩ :: back)).Nodup) :
    (front ++ ⟨key, old⟩ :: back).filter (·.key ≠ key) = front ++ back := by
  have hkeys := List.nodup_middle.1 (by simpa using hdistinct)
  have hother : (front ++ back).filter (·.key ≠ key) = front ++ back := by
    rw [List.filter_eq_self]
    intro entry hentry
    rw [decide_eq_true_iff]
    intro heq
    exact (List.nodup_cons.1 hkeys).1 (heq ▸ by simpa using Chain.mem_keys_of_mem hentry)
  rw [List.filter_append] at hother
  rw [List.filter_append, List.filter_cons_of_neg (by simp), hother]

namespace ChainedMap

variable {κ V : Type} [MapKey κ] {hash : KeyHash} {buckets : Nat} {m : ChainedMap κ V}

/-! ## Where an operation changes the entries -/

omit [MapKey κ] in
/-- A cleared map has no entries. -/
theorem entries_clear (m : ChainedMap κ V) : m.clear.entries = [] := by
  rw [entries_eq_flatten]
  simp [clear]

namespace Intact

/-- The entries in front of the chain of a key lie in smaller buckets, and those behind it in
greater ones. -/
theorem entries_around (h : Intact hash buckets m) (bytes : ByteString) :
    ∃ before after : Chain V,
      m.entries = before ++ m.chainOf bytes ++ after ∧
      (∀ chain len, (m.withChain (m.bucketOfBytes bytes) chain len).entries =
        before ++ chain ++ after) ∧
      (∀ entry ∈ before, hash.bucket buckets entry.key < hash.bucket buckets bytes) ∧
      ∀ entry ∈ after, hash.bucket buckets bytes < hash.bucket buckets entry.key := by
  obtain ⟨before, after, hlength, hold, hnew⟩ := directory_split m (m.bucketOfBytes bytes)
  rw [h.bucketOfBytes] at hlength
  -- The entries of chain number `i` hash to bucket `i`.
  have hhashed : ∀ i (hi : i < m.directory.toList.length), ∀ entry ∈ m.directory.toList[i],
      hash.bucket buckets entry.key = i := fun i hi entry hentry => by
    rw [Array.length_toList] at hi
    exact (h.chains i hi).hashed entry (by simpa using hentry)
  simp only [hold] at hhashed
  refine ⟨before.flatten, after.flatten, ?_, fun chain len => ?_, fun entry hentry => ?_,
    fun entry hentry => ?_⟩
  · rw [entries_eq_flatten, hold, List.flatten_append, List.flatten_cons, List.append_assoc]
    rfl
  · rw [entries_eq_flatten, hnew, List.flatten_append, List.flatten_cons, List.append_assoc]
  · obtain ⟨chain, hchain, hentry⟩ := List.mem_flatten.1 hentry
    obtain ⟨i, hi, rfl⟩ := List.getElem_of_mem hchain
    rw [hhashed i (by simp; omega) entry (by rwa [List.getElem_append_left hi]),
      KeyHash.bucket]
    omega
  · obtain ⟨chain, hchain, hentry⟩ := List.mem_flatten.1 hentry
    obtain ⟨i, hi, rfl⟩ := List.getElem_of_mem hchain
    rw [hhashed (before.length + 1 + i) (by simp; omega) entry
      (by simpa [List.getElem_append_right, Nat.add_assoc, Nat.add_comm 1] using hentry),
      KeyHash.bucket]
    omega

/-- Storing under a key that is present puts the payload into its entry, and removing the key takes
the entry out. All other entries stay where they are. -/
theorem entries_of_mem (h : Intact hash buckets m) {key : κ}
    (hkey : (m.lookup (MapKey.encode key)).isSome) :
    ∃ front old back, m.entries = front ++ ⟨MapKey.encode key, old⟩ :: back ∧
      (m.remove key).2.entries = front ++ back ∧
      ∀ payload, (m.set key payload).2.entries =
        front ++ ⟨MapKey.encode key, payload⟩ :: back := by
  obtain ⟨before, after, hold, hnew, -⟩ := h.entries_around (MapKey.encode key)
  rcases Chain.not_mem_keys_or_split (MapKey.encode key) (m.chainOf (MapKey.encode key)) with
    hnot | ⟨front, old, back, hfront, hchain⟩
  · rw [lookup_of_not_mem hnot] at hkey
    cases hkey
  · refine ⟨before ++ front, old, back ++ after, ?_, ?_, fun payload => ?_⟩
    · rw [hold, hchain]
      simp
    · rw [remove_split hchain hfront, bucketOf, hnew]
      simp
    · rw [set_split hchain hfront, bucketOf, hnew]
      simp

/-- Storing under a key that is missing puts an entry in front of its bucket, and removing the key
does nothing. -/
theorem entries_of_not_mem (h : Intact hash buckets m) {key : κ}
    (hkey : m.lookup (MapKey.encode key) = none) :
    (m.remove key).2 = m ∧
      ∃ before after : Chain V, m.entries = before ++ after ∧
        (∀ entry ∈ before,
          hash.bucket buckets entry.key < hash.bucket buckets (MapKey.encode key)) ∧
        (∀ entry ∈ after,
          hash.bucket buckets (MapKey.encode key) ≤ hash.bucket buckets entry.key) ∧
        ∀ payload, (m.set key payload).2.entries =
          before ++ ⟨MapKey.encode key, payload⟩ :: after := by
  obtain ⟨before, after, hold, hnew, hbefore, hafter⟩ := h.entries_around (MapKey.encode key)
  rcases Chain.not_mem_keys_or_split (MapKey.encode key) (m.chainOf (MapKey.encode key)) with
    hnot | ⟨front, old, back, hfront, hchain⟩
  · refine ⟨by rw [remove_of_not_mem hnot], before, m.chainOf (MapKey.encode key) ++ after,
      ?_, hbefore, fun entry hentry => ?_, fun payload => ?_⟩
    · rw [hold, List.append_assoc]
    · rcases List.mem_append.1 hentry with hchain | hbehind
      · exact Nat.le_of_eq ((h.chainOf _).hashed entry hchain).symm
      · exact Nat.le_of_lt (hafter entry hbehind)
    · rw [set_of_not_mem hnot, bucketOf, hnew]
      simp
  · rw [lookup_split hchain hfront] at hkey
    cases hkey

end Intact

/-! ## History -/

/-- The operation stores something under the key with these bytes and finds nothing there. -/
def Operation.Inserts (m : ChainedMap κ V) (operation : Operation κ V) (bytes : ByteString) :
    Prop :=
  ∃ key payload, MapKey.encode key = bytes ∧ operation = .set key payload ∧
    (operation.apply m).2 = .found none

/-- Step number `step` of a run stores something under the key with these bytes and finds nothing
there. -/
def InsertedAt (m : ChainedMap κ V) (operations : List (Operation κ V)) (bytes : ByteString)
    (step : Nat) : Prop :=
  ∃ key payload, MapKey.encode key = bytes ∧ operations[step]? = some (Operation.set key payload) ∧
    (m.run operations).2[step]? = some (.found none)

/-- The birth of a key in a run: the last step that inserts it. -/
noncomputable def birth (m : ChainedMap κ V) (operations : List (Operation κ V))
    (bytes : ByteString) : Nat :=
  sSup {step | InsertedAt m operations bytes step}

/-- The payload that a run stores last under the key with these bytes. -/
def LastStored (operations : List (Operation κ V)) (bytes : ByteString) (payload : V) : Prop :=
  ∃ step key, MapKey.encode key = bytes ∧ operations[step]? = some (Operation.set key payload) ∧
    ∀ (later : Nat) (key' : κ) (payload' : V), MapKey.encode key' = bytes →
      operations[later]? = some (Operation.set key' payload') → later ≤ step

/-- Only storing inserts a key. -/
theorem not_inserts_of_ne_set {operation : Operation κ V}
    (h : ∀ key payload, operation ≠ .set key payload) (bytes : ByteString) :
    ¬ operation.Inserts m bytes := by
  rintro ⟨key, payload, -, hset, -⟩
  exact h key payload hset

/-- Storing inserts a key exactly if it is the one stored under and was not there. -/
theorem inserts_set {key : κ} {payload : V} {bytes : ByteString} :
    (Operation.set key payload).Inserts m bytes ↔
      bytes = MapKey.encode key ∧ m.lookup (MapKey.encode key) = none := by
  have hanswer : ((Operation.set key payload).apply m).2 =
      .found (m.lookup (MapKey.encode key)) :=
    congrArg Answer.found (m.lookup_set key payload).1
  constructor
  · rintro ⟨key', payload', rfl, hset, hfound⟩
    cases hset
    rw [hanswer] at hfound
    exact ⟨rfl, Answer.found.inj hfound⟩
  · rintro ⟨rfl, hnone⟩
    exact ⟨key, payload, rfl, rfl, by rw [hanswer, hnone]⟩

section
variable {operations : List (Operation κ V)} {operation : Operation κ V} {bytes : ByteString}
  {step : Nat}

/-- A key is inserted at a step of the run. -/
theorem InsertedAt.lt (h : InsertedAt m operations bytes step) : step < operations.length := by
  obtain ⟨_, _, -, hoperation, -⟩ := h
  exact (List.getElem?_eq_some_iff.1 hoperation).1

/-- One more operation inserts what it inserts into the map that the run has led to. -/
theorem insertedAt_concat :
    InsertedAt m (operations ++ [operation]) bytes step ↔
      InsertedAt m operations bytes step ∨
        step = operations.length ∧ operation.Inserts (m.run operations).1 bytes := by
  have hlength := m.length_answers operations
  simp only [InsertedAt, run_concat]
  rcases Nat.lt_trichotomy step operations.length with hlt | heq | hgt
  · rw [List.getElem?_append_left hlt, List.getElem?_append_left (by omega)]
    simp [Nat.ne_of_lt hlt]
  · subst heq
    rw [List.getElem?_concat_length, ← hlength, List.getElem?_concat_length, hlength]
    simp [Operation.Inserts]
  · have hend : operations[step]? = none := List.getElem?_eq_none (Nat.le_of_lt hgt)
    have hbehind : (operations ++ [operation])[step]? = none :=
      List.getElem?_eq_none (by simpa using hgt)
    simp [hend, hbehind, Nat.ne_of_gt hgt]

/-- A key that the last operation inserts is born there. -/
theorem birth_of_inserts (h : operation.Inserts (m.run operations).1 bytes) :
    IsGreatest {step | InsertedAt m (operations ++ [operation]) bytes step} operations.length ∧
      birth m (operations ++ [operation]) bytes = operations.length := by
  have hgreatest :
      IsGreatest {step | InsertedAt m (operations ++ [operation]) bytes step}
        operations.length := by
    refine ⟨insertedAt_concat.2 (.inr ⟨rfl, h⟩), fun step hstep => ?_⟩
    have hlt := InsertedAt.lt hstep
    rw [List.length_append, List.length_singleton] at hlt
    exact Nat.lt_succ_iff.1 hlt
  exact ⟨hgreatest, hgreatest.csSup_eq⟩

/-- A key that the last operation does not insert keeps its history. -/
theorem insertedAt_of_not_inserts (h : ¬ operation.Inserts (m.run operations).1 bytes) :
    InsertedAt m (operations ++ [operation]) bytes = InsertedAt m operations bytes := by
  funext step
  rw [insertedAt_concat, eq_iff_iff, or_iff_left fun hlast => h hlast.2]

/-- A key that the last operation does not insert keeps its birth. -/
theorem birth_of_not_inserts (h : ¬ operation.Inserts (m.run operations).1 bytes) :
    birth m (operations ++ [operation]) bytes = birth m operations bytes := by
  rw [birth, insertedAt_of_not_inserts h, birth]

end

/-! ## The order of births -/

/-- A key in a smaller bucket comes first, and of two keys in the same bucket the one that was born
later. -/
def Precedes (hash : KeyHash) (buckets : Nat) (birth : ByteString → Nat) (a b : ByteString) :
    Prop :=
  hash.bucket buckets a < hash.bucket buckets b ∨
    hash.bucket buckets a = hash.bucket buckets b ∧ birth b < birth a

/-- After this run, every key in the map has been born, and the keys stand in the order of their
buckets and, within a bucket, from the latest birth to the earliest. -/
structure InOrder (hash : KeyHash) (buckets : Nat) (m : ChainedMap κ V)
    (operations : List (Operation κ V)) : Prop where
  born : ∀ bytes ∈ Chain.keys (m.run operations).1.entries,
    IsGreatest {step | InsertedAt m operations bytes step} (birth m operations bytes)
  ordered : (Chain.keys (m.run operations).1.entries).Pairwise
    (Precedes hash buckets (birth m operations))

namespace InOrder

variable {operations : List (Operation κ V)} {operation : Operation κ V}

/-- Every key in the map was born in the run. -/
theorem birth_lt (h : InOrder hash buckets m operations) {bytes : ByteString}
    (hbytes : bytes ∈ Chain.keys (m.run operations).1.entries) :
    birth m operations bytes < operations.length :=
  InsertedAt.lt (h.born bytes hbytes).1

/-- Keys may leave, as long as none is inserted. -/
theorem shrink (h : InOrder hash buckets m operations)
    (hold : ∀ bytes, ¬ operation.Inserts (m.run operations).1 bytes)
    (hkeys : (Chain.keys (m.run (operations ++ [operation])).1.entries).Sublist
      (Chain.keys (m.run operations).1.entries)) :
    InOrder hash buckets m (operations ++ [operation]) := by
  have hbirth : birth m (operations ++ [operation]) = birth m operations :=
    funext fun bytes => birth_of_not_inserts (hold bytes)
  refine ⟨fun bytes hbytes => ?_, ?_⟩
  · rw [hbirth, insertedAt_of_not_inserts (hold bytes)]
    exact h.born bytes (hkeys.subset hbytes)
  · rw [hbirth]
    exact h.ordered.sublist hkeys

/-- A new key may stand in front of its bucket. -/
theorem insert (h : InOrder hash buckets m operations) {bytes : ByteString}
    {front back : List ByteString}
    (hnew : ∀ other, operation.Inserts (m.run operations).1 other ↔ other = bytes)
    (hkeys : Chain.keys (m.run operations).1.entries = front ++ back)
    (hmissing : bytes ∉ front ++ back)
    (hfront : ∀ key ∈ front, hash.bucket buckets key < hash.bucket buckets bytes)
    (hback : ∀ key ∈ back, hash.bucket buckets bytes ≤ hash.bucket buckets key)
    (hafter : Chain.keys (m.run (operations ++ [operation])).1.entries =
      front ++ bytes :: back) :
    InOrder hash buckets m (operations ++ [operation]) := by
  obtain ⟨hgreatest, hbirth⟩ := birth_of_inserts ((hnew bytes).2 rfl)
  have hother : ∀ key ∈ front ++ back, ¬ operation.Inserts (m.run operations).1 key :=
    fun key hkey hinserts => hmissing ((hnew key).1 hinserts ▸ hkey)
  have hsame : ∀ key ∈ front ++ back,
      birth m (operations ++ [operation]) key = birth m operations key :=
    fun key hkey => birth_of_not_inserts (hother key hkey)
  have hpast : ∀ key ∈ front ++ back, birth m operations key < operations.length :=
    fun key hkey => h.birth_lt (hkeys ▸ hkey)
  have hordered : (front ++ back).Pairwise
      (Precedes hash buckets (birth m (operations ++ [operation]))) := by
    have hbefore := h.ordered
    rw [hkeys] at hbefore
    refine hbefore.imp_of_mem fun {a b} ha hb hab => ?_
    rw [Precedes, hsame a ha, hsame b hb]
    exact hab
  refine ⟨fun key hkey => ?_, ?_⟩
  · by_cases heq : key = bytes
    · rw [heq, hbirth]
      exact hgreatest
    · have hkey : key ∈ front ++ back := by
        rw [hafter] at hkey
        simpa [heq] using hkey
      rw [hsame key hkey, insertedAt_of_not_inserts (hother key hkey)]
      exact h.born key (hkeys ▸ hkey)
  · rw [hafter, List.pairwise_append, List.pairwise_cons]
    obtain ⟨hinFront, hinBack, hacross⟩ := List.pairwise_append.1 hordered
    refine ⟨hinFront, ⟨fun key hkey => ?_, hinBack⟩, fun key hkey other hother => ?_⟩
    · -- The new key is younger than every other one, and only that counts in its own bucket.
      rcases Nat.lt_or_eq_of_le (hback key hkey) with hlt | heq
      · exact .inl hlt
      · refine .inr ⟨heq, ?_⟩
        rw [hbirth, hsame key (List.mem_append_right _ hkey)]
        exact hpast key (List.mem_append_right _ hkey)
    · rcases List.mem_cons.1 hother with rfl | hother
      · exact .inl (hfront key hkey)
      · exact hacross key hkey other hother

/-- A new key goes in front of its bucket, and another payload moves nothing. -/
theorem concat_set (h : InOrder hash buckets m operations)
    (hintact : Intact hash buckets (m.run operations).1) (key : κ) (payload : V) :
    InOrder hash buckets m (operations ++ [.set key payload]) := by
  have hrun := m.run_concat operations (.set key payload)
  cases hkey : (m.run operations).1.lookup (MapKey.encode key) with
  | none =>
    obtain ⟨-, before, after, hold, hbefore, hafter, hnew⟩ := hintact.entries_of_not_mem hkey
    have hkeys : Chain.keys (m.run operations).1.entries =
        Chain.keys before ++ Chain.keys after := by rw [hold, Chain.keys_append]
    refine h.insert (fun other => by rw [inserts_set, and_iff_left hkey]) hkeys ?_ ?_ ?_ ?_
    · intro hmem
      rw [← Chain.keys_append, ← hold] at hmem
      obtain ⟨entry, hentry, heq⟩ := List.mem_map.1 hmem
      rw [hintact.mem_entries_iff, heq, hkey] at hentry
      cases hentry
    · simpa [Chain.keys] using hbefore
    · simpa [Chain.keys] using hafter
    · rw [hrun]
      exact (congrArg Chain.keys (hnew payload)).trans (Chain.keys_append _ _)
  | some old =>
    obtain ⟨front, stored, back, hold, -, hnew⟩ :=
      hintact.entries_of_mem (Option.isSome_of_eq_some hkey)
    refine h.shrink (fun bytes hinserts => ?_) ?_
    · rw [inserts_set, hkey] at hinserts
      cases hinserts.2
    · rw [hrun]
      show (Chain.keys ((m.run operations).1.set key payload).2.entries).Sublist _
      rw [hnew, hold, Chain.keys_append, Chain.keys_append]
      exact List.Sublist.refl _

/-- A removed key leaves the others in their order. -/
theorem concat_remove (h : InOrder hash buckets m operations)
    (hintact : Intact hash buckets (m.run operations).1) (key : κ) :
    InOrder hash buckets m (operations ++ [.remove key]) := by
  refine h.shrink (not_inserts_of_ne_set (by simp)) ?_
  rw [run_concat]
  show (Chain.keys ((m.run operations).1.remove key).2.entries).Sublist _
  cases hkey : (m.run operations).1.lookup (MapKey.encode key) with
  | none => rw [(hintact.entries_of_not_mem hkey).1]
  | some old =>
    obtain ⟨front, stored, back, hold, hremove, -⟩ :=
      hintact.entries_of_mem (Option.isSome_of_eq_some hkey)
    rw [hremove, hold]
    exact ((List.Sublist.refl front).append (List.sublist_cons_self _ _)).map Entry.key

/-- One more operation keeps the order. -/
theorem concat (h : InOrder hash buckets m operations)
    (hintact : Intact hash buckets (m.run operations).1) (operation : Operation κ V) :
    InOrder hash buckets m (operations ++ [operation]) := by
  cases operation with
  | set key payload => exact h.concat_set hintact key payload
  | remove key => exact h.concat_remove hintact key
  | clear =>
    refine h.shrink (not_inserts_of_ne_set (by simp)) ?_
    rw [run_concat]
    show (Chain.keys (m.run operations).1.clear.entries).Sublist _
    rw [entries_clear]
    exact List.nil_sublist _
  | get | tryGet | getOr | contains =>
    refine h.shrink (not_inserts_of_ne_set (by simp)) ?_
    rw [run_concat]
    exact List.Sublist.refl _

end InOrder

/-- After any run of operations, a new map has its entries in the order of their births. -/
theorem inOrder_run [Allocator] {positive : 0 < buckets}
    (hm : ChainedMap.create hash buckets positive = .ok m) (operations : List (Operation κ V)) :
    InOrder hash buckets m operations := by
  induction operations using List.reverseRecOn with
  | nil =>
    have hempty : Chain.keys (m.run ([] : List (Operation κ V))).1.entries = [] := by
      rw [run, entries_eq_flatten, of_create_eq_ok hm]
      simp
    exact ⟨fun bytes hbytes => by simp [hempty] at hbytes, by rw [hempty]; exact .nil⟩
  | append_singleton operations operation ih =>
    exact ih.concat ((Intact.create hm).run operations) operation

/-! ## The last payload of a key -/

section
variable {operations : List (Operation κ V)} {operation : Operation κ V} {bytes : ByteString}
  {payload : V}

/-- What the last operation stores under a key is the last payload of the key. -/
theorem lastStored_set (operations : List (Operation κ V)) (key : κ) (payload : V) :
    LastStored (operations ++ [.set key payload]) (MapKey.encode key) payload := by
  refine ⟨operations.length, key, rfl, List.getElem?_concat_length, fun later _ _ _ hlater => ?_⟩
  have hlt := (List.getElem?_eq_some_iff.1 hlater).1
  rw [List.length_append, List.length_singleton] at hlt
  exact Nat.lt_succ_iff.1 hlt

/-- An operation that stores nothing under a key keeps its last payload. -/
theorem LastStored.concat (h : LastStored operations bytes payload)
    (hother : ∀ key payload, operation = .set key payload → MapKey.encode key ≠ bytes) :
    LastStored (operations ++ [operation]) bytes payload := by
  obtain ⟨step, key, hkey, hstep, hlast⟩ := h
  have hlt := (List.getElem?_eq_some_iff.1 hstep).1
  refine ⟨step, key, hkey, by rw [List.getElem?_append_left hlt, hstep], ?_⟩
  intro later key' payload' hkey' hlater
  rcases Nat.lt_or_ge later operations.length with hin | hbehind
  · rw [List.getElem?_append_left hin] at hlater
    exact hlast later key' payload' hkey' hlater
  · rw [List.getElem?_append_right hbehind] at hlater
    have hset := List.mem_of_getElem? hlater
    exact absurd hkey' (hother key' payload' (List.mem_singleton.1 hset).symm)

/-- What a map holds under a key after a run is the last payload that the run stored there. -/
theorem lastStored_of_lookup [Allocator] {positive : 0 < buckets}
    (hm : ChainedMap.create hash buckets positive = .ok m) (operations : List (Operation κ V))
    (hlookup : (m.run operations).1.lookup bytes = some payload) :
    LastStored operations bytes payload := by
  induction operations using List.reverseRecOn generalizing bytes payload with
  | nil =>
    rw [run, lookup_create hm] at hlookup
    cases hlookup
  | append_singleton operations operation ih =>
    have hstep : (m.run (operations ++ [operation])).1.lookup =
        (Table.step (m.run operations).1.lookup operation).1 := by
      rw [run_concat]
      exact congrArg Prod.fst (((Intact.create hm).run operations).apply_lookup operation)
    rw [hstep] at hlookup
    cases operation with
    | set key stored =>
      simp only [Table.step] at hlookup
      by_cases hkey : bytes = MapKey.encode key
      · rw [hkey, Function.update_self] at hlookup
        cases hlookup
        rw [hkey]
        exact lastStored_set operations key payload
      · rw [Function.update_of_ne hkey] at hlookup
        refine (ih hlookup).concat fun key' _ hset => ?_
        cases hset
        exact Ne.symm hkey
    | remove key =>
      simp only [Table.step] at hlookup
      by_cases hkey : bytes = MapKey.encode key
      · rw [hkey, Function.update_self] at hlookup
        cases hlookup
      · rw [Function.update_of_ne hkey] at hlookup
        exact (ih hlookup).concat (by simp)
    | clear => cases hlookup
    | get | tryGet | getOr | contains =>
      exact (ih hlookup).concat (by simp)

end

/-! ## Runs on a new map -/

namespace Intact

/-- Removing a key keeps the other entries in their order. -/
theorem entries_remove (h : Intact hash buckets m) (key : κ) :
    (m.remove key).2.entries = m.entries.filter (·.key ≠ MapKey.encode key) := by
  cases hkey : m.lookup (MapKey.encode key) with
  | none =>
    rw [(h.entries_of_not_mem hkey).1, eq_comm, List.filter_eq_self]
    intro entry hentry
    rw [h.mem_entries_iff] at hentry
    rw [decide_eq_true_iff]
    intro heq
    rw [heq, hkey] at hentry
    cases hentry
  | some payload =>
    obtain ⟨front, old, back, hold, hremove, -⟩ := h.entries_of_mem (Option.isSome_of_eq_some hkey)
    have hdistinct := h.distinct_entries
    rw [hold] at hdistinct
    rw [hremove, hold, Chain.filter_split hdistinct]

/-- A cleared map is the map that it was when it was new. -/
theorem clear_eq [Allocator] {positive : 0 < buckets} {fresh : ChainedMap κ V}
    (h : Intact hash buckets m)
    (hfresh : ChainedMap.create hash buckets positive = .ok fresh) : m.clear = fresh := by
  rw [of_create_eq_ok hfresh]
  obtain ⟨own, directory, hpos, len⟩ := m
  obtain rfl : own = hash := h.hash_eq
  obtain rfl : directory.size = buckets := h.size_eq
  rfl

/-- Storing again under a key that was removed puts it in front of its bucket. -/
theorem entries_reinsert (h : Intact hash buckets m) (key : κ) (payload : V) :
    ∃ before after : Chain V,
      ((m.remove key).2.set key payload).2.entries =
        before ++ ⟨MapKey.encode key, payload⟩ :: after ∧
      m.entries.filter (·.key ≠ MapKey.encode key) = before ++ after ∧
      (∀ entry ∈ before, m.bucketOfBytes entry.key < m.bucketOf key) ∧
      ∀ entry ∈ after, m.bucketOf key ≤ m.bucketOfBytes entry.key := by
  have hmissing : (m.remove key).2.lookup (MapKey.encode key) = none := by
    rw [(m.lookup_remove key (h.chainOf _).distinct).2, Function.update_self]
  obtain ⟨-, before, after, hold, hbefore, hafter, hnew⟩ :=
    (h.remove key).entries_of_not_mem hmissing
  refine ⟨before, after, hnew payload, by rw [← h.entries_remove, hold], ?_, ?_⟩
  · intro entry hentry
    rw [Fin.lt_def, bucketOf, h.bucketOfBytes, h.bucketOfBytes]
    exact hbefore entry hentry
  · intro entry hentry
    rw [Fin.le_def, bucketOf, h.bucketOfBytes, h.bucketOfBytes]
    exact hafter entry hentry

end Intact

/-- After any run of operations on a new map, the walk yields what is stored, each key with the
payload that was stored under it last. The entries stand in the order of their buckets, and those
of one bucket from the latest birth to the earliest. So a new payload for a key that is present
moves nothing, a removal keeps the others in their order, a key that is removed and stored again
stands in front of its bucket, and what was done before the map was cleared does not show. -/
theorem entries_by_birth [Allocator] {positive : 0 < buckets}
    (hm : ChainedMap.create hash buckets positive = .ok m) (operations : List (Operation κ V)) :
    let reached := (m.run operations).1
    (∀ entry, entry ∈ reached.entries ↔ reached.lookup entry.key = some entry.payload) ∧
      (∀ entry ∈ reached.entries,
        IsGreatest {step | InsertedAt m operations entry.key step}
            (birth m operations entry.key) ∧
          LastStored operations entry.key entry.payload) ∧
      (reached.entries.Pairwise fun first second =>
        reached.bucketOfBytes first.key < reached.bucketOfBytes second.key ∨
          reached.bucketOfBytes first.key = reached.bucketOfBytes second.key ∧
            birth m operations second.key < birth m operations first.key) ∧
      (∀ key payload, (reached.set key payload).1.isSome →
        Chain.keys (reached.set key payload).2.entries = Chain.keys reached.entries) ∧
      (∀ key, (reached.remove key).2.entries =
        reached.entries.filter (·.key ≠ MapKey.encode key)) ∧
      (∀ key payload, ∃ before after : Chain V,
        ((reached.remove key).2.set key payload).2.entries =
          before ++ ⟨MapKey.encode key, payload⟩ :: after ∧
        reached.entries.filter (·.key ≠ MapKey.encode key) = before ++ after ∧
        (∀ entry ∈ before, reached.bucketOfBytes entry.key < reached.bucketOf key) ∧
        ∀ entry ∈ after, reached.bucketOf key ≤ reached.bucketOfBytes entry.key) ∧
      ∀ later, (m.run (operations ++ .clear :: later)).1.entries =
        (m.run later).1.entries := by
  intro reached
  have h : Intact hash buckets reached := (Intact.create hm).run operations
  obtain ⟨hborn, hordered⟩ := inOrder_run hm operations
  refine ⟨h.mem_entries_iff, fun entry hentry => ⟨?_, ?_⟩, ?_, fun key payload hfound => ?_,
    h.entries_remove, h.entries_reinsert, fun later => ?_⟩
  · exact hborn _ (Chain.mem_keys_of_mem hentry)
  · exact lastStored_of_lookup hm operations ((h.mem_entries_iff entry).1 hentry)
  · rw [Chain.keys, List.pairwise_map] at hordered
    refine hordered.imp fun hprecedes => ?_
    rw [Fin.lt_def, Fin.ext_iff, h.bucketOfBytes, h.bucketOfBytes]
    exact hprecedes
  · rw [(reached.lookup_set key payload).1] at hfound
    obtain ⟨front, old, back, hold, -, hnew⟩ := h.entries_of_mem hfound
    rw [hnew, hold, Chain.keys_append, Chain.keys_append]
    rfl
  · rw [run_append]
    show ((reached.clear).run later).1.entries = _
    rw [h.clear_eq hm]

/-- A key that gets another payload, and two that are removed and stored, among keys of the same
bucket. -/
theorem entries_by_birth_stored_again :
    ∃ m : ChainedMap (Scalar 1) UInt64,
      ChainedMap.create .leading 2 (by decide) = .ok m ∧
      ∃ operations : List (Operation (Scalar 1) UInt64),
        operations = [.set 1 10, .set 2 20, .set 3 30, .set 1 11, .remove 3, .set 5 50,
          .set 3 31] ∧
        (m.run operations).1.entries = [⟨[2], 20⟩, ⟨[3], 31⟩, ⟨[5], 50⟩, ⟨[1], 11⟩] ∧
        LastStored operations [1] 11 ∧
        birth m operations [1] < birth m operations [5] ∧
        birth m operations [5] < birth m operations [3] := by
  let m : ChainedMap (Scalar 1) UInt64 := ⟨.leading, #[[], []], by decide, 0⟩
  have hm : ChainedMap.create .leading 2 (by decide) = .ok m := rfl
  refine ⟨m, hm, _, rfl, ?_⟩
  obtain ⟨-, hentries, hpairs, -⟩ := entries_by_birth hm
    [.set 1 10, .set 2 20, .set 3 30, .set 1 11, .remove 3, .set 5 50, .set 3 31]
  have hlist : (m.run [.set 1 10, .set 2 20, .set 3 30, .set 1 11, .remove 3, .set 5 50,
      .set 3 31]).1.entries = [⟨[2], 20⟩, ⟨[3], 31⟩, ⟨[5], 50⟩, ⟨[1], 11⟩] := by
    rw [entries_eq_flatten]
    decide
  rw [hlist] at hentries hpairs
  rw [List.pairwise_cons, List.pairwise_cons, List.pairwise_cons] at hpairs
  obtain ⟨-, hthree, hfive, -⟩ := hpairs
  refine ⟨hlist, (hentries ⟨[1], 11⟩ (by simp)).2, ?_, ?_⟩
  · exact ((hfive ⟨[1], 11⟩ (by simp)).resolve_left (by decide)).2
  · exact ((hthree ⟨[5], 50⟩ (by simp)).resolve_left (by decide)).2

end ChainedMap

end Containers
