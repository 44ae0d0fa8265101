import Containers.Proofs.ChainedMap.Refinement

/-!
# Changes under different keys commute

An edit stores a payload under a key or removes the key. What it does to a chain has two parts: new
entries come to the head, and others take the place of an entry with the key (`Edit.onChain`). For a
second edit with another key, the new entries of the first one are no different from those that were
there before. So the replacements commute (`Chain.replace_comm`), and of the new entries those of
the later edit come first (`Edit.onChain_onChain`). That is the only trace the order of the edits
can leave: it takes two new entries in one chain.
-/

namespace Containers

/-! ## Chains -/

namespace Chain

variable {V : Type} {key other : ByteString} {old : V} {entries others chain front back : Chain V}

/-- The chain with these entries in place of each one that has the key. -/
def replace (key : ByteString) (entries chain : Chain V) : Chain V :=
  chain.flatMap fun entry => if entry.key = key then entries else [entry]

/-- The entries of a key are replaced in each part of a chain by itself. -/
theorem replace_append :
    replace key entries (front ++ back) = replace key entries front ++ replace key entries back :=
  List.flatMap_append

/-- In a chain without the key, there is nothing to replace. -/
theorem replace_of_not_mem (h : key ∉ keys chain) : replace key entries chain = chain := by
  induction chain with
  | nil => rfl
  | cons entry chain ih =>
    rw [keys_cons, List.mem_cons, not_or] at h
    rw [replace, List.flatMap_cons, if_neg (Ne.symm h.1), List.singleton_append]
    exact congrArg _ (ih h.2)

/-- In a chain of different keys, the one entry of the key gives way to the new ones. -/
theorem replace_split (hdistinct : (keys (front ++ ⟨key, old⟩ :: back)).Nodup) :
    replace key entries (front ++ ⟨key, old⟩ :: back) = front ++ entries ++ back := by
  have hkeys := List.nodup_middle.1 (by simpa using hdistinct)
  obtain ⟨hfront, hback⟩ := not_or.1 (mt List.mem_append.2 (List.nodup_cons.1 hkeys).1)
  rw [replace_append, replace_of_not_mem hfront, List.append_assoc]
  congr 1
  rw [replace, List.flatMap_cons, if_pos rfl]
  exact congrArg _ (replace_of_not_mem hback)

/-- Entries that all have another key do not have this one. -/
theorem not_mem_keys_of_forall (hne : key ≠ other) (h : ∀ entry ∈ others, entry.key = other) :
    key ∉ keys others := by
  intro hmem
  obtain ⟨entry, hentry, rfl⟩ := List.mem_map.1 hmem
  exact hne (h entry hentry)

/-- Replacing the entries of a key by others of that key does not touch any other key. -/
theorem mem_keys_replace (hne : other ≠ key) (h : ∀ entry ∈ entries, entry.key = key) :
    other ∈ keys (replace key entries chain) ↔ other ∈ keys chain := by
  induction chain with
  | nil => rfl
  | cons entry chain ih =>
    rw [replace, List.flatMap_cons, keys_append, List.mem_append, keys_cons, List.mem_cons]
    refine or_congr ?_ ih
    split
    next hkey => simp [not_mem_keys_of_forall hne h, hkey, hne]
    next => simp

/-- Entries of one key are not touched by the replacement of another one. -/
theorem replace_comm (hne : key ≠ other) (h : ∀ entry ∈ entries, entry.key = key)
    (hother : ∀ entry ∈ others, entry.key = other) :
    replace other others (replace key entries chain) =
      replace key entries (replace other others chain) := by
  have hentries : replace other others entries = entries :=
    replace_of_not_mem (not_mem_keys_of_forall hne.symm h)
  have hothers : replace key entries others = others :=
    replace_of_not_mem (not_mem_keys_of_forall hne hother)
  rw [replace] at hentries hothers
  simp only [replace, List.flatMap_assoc]
  refine List.flatMap_congr fun entry _ => ?_
  by_cases hkey : entry.key = key
  · rw [if_pos hkey, hentries, if_neg (hkey ▸ hne), List.flatMap_singleton, if_pos hkey]
  · rw [if_neg hkey, List.flatMap_singleton]
    split
    next => rw [hothers]
    next => rw [List.flatMap_singleton, if_neg hkey]

end Chain

namespace ChainedMap

variable {κ V : Type} [MapKey κ] {hash : KeyHash} {buckets : Nat} {m other : ChainedMap κ V}

/-! ## Edits -/

/-- An operation that may change what a map holds under one key. -/
inductive Edit (κ V : Type) where
  /-- Store a payload under a key, if there is memory for it. -/
  | store (key : κ) (payload : V)
  /-- Remove the entry of a key. -/
  | remove (key : κ)

namespace Edit

/-- The bytes of the key. -/
def bytes : Edit κ V → ByteString
  | .store key _ | .remove key => MapKey.encode key

/-- What an edit leaves of the entry with its key. -/
def left : Edit κ V → Chain V
  | .store key payload => [⟨MapKey.encode key, payload⟩]
  | .remove _ => []

variable {edit first second : Edit κ V} {chain front back : Chain V} {old : V}

/-- What an edit leaves has the key of the edit. -/
theorem key_of_mem_left : ∀ entry ∈ edit.left, entry.key = edit.bytes := by
  cases edit <;> simp [left, bytes]

variable [Allocator] [Layout V]

/-- Carry out an edit. A refused store leaves the map as it was. -/
def apply (m : ChainedMap κ V) : Edit κ V → ChainedMap κ V × Except Fault (Option V)
  | .store key payload =>
    match m.store key payload with
    | .ok (old, changed) => (changed, .ok old)
    | .error fault => (m, .error fault)
  | .remove key =>
    let (old, changed) := m.remove key
    (changed, .ok old)

/-- The edit puts a new entry into the map: it stores something and finds nothing there. -/
def Inserts (m : ChainedMap κ V) (edit : Edit κ V) : Prop :=
  (∃ key payload, edit = .store key payload) ∧ (edit.apply m).2 = .ok none

/-- Whether there is memory for what an edit adds. -/
def room : Edit κ V → Except Fault Unit
  | .store key payload => (Entry.make (MapKey.encode key) payload).map fun _ => ()
  | .remove _ => .ok ()

/-- What an edit puts at the head of a chain. -/
def added (edit : Edit κ V) (chain : Chain V) : Chain V :=
  if edit.bytes ∈ Chain.keys chain then [] else if edit.room = .ok () then edit.left else []

/-- What an edit makes of the chain of its key. -/
def onChain (edit : Edit κ V) (chain : Chain V) : Chain V :=
  edit.added chain ++ Chain.replace edit.bytes edit.left chain

/-- The answer to an edit, by what is stored under its key. -/
def answer (edit : Edit κ V) : Option V → Except Fault (Option V)
  | some old => .ok (some old)
  | none => edit.room.map fun _ => none

/-- What is stored under the key after an edit, by what was stored before. -/
def result (edit : Edit κ V) (found : Option V) : Option V :=
  if found.isSome ∨ edit.room = .ok () then edit.left.head?.map Entry.payload else none

/-- An edit adds at most one entry to a chain. -/
theorem added_eq_nil_or_singleton (edit : Edit κ V) (chain : Chain V) :
    edit.added chain = [] ∨ ∃ entry, edit.added chain = [entry] := by
  unfold added
  cases edit with
  | store key payload => split_ifs <;> simp [left]
  | remove key => simp [left]

/-- What an edit adds has the key of the edit. -/
theorem key_of_mem_added : ∀ entry ∈ edit.added chain, entry.key = edit.bytes := by
  unfold added
  split_ifs
  · simp
  · exact key_of_mem_left
  · simp

/-- An edit of a key that a chain does not have puts what it leaves at the head of the chain, if
there is memory for it. -/
theorem onChain_of_not_mem (h : edit.bytes ∉ Chain.keys chain) :
    edit.onChain chain = (if edit.room = .ok () then edit.left else []) ++ chain := by
  rw [onChain, added, if_neg h, Chain.replace_of_not_mem h]

/-- An edit of a key that a chain has puts what it leaves in the place of the entry. -/
theorem onChain_split (hdistinct : (Chain.keys (front ++ ⟨edit.bytes, old⟩ :: back)).Nodup) :
    edit.onChain (front ++ ⟨edit.bytes, old⟩ :: back) = front ++ edit.left ++ back := by
  rw [onChain, added, if_pos (by simp), Chain.replace_split hdistinct, List.nil_append]

/-- An edit adds to a chain the same as it would without an edit of another key. -/
theorem added_onChain (hne : first.bytes ≠ second.bytes) :
    second.added (first.onChain chain) = second.added chain := by
  have hmem : second.bytes ∈ Chain.keys (first.onChain chain) ↔
      second.bytes ∈ Chain.keys chain := by
    rw [onChain, Chain.keys_append, List.mem_append,
      Chain.mem_keys_replace hne.symm key_of_mem_left,
      or_iff_right (Chain.not_mem_keys_of_forall hne.symm key_of_mem_added)]
  simp only [added, hmem]

/-- After two edits of different keys the chain begins with what the later one adds. -/
theorem onChain_onChain (hne : first.bytes ≠ second.bytes) :
    second.onChain (first.onChain chain) = second.added chain ++ (first.added chain ++
      Chain.replace second.bytes second.left (Chain.replace first.bytes first.left chain)) := by
  have hadded : second.bytes ∉ Chain.keys (first.added chain) :=
    Chain.not_mem_keys_of_forall hne.symm key_of_mem_added
  conv_lhs => rw [onChain, added_onChain hne, onChain, Chain.replace_append,
    Chain.replace_of_not_mem hadded]

end Edit

/-! ## Edits of a map -/

section
variable [Allocator] [Layout V]

/-- A refused store leaves the map as it was, and any other edit stores or removes. -/
theorem apply_edit_cases (m : ChainedMap κ V) (edit : Edit κ V) :
    (∃ key payload, edit = .store key payload ∧
      ((m.lookup edit.bytes).isSome ∨ edit.room = .ok ()) ∧
      edit.apply m = ((m.set key payload).2, .ok (m.lookup edit.bytes))) ∨
    (∃ key, edit = .remove key ∧ edit.apply m = ((m.remove key).2, .ok (m.remove key).1)) ∨
    ∃ fault, edit.room = .error fault ∧ m.lookup edit.bytes = none ∧
      edit.apply m = (m, .error fault) := by
  cases edit with
  | remove key => exact .inr (.inl ⟨key, rfl, rfl⟩)
  | store key payload =>
    have hanswer := (m.lookup_set key payload).1
    have hstore := m.store_eq key payload
    rw [Edit.bytes, Edit.apply, hstore]
    cases hfound : m.lookup (MapKey.encode key) with
    | some old => exact .inl ⟨key, payload, rfl, .inl rfl, by simp only [hanswer, hfound]⟩
    | none =>
      have hroom : (Edit.store key payload).room =
          (Entry.make (MapKey.encode key) payload).map fun _ => () := rfl
      rw [hroom]
      cases Entry.make (MapKey.encode key) payload with
      | ok entry =>
        refine .inl ⟨key, payload, rfl, .inr rfl, ?_⟩
        simp only [Except.map, hanswer, hfound]
      | error fault => exact .inr (.inr ⟨fault, rfl, rfl, rfl⟩)

namespace Intact

/-- What an edit stores and answers depends on what is stored under its key. -/
theorem lookup_edit (h : Intact hash buckets m) (edit : Edit κ V) :
    (edit.apply m).1.lookup =
        Function.update m.lookup edit.bytes (edit.result (m.lookup edit.bytes)) ∧
      (edit.apply m).2 = edit.answer (m.lookup edit.bytes) := by
  rcases m.apply_edit_cases edit with ⟨key, payload, rfl, hroom, happly⟩ | ⟨key, rfl, happly⟩ |
    ⟨fault, hroom, hfound, happly⟩
  · obtain ⟨-, hlookup⟩ := m.lookup_set key payload
    refine ⟨?_, ?_⟩
    · rw [happly, hlookup, Edit.result, if_pos hroom]
      rfl
    · rw [happly]
      cases hfound : m.lookup (Edit.store key payload).bytes with
      | some old => rfl
      | none =>
        rw [hfound] at hroom
        rw [Edit.answer, hroom.resolve_left (by simp)]
        rfl
  · obtain ⟨hanswer, hlookup⟩ := m.lookup_remove key (h.chainOf _).distinct
    refine ⟨?_, ?_⟩
    · rw [happly, hlookup, Edit.result]
      exact congrArg _ (ite_self none).symm
    · rw [happly, hanswer, Edit.bytes]
      cases m.lookup (MapKey.encode key) <;> rfl
  · refine ⟨?_, ?_⟩
    · rw [happly, hfound, Edit.result, if_neg (by simp [hroom]), ← hfound, Function.update_eq_self]
    · rw [happly, hfound, Edit.answer, hroom]
      rfl

/-- An edit preserves the invariant. -/
theorem edit (h : Intact hash buckets m) (edit : Edit κ V) :
    Intact hash buckets (edit.apply m).1 := by
  rcases m.apply_edit_cases edit with ⟨key, payload, -, -, happly⟩ | ⟨key, -, happly⟩ |
    ⟨fault, -, -, happly⟩
  · rw [happly]
    exact h.set key payload
  · rw [happly]
    exact h.remove key
  · rw [happly]
    exact h

/-- An edit gives the chain of its key the new form. -/
theorem apply_edit (h : Intact hash buckets m) (edit : Edit κ V) :
    ∃ len, (edit.apply m).1 =
      m.withChain (m.bucketOfBytes edit.bytes) (edit.onChain (m.chainOf edit.bytes)) len := by
  cases hfound : m.lookup edit.bytes with
  | none =>
    have hnot := not_mem_of_lookup hfound
    rw [Edit.onChain_of_not_mem hnot]
    rcases m.apply_edit_cases edit with ⟨key, payload, rfl, hroom, happly⟩ | ⟨key, rfl, happly⟩ |
      ⟨fault, hroom, -, happly⟩
    · rw [if_pos (hroom.resolve_left (by simp [hfound])), happly]
      exact ⟨m.len + 1, congrArg Prod.snd (set_of_not_mem hnot)⟩
    · rw [happly, remove_of_not_mem hnot]
      exact ⟨m.len, by simp [Edit.left, withChain_chainOf]⟩
    · rw [happly, hroom]
      exact ⟨m.len, by simp [withChain_chainOf]⟩
  | some old =>
    obtain ⟨front, back, hchain, hfront⟩ := split_of_lookup hfound
    have hdistinct := (h.chainOf edit.bytes).distinct
    rw [hchain] at hdistinct ⊢
    rw [Edit.onChain_split hdistinct]
    rcases m.apply_edit_cases edit with ⟨key, payload, rfl, -, happly⟩ | ⟨key, rfl, happly⟩ |
      ⟨-, -, hmissing, -⟩
    · rw [happly, set_split hchain hfront, List.append_assoc]
      exact ⟨m.len, rfl⟩
    · rw [happly, remove_split hchain hfront]
      exact ⟨m.len - 1, by simp [Edit.left, Edit.bytes, bucketOf]⟩
    · rw [hfound] at hmissing
      cases hmissing

/-- An edit inserts if it adds an entry to the chain of its key. -/
theorem inserts_iff (h : Intact hash buckets m) {edit : Edit κ V} :
    edit.Inserts m ↔ ∃ entry, edit.added (m.chainOf edit.bytes) = [entry] := by
  rw [Edit.Inserts, (h.lookup_edit edit).2, Edit.added]
  constructor
  · rintro ⟨⟨key, payload, rfl⟩, hanswer⟩
    cases hfound : m.lookup (Edit.store key payload).bytes with
    | some old =>
      rw [hfound] at hanswer
      cases hanswer
    | none =>
      rw [hfound, Edit.answer] at hanswer
      cases hroom : (Edit.store key payload).room with
      | ok _ => exact ⟨_, by rw [if_neg (not_mem_of_lookup hfound), if_pos rfl, Edit.left]⟩
      | error fault =>
        rw [hroom] at hanswer
        cases hanswer
  · rintro ⟨entry, hadded⟩
    split_ifs at hadded with hmem hroom
    cases edit with
    | store key payload =>
      rw [lookup_of_not_mem hmem, Edit.answer, hroom]
      exact ⟨⟨key, payload, rfl⟩, rfl⟩
    | remove key => cases hadded

/-- An edit that does not insert adds nothing to the chain of its key. -/
theorem added_of_not_inserts (h : Intact hash buckets m) {edit : Edit κ V}
    (hnot : ¬ edit.Inserts m) : edit.added (m.chainOf edit.bytes) = [] := by
  rcases edit.added_eq_nil_or_singleton (m.chainOf edit.bytes) with hnil | hsingle
  · exact hnil
  · exact absurd (h.inserts_iff.2 hsingle) hnot

omit [Allocator] [Layout V] in
/-- Two intact maps with the same directory are the same map: their hash is given, and their count
is the number of entries. -/
theorem ext (h : Intact hash buckets m) (hother : Intact hash buckets other)
    (hdirectory : m.directory = other.directory) : m = other := by
  have hlen : m.len = other.len := by rw [h.counted, hother.counted, hdirectory]
  have hhash : m.hash = other.hash := h.hash_eq.trans hother.hash_eq.symm
  obtain ⟨own, directory, hpos, len⟩ := m
  obtain ⟨own', directory', hpos', len'⟩ := other
  cases hdirectory
  cases hlen
  cases hhash
  rfl

omit [Allocator] [Layout V] in
/-- Intact maps that hold the same have the same count. -/
theorem len_eq_of_lookup (h : Intact hash buckets m) (hother : Intact hash buckets other)
    (hlookup : m.lookup = other.lookup) : m.len = other.len :=
  (perm_entries_of_describes (hlookup ▸ hother.describes) h.describes).1

variable {first second : Edit κ V}

/-- Two edits of different keys answer alike in either order, and leave the same under every key. -/
theorem lookup_edit_edit (h : Intact hash buckets m) (hne : first.bytes ≠ second.bytes) :
    (second.apply (first.apply m).1).1.lookup = (first.apply (second.apply m).1).1.lookup ∧
      (second.apply (first.apply m).1).2 = (second.apply m).2 ∧
      (first.apply (second.apply m).1).2 = (first.apply m).2 := by
  obtain ⟨hfirst, hanswer⟩ := h.lookup_edit first
  obtain ⟨hsecond, hanswer'⟩ := h.lookup_edit second
  obtain ⟨hahead, hanswerAhead⟩ := (h.edit first).lookup_edit second
  obtain ⟨hbehind, hanswerBehind⟩ := (h.edit second).lookup_edit first
  rw [hfirst, Function.update_of_ne hne.symm] at hahead hanswerAhead
  rw [hsecond, Function.update_of_ne hne] at hbehind hanswerBehind
  refine ⟨?_, hanswerAhead.trans hanswer'.symm, hanswerBehind.trans hanswer.symm⟩
  rw [hahead, hbehind, Function.update_comm hne]

/-- Edits in different buckets change different chains. -/
theorem edit_comm_of_ne (h : Intact hash buckets m)
    (hne : m.bucketOfBytes first.bytes ≠ m.bucketOfBytes second.bytes) :
    (second.apply (first.apply m).1).1 = (first.apply (second.apply m).1).1 := by
  refine ((h.edit first).edit second).ext ((h.edit second).edit first) ?_
  obtain ⟨lenFirst, hfirst⟩ := h.apply_edit first
  obtain ⟨lenSecond, hsecond⟩ := h.apply_edit second
  obtain ⟨lenAhead, hahead⟩ := (h.edit first).apply_edit second
  obtain ⟨lenBehind, hbehind⟩ := (h.edit second).apply_edit first
  rw [hahead, hbehind, hfirst, hsecond, chainOf_withChain, chainOf_withChain, if_neg hne,
    if_neg hne.symm]
  exact directory_withChain_comm _ _ _ hne _ _ _ _

/-- Edits in one bucket change its chain one after the other. -/
theorem edit_edit_of_eq (h : Intact hash buckets m)
    (heq : m.bucketOfBytes first.bytes = m.bucketOfBytes second.bytes) :
    ∃ len, (second.apply (first.apply m).1).1 =
      m.withChain (m.bucketOfBytes first.bytes)
        (second.onChain (first.onChain (m.chainOf first.bytes))) len := by
  obtain ⟨lenFirst, hfirst⟩ := h.apply_edit first
  obtain ⟨len, hahead⟩ := (h.edit first).apply_edit second
  refine ⟨len, ?_⟩
  rw [hahead, hfirst, chainOf_withChain, if_pos heq, withChain_withChain _ _ _ heq]

/-- Edits in one bucket leave the same chain unless both add an entry to it. -/
theorem edit_comm_of_added (h : Intact hash buckets m) (hne : first.bytes ≠ second.bytes)
    (heq : m.bucketOfBytes first.bytes = m.bucketOfBytes second.bytes)
    (hadded : first.added (m.chainOf first.bytes) = [] ∨
      second.added (m.chainOf second.bytes) = []) :
    (second.apply (first.apply m).1).1 = (first.apply (second.apply m).1).1 := by
  refine ((h.edit first).edit second).ext ((h.edit second).edit first) ?_
  obtain ⟨lenAhead, hahead⟩ := h.edit_edit_of_eq heq
  obtain ⟨lenBehind, hbehind⟩ := h.edit_edit_of_eq heq.symm
  rw [hahead, hbehind, ← heq, ← m.chainOf_congr heq, Edit.onChain_onChain hne,
    Edit.onChain_onChain hne.symm,
    Chain.replace_comm hne Edit.key_of_mem_left Edit.key_of_mem_left]
  rw [← m.chainOf_congr heq] at hadded
  rcases hadded with hnil | hnil <;> rw [hnil] <;> rfl

/-- Two new entries of one chain stand at its head, the later one first. -/
theorem edit_swap (h : Intact hash buckets m) (hne : first.bytes ≠ second.bytes)
    (heq : m.bucketOfBytes first.bytes = m.bucketOfBytes second.bytes)
    (hfirst : first.Inserts m) (hsecond : second.Inserts m) :
    ∃ newest older rest, newest.key = second.bytes ∧ older.key = first.bytes ∧
      (second.apply (first.apply m).1).1.chainOf second.bytes = newest :: older :: rest ∧
      (first.apply (second.apply m).1).1 =
        (second.apply (first.apply m).1).1.withChain
          ((second.apply (first.apply m).1).1.bucketOfBytes second.bytes)
          (older :: newest :: rest) (second.apply (first.apply m).1).1.len := by
  obtain ⟨older, holder⟩ := h.inserts_iff.1 hfirst
  obtain ⟨newest, hnewest⟩ := h.inserts_iff.1 hsecond
  obtain ⟨hlookup, -, -⟩ := h.lookup_edit_edit hne
  have hlen := ((h.edit first).edit second).len_eq_of_lookup ((h.edit second).edit first) hlookup
  obtain ⟨lenAhead, hahead⟩ := h.edit_edit_of_eq heq
  obtain ⟨lenBehind, hbehind⟩ := h.edit_edit_of_eq heq.symm
  rw [← m.chainOf_congr heq] at hnewest hbehind
  rw [Edit.onChain_onChain hne, holder, hnewest] at hahead
  rw [← heq, Edit.onChain_onChain hne.symm, holder, hnewest,
    ← Chain.replace_comm hne Edit.key_of_mem_left Edit.key_of_mem_left] at hbehind
  rw [hahead, hbehind, len_withChain, len_withChain] at hlen
  generalize Chain.replace second.bytes second.left
    (Chain.replace first.bytes first.left (m.chainOf first.bytes)) = rest at hahead hbehind
  refine ⟨newest, older, rest, Edit.key_of_mem_added _ (hnewest ▸ List.mem_singleton_self newest),
    Edit.key_of_mem_added _ (holder ▸ List.mem_singleton_self older), ?_, ?_⟩
  · rw [hahead, chainOf_withChain, if_pos heq]
    rfl
  · rw [hahead, hbehind, withChain_withChain _ _ _ heq, len_withChain, hlen]
    rfl

end Intact

/-- Two edits of different keys, stores or removals in any pairing, may change places after any run
of operations on a new map. Each gives the same answer in either order, also if it is refused
memory, and both orders lead to the same count and the same payload under every key. They lead to
the same map, with all chains in the same order, unless both insert an entry into one bucket: then
the two new entries stand at the head of that chain, and all that differs is which of them comes
first. -/
theorem edits_commute {positive : 0 < buckets}
    (hm : ChainedMap.create hash buckets positive = .ok m) (operations : List (Operation κ V))
    {first second : Edit κ V} (hne : first.bytes ≠ second.bytes) :
    let reached := (m.run operations).1
    let ahead := second.apply (first.apply reached).1
    let behind := first.apply (second.apply reached).1
    let crossing := first.Inserts reached ∧ second.Inserts reached ∧
      reached.bucketOfBytes first.bytes = reached.bucketOfBytes second.bytes
    behind.2 = (first.apply reached).2 ∧ ahead.2 = (second.apply reached).2 ∧
      ahead.1.len = behind.1.len ∧ (∀ key, ahead.1.get? key = behind.1.get? key) ∧
      (¬ crossing → ahead.1 = behind.1) ∧
      (crossing → ∃ newest older rest, newest.key = second.bytes ∧ older.key = first.bytes ∧
        ahead.1.chainOf second.bytes = newest :: older :: rest ∧
        behind.1 = ahead.1.withChain (ahead.1.bucketOfBytes second.bytes)
          (older :: newest :: rest) ahead.1.len) := by
  intro reached ahead behind crossing
  have h : Intact hash buckets reached := (Intact.create hm).run operations
  obtain ⟨hlookup, hahead, hbehind⟩ := h.lookup_edit_edit hne
  refine ⟨hbehind, hahead, ((h.edit first).edit second).len_eq_of_lookup
    ((h.edit second).edit first) hlookup, fun key => congrFun hlookup (MapKey.encode key),
    fun hcrossing => ?_, fun ⟨hfirst, hsecond, heq⟩ => h.edit_swap hne heq hfirst hsecond⟩
  by_cases heq : reached.bucketOfBytes first.bytes = reached.bucketOfBytes second.bytes
  · refine h.edit_comm_of_added hne heq ?_
    by_cases hfirst : first.Inserts reached
    · exact .inr (h.added_of_not_inserts fun hsecond => hcrossing ⟨hfirst, hsecond, heq⟩)
    · exact .inl (h.added_of_not_inserts hfirst)
  · exact h.edit_comm_of_ne heq

end

/-- In one chain, two new entries show which of them came last, and a payload that is replaced next
to an entry that is removed does not. -/
theorem edits_commute_one_chain :
    ∃ m : ChainedMap (Scalar 1) UInt64, create (.constant 7) 1 (by decide) = .ok m ∧
      ∃ reached, (m.run [.set 1 10, .set 2 20]).1 = reached ∧
        ∃ third fourth replaced removed : Edit (Scalar 1) UInt64,
          third = .store 3 30 ∧ fourth = .store 4 40 ∧ replaced = .store 1 15 ∧
          removed = .remove 2 ∧
          (fourth.apply (third.apply reached).1).1.directory =
            #[[⟨[4], 40⟩, ⟨[3], 30⟩, ⟨[2], 20⟩, ⟨[1], 10⟩]] ∧
          (∃ newest older rest,
            (fourth.apply (third.apply reached).1).1.chainOf [4] = newest :: older :: rest ∧
            (third.apply (fourth.apply reached).1).1.chainOf [4] = older :: newest :: rest) ∧
          (third.apply (fourth.apply reached).1).1.directory =
            #[[⟨[3], 30⟩, ⟨[4], 40⟩, ⟨[2], 20⟩, ⟨[1], 10⟩]] ∧
          (removed.apply (replaced.apply reached).1).1.directory = #[[⟨[1], 15⟩]] ∧
          (removed.apply (replaced.apply reached).1).1 =
            (replaced.apply (removed.apply reached).1).1 := by
  let m : ChainedMap (Scalar 1) UInt64 := ⟨.constant 7, #[[]], by decide, 0⟩
  have hm : create (.constant 7) 1 (by decide) = .ok m := rfl
  refine ⟨m, hm, _, rfl, .store 3 30, .store 4 40, .store 1 15, .remove 2, rfl, rfl, rfl, rfl,
    by decide, ?_, by decide, by decide, ?_⟩
  · obtain ⟨-, -, -, -, -, hcrossing⟩ := edits_commute hm [.set 1 10, .set 2 20]
      (show (Edit.store (3 : Scalar 1) (30 : UInt64)).bytes ≠ (Edit.store 4 40).bytes by decide)
    obtain ⟨newest, older, rest, -, -, hahead, hbehind⟩ :=
      hcrossing ⟨⟨⟨3, 30, rfl⟩, by decide⟩, ⟨⟨4, 40, rfl⟩, by decide⟩, by decide⟩
    refine ⟨newest, older, rest, hahead, ?_⟩
    rw [hbehind]
    exact chainOf_withChain_self _ _ _ _
  · obtain ⟨-, -, -, -, hsame, -⟩ := edits_commute hm [.set 1 10, .set 2 20]
      (show (Edit.store (1 : Scalar 1) (15 : UInt64)).bytes ≠ (Edit.remove 2).bytes by decide)
    refine hsame fun ⟨_, ⟨⟨key, payload, hstore⟩, _⟩, _⟩ => ?_
    cases hstore

end ChainedMap

end Containers
