import Containers.ChainedMap.Basic

/-!
# One chain, searched for a key

The three searches of a chain (`Chain.find?`, `Chain.exchange?`, `Chain.unlink?`) stop at the first
entry with the key. A chain either has no such entry or splits around it (`not_mem_keys_or_split`).
Each search has one equation for either case, so that proofs about a search split the chain once
and rewrite, and never follow the recursion.
-/

namespace Containers.Chain

variable {V : Type} {key other : ByteString} {payload old : V} {chain front back : Chain V}

/-- The bytes of the keys in a chain, in its order. -/
def keys (chain : Chain V) : List ByteString := chain.map Entry.key

@[simp] theorem keys_nil : keys ([] : Chain V) = [] := rfl

@[simp] theorem keys_cons (entry : Entry V) (chain : Chain V) :
    keys (entry :: chain) = entry.key :: keys chain := rfl

@[simp] theorem keys_append (front back : Chain V) :
    keys (front ++ back) = keys front ++ keys back := List.map_append

/-- The key of an entry of a chain is one of its keys. -/
theorem mem_keys_of_mem {entry : Entry V} (h : entry ∈ chain) : entry.key ∈ keys chain :=
  List.mem_map_of_mem h

/-- A chain has no entry with a key, or it splits around the first of them. -/
theorem not_mem_keys_or_split (key : ByteString) (chain : Chain V) :
    key ∉ keys chain ∨
      ∃ front old back, key ∉ keys front ∧ chain = front ++ ⟨key, old⟩ :: back := by
  induction chain with
  | nil => exact .inl (by simp)
  | cons entry chain ih =>
    obtain ⟨bytes, stored⟩ := entry
    by_cases hkey : key = bytes
    · subst hkey
      exact .inr ⟨[], stored, chain, by simp, rfl⟩
    · rcases ih with hnot | ⟨front, old, back, hfront, rfl⟩
      · exact .inl (by simp [hkey, hnot])
      · exact .inr ⟨⟨bytes, stored⟩ :: front, old, back, by simp [hkey, hfront], rfl⟩

/-! ## Looking up -/

/-- A key that a chain does not have is not found. -/
theorem find?_of_not_mem (h : key ∉ keys chain) : find? key chain = none := by
  rw [find?, List.find?_eq_none]
  intro entry hentry hkey
  exact h (eq_of_beq hkey ▸ mem_keys_of_mem hentry)

/-- The search for a key finds the first entry that has it. -/
theorem find?_split (hfront : key ∉ keys front) :
    find? key (front ++ ⟨key, old⟩ :: back) = some ⟨key, old⟩ := by
  have hnone := find?_of_not_mem hfront
  rw [find?] at hnone ⊢
  rw [List.find?_append, hnone, List.find?_cons_of_pos (by simp), Option.none_or]

/-- In a chain of different keys, each entry is found by its key. -/
theorem find?_of_mem {entry : Entry V} (hdistinct : (keys chain).Nodup) (h : entry ∈ chain) :
    find? entry.key chain = some entry := by
  obtain ⟨front, back, rfl⟩ := List.append_of_mem h
  rw [keys_append, keys_cons] at hdistinct
  exact find?_split fun hfront =>
    (List.nodup_append.1 hdistinct).2.2 _ hfront _ List.mem_cons_self rfl

/-- What is found is an entry of the chain, and has the key. -/
theorem of_find?_eq_some {entry : Entry V} (h : find? key chain = some entry) :
    entry ∈ chain ∧ entry.key = key :=
  ⟨List.mem_of_find?_eq_some h, eq_of_beq (List.find?_some h :)⟩

/-- An entry in the middle of a chain does not matter to the search for another key. -/
theorem find?_middle (hne : other ≠ key) :
    find? other (front ++ ⟨key, old⟩ :: back) = find? other (front ++ back) := by
  simp only [find?, List.find?_append]
  rw [List.find?_cons_of_neg (by simpa using Ne.symm hne)]

/-! ## Replacing a payload -/

/-- A key that a chain does not have gets no other payload. -/
theorem exchange?_of_not_mem (h : key ∉ keys chain) : exchange? key payload chain = none := by
  induction chain with
  | nil => rfl
  | cons entry chain ih =>
    rw [keys_cons, List.mem_cons, not_or] at h
    rw [exchange?, if_neg (Ne.symm h.1), ih h.2, Option.map_none]

/-- The payload is exchanged in the first entry with the key, and the old one is handed out. -/
theorem exchange?_split (hfront : key ∉ keys front) :
    exchange? key payload (front ++ ⟨key, old⟩ :: back) =
      some (old, front ++ ⟨key, payload⟩ :: back) := by
  induction front with
  | nil => rw [List.nil_append, exchange?, if_pos rfl, List.nil_append]
  | cons entry front ih =>
    rw [keys_cons, List.mem_cons, not_or] at hfront
    rw [List.cons_append, exchange?, if_neg (Ne.symm hfront.1), ih hfront.2]
    rfl

/-! ## Taking an entry out -/

/-- A key that a chain does not have is not unlinked. -/
theorem unlink?_of_not_mem (h : key ∉ keys chain) : unlink? key chain = none := by
  induction chain with
  | nil => rfl
  | cons entry chain ih =>
    rw [keys_cons, List.mem_cons, not_or] at h
    rw [unlink?, if_neg (Ne.symm h.1), ih h.2, Option.map_none]

/-- The first entry with the key is unlinked, and its payload is handed out. -/
theorem unlink?_split (hfront : key ∉ keys front) :
    unlink? key (front ++ ⟨key, old⟩ :: back) = some (old, front ++ back) := by
  induction front with
  | nil => rw [List.nil_append, unlink?, if_pos rfl, List.nil_append]
  | cons entry front ih =>
    rw [keys_cons, List.mem_cons, not_or] at hfront
    rw [List.cons_append, unlink?, if_neg (Ne.symm hfront.1), ih hfront.2]
    rfl

end Containers.Chain
