import Containers.Proofs.ChainedMap.Invariant
import Mathlib.Data.Set.Card

/-!
# A map is a partial function

Seen from outside, a map is a partial function from key bytes to payloads: a `Table`. An operation
on a table reads or changes it at the bytes of one key (`Table.step`). A map answers every
operation as its table does and goes to the map of the new table (`Operation.apply_lookup`), so a
run of operations answers as the run of the table (`run_lookup`). The hash and the number of
buckets do not occur on the side of the table. That is why they cannot matter to the answers, only
to the order in which the entries come out.
-/

namespace Containers

/-- A partial function from the bytes of keys to payloads. -/
abbrev Table (V : Type) := ByteString → Option V

namespace Table

open ChainedMap (Operation Answer)

variable {κ V : Type} [MapKey κ]

/-- The table that has nothing. -/
def empty : Table V := fun _ => none

/-- One operation on a table. -/
def step (table : Table V) : Operation κ V → Table V × Answer V
  | .set key payload =>
    (Function.update table (MapKey.encode key) (some payload),
      .found (table (MapKey.encode key)))
  | .get key => (table, .found (table (MapKey.encode key)))
  | .tryGet key =>
    (table, .required ((table (MapKey.encode key)).elim (.error .keyNotFound) .ok))
  | .getOr key fallback => (table, .payload ((table (MapKey.encode key)).getD fallback))
  | .contains key => (table, .present (table (MapKey.encode key)).isSome)
  | .remove key =>
    (Function.update table (MapKey.encode key) none, .found (table (MapKey.encode key)))
  | .clear => (empty, .done)

/-- Operations on a table in order, with all their answers. -/
def run (table : Table V) : List (Operation κ V) → Table V × List (Answer V)
  | [] => (table, [])
  | operation :: operations =>
    let (next, answer) := table.step operation
    let (last, answers) := run next operations
    (last, answer :: answers)

/-- A map has as many entries as the table has keys, and its entries are the pairs of the table,
each of them once. -/
structure Describes (table : Table V) (m : ChainedMap κ V) : Prop where
  size : {bytes | (table bytes).isSome}.encard = m.len
  once : m.entries.Nodup
  pairs : ∀ entry, entry ∈ m.entries ↔ table entry.key = some entry.payload

end Table

namespace ChainedMap

variable {κ V : Type} [MapKey κ] {hash : KeyHash} {buckets : Nat} {m : ChainedMap κ V}

/-! ## The entries of a map -/

omit [MapKey κ] in
/-- The entries of a map are those of its chains, bucket by bucket. -/
theorem entries_eq_flatten (m : ChainedMap κ V) : m.entries = m.directory.toList.flatten := by
  rw [entries, Walk.toList_eq_remaining]
  rfl

namespace Intact

/-- The entries are the pairs that a lookup finds. -/
theorem mem_entries_iff (h : Intact hash buckets m) (entry : Entry V) :
    entry ∈ m.entries ↔ m.lookup entry.key = some entry.payload := by
  rw [entries_eq_flatten]
  constructor
  · intro hentry
    rw [lookup, Chain.find?_of_mem (h.chainOf entry.key).distinct (h.mem_chainOf hentry),
      Option.map_some]
  · intro hlookup
    obtain ⟨⟨bytes, payload⟩, hfound, hpayload⟩ := Option.map_eq_some_iff.1 hlookup
    obtain ⟨hmem, hkey⟩ := Chain.of_find?_eq_some hfound
    cases hkey
    cases hpayload
    exact List.mem_flatten.2 ⟨_, by simp [ChainedMap.chainOf], hmem⟩

/-- A map has as many entries as it counts. -/
theorem length_entries (h : Intact hash buckets m) : m.entries.length = m.len := by
  rw [h.counted, entries_eq_flatten, List.length_flatten]

/-- No two entries of a map have the same key. -/
theorem distinct_entries (h : Intact hash buckets m) : (Chain.keys m.entries).Nodup := by
  rw [entries_eq_flatten]
  exact h.distinct

/-- A map has as many keys as it counts entries. -/
theorem card_keys_entries (h : Intact hash buckets m) :
    (Chain.keys m.entries).toFinset.card = m.len := by
  rw [List.toFinset_card_of_nodup h.distinct_entries, Chain.keys, List.length_map, h.length_entries]

/-- The count of a map is the number of keys that a lookup finds. -/
theorem encard_lookup (h : Intact hash buckets m) :
    {bytes | (m.lookup bytes).isSome}.encard = m.len := by
  have hdomain : {bytes | (m.lookup bytes).isSome} = ((Chain.keys m.entries).toFinset : Set _) := by
    ext bytes
    simp only [Set.mem_ofPred_eq, List.coe_toFinset, Option.isSome_iff_exists]
    constructor
    · rintro ⟨payload, hpayload⟩
      exact Chain.mem_keys_of_mem ((h.mem_entries_iff ⟨bytes, payload⟩).2 hpayload)
    · intro hbytes
      obtain ⟨entry, hentry, rfl⟩ := List.mem_map.1 hbytes
      exact ⟨_, (h.mem_entries_iff entry).1 hentry⟩
  rw [hdomain, Set.encard_coe_eq_coe_finsetCard, h.card_keys_entries]

/-- An intact map is described by the table of what it finds. -/
theorem describes (h : Intact hash buckets m) : Table.Describes m.lookup m where
  size := h.encard_lookup
  once := List.Nodup.of_map _ h.distinct_entries
  pairs := h.mem_entries_iff

end Intact

/-! ## Operations -/

/-- An operation answers as it does on the table of the map, and leads to the new table. -/
theorem Intact.apply_lookup (h : Intact hash buckets m) (operation : Operation κ V) :
    ((operation.apply m).1.lookup, (operation.apply m).2) = Table.step m.lookup operation := by
  cases operation with
  | set key payload =>
    obtain ⟨hanswer, hlookup⟩ := m.lookup_set key payload
    simp only [Operation.apply, Table.step, hanswer, hlookup]
  | remove key =>
    obtain ⟨hanswer, hlookup⟩ := m.lookup_remove key (h.chainOf _).distinct
    simp only [Operation.apply, Table.step, hanswer, hlookup]
  | tryGet key =>
    simp only [Operation.apply, Table.step, ChainedMap.get]
    rw [show m.get? key = m.lookup (MapKey.encode key) from rfl]
    cases m.lookup (MapKey.encode key) <;> rfl
  | clear =>
    have hempty : m.clear.lookup = Table.empty := funext m.lookup_clear
    simp only [Operation.apply, Table.step, hempty]
  | get | getOr | contains => rfl

/-- A run of operations answers as it does on the table of the map. -/
theorem Intact.run_lookup (h : Intact hash buckets m) (operations : List (Operation κ V)) :
    ((m.run operations).1.lookup, (m.run operations).2) = Table.run m.lookup operations := by
  induction operations generalizing m with
  | nil => rfl
  | cons operation operations ih =>
    have hrun := ih (h.apply operation)
    simp only [Table.run, ← h.apply_lookup operation, ← hrun]
    rfl

/-! ## Runs on a new map -/

/-- After any run of operations, a new map is described by the table that the run leads to, and it
has given the table's answers. -/
theorem describes_run [Allocator] {positive : 0 < buckets}
    (hm : ChainedMap.create hash buckets positive = .ok m) (operations : List (Operation κ V)) :
    (m.run operations).2 = (Table.run .empty operations).2 ∧
      (Table.run .empty operations).1.Describes (m.run operations).1 := by
  have h := Intact.create hm
  have hrun := h.run_lookup operations
  rw [show m.lookup = Table.empty from funext (lookup_create hm)] at hrun
  rw [← hrun]
  exact ⟨rfl, (h.run operations).describes⟩

omit [MapKey κ] in
/-- Maps described by the same table have the same count, and the same entries up to order. -/
theorem perm_entries_of_describes {other : ChainedMap κ V} {table : Table V}
    (hm : table.Describes m) (hother : table.Describes other) :
    other.len = m.len ∧ other.entries.Perm m.entries := by
  refine ⟨?_, ?_⟩
  · have hlen := hother.size.symm.trans hm.size
    exact_mod_cast hlen
  · rw [List.perm_ext_iff_of_nodup hother.once hm.once]
    exact fun entry => (hother.pairs entry).trans (hm.pairs entry).symm

/-- A new map refines the empty table, whatever its hash and its number of buckets: each operation
of a run gets the table's answer, and after each step the map has the table's size and its entries
are the table's pairs, each of them once. So a map with another hash and another number of buckets
gives the same answers to the same operations, and has the same count and the same entries up to
order after each step. -/
theorem run_refines_table [Allocator] {positive : 0 < buckets}
    (hm : ChainedMap.create hash buckets positive = .ok m) (operations : List (Operation κ V)) :
    (m.run operations).2 = (Table.run .empty operations).2 ∧
      (∀ steps, (Table.run .empty (operations.take steps)).1.Describes
        (m.run (operations.take steps)).1) ∧
      ∀ (hash' : KeyHash) (buckets' : Nat) (positive' : 0 < buckets') (other : ChainedMap κ V),
        ChainedMap.create hash' buckets' positive' = .ok other →
        (other.run operations).2 = (m.run operations).2 ∧
        ∀ steps,
          (other.run (operations.take steps)).1.len = (m.run (operations.take steps)).1.len ∧
          (other.run (operations.take steps)).1.entries.Perm
            (m.run (operations.take steps)).1.entries := by
  refine ⟨(describes_run hm operations).1, fun steps => (describes_run hm _).2, ?_⟩
  intro hash' buckets' positive' other hother
  refine ⟨?_, fun steps => ?_⟩
  · rw [(describes_run hother operations).1, (describes_run hm operations).1]
  · exact perm_entries_of_describes (describes_run hm _).2 (describes_run hother _).2

/-- Keys that all share the one bucket of a map and do not in the other, stored, replaced and
removed. -/
theorem run_refines_table_collisions :
    ∃ m other : ChainedMap (Scalar 1) UInt64,
      ChainedMap.create (.constant 7) 1 (by decide) = .ok m ∧
      ChainedMap.create .top 5 (by decide) = .ok other ∧
      ∃ operations : List (Operation (Scalar 1) UInt64),
        operations = [.set 1 10, .set 2 20, .set 1 30, .remove 2, .get 1, .tryGet 2, .set 3 40] ∧
        (m.run operations).1.entries = [⟨[3], 40⟩, ⟨[1], 30⟩] ∧
        (m.run operations).2 = (Table.run .empty operations).2 ∧
        (other.run operations).2 = (m.run operations).2 ∧
        (other.run (operations.take 3)).1.entries.Perm (m.run (operations.take 3)).1.entries := by
  let m : ChainedMap (Scalar 1) UInt64 := ⟨.constant 7, #[[]], by decide, 0⟩
  let other : ChainedMap (Scalar 1) UInt64 := ⟨.top, #[[], [], [], [], []], by decide, 0⟩
  have hm : ChainedMap.create (.constant 7) 1 (by decide) = .ok m := rfl
  have hother : ChainedMap.create .top 5 (by decide) = .ok other := rfl
  refine ⟨m, other, hm, hother, _, rfl, by rw [entries_eq_flatten]; decide, ?_⟩
  obtain ⟨hanswers, -, hsame⟩ := run_refines_table hm
    [.set 1 10, .set 2 20, .set 1 30, .remove 2, .get 1, .tryGet 2, .set 3 40]
  obtain ⟨hothers, hentries⟩ := hsame .top 5 (by decide) other hother
  exact ⟨hanswers, hothers, (hentries 3).2⟩

end ChainedMap

end Containers
