import Containers.Word

/-!
# Growth of capacities

A full array gains half its capacity, and at least four slots. The rule is `nextCapacity`, which
has no answer when the new capacity would not fit in a word; `capacitySteps` applies it repeatedly.
`nextCapacity_eq_some` and `nextCapacity_eq_none` read the rule over the natural numbers.
-/

namespace Containers

/-- The capacity of an array that was not given one. -/
def usualCapacity : UInt64 := 16

/-- The least number of slots that a growing array gains. -/
def leastGrowth : UInt64 := 4

/-- The capacity after one step of growth, or nothing if it does not fit in a word. -/
def nextCapacity (capacity : UInt64) : Option UInt64 :=
  checkedAdd capacity (max leastGrowth (capacity / 2))

/-- What a capacity gains, as a natural number: half of it, and at least four. -/
theorem toNat_max_leastGrowth (capacity : UInt64) :
    (max leastGrowth (capacity / 2)).toNat = max 4 (capacity.toNat / 2) := by
  have hfour : leastGrowth.toNat = 4 := rfl
  have hhalf : (capacity / 2).toNat = capacity.toNat / 2 := UInt64.toNat_div capacity 2
  rw [← hfour, ← hhalf, Nat.max_def]
  show (if _ then _ else _ : UInt64).toNat = _
  simp only [UInt64.le_iff_toNat_le]
  split <;> rfl

/-- A capacity grows by half, and at least by four, if the sum is a word. -/
theorem nextCapacity_eq_some {capacity grown : UInt64} :
    nextCapacity capacity = some grown ↔
      grown.toNat = capacity.toNat + max 4 (capacity.toNat / 2) := by
  rw [nextCapacity, checkedAdd_eq_some, toNat_max_leastGrowth]

/-- A capacity cannot grow exactly if the sum is no word. -/
theorem nextCapacity_eq_none {capacity : UInt64} :
    nextCapacity capacity = none ↔ UInt64.size ≤ capacity.toNat + max 4 (capacity.toNat / 2) := by
  rw [nextCapacity, checkedAdd_eq_none, toNat_max_leastGrowth]

/-- The results of up to `steps` steps of growth from `capacity` on. The list ends early, with
nothing as its last item, if a capacity cannot grow. -/
def capacitySteps (capacity : UInt64) : (steps : Nat) → List (Option UInt64)
  | 0 => []
  | steps + 1 =>
    match nextCapacity capacity with
    | none => [none]
    | some grown => some grown :: capacitySteps grown steps

end Containers
