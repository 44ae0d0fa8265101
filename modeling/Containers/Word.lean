/-!
# Sizes in 64-bit words

Positions, counts and capacities are 64-bit words. An addition that may leave that range is either
checked (`checkedAdd`), so that overflow is a case of its own, or done on natural numbers and cut
off at the largest word (`saturate`). `toNat_of_checkedAdd` and `checkedAdd_eq_none` read the
checked addition over the natural numbers, and `toNat_saturate` the cut.
-/

namespace Containers

/-- The largest 64-bit word. -/
def wordMax : UInt64 := 18446744073709551615

/-- The word nearest to `n` from below: `n` itself, or the largest word if `n` is beyond it. -/
def saturate (n : Nat) : UInt64 := UInt64.ofNat (min n wordMax.toNat)

/-- The largest word is one less than the number of words. -/
theorem toNat_wordMax : wordMax.toNat = UInt64.size - 1 := rfl

/-- A number is cut off at the largest word. -/
theorem toNat_saturate (n : Nat) : (saturate n).toNat = min n (UInt64.size - 1) := by
  have : min n wordMax.toNat < UInt64.size := by rw [toNat_wordMax, UInt64.size]; omega
  rw [saturate, UInt64.toNat_ofNat_of_lt' this, toNat_wordMax]

/-- A number that is a word is not cut off. -/
theorem saturate_toNat (a : UInt64) : saturate a.toNat = a := by
  apply UInt64.toNat_inj.1
  have ha := a.toNat_lt
  rw [toNat_saturate, UInt64.size]
  omega

/-- A word below another one has a next word. -/
theorem toNat_succ_of_lt {a b : UInt64} (h : a.toNat < b.toNat) :
    (a + 1).toNat = a.toNat + 1 := by
  have hb := b.toNat_lt
  rw [UInt64.toNat_add, UInt64.toNat_one, Nat.mod_eq_of_lt (by omega)]

/-- The sum of two words, or nothing if it does not fit in a word. A sum that wraps around is
smaller than either summand. -/
def checkedAdd (a b : UInt64) : Option UInt64 :=
  if a + b < a then none else some (a + b)

/-- A checked sum is the sum of the numbers. -/
theorem toNat_of_checkedAdd {a b c : UInt64} (h : checkedAdd a b = some c) :
    c.toNat = a.toNat + b.toNat := by
  have ha := a.toNat_lt
  have hb := b.toNat_lt
  simp only [checkedAdd, UInt64.lt_iff_toNat_lt, UInt64.toNat_add] at h
  split at h
  · cases h
  · obtain rfl := Option.some.inj h
    rw [UInt64.toNat_add]
    omega

/-- The checked sum of two words is the word that is their sum as numbers, if there is one. -/
theorem checkedAdd_eq_some {a b c : UInt64} :
    checkedAdd a b = some c ↔ c.toNat = a.toNat + b.toNat := by
  refine ⟨toNat_of_checkedAdd, fun h => ?_⟩
  have hc := c.toNat_lt
  have hsum : a + b = c := by
    apply UInt64.toNat_inj.1
    rw [UInt64.toNat_add, ← h, Nat.mod_eq_of_lt hc]
  rw [checkedAdd, hsum, if_neg]
  rw [UInt64.lt_iff_toNat_lt]
  omega

/-- Two words have no checked sum exactly if their sum as numbers is no word. -/
theorem checkedAdd_eq_none {a b : UInt64} :
    checkedAdd a b = none ↔ UInt64.size ≤ a.toNat + b.toNat := by
  have ha := a.toNat_lt
  have hb := b.toNat_lt
  simp only [checkedAdd, UInt64.lt_iff_toNat_lt, UInt64.toNat_add, UInt64.size]
  split <;> simp <;> omega

end Containers
