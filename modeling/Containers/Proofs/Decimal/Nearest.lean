import Containers.Decimal.Rounding
import Mathlib.Algebra.Order.Field.Rat
import Mathlib.Algebra.Order.Field.Power
import Mathlib.Tactic.FieldSimp
import Mathlib.Tactic.Linarith
import Mathlib.Tactic.Positivity
import Mathlib.Tactic.Ring

/-!
# The nearest whole number

Rounding to nearest with ties to even, said of exact rational numbers without any division with
remainder (`NearestEven`). At most one number is nearest (`NearestEven.unique`), and a rounded
quotient is (`nearestEven_roundQuotient`), so what else is known of the nearest number is known of
the rounded quotient: it does not leave the whole numbers that enclose the quotient, and it is the
same however often the quotient is reduced.
-/

namespace Containers

/-- `n` is the whole number nearest to `q`; of two equally near ones, it is the even one. -/
structure NearestEven (q : ℚ) (n : ℕ) : Prop where
  near : |q - n| ≤ 1 / 2
  even_of_tie : |q - n| = 1 / 2 → Even n

namespace NearestEven

variable {q : ℚ} {m n k : ℕ}

/-- A quotient is at most half a unit above the nearest number. -/
theorem le_add_half (h : NearestEven q n) : q ≤ n + 1 / 2 := by
  linarith [(abs_le.1 h.near).2]

/-- A quotient is at most half a unit below the nearest number. -/
theorem sub_half_le (h : NearestEven q n) : n - 1 / 2 ≤ q := by
  linarith [(abs_le.1 h.near).1]

/-- A whole number below the quotient is not above the nearest one. -/
theorem le_of_le (h : NearestEven q n) (hk : (k : ℚ) ≤ q) : k ≤ n := by
  have hlt : (k : ℚ) < (n + 1 : ℕ) := by
    push_cast
    linarith [h.le_add_half]
  exact Nat.lt_succ_iff.1 (Nat.cast_lt.1 hlt)

/-- A whole number above the quotient is not below the nearest one. -/
theorem le_of_ge (h : NearestEven q n) (hk : q ≤ k) : n ≤ k := by
  have hlt : (n : ℚ) < (k + 1 : ℕ) := by
    push_cast
    linarith [h.sub_half_le]
  exact Nat.lt_succ_iff.1 (Nat.cast_lt.1 hlt)

/-- Two different numbers are both nearest only half way between them, and one of two neighbors is
odd. -/
theorem le (hm : NearestEven q m) (hn : NearestEven q n) : m ≤ n := by
  by_contra hlt
  have hsucc : ((n + 1 : ℕ) : ℚ) ≤ m := Nat.cast_le.2 (Nat.lt_of_not_le hlt)
  push_cast at hsucc
  have hlow := hm.sub_half_le
  have hhigh := hn.le_add_half
  have hnext : m = n + 1 := by
    have : (m : ℚ) = (n + 1 : ℕ) := by
      push_cast
      linarith
    exact Nat.cast_injective this
  have hq : q = n + 1 / 2 := by linarith
  have hevenN : Even n := hn.even_of_tie (by rw [hq, add_sub_cancel_left, abs_of_pos (by norm_num)])
  have hevenM : Even m := hm.even_of_tie (by
    rw [hq, hnext]
    push_cast
    rw [show (n : ℚ) + 1 / 2 - (n + 1) = -(1 / 2) by ring, abs_neg, abs_of_pos (by norm_num)])
  rw [hnext, Nat.even_add_one] at hevenM
  exact hevenM hevenN

/-- There is only one nearest number, since ties go to the even one. -/
theorem unique (hm : NearestEven q m) (hn : NearestEven q n) : m = n :=
  Nat.le_antisymm (hm.le hn) (hn.le hm)

/-- Rounding keeps the order. Where it might not, both quotients are the same point half way. -/
theorem mono {q' : ℚ} (hm : NearestEven q m) (hn : NearestEven q' n) (hq : q ≤ q') : m ≤ n := by
  by_contra hlt
  have hsucc : ((n + 1 : ℕ) : ℚ) ≤ m := Nat.cast_le.2 (Nat.lt_of_not_le hlt)
  push_cast at hsucc
  have heq : q = q' := le_antisymm hq (by linarith [hm.sub_half_le, hn.le_add_half])
  subst heq
  exact hlt (hm.le hn)

/-- A whole number is nearest to itself. -/
theorem self (n : ℕ) : NearestEven n n := by
  constructor <;> simp

/-- Whole numbers are a unit apart. -/
theorem one_le_abs_add_abs (q : ℚ) (hne : k ≠ n) : 1 ≤ |q - n| + |q - k| := by
  have hapart : (1 : ℚ) ≤ |(n : ℚ) - k| := by
    exact_mod_cast Int.one_le_abs (sub_ne_zero.2 (Nat.cast_injective.ne hne.symm))
  calc (1 : ℚ) ≤ |(n : ℚ) - k| := hapart
    _ ≤ |(n : ℚ) - q| + |q - k| := abs_sub_le _ _ _
    _ = |q - n| + |q - k| := by rw [abs_sub_comm]

/-- No whole number is nearer than the nearest one. -/
theorem not_farther (h : NearestEven q n) (k : ℕ) : |q - n| ≤ |q - k| := by
  rcases eq_or_ne k n with rfl | hne
  · exact le_rfl
  · linarith [h.near, one_le_abs_add_abs q hne]

/-- A whole number as near as the nearest one is the same, or the nearest one is even. -/
theorem eq_or_even (h : NearestEven q n) (htie : |q - n| = |q - k|) : k = n ∨ Even n := by
  rcases eq_or_ne k n with heq | hne
  · exact .inl heq
  · have hhalf : |q - n| = 1 / 2 := by linarith [h.near, one_le_abs_add_abs q hne]
    exact .inr (h.even_of_tie hhalf)

/-- What is at most half a unit below an even number does not lead below it. -/
theorem le_of_even (h : NearestEven q n) (hk : Even k) (hq : k - 1 / 2 ≤ q) : k ≤ n := by
  by_contra hlt
  have hsucc : ((n + 1 : ℕ) : ℚ) ≤ k := Nat.cast_le.2 (Nat.lt_of_not_le hlt)
  push_cast at hsucc
  have hhigh := h.le_add_half
  have hnext : k = n + 1 := by
    have : (k : ℚ) = (n + 1 : ℕ) := by
      push_cast
      linarith
    exact Nat.cast_injective this
  have heven : Even n := h.even_of_tie (by
    rw [show q = n + 1 / 2 by linarith, add_sub_cancel_left, abs_of_pos (by norm_num)])
  rw [hnext, Nat.even_add_one] at hk
  exact hk heven

/-- What lies strictly within half a unit of a whole number is nearest to it. -/
theorem of_abs_lt (h : |q - n| < 1 / 2) : NearestEven q n :=
  ⟨le_of_lt h, fun heq => absurd heq (ne_of_lt h)⟩

/-- Less than half a unit beyond a whole number leads down to it. -/
theorem down {rest : ℚ} (hrest : 0 ≤ rest) (hhalf : rest < 1 / 2) : NearestEven (n + rest) n :=
  of_abs_lt (by rwa [add_sub_cancel_left, abs_of_nonneg hrest])

/-- More than half a unit beyond a whole number leads up to the next. -/
theorem up {rest : ℚ} (hhalf : 1 / 2 < rest) (hrest : rest < 1) :
    NearestEven (n + rest) (n + 1) := by
  refine of_abs_lt (abs_lt.2 ?_)
  push_cast
  constructor <;> linarith

/-- Just half a unit beyond a whole number leads to the even one of it and the next. -/
theorem tie (n : ℕ) : NearestEven (n + 1 / 2) (n + n % 2) := by
  have heven : Even (n + n % 2) := Nat.even_iff.2 (by omega)
  refine ⟨?_, fun _ => heven⟩
  have hparity : ((n % 2 : ℕ) : ℚ) ≤ 1 := by
    exact_mod_cast Nat.lt_succ_iff.1 (Nat.mod_lt n (by decide))
  have hnonneg : (0 : ℚ) ≤ (n % 2 : ℕ) := Nat.cast_nonneg _
  push_cast at hparity hnonneg ⊢
  rw [abs_le]
  constructor <;> linarith

end NearestEven

/-! ## Rounded quotients -/

/-- Splitting off the whole part of a quotient. -/
theorem cast_div_eq (num : ℕ) {den : ℕ} (hden : 0 < den) :
    (num : ℚ) / den = (num / den : ℕ) + (num % den : ℕ) / den := by
  have hpos : (0 : ℚ) < den := Nat.cast_pos.2 hden
  rw [div_eq_iff hpos.ne', add_mul, div_mul_cancel₀ _ hpos.ne']
  exact_mod_cast (Nat.div_add_mod' num den).symm

/-- Whether what is left over is less than half a unit can be seen from twice of it. -/
theorem cast_div_lt_half {rest den : ℕ} (hden : 0 < den) :
    (rest : ℚ) / den < 1 / 2 ↔ 2 * rest < den := by
  rw [div_lt_div_iff₀ (Nat.cast_pos.2 hden) two_pos, one_mul, mul_comm]
  exact_mod_cast Iff.rfl

/-- Whether what is left over is more than half a unit can be seen from twice of it. -/
theorem half_lt_cast_div {rest den : ℕ} (hden : 0 < den) :
    1 / 2 < (rest : ℚ) / den ↔ den < 2 * rest := by
  rw [div_lt_div_iff₀ two_pos (Nat.cast_pos.2 hden), one_mul, mul_comm]
  exact_mod_cast Iff.rfl

/-- The rounded quotient is the nearest whole number. -/
theorem nearestEven_roundQuotient (num : ℕ) {den : ℕ} (hden : 0 < den) :
    NearestEven (num / den) (roundQuotient num den) := by
  have hpos : (0 : ℚ) < den := Nat.cast_pos.2 hden
  have hone : ((num % den : ℕ) : ℚ) / den < 1 :=
    (div_lt_one hpos).2 (Nat.cast_lt.2 (Nat.mod_lt num hden))
  rw [cast_div_eq num hden, roundQuotient]
  split
  next hlow => exact .down (by positivity) ((cast_div_lt_half hden).2 hlow)
  next hnotLow =>
    split
    next hhigh => exact .up ((half_lt_cast_div hden).2 hhigh) hone
    next hnotHigh =>
      have hhalf : ((num % den : ℕ) : ℚ) / den = 1 / 2 :=
        le_antisymm (not_lt.1 (mt (half_lt_cast_div hden).1 hnotHigh))
          (not_lt.1 (mt (cast_div_lt_half hden).1 hnotLow))
      rw [hhalf]
      exact .tie _

/-- A power with an integer exponent is a quotient of powers, of which one is one. -/
theorem zpow_eq_div {base : ℚ} (hbase : base ≠ 0) (exponent : ℤ) :
    base ^ exponent = base ^ exponent.toNat / base ^ (-exponent).toNat := by
  rw [eq_div_iff (pow_ne_zero _ hbase), ← zpow_natCast, ← zpow_natCast, ← zpow_add₀ hbase]
  congr 1
  omega

/-- Scaling by a power before the division rounds the scaled quotient. -/
theorem nearestEven_scaled {base : ℕ} (hbase : 0 < base) (num : ℕ) {den : ℕ} (hden : 0 < den)
    (places : ℤ) :
    NearestEven (num / den * base ^ places)
      (roundQuotient (num * base ^ places.toNat) (den * base ^ (-places).toNat)) := by
  have hquotient : (num : ℚ) / den * base ^ places =
      (num * base ^ places.toNat : ℕ) / (den * base ^ (-places).toNat : ℕ) := by
    rw [zpow_eq_div (Nat.cast_ne_zero.2 hbase.ne'), div_mul_div_comm]
    push_cast
    rfl
  rw [hquotient]
  exact nearestEven_roundQuotient _ (Nat.mul_pos hden (Nat.pow_pos hbase))

/-- A number times a power of ten is rounded to the nearest whole number. -/
theorem nearestEven_roundDecimal (num : ℕ) {den : ℕ} (hden : 0 < den) (places : ℤ) :
    NearestEven (num / den * 10 ^ places) (roundDecimal num den places) :=
  nearestEven_scaled (by decide) num hden places

/-- A number times a power of two is rounded to the nearest whole number. -/
theorem nearestEven_roundBinary (num : ℕ) {den : ℕ} (hden : 0 < den) (places : ℤ) :
    NearestEven (num / den * 2 ^ places) (roundBinary num den places) :=
  nearestEven_scaled (by decide) num hden places

end Containers
