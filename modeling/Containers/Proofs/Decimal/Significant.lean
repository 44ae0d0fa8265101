import Containers.Decimal.General
import Containers.Proofs.Decimal.Nearest
import Mathlib.Data.Nat.Log

/-!
# Rounding to significant digits

A positive number has a leading exponent: the power of ten that its first digit counts for. Rounded
to significant digits it is a whole number of units of a smaller power of ten, as many below the
leading one as there are places (`Significant`); if the rounding carries to a further digit, that
is a one and the exponent goes up by one. Every positive number has exactly one such rounding
(`exists_significant`, `Significant.unique`), and scientific notation shows it
(`significant_scientific`). Its digits are the nearest whole number also when they are counted in
the unit that a carry leads to (`Significant.nearestEven`), so a second rounding of the exact
number at that unit meets the same digits. A larger number is not rounded to a smaller one, although
the unit changes at each power of ten (`Significant.value_mono`).
-/

namespace Containers.Decimal

/-- The first digit of `q` counts for ten to the power `exponent`. -/
def Leads (q : ℚ) (exponent : ℤ) : Prop := 10 ^ exponent ≤ q ∧ q < 10 ^ (exponent + 1)

/-- Rounded to one digit and `places` more, `q` is `mantissa` units, the first digit of which counts
for ten to the power `exponent`. -/
inductive Significant (places : ℕ) (q : ℚ) : ℕ → ℤ → Prop where
  /-- The nearest number of units has the digits asked for. -/
  | plain {mantissa : ℕ} {exponent : ℤ} (hleads : Leads q exponent)
    (hnear : NearestEven (q * 10 ^ (places - exponent)) mantissa)
    (hdigits : mantissa < 10 ^ (places + 1)) : Significant places q mantissa exponent
  /-- The nearest number of units has one digit more: it is a power of ten. -/
  | carry {exponent : ℤ} (hleads : Leads q exponent)
    (hnear : NearestEven (q * 10 ^ (places - exponent)) (10 ^ (places + 1))) :
    Significant places q (10 ^ places) (exponent + 1)

/-! ## The leading exponent -/

/-- The first digit of a greater number does not count for less. -/
theorem Leads.mono {q q' : ℚ} {e f : ℤ} (he : Leads q e) (hf : Leads q' f) (hle : q ≤ q') :
    e ≤ f := by
  have hlt : e < f + 1 :=
    (zpow_lt_zpow_iff_right₀ (by norm_num)).1 ((he.1.trans hle).trans_lt hf.2)
  omega

/-- A number has one leading exponent. -/
theorem Leads.unique {q : ℚ} {e f : ℤ} (he : Leads q e) (hf : Leads q f) : e = f :=
  le_antisymm (he.mono hf le_rfl) (hf.mono he le_rfl)

/-- The number of digits is one more than the logarithm to the base ten. -/
theorem digitCount_eq_log (n : ℕ) : digitCount n = Nat.log 10 n + 1 := by
  induction n using Nat.strongRecOn with
  | ind n ih =>
    rw [digitCount]
    split
    next hlt => rw [Nat.log_of_lt hlt]
    next hge =>
      have hten : 10 ≤ n := Nat.le_of_not_lt hge
      rw [ih (n / 10) (by omega), Nat.log_of_one_lt_of_le (by decide) hten]

/-- A number of so many digits lies between the powers of ten. -/
theorem exists_pow_digitCount {n : ℕ} (hn : n ≠ 0) :
    ∃ k, digitCount n = k + 1 ∧ 10 ^ k ≤ n ∧ n + 1 ≤ 10 ^ (k + 1) :=
  ⟨Nat.log 10 n, digitCount_eq_log n, Nat.pow_log_le_self 10 hn,
    Nat.lt_pow_succ_log_self (by decide) n⟩

/-- The leading exponent is found by counting the digits of the quotient, or of its inverse. -/
theorem leads_leadingExponent {num den : ℕ} (hnum : 0 < num) (hden : 0 < den) :
    Leads (num / den) (leadingExponent num den) := by
  have hpos : (0 : ℚ) < den := Nat.cast_pos.2 hden
  unfold leadingExponent
  split
  next hge =>
    obtain ⟨k, hcount, hlow, hhigh⟩ :=
      exists_pow_digitCount (Nat.div_pos hge hden).ne'
    have hexponent : ((digitCount (num / den) : ℕ) : ℤ) - 1 = (k : ℤ) := by omega
    rw [Leads, hexponent, le_div_iff₀ hpos, div_lt_iff₀ hpos]
    have hfloor : 10 ^ k * den ≤ num :=
      (Nat.mul_le_mul_right den hlow).trans (Nat.div_mul_le_self num den)
    have hceil : num < 10 ^ (k + 1) * den :=
      Nat.lt_mul_of_div_lt (Nat.lt_of_succ_le hhigh) hden
    exact ⟨by exact_mod_cast hfloor, by exact_mod_cast hceil⟩
  next hlt =>
    obtain ⟨k, hcount, hlow, hhigh⟩ :=
      exists_pow_digitCount (n := (den - 1) / num) (Nat.div_pos (by omega) hnum).ne'
    have hexponent : -((digitCount ((den - 1) / num) : ℕ) : ℤ) = -((k + 1 : ℕ) : ℤ) := by omega
    rw [Leads, hexponent, le_div_iff₀ hpos, div_lt_iff₀ hpos]
    have hfloor : den ≤ 10 ^ (k + 1) * num := by
      have hbelow := (Nat.lt_mul_div_succ (den - 1) hnum).trans_le (Nat.mul_le_mul_left num hhigh)
      rw [Nat.mul_comm]
      omega
    have hceil : 10 ^ k * num < den := by
      have habove := (Nat.mul_le_mul_left num hlow).trans (Nat.mul_div_le (den - 1) num)
      rw [Nat.mul_comm]
      omega
    rw [show -((k + 1 : ℕ) : ℤ) + 1 = -(k : ℤ) by omega, zpow_neg, zpow_neg, zpow_natCast,
      zpow_natCast, inv_mul_le_iff₀ (by positivity), lt_inv_mul_iff₀ (by positivity)]
    exact ⟨by exact_mod_cast hfloor, by exact_mod_cast hceil⟩

/-- Counted in units of the last place, a number has between as many digits as asked for and one
more. -/
theorem Leads.units_bounds {q : ℚ} {exponent : ℤ} (hleads : Leads q exponent) (places : ℕ) :
    ((10 ^ places : ℕ) : ℚ) ≤ q * 10 ^ (places - exponent) ∧
      q * 10 ^ (places - exponent) ≤ (10 ^ (places + 1) : ℕ) := by
  have hunit : (0 : ℚ) < 10 ^ ((places : ℤ) - exponent) := by positivity
  obtain ⟨hlow, hhigh⟩ := hleads
  have hlow' := mul_le_mul_of_nonneg_right hlow hunit.le
  have hhigh' := mul_le_mul_of_nonneg_right hhigh.le hunit.le
  rw [← zpow_add₀ (by norm_num)] at hlow' hhigh'
  rw [show exponent + ((places : ℤ) - exponent) = (places : ℕ) by omega, zpow_natCast] at hlow'
  rw [show exponent + 1 + ((places : ℤ) - exponent) = (places + 1 : ℕ) by omega,
    zpow_natCast] at hhigh'
  exact ⟨by exact_mod_cast hlow', by exact_mod_cast hhigh'⟩

/-! ## The rounding -/

namespace Significant

variable {places : ℕ} {q : ℚ} {mantissa mantissa' : ℕ} {exponent exponent' : ℤ}

/-- The mantissa has one digit and as many more as there are places. -/
theorem bounds (h : Significant places q mantissa exponent) :
    10 ^ places ≤ mantissa ∧ mantissa < 10 ^ (places + 1) := by
  cases h with
  | plain hleads hnear hdigits => exact ⟨hnear.le_of_le (hleads.units_bounds places).1, hdigits⟩
  | carry hleads hnear => exact ⟨le_rfl, Nat.pow_lt_pow_right (by decide) (by omega)⟩

/-- The significant digits of a number are determined, and so is its exponent. -/
theorem unique (h : Significant places q mantissa exponent)
    (h' : Significant places q mantissa' exponent') :
    mantissa = mantissa' ∧ exponent = exponent' := by
  cases h with
  | plain hleads hnear hdigits =>
    cases h' with
    | plain hleads' hnear' hdigits' =>
      obtain rfl := hleads.unique hleads'
      exact ⟨hnear.unique hnear', rfl⟩
    | carry hleads' hnear' =>
      obtain rfl := hleads.unique hleads'
      exact absurd (hnear.unique hnear') hdigits.ne
  | carry hleads hnear =>
    cases h' with
    | plain hleads' hnear' hdigits' =>
      obtain rfl := hleads.unique hleads'
      exact absurd (hnear'.unique hnear) hdigits'.ne
    | carry hleads' hnear' =>
      obtain rfl := hleads.unique hleads'
      exact ⟨rfl, rfl⟩

/-- The mantissa is the nearest whole number in the unit that its exponent leads to, also after a
carry: ten of the smaller units are one of the larger, and what was within half a smaller one is
within half a larger one. -/
theorem nearestEven (h : Significant places q mantissa exponent) :
    NearestEven (q * 10 ^ (places - exponent)) mantissa := by
  cases h with
  | plain hleads hnear hdigits => exact hnear
  | @carry exponent hleads hnear =>
    have hunit : q * 10 ^ ((places : ℤ) - (exponent + 1)) =
        q * 10 ^ ((places : ℤ) - exponent) / 10 := by
      rw [show (places : ℤ) - (exponent + 1) = places - exponent - 1 by omega,
        zpow_sub_one₀ (by norm_num)]
      ring
    have hnear := hnear.near
    rw [hunit]
    refine .of_abs_lt (abs_lt.2 ?_)
    rw [abs_le] at hnear
    push_cast [pow_succ] at hnear ⊢
    constructor <;> linarith [hnear.1, hnear.2]

end Significant

/-- Scientific notation has the digits of the rounding. -/
theorem significant_scientific (places : ℕ) {num den : ℕ} (hnum : 0 < num) (hden : 0 < den) :
    Significant places (num / den) (scientific places num den).1
      (scientific places num den).2 := by
  have hleads := leads_leadingExponent hnum hden
  have hnear := nearestEven_roundDecimal num hden (places - leadingExponent num den)
  rw [scientific, if_neg hnum.ne']
  dsimp only
  split
  next hcarry => exact .carry hleads (hcarry ▸ hnear)
  next hplain =>
    exact .plain hleads hnear
      (lt_of_le_of_ne (hnear.le_of_ge (hleads.units_bounds places).2) hplain)

/-- Every positive number can be rounded. -/
theorem exists_significant (places : ℕ) {q : ℚ} (hq : 0 < q) :
    ∃ mantissa exponent, Significant places q mantissa exponent := by
  have hnum : 0 < q.num := Rat.num_pos.2 hq
  have hquotient : (q.num.toNat : ℚ) / q.den = q := by
    rw [← Int.cast_natCast, Int.toNat_of_nonneg hnum.le, Rat.num_div_den]
  have h := significant_scientific places (Int.lt_toNat.2 hnum) q.den_pos
  rw [hquotient] at h
  exact ⟨_, _, h⟩

/-! ## Order -/

namespace Significant

variable {places : ℕ} {q q' : ℚ} {mantissa mantissa' : ℕ} {exponent exponent' : ℤ}

/-- Only positive numbers have significant digits. -/
theorem pos (h : Significant places q mantissa exponent) : 0 < q := by
  cases h with
  | plain hleads => exact (zpow_pos (by norm_num) _).trans_le hleads.1
  | carry hleads => exact (zpow_pos (by norm_num) _).trans_le hleads.1

/-- The leading exponent after the rounding keeps the order. A number that carries to the next one
is not below a number of the same leading exponent that does not. -/
theorem exponent_mono (h : Significant places q mantissa exponent)
    (h' : Significant places q' mantissa' exponent') (hle : q ≤ q') : exponent ≤ exponent' := by
  cases h with
  | plain hleads hnear hdigits =>
    cases h' with
    | plain hleads' hnear' hdigits' => exact hleads.mono hleads' hle
    | carry hleads' hnear' => exact (hleads.mono hleads' hle).trans (Int.le_add_one le_rfl)
  | @carry exponent hleads hnear =>
    cases h' with
    | plain hleads' hnear' hdigits' =>
      rcases (hleads.mono hleads' hle).lt_or_eq with hlt | heq
      · exact hlt
      · subst heq
        have hscaled := mul_le_mul_of_nonneg_right hle
          (show (0 : ℚ) ≤ 10 ^ ((places : ℤ) - exponent) by positivity)
        exact absurd (hnear.mono hnear' hscaled) (not_le.2 hdigits')
    | carry hleads' hnear' => exact Int.add_le_add_right (hleads.mono hleads' hle) 1

/-- So many digits as a number: the first of them counts for the exponent. -/
theorem leads_value (h : Significant places q mantissa exponent) :
    Leads (mantissa * 10 ^ (exponent - places)) exponent := by
  obtain ⟨hlow, hhigh⟩ := h.bounds
  have hlow' : ((10 ^ places : ℕ) : ℚ) ≤ mantissa := Nat.cast_le.2 hlow
  have hhigh' : (mantissa : ℚ) < (10 ^ (places + 1) : ℕ) := Nat.cast_lt.2 hhigh
  have hunit : (0 : ℚ) < 10 ^ (exponent - places) := by positivity
  constructor
  · calc (10 : ℚ) ^ exponent = (10 ^ places : ℕ) * 10 ^ (exponent - places) := by
          push_cast
          rw [← zpow_natCast, ← zpow_add₀ (by norm_num), add_sub_cancel]
      _ ≤ mantissa * 10 ^ (exponent - places) := by gcongr
  · calc (mantissa : ℚ) * 10 ^ (exponent - places) <
          (10 ^ (places + 1) : ℕ) * 10 ^ (exponent - places) := by gcongr
      _ = 10 ^ (exponent + 1) := by
          push_cast
          rw [← zpow_natCast, ← zpow_add₀ (by norm_num)]
          congr 1
          push_cast
          omega

/-- The number that significant digits stand for is positive. -/
theorem value_pos (h : Significant places q mantissa exponent) :
    (0 : ℚ) < mantissa * 10 ^ (exponent - places) :=
  (zpow_pos (by norm_num) _).trans_le h.leads_value.1

/-- The rounded numbers keep the order, also where their units differ. -/
theorem value_mono (h : Significant places q mantissa exponent)
    (h' : Significant places q' mantissa' exponent') (hle : q ≤ q') :
    (mantissa : ℚ) * 10 ^ (exponent - places) ≤ mantissa' * 10 ^ (exponent' - places) := by
  rcases (h.exponent_mono h' hle).lt_or_eq with hlt | heq
  · calc (mantissa : ℚ) * 10 ^ (exponent - places) ≤ 10 ^ (exponent + 1) := h.leads_value.2.le
      _ ≤ 10 ^ exponent' := zpow_le_zpow_right₀ (by norm_num) hlt
      _ ≤ mantissa' * 10 ^ (exponent' - places) := h'.leads_value.1
  · subst heq
    have hscaled := mul_le_mul_of_nonneg_right hle
      (show (0 : ℚ) ≤ 10 ^ ((places : ℤ) - exponent) by positivity)
    have hunits : (mantissa : ℚ) ≤ mantissa' :=
      Nat.cast_le.2 (h.nearestEven.mono h'.nearestEven hscaled)
    gcongr

/-- Different digits, or a different exponent, make a different number. -/
theorem eq_of_value_eq (h : Significant places q mantissa exponent)
    (h' : Significant places q' mantissa' exponent')
    (heq : (mantissa : ℚ) * 10 ^ (exponent - places) = mantissa' * 10 ^ (exponent' - places)) :
    mantissa = mantissa' ∧ exponent = exponent' := by
  have hleads := h.leads_value
  rw [heq] at hleads
  obtain rfl := hleads.unique h'.leads_value
  have hunit : (10 : ℚ) ^ (exponent - places) ≠ 0 := by positivity
  exact ⟨Nat.cast_injective (mul_right_cancel₀ hunit heq), rfl⟩

end Significant

end Containers.Decimal
