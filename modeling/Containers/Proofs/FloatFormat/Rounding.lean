import Containers.Proofs.Decimal.Nearest
import Containers.Proofs.FloatFormat.Numbers

/-!
# Rounding to the numbers of a format

A positive number is rounded at a scale: the finest one that leaves it room for its digits and that
the format has. There it comes to the nearest whole number of units (`Rounds`). The scale and the
units are unique and follow the order of the numbers (`Rounds.mono`, `Rounds.unique`). No number of
the format is nearer than the one they make (`Rounds.not_farther`): at the same scale or a coarser
one it is a whole number of units too, and at a finer one it lies beyond a power of two from which
the scale starts. The units of a number of the format are its mantissa (`Number.rounds`), so it is
left as it is. From a threshold on, the units lead beyond the largest number
(`Rounds.infinityBits_le_iff`).
-/

namespace Containers.FloatFormat

-- Powers are the numbers' own, also where those of monoids are known.
attribute [local instance (high)] instPowNat

variable {format : FloatFormat} {q q' : ℚ} {scale scale' : ℤ} {units units' : ℕ}

/-- At the scale that belongs to its size, `q` is rounded to so many units. -/
structure Rounds (format : FloatFormat) (q : ℚ) (scale : ℤ) (units : ℕ) : Prop where
  least : format.leastExponent ≤ scale
  lt : q < 2 ^ (format.fractionBits + 1 + scale)
  ge : format.leastExponent < scale → 2 ^ (format.fractionBits + scale) ≤ q
  near : NearestEven (q * 2 ^ (-scale)) units

/-- A format with a fraction, and with exponents for more than zero and infinity. -/
structure Proper (format : FloatFormat) : Prop where
  fraction_pos : 0 < format.fractionBits
  two_le_top : 2 ≤ format.top

/-- From here on a number is rounded beyond the largest number of the format: half a unit below the
next power of two. -/
def threshold (format : FloatFormat) : ℚ :=
  (2 ^ (format.fractionBits + 1) - 1 / 2) * 2 ^ (format.leastExponent + (format.top - 2))

/-- The threshold is positive, so zero is never rounded to infinity. -/
theorem threshold_pos (format : FloatFormat) : 0 < format.threshold := by
  have hone : (1 : ℚ) ≤ 2 ^ (format.fractionBits + 1) := one_le_pow₀ (by norm_num)
  exact mul_pos (by linarith) (by positivity)

/-- The exponent of the largest numbers. -/
def lastExponent (format : FloatFormat) : ℤ := format.leastExponent + (format.top - 2)

/-! ## Places -/

/-- Units that fill up a scale are the first ones of the next. -/
theorem magnitudeBits_succ (hleast : format.leastExponent ≤ scale) :
    format.magnitudeBits (scale + 1) (2 ^ format.fractionBits) =
      format.magnitudeBits scale (2 ^ (format.fractionBits + 1)) := by
  rw [magnitudeBits, magnitudeBits, show (scale + 1 - format.leastExponent).toNat =
    (scale - format.leastExponent).toNat + 1 by omega, Nat.succ_mul, Nat.pow_succ]
  omega

/-- More units at no finer scale have no smaller place. -/
theorem magnitudeBits_mono (hscale : scale ≤ scale') (hunits : units ≤ units') :
    format.magnitudeBits scale units ≤ format.magnitudeBits scale' units' :=
  Nat.add_le_add (Nat.mul_le_mul_right _ (by omega)) hunits

/-- Infinity has the place behind the last scale. -/
theorem infinityBits_eq (hproper : format.Proper) :
    format.infinityBits =
      format.magnitudeBits format.lastExponent (2 ^ (format.fractionBits + 1)) := by
  obtain ⟨last, hlast⟩ : ∃ last, format.top = last + 2 :=
    Nat.exists_eq_add_of_le' hproper.two_le_top
  have hrow : (format.lastExponent - format.leastExponent).toNat = last := by
    rw [lastExponent, hlast]
    omega
  rw [magnitudeBits, hrow, infinityBits, hlast, Nat.add_mul, Nat.pow_succ, Nat.mul_comm 2]

/-! ## Powers of two -/

/-- Counting in units of a scale. -/
theorem units_mul_scale (q : ℚ) (scale : ℤ) : q * 2 ^ (-scale) * 2 ^ scale = q := by
  rw [mul_assoc, ← zpow_add₀ (by norm_num), neg_add_cancel, zpow_zero, mul_one]

/-- Powers of two are ordered as their exponents. -/
theorem two_zpow_le {i j : ℤ} (h : i ≤ j) : (2 : ℚ) ^ i ≤ 2 ^ j :=
  zpow_le_zpow_right₀ (by norm_num) h

/-- A power of two splits into whole units and a scale. -/
theorem two_zpow_natCast_add (n : ℕ) (scale : ℤ) :
    (2 : ℚ) ^ (n + scale) = (2 ^ n : ℕ) * 2 ^ scale := by
  rw [zpow_add₀ (by norm_num), zpow_natCast]
  push_cast
  rfl

namespace Rounds

/-- In units of its scale a number has a bounded count of digits. -/
theorem scaled_lt (h : format.Rounds q scale units) :
    q * 2 ^ (-scale) < (2 ^ (format.fractionBits + 1) : ℕ) := by
  have hlt := mul_lt_mul_of_pos_right h.lt (show (0 : ℚ) < 2 ^ (-scale) by positivity)
  rwa [← zpow_add₀ (by norm_num), add_neg_cancel_right,
    show (format.fractionBits : ℤ) + 1 = (format.fractionBits + 1 : ℕ) from rfl, zpow_natCast,
    ← Nat.cast_two, ← Nat.cast_pow] at hlt

/-- Beyond the least scale it has no fewer. -/
theorem le_scaled (h : format.Rounds q scale units) (hscale : format.leastExponent < scale) :
    ((2 ^ format.fractionBits : ℕ) : ℚ) ≤ q * 2 ^ (-scale) := by
  have hge := mul_le_mul_of_nonneg_right (h.ge hscale) (show (0 : ℚ) ≤ 2 ^ (-scale) by positivity)
  rwa [← zpow_add₀ (by norm_num), add_neg_cancel_right, zpow_natCast, ← Nat.cast_two,
    ← Nat.cast_pow] at hge

/-- A rounded number has no more units than fill up its scale. -/
theorem units_le (h : format.Rounds q scale units) : units ≤ 2 ^ (format.fractionBits + 1) :=
  h.near.le_of_ge h.scaled_lt.le

/-- Beyond the least scale, a rounded number has at least half as many units as fill it up. -/
theorem le_units (h : format.Rounds q scale units) (hscale : format.leastExponent < scale) :
    2 ^ format.fractionBits ≤ units :=
  h.near.le_of_le (h.le_scaled hscale)

/-! ## The order of the roundings -/

/-- A larger number is rounded at no finer scale, and at the same scale to no fewer units. -/
theorem mono (h : format.Rounds q scale units) (h' : format.Rounds q' scale' units')
    (hq : q ≤ q') : scale ≤ scale' ∧ (scale = scale' → units ≤ units') := by
  refine ⟨?_, fun heq => ?_⟩
  · by_contra hlt
    have hge := h.ge (lt_of_le_of_lt h'.least (Int.not_le.1 hlt))
    have hpow : (2 : ℚ) ^ (format.fractionBits + 1 + scale') ≤ 2 ^ (format.fractionBits + scale) :=
      two_zpow_le (by omega)
    linarith [h'.lt]
  · subst heq
    exact h.near.mono h'.near (mul_le_mul_of_nonneg_right hq (by positivity))

/-- The scale and the units that a number is rounded to are determined. -/
theorem unique (h : format.Rounds q scale units) (h' : format.Rounds q scale' units') :
    scale = scale' ∧ units = units' := by
  obtain ⟨hle, hunits⟩ := h.mono h' le_rfl
  obtain ⟨hge, hunits'⟩ := h'.mono h le_rfl
  have heq := le_antisymm hle hge
  exact ⟨heq, le_antisymm (hunits heq) (hunits' heq.symm)⟩

/-- The rounded numbers follow the order of the numbers. -/
theorem value_mono (h : format.Rounds q scale units) (h' : format.Rounds q' scale' units')
    (hq : q ≤ q') : (units : ℚ) * 2 ^ scale ≤ units' * 2 ^ scale' := by
  obtain ⟨hscale, hunits⟩ := h.mono h' hq
  rcases hscale.eq_or_lt with heq | hlt
  · have hle : (units : ℚ) ≤ units' := Nat.cast_le.2 (hunits heq)
    rw [heq]
    exact mul_le_mul_of_nonneg_right hle (by positivity)
  · have hmost : (units : ℚ) ≤ (2 ^ (format.fractionBits + 1) : ℕ) := Nat.cast_le.2 h.units_le
    have hleast : ((2 ^ format.fractionBits : ℕ) : ℚ) ≤ units' :=
      Nat.cast_le.2 (h'.le_units (lt_of_le_of_lt h.least hlt))
    calc (units : ℚ) * 2 ^ scale ≤ (2 ^ (format.fractionBits + 1) : ℕ) * 2 ^ scale := by gcongr
      _ = 2 ^ ((format.fractionBits + 1 : ℕ) + scale) := (two_zpow_natCast_add _ _).symm
      _ ≤ 2 ^ (format.fractionBits + scale') := two_zpow_le (by push_cast; omega)
      _ = (2 ^ format.fractionBits : ℕ) * 2 ^ scale' := two_zpow_natCast_add _ _
      _ ≤ units' * 2 ^ scale' := by gcongr

/-! ## The nearest number -/

/-- No number of the format is nearer than the rounded one. One that is as near is the same, or the
units are even. -/
theorem not_farther (h : format.Rounds q scale units) {mantissa : ℕ} {exponent : ℤ}
    (hnumber : format.Number mantissa exponent) :
    |q - units * 2 ^ scale| ≤ |q - mantissa * 2 ^ exponent| ∧
      (|q - units * 2 ^ scale| = |q - mantissa * 2 ^ exponent| →
        (mantissa : ℚ) * 2 ^ exponent = units * 2 ^ scale ∨ Even units) := by
  have hunit : (0 : ℚ) < 2 ^ scale := by positivity
  have hscaled : ∀ x : ℚ, |q - x * 2 ^ scale| = |q * 2 ^ (-scale) - x| * 2 ^ scale := by
    intro x
    rw [← abs_of_pos hunit, ← abs_mul, abs_of_pos hunit, sub_mul, units_mul_scale]
  rcases le_or_gt scale exponent with hcoarse | hfine
  · -- At a coarser scale the number is a whole number of units.
    obtain ⟨steps, rfl⟩ : ∃ steps : ℕ, exponent = scale + steps :=
      ⟨(exponent - scale).toNat, by omega⟩
    have hwhole :
        (mantissa : ℚ) * 2 ^ (scale + steps) = (mantissa * 2 ^ steps : ℕ) * 2 ^ scale := by
      rw [zpow_add₀ (by norm_num), zpow_natCast]
      push_cast
      ring
    rw [hwhole, hscaled, hscaled, mul_le_mul_iff_left₀ hunit, mul_left_inj' hunit.ne']
    refine ⟨h.near.not_farther _, fun htie => ?_⟩
    rcases h.near.eq_or_even htie with heq | heven
    · exact .inl (by rw [heq])
    · exact .inr heven
  · -- At a finer scale the number lies below the power of two that the scale starts from.
    have hstart := h.le_scaled (lt_of_le_of_lt hnumber.least hfine)
    have hbelow : (mantissa : ℚ) * 2 ^ exponent * 2 ^ (-scale) <
        (2 ^ format.fractionBits : ℕ) := by
      have hmantissa : (mantissa : ℚ) < (2 ^ (format.fractionBits + 1) : ℕ) :=
        Nat.cast_lt.2 hnumber.lt
      calc (mantissa : ℚ) * 2 ^ exponent * 2 ^ (-scale) = mantissa * 2 ^ (exponent - scale) := by
            rw [mul_assoc, ← zpow_add₀ (by norm_num), sub_eq_add_neg]
        _ < (2 ^ (format.fractionBits + 1) : ℕ) * 2 ^ (exponent - scale) := by gcongr
        _ = 2 ^ ((format.fractionBits + 1 : ℕ) + (exponent - scale)) :=
            (two_zpow_natCast_add _ _).symm
        _ ≤ 2 ^ ((format.fractionBits : ℤ) + 0) := two_zpow_le (by push_cast; omega)
        _ = (2 ^ format.fractionBits : ℕ) := by rw [two_zpow_natCast_add, zpow_zero, mul_one]
    have hnear := h.near.not_farther (2 ^ format.fractionBits)
    rw [abs_of_nonneg (sub_nonneg.2 hstart)] at hnear
    have hfarther : |q * 2 ^ (-scale) - units| <
        |q * 2 ^ (-scale) - mantissa * 2 ^ exponent * 2 ^ (-scale)| :=
      calc |q * 2 ^ (-scale) - units| ≤ q * 2 ^ (-scale) - (2 ^ format.fractionBits : ℕ) := hnear
        _ < q * 2 ^ (-scale) - mantissa * 2 ^ exponent * 2 ^ (-scale) := by linarith
        _ ≤ |q * 2 ^ (-scale) - mantissa * 2 ^ exponent * 2 ^ (-scale)| := le_abs_self _
    have hlt := mul_lt_mul_of_pos_right hfarther hunit
    rw [← hscaled, ← hscaled, units_mul_scale] at hlt
    exact ⟨hlt.le, fun htie => absurd htie hlt.ne⟩

/-! ## Beyond the largest number -/

/-- At a finer scale than the last one the units end below infinity, and the number is below the
threshold. -/
theorem below_last (h : format.Rounds q scale units) (hproper : format.Proper)
    (hless : scale < format.lastExponent) :
    format.magnitudeBits scale units < format.infinityBits ∧ q < format.threshold := by
  have hhalf : 2 ^ format.fractionBits < 2 ^ (format.fractionBits + 1) :=
    Nat.pow_lt_pow_right (by decide) (Nat.lt_succ_self _)
  constructor
  · calc format.magnitudeBits scale units
        ≤ format.magnitudeBits scale (2 ^ (format.fractionBits + 1)) :=
          magnitudeBits_mono le_rfl h.units_le
      _ = format.magnitudeBits (scale + 1) (2 ^ format.fractionBits) :=
          (magnitudeBits_succ h.least).symm
      _ ≤ format.magnitudeBits format.lastExponent (2 ^ format.fractionBits) :=
          magnitudeBits_mono hless le_rfl
      _ < format.magnitudeBits format.lastExponent (2 ^ (format.fractionBits + 1)) :=
          Nat.add_lt_add_left hhalf _
      _ = format.infinityBits := (infinityBits_eq hproper).symm
  · have hone : (1 : ℚ) ≤ 2 ^ format.fractionBits := one_le_pow₀ (by norm_num)
    have hroom : ((2 ^ format.fractionBits : ℕ) : ℚ) ≤ 2 ^ (format.fractionBits + 1) - 1 / 2 := by
      push_cast [pow_succ]
      linarith
    calc q < 2 ^ (format.fractionBits + 1 + scale) := h.lt
      _ ≤ 2 ^ (format.fractionBits + format.lastExponent) := two_zpow_le (by omega)
      _ = (2 ^ format.fractionBits : ℕ) * 2 ^ format.lastExponent := two_zpow_natCast_add _ _
      _ ≤ format.threshold := mul_le_mul_of_nonneg_right hroom (by positivity)

/-- At a coarser scale than the last one the units start at infinity or beyond, and the number is
beyond the threshold. -/
theorem beyond_last (h : format.Rounds q scale units) (hproper : format.Proper)
    (hmore : format.lastExponent < scale) :
    format.infinityBits ≤ format.magnitudeBits scale units ∧ format.threshold ≤ q := by
  have hlast : format.leastExponent ≤ format.lastExponent := by
    have := hproper.two_le_top
    rw [lastExponent]
    omega
  have hscale : format.leastExponent < scale := hlast.trans_lt hmore
  constructor
  · calc format.infinityBits
        = format.magnitudeBits format.lastExponent (2 ^ (format.fractionBits + 1)) :=
          infinityBits_eq hproper
      _ = format.magnitudeBits (format.lastExponent + 1) (2 ^ format.fractionBits) :=
          (magnitudeBits_succ hlast).symm
      _ ≤ format.magnitudeBits scale units := magnitudeBits_mono hmore (h.le_units hscale)
  · have hroom : (2 : ℚ) ^ (format.fractionBits + 1) - 1 / 2 ≤
        (2 ^ (format.fractionBits + 1) : ℕ) := by
      push_cast
      linarith
    calc format.threshold ≤ (2 ^ (format.fractionBits + 1) : ℕ) * 2 ^ format.lastExponent :=
          mul_le_mul_of_nonneg_right hroom (by positivity)
      _ = 2 ^ ((format.fractionBits + 1 : ℕ) + format.lastExponent) :=
          (two_zpow_natCast_add _ _).symm
      _ ≤ 2 ^ (format.fractionBits + scale) := two_zpow_le (by push_cast; omega)
      _ ≤ q := h.ge hscale

/-- At the last scale it is the units that decide, and a tie goes to the power of two. -/
theorem at_last (h : format.Rounds q format.lastExponent units) (hproper : format.Proper) :
    format.infinityBits ≤ format.magnitudeBits format.lastExponent units ↔
      format.threshold ≤ q := by
  have hpos : (0 : ℚ) < 2 ^ format.lastExponent := by positivity
  have heven : Even (2 ^ (format.fractionBits + 1)) := by
    rw [Nat.pow_succ]
    exact even_two.mul_left _
  have hthreshold : format.threshold =
      ((2 ^ (format.fractionBits + 1) : ℕ) - 1 / 2) * 2 ^ format.lastExponent := by
    push_cast
    rfl
  rw [infinityBits_eq hproper, magnitudeBits, magnitudeBits, Nat.add_le_add_iff_left, hthreshold,
    ← units_mul_scale q format.lastExponent, mul_le_mul_iff_left₀ hpos]
  refine ⟨fun hle => ?_, fun hle => h.near.le_of_even heven hle⟩
  have hcast : ((2 ^ (format.fractionBits + 1) : ℕ) : ℚ) ≤ units := Nat.cast_le.2 hle
  linarith [h.near.sub_half_le]

/-- The units lead to infinity from the threshold on. -/
theorem infinityBits_le_iff (h : format.Rounds q scale units) (hproper : format.Proper) :
    format.infinityBits ≤ format.magnitudeBits scale units ↔ format.threshold ≤ q := by
  rcases lt_trichotomy scale format.lastExponent with hless | rfl | hmore
  · obtain ⟨hbits, hsmall⟩ := h.below_last hproper hless
    exact iff_of_false (Nat.not_le.2 hbits) (not_le.2 hsmall)
  · exact h.at_last hproper
  · obtain ⟨hbits, hlarge⟩ := h.beyond_last hproper hmore
    exact iff_of_true hbits hlarge

/-- Units that stay below infinity make a number of the format. Those that fill up their scale are
the first ones of the next. -/
theorem exists_number (h : format.Rounds q scale units) (hproper : format.Proper)
    (hfinite : format.magnitudeBits scale units < format.infinityBits) :
    ∃ mantissa exponent, format.Number mantissa exponent ∧
      format.magnitudeBits exponent mantissa = format.magnitudeBits scale units ∧
      (mantissa : ℚ) * 2 ^ exponent = units * 2 ^ scale ∧ (Even units → Even mantissa) := by
  rcases h.units_le.lt_or_eq with hlt | rfl
  · exact ⟨units, scale, ⟨h.least, hlt, h.le_units, hfinite⟩, rfl, rfl, id⟩
  · have hbits := magnitudeBits_succ h.least
    refine ⟨2 ^ format.fractionBits, scale + 1, ⟨by have := h.least; omega, ?_, fun _ => le_rfl,
      hbits ▸ hfinite⟩, hbits, ?_, fun _ => ?_⟩
    · exact Nat.pow_lt_pow_right (by decide) (Nat.lt_succ_self _)
    · rw [zpow_add_one₀ (by norm_num), Nat.pow_succ]
      push_cast
      ring
    · exact (Nat.even_pow.2 ⟨even_two, hproper.fraction_pos.ne'⟩)

end Rounds

/-- A number of the format is left as it is. -/
theorem Number.rounds {mantissa : ℕ} {exponent : ℤ} (h : format.Number mantissa exponent) :
    format.Rounds (mantissa * 2 ^ exponent) exponent mantissa where
  least := h.least
  lt := by
    have hlt : (mantissa : ℚ) < (2 ^ (format.fractionBits + 1) : ℕ) := Nat.cast_lt.2 h.lt
    rw [show (format.fractionBits : ℤ) + 1 = (format.fractionBits + 1 : ℕ) from rfl,
      two_zpow_natCast_add]
    gcongr
  ge hexponent := by
    have hge : ((2 ^ format.fractionBits : ℕ) : ℚ) ≤ mantissa := Nat.cast_le.2 (h.ge hexponent)
    rw [two_zpow_natCast_add]
    gcongr
  near := by
    rw [mul_assoc, ← zpow_add₀ (by norm_num), add_neg_cancel, zpow_zero, mul_one]
    exact .self mantissa

/-- The bits that a magnitude is rounded to are those of its units, or of infinity. -/
theorem exists_rounds (format : FloatFormat) (mantissa : ℕ) (exponent : ℤ) :
    ∃ scale units, format.Rounds (mantissa * 2 ^ exponent) scale units ∧
      format.roundMagnitude mantissa exponent =
        min (format.magnitudeBits scale units) format.infinityBits := by
  rcases Nat.eq_zero_or_pos mantissa with rfl | hpos
  · refine ⟨format.leastExponent, 0, ⟨le_rfl, ?_, fun hlt => absurd hlt (lt_irrefl _), ?_⟩, ?_⟩
    · rw [Nat.cast_zero, zero_mul]
      positivity
    · rw [Nat.cast_zero, zero_mul, zero_mul]
      exact .self 0
    · rw [roundMagnitude, if_pos rfl, magnitudeBits, Int.sub_self]
      simp
  · set scale := max (exponent + mantissa.log2 - format.fractionBits) format.leastExponent
    have hlow : ((2 ^ mantissa.log2 : ℕ) : ℚ) ≤ mantissa :=
      Nat.cast_le.2 (Nat.log2_self_le hpos.ne')
    have hhigh : (mantissa : ℚ) < (2 ^ (mantissa.log2 + 1) : ℕ) :=
      Nat.cast_lt.2 Nat.lt_log2_self
    refine ⟨scale, roundBinary mantissa 1 (exponent - scale), ⟨le_max_right _ _, ?_, ?_, ?_⟩, ?_⟩
    · calc (mantissa : ℚ) * 2 ^ exponent < (2 ^ (mantissa.log2 + 1) : ℕ) * 2 ^ exponent := by
            gcongr
        _ = 2 ^ ((mantissa.log2 + 1 : ℕ) + exponent) := (two_zpow_natCast_add _ _).symm
        _ ≤ 2 ^ (format.fractionBits + 1 + scale) := two_zpow_le (by push_cast; omega)
    · intro hscale
      calc (2 : ℚ) ^ (format.fractionBits + scale) ≤ 2 ^ (mantissa.log2 + exponent) :=
            two_zpow_le (by omega)
        _ = (2 ^ mantissa.log2 : ℕ) * 2 ^ exponent := two_zpow_natCast_add _ _
        _ ≤ mantissa * 2 ^ exponent := by gcongr
    · have hnear := nearestEven_roundBinary mantissa Nat.one_pos (exponent - scale)
      rwa [Nat.cast_one, div_one, sub_eq_add_neg, zpow_add₀ (by norm_num), ← mul_assoc] at hnear
    · rw [roundMagnitude, if_neg hpos.ne']
      rfl

end Containers.FloatFormat
