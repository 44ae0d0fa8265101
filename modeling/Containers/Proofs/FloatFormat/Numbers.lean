import Containers.FloatFormat.Narrow
import Mathlib.Data.EReal.Operations

/-!
# The numbers of a format

The finite numbers of a format are the products of a mantissa and a power of two that fit its fields
(`Number`). The lower bits of such a number are its place in the order of magnitude
(`magnitudeBits`): these bits stand for the number (`decode_withSign`), and no other number has them
(`of_decode_eq_finite`). The bit in front of them is the sign, and flipping it negates the number
(`decode_negate`). As extended real numbers, values of all formats can be compared
(`FloatValue.number?`). What keeps the order of magnitudes keeps that of numbers (`signed_mono`).
-/

namespace Containers

/-- A number with this sign. -/
def signed {α : Type} [Neg α] (negative : Bool) (x : α) : α := if negative then -x else x

/-- The number that a value stands for, unless it is not a number. -/
noncomputable def FloatValue.number? : FloatValue → Option EReal
  | .nan => none
  | .infinite negative => some (signed negative ⊤)
  | .finite negative mantissa exponent =>
    some (signed negative ((mantissa * 2 ^ exponent : ℚ) : ℝ))

/-- Rational numbers are ordered as they are among the reals with infinities. -/
theorem coe_ratCast_le {p q : ℚ} : ((p : ℝ) : EReal) ≤ (q : ℝ) ↔ p ≤ q := by
  rw [EReal.coe_le_coe_iff, Rat.cast_le]

/-- Different rational numbers are different among the reals with infinities. -/
theorem coe_ratCast_inj {p q : ℚ} : ((p : ℝ) : EReal) = (q : ℝ) ↔ p = q := by
  rw [EReal.coe_eq_coe_iff, Rat.cast_inj]

/-! ## Signs -/

/-- A relation of magnitudes that keeps their order keeps it with signs in front. A number above
zero is below one that is not only if both are zero. -/
theorem signed_mono {R : EReal → EReal → Prop} (hzero : R 0 0)
    (hnonneg : ∀ {x y}, R x y → 0 ≤ x)
    (hmono : ∀ {x y x' y'}, R x y → R x' y' → x ≤ x' → y ≤ y') {negative negative' : Bool}
    {x y x' y' : EReal} (h : R x y) (h' : R x' y') (hle : signed negative x ≤ signed negative' x') :
    signed negative y ≤ signed negative' y' := by
  have hy : 0 ≤ y := hmono hzero h (hnonneg h)
  have hy' : 0 ≤ y' := hmono hzero h' (hnonneg h')
  cases negative <;> cases negative' <;> simp only [signed, if_true, if_false, Bool.false_eq_true,
    EReal.neg_le_neg_iff] at hle ⊢
  · exact hmono h h' hle
  · have hlow : y ≤ 0 := hmono h hzero (hle.trans (EReal.neg_le_zero.2 (hnonneg h')))
    have hlow' : y' ≤ 0 := hmono h' hzero (EReal.neg_nonneg.1 ((hnonneg h).trans hle))
    exact hlow.trans (EReal.neg_nonneg.2 hlow')
  · exact (EReal.neg_le_zero.2 hy).trans hy'
  · exact hmono h' h hle

/-- Only zero is the same number with either sign. -/
theorem signed_inj {negative negative' : Bool} {x x' : EReal} (hx : 0 ≤ x) (hx' : 0 ≤ x')
    (heq : signed negative x = signed negative' x') : x = x' ∧ (negative = negative' ∨ x = 0) := by
  cases negative <;> cases negative' <;> simp only [signed, if_true, if_false, Bool.false_eq_true,
    neg_inj] at heq
  · exact ⟨heq, .inl rfl⟩
  · have hlow : x = 0 := le_antisymm (heq.trans_le (EReal.neg_le_zero.2 hx')) hx
    rw [hlow] at heq
    exact ⟨hlow.trans (EReal.neg_eq_zero_iff.1 heq.symm).symm, .inr hlow⟩
  · have hlow : x' = 0 := le_antisymm (heq.symm.trans_le (EReal.neg_le_zero.2 hx)) hx'
    rw [hlow] at heq
    have hzero : x = 0 := EReal.neg_eq_zero_iff.1 heq
    exact ⟨hzero.trans hlow.symm, .inr hzero⟩
  · exact ⟨heq, .inl rfl⟩

/-- The value with the other sign. -/
def FloatValue.neg : FloatValue → FloatValue
  | .nan => .nan
  | .infinite negative => .infinite !negative
  | .finite negative mantissa exponent => .finite (!negative) mantissa exponent

namespace FloatFormat

-- Powers are the numbers' own, also where those of monoids are known.
attribute [local instance (high)] instPowNat

variable {format : FloatFormat}

/-- The lower bits of so many units at a scale. The count goes on from one scale to the next. -/
def magnitudeBits (format : FloatFormat) (scale : ℤ) (units : ℕ) : ℕ :=
  (scale - format.leastExponent).toNat * 2 ^ format.fractionBits + units

/-- The pairs of mantissa and exponent that the finite numbers of a format have. Only at the least
exponent the mantissa may lack its leading bit. -/
structure Number (format : FloatFormat) (mantissa : ℕ) (exponent : ℤ) : Prop where
  least : format.leastExponent ≤ exponent
  lt : mantissa < 2 ^ (format.fractionBits + 1)
  ge : format.leastExponent < exponent → 2 ^ format.fractionBits ≤ mantissa
  finite : format.magnitudeBits exponent mantissa < format.infinityBits

/-! ## Fields -/

/-- The bits of infinity leave room for the sign in front of them. -/
theorem infinityBits_lt (format : FloatFormat) :
    format.infinityBits < 2 ^ (format.fractionBits + format.exponentBits) := by
  have hfraction : 0 < 2 ^ format.fractionBits := Nat.two_pow_pos _
  have hexponent : 0 < 2 ^ format.exponentBits := Nat.two_pow_pos _
  rw [infinityBits, top, Nat.pow_add, Nat.mul_comm]
  exact Nat.mul_lt_mul_of_pos_left (by omega) hfraction

section
variable (negative : Bool) {magnitude : ℕ}

/-- A sign does not change the fraction of a magnitude. -/
theorem fraction_withSign (magnitude : ℕ) :
    format.fraction (format.withSign negative magnitude) = magnitude % 2 ^ format.fractionBits := by
  cases negative with
  | false => rfl
  | true =>
    rw [fraction, withSign, if_pos rfl, Nat.pow_add, Nat.mul_add_mod]

/-- A sign does not change the exponent field of a magnitude. -/
theorem biased_withSign
    (hlt : magnitude < 2 ^ (format.fractionBits + format.exponentBits)) :
    format.biased (format.withSign negative magnitude) = magnitude / 2 ^ format.fractionBits := by
  have hbiased : magnitude / 2 ^ format.fractionBits < 2 ^ format.exponentBits := by
    rw [Nat.pow_add] at hlt
    exact Nat.div_lt_of_lt_mul hlt
  cases negative with
  | false => exact Nat.mod_eq_of_lt hbiased
  | true =>
    rw [biased, withSign, if_pos rfl, Nat.pow_add, Nat.mul_add_div (Nat.two_pow_pos _),
      Nat.add_mod_left, Nat.mod_eq_of_lt hbiased]

/-- The sign that a magnitude got is the one it has. -/
theorem isNegative_withSign
    (hlt : magnitude < 2 ^ (format.fractionBits + format.exponentBits)) :
    format.isNegative (format.withSign negative magnitude) = negative := by
  cases negative with
  | false =>
    rw [isNegative, withSign, if_neg Bool.false_ne_true, Nat.div_eq_of_lt hlt]
    rfl
  | true =>
    rw [isNegative, withSign, if_pos rfl, Nat.add_div_left _ (Nat.two_pow_pos _),
      Nat.div_eq_of_lt hlt]
    rfl

end

/-- The bits below the sign are the exponent field in front of the fraction. -/
theorem mod_eq_fields (format : FloatFormat) (bits : ℕ) :
    bits % 2 ^ (format.fractionBits + format.exponentBits) =
      format.biased bits * 2 ^ format.fractionBits + format.fraction bits := by
  rw [Nat.pow_add, Nat.mod_mul, biased, fraction, Nat.add_comm, Nat.mul_comm]

/-- Bits are a sign and what is below it. -/
theorem eq_withSign {bits : ℕ} (hlt : bits < 2 * 2 ^ (format.fractionBits + format.exponentBits)) :
    bits = format.withSign (format.isNegative bits)
      (bits % 2 ^ (format.fractionBits + format.exponentBits)) := by
  have hsplit := Nat.div_add_mod bits (2 ^ (format.fractionBits + format.exponentBits))
  have hquotient : bits / 2 ^ (format.fractionBits + format.exponentBits) < 2 :=
    Nat.div_lt_of_lt_mul (by rwa [Nat.mul_comm])
  unfold withSign isNegative
  rcases Nat.lt_succ_iff_lt_or_eq.1 hquotient with hzero | hone
  · rw [Nat.lt_one_iff.1 hzero] at hsplit ⊢
    simpa using hsplit.symm
  · rw [hone] at hsplit ⊢
    simpa using hsplit.symm

/-! ## Decoding -/

/-- The bits of a number stand for it. -/
theorem decode_withSign {mantissa : ℕ} {exponent : ℤ} (h : format.Number mantissa exponent)
    (negative : Bool) :
    format.decode (format.withSign negative (format.magnitudeBits exponent mantissa)) =
      .finite negative mantissa exponent := by
  obtain ⟨hleast, hlt, hge, hfinite⟩ := h
  have hunit : 0 < 2 ^ format.fractionBits := Nat.two_pow_pos _
  have hbound := hfinite.trans format.infinityBits_lt
  have hbelow : format.magnitudeBits exponent mantissa / 2 ^ format.fractionBits < format.top :=
    Nat.div_lt_of_lt_mul (by rwa [Nat.mul_comm])
  unfold decode
  rw [isNegative_withSign negative hbound, biased_withSign negative hbound, fraction_withSign]
  dsimp only
  rw [if_neg hbelow.ne]
  obtain ⟨steps, rfl⟩ : ∃ steps : ℕ, exponent = format.leastExponent + steps :=
    ⟨(exponent - format.leastExponent).toNat, by omega⟩
  rw [magnitudeBits, add_sub_cancel_left, Int.toNat_natCast]
  rcases Nat.lt_or_ge mantissa (2 ^ format.fractionBits) with hsmall | hlarge
  · -- Without the leading bit there is only the least exponent.
    have hsteps : steps = 0 := by
      by_contra hne
      have := hge (by omega)
      omega
    subst hsteps
    rw [Nat.zero_mul, Nat.zero_add, Nat.div_eq_of_lt hsmall, Nat.mod_eq_of_lt hsmall, if_pos rfl]
    simp
  · obtain ⟨rest, rfl⟩ := Nat.exists_eq_add_of_le hlarge
    have hrest : rest < 2 ^ format.fractionBits := by
      rw [Nat.pow_succ] at hlt
      omega
    have hfields : steps * 2 ^ format.fractionBits + (2 ^ format.fractionBits + rest) =
        2 ^ format.fractionBits * (steps + 1) + rest := by
      rw [Nat.mul_succ, Nat.mul_comm steps, Nat.add_assoc]
    rw [hfields, Nat.mul_add_div hunit, Nat.mul_add_mod, Nat.div_eq_of_lt hrest,
      Nat.mod_eq_of_lt hrest, Nat.add_zero, if_neg (Nat.succ_ne_zero steps)]
    congr 1
    omega

/-- What stands for a finite number has the sign and the bits of that number. -/
theorem of_decode_eq_finite {bits : ℕ} {negative : Bool} {mantissa : ℕ} {exponent : ℤ}
    (h : format.decode bits = .finite negative mantissa exponent) :
    format.Number mantissa exponent ∧ format.isNegative bits = negative ∧
      bits % 2 ^ (format.fractionBits + format.exponentBits) =
        format.magnitudeBits exponent mantissa := by
  have hunit : 0 < 2 ^ format.fractionBits := Nat.two_pow_pos _
  have hfraction : format.fraction bits < 2 ^ format.fractionBits := Nat.mod_lt _ hunit
  have hbiased : format.biased bits < 2 ^ format.exponentBits :=
    Nat.mod_lt _ (Nat.two_pow_pos _)
  have hfields := format.mod_eq_fields bits
  unfold decode at h
  dsimp only at h
  split at h
  next => split at h <;> cases h
  next hbelow =>
    -- The place of the number is what its fields say, below that of infinity.
    have hfinite : format.biased bits * 2 ^ format.fractionBits + format.fraction bits <
        format.infinityBits := by
      have htop : format.biased bits + 1 ≤ format.top := by
        rw [top] at hbelow ⊢
        omega
      have hle := Nat.mul_le_mul_right (2 ^ format.fractionBits) htop
      rw [Nat.succ_mul] at hle
      rw [infinityBits]
      omega
    split at h
    next hzero =>
      cases h
      have hbits : format.magnitudeBits format.leastExponent (format.fraction bits) =
          format.biased bits * 2 ^ format.fractionBits + format.fraction bits := by
        rw [magnitudeBits, hzero, Int.sub_self]
        rfl
      exact ⟨⟨le_rfl, by rw [Nat.pow_succ]; omega, fun hlt => absurd hlt (lt_irrefl _),
        hbits ▸ hfinite⟩, rfl, hfields.trans hbits.symm⟩
    next hpos =>
      cases h
      obtain ⟨steps, hsteps⟩ := Nat.exists_eq_succ_of_ne_zero hpos
      have hbits : format.magnitudeBits (format.leastExponent + (format.biased bits - 1 : ℤ))
          (2 ^ format.fractionBits + format.fraction bits) =
            format.biased bits * 2 ^ format.fractionBits + format.fraction bits := by
        rw [magnitudeBits, hsteps, add_sub_cancel_left, Nat.succ_mul, Nat.add_assoc]
        congr 3
        omega
      exact ⟨⟨by omega, by rw [Nat.pow_succ]; omega, fun _ => Nat.le_add_right _ _,
        hbits ▸ hfinite⟩, rfl, hfields.trans hbits.symm⟩

/-- The bits of an infinity stand for it. -/
theorem decode_infinityBits (format : FloatFormat) (negative : Bool) :
    format.decode (format.withSign negative format.infinityBits) = .infinite negative := by
  have hunit : 0 < 2 ^ format.fractionBits := Nat.two_pow_pos _
  have hbiased : format.infinityBits / 2 ^ format.fractionBits = format.top :=
    Nat.mul_div_cancel _ hunit
  have hfraction : format.infinityBits % 2 ^ format.fractionBits = 0 := Nat.mul_mod_left _ _
  unfold decode
  rw [isNegative_withSign negative format.infinityBits_lt,
    biased_withSign negative format.infinityBits_lt, fraction_withSign, hbiased, hfraction]
  dsimp only
  rw [if_pos rfl, if_pos rfl]

/-- What stands for an infinity has its bits. -/
theorem of_decode_eq_infinite {bits : ℕ} {negative : Bool}
    (h : format.decode bits = .infinite negative) :
    format.isNegative bits = negative ∧
      bits % 2 ^ (format.fractionBits + format.exponentBits) = format.infinityBits := by
  have hfields := format.mod_eq_fields bits
  unfold decode at h
  dsimp only at h
  split at h
  next htop =>
    split at h
    next hfraction =>
      cases h
      rw [htop, hfraction] at hfields
      exact ⟨rfl, hfields⟩
    next => cases h
  next => split at h <;> cases h

/-! ## Negation -/

/-- The bits with the other sign. -/
def negate (format : FloatFormat) (bits : ℕ) : ℕ :=
  bits ^^^ 2 ^ (format.fractionBits + format.exponentBits)

/-- The other sign does not change the fraction. -/
theorem fraction_negate (bits : ℕ) :
    format.fraction (format.negate bits) = format.fraction bits := by
  rw [fraction, negate, Nat.xor_mod_two_pow, Nat.pow_add, Nat.mul_mod_right, Nat.xor_zero]
  rfl

/-- The other sign does not change the exponent field. -/
theorem biased_negate (bits : ℕ) : format.biased (format.negate bits) = format.biased bits := by
  rw [biased, negate, Nat.xor_div_two_pow, Nat.pow_add,
    Nat.mul_div_cancel_left _ (Nat.two_pow_pos _), Nat.xor_mod_two_pow, Nat.mod_self, Nat.xor_zero]
  rfl

/-- Negated bits have the other sign. -/
theorem isNegative_negate (bits : ℕ) :
    format.isNegative (format.negate bits) = !format.isNegative bits := by
  have hflip : ∀ n : ℕ, (n ^^^ 1) % 2 = n % 2 ^^^ 1 := fun n => Nat.xor_mod_two_pow (n := 1)
  rw [isNegative, isNegative, negate, Nat.xor_div_two_pow, Nat.div_self (Nat.two_pow_pos _), hflip]
  rcases Nat.mod_two_eq_zero_or_one (bits / 2 ^ (format.fractionBits + format.exponentBits)) with
    heven | hodd
  · rw [heven]
    rfl
  · rw [hodd]
    rfl

/-- Flipping the sign bit gives the value with the other sign. -/
theorem decode_negate (bits : ℕ) :
    format.decode (format.negate bits) = (format.decode bits).neg := by
  rw [decode, decode, isNegative_negate, fraction_negate, biased_negate]
  split
  · split <;> rfl
  · split <;> rfl

end FloatFormat

end Containers
