import Containers.Proofs.Decimal.General
import Containers.Proofs.FloatFormat.Rounding
import Containers.Proofs.Foreign.Constructors

/-!
# Narrowing to 32 bits

`FloatFormat.encode` rounds any value to a format. What it comes to is the nearest value that the
format has (`nearest_encode`), with the sign of what it was made of. So it keeps the order of the
numbers (`encode_mono`), and a number of the format gets its own bits back from every value that is
the same number (`encode_of_same`). A number of 32 bits is one of 64 bits too
(`same_encode_binary32`), so narrowing undoes the exact widening. Vectors and arrays of
floating-point numbers narrow their items one by one.
-/

namespace Containers

/-- Values that are the same number with the same sign. They may differ in how they split it into
mantissa and power of two. -/
inductive FloatValue.Same : FloatValue → FloatValue → Prop where
  | infinite (negative : Bool) : Same (.infinite negative) (.infinite negative)
  | finite {negative : Bool} {mantissa mantissa' : ℕ} {exponent exponent' : ℤ}
    (heq : (mantissa : ℚ) * 2 ^ exponent = mantissa' * 2 ^ exponent') :
    Same (.finite negative mantissa exponent) (.finite negative mantissa' exponent')

namespace FloatFormat

-- Powers are the numbers' own, also where those of monoids are known.
attribute [local instance (high)] instPowNat

variable {format : FloatFormat}

/-- The rational numbers that a format has. -/
def Finite (format : FloatFormat) (x : ℚ) : Prop :=
  ∃ bits negative mantissa exponent, format.decode bits = .finite negative mantissa exponent ∧
    x = signed negative (mantissa * 2 ^ exponent : ℚ)

/-- The value of a format that is nearest to a value. From the threshold on, that is an infinity.
Below it, no number of the format is nearer, and if another one is as near, the mantissa is even.
The sign stays. -/
inductive Nearest (format : FloatFormat) : FloatValue → FloatValue → Prop where
  | nan : Nearest format .nan .nan
  | infinite (negative : Bool) : Nearest format (.infinite negative) (.infinite negative)
  | overflow {negative : Bool} {mantissa : ℕ} {exponent : ℤ}
    (hlarge : format.threshold ≤ mantissa * 2 ^ exponent) :
    Nearest format (.finite negative mantissa exponent) (.infinite negative)
  | number {negative : Bool} {mantissa mantissa' : ℕ} {exponent exponent' : ℤ} {x y : ℚ}
    (hx : x = signed negative (mantissa * 2 ^ exponent : ℚ))
    (hy : y = signed negative (mantissa' * 2 ^ exponent' : ℚ))
    (hsmall : mantissa * 2 ^ exponent < format.threshold) (hfinite : format.Finite y)
    (hnear : ∀ z, format.Finite z → |x - y| ≤ |x - z|)
    (heven : ∀ z, format.Finite z → |x - y| = |x - z| → z = y ∨ Even mantissa') :
    Nearest format (.finite negative mantissa exponent) (.finite negative mantissa' exponent')

/-! ## Signs -/

/-- On one side of zero, distances are those of the magnitudes. -/
theorem abs_signed_sub (negative : Bool) (x y : ℚ) :
    |signed negative x - signed negative y| = |x - y| := by
  cases negative with
  | false => rfl
  | true =>
    show |-x - -y| = |x - y|
    rw [neg_sub_neg, abs_sub_comm]

/-- Across zero distances add up. -/
theorem abs_signed_sub_of_ne {negative negative' : Bool} (hne : negative' ≠ negative) {x y : ℚ}
    (hx : 0 ≤ x) (hy : 0 ≤ y) : |signed negative x - signed negative' y| = x + y := by
  cases negative <;> cases negative' <;> simp only [ne_eq, not_true_eq_false] at hne
  · show |x - -y| = x + y
    rw [sub_neg_eq_add, abs_of_nonneg (add_nonneg hx hy)]
  · show |-x - y| = x + y
    rw [← neg_add', abs_neg, abs_of_nonneg (add_nonneg hx hy)]

/-! ## The nearest value -/

/-- Every proper format has zero, at the least exponent. -/
theorem number_zero (hproper : format.Proper) : format.Number 0 format.leastExponent := by
  refine ⟨le_rfl, Nat.two_pow_pos _, fun hlt => absurd hlt (lt_irrefl _), ?_⟩
  have htop : 0 < format.top := lt_of_lt_of_le Nat.two_pos hproper.two_le_top
  rw [magnitudeBits, Int.sub_self, infinityBits]
  simpa using htop

/-- With a sign, no number of the format is nearer either. One across zero is no nearer than zero
is. -/
theorem Rounds.signed_not_farther {q : ℚ} {scale : ℤ} {units : ℕ}
    (h : format.Rounds q scale units) (hproper : format.Proper) (hq : 0 ≤ q) (negative : Bool)
    {z : ℚ} (hz : format.Finite z) :
    |signed negative q - signed negative (units * 2 ^ scale : ℚ)| ≤ |signed negative q - z| ∧
      (|signed negative q - signed negative (units * 2 ^ scale : ℚ)| = |signed negative q - z| →
        z = signed negative (units * 2 ^ scale : ℚ) ∨ Even units) := by
  obtain ⟨bits, negative', mantissa, exponent, hdecode, rfl⟩ := hz
  obtain ⟨hnumber, -, -⟩ := of_decode_eq_finite hdecode
  rw [abs_signed_sub]
  by_cases hsign : negative' = negative
  · subst hsign
    rw [abs_signed_sub]
    obtain ⟨hnear, htie⟩ := h.not_farther hnumber
    exact ⟨hnear, fun heq => (htie heq).imp (congrArg (signed negative')) id⟩
  · have hother : (0 : ℚ) ≤ mantissa * 2 ^ exponent := by positivity
    obtain ⟨hzero, htie⟩ := h.not_farther (number_zero hproper)
    rw [Nat.cast_zero, zero_mul, sub_zero, abs_of_nonneg hq] at hzero htie
    rw [abs_signed_sub_of_ne hsign hq hother]
    refine ⟨by linarith, fun heq => ?_⟩
    have hnothing : (mantissa : ℚ) * 2 ^ exponent = 0 := by linarith
    rcases htie (by linarith) with hunits | heven
    · left
      rw [← hunits, hnothing]
      cases negative <;> cases negative' <;> simp [signed]
    · exact .inr heven

/-- The leading bit of a fraction lies below the next power of two. -/
theorem Proper.half_lt (hproper : format.Proper) :
    2 ^ (format.fractionBits - 1) < 2 ^ format.fractionBits :=
  Nat.pow_lt_pow_right (by decide) (Nat.sub_one_lt hproper.fraction_pos.ne')

/-- The bits kept for no number are read as that. -/
theorem decode_nanBits (hproper : format.Proper) : format.decode format.nanBits = .nan := by
  have hhalf := hproper.half_lt
  have htop : format.top < 2 ^ format.exponentBits := Nat.sub_one_lt (Nat.two_pow_pos _).ne'
  have hbiased : format.biased format.nanBits = format.top := by
    rw [biased, nanBits, infinityBits, Nat.mul_comm, Nat.mul_add_div (Nat.two_pow_pos _),
      Nat.div_eq_of_lt hhalf, Nat.add_zero, Nat.mod_eq_of_lt htop]
  have hfraction : format.fraction format.nanBits = 2 ^ (format.fractionBits - 1) := by
    rw [fraction, nanBits, infinityBits, Nat.mul_comm, Nat.mul_add_mod, Nat.mod_eq_of_lt hhalf]
  unfold decode
  rw [hbiased, hfraction]
  dsimp only
  rw [if_pos rfl, if_neg (Nat.two_pow_pos _).ne']

/-- From the threshold on, a magnitude gets the bits of infinity. -/
theorem decode_encode_of_le (hproper : format.Proper) (negative : Bool) {mantissa : ℕ}
    {exponent : ℤ} (hlarge : format.threshold ≤ mantissa * 2 ^ exponent) :
    format.decode (format.encode (.finite negative mantissa exponent)) = .infinite negative := by
  obtain ⟨scale, units, hrounds, hbits⟩ := format.exists_rounds mantissa exponent
  rw [encode, hbits, Nat.min_eq_right ((hrounds.infinityBits_le_iff hproper).2 hlarge)]
  exact decode_infinityBits format negative

/-- Below the threshold, it gets the bits of the number it is rounded to. -/
theorem decode_encode_of_lt (hproper : format.Proper) (negative : Bool) {mantissa : ℕ}
    {exponent : ℤ} (hsmall : mantissa * 2 ^ exponent < format.threshold) :
    ∃ scale units mantissa' exponent', format.Rounds (mantissa * 2 ^ exponent) scale units ∧
      format.decode (format.encode (.finite negative mantissa exponent)) =
        .finite negative mantissa' exponent' ∧
      (mantissa' : ℚ) * 2 ^ exponent' = units * 2 ^ scale ∧ (Even units → Even mantissa') := by
  obtain ⟨scale, units, hrounds, hbits⟩ := format.exists_rounds mantissa exponent
  have hfinite : format.magnitudeBits scale units < format.infinityBits :=
    Nat.lt_of_not_le (mt (hrounds.infinityBits_le_iff hproper).1 (not_le.2 hsmall))
  obtain ⟨mantissa', exponent', hnumber, hplace, hvalue, heven⟩ :=
    hrounds.exists_number hproper hfinite
  refine ⟨scale, units, mantissa', exponent', hrounds, ?_, hvalue, heven⟩
  rw [encode, hbits, Nat.min_eq_left hfinite.le, ← hplace]
  exact decode_withSign hnumber negative

/-- Encoding comes to the nearest value. -/
theorem nearest_encode (hproper : format.Proper) (v : FloatValue) :
    format.Nearest v (format.decode (format.encode v)) := by
  cases v with
  | nan =>
    rw [encode, decode_nanBits hproper]
    exact .nan
  | infinite negative =>
    rw [encode, decode_infinityBits]
    exact .infinite negative
  | finite negative mantissa exponent =>
    rcases le_or_gt format.threshold (mantissa * 2 ^ exponent) with hlarge | hsmall
    · rw [decode_encode_of_le hproper negative hlarge]
      exact .overflow hlarge
    · obtain ⟨scale, units, mantissa', exponent', hrounds, hdecode, hvalue, heven⟩ :=
        decode_encode_of_lt hproper negative hsmall
      have hpos : (0 : ℚ) ≤ mantissa * 2 ^ exponent := by positivity
      rw [hdecode]
      refine .number rfl rfl hsmall ⟨_, _, _, _, hdecode, rfl⟩ (fun z hz => ?_) fun z hz htie => ?_
      · rw [hvalue]
        exact (hrounds.signed_not_farther hproper hpos negative hz).1
      · rw [hvalue] at htie ⊢
        exact ((hrounds.signed_not_farther hproper hpos negative hz).2 htie).imp_right heven

namespace Nearest

variable {v w : FloatValue}

/-- The nearest value is no number just if the value is none. -/
theorem eq_nan_iff (h : format.Nearest v w) : w = .nan ↔ v = .nan := by
  cases h <;> simp

/-- The nearest value is infinite just if the value is, or lies beyond the threshold. -/
theorem eq_infinite_iff (h : format.Nearest v w) {negative : Bool} :
    w = .infinite negative ↔ v = .infinite negative ∨
      ∃ mantissa exponent, v = .finite negative mantissa exponent ∧
        format.threshold ≤ mantissa * 2 ^ exponent := by
  cases h with
  | nan => simp
  | infinite => simp
  | @overflow negative' mantissa exponent hlarge =>
    constructor
    · rintro ⟨⟩
      exact .inr ⟨mantissa, exponent, rfl, hlarge⟩
    · rintro (hinfinite | ⟨_, _, hfinite, -⟩)
      · cases hinfinite
      · cases hfinite
        rfl
  | number _ _ hsmall =>
    constructor
    · exact nofun
    · rintro (hinfinite | ⟨_, _, hfinite, hlarge⟩)
      · cases hinfinite
      · cases hfinite
        exact absurd hlarge (not_le.2 hsmall)

end Nearest

/-! ## Order -/

/-- What a magnitude comes to, with infinities. -/
inductive Magnitude (format : FloatFormat) : EReal → EReal → Prop where
  | infinite : Magnitude format ⊤ ⊤
  | overflow {q : ℚ} (hlarge : format.threshold ≤ q) : Magnitude format (q : ℝ) ⊤
  | number {q : ℚ} {scale : ℤ} {units : ℕ} (hq : 0 ≤ q) (hsmall : q < format.threshold)
    (hrounds : format.Rounds q scale units) :
    Magnitude format (q : ℝ) ((units * 2 ^ scale : ℚ) : ℝ)

namespace Magnitude

variable {x y x' y' : EReal}

/-- A greater magnitude does not come to a smaller one. -/
theorem mono (h : format.Magnitude x y) (h' : format.Magnitude x' y') (hle : x ≤ x') : y ≤ y' := by
  cases h' with
  | infinite => exact le_top
  | overflow => exact le_top
  | number hq' hsmall' hrounds' =>
    cases h with
    | infinite => exact absurd hle (not_le.2 (EReal.coe_lt_top _))
    | overflow hlarge => exact absurd (hlarge.trans (coe_ratCast_le.1 hle)) (not_le.2 hsmall')
    | number hq hsmall hrounds =>
      exact coe_ratCast_le.2 (hrounds.value_mono hrounds' (coe_ratCast_le.1 hle))

/-- A magnitude is not negative. -/
theorem nonneg (h : format.Magnitude x y) : 0 ≤ x := by
  cases h with
  | infinite => exact le_top
  | overflow hlarge => exact_mod_cast format.threshold_pos.le.trans hlarge
  | number hq => exact_mod_cast hq

/-- Zero comes to zero. -/
theorem zero (hproper : format.Proper) : format.Magnitude 0 0 := by
  have hzero := (number_zero hproper).rounds
  rw [Nat.cast_zero, zero_mul] at hzero
  simpa using Magnitude.number le_rfl format.threshold_pos hzero

end Magnitude

/-- What a value comes to keeps its sign. -/
theorem exists_magnitude (hproper : format.Proper) {v : FloatValue} {a : EReal}
    (hv : v.number? = some a) :
    ∃ negative x y, a = signed negative x ∧ format.Magnitude x y ∧
      (format.decode (format.encode v)).number? = some (signed negative y) := by
  cases v with
  | nan => cases hv
  | infinite negative =>
    cases hv
    refine ⟨negative, ⊤, ⊤, rfl, .infinite, ?_⟩
    rw [encode, decode_infinityBits]
    rfl
  | finite negative mantissa exponent =>
    cases hv
    rcases le_or_gt format.threshold (mantissa * 2 ^ exponent) with hlarge | hsmall
    · refine ⟨negative, _, ⊤, rfl, .overflow hlarge, ?_⟩
      rw [decode_encode_of_le hproper negative hlarge]
      rfl
    · obtain ⟨scale, units, mantissa', exponent', hrounds, hdecode, hvalue, -⟩ :=
        decode_encode_of_lt hproper negative hsmall
      refine ⟨negative, _, _, rfl, .number (by positivity) hsmall hrounds, ?_⟩
      rw [hdecode, FloatValue.number?, hvalue]

/-- Encoding keeps the order of numbers. -/
theorem encode_mono (hproper : format.Proper) {v v' : FloatValue} {a a' : EReal}
    (hv : v.number? = some a) (hv' : v'.number? = some a') (hle : a ≤ a') :
    ∃ b b', (format.decode (format.encode v)).number? = some b ∧
      (format.decode (format.encode v')).number? = some b' ∧ b ≤ b' := by
  obtain ⟨negative, x, y, rfl, hxy, hdecode⟩ := exists_magnitude hproper hv
  obtain ⟨negative', x', y', rfl, hxy', hdecode'⟩ := exists_magnitude hproper hv'
  exact ⟨_, _, hdecode, hdecode',
    signed_mono (Magnitude.zero hproper) Magnitude.nonneg Magnitude.mono hxy hxy' hle⟩

/-! ## Numbers of the format -/

/-- All values that are the number of these bits are encoded as these bits. -/
theorem encode_of_same {bits : ℕ} (hlt : bits < 2 * 2 ^ (format.fractionBits + format.exponentBits))
    {v : FloatValue} (h : v.Same (format.decode bits)) : format.encode v = bits := by
  generalize hdecode : format.decode bits = decoded at h
  cases h with
  | infinite negative =>
    obtain ⟨hsign, hbits⟩ := of_decode_eq_infinite hdecode
    rw [eq_withSign hlt, hsign, hbits]
    rfl
  | @finite negative mantissa mantissa' exponent exponent' heq =>
    obtain ⟨hnumber, hsign, hbits⟩ := of_decode_eq_finite hdecode
    obtain ⟨scale, units, hrounds, hmagnitude⟩ := format.exists_rounds mantissa exponent
    rw [heq] at hrounds
    obtain ⟨rfl, rfl⟩ := hrounds.unique hnumber.rounds
    rw [eq_withSign hlt, hsign, hbits, encode, hmagnitude, Nat.min_eq_left hnumber.finite.le]

/-- A number with few digits is rounded to itself at any scale that is finer. -/
theorem Rounds.exact {mantissa : ℕ} {exponent scale : ℤ} {units : ℕ}
    (h : format.Rounds (mantissa * 2 ^ exponent) scale units) (hscale : scale ≤ exponent) :
    (units : ℚ) * 2 ^ scale = mantissa * 2 ^ exponent := by
  obtain ⟨steps, rfl⟩ : ∃ steps : ℕ, exponent = scale + steps :=
    ⟨(exponent - scale).toNat, by omega⟩
  have hwhole :
      (mantissa : ℚ) * 2 ^ (scale + steps) * 2 ^ (-scale) = (mantissa * 2 ^ steps : ℕ) := by
    rw [mul_assoc, ← zpow_add₀ (by norm_num), show scale + steps + -scale = (steps : ℤ) by omega,
      zpow_natCast]
    push_cast
    rfl
  have hnear := h.near
  rw [hwhole] at hnear
  rw [hnear.unique (.self _), ← hwhole, units_mul_scale]

/-- The format of 32 bits is proper. -/
theorem proper_binary32 : binary32.Proper := ⟨by decide, by decide⟩

/-- The format of 64 bits is proper. -/
theorem proper_binary64 : binary64.Proper := ⟨by decide, by decide⟩

/-- For 32 bits the threshold lies half a unit, of 24 bits, below two to the power 128. -/
theorem threshold_binary32 : binary32.threshold = 2 ^ 128 - 2 ^ 103 := by
  have htop : binary32.top = 255 := rfl
  have hleast : binary32.leastExponent = -149 := rfl
  have hbits : binary32.fractionBits = 23 := rfl
  rw [threshold, htop, hleast, hbits]
  norm_num

/-- A number of 32 bits has the same number among those of 64 bits. -/
theorem same_encode_binary32 {bits : ℕ} (hne : binary32.decode bits ≠ .nan) :
    (binary64.decode (binary64.encode (binary32.decode bits))).Same (binary32.decode bits) := by
  cases hdecode : binary32.decode bits with
  | nan => exact absurd hdecode hne
  | infinite negative =>
    rw [encode, decode_infinityBits]
    exact .infinite negative
  | finite negative mantissa exponent =>
    obtain ⟨hmantissa, hleast, hmost⟩ := Decimal.bounds_of_decode hdecode
    have hbound : (mantissa : ℚ) < (2 ^ 24 : ℕ) := Nat.cast_lt.2 hmantissa
    have hbelow : (mantissa : ℚ) * 2 ^ exponent < 2 ^ ((24 : ℕ) + exponent) := by
      rw [two_zpow_natCast_add]
      gcongr
    have hsmall : (mantissa : ℚ) * 2 ^ exponent < binary64.threshold := by
      have htop : binary64.top = 2047 := rfl
      have hlow : binary64.leastExponent = -1074 := rfl
      have hbits : binary64.fractionBits = 52 := rfl
      calc (mantissa : ℚ) * 2 ^ exponent < 2 ^ ((24 : ℕ) + exponent) := hbelow
        _ ≤ 2 ^ (128 : ℤ) := two_zpow_le (by push_cast; omega)
        _ ≤ 1 * 2 ^ (971 : ℤ) := by rw [one_mul]; exact two_zpow_le (by norm_num)
        _ ≤ (2 ^ 53 - 1 / 2) * 2 ^ (971 : ℤ) := by gcongr; norm_num
        _ = binary64.threshold := by rw [threshold, htop, hlow, hbits]; norm_num
    obtain ⟨scale, units, mantissa', exponent', hrounds, hencode, hvalue, -⟩ :=
      decode_encode_of_lt proper_binary64 negative hsmall
    rw [hencode]
    refine .finite (hvalue.trans (hrounds.exact ?_))
    -- Numbers of 64 bits have so many more digits that the scale is finer, or the least.
    by_contra hcoarse
    have hlow : binary64.leastExponent = -1074 := rfl
    have hbits : binary64.fractionBits = 52 := rfl
    have hge := hrounds.ge (by omega)
    have hpow : (2 : ℚ) ^ ((24 : ℕ) + exponent) ≤ 2 ^ (binary64.fractionBits + scale) :=
      two_zpow_le (by rw [hbits]; push_cast; omega)
    linarith

/-! ## Vectors and arrays -/

/-- With its sign, a magnitude has one bit more. -/
theorem withSign_lt (negative : Bool) {magnitude : ℕ}
    (hlt : magnitude < 2 ^ (format.fractionBits + format.exponentBits)) :
    format.withSign negative magnitude < 2 * 2 ^ (format.fractionBits + format.exponentBits) := by
  unfold withSign
  split <;> omega

/-- No magnitude is rounded beyond the bits of infinity. -/
theorem roundMagnitude_le (format : FloatFormat) (mantissa : ℕ) (exponent : ℤ) :
    format.roundMagnitude mantissa exponent ≤ format.infinityBits := by
  obtain ⟨scale, units, -, hbits⟩ := format.exists_rounds mantissa exponent
  exact hbits.trans_le (Nat.min_le_right _ _)

/-- What is no number has bits between those of infinity and the sign. -/
theorem nanBits_lt (hproper : format.Proper) :
    format.nanBits < 2 ^ (format.fractionBits + format.exponentBits) := by
  have hhalf := hproper.half_lt
  have hrows : (format.top + 1) * 2 ^ format.fractionBits =
      2 ^ (format.fractionBits + format.exponentBits) := by
    rw [top, Nat.sub_add_cancel (Nat.two_pow_pos _), Nat.pow_add, Nat.mul_comm]
  rw [← hrows, Nat.succ_mul, nanBits, infinityBits]
  omega

/-- The bits of a value fill the width of the format, with the sign, and no more. -/
theorem encode_lt (hproper : format.Proper) (v : FloatValue) :
    format.encode v < 2 * 2 ^ (format.fractionBits + format.exponentBits) := by
  cases v with
  | nan =>
    rw [encode]
    have := nanBits_lt hproper
    omega
  | infinite negative => exact withSign_lt negative format.infinityBits_lt
  | finite negative mantissa exponent =>
    exact withSign_lt negative
      ((format.roundMagnitude_le mantissa exponent).trans_lt format.infinityBits_lt)

/-- Narrowing reads the 64 bits and writes the 32 bits of what was read. -/
theorem toNat_narrow (bits : UInt64) :
    (narrow bits).toNat = binary32.encode (binary64.decode bits.toNat) :=
  UInt32.toNat_ofNat_of_lt' (encode_lt proper_binary32 _)

/-- The exact value of a number of 32 bits is narrowed to it. -/
theorem narrow_of_same {bits : UInt64} {narrowed : UInt32}
    (h : (binary64.decode bits.toNat).Same (binary32.decode narrowed.toNat)) :
    narrow bits = narrowed := by
  rw [narrow, encode_of_same narrowed.toNat_lt h, UInt32.ofNat_toNat]

/-- A number of 32 bits is the number of some 64 bits. -/
theorem exists_same {narrowed : UInt32} (hne : binary32.decode narrowed.toNat ≠ .nan) :
    ∃ bits : UInt64, (binary64.decode bits.toNat).Same (binary32.decode narrowed.toNat) := by
  refine ⟨.ofNat (binary64.encode (binary32.decode narrowed.toNat)), ?_⟩
  rw [UInt64.toNat_ofNat_of_lt' (encode_lt proper_binary64 _)]
  exact same_encode_binary32 hne

end FloatFormat

namespace ExactVector

/-- A vector of floating-point numbers has each of them narrowed, if there is memory for it. -/
theorem ofFloats_eq (items : List UInt64) :
    ofFloats items =
      (Allocation.request 4 items.length).map fun _ => (items.map FloatFormat.narrow).toArray := by
  have hrequest : Allocation.request (Layout.width UInt32) (items.map FloatFormat.narrow).length =
      Allocation.request 4 items.length := by
    rw [List.length_map]
    rfl
  rw [ofFloats, ofList, ofWidth, hrequest]
  cases Allocation.request 4 items.length <;> rfl

end ExactVector

namespace Foreign

/-- Given values, if any are needed, and memory for them, the constructors of arrays and of vectors
narrow each value. -/
theorem newFloats_of_supplied {values : Pointer (List UInt64)} {count : UInt64}
    (hneeded : values = none → count = 0) (hsupplied : Supplied 4 values count) :
    ∃ a : GrowableArray UInt32, newArrayOfFloats values count = some (.narrow a) ∧
      a.toList = ((values.getD []).take count.toNat).map FloatFormat.narrow ∧
      newVectorOfFloats values count =
        some (((values.getD []).take count.toNat).map FloatFormat.narrow).toArray := by
  have hgiven : count.toNat ≤ (values.getD []).length ∧
      Allocation.request 4 count.toNat = .ok () := by
    cases values with
    | none =>
      rw [hneeded rfl]
      exact ⟨Nat.zero_le _, rfl⟩
    | some list => exact hsupplied list rfl
  obtain ⟨hlength, hgranted⟩ := hgiven
  have hborrow : borrow values count = some ((values.getD []).take count.toNat) := by
    rcases borrow_cases values count with ⟨hnone, hcount, -⟩ | ⟨-, hborrow⟩
    · exact absurd (hneeded hnone) hcount
    · exact hborrow
  have htake : ((values.getD []).take count.toNat).length = count.toNat :=
    List.length_take_of_le hlength
  have hnarrowed : (((values.getD []).take count.toNat).map FloatFormat.narrow).length =
      count.toNat := by rw [List.length_map, htake]
  obtain ⟨a, ha, hholds⟩ := GrowableArray.ofPushes_of_granted hnarrowed hgranted
  refine ⟨a, ?_, hholds.toList, ?_⟩
  · rw [newArrayOfFloats, hborrow]
    show handle (boxed ((GrowableArray.ofPushes _).map ArrayHandle.narrow)) = _
    rw [boxed_eq (by decide), ha]
    rfl
  · rw [newVectorOfFloats, hborrow]
    show handle (ExactVector.ofFloats _) = _
    rw [ExactVector.ofFloats_eq, htake, hgranted]
    rfl

end Foreign

namespace FloatFormat

/-- Floating-point numbers are narrowed to the nearest one of 32 bits. Of a finite number this is no
farther than any other one of 32 bits, including the smallest, and if another one is as near, it has
the even significand. The sign stays, also where the result is zero. The result is an infinity
exactly if the number is one or its magnitude is at least `2 ^ 128 - 2 ^ 103`, and what is no number
comes from what is no number only. So narrowing keeps the order of numbers, and each number of 32
bits is the number of some 64 bits, all of which are narrowed to it. Vectors and arrays narrow
their items one by one. -/
theorem narrow_nearest :
    (∀ bits : UInt64,
      binary32.Nearest (binary64.decode bits.toNat) (binary32.decode (narrow bits).toNat)) ∧
    binary32.threshold = 2 ^ 128 - 2 ^ 103 ∧
    (∀ bits : UInt64, binary32.decode (narrow bits).toNat = .nan ↔
      binary64.decode bits.toNat = .nan) ∧
    (∀ (bits : UInt64) (negative : Bool),
      binary32.decode (narrow bits).toNat = .infinite negative ↔
        binary64.decode bits.toNat = .infinite negative ∨
          ∃ mantissa exponent, binary64.decode bits.toNat = .finite negative mantissa exponent ∧
            (2 : ℚ) ^ 128 - 2 ^ 103 ≤ mantissa * 2 ^ exponent) ∧
    (∀ (bits bits' : UInt64) (a a' : EReal), (binary64.decode bits.toNat).number? = some a →
      (binary64.decode bits'.toNat).number? = some a' → a ≤ a' →
        ∃ b b', (binary32.decode (narrow bits).toNat).number? = some b ∧
          (binary32.decode (narrow bits').toNat).number? = some b' ∧ b ≤ b') ∧
    (∀ narrowed : UInt32, binary32.decode narrowed.toNat ≠ .nan →
      (∃ bits : UInt64, (binary64.decode bits.toNat).Same (binary32.decode narrowed.toNat)) ∧
      ∀ bits : UInt64, (binary64.decode bits.toNat).Same (binary32.decode narrowed.toNat) →
        narrow bits = narrowed) ∧
    (∀ items : List UInt64, ExactVector.ofFloats items =
      (Allocation.request 4 items.length).map fun _ => (items.map narrow).toArray) ∧
    ∀ (values : Foreign.Pointer (List UInt64)) (count : UInt64), (values = none → count = 0) →
      Foreign.Supplied 4 values count →
        ∃ a : GrowableArray UInt32,
          Foreign.newArrayOfFloats values count = some (.narrow a) ∧
          a.toList = ((values.getD []).take count.toNat).map narrow ∧
          Foreign.newVectorOfFloats values count =
            some (((values.getD []).take count.toNat).map narrow).toArray := by
  have hnearest : ∀ bits : UInt64,
      binary32.Nearest (binary64.decode bits.toNat) (binary32.decode (narrow bits).toNat) := by
    intro bits
    rw [toNat_narrow]
    exact nearest_encode proper_binary32 _
  refine ⟨hnearest, threshold_binary32, fun bits => (hnearest bits).eq_nan_iff,
    fun bits negative => ?_, fun bits bits' a a' ha ha' hle => ?_,
    fun narrowed hne => ⟨exists_same hne, fun _ => narrow_of_same⟩, ExactVector.ofFloats_eq,
    fun values count => Foreign.newFloats_of_supplied⟩
  · rw [← threshold_binary32]
    exact (hnearest bits).eq_infinite_iff
  · rw [toNat_narrow, toNat_narrow]
    exact encode_mono proper_binary32 ha ha' hle

/-- Half of the smallest number, with a minus sign, is as near to zero as to that number. Half a
unit beyond the largest number is infinite. One and a little more than one come to the same. -/
theorem narrow_nearest_ties :
    binary32.Nearest (.finite true 4503599627370496 (-202)) (.finite true 0 (-149)) ∧
    binary32.decode (narrow 0x47effffff0000000).toNat = .infinite false ∧
    narrow 0x36a0000000000000 = 1 ∧
    (∃ b b', (binary32.decode (narrow 0x3ff0000000000000).toNat).number? = some b ∧
      (binary32.decode (narrow 0x3ff0000000000001).toNat).number? = some b' ∧ b ≤ b') ∧
    ExactVector.ofFloats [0x3ff0000000000001, 0xb690000000000000] =
      .ok #[0x3f800000, 0x80000000] ∧
    ∃ a : GrowableArray UInt32,
      Foreign.newArrayOfFloats (some [0x3ff0000000000001, 0xb690000000000000, 7]) 2 =
        some (.narrow a) ∧ a.toList = [0x3f800000, 0x80000000] := by
  obtain ⟨hnearest, -, -, hinfinite, hmono, hsame, hvector, harray⟩ := narrow_nearest
  have hnarrow :
      [0x3ff0000000000001, 0xb690000000000000].map narrow = [0x3f800000, 0x80000000] := by decide
  have hhalf := hnearest 0xb690000000000000
  rw [show binary64.decode (0xb690000000000000 : UInt64).toNat =
      .finite true 4503599627370496 (-202) by decide,
    show binary32.decode (narrow 0xb690000000000000).toNat = .finite true 0 (-149) by decide]
    at hhalf
  have hone : binary64.decode (0x3ff0000000000000 : UInt64).toNat =
      .finite false 4503599627370496 (-52) := by decide
  have hmore : binary64.decode (0x3ff0000000000001 : UInt64).toNat =
      .finite false 4503599627370497 (-52) := by decide
  have hlarge : binary64.decode (0x47effffff0000000 : UInt64).toNat =
      .finite false 9007198986305536 75 := by decide
  have hsmallest : binary32.decode (1 : UInt32).toNat = .finite false 1 (-149) := by decide
  have hwide : binary64.decode (0x36a0000000000000 : UInt64).toNat =
      .finite false 4503599627370496 (-201) := by decide
  obtain ⟨-, hundo⟩ := hsame 1 (by rw [hsmallest]; exact nofun)
  have hsupplied : Foreign.Supplied 4
      (some [(0x3ff0000000000001 : UInt64), 0xb690000000000000, 7]) 2 := by
    rintro _ ⟨⟩
    exact ⟨by decide, rfl⟩
  obtain ⟨a, ha, hitems, -⟩ := harray (some _) 2 nofun hsupplied
  refine ⟨hhalf, ?_, hundo _ ?_, hmono _ _ _ _ (by rw [hone]; rfl) (by rw [hmore]; rfl) ?_,
    (hvector _).trans (by rw [hnarrow]; rfl), a, ha, hitems.trans hnarrow⟩
  · exact (hinfinite _ _).2 (.inr ⟨_, _, hlarge, by norm_num⟩)
  · rw [hwide, hsmallest]
    exact .finite (by norm_num)
  · exact coe_ratCast_le.2 (by norm_num)

end FloatFormat

end Containers
