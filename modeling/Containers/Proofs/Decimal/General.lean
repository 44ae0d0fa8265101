import Containers.Proofs.Decimal.Notation
import Containers.Proofs.Decimal.Significant
import Containers.ShortText

/-!
# Short texts follow the general notation

The general notation of a number depends on its rounding to six significant digits alone
(`generalText`): the leading exponent after the rounding chooses between scientific and positional
notation, and the text is that of the rounded number, in its shortest form. `GeneralNotation` says
this of every value of a floating-point format. The short text of a number follows it although
positional notation rounds the exact number anew, because the new rounding meets the same digits
(`roundDecimal_eq_of_significant`). Numbers of 32 bits have exponents of two digits, so their texts
have at most twelve characters and fit.
-/

namespace Containers.Decimal

/-- The digits of an exponent, at least two. -/
def exponentDigits (n : ℕ) : List Char :=
  if n < 10 then ['0', Nat.digitChar n] else Nat.toDigits 10 n

/-- The text of the number of six digits, the first of which counts for ten to the power
`exponent`. -/
def generalText (mantissa : ℕ) (exponent : ℤ) : List Char :=
  if exponent < -4 ∨ 6 ≤ exponent then
    fixedText 5 mantissa ++
      'e' :: (if exponent < 0 then '-' else '+') :: exponentDigits exponent.natAbs
  else fixedText (5 - exponent).toNat mantissa

/-- A minus sign, if there is one. -/
def sign (negative : Bool) : List Char := if negative then ['-'] else []

/-- The text of a value in general notation. -/
inductive GeneralNotation : FloatValue → List Char → Prop where
  | nan : GeneralNotation .nan ['n', 'a', 'n']
  | infinite (negative : Bool) :
    GeneralNotation (.infinite negative) (sign negative ++ ['i', 'n', 'f'])
  | zero (negative : Bool) (exponent : ℤ) :
    GeneralNotation (.finite negative 0 exponent) (sign negative ++ ['0'])
  | rounded {negative : Bool} {mantissa : ℕ} {exponent : ℤ} {digits : ℕ} {tens : ℤ}
    (hne : mantissa ≠ 0) (hdigits : Significant 5 (mantissa * 2 ^ exponent) digits tens) :
    GeneralNotation (.finite negative mantissa exponent) (sign negative ++ generalText digits tens)

/-! ## The two notations -/

/-- An exponent is padded to two digits. -/
theorem padded_two_digits (n : ℕ) : padded 2 (digits n) = exponentDigits n := by
  rw [exponentDigits]
  split
  next hlt =>
    rw [digits_of_lt hlt, digitChar_eq hlt]
    rfl
  next hge =>
    have hfirst := List.length_pos_iff.2 (digits_ne_nil (n / 10))
    rw [← digits_eq_toDigits, padded, digits_of_le (Nat.le_of_not_lt hge), List.length_append,
      List.length_singleton, show 2 - ((digits (n / 10)).length + 1) = 0 by omega]
    rfl

/-- Rounding the exact number at the unit of its last significant digit gives these digits. -/
theorem roundDecimal_eq_of_significant {places num den mantissa : ℕ} {exponent : ℤ}
    (hden : 0 < den) (h : Significant places (num / den) mantissa exponent) :
    roundDecimal num den (places - exponent) = mantissa :=
  (nearestEven_roundDecimal num hden (places - exponent)).unique h.nearestEven

/-- The magnitude of a number other than zero is the text of its six significant digits. -/
theorem magnitudeText_eq {num den mantissa : ℕ} {exponent : ℤ} (hnum : 0 < num) (hden : 0 < den)
    (h : Significant 5 (num / den) mantissa exponent) :
    GeneralStyle.short.magnitudeText num den = generalText mantissa exponent := by
  obtain ⟨hmantissa, hexponent⟩ := (significant_scientific 5 hnum hden).unique h
  have hscientific : scientific 5 num den = (mantissa, exponent) := Prod.ext hmantissa hexponent
  have hstyle : GeneralStyle.short = ⟨6, -4, 2⟩ := rfl
  rw [GeneralStyle.magnitudeText, generalText, hstyle]
  simp only [Nat.add_one_sub_one, Nat.cast_ofNat, hscientific]
  by_cases hrange : exponent < -4 ∨ 6 ≤ exponent
  · rw [if_pos hrange, if_pos hrange, stripZeros_positional, GeneralStyle.exponentText,
      padded_two_digits]
  · have hplaces : ((5 - exponent).toNat : ℤ) = (5 : ℕ) - exponent := by omega
    rw [if_neg hrange, if_neg hrange, stripZeros_positional, hplaces,
      roundDecimal_eq_of_significant hden h]

/-- The magnitude of zero. -/
theorem magnitudeText_zero (den : ℕ) : GeneralStyle.short.magnitudeText 0 den = ['0'] := by
  have hround : roundDecimal 0 den 5 = 0 := by simp [roundDecimal, roundQuotient]
  show stripZeros (positional 5 (roundDecimal 0 den 5)) = ['0']
  rw [hround, stripZeros_positional]
  decide

/-! ## Values -/

/-- The magnitude of a number as the quotient that is written. -/
theorem cast_magnitude (mantissa : ℕ) (exponent : ℤ) :
    ((mantissa * 2 ^ exponent.toNat : ℕ) : ℚ) / (2 ^ (-exponent).toNat : ℕ) =
      mantissa * 2 ^ exponent := by
  rw [zpow_eq_div (by norm_num) exponent, ← mul_div_assoc]
  push_cast
  rfl

/-- A text gets a minus sign in front of it if it is negative, and nothing otherwise. -/
theorem signed_eq (negative : Bool) (cs : List Char) :
    GeneralStyle.text.signed negative cs = sign negative ++ cs := by
  cases negative <;> rfl

/-- The text of a value follows the general notation. -/
theorem generalNotation_text (v : FloatValue) : GeneralNotation v (GeneralStyle.short.text v) := by
  cases v with
  | nan => exact .nan
  | infinite negative =>
    rw [GeneralStyle.text, signed_eq]
    exact .infinite negative
  | finite negative mantissa exponent =>
    rw [GeneralStyle.text, signed_eq]
    rcases Nat.eq_zero_or_pos mantissa with rfl | hpos
    · rw [Nat.zero_mul, magnitudeText_zero]
      exact .zero negative exponent
    · have hnum : 0 < mantissa * 2 ^ exponent.toNat := Nat.mul_pos hpos (Nat.two_pow_pos _)
      have hdigits := significant_scientific 5 hnum (Nat.two_pow_pos (-exponent).toNat)
      rw [magnitudeText_eq hnum (Nat.two_pow_pos _) hdigits]
      rw [cast_magnitude] at hdigits
      exact .rounded hpos.ne' hdigits

namespace GeneralNotation

variable {v : FloatValue} {cs cs' : List Char}

/-- A value has one text. -/
theorem unique (h : GeneralNotation v cs) (h' : GeneralNotation v cs') : cs = cs' := by
  cases h with
  | nan =>
    cases h'
    rfl
  | infinite negative =>
    cases h'
    rfl
  | zero negative exponent =>
    cases h' with
    | zero => rfl
    | rounded hne => exact absurd rfl hne
  | rounded hne hdigits =>
    cases h' with
    | zero => exact absurd rfl hne
    | rounded _ hdigits' =>
      obtain ⟨rfl, rfl⟩ := hdigits.unique hdigits'
      rfl

end GeneralNotation

/-! ## Numbers of 32 bits -/

/-- Between two powers of ten a number keeps to their exponents. -/
theorem Significant.exponent_bounds {places : ℕ} {q : ℚ} {mantissa : ℕ} {exponent low high : ℤ}
    (h : Significant places q mantissa exponent) (hlow : 10 ^ low ≤ q) (hhigh : q < 10 ^ high) :
    low ≤ exponent ∧ exponent ≤ high := by
  have hleads : ∀ {e : ℤ}, Leads q e → low ≤ e ∧ e < high := fun hleads =>
    ⟨Int.lt_add_one_iff.1 ((zpow_lt_zpow_iff_right₀ (by norm_num)).1 (hlow.trans_lt hleads.2)),
      (zpow_lt_zpow_iff_right₀ (by norm_num)).1 (hleads.1.trans_lt hhigh)⟩
  cases h with
  | plain h =>
    have := hleads h
    omega
  | carry h =>
    have := hleads h
    omega

/-- The mantissas and exponents of finite numbers. -/
theorem bounds_of_decode {bits : ℕ} {negative : Bool} {mantissa : ℕ} {exponent : ℤ}
    (h : FloatFormat.binary32.decode bits = .finite negative mantissa exponent) :
    mantissa < 2 ^ 24 ∧ -149 ≤ exponent ∧ exponent ≤ 104 := by
  have hfraction : FloatFormat.binary32.fraction bits < 2 ^ 23 := Nat.mod_lt _ (by decide)
  have hbiased : FloatFormat.binary32.biased bits < 256 := Nat.mod_lt _ (by decide)
  have htop : FloatFormat.binary32.top = 255 := rfl
  have hleast : FloatFormat.binary32.leastExponent = -149 := rfl
  have hleading : 2 ^ FloatFormat.binary32.fractionBits = 2 ^ 23 := rfl
  unfold FloatFormat.decode at h
  rw [htop, hleast] at h
  dsimp only at h
  split at h
  next => split at h <;> cases h
  next hbelow =>
    split at h
    next =>
      cases h
      omega
    next =>
      cases h
      rw [hleading]
      omega

/-- The exponent of a number of 32 bits has at most two decimal digits. -/
theorem tens_bounds {bits : ℕ} {negative : Bool} {mantissa : ℕ} {exponent : ℤ}
    (h : FloatFormat.binary32.decode bits = .finite negative mantissa exponent)
    (hne : mantissa ≠ 0) {places digits : ℕ} {tens : ℤ}
    (hdigits : Significant places (mantissa * 2 ^ exponent) digits tens) :
    -45 ≤ tens ∧ tens ≤ 39 := by
  obtain ⟨hmantissa, hleast, hgreatest⟩ := bounds_of_decode h
  have hone : (1 : ℚ) ≤ mantissa := by exact_mod_cast Nat.one_le_iff_ne_zero.2 hne
  have hlow : (10 : ℚ) ^ (-45 : ℤ) ≤ mantissa * 2 ^ exponent :=
    calc (10 : ℚ) ^ (-45 : ℤ) ≤ 2 ^ (-149 : ℤ) := by norm_num
      _ ≤ 2 ^ exponent := zpow_le_zpow_right₀ (by norm_num) hleast
      _ ≤ mantissa * 2 ^ exponent := le_mul_of_one_le_left (by positivity) hone
  have hhigh : (mantissa : ℚ) * 2 ^ exponent < 10 ^ (39 : ℤ) :=
    calc (mantissa : ℚ) * 2 ^ exponent ≤ 2 ^ 24 * 2 ^ (104 : ℤ) := by
          gcongr
          · exact_mod_cast hmantissa.le
          · norm_num
      _ < 10 ^ (39 : ℤ) := by norm_num
  exact hdigits.exponent_bounds hlow hhigh

/-- An exponent below a hundred has two digits. -/
theorem length_exponentDigits_le {n : ℕ} (hn : n < 100) : (exponentDigits n).length ≤ 2 := by
  unfold exponentDigits
  split
  · rfl
  · exact (Nat.length_toDigits_le_iff (by decide) (by decide)).2 hn

/-- A fraction has no more characters than there are places, and the point. -/
theorem length_fractionText_le (places units : ℕ) :
    (fractionText places units).length ≤ places + 1 := by
  have hle := (List.rdropWhile_prefix (· = '0') (fractionDigits places units)).length_le
  rw [length_fractionDigits] at hle
  unfold fractionText
  split
  next => exact Nat.zero_le _
  next => exact Nat.succ_le_succ hle

/-- A number in positional notation has its whole digits, and at most the places and the point. -/
theorem length_fixedText_le {places units whole : ℕ} (hwhole : 0 < whole)
    (hunits : units < 10 ^ (places + whole)) :
    (fixedText places units).length ≤ whole + (places + 1) := by
  rw [Nat.pow_add] at hunits
  rw [fixedText, List.length_append]
  exact Nat.add_le_add
    ((Nat.length_toDigits_le_iff (by decide) hwhole).2 (Nat.div_lt_of_lt_mul hunits))
    (length_fractionText_le places units)

/-- Six digits and two of an exponent make short texts. -/
theorem length_generalText_le {mantissa : ℕ} {exponent : ℤ} (hmantissa : mantissa < 10 ^ 6)
    (hexponent : exponent.natAbs < 100) : (generalText mantissa exponent).length ≤ 11 := by
  unfold generalText
  split
  next =>
    have hfixed : (fixedText 5 mantissa).length ≤ 1 + (5 + 1) :=
      length_fixedText_le (by decide) hmantissa
    have hdigits := length_exponentDigits_le hexponent
    simp only [List.length_append, List.length_cons]
    omega
  next hrange =>
    -- Positional notation has as many digits in front of the point as fill up the six, or one.
    have hsix : 6 ≤ (5 - exponent).toNat + max 1 (6 - (5 - exponent).toNat) := by omega
    have hfixed := length_fixedText_le (by omega)
      (hmantissa.trans_le (Nat.pow_le_pow_right (by decide) hsix))
    omega

/-- A sign makes a text one character longer at most. -/
theorem length_sign_append_le {cs : List Char} (hlength : cs.length ≤ 11) (negative : Bool) :
    (sign negative ++ cs).length ≤ 12 := by
  cases negative with
  | false => exact Nat.le_succ_of_le hlength
  | true => exact Nat.succ_le_succ hlength

/-- Every text is short. -/
theorem length_shortText_le (bits : UInt32) : (shortText bits).length ≤ 12 := by
  have htext : GeneralNotation (FloatFormat.binary32.decode bits.toNat) (shortText bits) :=
    generalNotation_text _
  generalize hvalue : FloatFormat.binary32.decode bits.toNat = v at htext
  generalize shortText bits = cs at htext ⊢
  cases htext with
  | nan => decide
  | infinite negative => exact length_sign_append_le (by decide) negative
  | zero negative => exact length_sign_append_le (by decide) negative
  | @rounded negative _ _ digits tens hne hdigits =>
    have hbounds := tens_bounds hvalue hne hdigits
    have htens : tens.natAbs < 100 := by omega
    exact length_sign_append_le (length_generalText_le hdigits.bounds.2 htens) negative

/-- A short text is made of every number, and it follows the general notation: it is the only text
that does. The rounding to six significant digits is what its two notations show. There is exactly
one for every number that is not zero, it has six digits, and positional notation, which rounds the
number anew at the unit of the last digit, meets the same digits. -/
theorem shortText_follows_generalNotation (bits : UInt32) :
    let value := FloatFormat.binary32.decode bits.toNat
    (∀ cs, GeneralNotation value cs ↔ cs = shortText bits) ∧
    (∃ text, ShortText.ofFloat? bits = some text ∧
      text.bytes = (shortText bits).map Char.toUInt8) ∧
    ∀ negative mantissa exponent, value = .finite negative mantissa exponent → mantissa ≠ 0 →
      ∃ digits tens, Significant 5 (mantissa * 2 ^ exponent) digits tens ∧
        (∀ digits' tens', Significant 5 (mantissa * 2 ^ exponent) digits' tens' →
          digits' = digits ∧ tens' = tens) ∧
        100000 ≤ digits ∧ digits < 1000000 ∧
        (-4 ≤ tens → tens < 6 → ∀ num den : ℕ, 0 < den →
          (num : ℚ) / den = mantissa * 2 ^ exponent →
            roundDecimal num den (5 - tens) = digits) := by
  intro value
  have htext : GeneralNotation value (shortText bits) := generalNotation_text value
  refine ⟨fun cs => ⟨fun h => h.unique htext, fun h => h ▸ htext⟩, ?_, ?_⟩
  · have hroom : ((shortText bits).map Char.toUInt8).length ≤ ShortText.room := by
      rw [List.length_map]
      exact (length_shortText_le bits).trans (by decide)
    exact ⟨⟨_, hroom⟩, dif_pos hroom, rfl⟩
  · intro negative mantissa exponent hvalue hne
    have hpos : (0 : ℚ) < mantissa := Nat.cast_pos.2 (Nat.pos_of_ne_zero hne)
    obtain ⟨digits, tens, hdigits⟩ :=
      exists_significant 5 (mul_pos hpos (zpow_pos (show (0 : ℚ) < 2 by norm_num) exponent))
    refine ⟨digits, tens, hdigits, fun _ _ h => h.unique hdigits, hdigits.bounds.1,
      hdigits.bounds.2, ?_⟩
    intro _ _ num den hden hquotient
    rw [← hquotient] at hdigits
    exact roundDecimal_eq_of_significant hden hdigits

/-- The number nearest to a ten-thousandth is less than that. It is rounded up to one digit more,
which brings it into positional notation. -/
theorem shortText_follows_generalNotation_carry :
    FloatFormat.binary32.decode (953267991 : UInt32).toNat = .finite false 13743895 (-37) ∧
      Significant 5 (13743895 * 2 ^ (-37 : ℤ)) 100000 (-4) ∧
      shortText 953267991 = ['0', '.', '0', '0', '0', '1'] ∧
      roundDecimal 13743895 137438953472 9 = 100000 := by
  have hvalue : FloatFormat.binary32.decode (953267991 : UInt32).toNat =
      .finite false 13743895 (-37) := by decide
  have hcarry : Significant 5 (13743895 * 2 ^ (-37 : ℤ)) (10 ^ 5) (-5 + 1) :=
    .carry (by constructor <;> norm_num) (.of_abs_lt (by norm_num [abs_lt]))
  obtain ⟨htext, -, hrounded⟩ := shortText_follows_generalNotation 953267991
  obtain ⟨digits, tens, -, hunique, -, -, hround⟩ :=
    hrounded false 13743895 (-37) hvalue (by decide)
  obtain ⟨rfl, rfl⟩ := hunique _ _ hcarry
  refine ⟨hvalue, hcarry, ?_, hround (by decide) (by decide) _ _ (by decide) (by norm_num)⟩
  have hnotation := @GeneralNotation.rounded false 13743895 (-37) _ _ (by decide) hcarry
  rw [hvalue] at htext
  rw [← (htext _).1 hnotation]
  decide

end Containers.Decimal
