import Containers.Proofs.Decimal.Numeral
import Containers.Proofs.FloatFormat.Numbers

/-!
# Short texts keep the order

What the text of a number shows is the number rounded to six significant digits (`Shown`). A larger
number does not show as a smaller one (`Shown.mono`), whichever notations the two are written in,
because the rounding keeps the order also where its unit changes. Texts that stand for the same
number are the same (`Shown.text_eq`), up to the sign of zero. The sign of a number is a minus sign
in front of its text and nothing else (`toggleSign_text`).
-/

namespace Containers.Decimal

open FloatFormat

-- Powers are the numbers' own, also where those of monoids are known.
attribute [local instance (high)] instPowNat

/-- A magnitude, the number that its text shows, and the text. -/
inductive Shown : EReal → EReal → List Char → Prop where
  | infinite : Shown ⊤ ⊤ ['i', 'n', 'f']
  | zero : Shown 0 0 ['0']
  | rounded {q : ℚ} {mantissa : ℕ} {exponent : ℤ} (hdigits : Significant 5 q mantissa exponent) :
    Shown (q : ℝ) ((mantissa * 10 ^ (exponent - (5 : ℕ)) : ℚ) : ℝ) (generalText mantissa exponent)

/-- A text with a minus sign in front of it, or without the one that it has. -/
def toggleSign : List Char → List Char
  | '-' :: cs => cs
  | cs => '-' :: cs

/-- The text of a magnitude starts with a digit. -/
theorem generalText_eq_cons (mantissa : ℕ) (exponent : ℤ) :
    ∃ c cs, generalText mantissa exponent = c :: cs ∧ c.isDigit := by
  have hfixed : ∀ places, ∃ c cs, fixedText places mantissa = c :: cs ∧ c.isDigit := by
    intro places
    obtain ⟨c, cs, hdigits⟩ := List.exists_cons_of_ne_nil (digits_ne_nil (mantissa / 10 ^ places))
    have hmem : c ∈ digits (mantissa / 10 ^ places) := by simp [hdigits]
    exact ⟨c, _, by rw [fixedText_eq, hdigits, List.cons_append], isDigit_of_mem_digits hmem⟩
  unfold generalText
  split
  · obtain ⟨c, cs, htext, hdigit⟩ := hfixed 5
    exact ⟨c, _, by rw [htext, List.cons_append], hdigit⟩
  · exact hfixed _

namespace Shown

variable {a x a' x' : EReal} {cs cs' : List Char}

/-- A magnitude is not negative. -/
theorem nonneg (h : Shown a x cs) : 0 ≤ a := by
  cases h with
  | infinite => exact le_top
  | zero => exact le_rfl
  | rounded hdigits => exact_mod_cast hdigits.pos.le

/-- A greater magnitude does not show as a smaller number. -/
theorem mono (h : Shown a x cs) (h' : Shown a' x' cs') (hle : a ≤ a') : x ≤ x' := by
  cases h' with
  | infinite => exact le_top
  | zero =>
    cases h with
    | infinite => exact hle
    | zero => exact le_rfl
    | rounded hdigits => exact absurd hle (by exact_mod_cast not_le.2 hdigits.pos)
  | rounded hdigits' =>
    cases h with
    | infinite => exact absurd hle (not_le.2 (EReal.coe_lt_top _))
    | zero => exact_mod_cast hdigits'.value_pos.le
    | rounded hdigits => exact coe_ratCast_le.2 (hdigits.value_mono hdigits' (coe_ratCast_le.1 hle))

/-- What is shown of a magnitude is not negative. -/
theorem nonneg_shown (h : Shown a x cs) : 0 ≤ x := zero.mono h h.nonneg

/-- Only zero shows as zero. -/
theorem eq_zero (h : Shown a x cs) (hx : x = 0) : a = 0 := by
  cases h with
  | infinite => exact hx
  | zero => rfl
  | rounded hdigits => exact absurd hx (by exact_mod_cast hdigits.value_pos.ne')

/-- The same number is shown by one text. -/
theorem text_eq (h : Shown a x cs) (h' : Shown a' x' cs') (heq : x = x') : cs = cs' := by
  cases h with
  | infinite =>
    cases h' with
    | infinite => rfl
    | zero => exact absurd heq EReal.top_ne_zero
    | rounded => exact absurd heq.symm (EReal.coe_ne_top _)
  | zero =>
    cases h' with
    | infinite => exact absurd heq EReal.zero_ne_top
    | zero => rfl
    | rounded hdigits' => exact absurd heq.symm (by exact_mod_cast hdigits'.value_pos.ne')
  | rounded hdigits =>
    cases h' with
    | infinite => exact absurd heq (EReal.coe_ne_top _)
    | zero => exact absurd heq (by exact_mod_cast hdigits.value_pos.ne')
    | rounded hdigits' =>
      obtain ⟨rfl, rfl⟩ := hdigits.eq_of_value_eq hdigits' (coe_ratCast_inj.1 heq)
      rfl

/-- The text of a magnitude has no sign. -/
theorem head_ne (h : Shown a x cs) : cs.head? ≠ some '-' := by
  cases h with
  | infinite => decide
  | zero => decide
  | @rounded q mantissa exponent hdigits =>
    obtain ⟨c, cs, htext, hdigit⟩ := generalText_eq_cons mantissa exponent
    rw [htext]
    intro hhead
    rw [Option.some.inj hhead] at hdigit
    exact absurd hdigit (by decide)

/-- The text of a magnitude is read as the number that is shown. -/
theorem unsigned? (h : Shown a x cs) : readNumber?.unsigned? cs = some x := by
  cases h with
  | infinite => exact if_pos rfl
  | zero =>
    have hread := readMagnitude?_generalText 0 0
    rw [show generalText 0 0 = ['0'] by decide] at hread
    rw [readNumber?.unsigned?, if_neg (by decide), hread]
    simp
  | @rounded q mantissa exponent hdigits =>
    obtain ⟨c, cs, htext, hdigit⟩ := generalText_eq_cons mantissa exponent
    have hne : generalText mantissa exponent ≠ ['i', 'n', 'f'] := by
      rw [htext]
      rintro ⟨⟩
      exact absurd hdigit (by decide)
    rw [readNumber?.unsigned?, if_neg hne, readMagnitude?_generalText]
    rfl

/-- The text of a magnitude with a sign is read as the number that is shown, with that sign. -/
theorem read (h : Shown a x cs) (negative : Bool) :
    readNumber? (sign negative ++ cs) = some (signed negative x) := by
  cases negative with
  | true =>
    show (readNumber?.unsigned? cs).map Neg.neg = some (-x)
    rw [h.unsigned?]
    rfl
  | false =>
    show readNumber? cs = some x
    unfold readNumber?
    split
    next rest => exact absurd rfl h.head_ne
    next => exact h.unsigned?

/-- Toggling the sign of a text leaves the text of the magnitude as it is. -/
theorem toggleSign (h : Shown a x cs) (negative : Bool) :
    toggleSign (sign negative ++ cs) = sign (!negative) ++ cs := by
  cases negative with
  | true => rfl
  | false =>
    show Decimal.toggleSign cs = '-' :: cs
    unfold Decimal.toggleSign
    split
    next rest => exact absurd rfl h.head_ne
    next => rfl

end Shown

/-! ## Values -/

/-- What there is to say of a value that is a number: its sign and its magnitude, what is shown of
the magnitude, and its text. The value with the other sign has the same text with the other sign. -/
structure Written (v : FloatValue) (negative : Bool) (a x : EReal) (cs : List Char) : Prop where
  shown : Shown a x cs
  number : v.number? = some (signed negative a)
  text : GeneralStyle.short.text v = sign negative ++ cs
  text_neg : GeneralStyle.short.text v.neg = sign (!negative) ++ cs
  zero : a = 0 → ∃ exponent, v = .finite negative 0 exponent

/-- Every finite magnitude is shown by its text. -/
theorem exists_shown (mantissa : ℕ) (exponent : ℤ) :
    ∃ x, Shown ((mantissa * 2 ^ exponent : ℚ) : ℝ) x (GeneralStyle.short.magnitudeText
      (mantissa * 2 ^ exponent.toNat) (2 ^ (-exponent).toNat)) := by
  rcases Nat.eq_zero_or_pos mantissa with rfl | hpos
  · rw [Nat.zero_mul, magnitudeText_zero]
    exact ⟨0, by simpa using Shown.zero⟩
  · have hnum : 0 < mantissa * 2 ^ exponent.toNat := Nat.mul_pos hpos (Nat.two_pow_pos _)
    have hdigits := significant_scientific 5 hnum (Nat.two_pow_pos (-exponent).toNat)
    rw [magnitudeText_eq hnum (Nat.two_pow_pos _) hdigits]
    rw [cast_magnitude] at hdigits
    exact ⟨_, .rounded hdigits⟩

/-- Every value that is a number has a sign, a magnitude and a text. -/
theorem exists_written {v : FloatValue} (hv : v ≠ .nan) :
    ∃ negative a x cs, Written v negative a x cs := by
  cases v with
  | nan => exact absurd rfl hv
  | infinite negative =>
    exact ⟨negative, ⊤, ⊤, _, .infinite, rfl, signed_eq _ _, signed_eq _ _,
      fun htop => absurd htop EReal.top_ne_zero⟩
  | finite negative mantissa exponent =>
    obtain ⟨x, hshown⟩ := exists_shown mantissa exponent
    refine ⟨negative, _, x, _, hshown, rfl, signed_eq _ _, signed_eq _ _, fun hzero => ?_⟩
    have hproduct : (mantissa : ℚ) * 2 ^ exponent = 0 := by exact_mod_cast hzero
    have hmantissa : mantissa = 0 := by
      exact_mod_cast (mul_eq_zero.1 hproduct).resolve_right (zpow_ne_zero _ (by norm_num))
    exact ⟨exponent, by rw [hmantissa]⟩

/-- The text of a number is read as what is shown of its magnitude, with its sign. -/
theorem Written.read {v : FloatValue} {negative : Bool} {a x : EReal} {cs : List Char}
    (h : Written v negative a x cs) :
    readNumber? (GeneralStyle.short.text v) = some (signed negative x) := by
  rw [h.text]
  exact h.shown.read negative

/-- What stands for a number is not the value that is no number. -/
theorem ne_nan_of_number?_eq_some {v : FloatValue} {a : EReal} (hv : v.number? = some a) :
    v ≠ .nan := by
  rintro rfl
  cases hv

/-- A text stands for a number unless it is that of no number. -/
theorem readNumber?_text_eq_none_iff (v : FloatValue) :
    readNumber? (GeneralStyle.short.text v) = none ↔ v = .nan := by
  constructor
  · intro hnone
    by_contra hv
    obtain ⟨negative, a, x, cs, hwritten⟩ := exists_written hv
    rw [hwritten.read] at hnone
    cases hnone
  · rintro rfl
    show readNumber?.unsigned? ['n', 'a', 'n'] = none
    rw [readNumber?.unsigned?, if_neg (by decide)]
    rfl

/-- The texts of numbers keep their order. -/
theorem readNumber?_text_mono {v v' : FloatValue} {a a' : EReal} (hv : v.number? = some a)
    (hv' : v'.number? = some a') (hle : a ≤ a') :
    ∃ x x', readNumber? (GeneralStyle.short.text v) = some x ∧
      readNumber? (GeneralStyle.short.text v') = some x' ∧ x ≤ x' := by
  obtain ⟨negative, a, x, cs, hwritten⟩ := exists_written (ne_nan_of_number?_eq_some hv)
  obtain ⟨negative', a', x', cs', hwritten'⟩ := exists_written (ne_nan_of_number?_eq_some hv')
  obtain rfl := Option.some.inj (hwritten.number.symm.trans hv)
  obtain rfl := Option.some.inj (hwritten'.number.symm.trans hv')
  refine ⟨_, _, hwritten.read, hwritten'.read, ?_⟩
  exact signed_mono (R := fun a x => ∃ cs, Shown a x cs) ⟨_, .zero⟩ (fun ⟨_, h⟩ => h.nonneg)
    (fun ⟨_, h⟩ ⟨_, h'⟩ => h.mono h') ⟨_, hwritten.shown⟩ ⟨_, hwritten'.shown⟩ hle

/-- The other sign of a number is the other sign of its text. -/
theorem toggleSign_text {v : FloatValue} (hv : v ≠ .nan) :
    GeneralStyle.short.text v.neg = toggleSign (GeneralStyle.short.text v) := by
  obtain ⟨negative, a, x, cs, hwritten⟩ := exists_written hv
  rw [hwritten.text, hwritten.text_neg, hwritten.shown.toggleSign]

/-- Texts that stand for one number differ at most by the sign of zero. -/
theorem text_eq_of_readNumber?_eq {v v' : FloatValue} (hv : v ≠ .nan) (hv' : v' ≠ .nan)
    (heq : readNumber? (GeneralStyle.short.text v) = readNumber? (GeneralStyle.short.text v')) :
    GeneralStyle.short.text v = GeneralStyle.short.text v' ∨
      ∃ negative exponent exponent',
        v = .finite negative 0 exponent ∧ v' = .finite (!negative) 0 exponent' := by
  obtain ⟨negative, a, x, cs, hwritten⟩ := exists_written hv
  obtain ⟨negative', a', x', cs', hwritten'⟩ := exists_written hv'
  rw [hwritten.read, hwritten'.read, Option.some_inj] at heq
  obtain ⟨rfl, hsign⟩ :=
    signed_inj hwritten.shown.nonneg_shown hwritten'.shown.nonneg_shown heq
  by_cases hsame : negative = negative'
  · left
    rw [hwritten.text, hwritten'.text, hsame, hwritten.shown.text_eq hwritten'.shown rfl]
  · right
    have hzero := hsign.resolve_left hsame
    obtain ⟨exponent, hv⟩ := hwritten.zero (hwritten.shown.eq_zero hzero)
    obtain ⟨exponent', hv'⟩ := hwritten'.zero (hwritten'.shown.eq_zero hzero)
    have hother : negative' = !negative := by
      cases negative <;> cases negative' <;> simp_all
    exact ⟨negative, exponent, exponent', hv, hother ▸ hv'⟩

/-! ## Numbers of 32 bits -/

/-- Only two of the numbers of 32 bits are zero. -/
theorem eq_of_decode_eq_zero {bits : UInt32} {negative : Bool} {exponent : ℤ}
    (h : binary32.decode bits.toNat = .finite negative 0 exponent) :
    bits = if negative then 0x80000000 else 0 := by
  obtain ⟨hnumber, hsign, hbits⟩ := of_decode_eq_finite h
  have hleast : exponent = binary32.leastExponent := by
    by_contra hne
    exact absurd (hnumber.ge (lt_of_le_of_ne hnumber.least (Ne.symm hne))) (by decide)
  rw [hleast, magnitudeBits, Int.sub_self, Int.toNat_zero, Nat.zero_mul] at hbits
  have hsplit : bits.toNat = binary32.withSign (binary32.isNegative bits.toNat)
      (bits.toNat % 2 ^ (binary32.fractionBits + binary32.exponentBits)) :=
    eq_withSign bits.toNat_lt
  rw [hsign, hbits] at hsplit
  rw [← UInt32.toNat_inj, hsplit]
  cases negative <;> rfl

/-- Zero has two texts, which stand for the same number. -/
theorem readNumber?_zero : readNumber? (shortText 0) = readNumber? (shortText 0x80000000) := by
  have hzero : shortText 0 = sign false ++ ['0'] := by decide +kernel
  have hnegative : shortText 0x80000000 = sign true ++ ['0'] := by decide +kernel
  rw [hzero, hnegative, Shown.zero.read, Shown.zero.read]
  simp [signed]

/-- Negating a number of 32 bits flips its first bit. -/
theorem decode_xor (bits : UInt32) :
    binary32.decode (bits ^^^ 0x80000000).toNat = (binary32.decode bits.toNat).neg := by
  rw [UInt32.toNat_xor]
  exact decode_negate bits.toNat

/-- Short texts keep order and sign. A text stands for a number unless it is that of no number. The
text of the smaller number stands for the smaller number, or for the same. Flipping the sign of a
number adds a minus sign to its text or takes it away. Texts stand for the same number just if they
are the same, or are those of zero with either sign. -/
theorem shortText_keeps_order :
    (∀ bits : UInt32, readNumber? (shortText bits) = none ↔ binary32.decode bits.toNat = .nan) ∧
    (∀ (bits bits' : UInt32) (a a' : EReal), (binary32.decode bits.toNat).number? = some a →
      (binary32.decode bits'.toNat).number? = some a' → a ≤ a' →
        ∃ x x', readNumber? (shortText bits) = some x ∧ readNumber? (shortText bits') = some x' ∧
          x ≤ x') ∧
    (∀ bits : UInt32, binary32.decode bits.toNat ≠ .nan →
      binary32.decode (bits ^^^ 0x80000000).toNat = (binary32.decode bits.toNat).neg ∧
      shortText (bits ^^^ 0x80000000) = toggleSign (shortText bits)) ∧
    (∀ bits bits' : UInt32, binary32.decode bits.toNat ≠ .nan →
      binary32.decode bits'.toNat ≠ .nan →
      (readNumber? (shortText bits) = readNumber? (shortText bits') ↔
        shortText bits = shortText bits' ∨ bits = 0 ∧ bits' = 0x80000000 ∨
          bits = 0x80000000 ∧ bits' = 0)) := by
  refine ⟨fun bits => readNumber?_text_eq_none_iff _,
    fun bits bits' a a' => readNumber?_text_mono, fun bits hne => ⟨decode_xor bits, ?_⟩, ?_⟩
  · rw [shortText, decode_xor]
    exact toggleSign_text hne
  · intro bits bits' hne hne'
    constructor
    · intro heq
      rcases text_eq_of_readNumber?_eq hne hne' heq with
        htext | ⟨negative, exponent, exponent', hzero, hzero'⟩
      · exact .inl htext
      · have hbits := eq_of_decode_eq_zero hzero
        have hbits' := eq_of_decode_eq_zero hzero'
        cases negative with
        | false => exact .inr (.inl ⟨hbits, hbits'⟩)
        | true => exact .inr (.inr ⟨hbits, hbits'⟩)
    · rintro (htext | ⟨rfl, rfl⟩ | ⟨rfl, rfl⟩)
      · rw [htext]
      · exact readNumber?_zero
      · exact readNumber?_zero.symm

/-- The number nearest to a ten-thousandth and one a little below it are written in different
notations, and one and the number after it in the same way. -/
theorem shortText_keeps_order_switch :
    shortText 0x38d1b710 = ['9', '.', '9', '9', '9', '9', '9', 'e', '-', '0', '5'] ∧
    shortText 0x38d1b717 = ['0', '.', '0', '0', '0', '1'] ∧
    (∃ x x', readNumber? (shortText 0x38d1b710) = some x ∧
      readNumber? (shortText 0x38d1b717) = some x' ∧ x ≤ x') ∧
    shortText 0xb8d1b710 = ['-', '9', '.', '9', '9', '9', '9', '9', 'e', '-', '0', '5'] ∧
    shortText 0x3f800000 = shortText 0x3f800001 := by
  obtain ⟨-, hmono, hsign, hsame⟩ := shortText_keeps_order
  have hbelow : binary32.decode (0x38d1b710 : UInt32).toNat = .finite false 13743888 (-37) := by
    decide
  have hnearest : binary32.decode (0x38d1b717 : UInt32).toNat = .finite false 13743895 (-37) := by
    decide
  have hbelowText :
      shortText 0x38d1b710 = ['9', '.', '9', '9', '9', '9', '9', 'e', '-', '0', '5'] := by
    decide +kernel
  have hnearestText : shortText 0x38d1b717 = ['0', '.', '0', '0', '0', '1'] := by decide +kernel
  have honeText : shortText 0x3f800000 = ['1'] := by decide +kernel
  have hnextText : shortText 0x3f800001 = ['1'] := by decide +kernel
  refine ⟨hbelowText, hnearestText,
    hmono _ _ _ _ (by rw [hbelow]; rfl) (by rw [hnearest]; rfl) ?_, ?_, ?_⟩
  · exact coe_ratCast_le.2 (by norm_num)
  · obtain ⟨-, htoggled⟩ := hsign 0x38d1b710 (by rw [hbelow]; exact nofun)
    rw [hbelowText] at htoggled
    exact htoggled
  · refine ((hsame _ _ (by decide) (by decide)).1 ?_).resolve_right (by decide)
    rw [honeText, hnextText]

end Containers.Decimal
