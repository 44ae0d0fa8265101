import Containers.Proofs.Decimal.Reading

/-!
# The canonical form of short texts

A text in canonical form has no zero in front of the whole part of a number and none at the end of
its fraction (`Canonical`), and at most six of its digits are significant. Both
notations of the general text lead there: the mantissa has just six digits, and in positional
notation they are the digits of whole part and fraction behind zeros
(`length_significantDigits_le`). Short texts are made of ASCII characters and never of zero bytes,
so a block of bytes holds them as they are, with zeros up to its end.
-/

namespace Containers.Decimal

-- Powers are the numbers' own, also where those of monoids are known.
attribute [local instance (high)] instPowNat

/-- Digits from the first one that is not zero. -/
def significantDigits (cs : List Char) : List Char := cs.dropWhile (· = '0')

/-- The digits of a whole number. Only zero itself starts with a zero. -/
structure IsWhole (cs : List Char) : Prop where
  ne_nil : cs ≠ []
  isDigit : ∀ c ∈ cs, c.isDigit
  zero : cs.head? = some '0' → cs = ['0']

/-- The digits of a fraction, of which there may be none. They do not end with a zero. -/
structure IsFraction (cs : List Char) : Prop where
  isDigit : ∀ c ∈ cs, c.isDigit
  last : ∀ hne : cs ≠ [], cs.getLast hne ≠ '0'

/-- The texts of numbers with at most six significant digits and no zero too many. -/
inductive Canonical : List Char → Prop where
  | nan : Canonical ['n', 'a', 'n']
  | infinite (negative : Bool) : Canonical (sign negative ++ ['i', 'n', 'f'])
  | fixed (negative : Bool) {whole fraction : List Char} (hwhole : IsWhole whole)
    (hfraction : IsFraction fraction)
    (hdigits : (significantDigits (whole ++ fraction)).length ≤ 6) :
    Canonical (sign negative ++ (whole ++ pointed fraction))
  | scientific (negative down : Bool) {lead tens ones : Char} {fraction : List Char}
    (hlead : lead.isDigit) (hne : lead ≠ '0') (hfraction : IsFraction fraction)
    (hlength : fraction.length ≤ 5) (htens : tens.isDigit) (hones : ones.isDigit) :
    Canonical (sign negative ++
      (lead :: pointed fraction ++ ['e', if down then '-' else '+', tens, ones]))

/-! ## Digits -/

/-- The digits of a number are those of a whole number: they do not start with a zero too many. -/
theorem isWhole_digits (n : ℕ) : IsWhole (digits n) := by
  refine ⟨digits_ne_nil n, fun _ => isDigit_of_mem_digits, ?_⟩
  induction n using Nat.strongRecOn with
  | ind n ih =>
    intro hzero
    rcases Nat.lt_or_ge n 10 with hlt | hge
    · rw [digits_of_lt hlt] at hzero ⊢
      rw [Option.some.inj hzero]
    · -- Its front would be the digits of zero.
      rw [digits_of_le hge, List.head?_append_of_ne_nil _ (digits_ne_nil _)] at hzero
      have hfront := value_digits (n / 10)
      rw [ih (n / 10) (by omega) hzero] at hfront
      have : n / 10 = 0 := hfront.symm
      omega

/-- A fraction may have no digits. -/
theorem isFraction_nil : IsFraction [] := ⟨by simp, by simp⟩

/-- The digits kept behind the point do not end with a zero. -/
theorem isFraction_keptDigits (places units : ℕ) : IsFraction (keptDigits places units) := by
  refine ⟨fun c hc => isDigit_of_mem_keptDigits hc, fun hne heq => ?_⟩
  exact List.rdropWhile_last_not _ (fractionDigits places units) hne (decide_eq_true heq)

/-! ## Significant digits -/

/-- What starts a text has no more significant digits. -/
theorem length_significantDigits_mono {cs cs' : List Char} (h : cs <+: cs') :
    (significantDigits cs).length ≤ (significantDigits cs').length := by
  obtain ⟨rest, rfl⟩ := h
  rw [significantDigits, significantDigits, List.dropWhile_append]
  split
  next hempty =>
    rw [List.isEmpty_iff.1 hempty]
    exact Nat.zero_le _
  next =>
    rw [List.length_append]
    exact Nat.le_add_right _ _

/-- Padding is not significant. -/
theorem length_significantDigits_padded_le (width : ℕ) (cs : List Char) :
    (significantDigits (padded width cs)).length ≤ cs.length := by
  rw [significantDigits, padded, List.dropWhile_append_of_pos]
  · exact (List.dropWhile_sublist _).length_le
  · intro c hc
    simp [(List.mem_replicate.1 hc).2]

/-- Whole part and fraction together have no more significant digits than the number of units. -/
theorem length_significantDigits_le (places units : ℕ) :
    (significantDigits (digits (units / 10 ^ places) ++ keptDigits places units)).length ≤
      (digits units).length := by
  have hprefix : digits (units / 10 ^ places) ++ keptDigits places units <+:
      padded (places + 1) (digits units) := by
    rw [padded_digits, List.prefix_append_right_inj]
    exact List.rdropWhile_prefix _ _
  exact (length_significantDigits_mono hprefix).trans (length_significantDigits_padded_le _ _)

/-- A number below a power of ten has no more digits than the exponent says. -/
theorem length_digits_le {n k : ℕ} (hk : 0 < k) (hn : n < 10 ^ k) : (digits n).length ≤ k := by
  rw [digits_eq_toDigits]
  exact (Nat.length_toDigits_le_iff (by decide) hk).2 hn

/-! ## The two notations -/

/-- Only the digit zero is written as a zero. -/
theorem digitChar_ne_zero {n : ℕ} (hn : n < 10) : 0 < n → Nat.digitChar n ≠ '0' := by
  revert n
  decide

/-- An exponent below a hundred has two digits. -/
theorem exponentDigits_eq {n : ℕ} (hn : n < 100) :
    exponentDigits n = [Nat.digitChar (n / 10), Nat.digitChar (n % 10)] := by
  unfold exponentDigits
  split
  next hlt =>
    rw [Nat.div_eq_of_lt hlt, Nat.mod_eq_of_lt hlt]
    rfl
  next hge =>
    rw [Nat.toDigits_of_base_le (by decide) (Nat.le_of_not_lt hge),
      Nat.toDigits_of_lt_base (by omega)]
    rfl

/-- The general text of six digits, with an exponent of two digits at most. -/
theorem canonical_generalText (negative : Bool) {mantissa : ℕ} {exponent : ℤ}
    (hlow : 10 ^ 5 ≤ mantissa) (hhigh : mantissa < 10 ^ 6) (hexponent : exponent.natAbs < 100) :
    Canonical (sign negative ++ generalText mantissa exponent) := by
  unfold generalText
  split
  next =>
    have hpos : 0 < mantissa / 10 ^ 5 := Nat.div_pos hlow (by decide)
    have hlt : mantissa / 10 ^ 5 < 10 := Nat.div_lt_of_lt_mul hhigh
    have htext := Canonical.scientific negative (decide (exponent < 0)) (isDigit_digitChar hlt)
      (digitChar_ne_zero hlt hpos) (isFraction_keptDigits 5 mantissa) (length_keptDigits_le _ _)
      (isDigit_digitChar (n := exponent.natAbs / 10) (by omega))
      (isDigit_digitChar (n := exponent.natAbs % 10) (by omega))
    rw [fixedText_eq, digits_eq_toDigits, Nat.toDigits_of_lt_base hlt, exponentDigits_eq hexponent]
    simpa using htext
  next =>
    rw [fixedText_eq]
    exact .fixed negative (isWhole_digits _) (isFraction_keptDigits _ _)
      ((length_significantDigits_le _ _).trans (length_digits_le (by decide) hhigh))

/-- Every short text is in canonical form. -/
theorem canonical_shortText (bits : UInt32) : Canonical (shortText bits) := by
  have htext : GeneralNotation (FloatFormat.binary32.decode bits.toNat) (shortText bits) :=
    generalNotation_text _
  generalize hvalue : FloatFormat.binary32.decode bits.toNat = v at htext
  generalize shortText bits = cs at htext ⊢
  cases htext with
  | nan => exact .nan
  | infinite negative => exact .infinite negative
  | zero negative =>
    have hzero : digits 0 = ['0'] := digits_of_lt (by decide)
    have hwhole := isWhole_digits 0
    rw [hzero] at hwhole
    exact .fixed negative hwhole isFraction_nil (by decide)
  | @rounded negative _ _ digits tens hne hdigits =>
    have hbounds := tens_bounds hvalue hne hdigits
    exact canonical_generalText negative hdigits.bounds.1 hdigits.bounds.2 (by omega)

/-! ## Characters -/

/-- ASCII characters that can be seen. -/
def Printable (c : Char) : Prop := 32 < c.toNat ∧ c.toNat < 127

instance (c : Char) : Decidable (Printable c) := inferInstanceAs (Decidable (_ ∧ _))

/-- Digits can be seen. -/
theorem printable_of_isDigit {c : Char} (h : c.isDigit) : Printable c := by
  obtain ⟨hlow, hhigh⟩ : 48 ≤ c.toNat ∧ c.toNat ≤ 57 := Char.isDigit_iff_toNat.1 h
  exact ⟨by omega, by omega⟩

/-- Whether all characters of a given text can be seen is decided by looking at them. -/
theorem printable_of_all {cs : List Char} (h : cs.all fun c => decide (Printable c)) :
    ∀ c ∈ cs, Printable c :=
  fun c hc => of_decide_eq_true (List.all_eq_true.1 h c hc)

/-- A sign can be seen. -/
theorem printable_sign (negative : Bool) : ∀ c ∈ sign negative, Printable c := by
  cases negative with
  | false => exact nofun
  | true => exact printable_of_all (by decide)

/-- A fraction and the point in front of it can be seen. -/
theorem IsFraction.printable {fraction : List Char} (h : IsFraction fraction) :
    ∀ c ∈ pointed fraction, Printable c := by
  cases fraction with
  | nil => exact nofun
  | cons head cs =>
    exact List.forall_mem_cons.2 ⟨by decide, fun c hc => printable_of_isDigit (h.isDigit c hc)⟩

/-- All characters of a text in canonical form can be seen. -/
theorem Canonical.printable {cs : List Char} (h : Canonical cs) : ∀ c ∈ cs, Printable c := by
  cases h with
  | nan => exact printable_of_all (by decide)
  | infinite negative =>
    exact List.forall_mem_append.2 ⟨printable_sign negative, printable_of_all (by decide)⟩
  | fixed negative hwhole hfraction =>
    have hdigits := fun c hc => printable_of_isDigit (hwhole.isDigit c hc)
    exact List.forall_mem_append.2 ⟨printable_sign negative,
      List.forall_mem_append.2 ⟨hdigits, hfraction.printable⟩⟩
  | scientific negative down hlead hne hfraction hlength htens hones =>
    refine List.forall_mem_append.2 ⟨printable_sign negative, List.forall_mem_cons.2
      ⟨printable_of_isDigit hlead, List.forall_mem_append.2 ⟨hfraction.printable, ?_⟩⟩⟩
    intro c hc
    simp only [List.mem_cons, List.not_mem_nil, or_false] at hc
    rcases hc with rfl | rfl | rfl | rfl
    · decide
    · cases down <;> decide
    · exact printable_of_isDigit htens
    · exact printable_of_isDigit hones

/-! ## Short texts -/

/-- The exponents of numbers of 32 bits fit in 32 bits, so the short text is also what comes of
reading the scientific notation back. -/
theorem text?_eq_shortText (bits : UInt32) :
    GeneralStyle.short.text? (FloatFormat.binary32.decode bits.toNat) = some (shortText bits) := by
  rw [shortText]
  cases hvalue : FloatFormat.binary32.decode bits.toNat with
  | nan => rfl
  | infinite negative => rfl
  | finite negative mantissa exponent =>
    rcases Nat.eq_zero_or_pos mantissa with rfl | hpos
    · have hdigits : scientific 5 (0 * 2 ^ exponent.toNat) (2 ^ (-exponent).toNat) = (0, 0) := by
        rw [Nat.zero_mul]
        exact if_pos rfl
      exact GeneralStyle.text?_finite hdigits (by decide) (by decide)
    · have hnum : 0 < mantissa * 2 ^ exponent.toNat := Nat.mul_pos hpos (Nat.two_pow_pos _)
      have hdigits := significant_scientific 5 hnum (Nat.two_pow_pos (-exponent).toNat)
      rw [cast_magnitude] at hdigits
      obtain ⟨hlow, hhigh⟩ := tens_bounds hvalue hpos.ne' hdigits
      have hleast : Int32.minValue.toInt ≤ -45 := by decide
      have hmost : 39 ≤ Int32.maxValue.toInt := by decide
      exact GeneralStyle.text?_finite (Prod.mk.eta).symm (hleast.trans hlow) (hhigh.trans hmost)

/-- The bytes of a printable text are not zero. -/
theorem zero_not_mem_bytes {cs : List Char} (h : ∀ c ∈ cs, Printable c) :
    0 ∉ cs.map Char.toUInt8 := by
  intro hmem
  obtain ⟨c, hc, hzero⟩ := List.mem_map.1 hmem
  obtain ⟨hlow, hhigh⟩ := h c hc
  have hbyte : c.toNat % 256 = 0 := congrArg UInt8.toNat hzero
  omega

/-- Every short text is in canonical form and has at most twelve characters, all of them printable
ones of ASCII. Writing it by way of the scientific notation finds the `e` and an exponent behind it,
and comes to the same text. There is room for it in a short text, and a block of bytes holds all of
it: a reader finds it there, and all bytes behind it are zero. -/
theorem shortText_canonical (bits : UInt32) :
    Canonical (shortText bits) ∧ (shortText bits).length ≤ 12 ∧
    (∀ c ∈ shortText bits, Printable c) ∧
    GeneralStyle.short.text? (FloatFormat.binary32.decode bits.toNat) = some (shortText bits) ∧
    ∃ text, ShortText.ofFloat? bits = some text ∧
      text.bytes = (shortText bits).map Char.toUInt8 ∧
      (NumberBuffer.ofShortText text).text = text.bytes ∧
      (NumberBuffer.ofShortText text).data.toList =
        text.bytes ++ List.replicate (32 - text.bytes.length) 0 := by
  have hcanonical := canonical_shortText bits
  have hshort := length_shortText_le bits
  refine ⟨hcanonical, hshort, hcanonical.printable, text?_eq_shortText bits, ?_⟩
  have hlength : ((shortText bits).map Char.toUInt8).length ≤ 12 := by rwa [List.length_map]
  have hroom : ((shortText bits).map Char.toUInt8).length ≤ ShortText.room :=
    hlength.trans (by decide)
  have htake : ((shortText bits).map Char.toUInt8).take 31 = (shortText bits).map Char.toUInt8 :=
    List.take_of_length_le (hlength.trans (by decide))
  refine ⟨⟨_, hroom⟩, dif_pos hroom, rfl, ?_, ?_⟩
  · rw [NumberBuffer.text_ofShortText (zero_not_mem_bytes hcanonical.printable)]
    exact htake
  · rw [NumberBuffer.toList_ofShortText]
    show ((shortText bits).map Char.toUInt8).take 31 ++ _ = _
    rw [htake]

-- The longest texts take up all twelve characters.
example : shortText 0x80800000 = ['-', '1', '.', '1', '7', '5', '4', '9', 'e', '-', '3', '8'] := by
  decide +kernel

end Containers.Decimal
