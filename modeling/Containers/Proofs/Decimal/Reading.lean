import Containers.Decimal.Reading
import Containers.Proofs.Decimal.General

/-!
# Reading what was written

Integers are read back from their digits (`readInteger?_integer`), and what stands behind the first
`e` of the scientific notation of a number is its exponent (`splitFirst?_append`), because there is
none among digits, points and signs. So the texts of numbers whose exponents fit in 32 bits can be
written by way of their scientific notation, and come out the same (`text?_finite`).
-/

namespace Containers.Decimal

-- Powers are the numbers' own, also where those of monoids are known.
attribute [local instance (high)] instPowNat

/-! ## Characters of numbers -/

/-- The digits of a number are digits. -/
theorem isDigit_of_mem_digits {n : ℕ} {c : Char} (h : c ∈ digits n) : c.isDigit := by
  rw [digits_eq_toDigits] at h
  exact Nat.isDigit_of_mem_toDigits (by decide) (by decide) h

/-- The character of a digit is a digit. -/
theorem isDigit_digitChar {n : ℕ} (hn : n < 10) : (Nat.digitChar n).isDigit := by
  revert n
  decide

/-- The digits behind the point are digits. -/
theorem isDigit_of_mem_fractionDigits {places units : ℕ} {c : Char}
    (h : c ∈ fractionDigits places units) : c.isDigit := by
  obtain ⟨i, -, rfl⟩ := List.mem_map.1 h
  exact isDigit_digitChar (Nat.mod_lt _ (by decide))

/-- The digits kept behind the point are digits. -/
theorem isDigit_of_mem_keptDigits {places units : ℕ} {c : Char}
    (h : c ∈ keptDigits places units) : c.isDigit :=
  isDigit_of_mem_fractionDigits ((List.rdropWhile_prefix _ _).subset h)

/-- A sign is a minus sign, if it is there. -/
theorem mem_sign {negative : Bool} {c : Char} (h : c ∈ sign negative) : c = '-' := by
  cases negative with
  | false => exact absurd h List.not_mem_nil
  | true => exact List.mem_singleton.1 h

/-- Positional notation is made of digits and a point. -/
theorem mem_positional {places units : ℕ} {c : Char} (h : c ∈ positional places units) :
    c.isDigit ∨ c = '.' := by
  rw [positional_eq] at h
  rcases List.mem_append.1 h with hwhole | hfraction
  · exact .inl (isDigit_of_mem_digits hwhole)
  · split at hfraction
    · exact absurd hfraction List.not_mem_nil
    · rcases List.mem_cons.1 hfraction with hpoint | hdigit
      · exact .inr hpoint
      · exact .inl (isDigit_of_mem_fractionDigits hdigit)

/-- Positional notation has no `e`. -/
theorem e_not_mem_positional (places units : ℕ) : 'e' ∉ positional places units := by
  intro hmem
  rcases mem_positional hmem with hdigit | hpoint
  · exact absurd hdigit (by decide)
  · exact absurd hpoint (by decide)

/-! ## Integers -/

/-- Any digits are read as the number that they stand for. -/
theorem readNatural?_of_isDigit {cs : List Char} (hne : cs ≠ []) (h : ∀ c ∈ cs, c.isDigit) :
    readNatural? cs = some (value cs) :=
  if_pos ⟨hne, List.all_eq_true.2 h⟩

/-- The digits of a number are read as the number. -/
theorem readNatural?_digits (n : ℕ) : readNatural? (digits n) = some n := by
  rw [readNatural?_of_isDigit (digits_ne_nil n) fun _ => isDigit_of_mem_digits, value_digits]

/-- Digits have no sign in front of them, so the number is read from all of them. -/
theorem readInteger?_digits (n : ℕ) : readInteger? (digits n) = some (n : ℤ) := by
  have hread := readNatural?_digits n
  have hdigit : ∀ c ∈ digits n, c.isDigit := fun _ => isDigit_of_mem_digits
  unfold readInteger?
  split
  next cs hcs => exact absurd (hdigit '-' (by rw [hcs]; exact List.mem_cons_self)) (by decide)
  next cs hcs => exact absurd (hdigit '+' (by rw [hcs]; exact List.mem_cons_self)) (by decide)
  next => rw [hread]; rfl

/-- What is written is read. -/
theorem readInteger?_integer (x : ℤ) : readInteger? (integer x) = some x := by
  rw [integer]
  split
  next hneg =>
    rw [readInteger?, readNatural?_digits, Option.map_some]
    congr 1
    omega
  next hnonneg =>
    rw [readInteger?_digits]
    congr 1
    omega

/-- An integer of 32 bits is read back from its text. -/
theorem readInt32?_integer {x : ℤ} (hlow : Int32.minValue.toInt ≤ x)
    (hhigh : x ≤ Int32.maxValue.toInt) : readInt32? (integer x) = some (.ofInt x) := by
  rw [readInt32?, readInteger?_integer]
  exact if_pos ⟨hlow, hhigh⟩

/-! ## Scientific notation -/

/-- A text splits at the first of these characters. -/
theorem splitFirst?_append {c : Char} {front : List Char} (h : c ∉ front) (behind : List Char) :
    splitFirst? c (front ++ c :: behind) = some (front, behind) := by
  induction front with
  | nil => exact if_pos rfl
  | cons head front ih =>
    obtain ⟨hhead, hfront⟩ := not_or.1 (mt List.mem_cons.2 h)
    rw [List.cons_append, splitFirst?, if_neg (Ne.symm hhead), ih hfront]
    rfl

/-- A text without the character does not split. -/
theorem splitFirst?_eq_none {c : Char} {cs : List Char} (h : c ∉ cs) : splitFirst? c cs = none := by
  induction cs with
  | nil => rfl
  | cons head cs ih =>
    obtain ⟨hhead, hcs⟩ := not_or.1 (mt List.mem_cons.2 h)
    rw [splitFirst?, if_neg (Ne.symm hhead), ih hcs]
    rfl

/-- The `e` is the first one. -/
theorem splitFirst?_scientific (negative : Bool) (places units : ℕ) (behind : List Char) :
    splitFirst? 'e' (sign negative ++ positional places units ++ 'e' :: behind) =
      some (sign negative ++ positional places units, behind) := by
  refine splitFirst?_append (fun hmem => ?_) behind
  rcases List.mem_append.1 hmem with hsign | hdigits
  · exact absurd (mem_sign hsign) (by decide)
  · exact e_not_mem_positional places units hdigits

/-- Trimming stops at another character at the latest. -/
theorem trimEnd_cons_of_ne {c head : Char} (h : head ≠ c) (cs : List Char) :
    trimEnd c (head :: cs) = head :: trimEnd c cs := by
  have hhead : trimEnd c [head] = [head] :=
    trimEnd_eq_self fun hmem => h (List.mem_singleton.1 hmem).symm
  have hsplit := trimEnd_append c [head] cs
  rw [List.singleton_append, hhead] at hsplit
  rw [hsplit]
  split
  next hempty => rw [hempty]
  next => rfl

/-- Stripping zeros adds no characters. -/
theorem stripZeros_subset (cs : List Char) : stripZeros cs ⊆ cs := by
  unfold stripZeros
  split
  · intro c hc
    exact trimEnd_subset '0' cs (trimEnd_subset '.' _ hc)
  · exact List.Subset.refl cs

/-- Stripping leaves a sign. -/
theorem stripZeros_sign_append (negative : Bool) (cs : List Char) :
    stripZeros (sign negative ++ cs) = sign negative ++ stripZeros cs := by
  cases negative with
  | false => rfl
  | true =>
    show stripZeros ('-' :: cs) = '-' :: stripZeros cs
    have hpoint : '.' ∈ '-' :: cs ↔ '.' ∈ cs := by simp
    unfold stripZeros
    by_cases hmem : '.' ∈ cs
    · rw [if_pos (hpoint.2 hmem), if_pos hmem, trimEnd_cons_of_ne (by decide),
        trimEnd_cons_of_ne (by decide)]
    · rw [if_neg (mt hpoint.1 hmem), if_neg hmem]

namespace GeneralStyle

variable {style : GeneralStyle}

/-- Where the exponent fits in 32 bits, it is read back from the scientific notation, and the text
is the one that is written from the number. -/
theorem text?_finite {negative : Bool} {mantissa digits : ℕ} {exponent tens : ℤ}
    (hdigits : scientific (style.precision - 1) (mantissa * 2 ^ exponent.toNat)
      (2 ^ (-exponent).toNat) = (digits, tens))
    (hlow : Int32.minValue.toInt ≤ tens) (hhigh : tens ≤ Int32.maxValue.toInt) :
    style.text? (.finite negative mantissa exponent) =
      some (style.text (.finite negative mantissa exponent)) := by
  have hexponent : (Int32.ofInt tens).toInt = tens :=
    Int32.toInt_ofInt_of_le hlow (Int.lt_of_le_sub_one hhigh)
  simp only [text?, scientificText, hdigits, signed_eq, splitFirst?_scientific,
    readInt32?_integer hlow hhigh, Option.bind_eq_bind, Option.bind_some, hexponent,
    stripZeros_sign_append, text, magnitudeText]
  split
  · rw [List.append_assoc]
    rfl
  · rfl

end GeneralStyle

end Containers.Decimal
