import Containers.Proofs.Decimal.Reading
import Mathlib.Data.EReal.Operations

/-!
# The number that a text stands for

A text in positional notation stands for its whole part and so many units of the last place behind
the point; in scientific notation that counts for a power of ten. `readNumber?` gives the number as
an extended real number, so that the texts of infinities have one too. The general text of six
digits stands for just these digits at their place, in either notation
(`readMagnitude?_generalText`).
-/

namespace Containers.Decimal

-- Powers are the numbers' own, also where those of monoids are known.
attribute [local instance (high)] instPowNat

/-- The number that a text in positional notation stands for. -/
def readPositional? (cs : List Char) : Option ℚ :=
  match splitFirst? '.' cs with
  | none => (readNatural? cs).map Nat.cast
  | some (whole, fraction) => do
    let n ← readNatural? whole
    let units ← readNatural? fraction
    return (n : ℚ) + (units : ℚ) / (10 ^ fraction.length : ℕ)

/-- The number that a text without a sign stands for, in positional or scientific notation. -/
def readMagnitude? (cs : List Char) : Option ℚ :=
  match splitFirst? 'e' cs with
  | none => readPositional? cs
  | some (front, behind) => do
    let x ← readPositional? front
    let exponent ← readInteger? behind
    return x * 10 ^ exponent

/-- The number that a text stands for, or the infinity. -/
noncomputable def readNumber? : List Char → Option EReal
  | '-' :: cs => (unsigned? cs).map Neg.neg
  | cs => unsigned? cs
where
  /-- The number that a text without a sign stands for, or the infinity. -/
  unsigned? (cs : List Char) : Option EReal :=
    if cs = ['i', 'n', 'f'] then some ⊤ else (readMagnitude? cs).map fun x => ((x : ℝ) : EReal)

/-! ## Digits and zeros -/

/-- One digit more makes a number ten times as large, and adds the digit. -/
theorem value_concat (cs : List Char) (c : Char) :
    value (cs ++ [c]) = 10 * value cs + digitValue c := by
  rw [value, List.foldl_append]
  rfl

/-- Zeros in front of the digits do not change the number. -/
theorem value_replicate_append (count : ℕ) (cs : List Char) :
    value (List.replicate count '0' ++ cs) = value cs := by
  induction count with
  | zero => rfl
  | succ count ih =>
    rw [List.replicate_succ, List.cons_append, ← ih]
    rfl

/-- Each zero behind the digits makes the number ten times as large. -/
theorem value_append_replicate (cs : List Char) (count : ℕ) :
    value (cs ++ List.replicate count '0') = value cs * 10 ^ count := by
  induction count with
  | zero => rw [List.replicate_zero, List.append_nil, Nat.pow_zero, Nat.mul_one]
  | succ count ih =>
    rw [List.replicate_succ', ← List.append_assoc, value_concat, ih, Nat.pow_succ]
    show 10 * (value cs * 10 ^ count) + 0 = _
    ring

/-- The digits behind the point stand for the units that do not make a whole. -/
theorem value_fractionDigits (places units : ℕ) :
    value (fractionDigits places units) = units % 10 ^ places := by
  induction places generalizing units with
  | zero => exact (Nat.mod_one units).symm
  | succ places ih =>
    have hdigit : units % 10 < 10 := Nat.mod_lt units (by decide)
    rw [fractionDigits_succ, value_concat, ih, digitValue_digitChar hdigit, Nat.pow_succ',
      Nat.mod_mul, Nat.add_comm]

/-- Leaving zeros out at the end of a fraction does not change it. -/
theorem keptDigits_value (places units : ℕ) :
    (value (keptDigits places units) : ℚ) / (10 ^ (keptDigits places units).length : ℕ) =
      (units % 10 ^ places : ℕ) / (10 ^ places : ℕ) := by
  obtain ⟨count, hsplit⟩ := exists_keptDigits places units
  have hlength : places = (keptDigits places units).length + count := by
    have hplaces := length_fractionDigits places units
    rw [hsplit, List.length_append, List.length_replicate] at hplaces
    exact hplaces.symm
  have hvalue : value (keptDigits places units) * 10 ^ count = units % 10 ^ places := by
    rw [← value_append_replicate, ← hsplit, value_fractionDigits]
  have hpower : 10 ^ places = 10 ^ (keptDigits places units).length * 10 ^ count :=
    (congrArg (10 ^ ·) hlength).trans (Nat.pow_add 10 _ _)
  have hpos : ((10 ^ count : ℕ) : ℚ) ≠ 0 := by positivity
  rw [← hvalue, hpower, Nat.cast_mul, Nat.cast_mul, mul_div_mul_right _ _ hpos]

/-! ## The two notations -/

/-- A number in positional notation is read back exactly. -/
theorem readPositional?_fixedText (places units : ℕ) :
    readPositional? (fixedText places units) = some ((units : ℚ) / (10 ^ places : ℕ)) := by
  have hpoint := point_not_mem_digits (units / 10 ^ places)
  have hpos : 0 < 10 ^ places := Nat.pow_pos (by decide)
  have hkept := keptDigits_value places units
  have hdigit : ∀ c ∈ keptDigits places units, c.isDigit := fun _ => isDigit_of_mem_keptDigits
  rw [fixedText_eq, cast_div_eq units hpos, ← hkept]
  generalize keptDigits places units = kept at hdigit
  cases kept with
  | nil =>
    rw [pointed_nil, List.append_nil, readPositional?, splitFirst?_eq_none hpoint]
    simp [readNatural?_digits, value]
  | cons head cs =>
    rw [pointed_cons, readPositional?, splitFirst?_append hpoint]
    simp [readNatural?_digits, readNatural?_of_isDigit (List.cons_ne_nil head cs) hdigit]

/-- A number in positional notation has no `e`. -/
theorem e_not_mem_fixedText (places units : ℕ) : 'e' ∉ fixedText places units := by
  rw [← stripZeros_positional]
  intro hmem
  exact e_not_mem_positional places units (stripZeros_subset _ hmem)

/-- Padding does not change what is read. -/
theorem readNatural?_exponentDigits (n : ℕ) : readNatural? (exponentDigits n) = some n := by
  have hdigit : ∀ c ∈ padded 2 (digits n), c.isDigit := by
    intro c hc
    rcases List.mem_append.1 hc with hzero | hdigit
    · rw [(List.mem_replicate.1 hzero).2]
      rfl
    · exact isDigit_of_mem_digits hdigit
  have hne : padded 2 (digits n) ≠ [] :=
    List.append_ne_nil_of_right_ne_nil _ (digits_ne_nil n)
  rw [← padded_two_digits, readNatural?_of_isDigit hne hdigit, padded, value_replicate_append,
    value_digits]

/-- An exponent is read with its sign. -/
theorem readInteger?_exponent (exponent : ℤ) :
    readInteger? ((if exponent < 0 then '-' else '+') :: exponentDigits exponent.natAbs) =
      some exponent := by
  have hread := readNatural?_exponentDigits exponent.natAbs
  split
  next hneg =>
    rw [readInteger?, hread, Option.map_some]
    congr 1
    omega
  next hnonneg =>
    rw [readInteger?, hread]
    exact congrArg some (Int.natAbs_of_nonneg (Int.not_lt.1 hnonneg))

/-- The text of six digits stands for them, at the place that the first one counts for. -/
theorem readMagnitude?_generalText (mantissa : ℕ) (exponent : ℤ) :
    readMagnitude? (generalText mantissa exponent) =
      some ((mantissa : ℚ) * 10 ^ (exponent - 5)) := by
  unfold generalText
  split
  next =>
    rw [readMagnitude?, splitFirst?_append (e_not_mem_fixedText _ _)]
    simp only [readPositional?_fixedText, readInteger?_exponent, Option.bind_eq_bind,
      Option.bind_some]
    refine congrArg some ?_
    rw [zpow_sub₀ (by norm_num), div_mul_eq_mul_div, mul_div_assoc]
    norm_num
  next hrange =>
    have hplaces : exponent - 5 = -((5 - exponent).toNat : ℤ) := by omega
    rw [readMagnitude?, splitFirst?_eq_none (e_not_mem_fixedText _ _), hplaces, zpow_neg,
      zpow_natCast, ← div_eq_mul_inv]
    exact_mod_cast readPositional?_fixedText (5 - exponent).toNat mantissa

end Containers.Decimal
