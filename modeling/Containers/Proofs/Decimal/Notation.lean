import Containers.Decimal.General
import Mathlib.Data.List.DropRight
import Mathlib.Data.Nat.Digits.Defs

/-!
# Positional notation

The digits of a number of units of ten to the power `-places`: those of the whole part, and one for
each place behind the point (`fractionDigits`). In the shortest form the fraction ends with a digit
that is not zero, and there is no point in front of an empty one (`fixedText`, `keptDigits`).
Padding with zeros, cutting for the point and stripping zeros and the point from the end comes to
that form (`stripZeros_positional`).
-/

namespace Containers.Decimal

/-! ## Digits -/

/-- The character of a digit is the one that the digits of the library have. -/
theorem digitChar_eq {n : ℕ} (hn : n < 10) : digitChar n = Nat.digitChar n := by
  revert n
  decide

/-- The digits of a number are those that the library gives in base ten. -/
theorem digits_eq_toDigits (n : ℕ) : digits n = Nat.toDigits 10 n := by
  induction n using Nat.strongRecOn with
  | ind n ih =>
    rw [digits]
    split
    next hlt => rw [Nat.toDigits_of_lt_base hlt, digitChar_eq hlt]
    next hge =>
      rw [Nat.toDigits_of_base_le (by decide) (Nat.le_of_not_lt hge), ih (n / 10) (by omega),
        digitChar_eq (Nat.mod_lt n (by decide))]

/-- A number below ten is one digit. -/
theorem digits_of_lt {n : ℕ} (hn : n < 10) : digits n = [digitChar n] := by
  rw [digits, if_pos hn]

/-- The digits of a number from ten on are those of its tenth part and the last one. -/
theorem digits_of_le {n : ℕ} (hn : 10 ≤ n) :
    digits n = digits (n / 10) ++ [digitChar (n % 10)] := by
  rw [digits, if_neg (by omega)]

/-- Every number has a digit, zero as well. -/
theorem digits_ne_nil (n : ℕ) : digits n ≠ [] := by
  rw [digits]
  split <;> simp

/-- The digits behind the point of a number of units of ten to the power `-places`. -/
def fractionDigits (places units : ℕ) : List Char :=
  (List.range places).map fun i => Nat.digitChar (units / 10 ^ (places - 1 - i) % 10)

/-- There are as many digits behind the point as there are places. -/
theorem length_fractionDigits (places units : ℕ) :
    (fractionDigits places units).length = places := by
  simp [fractionDigits]

/-- One place more takes up the last digit of the units. -/
theorem fractionDigits_succ (places units : ℕ) :
    fractionDigits (places + 1) units =
      fractionDigits places (units / 10) ++ [digitChar (units % 10)] := by
  rw [fractionDigits, List.range_succ, List.map_append, List.map_singleton,
    digitChar_eq (Nat.mod_lt units (by decide))]
  congr 1
  · refine List.map_congr_left fun i hi => ?_
    have hlt := List.mem_range.1 hi
    rw [Nat.div_div_eq_div_mul, ← Nat.pow_succ',
      show places + 1 - 1 - i = places - 1 - i + 1 by omega]
  · simp

/-- Padding goes in front of all digits, so the last one can be put there afterwards. -/
theorem padded_concat (width : ℕ) (cs : List Char) (c : Char) :
    padded (width + 1) (cs ++ [c]) = padded width cs ++ [c] := by
  rw [padded, padded, List.length_append, List.length_singleton, Nat.add_sub_add_right,
    List.append_assoc]

/-- Padding the digits of the units puts them next to those of the whole part. -/
theorem padded_digits (places units : ℕ) :
    padded (places + 1) (digits units) =
      digits (units / 10 ^ places) ++ fractionDigits places units := by
  induction places generalizing units with
  | zero =>
    have hlength := List.length_pos_iff.2 (digits_ne_nil units)
    rw [padded, show 0 + 1 - (digits units).length = 0 by omega]
    simp [fractionDigits]
  | succ places ih =>
    rw [fractionDigits_succ, Nat.pow_succ', ← Nat.div_div_eq_div_mul, ← List.append_assoc, ← ih]
    by_cases hlt : units < 10
    · -- The whole part of nothing is a zero of its own, in place of one of the padding.
      have hzero : padded (places + 1) (digits 0) = List.replicate (places + 1) '0' := by
        rw [digits_of_lt (by decide), List.replicate_succ']
        rfl
      have hlast : padded (places + 1 + 1) [digitChar units] =
          List.replicate (places + 1) '0' ++ [digitChar units] := rfl
      rw [digits_of_lt hlt, Nat.div_eq_of_lt hlt, Nat.mod_eq_of_lt hlt, hzero, hlast]
    · rw [digits_of_le (Nat.le_of_not_lt hlt), padded_concat]

/-- Positional notation is the whole part, and the digits behind the point if there are places. -/
theorem positional_eq (places units : ℕ) :
    positional places units = digits (units / 10 ^ places) ++
      if places = 0 then [] else '.' :: fractionDigits places units := by
  unfold positional
  split
  next hzero => simp [hzero]
  next hplaces =>
    have hlength : (padded (places + 1) (digits units)).length - places =
        (digits (units / 10 ^ places)).length := by
      rw [padded_digits, List.length_append, length_fractionDigits, Nat.add_sub_cancel]
    dsimp only
    rw [hlength, padded_digits, List.take_left' rfl, List.drop_left' rfl]

/-! ## The shortest form -/

/-- The digits behind the point without the zeros at the end, with the point in front of them if any
are left. -/
def fractionText (places units : ℕ) : List Char :=
  match (fractionDigits places units).rdropWhile (· = '0') with
  | [] => []
  | kept => '.' :: kept

/-- The number of `units` of ten to the power `-places` in positional notation, in the shortest form
that is exact. -/
def fixedText (places units : ℕ) : List Char :=
  Nat.toDigits 10 (units / 10 ^ places) ++ fractionText places units

/-- The digits behind the point up to the last one that is not zero. -/
def keptDigits (places units : ℕ) : List Char :=
  (fractionDigits places units).rdropWhile (· = '0')

/-- Digits with the point in front of them, or nothing if there are none. -/
def pointed : List Char → List Char
  | [] => []
  | fraction => '.' :: fraction

@[simp]
theorem pointed_nil : pointed [] = [] := rfl

@[simp]
theorem pointed_cons (head : Char) (cs : List Char) : pointed (head :: cs) = '.' :: head :: cs :=
  rfl

/-- A number in positional notation is its whole digits, and the digits kept behind the point. -/
theorem fixedText_eq (places units : ℕ) :
    fixedText places units =
      digits (units / 10 ^ places) ++ pointed (keptDigits places units) := by
  rw [fixedText, digits_eq_toDigits]
  rfl

/-- What is left out is zeros. -/
theorem exists_keptDigits (places units : ℕ) :
    ∃ count, fractionDigits places units =
      keptDigits places units ++ List.replicate count '0' := by
  obtain ⟨zeros, hzeros⟩ :
      ∃ zeros, (fractionDigits places units).rtakeWhile (· = '0') = zeros := ⟨_, rfl⟩
  have hall : zeros = List.replicate zeros.length '0' := by
    refine List.eq_replicate_iff.2 ⟨rfl, fun c hc => ?_⟩
    rw [← hzeros] at hc
    simpa using List.mem_rtakeWhile_imp hc
  exact ⟨zeros.length, by rw [← hall, ← hzeros]; exact List.rdropWhile_append_rtakeWhile.symm⟩

/-- No more digits are kept than there are places. -/
theorem length_keptDigits_le (places units : ℕ) : (keptDigits places units).length ≤ places := by
  have hle := (List.rdropWhile_prefix (· = '0') (fractionDigits places units)).length_le
  rwa [length_fractionDigits] at hle

/-- The digits of a number have no point. -/
theorem point_not_mem_digits (n : ℕ) : '.' ∉ digits n := by
  rw [digits_eq_toDigits]
  intro hmem
  exact absurd (Nat.isDigit_of_mem_toDigits (by decide) (by decide) hmem) (by decide)

/-- No digit is the point. -/
theorem digitChar_ne_point {n : ℕ} (hn : n < 10) : Nat.digitChar n ≠ '.' := by
  revert n
  decide

/-- The digits behind the point have no point. -/
theorem point_not_mem_fractionDigits (places units : ℕ) : '.' ∉ fractionDigits places units := by
  intro hmem
  obtain ⟨i, -, heq⟩ := List.mem_map.1 hmem
  exact digitChar_ne_point (Nat.mod_lt _ (by decide)) heq

/-- A text without a character does not end with it, so there is nothing to trim. -/
theorem trimEnd_eq_self {c : Char} {cs : List Char} (h : c ∉ cs) : trimEnd c cs = cs := by
  refine List.rdropWhile_eq_self_iff.2 fun hne heq => h ?_
  rw [← of_decide_eq_true heq]
  exact List.getLast_mem hne

/-- Trimming the end of a text either leaves something of its last part or goes on in front. -/
theorem trimEnd_append (c : Char) (front back : List Char) :
    trimEnd c (front ++ back) =
      if trimEnd c back = [] then trimEnd c front else front ++ trimEnd c back := by
  unfold trimEnd
  rw [List.reverse_append, List.dropWhile_append]
  simp only [List.isEmpty_iff, List.reverse_eq_nil_iff]
  split
  · rfl
  · rw [List.reverse_append, List.reverse_reverse]

/-- Trimming adds no characters. -/
theorem trimEnd_subset (c : Char) (cs : List Char) : trimEnd c cs ⊆ cs :=
  (List.rdropWhile_prefix _ cs).subset

/-- Stripping stops at the whole part. -/
theorem stripZeros_append {whole fraction : List Char} (hwhole : '.' ∉ whole)
    (hfraction : '.' ∉ fraction) :
    stripZeros (whole ++ '.' :: fraction) =
      whole ++ match trimEnd '0' fraction with
        | [] => []
        | kept => '.' :: kept := by
  have hpoint : '.' ∈ whole ++ '.' :: fraction := by simp
  have hzeros : trimEnd '0' (whole ++ '.' :: fraction) = whole ++ '.' :: trimEnd '0' fraction := by
    have hfront : trimEnd '0' (whole ++ ['.']) = whole ++ ['.'] := trimEnd_append '0' whole ['.']
    rw [List.append_cons whole '.' fraction, trimEnd_append, hfront,
      List.append_cons whole '.' (trimEnd '0' fraction)]
    split
    next hempty => rw [hempty, List.append_nil]
    next => rfl
  rw [stripZeros, if_pos hpoint, hzeros]
  split
  next hempty =>
    have hfront : trimEnd '.' (whole ++ ['.']) = trimEnd '.' whole := trimEnd_append '.' whole ['.']
    rw [hempty, hfront, trimEnd_eq_self hwhole, List.append_nil]
  next hkept =>
    have hpoints : trimEnd '.' (trimEnd '0' fraction) = trimEnd '0' fraction :=
      trimEnd_eq_self fun hmem => hfraction (trimEnd_subset '0' fraction hmem)
    rw [List.append_cons, trimEnd_append, hpoints, if_neg hkept, List.append_assoc]

/-- Positional notation without the zeros at its end is the shortest form. -/
theorem stripZeros_positional (places units : ℕ) :
    stripZeros (positional places units) = fixedText places units := by
  have hwhole := point_not_mem_digits (units / 10 ^ places)
  rw [positional_eq, fixedText, fractionText, ← digits_eq_toDigits]
  by_cases hplaces : places = 0
  · subst hplaces
    rw [if_pos rfl, List.append_nil, stripZeros, if_neg hwhole]
    exact (List.append_nil _).symm
  · rw [if_neg hplaces]
    exact stripZeros_append hwhole (point_not_mem_fractionDigits places units)

example : stripZeros (positional 5 150000) = ['1', '.', '5'] := by
  rw [stripZeros_positional]
  decide

end Containers.Decimal
