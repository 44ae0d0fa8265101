/-!
# Decimal digits

Natural numbers and integers in base ten. `Decimal.digits` writes a natural number without leading
zeros and `Decimal.value` reads digits back (`value_digits`), so different numbers have different
digits. Text is a list of characters, all of them in the ASCII range.
-/

namespace Containers.Decimal

/-- The character of a digit below ten. -/
def digitChar (n : Nat) : Char := Char.ofNat (48 + n)

/-- The number that a digit stands for. -/
def digitValue (c : Char) : Nat := c.toNat - 48

/-- A natural number in base ten, without leading zeros. -/
def digits (n : Nat) : List Char :=
  if n < 10 then [digitChar n] else digits (n / 10) ++ [digitChar (n % 10)]

/-- The number of digits of a natural number in base ten. -/
def digitCount (n : Nat) : Nat :=
  if n < 10 then 1 else digitCount (n / 10) + 1

/-- The number that a list of digits stands for. -/
def value (cs : List Char) : Nat := cs.foldl (fun n c => 10 * n + digitValue c) 0

/-- Digits with as many zeros in front as make them `width` long. -/
def padded (width : Nat) (cs : List Char) : List Char :=
  List.replicate (width - cs.length) '0' ++ cs

/-- An integer in base ten, with a minus sign if it is negative. -/
def integer (x : Int) : List Char :=
  if x < 0 then '-' :: digits x.natAbs else digits x.natAbs

/-- A digit is read back from its character. -/
theorem digitValue_digitChar {n : Nat} (h : n < 10) : digitValue (digitChar n) = n := by
  match n, h with
  | 0, _ | 1, _ | 2, _ | 3, _ | 4, _ | 5, _ | 6, _ | 7, _ | 8, _ | 9, _ => rfl

/-- A number is read back from its digits. -/
theorem value_digits (n : Nat) : value (digits n) = n := by
  induction n using Nat.strongRecOn with
  | ind n ih =>
    rw [digits]
    split
    next hlt => simp [value, digitValue_digitChar hlt]
    next hge =>
      have hrec := ih (n / 10) (by omega)
      rw [value] at hrec ⊢
      rw [List.foldl_append, hrec]
      simp only [List.foldl_cons, List.foldl_nil, digitValue_digitChar (Nat.mod_lt n (by decide))]
      omega

end Containers.Decimal
