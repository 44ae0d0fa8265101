/-!
# Byte strings

Text, keys and encoded words are lists of bytes. This module holds the two readings of them that
the rest of the library relies on: a string that ends at its first zero byte (`untilZero`), and a
number written low byte first (`Bytes.ofNat`, `Bytes.toNat`). The two number functions undo each
other in both directions (`Bytes.toNat_ofNat`, `Bytes.ofNat_toNat`).
-/

namespace Containers

/-- A string of bytes. -/
abbrev ByteString := List UInt8

/-- The part of a byte string before its first zero byte, or all of it if there is none. -/
def untilZero (bytes : ByteString) : ByteString := bytes.takeWhile (· != 0)

/-- What is in front of the first zero byte has no zero byte. -/
theorem zero_not_mem_untilZero (bytes : ByteString) : (0 : UInt8) ∉ untilZero bytes := by
  induction bytes with
  | nil => simp [untilZero]
  | cons b bytes ih =>
    simp only [untilZero] at ih
    by_cases hb : b = 0
    · simp [untilZero, hb]
    · simpa [untilZero, hb, Ne.symm hb] using ih

/-- Bytes without a zero byte are not cut. -/
theorem untilZero_of_zero_not_mem {bytes : ByteString} (h : (0 : UInt8) ∉ bytes) :
    untilZero bytes = bytes := by
  induction bytes with
  | nil => rfl
  | cons b bytes ih =>
    obtain ⟨hb, hbs⟩ := not_or.1 (mt List.mem_cons.2 h)
    simpa [untilZero, Ne.symm hb] using ih hbs

/-- Cutting at the first zero byte a second time changes nothing. -/
theorem untilZero_untilZero (bytes : ByteString) :
    untilZero (untilZero bytes) = untilZero bytes :=
  untilZero_of_zero_not_mem (zero_not_mem_untilZero bytes)

/-- Nothing behind a zero byte counts. -/
theorem untilZero_append_zero {bytes : ByteString} (h : (0 : UInt8) ∉ bytes) (rest : ByteString) :
    untilZero (bytes ++ 0 :: rest) = bytes := by
  have hbytes := untilZero_of_zero_not_mem h
  rw [untilZero, List.takeWhile_append]
  rw [untilZero] at hbytes
  rw [hbytes, if_pos rfl]
  simp

namespace Bytes

/-- The lowest `width` bytes of a number, low byte first. -/
def ofNat : (width : Nat) → (n : Nat) → ByteString
  | 0, _ => []
  | width + 1, n => UInt8.ofNat n :: ofNat width (n / 256)

/-- The number whose bytes these are, low byte first. -/
def toNat : ByteString → Nat
  | [] => 0
  | b :: bytes => b.toNat + 256 * toNat bytes

-- Powers are the numbers' own, also where those of monoids are known.
attribute [local instance (high)] instPowNat

/-- A number is written to just as many bytes as the width says. -/
@[simp]
theorem length_ofNat (width n : Nat) : (ofNat width n).length = width := by
  induction width generalizing n with
  | zero => rfl
  | succ width ih => simp [ofNat, ih]

/-- The number that bytes stand for is below the power of 256 for their length. -/
theorem toNat_lt (bytes : ByteString) : toNat bytes < 256 ^ bytes.length := by
  induction bytes with
  | nil => simp [toNat]
  | cons b bytes ih =>
    have := b.toNat_lt
    simp only [toNat, List.length_cons, Nat.pow_succ]
    omega

/-- A number that is written and read back is cut off to what the width has room for. -/
theorem toNat_ofNat (width n : Nat) : toNat (ofNat width n) = n % 256 ^ width := by
  induction width generalizing n with
  | zero => simp [ofNat, toNat, Nat.mod_one]
  | succ width ih =>
    have hsplit : n % 256 ^ (width + 1) = n % 256 + 256 * (n / 256 % 256 ^ width) := by
      rw [Nat.pow_succ']
      exact Nat.mod_mul
    rw [hsplit, ofNat, toNat, ih, UInt8.toNat_ofNat']

/-- Bytes that are read as a number come back when it is written to the same width. -/
theorem ofNat_toNat (bytes : ByteString) : ofNat bytes.length (toNat bytes) = bytes := by
  induction bytes with
  | nil => rfl
  | cons b bytes ih =>
    have hb := b.toNat_lt
    have hdiv : (b.toNat + 256 * toNat bytes) / 256 = toNat bytes := by omega
    have hlow : UInt8.ofNat (b.toNat + 256 * toNat bytes) = b := by
      apply UInt8.toNat_inj.1
      rw [UInt8.toNat_ofNat']
      omega
    simp only [List.length_cons, toNat, ofNat, hdiv, hlow, ih]

/-- The 64-bit word whose bytes these are, low byte first; bytes beyond the eighth do not count. -/
def toWord (bytes : ByteString) : UInt64 := UInt64.ofNat (toNat bytes)

/-- The eight bytes of a 64-bit word, low byte first. -/
def ofWord (w : UInt64) : ByteString := ofNat 8 w.toNat

/-- The bytes as a list of numbers in brackets, for logs. -/
def debugText (bytes : ByteString) : String :=
  "[" ++ ", ".intercalate (bytes.map fun b => toString b.toNat) ++ "]"

end Bytes

end Containers
