/-!
# Binary floating-point formats

A floating-point number is kept as its bits. A `FloatFormat` says how many of them hold the
fraction and how many the exponent, and `decode` gives the number that the bits stand for: not a
number, an infinity, or a sign with a magnitude `mantissa * 2 ^ exponent`, which is exact.
-/

namespace Containers

/-- A binary format: a sign bit, then the exponent bits, then the fraction bits. -/
structure FloatFormat where
  /-- The number of bits of the fraction. -/
  fractionBits : Nat
  /-- The number of bits of the exponent. -/
  exponentBits : Nat

/-- The number that the bits of a floating-point number stand for. -/
inductive FloatValue where
  /-- Not a number. -/
  | nan
  /-- An infinity. -/
  | infinite (negative : Bool)
  /-- A finite number of magnitude `mantissa * 2 ^ exponent`. -/
  | finite (negative : Bool) (mantissa : Nat) (exponent : Int)
deriving DecidableEq

namespace FloatFormat

/-- The format of 32 bits. -/
def binary32 : FloatFormat := ⟨23, 8⟩

/-- The format of 64 bits. -/
def binary64 : FloatFormat := ⟨52, 11⟩

-- Powers are the numbers' own, also where those of monoids are known.
attribute [local instance (high)] instPowNat

variable (format : FloatFormat)

/-- The fraction field. -/
def fraction (bits : Nat) : Nat := bits % 2 ^ format.fractionBits

/-- The exponent field. -/
def biased (bits : Nat) : Nat := bits / 2 ^ format.fractionBits % 2 ^ format.exponentBits

/-- Whether the sign bit is set. -/
def isNegative (bits : Nat) : Bool :=
  bits / 2 ^ (format.fractionBits + format.exponentBits) % 2 = 1

/-- The exponent field of infinities and of what is not a number. -/
def top : Nat := 2 ^ format.exponentBits - 1

/-- The power of two that one unit of the fraction counts for in the smallest numbers. No number
of the format has a finer unit. -/
def leastExponent : Int :=
  2 - 2 ^ (format.exponentBits - 1) - (format.fractionBits : Int)

/-- The number that these bits stand for. The smallest numbers have exponent field zero and share
the unit of those with field one; all others have a leading bit that is not stored. -/
def decode (bits : Nat) : FloatValue :=
  let negative := format.isNegative bits
  let fraction := format.fraction bits
  let biased := format.biased bits
  if biased = format.top then
    if fraction = 0 then .infinite negative else .nan
  else if biased = 0 then
    .finite negative fraction format.leastExponent
  else
    .finite negative (2 ^ format.fractionBits + fraction) (format.leastExponent + (biased - 1))

/-- The bits with this sign and these lower bits. -/
def withSign (negative : Bool) (magnitude : Nat) : Nat :=
  if negative then 2 ^ (format.fractionBits + format.exponentBits) + magnitude else magnitude

/-- The lower bits of an infinity. -/
def infinityBits : Nat := format.top * 2 ^ format.fractionBits

/-- The bits that stand for every value that is not a number. -/
def nanBits : Nat := format.infinityBits + 2 ^ (format.fractionBits - 1)

/-- Whether these bits stand for no number. -/
def isNaN (bits : Nat) : Bool := format.decode bits = .nan

/-- Whether two numbers are equal: zero equals its negative, and what is not a number equals
nothing, not even itself. -/
def numericEq (a b : Nat) : Bool :=
  !format.isNaN a && !format.isNaN b &&
    (a == b || (isZero a && isZero b))
where
  /-- Whether these bits stand for zero of either sign. -/
  isZero (bits : Nat) : Bool := format.fraction bits == 0 && format.biased bits == 0

end FloatFormat

end Containers
