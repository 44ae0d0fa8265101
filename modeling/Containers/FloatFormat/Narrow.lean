import Containers.Decimal.Rounding
import Containers.FloatFormat.Basic

/-!
# Rounding into a format

`FloatFormat.encode` gives the bits of the number of a format nearest to an exact value. The value
is rounded to whole units of the finest scale the format has for its size. Bits of finite numbers
of one sign count up with their magnitude, so the rounded number of units is added to the bits of
the scale's start, and a carry into the next scale or beyond the largest number needs no case of
its own.
-/

namespace Containers.FloatFormat

-- Powers are the numbers' own, also where those of monoids are known.
attribute [local instance (high)] instPowNat

variable (format : FloatFormat)

/-- The lower bits of the number nearest to `mantissa * 2 ^ exponent`; of two equally near ones,
the one with an even fraction. A value beyond the largest number gives an infinity. -/
def roundMagnitude (mantissa : Nat) (exponent : Int) : Nat :=
  if mantissa = 0 then 0 else
  let scale := max (exponent + mantissa.log2 - format.fractionBits) format.leastExponent
  let units := roundBinary mantissa 1 (exponent - scale)
  let start := (scale - format.leastExponent).toNat * 2 ^ format.fractionBits
  min (start + units) format.infinityBits

/-- The bits of the number nearest to a value. The sign is kept, also by a value that is rounded
to zero, and all that is not a number gets the same bits. -/
def encode : FloatValue → Nat
  | .nan => format.nanBits
  | .infinite negative => format.withSign negative format.infinityBits
  | .finite negative mantissa exponent =>
    format.withSign negative (format.roundMagnitude mantissa exponent)

/-- The 32-bit number nearest to a 64-bit number, both as bits. -/
def narrow (bits : UInt64) : UInt32 :=
  UInt32.ofNat (binary32.encode (binary64.decode bits.toNat))

end Containers.FloatFormat
