import Containers.Decimal.Digits
import Containers.Decimal.Rounding
import Containers.FloatFormat.Basic

/-!
# Short texts of floating-point numbers

A number is written with a fixed count of significant digits, in positional notation if its
exponent after rounding is in a fixed range and in scientific notation otherwise, without the zeros
at the end that add nothing. The two notations round the exact value on their own: `scientific` to
a number of significant digits, `roundDecimal` to a number of places.

`GeneralStyle` holds the decisions of the layout, and `GeneralStyle.short` is the one this library
writes: `1.5e+06`, `100000`, `0.0001`, `1e-05`, `-0`, `inf`, `nan`.
-/

namespace Containers.Decimal

-- Powers are the numbers' own, also where those of monoids are known.
attribute [local instance (high)] instPowNat

/-- The exponent of ten of the leading digit of `num / den`, for a positive quotient. -/
def leadingExponent (num den : Nat) : Int :=
  if den ≤ num then digitCount (num / den) - 1 else -digitCount ((den - 1) / num)

/-- The quotient `num / den` rounded to one digit before the point and `places` behind it: the
digits as one number, and the exponent of ten of the first. A carry beyond the first digit gives
the next exponent. Zero has only zero digits and exponent zero. -/
def scientific (places : Nat) (num den : Nat) : Nat × Int :=
  if num = 0 then (0, 0) else
  let exponent := leadingExponent num den
  let mantissa := roundDecimal num den (places - exponent)
  if mantissa = 10 ^ (places + 1) then (10 ^ places, exponent + 1) else (mantissa, exponent)

/-- A number of units of ten to the power `-places`, in positional notation with `places` digits
behind the point. There is at least one digit before the point, and no point if there are no
places. -/
def positional (places : Nat) (units : Nat) : List Char :=
  if places = 0 then digits units else
  let all := padded (places + 1) (digits units)
  let whole := all.length - places
  all.take whole ++ '.' :: all.drop whole

/-- Text without the given character at its end. -/
def trimEnd (c : Char) (cs : List Char) : List Char :=
  (cs.reverse.dropWhile (· = c)).reverse

/-- Text without the zeros at the end of its fraction, and without the point if nothing is left
behind it. Text without a point is whole and stays as it is. -/
def stripZeros (cs : List Char) : List Char :=
  if '.' ∈ cs then trimEnd '.' (trimEnd '0' cs) else cs

/-- The decisions of the layout of floating-point numbers. -/
structure GeneralStyle where
  /-- The number of significant digits. -/
  precision : Nat
  /-- The least exponent that is written in positional notation; the first exponent that is not
  again is the precision. -/
  leastPositional : Int
  /-- The least number of digits of a written exponent. -/
  exponentWidth : Nat

namespace GeneralStyle

/-- Six significant digits, positional notation from a ten-thousandth up to a million, and at
least two digits of an exponent. -/
def short : GeneralStyle := ⟨6, -4, 2⟩

variable (style : GeneralStyle)

/-- The exponent in scientific notation, always with its sign. -/
def exponentText (exponent : Int) : List Char :=
  'e' :: (if exponent < 0 then '-' else '+') ::
    padded style.exponentWidth (digits exponent.natAbs)

/-- The text of the magnitude `num / den`. -/
def magnitudeText (num den : Nat) : List Char :=
  let last := style.precision - 1
  let (mantissa, exponent) := scientific last num den
  if exponent < style.leastPositional ∨ style.precision ≤ exponent then
    stripZeros (positional last mantissa) ++ style.exponentText exponent
  else
    let places := (last - exponent).toNat
    stripZeros (positional places (roundDecimal num den places))

/-- The text of a number. -/
def text : FloatValue → List Char
  | .nan => ['n', 'a', 'n']
  | .infinite negative => signed negative ['i', 'n', 'f']
  | .finite negative mantissa exponent =>
    signed negative
      (style.magnitudeText (mantissa * 2 ^ exponent.toNat) (2 ^ (-exponent).toNat))
where
  /-- Text with a minus sign in front of it if the number is negative. -/
  signed (negative : Bool) (cs : List Char) : List Char := if negative then '-' :: cs else cs

end GeneralStyle

/-- The short text of the 32-bit number with these bits. -/
def shortText (bits : UInt32) : List Char :=
  GeneralStyle.short.text (FloatFormat.binary32.decode bits.toNat)

end Containers.Decimal
