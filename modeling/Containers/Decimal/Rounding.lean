/-!
# Rounding of quotients

One rule rounds every exact number of this library to a whole number of units: to the nearest one,
and from half way between two to the even one. A number is given as a quotient of natural numbers,
so nothing is lost before the rounding.
-/

namespace Containers

-- Powers are the numbers' own, also where those of monoids are known.
attribute [local instance (high)] instPowNat

/-- The natural number nearest to `num / den`; of two equally near ones, the even one. -/
def roundQuotient (num den : Nat) : Nat :=
  let quotient := num / den
  let twice := 2 * (num % den)
  if twice < den then quotient
  else if den < twice then quotient + 1
  else quotient + quotient % 2

/-- The number nearest to `num / den` times ten to the power `places`. -/
def roundDecimal (num den : Nat) (places : Int) : Nat :=
  roundQuotient (num * 10 ^ places.toNat) (den * 10 ^ (-places).toNat)

/-- The number nearest to `num / den` times two to the power `places`. -/
def roundBinary (num den : Nat) (places : Int) : Nat :=
  roundQuotient (num * 2 ^ places.toNat) (den * 2 ^ (-places).toNat)

end Containers
