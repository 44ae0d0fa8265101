import Containers.Decimal.General

/-!
# Reading numbers back

An integer in base ten is read from its digits, with an optional sign in front of them
(`readInteger?`). A writer of numbers can take the leading exponent of a number from the text of
its scientific notation: it is the integer behind the `e` (`GeneralStyle.text?`). Reading can fail,
so such a writer can fail as well, as far as this module goes.
-/

namespace Containers.Decimal

-- Powers are the numbers' own, also where those of monoids are known.
attribute [local instance (high)] instPowNat

/-- The parts of a text in front of the first `c` and behind it, if there is one. -/
def splitFirst? (c : Char) : List Char → Option (List Char × List Char)
  | [] => none
  | head :: cs =>
    if head = c then some ([], cs)
    else (splitFirst? c cs).map fun (front, behind) => (head :: front, behind)

/-- The number that digits stand for. There has to be one at least. -/
def readNatural? (cs : List Char) : Option Nat :=
  if cs ≠ [] ∧ cs.all Char.isDigit then some (value cs) else none

/-- The number that digits stand for, with a sign in front of them or without. -/
def readInteger? : List Char → Option Int
  | '-' :: cs => (readNatural? cs).map fun n : Nat => -(n : Int)
  | '+' :: cs => (readNatural? cs).map Int.ofNat
  | cs => (readNatural? cs).map Int.ofNat

/-- An integer that has to fit in 32 bits. -/
def readInt32? (cs : List Char) : Option Int32 :=
  match readInteger? cs with
  | some x => if Int32.minValue.toInt ≤ x ∧ x ≤ Int32.maxValue.toInt then some (.ofInt x) else none
  | none => none

namespace GeneralStyle

variable (style : GeneralStyle)

/-- The scientific notation of a quotient with a sign: the rounded digits, and the exponent as it
is. -/
def scientificText (negative : Bool) (num den : Nat) : List Char :=
  let last := style.precision - 1
  let (mantissa, exponent) := scientific last num den
  text.signed negative (positional last mantissa) ++ 'e' :: integer exponent

/-- The text of a number, written after its scientific notation has been read back: what stands
behind the `e` chooses between the two notations, and what stands in front of it is the mantissa of
the one. Nothing if there is no `e` or no exponent behind it. -/
def text? : FloatValue → Option (List Char)
  | .nan => some ['n', 'a', 'n']
  | .infinite negative => some (text.signed negative ['i', 'n', 'f'])
  | .finite negative mantissa exponent => do
    let num := mantissa * 2 ^ exponent.toNat
    let den := 2 ^ (-exponent).toNat
    let (front, behind) ← splitFirst? 'e' (style.scientificText negative num den)
    let exponent := (← readInt32? behind).toInt
    if exponent < style.leastPositional ∨ style.precision ≤ exponent then
      return stripZeros front ++ style.exponentText exponent
    else
      let last := style.precision - 1
      let places := (last - exponent).toNat
      return stripZeros (text.signed negative (positional places (roundDecimal num den places)))

end GeneralStyle

end Containers.Decimal
