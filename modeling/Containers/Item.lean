import Containers.Bytes
import Containers.FloatFormat.Basic
import Containers.Layout

/-!
# Kinds of items

An item is a pattern of bytes. Its kind says how wide it is, when two of them count as equal and
how one is written in a log: integers with or without a sign, floating-point numbers, groups of
bytes, and an item of no bytes at all.
-/

namespace Containers

/-- What a pattern of bytes stands for. -/
inductive ItemKind where
  /-- An integer with a sign. -/
  | signed (width : Nat)
  /-- An integer without a sign. -/
  | unsigned (width : Nat)
  /-- A floating-point number of 32 bits. -/
  | binary32
  /-- A floating-point number of 64 bits. -/
  | binary64
  /-- A group of bytes, the lowest first. -/
  | bytes (width : Nat)
  /-- The item that takes no bytes. -/
  | unit
deriving DecidableEq

namespace ItemKind

/-- The number of bytes of an item. -/
def width : ItemKind → Nat
  | .signed width | .unsigned width | .bytes width => width
  | .binary32 => 4
  | .binary64 => 8
  | .unit => 0

/-- The item with the low bytes of a counter. -/
def ofCounter (kind : ItemKind) (x : Int64) : Scalar kind.width := BitVec.ofInt _ x.toInt

/-- Whether two items are equal. Floating-point numbers are equal as numbers, all other items if
their patterns are. -/
def same (kind : ItemKind) (a b : Scalar kind.width) : Bool :=
  match kind with
  | .binary32 => FloatFormat.binary32.numericEq a.toNat b.toNat
  | .binary64 => FloatFormat.binary64.numericEq a.toNat b.toNat
  | .signed _ | .unsigned _ | .bytes _ | .unit => a == b

/-- The text of an item in a log. Floating-point numbers show their bits. -/
def debugText (kind : ItemKind) (a : Scalar kind.width) : String :=
  match kind with
  | .signed _ => toString a.toInt
  | .unsigned _ | .binary32 | .binary64 => toString a.toNat
  | .bytes width => Bytes.debugText (Bytes.ofNat width a.toNat)
  | .unit => "()"

end ItemKind

end Containers
