/-!
# Item layouts

An array stores items of one type, and each type takes a fixed number of bytes per item. A type of
width zero has a single value, so an item of such a type needs no memory: it can be read back
without having been stored anywhere.
-/

namespace Containers

/-- The memory layout of an item type. -/
class Layout (α : Type) where
  /-- The number of bytes an item takes. -/
  width : Nat
  /-- The value of a type whose items take no memory. -/
  sole : width = 0 → α
  /-- A type whose items take no memory has only that value. -/
  eq_sole : ∀ (h : width = 0) (a : α), a = sole h

/-- The layout of a type whose items take memory. -/
@[reducible]
def Layout.ofPos {α : Type} (width : Nat) (h : width ≠ 0) : Layout α where
  width := width
  sole hzero := absurd hzero h
  eq_sole hzero := absurd hzero h

/-- The values of `width` bytes, as bit patterns: what a pattern stands for is decided by whoever
reads it. -/
abbrev Scalar (width : Nat) := BitVec (8 * width)

/-- There is one pattern without bits. -/
instance (width : Nat) : Layout (Scalar width) where
  width := width
  sole _ := 0
  eq_sole h a := by
    subst h
    exact BitVec.eq_nil a

instance : Layout UInt8 := .ofPos 1 (by decide)

instance : Layout UInt32 := .ofPos 4 (by decide)

instance : Layout UInt64 := .ofPos 8 (by decide)

instance : Layout Int64 := .ofPos 8 (by decide)

end Containers
