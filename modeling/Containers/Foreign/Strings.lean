import Containers.Foreign.Status
import Containers.Text

/-!
# Strings for callers in C

A string of the library is a block of memory that belongs to the caller: its content and one zero
byte behind it. No content has a zero byte in it, so the place of the zero byte gives back the size
of the block when it is released. Changing a string makes a new block and releases the old one; if
that is not possible, the old one stays. Each copy on the way asks for its memory
(`OwnedString.copy`, `Text.extend`, `Text.substring`), and each of them may be refused.

The address of a variable that holds such a string is a pointer to a pointer: the variable itself
may be missing, and it may hold null.
-/

namespace Containers.Foreign

open Allocation (after)

/-- A string in a block of its own. -/
structure OwnedString where
  /-- The whole block. -/
  block : ByteString
deriving DecidableEq

namespace OwnedString

/-- A block with this content and a zero byte behind it. -/
def ofContent (content : ByteString) : OwnedString := ⟨content ++ [0]⟩

/-- The content: everything before the first zero byte. -/
def content (s : OwnedString) : ByteString := untilZero s.block

/-- The size of the block, as computed from the place of its first zero byte when the string is
released. -/
def releasedSize (s : OwnedString) : Nat := s.content.length + 1

/-- A copy of these bytes with a zero byte behind them, if there is memory for it. -/
def copy [Allocator] (bytes : ByteString) : Except Fault OwnedString :=
  return ⟨← Text.extend bytes [0]⟩

/-- A string with changed content. The content is duplicated, the duplicate changed and the result
copied, and each of the three may be refused its memory. -/
def replaced [Allocator] (old : OwnedString)
    (change : [Allocator] → ByteString → Except Fault ByteString) : Except Fault OwnedString := do
  let content ← Text.extend [] old.content
  let changed ← after 1 (change content)
  after 2 (copy changed)

end OwnedString

/-- A new string with the content of a string of the caller; null if there is none. -/
def newString [Allocator] (source : Pointer ByteString) : Pointer OwnedString :=
  match source with
  | some bytes => handle do
    let content ← Text.extend [] (untilZero bytes)
    after 1 (OwnedString.copy content)
  | none => none

/-- Put a changed string in place of the one that a variable holds. -/
def replaceString [Allocator] (slot : Pointer (Pointer OwnedString))
    (change : [Allocator] → ByteString → Except Fault ByteString) :
    Status × Pointer (Pointer OwnedString) :=
  match slot with
  | some (some old) => settle (some (some old)) ((old.replaced change).map (some ∘ some))
  | _ => (.nullHandle, slot)

/-- Append a string of the caller, which may be the very string that is appended to. -/
def appendString [Allocator] (slot : Pointer (Pointer OwnedString)) (tail : Pointer ByteString) :
    Status × Pointer (Pointer OwnedString) :=
  match tail with
  | some bytes => replaceString slot fun content => Text.extend content (untilZero bytes)
  | none => (.nullHandle, slot)

/-- A string with the character of this code at its end. A code whose byte is zero adds nothing,
since a reader would take it for the end of the string. -/
def withCharacter [Allocator] (code : Int32) (content : ByteString) : Except Fault ByteString :=
  if Text.codeByte code = 0 then .ok content else Text.extend content [Text.codeByte code]

/-- Append the character with this code. -/
def appendCharacter [Allocator] (slot : Pointer (Pointer OwnedString)) (code : Int32) :
    Status × Pointer (Pointer OwnedString) :=
  replaceString slot (withCharacter code)

/-- A string of the `count` bytes from position `i` on. -/
def OwnedString.part [Allocator] (content : ByteString) (i count : UInt64) :
    Except Fault OwnedString := do
  let bytes ← Text.substring content i count
  after 1 (copy bytes)

/-- Store a new string of the `count` bytes from position `i` on through `out`. -/
def cutString [Allocator] (source : Pointer ByteString) (i count : UInt64)
    (out : Pointer (Pointer OwnedString)) : Status × Pointer (Pointer OwnedString) :=
  match source, out with
  | some bytes, some before =>
    settle (some before) ((OwnedString.part (untilZero bytes) i count).map (some ∘ some))
  | _, _ => (.nullHandle, out)

/-- A call without a new string leaves the place for it alone. -/
theorem cutString_of_ne_ok [Allocator] {source : Pointer ByteString} {i count : UInt64}
    {out : Pointer (Pointer OwnedString)} (h : (cutString source i count out).1 ≠ .ok) :
    (cutString source i count out).2 = out := by
  cases source <;> cases out <;> first | exact settle_of_ne_ok h | rfl

end Containers.Foreign
