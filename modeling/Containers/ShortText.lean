import Containers.Bytes
import Containers.Decimal.General

/-!
# Short texts and number buffers

A `ShortText` is a byte string of at most 32 bytes, kept where it is used instead of in memory of
its own. It is made for the texts of numbers, and writing a longer text to it fails. A
`NumberBuffer` is a block of 32 bytes that holds such a text for a reader that looks for a zero
byte: it keeps at most 31 bytes of the text, and all bytes behind them are zero.
-/

namespace Containers

/-- A byte string that fits in 32 bytes. -/
structure ShortText where
  /-- The bytes of the text. -/
  bytes : ByteString
  /-- There are no more than 32 of them. -/
  length_le : bytes.length ≤ 32

namespace ShortText

/-- The number of bytes that there is room for. -/
def room : Nat := 32

/-- A byte string as a short text, if there is room for it. -/
def ofBytes? (bytes : ByteString) : Option ShortText :=
  if h : bytes.length ≤ room then some ⟨bytes, h⟩ else none

/-- ASCII characters as a short text, if there is room for them. -/
def ofChars? (cs : List Char) : Option ShortText := ofBytes? (cs.map Char.toUInt8)

/-- The text of an integer in base ten. -/
def ofInt? (x : Int32) : Option ShortText := ofChars? (Decimal.integer x.toInt)

/-- The short text of the 32-bit floating-point number with these bits. -/
def ofFloat? (bits : UInt32) : Option ShortText := ofChars? (Decimal.shortText bits)

end ShortText

/-- A block of 32 bytes for a text that ends at a zero byte. -/
structure NumberBuffer where
  /-- The bytes of the block. -/
  data : Vector UInt8 32
deriving DecidableEq

namespace NumberBuffer

/-- The block with as much of a text as leaves room for a zero byte behind it. -/
def ofShortText (s : ShortText) : NumberBuffer :=
  ⟨Vector.ofFn fun i => if i.val < 31 then s.bytes.getD i.val 0 else 0⟩

/-- The text in a block: its bytes up to the first zero, or all of them if there is none. -/
def text (b : NumberBuffer) : ByteString := untilZero b.data.toList

/-- The block holds the text, and zeros up to its end. -/
theorem toList_ofShortText (s : ShortText) :
    (ofShortText s).data.toList =
      s.bytes.take 31 ++ List.replicate (32 - (s.bytes.take 31).length) 0 := by
  have hlength : (s.bytes.take 31).length = min 31 s.bytes.length := List.length_take
  show (Vector.ofFn fun i : Fin 32 => if i.val < 31 then s.bytes.getD i.val 0 else 0).toList = _
  rw [Vector.toList_ofFn]
  refine List.ext_getElem ?_ fun i hi _ => ?_
  · rw [List.length_ofFn, List.length_append, List.length_replicate]
    omega
  · rw [List.getElem_ofFn, List.getElem_append]
    show (if i < 31 then s.bytes.getD i 0 else 0) = _
    rw [List.getD_eq_getElem?_getD]
    split
    next hlow =>
      split
      next hin => rw [List.getElem_take, List.getElem?_eq_getElem (by omega), Option.getD_some]
      next hout => rw [List.getElem_replicate, List.getElem?_eq_none (by omega), Option.getD_none]
    next hhigh => rw [dif_neg (by omega), List.getElem_replicate]

/-- A text without a zero byte is what a reader finds in the block, as far as it fits. -/
theorem text_ofShortText {s : ShortText} (h : 0 ∉ s.bytes) :
    (ofShortText s).text = s.bytes.take 31 := by
  have hle : (s.bytes.take 31).length ≤ 31 := List.length_take_le 31 s.bytes
  have hzeros : 32 - (s.bytes.take 31).length = 31 - (s.bytes.take 31).length + 1 := by omega
  rw [text, toList_ofShortText, hzeros, List.replicate_succ]
  exact untilZero_append_zero (mt List.mem_of_mem_take h) _

end NumberBuffer

end Containers
