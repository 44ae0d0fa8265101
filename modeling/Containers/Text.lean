import Containers.Allocation
import Containers.Bytes

/-!
# Byte strings as text

Joining and cutting byte strings. A string that grows in memory of its own asks for that memory
first, unless there is nothing to add (`extend`). A character is given by an integer code, of which
the low byte counts. A cut has to lie in the string, and otherwise gives the same fault as a cut of
an array; a copy of it needs memory as well (`substring`).
-/

namespace Containers.Text

/-- A string with another one behind it. -/
def append (s tail : ByteString) : ByteString := s ++ tail

/-- A string with another one behind it, if there is memory for both. -/
def extend [Allocator] (s tail : ByteString) : Except Fault ByteString := do
  unless tail.isEmpty do
    Allocation.request 1 (s.length + tail.length)
  return append s tail

/-- Adding nothing needs no memory. -/
theorem extend_nil [Allocator] (s : ByteString) : extend s [] = .ok s :=
  congrArg Except.ok (List.append_nil s)

/-- Adding something needs memory for both strings. -/
theorem extend_of_ne_nil [Allocator] (s : ByteString) {tail : ByteString} (h : tail ≠ []) :
    extend s tail = (Allocation.request 1 (s.length + tail.length)).map fun _ => s ++ tail := by
  rw [extend, if_neg (by simpa using h)]
  cases Allocation.request 1 (s.length + tail.length) <;> rfl

/-- With the usual allocator, both strings together have to be shorter than the ceiling. -/
theorem extend_eq (s tail : ByteString) :
    extend s tail = if tail = [] ∨ s.length + tail.length < Allocation.ceiling then .ok (s ++ tail)
      else .error (.ofRequest 1 (s.length + tail.length)) := by
  by_cases h : tail = []
  · rw [h, extend_nil, if_pos (.inl rfl), List.append_nil]
  · simp only [extend_of_ne_nil s h, Allocation.request_eq, Nat.one_mul, h, false_or]
    split <;> rfl

/-- The byte of a character code: its lowest eight bits. -/
def codeByte (code : Int32) : UInt8 := code.toUInt32.toUInt8

/-- A string with one more character at its end. -/
def appendCode (s : ByteString) (code : Int32) : ByteString := append s [codeByte code]

/-- The bytes from position `start` up to, but not including, position `stop`, if the string has
these positions. -/
def window? (s : ByteString) (start stop : UInt64) : Option ByteString :=
  if start ≤ stop ∧ stop.toNat ≤ s.length then
    some ((s.drop start.toNat).take (stop.toNat - start.toNat))
  else
    none

/-- The `count` bytes from position `i` on. -/
def cut (s : ByteString) (i count : UInt64) : Except Fault ByteString :=
  match (checkedAdd i count).bind (window? s i) with
  | some part => .ok part
  | none => .error (.ofRange i count (saturate s.length))

/-- A cut is possible if the range lies in the string. The length of a string in memory is a
word. -/
theorem cut_eq {s : ByteString} (hlength : s.length < UInt64.size) (i count : UInt64) :
    cut s i count = if i.toNat + count.toNat ≤ s.length
      then .ok ((s.drop i.toNat).take count.toNat)
      else .error (.ofRange i count (saturate s.length)) := by
  unfold cut
  cases hstop : checkedAdd i count with
  | none =>
    have hover := checkedAdd_eq_none.1 hstop
    rw [if_neg (by omega)]
    rfl
  | some stop =>
    have hsum := toNat_of_checkedAdd hstop
    have hle : i ≤ stop := UInt64.le_iff_toNat_le.2 (by omega)
    simp only [Option.bind_some, window?, hle, true_and, hsum, Nat.add_sub_cancel_left]
    by_cases hin : i.toNat + count.toNat ≤ s.length
    · simp only [if_pos hin]
    · simp only [if_neg hin]

/-- A copy of the `count` bytes from position `i` on, in memory of its own. -/
def substring [Allocator] (s : ByteString) (i count : UInt64) : Except Fault ByteString :=
  cut s i count >>= extend []

end Containers.Text
