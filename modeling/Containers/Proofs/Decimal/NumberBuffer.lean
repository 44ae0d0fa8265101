import Containers.Proofs.Decimal.Canonical

/-!
# Integers in number buffers

A number buffer keeps the first 31 bytes of a text and has zeros behind them, so a reader that stops
at a zero finds one (`NumberBuffer.text_eq`). Texts that are no longer and have no zero come back
whole. The text of an integer is one of them: it has at most eleven characters, a minus sign and ten
digits. `IntegerText` says which texts of integers there are and what they stand for, without saying
how they are made. What the reader finds in the buffer of an integer is read back as that integer
(`readInt32?_ofInt`), so no two integers share a text.
-/

namespace Containers

/-! ## Number buffers -/

/-- The bytes in front of the first zero are as many as its index says. -/
theorem untilZero_eq_take_idxOf (bytes : ByteString) :
    untilZero bytes = bytes.take (bytes.idxOf 0) := by
  have hnot : (fun b : UInt8 => !(b != 0)) = fun b => b == 0 := by
    funext b
    rw [bne, Bool.not_not]
  rw [untilZero, List.takeWhile_eq_take_findIdx_not, hnot]
  rfl

/-- Zeros at the end do not count, wherever the first zero is. -/
theorem untilZero_append_replicate (bytes : ByteString) (count : ℕ) :
    untilZero (bytes ++ List.replicate count 0) = untilZero bytes := by
  have hzeros : (List.replicate count (0 : UInt8)).takeWhile (· != 0) = [] := by
    rw [List.takeWhile_replicate]
    rfl
  rw [untilZero, List.takeWhile_append, hzeros, List.append_nil]
  split
  next hwhole => exact ((List.takeWhile_prefix _).eq_of_length hwhole).symm
  next => rfl

namespace NumberBuffer

variable (s : ShortText)

/-- A buffer reads as the first 31 bytes of the text, up to the first zero. -/
theorem text_eq : (ofShortText s).text = untilZero (s.bytes.take 31) := by
  rw [text, toList_ofShortText, untilZero_append_replicate]

/-- The byte behind everything that is kept is zero. -/
theorem last_ofShortText : (ofShortText s).data[31] = 0 := by
  show (Vector.ofFn _)[31] = _
  rw [Vector.getElem_ofFn]
  rfl

/-- A text comes back whole if it fits in front of the last byte and has no zero, and only then. -/
theorem text_eq_bytes_iff : (ofShortText s).text = s.bytes ↔ s.bytes.length ≤ 31 ∧ 0 ∉ s.bytes := by
  constructor
  · intro h
    have hprefix : untilZero (s.bytes.take 31) <+: s.bytes.take 31 := List.takeWhile_prefix _
    have hlength := hprefix.length_le.trans (List.length_take_le _ _)
    have hzero := zero_not_mem_untilZero (s.bytes.take 31)
    rw [← text_eq, h] at hlength hzero
    exact ⟨hlength, hzero⟩
  · rintro ⟨hlength, hzero⟩
    rw [text_ofShortText hzero, List.take_of_length_le hlength]

end NumberBuffer

/-! ## Texts of integers -/

namespace Decimal

/-- The text of an integer, without a zero too many: its magnitude in base ten, and a minus sign in
front of it if it is negative. Zero has no sign. -/
inductive IntegerText : ℤ → List Char → Prop where
  | nonneg {whole : List Char} (hwhole : IsWhole whole) : IntegerText (value whole) whole
  | negative {whole : List Char} (hwhole : IsWhole whole) (hne : whole ≠ ['0']) :
    IntegerText (-(value whole)) ('-' :: whole)

/-- Only zero has the digits of zero. -/
theorem digits_ne_zero {n : ℕ} (hn : n ≠ 0) : digits n ≠ ['0'] := by
  intro hzero
  have hvalue := value_digits n
  rw [hzero] at hvalue
  exact hn hvalue.symm

/-- What is written of an integer is its text. -/
theorem integerText_integer (x : ℤ) : IntegerText x (integer x) := by
  rw [integer]
  split
  next hneg =>
    have htext := IntegerText.negative (isWhole_digits x.natAbs) (digits_ne_zero (by omega))
    rw [value_digits] at htext
    rwa [show -(x.natAbs : ℤ) = x by omega] at htext
  next hnonneg =>
    have htext := IntegerText.nonneg (isWhole_digits x.natAbs)
    rw [value_digits] at htext
    rwa [show (x.natAbs : ℤ) = x by omega] at htext

/-- All characters of the text of an integer can be seen. -/
theorem IntegerText.printable {x : ℤ} {cs : List Char} (h : IntegerText x cs) :
    ∀ c ∈ cs, Printable c := by
  cases h with
  | nonneg hwhole => exact fun c hc => printable_of_isDigit (hwhole.isDigit c hc)
  | negative hwhole _ =>
    exact List.forall_mem_cons.2
      ⟨by decide, fun c hc => printable_of_isDigit (hwhole.isDigit c hc)⟩

/-- An integer of 32 bits has ten digits at most. -/
theorem length_integer_le (x : Int32) : (integer x.toInt).length ≤ 11 := by
  have hlow := x.le_toInt
  have hhigh := x.toInt_lt
  have hdigits : (digits x.toInt.natAbs).length ≤ 10 := length_digits_le (by decide) (by omega)
  rw [integer]
  split
  · rw [List.length_cons]
    omega
  · omega

/-- Characters of ASCII come back from their bytes. -/
theorem map_ofUInt8_map_toUInt8 {cs : List Char} (h : ∀ c ∈ cs, Printable c) :
    (cs.map Char.toUInt8).map Char.ofUInt8 = cs := by
  rw [List.map_map]
  refine (List.map_congr_left fun c hc => ?_).trans (List.map_id cs)
  have hlt : c.toNat < 256 := (h c hc).2.trans (by decide)
  refine Char.ext (UInt32.toNat_inj.1 ?_)
  show c.val.toUInt8.toUInt32.toNat = c.val.toNat
  rw [UInt8.toNat_toUInt32, UInt32.toNat_toUInt8]
  exact Nat.mod_eq_of_lt hlt

/-! ## Integers in number buffers -/

/-- There is room for the text of an integer, and the buffer keeps all of it. -/
theorem exists_ofInt? (x : Int32) :
    ∃ s, ShortText.ofInt? x = some s ∧ s.bytes = (integer x.toInt).map Char.toUInt8 ∧
      (NumberBuffer.ofShortText s).text = s.bytes := by
  have hlength : ((integer x.toInt).map Char.toUInt8).length ≤ 11 := by
    rw [List.length_map]
    exact length_integer_le x
  refine ⟨⟨_, hlength.trans (by decide)⟩, dif_pos (hlength.trans (by decide)), rfl, ?_⟩
  exact (NumberBuffer.text_eq_bytes_iff _).2
    ⟨hlength.trans (by decide), zero_not_mem_bytes (integerText_integer x.toInt).printable⟩

/-- What a reader finds in the buffer of an integer is read back as that integer. -/
theorem readInt32?_ofInt {x : Int32} {s : ShortText} (h : ShortText.ofInt? x = some s) :
    readInt32? ((NumberBuffer.ofShortText s).text.map Char.ofUInt8) = some x := by
  obtain ⟨s', hs', hbytes, htext⟩ := exists_ofInt? x
  obtain rfl := Option.some.inj (h.symm.trans hs')
  rw [htext, hbytes, map_ofUInt8_map_toUInt8 (integerText_integer x.toInt).printable,
    readInt32?_integer x.minValue_le_toInt x.toInt_le, Int32.ofInt_toInt]

/-- Number buffers lose nothing. Of any text, the buffer holds the first 31 bytes and zeros behind
them, so its last byte is zero. A reader finds the text itself exactly if it has no more bytes and
no zero, and what comes before the first zero of its first 31 bytes in any case. The buffer of an
integer holds its whole text, which has at most eleven characters: an optional minus sign and digits
without a zero too many. It is read back as the integer, so no two integers have the same text. -/
theorem number_buffers_lose_nothing :
    (∀ s : ShortText,
      let kept := min s.bytes.length 31
      let buffer := NumberBuffer.ofShortText s
      buffer.data.toList = s.bytes.take kept ++ List.replicate (32 - kept) 0 ∧
      buffer.data[31] = 0 ∧
      (buffer.text = s.bytes ↔ s.bytes.length ≤ 31 ∧ 0 ∉ s.bytes) ∧
      buffer.text = (s.bytes.take 31).take ((s.bytes.take 31).idxOf 0)) ∧
    (∀ x : Int32, ∃ s cs, ShortText.ofInt? x = some s ∧ s.bytes = cs.map Char.toUInt8 ∧
      (NumberBuffer.ofShortText s).text = s.bytes ∧ IntegerText x.toInt cs ∧ cs.length ≤ 11 ∧
      readInt32? ((NumberBuffer.ofShortText s).text.map Char.ofUInt8) = some x) ∧
    ∀ x y : Int32,
      (ShortText.ofInt? x).map (fun s => (NumberBuffer.ofShortText s).text) =
        (ShortText.ofInt? y).map (fun s => (NumberBuffer.ofShortText s).text) ↔ x = y := by
  refine ⟨fun s => ⟨?_, NumberBuffer.last_ofShortText s, NumberBuffer.text_eq_bytes_iff s, ?_⟩,
    fun x => ?_, fun x y => ⟨fun h => ?_, fun h => by rw [h]⟩⟩
  · rw [NumberBuffer.toList_ofShortText, List.length_take, Nat.min_comm, List.take_eq_take_min,
      Nat.min_comm]
  · rw [NumberBuffer.text_eq, untilZero_eq_take_idxOf]
  · obtain ⟨s, hs, hbytes, htext⟩ := exists_ofInt? x
    exact ⟨s, _, hs, hbytes, htext, integerText_integer _, length_integer_le x, readInt32?_ofInt hs⟩
  · obtain ⟨s, hs, -⟩ := exists_ofInt? x
    obtain ⟨t, ht, -⟩ := exists_ofInt? y
    rw [hs, ht] at h
    have htexts : (NumberBuffer.ofShortText s).text = (NumberBuffer.ofShortText t).text :=
      Option.some.inj h
    have hback := readInt32?_ofInt hs
    rw [htexts, readInt32?_ofInt ht] at hback
    exact (Option.some.inj hback).symm

/-- The least integer has the longest text. -/
example :
    integer Int32.minValue.toInt = ['-', '2', '1', '4', '7', '4', '8', '3', '6', '4', '8'] := by
  decide +kernel

end Decimal

end Containers
