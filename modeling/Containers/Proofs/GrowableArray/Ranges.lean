import Containers.Proofs.GrowableArray.Edits
import Containers.Text

/-!
# One law for all ranges

A range of positions is looked up in a byte string and in an array by different code. Both accept a
range exactly if it lies in the container, and report the same fault otherwise (`Text.cut_of_lt`,
`Holds.slice_remove_of_lt`). What they make of it fits together. A string and an array of its bytes
are cut to the same part (`Text.cut_part`, `Holds.slice_part`); what a removal leaves is the rest of
the string (`Holds.remove_part`), and inserting the removed items one by one at their old positions
restores the array (`Holds.run_insertsFrom`), for which it never has to grow. A cut of a cut is a
cut of the whole string (`Text.cut_cut`).
-/

namespace Containers

/-! ## Byte strings -/

namespace Text

variable {s front part back : ByteString} {i count : UInt64}

/-- A range in a string is a part of it between a front and a back. -/
theorem exists_parts {i count : Nat} (hin : i + count ≤ s.length) :
    ∃ front part back, s = front ++ part ++ back ∧ front.length = i ∧ part.length = count := by
  refine ⟨s.take i, (s.drop i).take count, (s.drop i).drop count, ?_, ?_, ?_⟩
  · rw [List.append_assoc, List.take_append_drop, List.take_append_drop]
  · exact List.length_take_of_le (by omega)
  · rw [List.length_take, List.length_drop]
    omega

/-- Cutting the range of a part gives the part. -/
theorem cut_part (hlength : (front ++ part ++ back).length < UInt64.size)
    (hfront : front.length = i.toNat) (hpart : part.length = count.toNat) :
    cut (front ++ part ++ back) i count = .ok part := by
  have hin : i.toNat + count.toNat ≤ (front ++ part ++ back).length := by
    rw [List.length_append, List.length_append]
    omega
  rw [cut_eq hlength, if_pos hin, List.append_assoc, List.drop_left' hfront,
    List.take_left' hpart]

/-- A range that ends behind the string is reported with the length of the string. -/
theorem cut_of_lt {len : UInt64} (hlen : s.length = len.toNat)
    (hout : len.toNat < i.toNat + count.toNat) : cut s i count = .error (.ofRange i count len) := by
  have hword := len.toNat_lt
  rw [cut_eq (hlen ▸ hword), hlen, if_neg (by omega), saturate_toNat]

/-- A cut of a part is a cut of the whole string. -/
theorem cut_cut (hlength : (front ++ part ++ back).length < UInt64.size)
    (hfront : front.length = i.toNat) (hpart : part.length = count.toNat) {j m : UInt64}
    (hin : j.toNat + m.toNat ≤ count.toNat) :
    ∃ inner, cut part j m = .ok inner ∧ cut (front ++ part ++ back) (i + j) m = .ok inner := by
  obtain ⟨before, inner, after, rfl, hbefore, hinner⟩ := exists_parts (s := part) (hpart ▸ hin)
  have hwhole : front ++ (before ++ inner ++ after) ++ back =
      (front ++ before) ++ inner ++ (after ++ back) := by
    simp only [List.append_assoc]
  rw [hwhole] at hlength ⊢
  simp only [List.length_append] at hlength hpart
  have hsum : (front ++ before).length = (i + j).toNat := by
    rw [List.length_append, UInt64.toNat_add, hfront, hbefore]
    exact (Nat.mod_eq_of_lt (Nat.lt_of_le_of_lt (by omega) hlength)).symm
  refine ⟨inner, cut_part ?_ hbefore hinner, cut_part ?_ hsum hinner⟩
  · simp only [List.length_append]
    omega
  · simp only [List.length_append]
    omega

/-- Memory for a copy of a part of a string is granted if it would be for the whole string. -/
theorem substring_eq_cut (hlength : s.length < Allocation.ceiling) (i count : UInt64) :
    substring s i count = cut s i count := by
  have hword : s.length < UInt64.size := Nat.lt_trans hlength (by decide)
  rw [substring, cut_eq hword]
  split
  · have hle : ((s.drop i.toNat).take count.toNat).length ≤ s.length :=
      ((List.take_sublist _ _).trans (List.drop_sublist _ _)).length_le
    have hroom := Nat.lt_of_le_of_lt hle hlength
    show extend [] _ = _
    rw [extend_eq, if_pos (.inr (by simpa using hroom)), List.nil_append]
  · rfl

end Text

/-! ## Arrays -/

namespace GrowableArray

section
variable {α : Type}

/-- The inserts that put items at the positions from `i` on, one after another. -/
def insertsFrom (i : UInt64) : List α → List (Operation α)
  | [] => []
  | item :: items => .insert i item :: insertsFrom (i + 1) items

variable [Layout α] {a : GrowableArray α} {s : Sequence α} {front part back : List α}
  {capacity : Nat} {i count : UInt64}

/-- Slicing the range of a part gives an array of the part, if there is memory for it. -/
theorem Holds.slice_part (h : a.Holds ⟨front ++ part ++ back, capacity⟩)
    (hfront : front.length = i.toNat) (hpart : part.length = count.toNat)
    (hgranted : Allocation.request (Layout.width α) count.toNat = .ok ()) :
    ∃ copy, a.slice i count = .ok copy ∧ copy.Holds ⟨part, count.toNat⟩ := by
  have hslice := h.slice i count
  have hin : i.toNat + count.toNat ≤ (front ++ part ++ back).length := by
    rw [List.length_append, List.length_append]
    omega
  rw [Sequence.slice, if_pos hin, hgranted, List.append_assoc, List.drop_left' hfront,
    List.take_left' hpart] at hslice
  exact hslice.to_ok

/-- Removing the range of a part leaves the front and the back. -/
theorem Holds.remove_part (h : a.Holds ⟨front ++ part ++ back, capacity⟩)
    (hfront : front.length = i.toNat) (hpart : part.length = count.toNat) :
    ∃ left, a.remove i count = .ok left ∧ left.Holds ⟨front ++ back, capacity⟩ := by
  have hremove := h.remove i count
  have hboth : (front ++ part).length = i.toNat + count.toNat := by
    rw [List.length_append, hfront, hpart]
  have hin : i.toNat + count.toNat ≤ (front ++ part ++ back).length := by
    rw [List.length_append]
    omega
  rw [Sequence.remove, if_pos hin] at hremove
  simp only [List.drop_left' hboth] at hremove
  rw [List.append_assoc, List.take_left' hfront] at hremove
  exact hremove.to_ok

/-- A range that is not in the array is refused in the same way by both. -/
theorem Holds.slice_remove_of_lt (h : a.Holds s)
    (hout : s.items.length < i.toNat + count.toNat) :
    a.slice i count = .error (.ofRange i count a.len) ∧
      a.remove i count = .error (.ofRange i count a.len) := by
  rw [h.ofRange]
  refine ⟨Alike.to_error (R := Holds) ?_, Alike.to_error (R := Holds) ?_⟩
  · have hslice := h.slice i count
    rwa [Sequence.slice, if_neg (by omega)] at hslice
  · have hremove := h.remove i count
    rwa [Sequence.remove, if_neg (by omega)] at hremove

/-- An array with enough free slots takes items one by one between others. -/
theorem Holds.run_insertsFrom (h : a.Holds ⟨front ++ back, capacity⟩)
    (hfront : front.length = i.toNat) (hfree : (front ++ part ++ back).length ≤ capacity) :
    (a.run (insertsFrom i part)).1.Holds ⟨front ++ part ++ back, capacity⟩ ∧
      (a.run (insertsFrom i part)).2 = List.replicate part.length (.ok .done) := by
  induction part generalizing a front i with
  | nil =>
    rw [List.append_nil]
    exact ⟨h, rfl⟩
  | cons item part ih =>
    simp only [List.length_append, List.length_cons] at hfree
    have hcapacity : a.buffer.capacity.toNat = capacity := h.capacity_eq
    obtain ⟨b, hinsert, hb⟩ := h.insert_of_lt (i := i) (by simp; omega) (by simp; omega) item
    rw [← hfront, List.take_left, List.drop_left, List.append_cons] at hb
    have hnext : (front ++ [item]).length = (i + 1).toNat := by
      rw [List.length_append, List.length_singleton, hfront,
        toNat_succ_of_lt (b := a.buffer.capacity) (by omega)]
    obtain ⟨hlast, hanswers⟩ := ih hb hnext (by simp; omega)
    have hstep : (Operation.insert i item).apply a = (b, .ok .done) := by
      rw [Operation.apply, hinsert]
      rfl
    rw [insertsFrom, GrowableArray.run, hstep, List.append_cons front item part]
    exact ⟨hlast, congrArg (List.cons _) hanswers⟩

end

/-! ## Strings and arrays of their bytes -/

variable {a : GrowableArray UInt8} {s : ByteString}

/-- The bytes of an array are fewer than the allocator grants. -/
theorem length_lt_of_ofList_eq_ok (ha : GrowableArray.ofList s = .ok a) :
    s.length < Allocation.ceiling := by
  obtain ⟨buffer, hbuffer, -⟩ := of_bind_eq_ok ha
  have hgranted : 1 * (saturate s.length).toNat < Allocation.ceiling :=
    Allocation.request_eq_ok.1 (Buffer.of_allocate_eq_ok hbuffer).1
  rw [toNat_saturate, Allocation.ceiling, UInt64.size] at hgranted
  rw [Allocation.ceiling]
  omega

/-- One law for all ranges. Cutting a string, and slicing or removing from an array of its bytes,
succeed on the same ranges, which are those that lie in the string, and otherwise report the same
fault, whose end is cut off at the largest word. In range, the string is a front, the part and a
back: both cuts give the part, the removal leaves the front and the back, and putting the bytes of
the part back one by one restores the string. A cut of the part succeeds exactly in its own range,
and is then a cut of the string. -/
theorem range_law (ha : GrowableArray.ofList s = .ok a) (i count : UInt64) :
    (i.toNat + count.toNat ≤ s.length →
      ∃ front part back copy left,
        s = front ++ part ++ back ∧ front.length = i.toNat ∧ part.length = count.toNat ∧
        Text.substring s i count = .ok part ∧
        a.slice i count = .ok copy ∧ copy.toList = part ∧
        a.remove i count = .ok left ∧ left.toList = front ++ back ∧
        (left.run (insertsFrom i part)).1.toList = s ∧
        (left.run (insertsFrom i part)).2 = List.replicate part.length (.ok .done) ∧
        ∀ j m : UInt64,
          (j.toNat + m.toNat ≤ count.toNat → ∃ inner, Text.substring part j m = .ok inner ∧
            Text.substring s (i + j) m = .ok inner) ∧
          (count.toNat < j.toNat + m.toNat →
            Text.substring part j m = .error (.ofRange j m count))) ∧
    (s.length < i.toNat + count.toNat →
      ∃ stop len : UInt64, stop.toNat = min (i.toNat + count.toNat) (UInt64.size - 1) ∧
        len.toNat = s.length ∧
        Text.substring s i count = .error (.outOfRange i stop len) ∧
        a.slice i count = .error (.outOfRange i stop len) ∧
        a.remove i count = .error (.outOfRange i stop len)) := by
  have hceiling := length_lt_of_ofList_eq_ok ha
  have hword : s.length < UInt64.size := Nat.lt_trans hceiling (by decide)
  have h : a.Holds ⟨s, s.length⟩ := of_ofList_eq_ok hword ha
  refine ⟨fun hin => ?_, fun hout => ?_⟩
  · obtain ⟨front, part, back, rfl, hfront, hpart⟩ := Text.exists_parts hin
    have hgranted : Allocation.request (Layout.width UInt8) count.toNat = .ok () :=
      Allocation.request_eq_ok.2 (show 1 * count.toNat < _ by omega)
    obtain ⟨copy, hcopy, hcopied⟩ := h.slice_part hfront hpart hgranted
    obtain ⟨left, hleft, hrest⟩ := h.remove_part hfront hpart
    obtain ⟨hrestored, hanswers⟩ :=
      hrest.run_insertsFrom hfront (Nat.le_refl (front ++ part ++ back).length)
    have hsmaller : part.length < Allocation.ceiling := by omega
    refine ⟨front, part, back, copy, left, rfl, hfront, hpart, ?_, hcopy, hcopied.toList, hleft,
      hrest.toList, hrestored.toList, hanswers, fun j m => ?_⟩
    · rw [Text.substring_eq_cut hceiling, Text.cut_part hword hfront hpart]
    · rw [Text.substring_eq_cut hceiling, Text.substring_eq_cut hsmaller]
      exact ⟨Text.cut_cut hword hfront hpart, Text.cut_of_lt hpart⟩
  · obtain ⟨hslice, hremove⟩ := h.slice_remove_of_lt hout
    have hlen : a.len.toNat = s.length := h.len_eq
    refine ⟨saturate (i.toNat + count.toNat), a.len, toNat_saturate _, hlen, ?_, hslice, hremove⟩
    rw [Text.substring_eq_cut hceiling, Text.cut_of_lt hlen.symm (hlen ▸ hout)]
    rfl

/-- Cutting three of five bytes, and a range whose end is no word. -/
theorem range_law_bytes :
    ∃ a : GrowableArray UInt8, GrowableArray.ofList [1, 2, 3, 4, 5] = .ok a ∧
      (∃ part copy left, part = [2, 3, 4] ∧ Text.substring [1, 2, 3, 4, 5] 1 3 = .ok part ∧
        a.slice 1 3 = .ok copy ∧ copy.toList = part ∧
        a.remove 1 3 = .ok left ∧ left.toList = [1, 5] ∧
        (left.run (insertsFrom 1 part)).1.toList = [1, 2, 3, 4, 5] ∧
        ∃ inner, Text.substring part 1 2 = .ok inner ∧
          Text.substring [1, 2, 3, 4, 5] 2 2 = .ok inner) ∧
      ∃ stop len : UInt64, stop.toNat = UInt64.size - 1 ∧ len.toNat = 5 ∧
        Text.substring [1, 2, 3, 4, 5] 4 18446744073709551615 = .error (.outOfRange 4 stop len) ∧
        a.slice 4 18446744073709551615 = .error (.outOfRange 4 stop len) ∧
        a.remove 4 18446744073709551615 = .error (.outOfRange 4 stop len) := by
  let a : GrowableArray UInt8 := ⟨⟨5, #[some 1, some 2, some 3, some 4, some 5]⟩, 5⟩
  have ha : GrowableArray.ofList [1, 2, 3, 4, 5] = .ok a := rfl
  obtain ⟨front, part, back, copy, left, hs, hfront, hpart, hcut, hslice, hcopy, hremove, hleft,
    hrestored, -, hinner⟩ := (range_law ha 1 3).1 (by decide)
  obtain ⟨stop, len, hstop, hlen, hout⟩ := (range_law ha 4 18446744073709551615).2 (by decide)
  have hbytes : part = [2, 3, 4] := Except.ok.inj (hcut.symm.trans rfl)
  have hrest : left.toList = [1, 5] := by
    rw [show left = ⟨⟨5, #[some 1, some 5, some 3, some 4, some 5]⟩, 2⟩ from
      Except.ok.inj (hremove.symm.trans rfl)]
    rfl
  exact ⟨a, ha, ⟨part, copy, left, hbytes, hcut, hslice, hcopy, hremove, hrest, hrestored,
    (hinner 1 2).1 (by decide)⟩, stop, len, hstop, hlen, hout⟩

end GrowableArray

end Containers
