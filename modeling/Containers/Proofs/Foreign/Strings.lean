import Containers.Foreign.Session
import Containers.Proofs.Foreign.Variables

/-!
# Strings of a caller are lists of bytes

A string of the library is its content and one zero byte behind it, and the content has no zero byte
in it (`OwnedString.Holds`). So the first zero byte of the block is its last byte, and the size that
is computed when the string is released is the size of the block. Calls on strings do to the
contents what `Contents.step` does to lists of bytes, and give its replies
(`Session.step_contents`), whatever strings of the caller, codes and positions they come with.
-/

namespace Containers.Foreign

/-- The contents of the strings of a caller. -/
abbrev Contents := Variables ByteString

namespace Contents

/-- The bytes that a call reads: those of a string of the caller in front of its first zero byte,
or the content of a variable. -/
def bytesOf (v : Contents) : Tail → Option ByteString
  | .bytes source => source.map untilZero
  | .variable name => v.get name

/-- There is memory for a string with this content. -/
def Fits (content : ByteString) : Prop := content.length + 1 < Allocation.ceiling

instance (content : ByteString) : Decidable (Fits content) :=
  inferInstanceAs (Decidable (_ < _))

/-- Change the content of a variable. -/
def change (v : Contents) (name : Option String) (present : Bool)
    (new : ByteString → ByteString) : Contents × Reply :=
  match present, v.get name with
  | true, some old =>
    if Fits (new old) then (v.keep name (new old), .status .ok) else (v, .status .allocation)
  | _, _ => (v, .status .nullHandle)

/-- One call on strings. -/
def step (v : Contents) : Call → Contents × Reply
  | .newString target source =>
    match source.map untilZero with
    | some content =>
      if Fits content then (v.keep target content, .string .ok (some (.ofContent content)))
      else (v, .string .ok none)
    | none => (v, .string .ok none)
  | .appendString name present tail =>
    match v.bytesOf tail with
    | some bytes => v.change name present (· ++ bytes)
    | none => (v, .status .nullHandle)
  | .appendCharacter name present code =>
    let byte := (code.toInt % 256).toNat
    v.change name present fun old => if byte = 0 then old else old ++ [.ofNat byte]
  | .cutString source i count out target =>
    match v.bytesOf source, out with
    | some bytes, true =>
      if i.toNat + count.toNat ≤ bytes.length then
        let part := (bytes.drop i.toNat).take count.toNat
        if Fits part then (v.keep target part, .string .ok (some (.ofContent part)))
        else (v, .string .allocation none)
      else (v, .string .outOfRange none)
    | _, _ => (v, .string .nullHandle none)
  | .freeString (some name) => (v.release name, .freed (v name).isSome)
  | .freeString none => (v, .freed false)
  | _ => (v, .none)

end Contents

/-- A call on strings. A string of the caller lies in memory, so that its length is a word. -/
def Call.OnStrings : Call → Prop
  | .newString .. | .appendString .. | .appendCharacter .. | .freeString .. => True
  | .cutString (.bytes (some bytes)) .. => (untilZero bytes).length < UInt64.size
  | .cutString .. => True
  | _ => False

/-! ## One string -/

namespace OwnedString

variable {s : OwnedString} {content : ByteString}

/-- A string with this content. -/
structure Holds (s : OwnedString) (content : ByteString) : Prop where
  zero_not_mem : (0 : UInt8) ∉ content
  fits : Contents.Fits content
  block_eq : s.block = content ++ [0]

/-- A string that is made of a content holds it. -/
theorem holds_ofContent (h : (0 : UInt8) ∉ content) (hfits : Contents.Fits content) :
    (ofContent content).Holds content := ⟨h, hfits, rfl⟩

/-- The content of a string is what it holds. -/
theorem Holds.content_eq (h : s.Holds content) : s.content = content := by
  rw [OwnedString.content, h.block_eq]
  exact untilZero_append_zero h.zero_not_mem []

/-- The length of a string that is held is a word, since its block has been granted. -/
theorem Holds.length_lt (h : s.Holds content) :
    (untilZero s.block).length < UInt64.size := by
  have hfits : content.length + 1 < Allocation.ceiling := h.fits
  rw [← OwnedString.content, h.content_eq]
  exact Nat.lt_trans (Nat.lt_of_succ_lt hfits) (by decide)

/-- The zero byte is found where it was put. -/
theorem Holds.releasedSize_eq (h : s.Holds content) : s.releasedSize = s.block.length := by
  rw [releasedSize, h.content_eq, h.block_eq, List.length_append, List.length_singleton]

/-- What comes of making a string with this content: the string, if there is memory for it. -/
inductive Makes (content : ByteString) : Except Fault OwnedString → Prop where
  | made (h : Contents.Fits content) : Makes content (.ok (ofContent content))
  | refused (h : ¬ Contents.Fits content) (requested : UInt64) :
    Makes content (.error (.allocation requested))

/-- A copy of a content is made if there is memory for it and its zero byte. -/
theorem makes_copy (content : ByteString) : Makes content (copy content) := by
  rw [copy, Text.extend_eq]
  simp only [List.cons_ne_nil, false_or]
  split
  next h => exact .made h
  next h => exact .refused h _

/-- A copy that is made on the way takes less memory than the string at the end. -/
theorem Makes.of_extend {bytes tail : ByteString}
    {rest : ByteString → Except Fault OwnedString} (h : Makes content (rest (bytes ++ tail)))
    (hlength : bytes.length + tail.length ≤ content.length) :
    Makes content (Text.extend bytes tail >>= rest) := by
  rw [Text.extend_eq]
  split
  next => exact h
  next hlarge =>
    refine .refused (fun hfits => hlarge (.inr ?_)) _
    exact Nat.lt_of_le_of_lt hlength (Nat.lt_of_succ_lt hfits)

/-- A part of a string is duplicated before it is made a string of its own. -/
theorem makes_part (content : ByteString) :
    Makes content (Text.extend [] content >>= copy) := by
  exact .of_extend (makes_copy content) (Nat.le_of_eq (Nat.zero_add _))

/-- The copy of a content that stands in a variable, and what a change makes of the copy. -/
theorem Makes.of_change {change : [Allocator] → ByteString → Except Fault ByteString}
    (h : Makes content (change s.content >>= copy)) (hlength : s.content.length ≤ content.length) :
    Makes content (s.replaced change) := by
  refine .of_extend h ?_
  rwa [List.length_nil, Nat.zero_add]

/-- A string that is made is handed out, and null if it is refused. -/
theorem Makes.handle_eq {made : Except Fault OwnedString} (h : Makes content made) :
    handle made = if Contents.Fits content then some (ofContent content) else none := by
  cases h with
  | made h => rw [if_pos h, handle]
  | refused h requested => rw [if_neg h, handle]

/-- A string that is made takes the place of what was in the slot, and one that is refused leaves
it. -/
theorem Makes.settle_eq {made : Except Fault OwnedString} (h : Makes content made)
    (before : Pointer (Pointer OwnedString)) :
    settle before (made.map (some ∘ some)) =
      if Contents.Fits content then (.ok, some (some (ofContent content)))
      else (.allocation, before) := by
  cases h with
  | made h =>
    rw [if_pos h]
    rfl
  | refused h requested =>
    rw [if_neg h]
    rfl

end OwnedString

/-! ## One call -/

/-- A new string holds what is in front of the first zero byte, if there is memory for it. -/
theorem newString_eq (source : Pointer ByteString) :
    newString source = (source.map untilZero).bind fun content =>
      if Contents.Fits content then some (.ofContent content) else none := by
  cases source with
  | none => rfl
  | some bytes =>
    exact (OwnedString.makes_part (untilZero bytes)).handle_eq

/-- A call that changes the content of a variable. -/
theorem replaceString_eq {old : OwnedString} {content new : ByteString}
    (hold : old.Holds content) {change : [Allocator] → ByteString → Except Fault ByteString}
    (hmakes : OwnedString.Makes new (change content >>= OwnedString.copy))
    (hlength : content.length ≤ new.length) :
    replaceString (some (some old)) change =
      if Contents.Fits new then (.ok, some (some (.ofContent new)))
      else (.allocation, some (some old)) := by
  rw [← hold.content_eq] at hmakes hlength
  exact (hmakes.of_change hlength).settle_eq _

/-- The byte of a character code is the code modulo 256. -/
theorem codeByte_eq (code : Int32) : Text.codeByte code = .ofNat (code.toInt % 256).toNat := by
  have hword : code.toInt % 256 = (code.toUInt32.toNat : Int) % 256 := by
    show code.toUInt32.toBitVec.toInt % 256 = _
    rw [BitVec.toInt_eq_toNat_cond, UInt32.toNat_toBitVec]
    split <;> omega
  apply UInt8.toNat_inj.1
  rw [Text.codeByte, UInt32.toNat_toUInt8, hword, UInt8.toNat_ofNat']
  omega

/-- Cutting a string makes a string of the part if the range lies in the content and there is memory
for it, and otherwise leaves the slot as it was. -/
theorem cutString_eq {bytes : ByteString} (hlength : (untilZero bytes).length < UInt64.size)
    (i count : UInt64) (before : Pointer OwnedString) :
    cutString (some bytes) i count (some before) =
      if i.toNat + count.toNat ≤ (untilZero bytes).length then
        let part := ((untilZero bytes).drop i.toNat).take count.toNat
        if Contents.Fits part then (.ok, some (some (.ofContent part)))
        else (.allocation, some before)
      else (.outOfRange, some before) := by
  rw [cutString, OwnedString.part, Text.substring, Text.cut_eq hlength]
  split
  next => exact (OwnedString.makes_part _).settle_eq _
  next => rfl

/-! ## One call of a session -/

namespace Session

variable {s : Session} {v : Contents}

/-- A call reads the same bytes in the memory of a caller and among the contents. -/
theorem map_tailBytes (h : s.strings.Shows OwnedString.Holds v) (tail : Tail) :
    (s.tailBytes tail).map untilZero = v.bytesOf tail := by
  cases tail with
  | bytes source => rfl
  | «variable» name =>
    show ((s.strings.get name).map OwnedString.block).map untilZero = v.get name
    rw [Option.map_map]
    exact h.map_get (fun _ _ hholds => hholds.content_eq) name

/-- What a call on strings reads has a length that is a word. -/
theorem length_tailBytes (h : s.strings.Shows OwnedString.Holds v) {source : Tail}
    {i count : UInt64} {out : Bool} {target : String}
    (hcall : (Call.cutString source i count out target).OnStrings) (bytes : ByteString)
    (hbytes : s.tailBytes source = some bytes) : (untilZero bytes).length < UInt64.size := by
  cases source with
  | bytes memory =>
    cases hbytes
    exact hcall
  | «variable» name =>
    obtain ⟨string, hstring, rfl⟩ := Option.map_eq_some_iff.1 hbytes
    obtain ⟨content, -, hholds⟩ := h.of_get_eq_some hstring
    exact hholds.length_lt

/-- A change of a content, as a computation that makes the new string. -/
structure Changes (change : [Allocator] → ByteString → Except Fault ByteString)
    (new : ByteString → ByteString) : Prop where
  makes : ∀ old, OwnedString.Makes (new old) (change old >>= OwnedString.copy)
  zero_not_mem : ∀ old, (0 : UInt8) ∉ old → (0 : UInt8) ∉ new old
  length_le : ∀ old, old.length ≤ (new old).length

/-- Extending a content without a zero byte makes the content with the tail behind it. -/
theorem changes_extend {tail : ByteString} (h : (0 : UInt8) ∉ tail) :
    Changes (Text.extend · tail) (· ++ tail) where
  makes old := .of_extend (OwnedString.makes_copy _) (Nat.le_of_eq List.length_append.symm)
  zero_not_mem old hold := by simp [hold, h]
  length_le old := by simp

/-- A character adds the byte of its code, and a zero byte adds nothing. -/
theorem changes_character (code : Int32) :
    Changes (withCharacter code)
      (fun old => if (code.toInt % 256).toNat = 0 then old
        else old ++ [.ofNat (code.toInt % 256).toNat]) := by
  have hzero : Text.codeByte code = 0 ↔ (code.toInt % 256).toNat = 0 := by
    rw [codeByte_eq, ← UInt8.toNat_inj, UInt8.toNat_ofNat']
    show _ = 0 ↔ _
    omega
  rw [← codeByte_eq]
  by_cases h : Text.codeByte code = 0
  · simp only [if_pos (hzero.1 h)]
    refine ⟨fun old => ?_, fun old hold => hold, fun old => Nat.le_refl _⟩
    rw [withCharacter, if_pos h]
    exact OwnedString.makes_copy old
  · simp only [if_neg (mt hzero.2 h)]
    have hextend : Changes (Text.extend · [Text.codeByte code]) (· ++ [Text.codeByte code]) :=
      changes_extend (by simpa using Ne.symm h)
    refine ⟨fun old => ?_, hextend.zero_not_mem, hextend.length_le⟩
    rw [withCharacter, if_neg h]
    exact hextend.makes old

/-- A call that changes a string changes its content, and replies what is expected of the change. -/
theorem change_contents (h : s.strings.Shows OwnedString.Holds v) (name : Option String)
    (present : Bool) {change : [Allocator] → ByteString → Except Fault ByteString}
    {new : ByteString → ByteString} (hchange : Changes change new) :
    let call := fun slot => replaceString slot change
    (s.changeString name present call).1.strings.Shows OwnedString.Holds
        (v.change name present new).1 ∧
      (s.changeString name present call).2 = (v.change name present new).2 := by
  intro call
  cases present with
  | false =>
    exact ⟨h.keep_none name, rfl⟩
  | true =>
    have hslot := h.get name
    have hkept := s.strings.keep_get name
    show ((s.strings.keep name (call (some (s.strings.get name))).2.join).Shows _ _) ∧
      Reply.status (call (some (s.strings.get name))).1 = _
    unfold Contents.change
    generalize s.strings.get name = string, v.get name = content at hslot hkept ⊢
    cases hslot with
    | none =>
      exact ⟨h.keep_none name, rfl⟩
    | @some old content hold =>
      -- Copies on the way ask for less than the new string, so only its own size decides.
      have hnew := replaceString_eq hold (hchange.makes content) (hchange.length_le content)
      simp only [call, hnew]
      split
      next hfits =>
        have hzero := hchange.zero_not_mem content hold.zero_not_mem
        exact ⟨h.keep name (.some (OwnedString.holds_ofContent hzero hfits)), rfl⟩
      next =>
        refine ⟨?_, rfl⟩
        show (s.strings.keep name (some old)).Shows _ _
        rw [hkept]
        exact h

/-- A call on strings does to the contents what it does to lists of bytes. -/
theorem step_contents (h : s.strings.Shows OwnedString.Holds v) {call : Call}
    (hcall : call.OnStrings) :
    (s.step call).1.strings.Shows OwnedString.Holds (v.step call).1 ∧
      (s.step call).2 = (v.step call).2 := by
  cases call with
  | newString target source =>
    show (s.strings.keep target (newString source)).Shows _ _ ∧
      Reply.string .ok (newString source) = _
    rw [newString_eq, Contents.step]
    cases source with
    | none =>
      exact ⟨h.keep_none target, rfl⟩
    | some bytes =>
      simp only [Option.map_some, Option.bind_some]
      split
      next hfits =>
        have hnew := OwnedString.holds_ofContent (zero_not_mem_untilZero bytes) hfits
        exact ⟨h.keep target (.some hnew), rfl⟩
      next =>
        rw [Table.keep_none]
        exact ⟨h, rfl⟩
  | appendString name present tail =>
    show (s.changeString name present (appendString · (s.tailBytes tail))).1.strings.Shows _ _ ∧
      (s.changeString name present (appendString · (s.tailBytes tail))).2 = _
    rw [Contents.step, ← map_tailBytes h tail]
    cases s.tailBytes tail with
    | none =>
      refine ⟨?_, rfl⟩
      show (s.strings.keep name (s.slot name present).join).Shows _ v
      rw [keep_slot]
      exact h
    | some bytes =>
      exact change_contents h name present (changes_extend (zero_not_mem_untilZero bytes))
  | appendCharacter name present code =>
    exact change_contents h name present (changes_character code)
  | cutString source i count out target =>
    have hlength := length_tailBytes h hcall
    show (s.strings.keep target (cutString (s.tailBytes source) i count (place out)).2.join).Shows
        _ _ ∧
      Reply.string (cutString (s.tailBytes source) i count (place out)).1
        (cutString (s.tailBytes source) i count (place out)).2.join = _
    unfold Contents.step
    simp only [← map_tailBytes h source]
    generalize s.tailBytes source = memory at hlength ⊢
    cases memory with
    | none =>
      cases out with
      | false => exact ⟨h, rfl⟩
      | true => exact ⟨h, rfl⟩
    | some bytes =>
      cases out with
      | false => exact ⟨h, rfl⟩
      | true =>
        rw [place, if_pos rfl, cutString_eq (hlength bytes rfl)]
        simp only [Option.map_some]
        split
        · split
          next hfits =>
            have hzero := zero_not_mem_untilZero bytes
            refine ⟨h.keep target (.some (OwnedString.holds_ofContent ?_ hfits)), rfl⟩
            exact fun hmem => hzero (List.mem_of_mem_drop (List.mem_of_mem_take hmem))
          next => exact ⟨h, rfl⟩
        · exact ⟨h, rfl⟩
  | freeString name =>
    cases name with
    | none => exact ⟨h, rfl⟩
    | some name =>
      have hlive : (s.strings.get (some name)).isSome = (v name).isSome := h.isSome_get (some name)
      exact ⟨h.release name, congrArg Reply.freed hlive⟩
  | _ => cases hcall

/-- Calls on strings, one after the other. -/
theorem run_contents (h : s.strings.Shows OwnedString.Holds v) {calls : List Call}
    (hcalls : ∀ call ∈ calls, call.OnStrings) :
    (s.run calls).1.strings.Shows OwnedString.Holds (runCalls Contents.step v calls).1 ∧
      (s.run calls).2 = (runCalls Contents.step v calls).2 := by
  rw [← List.forall₂_eq_eq_eq]
  exact run_related (R := fun s v => s.strings.Shows OwnedString.Holds v)
    (fun h _ hcall _ => step_contents h hcall) h hcalls fun _ _ => trivial

end Session

/-! ## Runs of calls -/

/-- After any run of calls on strings, with any strings of the caller, codes, positions and counts,
the calls have got the replies of the same calls on lists of bytes, every variable has the content
that its list has, and every live string is a content without a zero byte and one zero byte behind
it, so that the size computed on release is the size of its block. -/
theorem run_refines_contents (calls : List Call) (hcalls : ∀ call ∈ calls, call.OnStrings) :
    let reached := (Session.run {} calls).1
    let contents := (runCalls Contents.step .empty calls).1
    (Session.run {} calls).2 = (runCalls Contents.step .empty calls).2 ∧
      (∀ name, (reached.strings.get name).map OwnedString.content = contents.get name) ∧
      ∀ name string, reached.strings.get name = some string →
        ∃ content, contents.get name = some content ∧ (0 : UInt8) ∉ content ∧
          string.block = content ++ [0] ∧ string.releasedSize = string.block.length := by
  intro reached contents
  obtain ⟨hshows, hreplies⟩ := Session.run_contents (s := {}) Table.Shows.empty hcalls
  refine ⟨hreplies, fun name => ?_, fun name string hstring => ?_⟩
  · exact hshows.map_get (fun _ _ hholds => hholds.content_eq) name
  · obtain ⟨content, hcontent, hholds⟩ := hshows.of_get_eq_some hstring
    exact ⟨content, hcontent, hholds.zero_not_mem, hholds.block_eq, hholds.releasedSize_eq⟩

/-- A string with a zero byte inside is cut there, doubled, given a character by a code above 255,
left alone by a code whose byte is zero, and copied in part; a range behind its end is refused. -/
theorem run_refines_contents_doubled :
    ∃ calls : List Call,
      calls = [.newString "a" (some [104, 105, 0, 106]),
        .appendString "a" true (.variable "a"), .appendCharacter "a" true (-256),
        .appendCharacter "a" true 323, .cutString (.variable "a") 1 3 true "b",
        .cutString (.variable "a") 5 18446744073709551615 true "b"] ∧
      (∀ call ∈ calls, call.OnStrings) ∧
      (Session.run {} calls).2 = [.string .ok (some ⟨[104, 105, 0]⟩), .status .ok, .status .ok,
        .status .ok, .string .ok (some ⟨[105, 104, 105, 0]⟩), .string .outOfRange none] ∧
      ((Session.run {} calls).1.strings.get "a").map OwnedString.content =
        some [104, 105, 104, 105, 67] := by
  refine ⟨_, rfl, by simp [Call.OnStrings], ?_⟩
  obtain ⟨hreplies, hcontents, -⟩ := run_refines_contents
    [.newString "a" (some [104, 105, 0, 106]),
      .appendString "a" true (.variable "a"), .appendCharacter "a" true (-256),
      .appendCharacter "a" true 323, .cutString (.variable "a") 1 3 true "b",
      .cutString (.variable "a") 5 18446744073709551615 true "b"] (by simp [Call.OnStrings])
  exact ⟨hreplies.trans rfl, (hcontents "a").trans rfl⟩

end Containers.Foreign
