import Containers.Proofs.Hash.Reference

/-!
# No two messages are absorbed as the same words

The bytes of the words that a message is absorbed as are the message, zeros, and its length modulo
256 (`flatMap_ofWord_words`). Neither the zeros nor the length modulo 256 tells where the message
ends, but there is one word more than the message has full groups of eight bytes, and eight divides
256. So the number of words and the last byte give the length, and the message can be read back from
its words (`messageOf_words`).
-/

namespace Containers.SipHash

/-! ## The bytes of words -/

/-- Eight bytes come back from the word that they make. -/
theorem ofWord_toWord {bytes : ByteString} (hlength : bytes.length = 8) :
    Bytes.ofWord (Bytes.toWord bytes) = bytes := by
  have hlt : Bytes.toNat bytes < UInt64.size := by
    have h := Bytes.toNat_lt bytes
    rw [hlength] at h
    exact h
  have hback := Bytes.ofNat_toNat bytes
  rw [hlength] at hback
  rw [Bytes.ofWord, Bytes.toWord, UInt64.toNat_ofNat_of_lt' hlt, hback]

/-- Every full group of eight bytes comes back from its word, and behind them what the last word is
made of. -/
theorem flatMap_ofWord_wordsOf (length : Nat) (rest : ByteString) :
    (wordsOf length rest).flatMap Bytes.ofWord =
      rest ++ List.replicate (7 - rest.length % 8) 0 ++ [UInt8.ofNat length] := by
  induction rest using wordsOf.induct with
  | case1 rest hfull ih =>
    have hgroup : (rest.take 8).length = 8 := List.length_take_of_le hfull
    have hzeros : (rest.length - 8) % 8 = rest.length % 8 := by omega
    rw [List.length_drop, hzeros] at ih
    rw [wordsOf, if_pos hfull, List.flatMap_cons, ofWord_toWord hgroup, ih, ← List.append_assoc,
      ← List.append_assoc, List.take_append_drop]
  | case2 rest hshort =>
    have hrest : rest.length % 8 = rest.length := by omega
    have hgroup : (rest ++ List.replicate (7 - rest.length) 0 ++
        [UInt8.ofNat length]).length = 8 := by
      simp only [List.length_append, List.length_replicate, List.length_singleton]
      omega
    rw [wordsOf, if_neg hshort, List.flatMap_singleton, lastWord, ofWord_toWord hgroup, hrest]

/-- The bytes of the words of a message are the message, zeros, and the low byte of its length. -/
theorem flatMap_ofWord_words (message : ByteString) :
    (words message).flatMap Bytes.ofWord =
      message ++ List.replicate (7 - message.length % 8) 0 ++ [UInt8.ofNat message.length] :=
  flatMap_ofWord_wordsOf message.length message

/-- A message has a word for each full group of eight bytes, and one more. -/
theorem length_words (message : ByteString) :
    (words message).length = message.length / 8 + 1 := by
  have hlength := congrArg List.length (map_words message)
  rwa [List.length_map, Reference.words, List.length_map, List.length_range] at hlength

/-! ## Reading a message back -/

/-- The message that is absorbed as these words. All words but the last one are full, and the last
byte tells how much of the last one counts. -/
def messageOf (words : List UInt64) : ByteString :=
  let bytes := words.flatMap Bytes.ofWord
  bytes.take (8 * (words.length - 1) + (bytes.getLastD 0).toNat % 8)

/-- A message is read back from its words. -/
theorem messageOf_words (message : ByteString) : messageOf (words message) = message := by
  have hlength : 8 * (message.length / 8 + 1 - 1) + (UInt8.ofNat message.length).toNat % 8 =
      message.length := by
    rw [UInt8.toNat_ofNat']
    omega
  simp only [messageOf, flatMap_ofWord_words, length_words, List.getLastD_concat, hlength]
  rw [List.append_assoc, List.take_left]

/-- No two messages are absorbed as the same words. The bytes of the words are the message with
zeros and the low byte of its length behind it, and together with the number of the words they tell
what the message was: also from one that has more zeros at its end, and from one whose length is the
same modulo 256. -/
theorem words_tell_messages_apart (message : ByteString) :
    (words message).flatMap Bytes.ofWord =
      message ++ List.replicate (7 - message.length % 8) 0 ++ [UInt8.ofNat message.length] ∧
    (words message).length = message.length / 8 + 1 ∧
    ∀ other, words other = words message ↔ other = message := by
  refine ⟨flatMap_ofWord_words message, length_words message, fun other => ⟨fun h => ?_, ?_⟩⟩
  · rw [← messageOf_words other, h, messageOf_words]
  · rintro rfl
    rfl

/-- The empty message and 256 zeros have the same length modulo 256. -/
example : words [] ≠ words (List.replicate 256 0) := by
  decide +kernel

end Containers.SipHash
