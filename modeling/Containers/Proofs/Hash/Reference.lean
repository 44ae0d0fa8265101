import Containers.Hash.Sip
import Mathlib.Data.Nat.Digits.Defs

/-!
# SipHash over the padded message

`SipHash.Reference` is SipHash-2-4 as it is published. A message is padded to whole words: zeros,
and as the very last byte the length modulo 256. The padded string is cut into 64-bit words, low
byte first, and the words are absorbed one by one. A round is made of four half rounds, each of
which adds one word to another, rotates the second and joins it with the sum. Words are bit vectors
here, with the addition and the rotation of bit vectors.

`sipHash` never builds the padded string. It absorbs the full groups of eight bytes as it comes to
them and puts the last word together from what is left over. `map_wordsOf` says that the words are
the same, by induction on the groups, and `sipHash_eq_reference` that the hashes are.
-/

namespace Containers.SipHash

namespace Reference

/-- The four words of a state. -/
structure State where
  /-- The first word. -/
  v0 : BitVec 64
  /-- The second word. -/
  v1 : BitVec 64
  /-- The third word. -/
  v2 : BitVec 64
  /-- The fourth word. -/
  v3 : BitVec 64

/-- A half round: `b` is added to `a`, and `b` itself is rotated and joined with the sum. -/
def halfRound (a b : BitVec 64) (places : Nat) : BitVec 64 × BitVec 64 :=
  (a + b, b.rotateLeft places ^^^ (a + b))

/-- A round: two half rounds over the neighbours, and two over the words crosswise. The first and
the third word change their halves on the way. -/
def round : State → State
  | ⟨v0, v1, v2, v3⟩ =>
    let (v0, v1) := halfRound v0 v1 13
    let v0 := v0.rotateLeft 32
    let (v2, v3) := halfRound v2 v3 16
    let (v0, v3) := halfRound v0 v3 21
    let (v2, v1) := halfRound v2 v1 17
    let v2 := v2.rotateLeft 32
    ⟨v0, v1, v2, v3⟩

/-- The state under a key of two words. -/
def start (k0 k1 : BitVec 64) : State :=
  ⟨k0 ^^^ 0x736f6d6570736575, k1 ^^^ 0x646f72616e646f6d,
    k0 ^^^ 0x6c7967656e657261, k1 ^^^ 0x7465646279746573⟩

/-- A message with zeros behind it and its length modulo 256 at the end. -/
def padded (message : ByteString) : ByteString :=
  message ++ List.replicate (7 - message.length % 8) 0 ++ [UInt8.ofNat (message.length % 256)]

/-- Word number `i` of a string, low byte first. -/
def word (bytes : ByteString) (i : Nat) : BitVec 64 :=
  BitVec.ofNat 64 (Nat.ofDigits 256 (((bytes.drop (8 * i)).take 8).map UInt8.toNat))

/-- The words of the padded message. -/
def words (message : ByteString) : List (BitVec 64) :=
  (List.range (message.length / 8 + 1)).map (word (padded message))

/-- The state after one more word. -/
def absorb (s : State) (w : BitVec 64) : State :=
  let mixed := round (round { s with v3 := s.v3 ^^^ w })
  { mixed with v0 := mixed.v0 ^^^ w }

/-- The word that a state ends in. -/
def finish (s : State) : BitVec 64 :=
  let last := round (round (round (round { s with v2 := s.v2 ^^^ 0xff })))
  last.v0 ^^^ last.v1 ^^^ last.v2 ^^^ last.v3

/-- The hash of a message under a key of two words. -/
def hash (k0 k1 : BitVec 64) (message : ByteString) : BitVec 64 :=
  finish ((words message).foldl absorb (start k0 k1))

/-- The padded message has no byte outside its words. -/
theorem length_padded (message : ByteString) :
    (padded message).length = 8 * (message.length / 8 + 1) := by
  simp only [padded, List.length_append, List.length_replicate, List.length_singleton]
  omega

end Reference

/-! ## Words -/

/-- The number that bytes stand for has them as its digits to the base 256. -/
theorem toNat_eq_ofDigits (bytes : ByteString) :
    Bytes.toNat bytes = Nat.ofDigits 256 (bytes.map UInt8.toNat) := by
  induction bytes with
  | nil => rfl
  | cons b bytes ih => rw [Bytes.toNat, ih, List.map_cons, Nat.ofDigits_cons]

/-- The word of eight bytes, as a bit vector. -/
theorem toBitVec_toWord (bytes : ByteString) :
    (Bytes.toWord bytes).toBitVec =
      BitVec.ofNat 64 (Nat.ofDigits 256 (bytes.map UInt8.toNat)) := by
  rw [Bytes.toWord, UInt64.toBitVec_ofNat', toNat_eq_ofDigits]

/-- The words of the rest of a message are those of the rest as it is padded, for every length that
the last byte may tell. -/
theorem map_wordsOf (length : Nat) (rest : ByteString) :
    (wordsOf length rest).map UInt64.toBitVec =
      (List.range (rest.length / 8 + 1)).map
        (Reference.word
          (rest ++ List.replicate (7 - rest.length % 8) 0 ++ [UInt8.ofNat length])) := by
  induction rest using wordsOf.induct with
  | case1 rest hfull ih =>
    have hcount : rest.length / 8 = (rest.length - 8) / 8 + 1 := by omega
    have hrest : (rest.length - 8) % 8 = rest.length % 8 := by omega
    rw [List.length_drop, hrest] at ih
    rw [wordsOf, if_pos hfull, List.map_cons, ih, hcount, List.range_succ_eq_map (n := _ + 1),
      List.map_cons, List.map_map]
    congr 1
    · rw [toBitVec_toWord, Reference.word, Nat.mul_zero, List.drop_zero, List.append_assoc,
        List.take_append_of_le_length hfull]
    · -- Word `i` behind the first group is word `i + 1` of the whole.
      refine List.map_congr_left fun i _ => ?_
      rw [Function.comp_apply, Reference.word, Reference.word, Nat.mul_succ, Nat.add_comm,
        ← List.drop_drop, List.append_assoc rest, List.drop_append_of_le_length hfull,
        List.append_assoc]
  | case2 rest hshort =>
    have hcount : rest.length / 8 = 0 := by omega
    have hrest : rest.length % 8 = rest.length := by omega
    have hpadded : (rest ++ List.replicate (7 - rest.length) 0 ++
        [UInt8.ofNat length]).length = 8 := by
      simp only [List.length_append, List.length_replicate, List.length_singleton]
      omega
    rw [wordsOf, if_neg hshort, hcount, hrest, List.range_one, List.map_singleton,
      List.map_singleton, lastWord, toBitVec_toWord, Reference.word, Nat.mul_zero,
      List.drop_zero, List.take_of_length_le (Nat.le_of_eq hpadded)]

/-- The words of a message are those of the padded message. -/
theorem map_words (message : ByteString) :
    (words message).map UInt64.toBitVec = Reference.words message := by
  have hlength : UInt8.ofNat (message.length % 256) = UInt8.ofNat message.length := by
    apply UInt8.toNat_inj.1
    rw [UInt8.toNat_ofNat', UInt8.toNat_ofNat', Nat.mod_mod]
  rw [words, map_wordsOf, Reference.words, Reference.padded, hlength]

/-! ## States -/

/-- Moving the bits of a word around is a rotation. -/
theorem toBitVec_rotateUp (w n : UInt64) (hpos : 0 < n.toNat) (hlt : n.toNat < 64) :
    (rotateUp w n).toBitVec = w.toBitVec.rotateLeft n.toNat := by
  have hback : (64 - n).toNat = 64 - n.toNat := by
    rw [UInt64.toNat_sub_of_le _ _ (UInt64.le_iff_toNat_le.2 (Nat.le_of_lt hlt))]
    rfl
  rw [rotateUp, UInt64.toBitVec_or, UInt64.toBitVec_shiftLeft, UInt64.toBitVec_shiftRight,
    BitVec.rotateLeft_def, Nat.mod_eq_of_lt hlt]
  have hplaces : (n.toBitVec % 64).toNat = n.toNat := by
    rw [BitVec.toNat_umod, UInt64.toNat_toBitVec]
    exact Nat.mod_eq_of_lt hlt
  have hrest : ((64 - n).toBitVec % 64).toNat = 64 - n.toNat := by
    rw [BitVec.toNat_umod, UInt64.toNat_toBitVec, hback]
    exact Nat.mod_eq_of_lt (show 64 - n.toNat < 64 by omega)
  rw [BitVec.shiftLeft_eq', BitVec.ushiftRight_eq', hplaces, hrest]

namespace State

/-- A state as bit vectors. -/
def bits (s : State) : Reference.State :=
  ⟨s.v0.toBitVec, s.v1.toBitVec, s.v2.toBitVec, s.v3.toBitVec⟩

/-- The first state of a key, as bit vectors. -/
theorem bits_ofKey (key : Key) :
    (ofKey key).bits = Reference.start key.k0.toBitVec key.k1.toBitVec := rfl

/-- A round on words is the reference round on their bits. -/
theorem bits_round (s : State) : s.round.bits = Reference.round s.bits := by
  have h13 (w : UInt64) : (rotateUp w 13).toBitVec = w.toBitVec.rotateLeft 13 :=
    toBitVec_rotateUp w 13 (by decide) (by decide)
  have h16 (w : UInt64) : (rotateUp w 16).toBitVec = w.toBitVec.rotateLeft 16 :=
    toBitVec_rotateUp w 16 (by decide) (by decide)
  have h17 (w : UInt64) : (rotateUp w 17).toBitVec = w.toBitVec.rotateLeft 17 :=
    toBitVec_rotateUp w 17 (by decide) (by decide)
  have h21 (w : UInt64) : (rotateUp w 21).toBitVec = w.toBitVec.rotateLeft 21 :=
    toBitVec_rotateUp w 21 (by decide) (by decide)
  have h32 (w : UInt64) : (rotateUp w 32).toBitVec = w.toBitVec.rotateLeft 32 :=
    toBitVec_rotateUp w 32 (by decide) (by decide)
  simp only [round, bits, Reference.round, Reference.halfRound, UInt64.toBitVec_xor,
    UInt64.toBitVec_add, h13, h16, h17, h21, h32]

/-- Absorbing a word is the reference step on its bits. -/
theorem bits_compress (s : State) (w : UInt64) :
    (s.compress w).bits = Reference.absorb s.bits w.toBitVec := by
  have hstart : { s.bits with v3 := s.bits.v3 ^^^ w.toBitVec } =
      ({ s with v3 := s.v3 ^^^ w } : State).bits := rfl
  rw [Reference.absorb, hstart, ← bits_round, ← bits_round]
  rfl

/-- The last rounds give the bits that the reference gives. -/
theorem toBitVec_finish (s : State) : s.finish.toBitVec = Reference.finish s.bits := by
  have hstart : { s.bits with v2 := s.bits.v2 ^^^ 0xff } =
      ({ s with v2 := s.v2 ^^^ 0xff } : State).bits := rfl
  rw [Reference.finish, hstart, ← bits_round, ← bits_round, ← bits_round, ← bits_round]
  rfl

end State

/-- The hash has the bits that the reference has. -/
theorem toBitVec_sipHash (key : Key) (message : ByteString) :
    (sipHash key message).toBitVec =
      Reference.hash key.k0.toBitVec key.k1.toBitVec message := by
  have habsorb : (SipHash.absorb key message).bits =
      (Reference.words message).foldl Reference.absorb
        (Reference.start key.k0.toBitVec key.k1.toBitVec) := by
    rw [SipHash.absorb, ← map_words, List.foldl_map, ← State.bits_ofKey]
    exact (List.foldl_hom State.bits fun s w => (s.bits_compress w).symm).symm
  rw [sipHash, State.toBitVec_finish, habsorb, Reference.hash]

/-- The hash of a message is the published one, under a key of two words and under one of sixteen
bytes, which are two words as well. The padded message is as long as its words, one more than the
message has full groups of eight bytes. -/
theorem sipHash_eq_reference (message : ByteString) :
    (Reference.padded message).length = 8 * (message.length / 8 + 1) ∧
    (∀ k0 k1 : UInt64,
      (sipHash ⟨k0, k1⟩ message).toBitVec = Reference.hash k0.toBitVec k1.toBitVec message) ∧
    ∀ bytes : Vector UInt8 Key.size,
      (sipHash (.ofBytes bytes.toList) message).toBitVec =
        Reference.hash (Reference.word bytes.toList 0) (Reference.word bytes.toList 1)
          message := by
  refine ⟨Reference.length_padded message, fun k0 k1 => toBitVec_sipHash ⟨k0, k1⟩ message,
    fun bytes => ?_⟩
  rw [toBitVec_sipHash, Key.ofBytes, toBitVec_toWord, toBitVec_toWord]
  rfl

/-- The published example: the bytes from 0 on, fifteen of them under sixteen. -/
example : sipHash (.ofBytes ((List.range 16).map UInt8.ofNat)) ((List.range 15).map UInt8.ofNat) =
    0xa129ca6149be45e5 := by
  decide +kernel

end Containers.SipHash
