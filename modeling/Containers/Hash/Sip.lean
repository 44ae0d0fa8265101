import Containers.Bytes

/-!
# SipHash-2-4

The keyed hash SipHash with two rounds for each word of the message and four at the end. A message
is absorbed as 64-bit words (`SipHash.words`): its bytes eight at a time, low byte first, and a
last word with the bytes that are left over and, as its highest byte, the length of the message
modulo 256.
-/

namespace Containers

namespace SipHash

/-- A key: two words. -/
structure Key where
  /-- The first word. -/
  k0 : UInt64
  /-- The second word. -/
  k1 : UInt64
deriving DecidableEq

namespace Key

/-- The number of bytes of a key. -/
def size : Nat := 16

/-- The key of sixteen bytes: two words, low byte first. -/
def ofBytes (bytes : ByteString) : Key :=
  ⟨Bytes.toWord (bytes.take 8), Bytes.toWord ((bytes.drop 8).take 8)⟩

/-- A text for logs that shows nothing of the key. -/
def debugText (_ : Key) : String := "SipKey(..)"

end Key

/-- A word with its bits moved up by `n` places, those that leave it coming back at the bottom. -/
def rotateUp (w n : UInt64) : UInt64 := (w <<< n) ||| (w >>> (64 - n))

/-- The state of a computation: four words. -/
structure State where
  /-- The first word. -/
  v0 : UInt64
  /-- The second word. -/
  v1 : UInt64
  /-- The third word. -/
  v2 : UInt64
  /-- The fourth word. -/
  v3 : UInt64
deriving DecidableEq

namespace State

/-- The state before any word of a message. -/
def ofKey (key : Key) : State where
  v0 := key.k0 ^^^ 0x736f6d6570736575
  v1 := key.k1 ^^^ 0x646f72616e646f6d
  v2 := key.k0 ^^^ 0x6c7967656e657261
  v3 := key.k1 ^^^ 0x7465646279746573

/-- One round: additions, rotations and exclusive ors over the four words. -/
def round (s : State) : State :=
  let v0 := s.v0 + s.v1
  let v2 := s.v2 + s.v3
  let v1 := rotateUp s.v1 13 ^^^ v0
  let v3 := rotateUp s.v3 16 ^^^ v2
  let v0 := rotateUp v0 32
  let v2 := v2 + v1
  let v0 := v0 + v3
  let v1 := rotateUp v1 17 ^^^ v2
  let v3 := rotateUp v3 21 ^^^ v0
  let v2 := rotateUp v2 32
  ⟨v0, v1, v2, v3⟩

/-- Absorb one word of a message with two rounds. -/
def compress (s : State) (word : UInt64) : State :=
  let mixed := { s with v3 := s.v3 ^^^ word }.round.round
  { mixed with v0 := mixed.v0 ^^^ word }

/-- The hash that a state ends in, after four more rounds. -/
def finish (s : State) : UInt64 :=
  let last := { s with v2 := s.v2 ^^^ 0xff }.round.round.round.round
  last.v0 ^^^ last.v1 ^^^ last.v2 ^^^ last.v3

end State

/-- The last word of a message of `length` bytes, `tail` being those that fill no word. -/
def lastWord (length : Nat) (tail : ByteString) : UInt64 :=
  Bytes.toWord (tail ++ List.replicate (7 - tail.length) 0 ++ [UInt8.ofNat length])

/-- The words of the rest of a message whose length was `length`. -/
def wordsOf (length : Nat) (rest : ByteString) : List UInt64 :=
  if 8 ≤ rest.length then
    Bytes.toWord (rest.take 8) :: wordsOf length (rest.drop 8)
  else
    [lastWord length rest]
termination_by rest.length

/-- The words that a message is absorbed as. -/
def words (message : ByteString) : List UInt64 := wordsOf message.length message

/-- The state after a whole message, before the last rounds. -/
def absorb (key : Key) (message : ByteString) : State :=
  (words message).foldl State.compress (.ofKey key)

end SipHash

/-- The SipHash-2-4 of a message under a key. -/
def sipHash (key : SipHash.Key) (message : ByteString) : UInt64 :=
  (SipHash.absorb key message).finish

end Containers
