import Containers.Bytes

/-!
# BLAKE2s digests

The hash function BLAKE2s without a key, for digests of 32 bytes. A message is split into blocks of
64 bytes, the last of them filled up with zeros, and an empty message is one block of zeros. Each
block is mixed into eight chaining words in ten rounds of eight mixing steps.
-/

namespace Containers.Blake2s

/-- The number of bytes of a block. -/
def blockSize : Nat := 64

/-- The initial chaining words before the parameters are mixed in. -/
def initialWords : Vector UInt32 8 :=
  #v[0x6a09e667, 0xbb67ae85, 0x3c6ef372, 0xa54ff53a, 0x510e527f, 0x9b05688c, 0x1f83d9ab, 0x5be0cd19]

/-- The parameters of a digest of 32 bytes without key, salt or tree: the digest's length, and one
for the fan-out and one for the depth. -/
def parameters : UInt32 := 0x01010020

/-- The order in which each round takes the words of a block. -/
def schedule : Vector (Vector (Fin 16) 16) 10 :=
  #v[#v[0, 1, 2, 3, 4, 5, 6, 7, 8, 9, 10, 11, 12, 13, 14, 15],
    #v[14, 10, 4, 8, 9, 15, 13, 6, 1, 12, 0, 2, 11, 7, 5, 3],
    #v[11, 8, 12, 0, 5, 2, 15, 13, 10, 14, 3, 6, 7, 1, 9, 4],
    #v[7, 9, 3, 1, 13, 12, 11, 14, 2, 6, 5, 10, 4, 0, 15, 8],
    #v[9, 0, 5, 7, 2, 4, 10, 15, 14, 1, 11, 12, 6, 8, 3, 13],
    #v[2, 12, 6, 10, 0, 11, 8, 3, 4, 13, 7, 5, 15, 14, 1, 9],
    #v[12, 5, 1, 15, 14, 13, 4, 10, 0, 7, 6, 3, 9, 2, 8, 11],
    #v[13, 11, 7, 14, 12, 1, 3, 9, 5, 0, 15, 4, 8, 6, 2, 10],
    #v[6, 15, 14, 9, 11, 3, 0, 8, 12, 2, 13, 7, 1, 4, 10, 5],
    #v[10, 2, 8, 4, 7, 6, 1, 5, 15, 11, 9, 14, 3, 12, 13, 0]]

/-- The four words of the working state that each mixing step of a round works on: the columns of
a square of sixteen words, then its diagonals. -/
def lanes : Vector (Fin 16 × Fin 16 × Fin 16 × Fin 16) 8 :=
  #v[(0, 4, 8, 12), (1, 5, 9, 13), (2, 6, 10, 14), (3, 7, 11, 15),
    (0, 5, 10, 15), (1, 6, 11, 12), (2, 7, 8, 13), (3, 4, 9, 14)]

/-- A word with its bits moved down by `n` places, those that leave it coming back at the top. -/
def rotateDown (w n : UInt32) : UInt32 := (w >>> n) ||| (w <<< (32 - n))

/-- One mixing step: two words of a block go into four words of the working state. -/
def mix (v : Vector UInt32 16) (lane : Fin 16 × Fin 16 × Fin 16 × Fin 16) (x y : UInt32) :
    Vector UInt32 16 :=
  let (a, b, c, d) := lane
  let va := v[a] + v[b] + x
  let vd := rotateDown (v[d] ^^^ va) 16
  let vc := v[c] + vd
  let vb := rotateDown (v[b] ^^^ vc) 12
  let va := va + vb + y
  let vd := rotateDown (vd ^^^ va) 8
  let vc := vc + vd
  let vb := rotateDown (vb ^^^ vc) 7
  (((v.set a va).set b vb).set c vc).set d vd

/-- One round: eight mixing steps, which take the words of the block in the given order. -/
def round (block : Vector UInt32 16) (v : Vector UInt32 16) (order : Vector (Fin 16) 16) :
    Vector UInt32 16 :=
  (List.finRange 8).foldl (fun v i =>
    mix v lanes[i] block[order[2 * i.val]] block[order[2 * i.val + 1]]) v

/-- Mix a block into the chaining words. `count` is the number of bytes of the message up to the
end of the block. -/
def compress (h : Vector UInt32 8) (block : Vector UInt32 16) (count : Nat) (last : Bool) :
    Vector UInt32 8 :=
  let counters := #v[0, 0, 0, 0, UInt32.ofNat count, UInt32.ofNat (count >>> 32),
    if last then 0xffffffff else 0, 0]
  let second := Vector.zipWith (· ^^^ ·) initialWords counters
  let v := schedule.foldl (round block) (h ++ second)
  Vector.ofFn fun i => h[i] ^^^ v[i.val] ^^^ v[i.val + 8]

/-- The words of a block, low byte first; missing bytes count as zero. -/
def blockWords (bytes : ByteString) : Vector UInt32 16 :=
  Vector.ofFn fun i => UInt32.ofNat (Bytes.toNat ((bytes.drop (4 * i.val)).take 4))

/-- The chaining words after the rest of a message of which `count` bytes have been mixed in. -/
def absorb (h : Vector UInt32 8) (count : Nat) (rest : ByteString) : Vector UInt32 8 :=
  if blockSize < rest.length then
    absorb (compress h (blockWords (rest.take blockSize)) (count + blockSize) false)
      (count + blockSize) (rest.drop blockSize)
  else
    compress h (blockWords rest) (count + rest.length) true
termination_by rest.length
decreasing_by simp only [List.length_drop, blockSize] at *; omega

/-- The digest of a message: 32 bytes. -/
def digest (message : ByteString) : ByteString :=
  let start := initialWords.set 0 (initialWords[0] ^^^ parameters)
  (absorb start 0 message).toList.flatMap fun w => Bytes.ofNat 4 w.toNat

end Containers.Blake2s
