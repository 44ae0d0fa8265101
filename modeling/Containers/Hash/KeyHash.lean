import Containers.Hash.Blake2s
import Containers.Hash.Sip
import Containers.Word

/-!
# Hashes of keys

A map only asks its hash for a 64-bit word for the bytes of a key, and takes any word. The
reference hash is the exclusive or of the bytes. It is weak: keys with the same bytes in another
order collide, and it never exceeds 255. `KeyHash.sip` is the one for keys that someone else
chooses. The three hashes after it are as bad as a hash can be in one way each.
-/

namespace Containers

/-- The key made from a seed of any length: the first half of the seed's digest. -/
def SipHash.Key.ofSeed (seed : ByteString) : SipHash.Key :=
  .ofBytes ((Blake2s.digest seed).take SipHash.Key.size)

/-- The exclusive or of all bytes of a string. -/
def xorBytes (bytes : ByteString) : UInt64 := (bytes.foldl (· ^^^ ·) 0).toUInt64

/-- A hash of keys, with a text for logs. -/
structure KeyHash where
  /-- The text for logs. -/
  debugText : String
  /-- The hash of a key's bytes: any word will do. -/
  word : ByteString → UInt64

namespace KeyHash

/-- The reference hash: the exclusive or of the bytes. -/
def xor : KeyHash := ⟨"XorFold", xorBytes⟩

/-- SipHash-2-4 under a key. -/
def sip (key : SipHash.Key) : KeyHash :=
  ⟨s!"SipBucketHash \x7b key: {key.debugText} \x7d", sipHash key⟩

/-- The same word for every key, so that all keys share a bucket. -/
def constant (word : UInt64) : KeyHash := ⟨s!"Const({word})", fun _ => word⟩

/-- Words counted down from the largest one by the first byte of a key. -/
def top : KeyHash :=
  ⟨"Top", fun bytes => wordMax - (bytes.headD 0).toUInt64⟩

/-- The first eight bytes of a key as they are. -/
def leading : KeyHash := ⟨"First8", fun bytes => Bytes.toWord (bytes.take 8)⟩

end KeyHash

end Containers
