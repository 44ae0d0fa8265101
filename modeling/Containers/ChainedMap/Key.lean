import Containers.Bytes
import Containers.Layout

/-!
# Keys as bytes

A map hashes and compares keys as byte strings, and a type of keys says which bytes of a key count.
Fixed-width values count as their bytes, low byte first, so that two patterns are the same key
exactly if they are equal: zero and negative zero are different keys, and a value that is not a
number can be found again. Text counts up to its first zero byte.
-/

namespace Containers

/-- A type whose values can be keys of a map. -/
class MapKey (κ : Type) where
  /-- The bytes of a key that count. -/
  encode : κ → ByteString

/-- All bytes of a fixed-width value count. -/
instance (width : Nat) : MapKey (Scalar width) where
  encode key := Bytes.ofNat width key.toNat

/-- An integer counts as the eight bytes of its pattern. -/
instance : MapKey Int64 where
  encode key := Bytes.ofNat 8 key.toBitVec.toNat

/-- A byte string as a key that ends at its first zero byte. -/
structure TextKey where
  /-- The string, with whatever follows a zero byte in it. -/
  bytes : ByteString

/-- What follows a zero byte does not count. -/
instance : MapKey TextKey where
  encode key := untilZero key.bytes

/-- The value of `width` bytes that these bytes encode. -/
def Scalar.ofBytes (width : Nat) (bytes : ByteString) : Scalar width :=
  BitVec.ofNat _ (Bytes.toNat bytes)

/-- Encoding a fixed-width value loses nothing. -/
theorem Scalar.ofBytes_encode {width : Nat} (key : Scalar width) :
    Scalar.ofBytes width (MapKey.encode key) = key := by
  have hpow : (256 : Nat) ^ width = 2 ^ (8 * width) := by rw [Nat.pow_mul]
  apply BitVec.eq_of_toNat_eq
  simp only [ofBytes, MapKey.encode, Bytes.toNat_ofNat, BitVec.toNat_ofNat, hpow]
  rw [Nat.mod_mod, Nat.mod_eq_of_lt key.isLt]

end Containers
