/-!
# Bits of floating-point numbers as integers

Integers and floating-point numbers exchange their bits unchanged. A 64-bit payload holds a 64-bit
number as it is, and a 32-bit number in its low half.
-/

namespace Containers

/-- The bits of a 32-bit number, read as a signed integer. -/
def signedOfBits (bits : UInt32) : Int32 := bits.toInt32

/-- The 32-bit number with the bits of a signed integer. -/
def bitsOfSigned (x : Int32) : UInt32 := x.toUInt32

namespace Payload

/-- A payload with the bits of a 32-bit number in its low half and zeros above them. -/
def ofBits32 (bits : UInt32) : UInt64 := bits.toUInt64

/-- The 32-bit number in the low half of a payload. -/
def toBits32 (payload : UInt64) : UInt32 := payload.toUInt32

/-- A payload with the bits of a 64-bit number. -/
def ofBits64 (bits : UInt64) : UInt64 := bits

/-- The 64-bit number with the bits of a payload. -/
def toBits64 (payload : UInt64) : UInt64 := payload

/-- A pattern of 32 bits comes back from the payload that it is stored in. -/
theorem toBits32_ofBits32 (bits : UInt32) : toBits32 (ofBits32 bits) = bits := by
  simp [toBits32, ofBits32]

end Payload

end Containers
