import Containers.Foreign.Arrays
import Containers.Foreign.Maps
import Containers.Foreign.Strings
import Containers.Foreign.Table

/-!
# Sessions of a caller

A caller keeps the handles it gets in variables, those of arrays, maps and strings apart. A
`Session` is what the variables hold, a `Call` names the variables it works on, and `Session.step`
carries it out. A variable without a live handle stands for a null pointer. A call that makes a new
object puts it into a variable, where it takes the place of the handle that was there; if nothing
was made, the variable keeps what it had.
-/

namespace Containers.Foreign

/-- The live handles of a caller. -/
structure Session where
  /-- The arrays. -/
  arrays : Table ArrayHandle := {}
  /-- The maps. -/
  maps : Table MapHandle := {}
  /-- The strings. -/
  strings : Table OwnedString := {}

/-- Values in the caller's memory to make an array or a vector of. -/
inductive Values where
  /-- Integers of 32 bits. -/
  | ints (values : Pointer (List Int32))
  /-- Floating-point numbers of 64 bits. -/
  | floats (values : Pointer (List UInt64))
  /-- Addresses of strings. -/
  | strings (values : Pointer (List UInt64))

/-- A string that a call reads. -/
inductive Tail where
  /-- A string of the caller. -/
  | bytes (source : Pointer ByteString)
  /-- The string that a variable holds. -/
  | variable (name : Option String)

/-- A variable stands for the string it holds. -/
instance : Coe (Option String) Tail := ⟨.variable⟩

/-- One call of a caller. A variable is given by its name, or is missing. -/
inductive Call where
  /-- Make an empty array with items of `width` bytes. -/
  | newArray (target : String) (width : UInt64)
  /-- Make an array of values. -/
  | newArrayOf (target : String) (values : Values) (count : UInt64)
  /-- Only look at an array. -/
  | lookAtItems
  /-- Read an item; `out` is what the place for it holds before. -/
  | readItem (array : Option String) (i : UInt64) (out : Pointer UInt64)
  /-- Put another item at a position. -/
  | writeItem (array : Option String) (i item : UInt64)
  /-- Put an item in front of a position. -/
  | insertItem (array : Option String) (i item : UInt64)
  /-- Take away items. -/
  | removeItems (array : Option String) (i count : UInt64)
  /-- Copy items to a new array; without `out` there is no place for its handle. -/
  | cutItems (array : Option String) (i count : UInt64) (out : Bool) (target : String)
  /-- Release an array. -/
  | freeArray (array : Option String)
  /-- Make a vector of values. -/
  | newVectorOf (values : Values) (count : UInt64)
  /-- Make a map. -/
  | newMap (target : String) (flag : Int8)
  /-- Measure a map. -/
  | measure (map : Option String)
  /-- Store a payload. -/
  | storePayload (map : Option String) (key : Key) (payload : Int64)
  /-- Look up a payload; `out` is what the place for it holds before. -/
  | findPayload (map : Option String) (key : Key) (out : Pointer Int64)
  /-- Look up a payload, with zero if there is none. -/
  | payloadOrZero (map : Option String) (key : Key)
  /-- Remove an entry. -/
  | removeEntry (map : Option String) (key : Key)
  /-- Release a map. -/
  | freeMap (map : Option String)
  /-- Make a string. -/
  | newString (target : String) (source : Pointer ByteString)
  /-- Append a string; without `slot` the variable is missing. -/
  | appendString (name : Option String) (slot : Bool) (tail : Tail)
  /-- Append a character; without `slot` the variable is missing. -/
  | appendCharacter (name : Option String) (slot : Bool) (code : Int32)
  /-- Copy bytes to a new string; without `out` there is no place for it. -/
  | cutString (source : Tail) (i count : UInt64) (out : Bool) (target : String)
  /-- Release a string. -/
  | freeString (name : Option String)

/-- What a call gives back. -/
inductive Reply where
  /-- Nothing. -/
  | none
  /-- What became of the call. -/
  | status (status : Status)
  /-- What became of a call and what the place for an item holds after it. -/
  | item (status : Status) (out : Pointer UInt64)
  /-- What became of a call and the array it made, or the one made by a call without a status. -/
  | array (status : Status) (made : Pointer ArrayHandle)
  /-- The items of a vector. -/
  | vector (made : Pointer (Array UInt64))
  /-- The map that was made. -/
  | map (made : Pointer MapHandle)
  /-- The number of entries of a map and its measurements. -/
  | measured (len : Nat) (spread : Spread)
  /-- What became of a call and what the place for a payload holds after it. -/
  | payload (status : Status) (out : Pointer Int64)
  /-- The payload itself. -/
  | value (payload : Int64)
  /-- What became of a call and the string it made. -/
  | string (status : Status) (made : Pointer OwnedString)
  /-- Whether there was an object to release. -/
  | freed (live : Bool)

namespace Values

/-- An array of the values. -/
def array [Allocator] (count : UInt64) : Values → Pointer ArrayHandle
  | .ints values => newArrayOfInts values count
  | .floats values => newArrayOfFloats values count
  | .strings values => newArrayOfStrings values count

/-- A vector of the values, with its items as words. -/
def vector [Allocator] (count : UInt64) : Values → Pointer (Array UInt64)
  | .ints values => (newVectorOfInts values count).map (Array.map UInt32.toUInt64)
  | .floats values => (newVectorOfFloats values count).map (Array.map UInt32.toUInt64)
  | .strings values => newVectorOfStrings values count

end Values

namespace Session

/-- The memory of the string that a call reads. -/
def tailBytes (s : Session) : Tail → Pointer ByteString
  | .bytes source => source
  | .variable name => (s.strings.get name).map OwnedString.block

/-- The variable of a string as a pointer; `present` says whether there is one at all. -/
def slot (s : Session) (name : Option String) (present : Bool) : Pointer (Pointer OwnedString) :=
  if present then some (s.strings.get name) else none

/-- The variable holds what its pointer points at. -/
theorem keep_slot (s : Session) (name : Option String) (present : Bool) :
    s.strings.keep name (s.slot name present).join = s.strings := by
  cases present with
  | false => exact Table.keep_none _ _
  | true => exact Table.keep_get _ _

/-- A place for a new handle, holding null; `present` says whether there is one at all. -/
def place {α : Type} (present : Bool) : Pointer (Pointer α) :=
  if present then some none else none

/-- Carry out a call on an array that may change it. -/
def changeArray (s : Session) (name : Option String)
    (call : Pointer ArrayHandle → Status × Pointer ArrayHandle) : Session × Reply :=
  let (status, array) := call (s.arrays.get name)
  ({ s with arrays := s.arrays.keep name array }, .status status)

/-- Carry out a call on a map that may change it. -/
def changeMap (s : Session) (name : Option String)
    (call : Pointer MapHandle → Status × Pointer MapHandle) : Session × Reply :=
  let (status, map) := call (s.maps.get name)
  ({ s with maps := s.maps.keep name map }, .status status)

/-- Carry out a call on the variable of a string. -/
def changeString (s : Session) (name : Option String) (present : Bool)
    (call : Pointer (Pointer OwnedString) → Status × Pointer (Pointer OwnedString)) :
    Session × Reply :=
  let (status, slot) := call (s.slot name present)
  ({ s with strings := s.strings.keep name slot.join }, .status status)

/-- Release what a variable holds. -/
def free {α : Type} (t : Table α) (name : Option String) : Table α × Reply :=
  match name with
  | some name => (t.release name, .freed (t.get name).isSome)
  | none => (t, .freed false)

/-- Carry out one call. -/
def step [Allocator] (s : Session) : Call → Session × Reply
  | .newArray target width =>
    let made := Foreign.newArray width
    ({ s with arrays := s.arrays.keep target made }, .array .ok made)
  | .newArrayOf target values count =>
    let made := values.array count
    ({ s with arrays := s.arrays.keep target made }, .array .ok made)
  | .lookAtItems => (s, .none)
  | .readItem array i out =>
    let (status, out) := Foreign.readItem (s.arrays.get array) i out
    (s, .item status out)
  | .writeItem array i item => s.changeArray array (writeItem · i item)
  | .insertItem array i item => s.changeArray array (insertItem · i item)
  | .removeItems array i count => s.changeArray array (removeItems · i count)
  | .cutItems array i count out target =>
    let (status, out) := Foreign.cutItems (s.arrays.get array) i count (place out)
    ({ s with arrays := s.arrays.keep target out.join }, .array status out.join)
  | .freeArray array =>
    let (arrays, reply) := free s.arrays array
    ({ s with arrays }, reply)
  | .newVectorOf values count => (s, .vector (values.vector count))
  | .newMap target flag =>
    let made := Foreign.newMap flag
    ({ s with maps := s.maps.keep target made }, .map made)
  | .measure map => (s, .measured (entryCount (s.maps.get map)) (Foreign.measure (s.maps.get map)))
  | .storePayload map key payload => s.changeMap map (storePayload · key payload)
  | .findPayload map key out =>
    let (status, out) := Foreign.findPayload (s.maps.get map) key out
    (s, .payload status out)
  | .payloadOrZero map key => (s, .value (Foreign.payloadOrZero (s.maps.get map) key))
  | .removeEntry map key => s.changeMap map (removeEntry · key)
  | .freeMap map =>
    let (maps, reply) := free s.maps map
    ({ s with maps }, reply)
  | .newString target source =>
    let made := Foreign.newString source
    ({ s with strings := s.strings.keep target made }, .string .ok made)
  | .appendString name present tail =>
    s.changeString name present (appendString · (s.tailBytes tail))
  | .appendCharacter name present code => s.changeString name present (appendCharacter · code)
  | .cutString source i count out target =>
    let (status, out) := Foreign.cutString (s.tailBytes source) i count (place out)
    ({ s with strings := s.strings.keep target out.join }, .string status out.join)
  | .freeString name =>
    let (strings, reply) := free s.strings name
    ({ s with strings }, reply)

/-- Carry out calls in order, with all their replies. None of them asks for memory more than three
times. -/
def run [Allocator] (s : Session) : List Call → Session × List Reply
  | [] => (s, [])
  | call :: calls =>
    let (next, reply) := s.step call
    let (last, replies) := Allocation.after 3 (next.run calls)
    (last, reply :: replies)

end Session

end Containers.Foreign
