import Containers.FloatFormat.Basic
import Containers.Proofs.ChainedMap.Invariant

/-!
# Which keys a map tells apart

A map sees nothing of a key but its bytes. Keys with the same bytes can stand in for each other in
every run of operations (`Interchangeable`), and keys with different bytes do not disturb each
other (`KeptApart`), whatever the map holds (`Intact.interchangeable_iff`, `Intact.keptApart`). So
the question which keys are the same is one about bytes. Two patterns of bits have the same bytes
only if they are the same pattern, also if they are equal as numbers or are no numbers, and two
strings have the same bytes if they agree up to the first zero byte.
-/

namespace Containers

/-! ## The bytes of a key -/

/-- A byte of a number is what is left of it after a shift by that many bytes. -/
theorem Bytes.getElem?_ofNat {width i : Nat} (n : Nat) (h : i < width) :
    (Bytes.ofNat width n)[i]? = some (UInt8.ofNat (n >>> (8 * i))) := by
  induction width generalizing n i with
  | zero => omega
  | succ width ih =>
    cases i with
    | zero => rfl
    | succ i =>
      rw [Bytes.ofNat, List.getElem?_cons_succ, ih _ (by omega),
        show n / 256 = n >>> 8 from (Nat.shiftRight_eq_div_pow n 8).symm, ← Nat.shiftRight_add,
        show 8 + 8 * i = 8 * (i + 1) by omega]

namespace Scalar

variable {width : Nat}

/-- The encoding of a number key has as many bytes as the key is wide. -/
theorem length_encode (key : Scalar width) : (MapKey.encode key).length = width :=
  Bytes.length_ofNat width key.toNat

/-- The lowest bits of a key are its first byte. -/
theorem getElem?_encode (key : Scalar width) {i : Nat} (h : i < width) :
    (MapKey.encode key)[i]? = some (.ofBitVec (key.extractLsb' (8 * i) 8)) :=
  Bytes.getElem?_ofNat key.toNat h

/-- Different number keys have different encodings. -/
theorem encode_injective : Function.Injective (MapKey.encode : Scalar width → ByteString) :=
  Function.LeftInverse.injective ofBytes_encode

end Scalar

/-- An integer has the bytes of its pattern. -/
theorem encode_int64 (key : Int64) :
    MapKey.encode key = MapKey.encode (show Scalar 8 from key.toBitVec) := rfl

/-- Encoding an integer loses nothing. -/
theorem injective_encode_int64 : Function.Injective (MapKey.encode : Int64 → ByteString) := by
  intro key other h
  rw [encode_int64, encode_int64] at h
  exact Int64.toBitVec_inj.1 (Scalar.encode_injective h)

/-- What is not a number equals nothing. -/
theorem FloatFormat.numericEq_of_isNaN {format : FloatFormat} {bits other : Nat}
    (h : format.isNaN bits) : format.numericEq bits other = false := by
  simp only [numericEq, h, Bool.not_true, Bool.false_and]

/-- What is in front of the first zero byte is a prefix of the bytes. -/
theorem untilZero_isPrefix (bytes : ByteString) : untilZero bytes <+: bytes :=
  List.takeWhile_prefix _

/-- No longer part of a string from its start is without a zero byte. -/
theorem isPrefix_untilZero {bytes front : ByteString} (hfront : front <+: bytes)
    (hzero : (0 : UInt8) ∉ front) : front <+: untilZero bytes := by
  obtain ⟨back, rfl⟩ := hfront
  have hnonzero : ∀ byte ∈ front, (byte != 0) = true := by
    intro byte hbyte
    exact bne_iff_ne.2 fun heq => hzero (heq ▸ hbyte)
  rw [untilZero, List.takeWhile_append_of_pos hnonzero]
  exact List.prefix_append front _

namespace ChainedMap

variable {ι κ V : Type}

/-! ## Operations with other keys -/

/-- The operation with other keys in place of those that it names. -/
def Operation.mapKey (f : ι → κ) : Operation ι V → Operation κ V
  | .set key payload => .set (f key) payload
  | .get key => .get (f key)
  | .tryGet key => .tryGet (f key)
  | .getOr key fallback => .getOr (f key) fallback
  | .contains key => .contains (f key)
  | .remove key => .remove (f key)
  | .clear => .clear

variable [MapKey κ] {hash : KeyHash} {buckets : Nat} {m : ChainedMap κ V} {key other : κ}

/-- Keys with the same bytes are looked up alike. -/
theorem get?_congr (h : MapKey.encode key = MapKey.encode other) (m : ChainedMap κ V) :
    m.get? key = m.get? other := by
  simp only [get?, bucketOf, h]

/-- Keys with the same bytes are in a map or not alike. -/
theorem contains_congr (h : MapKey.encode key = MapKey.encode other) (m : ChainedMap κ V) :
    m.contains key = m.contains other := by
  rw [contains, contains, get?_congr h]

/-- Storing under keys with the same bytes comes to the same. -/
theorem set_congr (h : MapKey.encode key = MapKey.encode other) (m : ChainedMap κ V)
    (payload : V) : m.set key payload = m.set other payload := by
  simp only [set, bucketOf, h]

/-- Removing keys with the same bytes comes to the same. -/
theorem remove_congr (h : MapKey.encode key = MapKey.encode other) (m : ChainedMap κ V) :
    m.remove key = m.remove other := by
  simp only [remove, bucketOf, h]

/-- An operation depends on the bytes of its key alone. -/
theorem apply_mapKey_congr {f g : ι → κ}
    (h : ∀ i, MapKey.encode (f i) = MapKey.encode (g i)) (m : ChainedMap κ V)
    (operation : Operation ι V) :
    (operation.mapKey f).apply m = (operation.mapKey g).apply m := by
  cases operation with
  | set key payload => simp only [Operation.mapKey, Operation.apply, set_congr (h key)]
  | get key => simp only [Operation.mapKey, Operation.apply, get?_congr (h key)]
  | tryGet key => simp only [Operation.mapKey, Operation.apply, get, get?_congr (h key)]
  | getOr key fallback => simp only [Operation.mapKey, Operation.apply, getD, get?_congr (h key)]
  | contains key => simp only [Operation.mapKey, Operation.apply, contains_congr (h key)]
  | remove key => simp only [Operation.mapKey, Operation.apply, remove_congr (h key)]
  | clear => rfl

/-- A run depends on the bytes of its keys alone. -/
theorem run_mapKey_congr {f g : ι → κ}
    (h : ∀ i, MapKey.encode (f i) = MapKey.encode (g i)) (m : ChainedMap κ V)
    (operations : List (Operation ι V)) :
    m.run (operations.map (.mapKey f)) = m.run (operations.map (.mapKey g)) := by
  induction operations generalizing m with
  | nil => rfl
  | cons operation operations ih =>
    simp only [List.map_cons, run, apply_mapKey_congr h, ih]

/-! ## Keys that a map tells apart and keys that it does not -/

/-- The keys can stand in for each other: they have the same hash and the same bucket, they are
stored or refused alike by every allocator, and every run does the same with either of them in the
places that it leaves open for a key. -/
structure Interchangeable [Layout V] (m : ChainedMap κ V) (key other : κ) : Prop where
  hashOf : m.hashOf key = m.hashOf other
  bucketOf : m.bucketOf key = m.bucketOf other
  store : ∀ [Allocator] payload, m.store key payload = m.store other payload
  run : ∀ operations : List (Operation (Option κ) V),
    m.run (operations.map (.mapKey (·.getD key))) = m.run (operations.map (.mapKey (·.getD other)))

/-- Storing and removing the first key leaves what is stored under the second. -/
structure KeptApart (m : ChainedMap κ V) (key other : κ) : Prop where
  set : ∀ payload, (m.set key payload).2.get? other = m.get? other
  remove : (m.remove key).2.get? other = m.get? other

/-- A key is found as soon as it is stored. -/
theorem get?_set_self (m : ChainedMap κ V) (key : κ) (payload : V) :
    (m.set key payload).2.get? key = some payload := by
  show (m.set key payload).2.lookup (MapKey.encode key) = some payload
  rw [(m.lookup_set key payload).2, Function.update_self]

/-- Keys with the same bytes can stand in for each other. -/
theorem Interchangeable.of_encode [Layout V] (h : MapKey.encode key = MapKey.encode other)
    (m : ChainedMap κ V) : m.Interchangeable key other where
  hashOf := by rw [ChainedMap.hashOf, ChainedMap.hashOf, h]
  bucketOf := by rw [ChainedMap.bucketOf, ChainedMap.bucketOf, h]
  store payload := by
    rw [ChainedMap.store, ChainedMap.store, contains_congr h, set_congr h, h]
  run := by
    refine run_mapKey_congr (fun i => ?_) m
    cases i with
    | none => exact h
    | some i => rfl

namespace Intact

/-- Keys can stand in for each other exactly if they have the same bytes. For keys with different
bytes, storing one of them shows if it is missing, and removing it shows if it is there. -/
theorem interchangeable_iff [Layout V] [Nonempty V] (h : Intact hash buckets m) :
    m.Interchangeable key other ↔ MapKey.encode key = MapKey.encode other := by
  refine ⟨fun hsame => ?_, fun hbytes => .of_encode hbytes m⟩
  by_contra hne
  obtain ⟨payload⟩ := ‹Nonempty V›
  have hset : (m.set key payload).2.lookup = (m.set other payload).2.lookup :=
    congrArg (fun answered => answered.1.lookup) (hsame.run [.set none payload])
  have hremove : (m.remove key).2.lookup = (m.remove other).2.lookup :=
    congrArg (fun answered => answered.1.lookup) (hsame.run [.remove none])
  rw [(m.lookup_set key payload).2, (m.lookup_set other payload).2] at hset
  rw [(m.lookup_remove key (h.chainOf _).distinct).2,
    (m.lookup_remove other (h.chainOf _).distinct).2] at hremove
  have hpresent := congrFun hset (MapKey.encode key)
  have hmissing := congrFun hremove (MapKey.encode key)
  rw [Function.update_self, Function.update_of_ne hne] at hpresent hmissing
  cases hpresent.trans hmissing.symm

/-- Keys with different bytes are kept apart. -/
theorem keptApart (h : Intact hash buckets m) (hne : MapKey.encode key ≠ MapKey.encode other) :
    m.KeptApart key other := by
  have hset := fun payload => congrFun (m.lookup_set key payload).2 (MapKey.encode other)
  have hremove := congrFun (m.lookup_remove key (h.chainOf _).distinct).2 (MapKey.encode other)
  rw [Function.update_of_ne hne.symm] at hremove
  refine ⟨fun payload => (hset payload).trans ?_, hremove⟩
  rw [Function.update_of_ne hne.symm]
  rfl

end Intact

/-! ## Reachable maps -/

/-- A run of operations on a new map, with any hash and any number of buckets, leads to this one. -/
def Reachable (m : ChainedMap κ V) : Prop :=
  ∃ (hash : KeyHash) (buckets : Nat) (positive : 0 < buckets) (fresh : ChainedMap κ V)
    (operations : List (Operation κ V)),
    create hash buckets positive = .ok fresh ∧ (fresh.run operations).1 = m

/-- A map that a run of operations leads to is intact. -/
theorem Reachable.intact (h : m.Reachable) : ∃ hash buckets, Intact hash buckets m := by
  obtain ⟨hash, buckets, positive, fresh, operations, hfresh, rfl⟩ := h
  exact ⟨hash, buckets, (Intact.create hfresh).run operations⟩

/-- Keys are kept apart if their encoding does not take them to the same bytes. -/
theorem Reachable.keptApart (h : m.Reachable)
    (hencode : Function.Injective (MapKey.encode : κ → ByteString)) (hne : key ≠ other) :
    m.KeptApart key other := by
  obtain ⟨hash, buckets, hintact⟩ := h.intact
  exact hintact.keptApart (hencode.ne hne)

/-- Keys can stand in for each other in all maps exactly if they have the same bytes. For keys with
different bytes, some hash tells them apart. -/
theorem interchangeable_iff [Layout V] :
    (∀ m : ChainedMap κ V, m.Reachable → m.Interchangeable key other) ↔
      MapKey.encode key = MapKey.encode other := by
  refine ⟨fun hall => ?_, fun hbytes m _ => .of_encode hbytes m⟩
  by_contra hne
  let hash : KeyHash := ⟨"", fun bytes => if bytes = MapKey.encode key then 1 else 0⟩
  let fresh : ChainedMap κ V := ⟨hash, #[[]], Nat.one_pos, 0⟩
  have hfresh : create hash 1 Nat.one_pos = .ok fresh := rfl
  have hword := (hall fresh ⟨hash, 1, _, fresh, [], hfresh, rfl⟩).hashOf
  simp only [hashOf, fresh, hash, if_true, if_neg (Ne.symm hne)] at hword
  cases hword

/-- The keys of a map are told apart as they should be. A key of fixed width has as many bytes as
its type, the lowest bits first, and they are decoded to the key; so different patterns have
different bytes. In every map that a run of operations leads to, with any hash and any number of
buckets, storing or removing a key leaves what is stored under all others. For floating-point
numbers this is so even for zero and negative zero, which are equal, and what is not a number, which
does not equal itself, is found again, each pattern of bits for itself. Of a key of text, the
longest part from the start without a zero byte counts, which has itself as that part. Two strings
can stand in for each other in every operation on every map exactly if they have the same one, and
if there are payloads to store, any map tells them apart if they do not. -/
theorem keys_identified [Layout V] :
    (∀ width, Function.Injective (MapKey.encode : Scalar width → ByteString) ∧
      (∀ key : Scalar width, (MapKey.encode key).length = width ∧
        (∀ i < width, (MapKey.encode key)[i]? = some (.ofBitVec (key.extractLsb' (8 * i) 8))) ∧
        Scalar.ofBytes width (MapKey.encode key) = key) ∧
      ∀ m : ChainedMap (Scalar width) V, m.Reachable →
        ∀ key other, key ≠ other → m.KeptApart key other) ∧
    ((∀ key : Int64, MapKey.encode key = MapKey.encode (show Scalar 8 from key.toBitVec)) ∧
      ∀ m : ChainedMap Int64 V, m.Reachable →
        ∀ key other, key ≠ other → m.KeptApart key other) ∧
    (∀ (format : FloatFormat) (width : Nat),
      format = .binary32 ∧ width = 4 ∨ format = .binary64 ∧ width = 8 →
      ∀ m : ChainedMap (Scalar width) V, m.Reachable →
        (∃ negated : Scalar width, negated.toNat = format.withSign true 0 ∧
          format.numericEq 0 negated.toNat ∧ m.KeptApart 0 negated ∧ m.KeptApart negated 0) ∧
        ∀ nan : Scalar width, format.isNaN nan.toNat →
          ¬ format.numericEq nan.toNat nan.toNat ∧
          (∀ payload, (m.set nan payload).2.get? nan = some payload) ∧
          ∀ other : Scalar width, format.isNaN other.toNat → other ≠ nan →
            m.KeptApart nan other) ∧
    (∀ bytes, untilZero bytes <+: bytes ∧ (0 : UInt8) ∉ untilZero bytes ∧
      (∀ front, front <+: bytes → (0 : UInt8) ∉ front → front <+: untilZero bytes) ∧
      untilZero (untilZero bytes) = untilZero bytes) ∧
    ∀ key other : TextKey,
      ((∀ m : ChainedMap TextKey V, m.Reachable → m.Interchangeable key other) ↔
        untilZero key.bytes = untilZero other.bytes) ∧
      (Nonempty V → ∀ m : ChainedMap TextKey V, m.Reachable →
        (m.Interchangeable key other ↔ untilZero key.bytes = untilZero other.bytes)) ∧
      (untilZero key.bytes ≠ untilZero other.bytes →
        ∀ m : ChainedMap TextKey V, m.Reachable → m.KeptApart key other) := by
  refine ⟨fun width => ⟨Scalar.encode_injective, fun key => ⟨key.length_encode,
      fun i => key.getElem?_encode, Scalar.ofBytes_encode key⟩,
      fun m hm key other => hm.keptApart Scalar.encode_injective⟩,
    ⟨encode_int64, fun m hm key other => hm.keptApart injective_encode_int64⟩,
    fun format width hformat m hm => ⟨?_, fun nan hnan => ⟨?_, m.get?_set_self nan,
      fun other _ hne => hm.keptApart Scalar.encode_injective hne.symm⟩⟩,
    fun bytes => ⟨untilZero_isPrefix bytes, zero_not_mem_untilZero bytes,
      fun front => isPrefix_untilZero, untilZero_untilZero bytes⟩,
    fun key other => ⟨interchangeable_iff, fun _ m hm => ?_, fun hne m hm => ?_⟩⟩
  · have hkept : ∀ negated : Scalar width, (0 : Scalar width) ≠ negated →
        m.KeptApart 0 negated ∧ m.KeptApart negated 0 := fun negated hne =>
      ⟨hm.keptApart Scalar.encode_injective hne, hm.keptApart Scalar.encode_injective hne.symm⟩
    rcases hformat with ⟨rfl, rfl⟩ | ⟨rfl, rfl⟩
    · exact ⟨.ofNat _ (FloatFormat.binary32.withSign true 0), by decide, by decide,
        hkept _ (by decide)⟩
    · exact ⟨.ofNat _ (FloatFormat.binary64.withSign true 0), by decide, by decide,
        hkept _ (by decide)⟩
  · rw [FloatFormat.numericEq_of_isNaN hnan]
    exact Bool.false_ne_true
  · obtain ⟨hash, buckets, hintact⟩ := hm.intact
    exact hintact.interchangeable_iff
  · obtain ⟨hash, buckets, hintact⟩ := hm.intact
    exact hintact.keptApart hne

/-- In one chain each: the two zeros and a pattern that is not a number, and a string with one of
its prefixes, stored with a tail that does not count. -/
theorem keys_identified_one_chain :
    ∃ (m : ChainedMap (Scalar 4) UInt64) (text : ChainedMap TextKey UInt64),
      m.Reachable ∧
      m.directory = #[[⟨[1, 0, 192, 127], 3⟩, ⟨[0, 0, 0, 128], 2⟩, ⟨[0, 0, 0, 0], 1⟩]] ∧
      Scalar.ofBytes 4 [0, 0, 0, 128] = 0x80000000 ∧
      m.KeptApart 0x80000000 0 ∧ (m.remove 0x80000000).2.get? 0 = some 1 ∧
      ¬ FloatFormat.binary32.numericEq 0x7fc00001 0x7fc00001 ∧
      m.get? 0x7fc00001 = some 3 ∧ (m.set 0x7fc00001 4).2.get? 0x7fc00001 = some 4 ∧
      text.Reachable ∧ text.directory = #[[⟨[97], 2⟩, ⟨[97, 98], 1⟩]] ∧
      text.Interchangeable ⟨[97, 98]⟩ ⟨[97, 98, 0, 99]⟩ ∧
      text.KeptApart ⟨[97]⟩ ⟨[97, 98]⟩ := by
  let fresh : ChainedMap (Scalar 4) UInt64 := ⟨.constant 7, #[[]], by decide, 0⟩
  let freshText : ChainedMap TextKey UInt64 := ⟨.constant 7, #[[]], by decide, 0⟩
  let m := (fresh.run [.set 0 1, .set 0x80000000 2, .set 0x7fc00001 3]).1
  let text := (freshText.run [.set ⟨[97, 98, 0, 99]⟩ 1, .set ⟨[97]⟩ 2]).1
  have hm : m.Reachable := ⟨.constant 7, 1, by decide, fresh, _, rfl, rfl⟩
  have htext : text.Reachable := ⟨.constant 7, 1, by decide, freshText, _, rfl, rfl⟩
  obtain ⟨hscalar, -, hfloat, -, htexts⟩ := keys_identified (V := UInt64)
  obtain ⟨-, hkeys, hkept⟩ := hscalar 4
  obtain ⟨-, hnan⟩ := hfloat .binary32 4 (.inl ⟨rfl, rfl⟩) m hm
  obtain ⟨hunequal, hfound, -⟩ := hnan 0x7fc00001 (by decide)
  have hapart : m.KeptApart 0x80000000 0 := hkept m hm _ _ (by decide)
  refine ⟨m, text, hm, by decide, (hkeys 0x80000000).2.2, hapart, ?_, hunequal, by decide,
    hfound 4, htext, by decide, (htexts _ _).1.2 (by decide) text htext,
    (htexts _ _).2.2 (by decide) text htext⟩
  exact hapart.remove.trans (by decide)

end ChainedMap

end Containers
