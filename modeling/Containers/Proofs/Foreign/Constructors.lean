import Containers.Proofs.Foreign.Arrays
import Containers.Proofs.GrowableArray.Full

/-!
# Arrays and vectors of the same values

The constructors of full arrays and of vectors are written in different ways: a copy of a list, a
loop of pushes into an array with room for all items, and a collection of known size. Given memory,
each of the ways makes the same of the same items (`GrowableArray.ofList_of_granted`,
`GrowableArray.ofPushes_of_granted`, `vector_of_granted`). All of them borrow the values first,
which fails on the same arguments (`borrow_cases`). So for each kind of values both constructors
make nothing of the same arguments, and otherwise an array and a vector whose items have the same
bits (`agree`).
-/

namespace Containers

namespace Foreign

variable {α β : Type} [Layout α]

/-! ## Two constructors -/

/-- A full array and a vector whose items have the bits of these values, item by item. The array
gives an item as a word, and its first insert makes it grow by one step if memory is granted. -/
structure Filled (w : Width α) (bits : β → α) (values : List β) (count : UInt64)
    (a : GrowableArray α) (items : Array α) : Prop where
  len_eq : (w.wrap a).len = count
  capacity_eq : (w.wrap a).capacity = count
  size_eq : items.size = count.toNat
  item : ∀ i, i < count → ∃ value, values[i.toNat]? = some value ∧
    a.toList[i.toNat]? = some (bits value) ∧ items[i.toNat]? = some (bits value) ∧
    ∀ before, readItem (some (w.wrap a)) i (some before) = (.ok, some (w.word (bits value)))
  grows : ∀ grown, nextCapacity count = some grown →
    Allocation.request (Layout.width α) grown.toNat = .ok () →
    ∀ operations, (∀ operation ∈ operations, operation.Keeps) → ∀ i item, i ≤ count →
      ∃ changed, insertItem (some (w.wrap (a.run operations).1)) i item = (.ok, some changed) ∧
        changed.capacity = grown

/-- What two constructors come to: they make nothing if the values are missing and needed, and
otherwise an array and a vector of the values. -/
def Agree (w : Width α) (bits : β → α) (values : Pointer (List β)) (count : UInt64)
    (array : Pointer ArrayHandle) (vector : Pointer (Array α)) : Prop :=
  (values = none ∧ count ≠ 0 ∧ array = none ∧ vector = none) ∨
    ((values = none → count = 0) ∧ ∃ a items, array = some (w.wrap a) ∧ vector = some items ∧
      Filled w bits (values.getD []) count a items)

variable {w : Width α} {bits : β → α} {values : Pointer (List β)} {count : UInt64}

/-- Where there are values, there are `count` of them, and memory for as many items of `width`
bytes. -/
def Supplied (width : Nat) (values : Pointer (List β)) (count : UInt64) : Prop :=
  ∀ list, values = some list →
    count.toNat ≤ list.length ∧ Allocation.request width count.toNat = .ok ()

/-- A full array grows by one step when an item is inserted. -/
theorem insertItem_of_full {b : GrowableArray α} {s : Sequence α} (h : b.Holds s)
    (hfull : s.items.length = s.capacity) {i : UInt64} (hi : i.toNat ≤ s.items.length)
    {grown : UInt64} (hgrown : nextCapacity b.capacity = some grown)
    (hgranted : Allocation.request (Layout.width α) grown.toNat = .ok ()) (item : UInt64) :
    ∃ changed, insertItem (some (w.wrap b)) i item = (.ok, some changed) ∧
      changed.capacity = grown := by
  obtain ⟨c, hc, hcapacity⟩ := h.insert_of_full hfull hi hgrown hgranted (w.cast item)
  refine ⟨w.wrap c, ?_, (w.capacity_wrap c).trans hcapacity⟩
  show settle _ (((w.wrap b).insert i item).map some) = _
  rw [w.insert_wrap, hc]
  rfl

/-- An array that holds all the values, with no room for more, is filled with them. -/
theorem filled {list : List β} {a : GrowableArray α} (hlength : count.toNat ≤ list.length)
    (ha : a.Holds ⟨(list.take count.toNat).map bits, count.toNat⟩) :
    Filled w bits list count a ((list.take count.toNat).map bits).toArray := by
  have htake : ((list.take count.toNat).map bits).length = count.toNat := by
    rw [List.length_map, List.length_take_of_le hlength]
  have hlen : a.len = count := UInt64.toNat_inj.1 (ha.len_eq.trans htake)
  have hcapacity : a.capacity = count := UInt64.toNat_inj.1 ha.capacity_eq
  refine ⟨by rw [w.len_wrap, hlen], (w.capacity_wrap a).trans hcapacity, htake, fun i hi => ?_,
    fun grown hgrown hgranted operations hkeeps i item hi => ?_⟩
  · rw [UInt64.lt_iff_toNat_lt] at hi
    have hin : i.toNat < ((list.take count.toNat).map bits).length := by omega
    have hvalue : list[i.toNat]? = some list[i.toNat] := List.getElem?_eq_getElem (by omega)
    have hitem : ((list.take count.toNat).map bits)[i.toNat]? = some (bits list[i.toNat]) := by
      rw [List.getElem?_map, List.getElem?_take_of_lt hi, hvalue]
      rfl
    have hget : a.get i = .ok (bits list[i.toNat]) := by
      rw [ha.get, Sequence.get, dif_pos hin]
      exact congrArg Except.ok (Option.some.inj ((List.getElem?_eq_getElem hin).symm.trans hitem))
    refine ⟨_, hvalue, by rw [ha.toList, hitem], by rw [List.getElem?_toArray, hitem],
      fun before => ?_⟩
    rw [readItem, w.get_wrap, hget]
    rfl
  · obtain ⟨items, hsame, hholds⟩ := ha.run_keeps hkeeps
    have hrun : (a.run operations).1.capacity = count := UInt64.toNat_inj.1 hholds.capacity_eq
    have hposition : i.toNat ≤ items.length := by
      rw [hsame, htake]
      exact UInt64.le_iff_toNat_le.1 hi
    exact insertItem_of_full hholds (hsame.trans htake) hposition (hrun ▸ hgrown) hgranted item

omit [Layout α] in
/-- The values are missing and needed, or they are there. -/
theorem borrow_cases (values : Pointer (List β)) (count : UInt64) :
    (values = none ∧ count ≠ 0 ∧ borrow values count = none) ∨
      ((values = none → count = 0) ∧
        borrow values count = some ((values.getD []).take count.toNat)) := by
  unfold borrow
  by_cases hcount : count = 0
  · subst hcount
    exact .inr ⟨fun _ => rfl, rfl⟩
  · rw [if_neg hcount]
    cases values with
    | none => exact .inl ⟨rfl, hcount, rfl⟩
    | some list => exact .inr ⟨nofun, rfl⟩

/-- Two constructors agree if, with memory for the items, they come to an array and to a vector of
the items. -/
theorem agree {array : List β → Pointer ArrayHandle} {vector : List β → Pointer (Array α)}
    (hsupplied : Supplied (Layout.width α) values count)
    (hmade : Allocation.request (Layout.width α) count.toNat = .ok () →
      ∀ list : List β, (list.map bits).length = count.toNat →
        (∃ a : GrowableArray α, array list = some (w.wrap a) ∧
          a.Holds ⟨list.map bits, count.toNat⟩) ∧
        vector list = some (list.map bits).toArray) :
    Agree w bits values count (borrow values count >>= array) (borrow values count >>= vector) := by
  rcases borrow_cases values count with ⟨hnull, hcount, hborrow⟩ | ⟨hnull, hborrow⟩
  · rw [hborrow]
    exact .inl ⟨hnull, hcount, rfl, rfl⟩
  · have hgiven : count.toNat ≤ (values.getD []).length ∧
        Allocation.request (Layout.width α) count.toNat = .ok () := by
      cases values with
      | none =>
        rw [hnull rfl]
        exact ⟨Nat.zero_le _, Allocation.request_eq_ok.2 (by simp [Allocation.ceiling])⟩
      | some list => exact hsupplied list rfl
    obtain ⟨hlength, hgranted⟩ := hgiven
    have htake : (((values.getD []).take count.toNat).map bits).length = count.toNat := by
      rw [List.length_map, List.length_take_of_le hlength]
    obtain ⟨⟨a, ha, hholds⟩, hvector⟩ := hmade hgranted _ htake
    rw [hborrow]
    exact .inr ⟨hnull, a, _, ha, hvector, filled hlength hholds⟩

/-- A vector of as many items as memory is granted for is made of them. -/
theorem vector_of_granted {items : List α} (hlength : items.length = count.toNat)
    (hgranted : Allocation.request (Layout.width α) count.toNat = .ok ()) :
    ExactVector.ofList items = .ok items.toArray := by
  rw [ExactVector.ofList, ExactVector.ofWidth, hlength, hgranted]
  rfl

/-- The constructors of arrays and of vectors agree. For integers, floating-point numbers and
addresses, for every count and all values, missing or as many as the count says, and with memory for
them, both make nothing exactly if the values are missing and the count is not zero. Otherwise the
array is full, with the count as its length and its capacity, and its items have the same bits as
those of the vector: those of the integer, of the number rounded to 32 bits, or of the address. A
call reads these bits with zeros above, and the first insert, also after reads, writes and slices,
makes the capacity one step larger. In a loop of pushes into an array with room for all items, no
push changes the capacity. -/
theorem constructors_agree (count : UInt64) :
    (∀ values : Pointer (List Int32), Supplied 4 values count →
      Agree .narrow Int32.toUInt32 values count (newArrayOfInts values count)
        (newVectorOfInts values count)) ∧
    (∀ values : Pointer (List UInt64), Supplied 4 values count →
      Agree .narrow FloatFormat.narrow values count (newArrayOfFloats values count)
        (newVectorOfFloats values count)) ∧
    (∀ values : Pointer (List UInt64), Supplied 8 values count →
      Agree .wide id values count (newArrayOfStrings values count)
        (newVectorOfStrings values count)) ∧
    ∀ {α : Type} [Layout α] (items : List α), items.length = count.toNat →
      Allocation.request (Layout.width α) count.toNat = .ok () →
        ∃ fresh : GrowableArray α, GrowableArray.withCapacity count = .ok fresh ∧
          GrowableArray.ofPushes items = items.foldlM GrowableArray.push fresh ∧
          ∀ k, ∃ b, (items.take k).foldlM GrowableArray.push fresh = .ok b ∧
            b.capacity = count ∧ b.toList = items.take k := by
  refine ⟨fun values hsupplied => agree hsupplied fun hgranted list hlength => ?_,
    fun values hsupplied => agree hsupplied fun hgranted list hlength => ?_,
    fun values hsupplied => agree hsupplied fun hgranted list hlength => ?_,
    fun items hlength hgranted => ?_⟩
  · obtain ⟨a, ha, hholds⟩ := GrowableArray.ofList_of_granted hlength hgranted
    rw [ha, vector_of_granted hlength hgranted]
    exact ⟨⟨a, rfl, hholds⟩, rfl⟩
  · obtain ⟨a, ha, hholds⟩ := GrowableArray.ofPushes_of_granted hlength hgranted
    rw [ha, ExactVector.ofFloats, vector_of_granted hlength hgranted]
    exact ⟨⟨a, rfl, hholds⟩, rfl⟩
  · rw [List.map_id] at hlength ⊢
    obtain ⟨a, ha, hholds⟩ := GrowableArray.ofPushes_of_granted hlength hgranted
    rw [ha, vector_of_granted hlength hgranted]
    exact ⟨⟨a, rfl, hholds⟩, rfl⟩
  · obtain ⟨fresh, hfresh, hpushes⟩ := GrowableArray.pushes_of_granted hlength hgranted
    refine ⟨fresh, hfresh, ?_, fun k => ?_⟩
    · rw [GrowableArray.ofPushes, hlength, saturate_toNat, hfresh]
      rfl
    · obtain ⟨b, hb, hholds⟩ := hpushes k
      exact ⟨b, hb, UInt64.toNat_inj.1 hholds.capacity_eq, hholds.toList⟩

/-- Three values of each kind, and a missing pointer to more values than there could be. -/
theorem constructors_agree_three :
    Supplied 4 (some [(-1 : Int32), 2, 3, 4]) 3 ∧
    Agree .narrow Int32.toUInt32 (some [-1, 2, 3, 4]) 3 (newArrayOfInts (some [-1, 2, 3, 4]) 3)
      (newVectorOfInts (some [-1, 2, 3, 4]) 3) ∧
    newVectorOfInts (some [-1, 2, 3, 4]) 3 = some #[4294967295, 2, 3] ∧
    (∃ a, newArrayOfInts (some [-1, 2, 3, 4]) 3 = some a ∧
      readItem (some a) 0 (some 9) = (.ok, some 4294967295) ∧
      ∃ changed, insertItem (some a) 1 8 = (.ok, some changed) ∧ changed.capacity = 7) ∧
    Agree .narrow FloatFormat.narrow (some [4607182418800017408, 0, 1]) 3
      (newArrayOfFloats (some [4607182418800017408, 0, 1]) 3)
      (newVectorOfFloats (some [4607182418800017408, 0, 1]) 3) ∧
    Agree .wide id (some [7, 8, 9]) 3 (newArrayOfStrings (some [7, 8, 9]) 3)
      (newVectorOfStrings (some [7, 8, 9]) 3) ∧
    Agree .wide id none wordMax (newArrayOfStrings none wordMax)
      (newVectorOfStrings none wordMax) ∧
    ∃ fresh : GrowableArray UInt64, GrowableArray.withCapacity 3 = .ok fresh ∧
      ∃ b, [7, 8].foldlM GrowableArray.push fresh = .ok b ∧ b.capacity = 3 := by
  obtain ⟨hints, hfloats, hstrings, hpushes⟩ := constructors_agree 3
  obtain ⟨-, -, hmissing, -⟩ := constructors_agree wordMax
  have hsupplied : Supplied 4 (some [(-1 : Int32), 2, 3, 4]) 3 := by
    rintro _ ⟨⟩
    exact ⟨by decide, rfl⟩
  have hbits : Supplied 4 (some [(4607182418800017408 : UInt64), 0, 1]) 3 := by
    rintro _ ⟨⟩
    exact ⟨by decide, rfl⟩
  have haddresses : Supplied 8 (some [(7 : UInt64), 8, 9]) 3 := by
    rintro _ ⟨⟩
    exact ⟨by decide, rfl⟩
  have hagree := hints _ hsupplied
  refine ⟨hsupplied, hagree, rfl, ?_, hfloats _ hbits, hstrings _ haddresses, hmissing none nofun,
    ?_⟩
  · rcases hagree with ⟨hnull, -⟩ | ⟨-, a, items, harray, hvector, hfilled⟩
    · cases hnull
    · obtain ⟨value, hvalue, -, -, hread⟩ := hfilled.item 0 (by decide)
      obtain rfl : -1 = value := Option.some.inj hvalue
      exact ⟨_, harray, hread 9, hfilled.grows 7 rfl rfl [] (by simp) 1 8 (by decide)⟩
  · obtain ⟨fresh, hfresh, -, hloop⟩ := hpushes [(7 : UInt64), 8, 9] rfl rfl
    obtain ⟨b, hb, hcapacity, -⟩ := hloop 2
    exact ⟨fresh, hfresh, b, hb, hcapacity⟩

end Foreign

end Containers
