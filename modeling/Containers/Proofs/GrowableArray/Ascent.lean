import Containers.Proofs.GrowableArray.Amortized
import Containers.Proofs.GrowableArray.Full
import Containers.Proofs.GrowableArray.Refusal

/-!
# How far capacities grow

Two thirds of the largest word are the last capacity that can grow (`nextCapacity_eq_none_iff_lt`):
half of it makes up for what is missing to the largest word, and it is even, so nothing is lost by
halving it. Up to there a larger capacity grows to a larger one. From any capacity on, growth passes
through finitely many others, each larger than the one before, to one that cannot grow (`Ascent`).
What a capacity exceeds one by grows geometrically (`pow_mul_le_of_capacityAfter`), and the first
step makes that three at least, so there are fewer than 128 steps (`Ascent.length_lt`). Items of
width zero take no memory, hence a full array of such items grows as long as its capacity does.
-/

namespace Containers

/-! ## One step -/

/-- The last capacity that can grow: two thirds of the largest word. -/
def lastGrowing : UInt64 := 12297829382473034410

/-- The last capacity that can grow is two thirds of the largest word. -/
theorem toNat_lastGrowing : lastGrowing.toNat = 2 * (2 ^ 64 - 1) / 3 := rfl

/-- A capacity cannot grow exactly if it is beyond the last one that can. -/
theorem nextCapacity_eq_none_iff_lt {capacity : UInt64} :
    nextCapacity capacity = none ↔ lastGrowing < capacity := by
  rw [nextCapacity_eq_none, UInt64.lt_iff_toNat_lt, toNat_lastGrowing, UInt64.size]
  omega

/-- Up to the last capacity that can grow, all of them can. -/
theorem exists_nextCapacity {capacity : UInt64} (h : capacity ≤ lastGrowing) :
    ∃ grown, nextCapacity capacity = some grown := by
  rw [← Option.ne_none_iff_exists', Ne, nextCapacity_eq_none_iff_lt]
  exact UInt64.not_lt.2 h

/-- A larger capacity grows to a larger one. -/
theorem lt_iff_of_nextCapacity {capacity other grown grown' : UInt64}
    (h : nextCapacity capacity = some grown) (h' : nextCapacity other = some grown') :
    capacity < other ↔ grown < grown' := by
  rw [nextCapacity_eq_some] at h h'
  rw [UInt64.lt_iff_toNat_lt, UInt64.lt_iff_toNat_lt]
  omega

/-! ## All steps -/

/-- The first step can be taken off the front. -/
theorem capacityAfter_succ_of_nextCapacity {start next : UInt64}
    (h : nextCapacity start = some next) (steps : ℕ) :
    capacityAfter start (steps + 1) = capacityAfter next steps := by
  induction steps with
  | zero => exact h
  | succ steps ih => rw [capacityAfter, ih, capacityAfter]

/-- Growth leads from a capacity through all that are listed, and from the last one nowhere. -/
inductive Ascent : UInt64 → List UInt64 → Prop
  | stop {capacity : UInt64} (h : nextCapacity capacity = none) : Ascent capacity []
  | step {capacity grown : UInt64} {chain : List UInt64}
    (hnext : nextCapacity capacity = some grown) (h : Ascent grown chain) :
    Ascent capacity (grown :: chain)

/-- Growth ends, since there are finitely many words above a capacity. -/
theorem exists_ascent (capacity : UInt64) : ∃ chain, Ascent capacity chain := by
  induction hleft : UInt64.size - capacity.toNat using Nat.strongRecOn generalizing capacity with
  | ind left ih =>
    cases hnext : nextCapacity capacity with
    | none => exact ⟨[], .stop hnext⟩
    | some grown =>
      have hlt := lt_of_nextCapacity hnext
      have hword := grown.toNat_lt
      obtain ⟨chain, hchain⟩ := ih (UInt64.size - grown.toNat)
        (by rw [← hleft, UInt64.size]; omega) grown rfl
      exact ⟨grown :: chain, .step hnext hchain⟩

namespace Ascent

variable {capacity : UInt64} {chain : List UInt64}

/-- Every later capacity of an ascent is larger. -/
theorem lt (h : Ascent capacity chain) : ∀ later ∈ chain, capacity < later := by
  induction h with
  | stop => exact fun _ hmem => absurd hmem List.not_mem_nil
  | step hnext _ ih =>
    have hlt := UInt64.lt_iff_toNat_lt.2 (lt_of_nextCapacity hnext)
    exact List.forall_mem_cons.2 ⟨hlt, fun later hmem => UInt64.lt_trans hlt (ih later hmem)⟩

/-- The capacities of an ascent increase. -/
theorem pairwise (h : Ascent capacity chain) : (capacity :: chain).Pairwise (· < ·) := by
  induction h with
  | stop => exact List.pairwise_singleton _ _
  | step hnext h ih => exact List.pairwise_cons.2 ⟨(Ascent.step hnext h).lt, ih⟩

/-- Repeated growth gives these capacities, and then nothing. -/
theorem capacitySteps_eq (h : Ascent capacity chain) (steps : ℕ) :
    capacitySteps capacity steps = (chain.map some ++ [none]).take steps := by
  induction h generalizing steps with
  | stop h =>
    cases steps with
    | zero => rfl
    | succ steps =>
      simp only [capacitySteps, h, List.map_nil, List.nil_append, List.take_succ_cons,
        List.take_nil]
  | step hnext _ ih =>
    cases steps with
    | zero => rfl
    | succ steps =>
      simp only [capacitySteps, hnext, ih]
      rfl

/-- Each step of an ascent is a step of growth from its start. -/
theorem exists_capacityAfter (h : Ascent capacity chain) :
    ∃ last, capacityAfter capacity chain.length = some last := by
  induction h with
  | @stop capacity _ => exact ⟨capacity, rfl⟩
  | step hnext _ ih =>
    rw [List.length_cons, capacityAfter_succ_of_nextCapacity hnext]
    exact ih

/-- One step more, the one that leads nowhere, makes fewer than 128. -/
theorem length_lt (h : Ascent capacity chain) : chain.length + 1 < 128 := by
  cases h with
  | stop => decide
  | @step _ grown chain hnext h =>
    obtain ⟨last, hlast⟩ := h.exists_capacityAfter
    have hfirst : 3 ≤ grown.toNat - 1 := by
      rw [nextCapacity_eq_some] at hnext
      omega
    have hword : last.toNat - 1 ≤ 2 ^ 64 := by
      have := last.toNat_lt
      omega
    have hpow : 3 ^ chain.length * 3 ≤ 2 ^ chain.length * 2 ^ 64 :=
      calc 3 ^ chain.length * 3
          ≤ 3 ^ chain.length * (grown.toNat - 1) := Nat.mul_le_mul_left _ hfirst
        _ ≤ 2 ^ chain.length * (last.toNat - 1) := pow_mul_le_of_capacityAfter hlast
        _ ≤ 2 ^ chain.length * 2 ^ 64 := Nat.mul_le_mul_left _ hword
    by_contra hlong
    obtain ⟨more, hmore⟩ := Nat.exists_eq_add_of_le (show 126 ≤ chain.length by
      rw [List.length_cons] at hlong
      omega)
    rw [hmore, Nat.pow_add, Nat.pow_add] at hpow
    -- Three to the power 127 exceeds two to the power 190, and further factors only add to that.
    have hle : 2 ^ more ≤ 3 ^ more := Nat.pow_le_pow_left (by decide) more
    have hpos : 0 < 2 ^ more := Nat.two_pow_pos more
    omega

end Ascent

/-! ## Arrays of items that take no memory -/

namespace GrowableArray

variable {α : Type} [Layout α] {a : GrowableArray α} {s : Sequence α}

/-- A full array of items of width zero grows by one step whenever its capacity does, and is refused
otherwise. -/
theorem Holds.insert_of_width_zero [Allocator] (h : a.Holds s) (hwidth : Layout.width α = 0)
    (hfull : a.len = a.capacity) {i : UInt64} (hi : i ≤ a.len) (item : α) :
    (∃ b, a.insert i item = .ok b ∧ nextCapacity a.capacity = some b.capacity) ∨
      (nextCapacity a.capacity = none ∧ a.insert i item = .error (.allocation wordMax)) := by
  have hlen : s.items.length = s.capacity := by
    rw [← h.len_eq, hfull, ← h.capacity_eq]
    rfl
  have hi' : i.toNat ≤ s.items.length := h.len_eq ▸ UInt64.le_iff_toNat_le.1 hi
  cases hnext : nextCapacity a.capacity with
  | none => exact .inr ⟨rfl, h.insert_of_exhausted hlen hi' hnext item⟩
  | some grown =>
    have hgranted : Allocation.request (Layout.width α) grown.toNat = .ok () := by
      rw [hwidth, Allocation.request_width_zero]
    obtain ⟨b, hb, hcapacity⟩ := h.insert_of_full hlen hi' hnext hgranted item
    exact .inl ⟨b, hb, by rw [hcapacity]⟩

/-- A copy of a list of items of width zero is full, whatever its length. -/
theorem exists_full_of_width_zero (hwidth : Layout.width α = 0) (count : UInt64) (item : α) :
    ∃ (a : GrowableArray α) (items : List α),
      Created a items count ∧ a.len = count ∧ a.capacity = count := by
  have hlength : (List.replicate count.toNat item).length = count.toNat := List.length_replicate
  have hgranted : Allocation.request (Layout.width α) count.toNat = .ok () := by
    rw [hwidth, Allocation.request_width_zero]
  obtain ⟨a, ha, hholds⟩ := ofList_of_granted hlength hgranted
  have hcreated := Created.ofList 0 (by rw [hlength]; exact count.toNat_lt) ha
  rw [hlength, UInt64.ofNat_toNat] at hcreated
  exact ⟨a, _, hcreated, UInt64.toNat_inj.1 (hholds.len_eq.trans hlength),
    UInt64.toNat_inj.1 hholds.capacity_eq⟩

/-- The growth of capacities increases strictly and ends. A capacity cannot grow exactly if it
exceeds two thirds of the largest word. Otherwise it gains half and at least four slots, and a
larger one grows to a larger one. Repeated growth gives larger and larger capacities and then
nothing, after fewer than 128 steps. After any run of operations on an array of items of width zero,
an insert that finds it full lets it grow to a larger capacity as long as there is one, and is
refused from then on, with the array as it was. -/
theorem growth_increases_and_ends (capacity : UInt64) :
    lastGrowing.toNat = 2 * (2 ^ 64 - 1) / 3 ∧
    (nextCapacity capacity = none ↔ lastGrowing < capacity) ∧
    (capacity ≤ lastGrowing → ∃ grown, nextCapacity capacity = some grown ∧
      capacity.toNat + 4 ≤ grown.toNat ∧ grown.toNat < 2 ^ 64 ∧
      capacity.toNat + capacity.toNat / 2 ≤ grown.toNat) ∧
    (∀ other grown grown', nextCapacity capacity = some grown → nextCapacity other = some grown' →
      (capacity < other ↔ grown < grown')) ∧
    (∃ chain : List UInt64, chain.length + 1 < 128 ∧ (capacity :: chain).Pairwise (· < ·) ∧
      ∀ steps, capacitySteps capacity steps = (chain.map some ++ [none]).take steps) ∧
    ∀ {α : Type} [Layout α] [Allocator] {a : GrowableArray α} {items : List α} {first : UInt64},
      Layout.width α = 0 → Created a items first → ∀ operations : List (Operation α),
        let reached := (a.run operations).1
        reached.capacity = capacity → reached.len = capacity →
          ∀ (i : UInt64) (item : α), i ≤ reached.len →
            (capacity ≤ lastGrowing → ∃ b,
              (Operation.insert i item).apply reached = (b, .ok .done) ∧
                nextCapacity capacity = some b.capacity ∧ capacity < b.capacity) ∧
            (lastGrowing < capacity →
              (Operation.insert i item).apply reached =
                (reached, .error (.allocation wordMax))) := by
  refine ⟨toNat_lastGrowing, nextCapacity_eq_none_iff_lt, fun hle => ?_,
    fun _ _ _ => lt_iff_of_nextCapacity, ?_,
    fun hwidth hcreated operations hcapacity hfull i item hi => ?_⟩
  · obtain ⟨grown, hgrown⟩ := exists_nextCapacity hle
    have hword : grown.toNat < 2 ^ 64 := grown.toNat_lt
    have hgain := nextCapacity_eq_some.1 hgrown
    exact ⟨grown, hgrown, by omega, hword, by omega⟩
  · obtain ⟨chain, hchain⟩ := exists_ascent capacity
    exact ⟨chain, hchain.length_lt, hchain.pairwise, hchain.capacitySteps_eq⟩
  · subst hcapacity
    have hholds := hcreated.holds_run operations
    rw [Operation.apply]
    rcases hholds.insert_of_width_zero hwidth hfull hi item with
      ⟨b, hinsert, hnext⟩ | ⟨hnone, hinsert⟩
    · rw [hinsert]
      have hlt := UInt64.lt_iff_toNat_lt.2 (lt_of_nextCapacity hnext)
      refine ⟨fun _ => ⟨b, rfl, hnext, hlt⟩, fun hover => ?_⟩
      rw [← nextCapacity_eq_none_iff_lt, hnext] at hover
      cases hover
    · rw [hinsert]
      exact ⟨fun hle => absurd (nextCapacity_eq_none_iff_lt.1 hnone) (UInt64.not_lt.2 hle),
        fun _ => rfl⟩

/-- A full array of the last capacity that can grow gets the largest word as its capacity, and a
full array of the next capacity keeps it. -/
theorem growth_increases_and_ends_at_two_thirds :
    ∃ (a b grown : GrowableArray (Scalar 0)) (items items' : List (Scalar 0)),
      Created a items lastGrowing ∧ a.len = lastGrowing ∧
      (Operation.insert 5 0).apply a = (grown, .ok .done) ∧ grown.capacity = wordMax ∧
      Created b items' (lastGrowing + 1) ∧ b.len = lastGrowing + 1 ∧
      (Operation.insert 5 0).apply b = (b, .error (.allocation wordMax)) ∧
      ∃ chain : List UInt64, chain.length + 1 < 128 ∧ (0 :: chain).Pairwise (· < ·) ∧
        ∀ steps, capacitySteps 0 steps = (chain.map some ++ [none]).take steps := by
  obtain ⟨a, items, ha, hlen, hcapacity⟩ :=
    exists_full_of_width_zero (α := Scalar 0) rfl lastGrowing 0
  obtain ⟨b, items', hb, hlen', hcapacity'⟩ :=
    exists_full_of_width_zero (α := Scalar 0) rfl (lastGrowing + 1) 0
  obtain ⟨-, -, -, -, -, hlast⟩ := growth_increases_and_ends lastGrowing
  obtain ⟨-, -, -, -, -, hbeyond⟩ := growth_increases_and_ends (lastGrowing + 1)
  obtain ⟨-, -, -, -, hchain, -⟩ := growth_increases_and_ends 0
  obtain ⟨grown, hgrown, hnext, -⟩ :=
    (hlast rfl ha [] hcapacity hlen 5 0 (by show 5 ≤ a.len; rw [hlen]; decide)).1 (by decide)
  have hrefused :=
    (hbeyond rfl hb [] hcapacity' hlen' 5 0 (by show 5 ≤ b.len; rw [hlen']; decide)).2 (by decide)
  have hword : nextCapacity lastGrowing = some wordMax := by decide
  rw [hword] at hnext
  exact ⟨a, b, grown, items, items', ha, hlen, hgrown, (Option.some.inj hnext).symm, hb, hlen',
    hrefused, hchain⟩

end GrowableArray

end Containers
