import Containers.Proofs.GrowableArray.Capacity
import Containers.Proofs.GrowableArray.Edits
import Mathlib.Analysis.SpecialFunctions.Log.Base

/-!
# What growth costs

A capacity that a run of operations changes is outgrown (`outgrown`). The outgrown capacities are
the first ones of the chain from the first capacity on (`Climb`, `Holds.climb`), and the greatest
length exceeds each of them (`Holds.outgrown_lt_peak`).

A step of growth does not always multiply a capacity by three halves, since half of an odd capacity
is rounded down: 81 grows to 121. It does so with what the capacity exceeds one by
(`three_mul_le_of_nextCapacity`). Hence that grows geometrically along the chain
(`pow_mul_le_of_capacityAfter`), and the chain adds up to a multiple of its last capacity
(`Climb.sum_le`). Put together, a run of any operations outgrows few capacities, which add up to
little more than three times the greatest length (`Created.outgrown_bounds`).
-/

namespace Containers

/-! ## The chain of capacities -/

/-- What a capacity exceeds one by grows at least by half. -/
theorem three_mul_le_of_nextCapacity {capacity grown : UInt64}
    (h : nextCapacity capacity = some grown) :
    3 * (capacity.toNat - 1) ≤ 2 * (grown.toNat - 1) := by
  rw [nextCapacity_eq_some] at h
  omega

/-- What a capacity exceeds one by grows geometrically. -/
theorem pow_mul_le_of_capacityAfter {start capacity : UInt64} {steps : Nat}
    (h : capacityAfter start steps = some capacity) :
    3 ^ steps * (start.toNat - 1) ≤ 2 ^ steps * (capacity.toNat - 1) := by
  induction steps generalizing capacity with
  | zero =>
    cases h
    exact Nat.le_refl _
  | succ steps ih =>
    obtain ⟨middle, hmiddle, hnext⟩ := Option.bind_eq_some_iff.1 h
    calc 3 ^ (steps + 1) * (start.toNat - 1)
        = 3 * (3 ^ steps * (start.toNat - 1)) := by rw [Nat.pow_succ']; exact Nat.mul_assoc _ _ _
      _ ≤ 3 * (2 ^ steps * (middle.toNat - 1)) := Nat.mul_le_mul_left 3 (ih hmiddle)
      _ = 2 ^ steps * (3 * (middle.toNat - 1)) := Nat.mul_left_comm _ _ _
      _ ≤ 2 ^ steps * (2 * (capacity.toNat - 1)) :=
        Nat.mul_le_mul_left _ (three_mul_le_of_nextCapacity hnext)
      _ = 2 ^ (steps + 1) * (capacity.toNat - 1) := by rw [Nat.pow_succ, Nat.mul_assoc]

/-- A power that grows by half with every step, and is at least fifteen at the start, has taken as
many steps as a logarithm to the base one and a half says. -/
theorem le_ceil_logb {n steps : Nat} (h : 15 * 3 ^ steps ≤ (n - 2) * 2 ^ steps) :
    (steps : ℤ) ≤ ⌈Real.logb (3 / 2) (n / 16)⌉ := by
  have hn : 2 ≤ n := by
    by_contra hlt
    rw [show n - 2 = 0 by omega, Nat.zero_mul] at h
    have := Nat.pow_pos (n := steps) (show 0 < 3 by decide)
    omega
  have hreal : 15 * (3 : ℝ) ^ steps ≤ (n - 2) * 2 ^ steps := by
    have hcast := (Nat.cast_le (α := ℝ)).2 h
    push_cast [Nat.cast_sub hn] at hcast
    exact hcast
  have hpow : (3 / 2 : ℝ) ^ steps ≤ (n - 2) / 15 := by
    rw [div_pow, div_le_div_iff₀ (by positivity) (by norm_num), mul_comm]
    exact hreal
  have hpos : (0 : ℝ) < n / 16 := by positivity
  rw [Int.le_ceil_iff, Int.cast_natCast, Real.lt_logb_iff_rpow_lt (by norm_num) hpos,
    Real.rpow_sub_one (by norm_num), Real.rpow_natCast]
  linarith

/-- One step of growth after another leads from the capacity `start` through those that are
listed, each of them outgrown, to the last one. -/
inductive Climb (start : UInt64) : List UInt64 → UInt64 → Prop
  | stay : Climb start [] start
  | step {outgrown : List UInt64} {capacity grown : UInt64} (h : Climb start outgrown capacity)
    (hnext : nextCapacity capacity = some grown) : Climb start (outgrown ++ [capacity]) grown

namespace Climb

variable {start capacity : UInt64} {outgrown : List UInt64}

/-- A climb has come as many steps along the chain as it has outgrown capacities. -/
theorem capacityAfter (h : Climb start outgrown capacity) :
    Containers.capacityAfter start outgrown.length = some capacity := by
  induction h with
  | stay => rfl
  | @step outgrown capacity grown _ hnext ih =>
    rw [List.length_append, List.length_singleton, Containers.capacityAfter, ih]
    exact hnext

/-- The outgrown capacities add up to little more than twice the last one: each of them is at most
twice the growth that follows it, and one. -/
theorem sum_le (h : Climb start outgrown capacity) :
    (outgrown.map UInt64.toNat).sum + 2 * (start.toNat - 1) ≤
      2 * (capacity.toNat - 1) + outgrown.length := by
  induction h with
  | stay => exact Nat.le_of_eq (by simp)
  | @step outgrown capacity grown _ hnext ih =>
    have hgrowth := three_mul_le_of_nextCapacity hnext
    rw [List.map_append, List.map_singleton, List.sum_append, List.sum_singleton,
      List.length_append, List.length_singleton]
    omega

/-- The capacity that was outgrown last, and the climb to it. -/
theorem last (h : Climb start outgrown capacity) (hsome : 1 ≤ outgrown.length) :
    ∃ front last, outgrown = front ++ [last] ∧ Climb start front last := by
  cases h with
  | stay => cases hsome
  | step h _ => exact ⟨_, _, rfl, h⟩

end Climb

/-! ## The capacities that a run outgrows -/

namespace GrowableArray

variable {α : Type} [Layout α] {a : GrowableArray α} {s : Sequence α}

/-- The capacities that a run of operations changes, in order, each as it was before the change. -/
def outgrown [Allocator] (a : GrowableArray α) : List (Operation α) → List UInt64
  | [] => []
  | operation :: operations =>
    let next := (operation.apply a).1
    let later := Allocation.after 1 (next.outgrown operations)
    if next.capacity = a.capacity then later else a.capacity :: later

/-- The capacities at which the operations of a run find the array full, in order. -/
def foundFull [Allocator] (a : GrowableArray α) : List (Operation α) → List UInt64
  | [] => []
  | operation :: operations =>
    let next := (operation.apply a).1
    let later := Allocation.after 1 (next.foundFull operations)
    if a.len = a.capacity then a.capacity :: later else later

/-- An operation keeps the capacity, or finds the array full and lets it outgrow its capacity. -/
theorem Holds.outgrown_cons [Allocator] (h : a.Holds s) (operation : Operation α)
    (operations : List (Operation α)) :
    let next := (operation.apply a).1
    let later := Allocation.after 1 (next.outgrown operations)
    (next.capacity = a.capacity ∧ a.outgrown (operation :: operations) = later) ∨
    (a.len = a.capacity ∧ nextCapacity a.capacity = some next.capacity ∧
      next.len.toNat = a.capacity.toNat + 1 ∧
      a.outgrown (operation :: operations) = a.capacity :: later) := by
  rcases h.capacity_apply operation with ⟨hsame, -⟩ | ⟨-, hfull, hgrown, hlen⟩
  · exact .inl ⟨hsame, if_pos hsame⟩
  · have hne : (operation.apply a).1.capacity ≠ a.capacity := by
      intro heq
      exact Nat.lt_irrefl _ (heq ▸ lt_of_nextCapacity hgrown)
    exact .inr ⟨hfull, hgrown, hlen, if_neg hne⟩

/-- A run climbs through the capacities that it outgrows. -/
theorem Holds.climb {memory : Allocator} (h : a.Holds s) {start : UInt64} {before : List UInt64}
    (hclimb : Climb start before a.capacity) (operations : List (Operation α)) :
    Climb start (before ++ a.outgrown operations) (a.run operations).1.capacity := by
  induction operations generalizing a s before memory with
  | nil =>
    rw [outgrown, List.append_nil]
    exact hclimb
  | cons operation operations ih =>
    have hnext := (h.apply operation).1
    rcases h.outgrown_cons operation operations with ⟨hsame, heq⟩ | ⟨-, hgrown, -, heq⟩
    · rw [heq]
      exact ih hnext (hsame ▸ hclimb)
    · rw [heq, List.append_cons]
      exact ih hnext (hclimb.step hgrown)

/-- A capacity is only outgrown by a length that exceeds it. -/
theorem Holds.outgrown_lt_peak {memory : Allocator} (h : a.Holds s)
    (operations : List (Operation α)) :
    ∀ capacity ∈ a.outgrown operations, capacity.toNat < a.peak operations := by
  induction operations generalizing a s memory with
  | nil =>
    intro capacity hcapacity
    cases hcapacity
  | cons operation operations ih =>
    let next := (operation.apply a).1
    have hlater : ∀ capacity ∈ Allocation.after 1 (next.outgrown operations),
        capacity.toNat < Allocation.after 1 (next.peak operations) := ih (h.apply operation).1
    have hlen : next.len.toNat ≤ Allocation.after 1 (next.peak operations) :=
      next.len_le_peak operations
    intro capacity hcapacity
    show capacity.toNat < max a.len.toNat (Allocation.after 1 (next.peak operations))
    rcases h.outgrown_cons operation operations with ⟨-, heq⟩ | ⟨-, -, hgrown, heq⟩
    · rw [heq] at hcapacity
      have := hlater capacity hcapacity
      omega
    · rw [heq] at hcapacity
      rcases List.mem_cons.1 hcapacity with rfl | hcapacity
      · replace hgrown : next.len.toNat = a.capacity.toNat + 1 := hgrown
        omega
      · have := hlater capacity hcapacity
        omega

/-- After any run of operations on a new array, whether they succeed or report a fault: no capacity
has been outgrown exactly if the array was never longer than its first capacity. Otherwise the
capacities less one have grown by half again and again, up to the greatest length less two, and they
add up to little more than three times that. -/
theorem Created.outgrown_bounds [Allocator] {items : List α} {capacity : UInt64}
    (h : Created a items capacity) (operations : List (Operation α)) :
    let outgrown := a.outgrown operations
    let peak := a.peak operations
    (outgrown.length = 0 ↔ peak ≤ capacity.toNat) ∧
      (1 ≤ outgrown.length →
        3 ^ (outgrown.length - 1) * (capacity.toNat - 1) ≤
          2 ^ (outgrown.length - 1) * (peak - 2) ∧
        (outgrown.map UInt64.toNat).sum + 2 * (capacity.toNat - 1) ≤
          3 * (peak - 2) + outgrown.length) := by
  intro outgrown peak
  have hcapacity : a.capacity = capacity := UInt64.toNat_inj.1 h.holds.capacity_eq
  have hclimb : Climb capacity outgrown (a.run operations).1.capacity := by
    rw [← hcapacity]
    exact h.holds.climb .stay operations
  have hlt : ∀ capacity ∈ outgrown, capacity.toNat < peak := h.holds.outgrown_lt_peak operations
  have henough := (h.leastCapacity operations).enough
  refine ⟨⟨fun hnone => ?_, fun hpeak => ?_⟩, fun hsome => ?_⟩
  · have hlast := hclimb.capacityAfter
    rw [hnone] at hlast
    rw [Option.some.inj hlast]
    exact henough
  · refine Nat.eq_zero_of_not_pos fun hsome => ?_
    obtain ⟨front, last, heq, hfront⟩ := hclimb.last hsome
    have hzero : capacityAfter capacity 0 = some capacity := rfl
    have hle := capacityAfter_le hzero (by rw [Nat.zero_add]; exact hfront.capacityAfter)
    have hexceeds : last.toNat < peak := hlt last (heq ▸ List.mem_append_right _ List.mem_cons_self)
    rw [UInt64.le_iff_toNat_le] at hle
    omega
  · obtain ⟨front, last, heq, hfront⟩ := hclimb.last hsome
    have hexceeds : last.toNat < peak := hlt last (heq ▸ List.mem_append_right _ List.mem_cons_self)
    have hpow := pow_mul_le_of_capacityAfter hfront.capacityAfter
    have hsum := hfront.sum_le
    rw [heq, List.length_append, List.length_singleton, Nat.add_sub_cancel, List.map_append,
      List.map_singleton, List.sum_append, List.sum_singleton]
    refine ⟨Nat.le_trans hpow (Nat.mul_le_mul_left _ (by omega)), ?_⟩
    omega

/-! ## Pushes -/

/-- A run of pushes that is not refused memory makes the array as much longer as there are items,
and grows it whenever a push finds it full. -/
theorem Holds.pushes {memory : Allocator} (h : a.Holds s) {items : List α}
    (hmemory : ∀ requested, .error (.allocation requested) ∉ (a.run (items.map .push)).2) :
    a.peak (items.map .push) = a.len.toNat + items.length ∧
      a.foundFull (items.map .push) = a.outgrown (items.map .push) := by
  induction items generalizing a s memory with
  | nil => exact ⟨rfl, rfl⟩
  | cons item items ih =>
    rcases h.push_cases item with ⟨b, hpush, hb⟩ | ⟨-, requested, hrefused⟩
    · have hstep : (Operation.push item).apply a = (b, .ok .done) := by
        rw [Operation.apply, hpush]
        rfl
      have hrest : ∀ requested, .error (.allocation requested) ∉
          (Allocation.after 1 (b.run (items.map .push))).2 := by
        intro requested hmem
        refine hmemory requested ?_
        rw [List.map_cons, GrowableArray.run, hstep]
        exact List.mem_cons_of_mem _ hmem
      obtain ⟨hpeak, hfull⟩ :
          Allocation.after 1 (b.peak (items.map .push)) = b.len.toNat + items.length ∧
            Allocation.after 1 (b.foundFull (items.map .push)) =
              Allocation.after 1 (b.outgrown (items.map .push)) := ih hb hrest
      have hlen : b.len.toNat = a.len.toNat + 1 := by
        rw [hb.len_eq, h.len_eq, List.length_append, List.length_singleton]
      have hroom : b.len.toNat ≤ b.capacity.toNat := by
        rw [hb.len_eq]
        exact Nat.le_trans hb.room (Nat.le_of_eq hb.capacity_eq.symm)
      have hcons := h.outgrown_cons (.push item) (items.map .push)
      rw [List.map_cons, GrowableArray.peak, foundFull]
      rw [hstep] at hcons ⊢
      dsimp only at hcons ⊢
      refine ⟨?_, ?_⟩
      · rw [hpeak, List.length_cons]
        omega
      · rcases hcons with ⟨hsame, heq⟩ | ⟨hfound, -, -, heq⟩
        · have hnot : a.len ≠ a.capacity := by
            intro hfound
            rw [hsame, ← hfound] at hroom
            omega
          rw [if_neg hnot, heq, hfull]
        · rw [if_pos hfound, heq, hfull]
    · refine absurd ?_ (hmemory requested)
      rw [List.map_cons, GrowableArray.run, Operation.apply, hrefused]
      exact List.mem_cons_self

/-- Growth is logarithmic and amortized. Pushing items into a new array, as long as memory is not
refused, outgrows exactly the capacities that a push finds full. None is outgrown by up to sixteen
items; otherwise their number is bounded by a logarithm to the base one and a half, also with the
rounding of half an odd capacity, and their sum by three times the number of items. From any
capacity on, what a capacity exceeds one by has grown by half after every step of growth. -/
theorem pushes_amortized [Allocator] (ha : GrowableArray.empty = .ok a) (items : List α)
    (hmemory : ∀ requested, .error (.allocation requested) ∉ (a.run (items.map .push)).2) :
    let outgrown := a.outgrown (items.map .push)
    let growths := outgrown.length
    a.foundFull (items.map .push) = outgrown ∧
      (growths = 0 ↔ items.length ≤ 16) ∧
      (1 ≤ growths →
        15 * 3 ^ (growths - 1) ≤ (items.length - 2) * 2 ^ (growths - 1) ∧
        (growths : ℤ) ≤ ⌈Real.logb (3 / 2) (items.length / 16)⌉ + 1 ∧
        (outgrown.map UInt64.toNat).sum ≤ 3 * (items.length - 2) + growths) ∧
      ∀ (start capacity : UInt64) (steps : Nat), 1 ≤ start →
        capacityAfter start steps = some capacity →
          3 ^ steps * (start.toNat - 1) ≤ 2 ^ steps * (capacity.toNat - 1) := by
  intro outgrown growths
  have hcreated : Created a [] 16 := .empty 0 ha
  have hstart : a.len.toNat = 0 := hcreated.holds.len_eq
  obtain ⟨hpeak, hfull⟩ := hcreated.holds.pushes hmemory
  obtain ⟨hnone, hsome⟩ := hcreated.outgrown_bounds (items.map .push)
  rw [hstart, Nat.zero_add] at hpeak
  rw [hpeak] at hnone hsome
  refine ⟨hfull, hnone, fun hgrown => ?_, fun start capacity steps _ => pow_mul_le_of_capacityAfter⟩
  have hfifteen : 15 * 3 ^ (growths - 1) ≤ (items.length - 2) * 2 ^ (growths - 1) := by
    rw [Nat.mul_comm 15, Nat.mul_comm (items.length - 2)]
    exact (hsome hgrown).1
  have hsum : (outgrown.map UInt64.toNat).sum + 2 * 15 ≤ 3 * (items.length - 2) + growths :=
    (hsome hgrown).2
  have hlog := le_ceil_logb hfifteen
  rw [Nat.cast_sub hgrown, Nat.cast_one] at hlog
  exact ⟨hfifteen, by linarith, by omega⟩

/-- Thirty pushes outgrow two capacities, and five steps of growth lead from 81 to 609. -/
theorem pushes_amortized_thirty :
    ∃ (a : GrowableArray UInt8) (items : List UInt8), GrowableArray.empty = .ok a ∧
      (∀ requested, .error (.allocation requested) ∉ (a.run (items.map .push)).2) ∧
      items.length = 30 ∧ a.foundFull (items.map .push) = [16, 24] ∧
      15 * 3 ^ (2 - 1) ≤ (30 - 2) * 2 ^ (2 - 1) ∧
      ((2 : Nat) : ℤ) ≤ ⌈Real.logb (3 / 2) ((30 : Nat) / 16)⌉ + 1 ∧
      16 + 24 ≤ 3 * (30 - 2) + 2 ∧
      capacityAfter 81 5 = some 609 ∧ 3 ^ 5 * (81 - 1) ≤ 2 ^ 5 * (609 - 1) := by
  let a : GrowableArray UInt8 := ⟨⟨16, Array.replicate 16 none⟩, 0⟩
  let items : List UInt8 := List.replicate 30 7
  have ha : GrowableArray.empty = .ok a := rfl
  have hanswers : (a.run (items.map .push)).2.all Except.isOk = true := by decide +kernel
  have hmemory : ∀ requested, .error (.allocation requested) ∉ (a.run (items.map .push)).2 := by
    intro requested hmem
    exact Bool.false_ne_true (List.all_eq_true.1 hanswers _ hmem)
  have houtgrown : a.outgrown (items.map .push) = [16, 24] := by decide +kernel
  have hchain : capacityAfter 81 5 = some 609 := rfl
  obtain ⟨hfull, -, hbounds, hgrowth⟩ := pushes_amortized ha items hmemory
  rw [houtgrown] at hfull hbounds
  obtain ⟨hpow, hlog, hsum⟩ := hbounds (by decide)
  exact ⟨a, items, ha, hmemory, rfl, hfull, hpow, hlog, hsum, hchain,
    hgrowth 81 609 5 (by decide) hchain⟩

end GrowableArray

end Containers
