import Containers.Fault

/-!
# The allocator

Memory is asked for in two steps. The size of the block is computed first (`blockSize`), and a size
beyond all block layouts is a fault already. Then the allocator is asked for the block (`grant`); a
block of no bytes does not need it. Both steps report a refused size in the same way, so which of
them has refused does not show (`request_cases`). Items of width zero take no memory, so a request
for any number of them is granted (`request_width_zero`).

An allocator is a parameter of everything that needs memory. It is known by its answers alone, and
may refuse any request: what is computed behind other requests gets what is left of the answers
(`after`). Where no allocator is named, the usual one is meant, which grants what is below a
ceiling. The limit of the layouts lies above it, so with the usual allocator a request is granted
below the ceiling and refused from there on (`blockSize_bind_grant`, `request_eq`).
-/

namespace Containers

/-- An allocator, by its answers to the requests of an operation. They are told apart by their
number, so that each of them can be the one that is refused. -/
class Allocator where
  /-- Whether the request with this number is granted if it is for a block of this size. -/
  grants (turn size : Nat) : Bool

namespace Allocation

/-- The usual allocator grants no request of this many bytes or more: it exceeds the 47 bits of an
address. -/
def ceiling : Nat := 0x800000000000

/-- No block has this many bytes or more: a distance inside a block is a word with a sign. The
alignment of the items makes the limit a few bytes lower, far above the ceiling. -/
def layoutLimit : Nat := 0x8000000000000000

/-- The usual allocator grants what is below the ceiling. -/
instance usual : Allocator := ⟨fun _ size => size < ceiling⟩

/-- What is computed once `count` requests have been answered: its own are numbered from there. -/
def after {β : Type} [memory : Allocator] (count : Nat) (compute : [Allocator] → β) : β :=
  @compute ⟨fun turn => memory.grants (turn + count)⟩

/-- The size of a block for `count` items of `width` bytes, if it is below the limit. -/
def blockSize (limit width count : Nat) : Except Fault Nat :=
  if width * count < limit then .ok (width * count) else .error (.ofRequest width count)

/-- Ask the allocator for a block of `size` bytes. A block of no bytes takes no memory. -/
def grant [memory : Allocator] (size : Nat) : Except Fault Unit :=
  if size = 0 then .ok ()
  else if memory.grants 0 size then .ok () else .error (.allocation (.ofNat size))

/-- Ask for room for `count` items of `width` bytes. -/
def request [Allocator] (width count : Nat) : Except Fault Unit := do
  grant (← blockSize layoutLimit width count)

/-- A block below the limit has a size. -/
theorem blockSize_of_lt {limit width count : Nat} (h : width * count < limit) :
    blockSize limit width count = .ok (width * count) := if_pos h

/-- A block that reaches the limit has none, and its size is reported. -/
theorem blockSize_of_le {limit width count : Nat} (h : limit ≤ width * count) :
    blockSize limit width count = .error (.ofRequest width count) := if_neg (by omega)

/-! ## Any allocator -/

section
variable [Allocator]

/-- The allocator grants a block or reports its size. -/
theorem grant_cases {width count : Nat} (h : width * count < UInt64.size) :
    grant (width * count) = .ok () ∨
      grant (width * count) = .error (.ofRequest width count) := by
  have hword : saturate (width * count) = .ofNat (width * count) := by
    rw [saturate, toNat_wordMax, Nat.min_eq_left (by omega)]
  rw [grant, Fault.ofRequest, hword]
  split
  · exact .inl rfl
  · split
    · exact .inl rfl
    · exact .inr rfl

/-- A request is granted, or refused with the size of the block, cut off at the largest word. -/
theorem request_cases (width count : Nat) :
    request width count = .ok () ∨ request width count = .error (.ofRequest width count) := by
  by_cases h : width * count < layoutLimit
  · rw [request, blockSize_of_lt h]
    exact grant_cases (Nat.lt_trans h (by decide))
  · rw [request, blockSize_of_le (by omega)]
    exact .inr rfl

/-- What is granted is below the limit of the layouts. -/
theorem lt_of_request_eq_ok {width count : Nat} (h : request width count = .ok ()) :
    width * count < layoutLimit := by
  refine Nat.lt_of_not_le fun hlimit => ?_
  rw [request, blockSize_of_le hlimit] at h
  cases h

/-- Items that take no memory are always granted. -/
theorem request_width_zero (count : Nat) : request 0 count = .ok () := by
  rw [request, blockSize_of_lt (by rw [Nat.zero_mul]; decide), Nat.zero_mul]
  rfl

end

/-! ## The usual allocator -/

/-- The usual allocator answers all requests alike, whatever their number. -/
theorem after_usual {β : Type} (count : Nat) (compute : [Allocator] → β) :
    after count compute = compute := rfl

/-- The usual allocator grants exactly what is below the ceiling. -/
theorem grant_eq {size : Nat} (h : size < UInt64.size) :
    grant size = if size < ceiling then .ok () else .error (.allocation (saturate size)) := by
  have hword : saturate size = .ofNat size := by
    rw [saturate, toNat_wordMax, Nat.min_eq_left (by omega)]
  rw [grant, hword]
  by_cases hzero : size = 0
  · rw [if_pos hzero, if_pos (by rw [hzero, ceiling]; omega)]
  · rw [if_neg hzero]
    simp only [Allocator.grants, decide_eq_true_eq]

/-- Whichever step refuses a block, its size is reported, cut off at the largest word. -/
theorem blockSize_bind_grant {limit : Nat} (hceiling : ceiling ≤ limit)
    (hlimit : limit ≤ UInt64.size) (width count : Nat) :
    (blockSize limit width count >>= grant) =
      if width * count < ceiling then .ok () else .error (.ofRequest width count) := by
  by_cases h : width * count < limit
  · rw [blockSize_of_lt h]
    exact grant_eq (by omega)
  · rw [blockSize_of_le (by omega), if_neg (by omega)]
    rfl

/-- The usual allocator grants a request below the ceiling, and no other. -/
theorem request_eq (width count : Nat) :
    request width count =
      if width * count < ceiling then .ok () else .error (.ofRequest width count) :=
  blockSize_bind_grant (by decide) (by decide) width count

/-- The requests that the usual allocator grants. -/
theorem request_eq_ok {width count : Nat} :
    request width count = .ok () ↔ width * count < ceiling := by
  rw [request_eq]
  split <;> simp [*]

end Allocation

end Containers
