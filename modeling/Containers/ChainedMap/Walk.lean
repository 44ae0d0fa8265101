import Containers.ChainedMap.Basic

/-!
# Walking through a map

A walk holds what is left of the chain it is in and the chains it has not started. `next` takes
the first entry that is left, starting chains until one has an entry. The entries of a map
come out bucket by bucket, and in a bucket from the newest key to the oldest; `remaining` says the
same as one list (`toList_eq_remaining`).

A caller that keeps a walk may call for the next entry at any time, also at the end. `advance` is
such a call: a loop that is left with an answer, and with the walk to call next time.
-/

namespace Containers.ChainedMap

/-- A walk through the chains of a directory. -/
structure Walk (V : Type) where
  /-- What is left of the present chain. -/
  chain : Chain V
  /-- The chains not started yet. -/
  unstarted : List (Chain V)

namespace Walk

variable {V : Type}

/-- The entries still to come. -/
def remaining (it : Walk V) : Chain V := it.chain ++ it.unstarted.flatten

/-- Start chains until one has an entry: that entry, and the walk behind it. -/
def start : List (Chain V) → Option (Entry V × Walk V)
  | [] => none
  | [] :: chains => start chains
  | (entry :: chain) :: chains => some (entry, ⟨chain, chains⟩)

/-- The next entry and the walk behind it, or nothing at the end. -/
def next (it : Walk V) : Option (Entry V × Walk V) :=
  match it.chain with
  | entry :: chain => some (entry, { it with chain })
  | [] => start it.unstarted

/-- A walk starts at the first entry of the chains, and the others remain. -/
theorem remaining_of_start {chains : List (Chain V)} {entry : Entry V} {rest : Walk V}
    (h : start chains = some (entry, rest)) : chains.flatten = entry :: rest.remaining := by
  induction chains with
  | nil => cases h
  | cons chain chains ih =>
    cases chain with
    | nil => simpa using ih h
    | cons first chain =>
      cases h
      simp [remaining]

/-- A step takes the first of the entries still to come and leaves the others. -/
theorem remaining_of_next {it rest : Walk V} {entry : Entry V}
    (h : it.next = some (entry, rest)) : it.remaining = entry :: rest.remaining := by
  obtain ⟨chain, unstarted⟩ := it
  cases chain with
  | nil => simpa [remaining] using remaining_of_start h
  | cons first chain =>
    cases h
    simp [remaining]

/-- Chains that a walk cannot start on have no entries. -/
theorem flatten_of_start {chains : List (Chain V)} (h : start chains = none) :
    chains.flatten = [] := by
  induction chains with
  | nil => rfl
  | cons chain chains ih =>
    cases chain with
    | nil => simpa using ih h
    | cons first chain => cases h

/-- The walk ends only when no entry is left. -/
theorem remaining_of_next_none {it : Walk V} (h : it.next = none) : it.remaining = [] := by
  obtain ⟨chain, unstarted⟩ := it
  cases chain with
  | nil => simpa [remaining] using flatten_of_start h
  | cons first chain => cases h

/-- The entries that the walk comes to, step by step. -/
def toList (it : Walk V) : Chain V :=
  match _ : it.next with
  | none => []
  | some (entry, rest) => entry :: rest.toList
termination_by it.remaining.length
decreasing_by
  rw [remaining_of_next ‹it.next = some (entry, rest)›]
  exact Nat.lt_succ_self _

/-- The entries that a walk yields are those that remain. -/
theorem toList_eq_remaining (it : Walk V) : it.toList = it.remaining := by
  induction it using toList.induct with
  | case1 it h => rw [toList, remaining_of_next_none h]; split <;> simp_all
  | case2 it entry rest h ih => rw [toList, remaining_of_next h]; split <;> simp_all

/-! ## A walk that is asked again and again -/

/-- What one turn of the loop in a call comes to. -/
inductive Turn (V : Type) where
  /-- The call ends with this answer and leaves this walk behind. -/
  | leave (answer : Option (Entry V)) (rest : Walk V)
  /-- The present chain is used up, and the next one has been started. -/
  | again (started : Walk V)

/-- One turn of the loop in a call: the first entry of the present chain, or else a start on the
next chain, or else the end. -/
def turn (it : Walk V) : Turn V :=
  match it.chain, it.unstarted with
  | entry :: chain, _ => .leave (some entry) { it with chain }
  | [], chain :: unstarted => .again ⟨chain, unstarted⟩
  | [], [] => .leave none it

/-- A turn that goes around again has taken a chain from those not started. -/
theorem length_unstarted_of_turn {it started : Walk V} (h : it.turn = .again started) :
    started.unstarted.length < it.unstarted.length := by
  obtain ⟨chain, unstarted⟩ := it
  cases chain with
  | cons entry chain => cases h
  | nil =>
    cases unstarted with
    | nil => cases h
    | cons chain unstarted =>
      cases h
      exact Nat.lt_succ_self _

/-- Call for the next entry: the answer, and the walk as the call leaves it. A walk at its end
can be called as well, and stays there. -/
def advance (it : Walk V) : Option (Entry V) × Walk V :=
  match _ : it.turn with
  | .leave answer rest => (answer, rest)
  | .again started => started.advance
termination_by it.unstarted.length
decreasing_by exact length_unstarted_of_turn ‹it.turn = .again started›

/-- The walk after this many calls. -/
def after (it : Walk V) : Nat → Walk V
  | 0 => it
  | calls + 1 => (it.after calls).advance.2

end Walk

variable {κ V : Type}

/-- The walk through a whole map. -/
def walk (m : ChainedMap κ V) : Walk V := ⟨[], m.directory.toList⟩

/-- The entries of a map in order. -/
def entries (m : ChainedMap κ V) : Chain V := m.walk.toList

/-- The entries in braces, each with its key's bytes and its payload, for logs. -/
def debugText (payload : V → String) (m : ChainedMap κ V) : String :=
  let pairs := m.entries.map fun entry =>
    Bytes.debugText entry.key ++ ": " ++ payload entry.payload
  "\x7b" ++ ", ".intercalate pairs ++ "\x7d"

end Containers.ChainedMap
