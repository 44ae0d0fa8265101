import Containers.ChainedMap.Basic

/-!
# Operations on maps as data

A map's life is a run of operations, each with an answer. `Operation.apply` carries out one of
them, and `run` a list of them in order. Lookups leave the map as it is.
-/

namespace Containers.ChainedMap

/-- An operation on one map. -/
inductive Operation (κ V : Type) where
  /-- Store a payload under a key. -/
  | set (key : κ) (payload : V)
  /-- Look up the payload under a key. -/
  | get (key : κ)
  /-- Look up the payload under a key that has to be there. -/
  | tryGet (key : κ)
  /-- Look up the payload under a key, with a payload to use if there is none. -/
  | getOr (key : κ) (fallback : V)
  /-- Ask whether a key has an entry. -/
  | contains (key : κ)
  /-- Remove the entry of a key. -/
  | remove (key : κ)
  /-- Remove every entry. -/
  | clear

/-- What an operation gives back. -/
inductive Answer (V : Type) where
  /-- A payload that may be missing. -/
  | found (payload : Option V)
  /-- A payload, or the fault that it is missing. -/
  | required (payload : Except Fault V)
  /-- A payload that cannot be missing. -/
  | payload (payload : V)
  /-- Whether a key has an entry. -/
  | present (yes : Bool)
  /-- The map has been changed. -/
  | done

variable {κ V : Type} [MapKey κ]

/-- Carry out one operation. -/
def Operation.apply (m : ChainedMap κ V) : Operation κ V → ChainedMap κ V × Answer V
  | .set key payload =>
    let (old, changed) := m.set key payload
    (changed, .found old)
  | .get key => (m, .found (m.get? key))
  | .tryGet key => (m, .required (m.get key))
  | .getOr key fallback => (m, .payload (m.getD key fallback))
  | .contains key => (m, .present (m.contains key))
  | .remove key =>
    let (old, changed) := m.remove key
    (changed, .found old)
  | .clear => (m.clear, .done)

/-- Carry out operations in order, with all their answers. -/
def run (m : ChainedMap κ V) : List (Operation κ V) → ChainedMap κ V × List (Answer V)
  | [] => (m, [])
  | operation :: operations =>
    let (next, answer) := operation.apply m
    let (last, answers) := next.run operations
    (last, answer :: answers)

/-- A run of two lists of operations is a run of the first and then, from there, of the second. -/
theorem run_append (m : ChainedMap κ V) (operations later : List (Operation κ V)) :
    m.run (operations ++ later) =
      (((m.run operations).1.run later).1,
        (m.run operations).2 ++ ((m.run operations).1.run later).2) := by
  induction operations generalizing m with
  | nil => rfl
  | cons operation operations ih => simp only [List.cons_append, run, ih]

/-- One more operation is carried out on the map that the others lead to. -/
theorem run_concat (m : ChainedMap κ V) (operations : List (Operation κ V))
    (operation : Operation κ V) :
    m.run (operations ++ [operation]) =
      ((operation.apply (m.run operations).1).1,
        (m.run operations).2 ++ [(operation.apply (m.run operations).1).2]) := by
  rw [run_append]
  rfl

/-- A run gives one answer to each operation. -/
theorem length_answers (m : ChainedMap κ V) (operations : List (Operation κ V)) :
    (m.run operations).2.length = operations.length := by
  induction operations generalizing m with
  | nil => rfl
  | cons operation operations ih => simp only [run, List.length_cons, ih]

end Containers.ChainedMap
