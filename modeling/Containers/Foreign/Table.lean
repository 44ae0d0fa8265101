import Containers.Foreign.Status

/-!
# Variables of a caller

A caller keeps the handles it gets in variables. A `Table` lists the variables with a live handle.
A variable that is not listed holds null, and so does a missing variable. `get_put` and
`get_release` say what the variables hold after a change, and `keep_get` that putting back what a
variable holds changes nothing.
-/

namespace Containers.Foreign

/-- What variables hold: the name of each variable with a live handle, and the handle. -/
structure Table (α : Type) where
  /-- The variables in the order in which they were first used. -/
  rows : List (String × α) := []

namespace Table

variable {α : Type}

/-- What a variable holds; no variable, or one without a live handle, holds null. -/
def get (t : Table α) (name : Option String) : Pointer α := do t.rows.lookup (← name)

/-- The variables other than this one. -/
def release (t : Table α) (name : String) : Table α := ⟨t.rows.filter (·.1 != name)⟩

/-- The rows with a handle in the row of a variable, or in a new row at the end. -/
def enter (name : String) (a : α) : List (String × α) → List (String × α)
  | [] => [(name, a)]
  | row :: rows => if row.1 = name then (name, a) :: rows else row :: enter name a rows

/-- Put a live handle into a variable. -/
def put (t : Table α) (name : String) (a : α) : Table α := ⟨enter name a t.rows⟩

/-- Put what a call made into a variable, or leave the variable alone if it made nothing. -/
def keep (t : Table α) (name : Option String) (a : Pointer α) : Table α :=
  match name, a with
  | some name, some a => t.put name a
  | _, _ => t

/-! ## What the variables hold after a change -/

/-- A call that has made nothing leaves every variable alone. -/
@[simp] theorem keep_none (t : Table α) (name : Option String) : t.keep name none = t := by
  cases name <;> rfl

/-- A row answers for its name, and the other rows for every other name. -/
theorem lookup_cons_eq (row : String × α) (rows : List (String × α)) (name : String) :
    (row :: rows).lookup name = if name = row.1 then some row.2 else rows.lookup name := by
  by_cases h : name = row.1
  · rw [if_pos h, h]
    exact List.lookup_cons_self
  · rw [if_neg h, List.lookup_cons, beq_false_of_ne h]

/-- Entering a row answers for its name, and leaves what the other names stand for. -/
theorem lookup_enter (name : String) (a : α) (rows : List (String × α)) (other : String) :
    (enter name a rows).lookup other = if other = name then some a else rows.lookup other := by
  induction rows with
  | nil => exact lookup_cons_eq (name, a) [] other
  | cons row rows ih =>
    rw [enter]
    split
    next hrow =>
      rw [lookup_cons_eq, lookup_cons_eq, hrow]
      split <;> rfl
    next hrow =>
      rw [lookup_cons_eq, lookup_cons_eq, ih]
      by_cases h : other = row.1
      · rw [if_pos h, if_neg (h ▸ hrow), if_pos h]
      · rw [if_neg h, if_neg h]

/-- Without the rows of a name, that name stands for nothing, and the others stay. -/
theorem lookup_release (name : String) (rows : List (String × α)) (other : String) :
    (rows.filter (·.1 != name)).lookup other =
      if other = name then none else rows.lookup other := by
  induction rows with
  | nil => exact (ite_self none).symm
  | cons row rows ih =>
    rw [List.filter_cons, lookup_cons_eq]
    by_cases hrow : row.1 = name
    · rw [if_neg (by simpa using hrow), ih, hrow]
      split <;> rfl
    · rw [if_pos (by simpa using hrow), lookup_cons_eq, ih]
      by_cases h : other = row.1
      · rw [if_pos h, if_neg (h ▸ hrow), if_pos h]
      · rw [if_neg h, if_neg h]

/-- A table reads a name as what was put there last, and every other name as before. -/
theorem get_put (t : Table α) (name : String) (a : α) (other : String) :
    (t.put name a).get (some other) = if other = name then some a else t.get (some other) :=
  lookup_enter name a t.rows other

/-- A released name reads as nothing, and every other name as before. -/
theorem get_release (t : Table α) (name other : String) :
    (t.release name).get (some other) = if other = name then none else t.get (some other) :=
  lookup_release name t.rows other

/-- Entering what a name stands for already changes no row. -/
theorem enter_lookup {name : String} {a : α} {rows : List (String × α)}
    (h : rows.lookup name = some a) : enter name a rows = rows := by
  induction rows with
  | nil => cases h
  | cons row rows ih =>
    rw [lookup_cons_eq] at h
    rw [enter]
    split
    next hrow =>
      rw [if_pos hrow.symm] at h
      cases h
      rw [← hrow]
    next hrow =>
      rw [if_neg (Ne.symm hrow)] at h
      rw [ih h]

/-- Putting back what a variable holds changes nothing. -/
theorem keep_get (t : Table α) (name : Option String) : t.keep name (t.get name) = t := by
  cases name with
  | none => rfl
  | some name =>
    cases h : t.get (some name) with
    | none => rfl
    | some a => exact congrArg Table.mk (enter_lookup h)

end Table

end Containers.Foreign
