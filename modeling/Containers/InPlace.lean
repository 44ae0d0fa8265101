import Containers.Fault

/-!
# Changing things in place

What changes an object step by step keeps the changes it has made when it runs into a fault
(`InPlace.Procedure`), so a fault behind a change would show. Where none does, the procedure comes
to what a computation of the changed object gives, with the object left alone by a fault
(`InPlace.commit`). `get_bind`, `check_bind` and `commit_bind` take a procedure apart, one step at a
time.
-/

namespace Containers.InPlace

variable {σ β γ : Type}

/-- A computation that changes an object in place. A fault keeps the changes made before it. -/
abbrev Procedure (σ β : Type) := ExceptT Fault (StateM σ) β

/-- Where a procedure comes to if it answers and changes the object as `changed` says, and not at
all if that is a fault. -/
def commit (before : σ) : Except Fault (β × σ) → Except Fault β × σ
  | .ok (answer, after) => (.ok answer, after)
  | .error fault => (.error fault, before)

/-- A fault is all that there is of a change that is not made. -/
theorem of_commit_eq_error {before after : σ} {changed : Except Fault (β × σ)} {fault : Fault}
    (h : commit before changed = (.error fault, after)) :
    changed = .error fault ∧ after = before := by
  cases changed with
  | ok result => cases h
  | error other =>
    cases h
    exact ⟨rfl, rfl⟩

/-- A procedure may look at the object. -/
theorem get_bind (rest : σ → Procedure σ β) (a : σ) :
    (get >>= rest : Procedure σ β) a = rest a a := rfl

/-- A computation without the object either hands its value on or ends the procedure. -/
theorem check_bind (result : Except Fault β) (rest : β → Procedure σ γ) (a : σ) :
    (liftM result >>= rest) a =
      match result with
      | .ok b => rest b a
      | .error fault => (.error fault, a) := by
  cases result <;> rfl

/-- What follows a change is carried out on the changed object, and not at all after a fault. -/
theorem commit_bind {step : Procedure σ β} {a : σ} {changed : Except Fault (β × σ)}
    (rest : β → Procedure σ γ) :
    step a = commit a changed →
      (step >>= rest) a =
        match changed with
        | .ok (answer, next) => rest answer next
        | .error fault => (.error fault, a) := by
  intro hstep
  show (match step a with
    | (result, next) => (ExceptT.bindCont rest result : StateM _ _) next) = _
  rw [hstep]
  cases changed <;> rfl

end Containers.InPlace
