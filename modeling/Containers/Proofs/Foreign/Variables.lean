import Containers.Foreign.Session
import Mathlib.Data.List.Forall2
import Mathlib.Logic.Function.Basic

/-!
# What variables stand for

A caller sees objects, not handles: `Variables` gives the object that each variable stands for. A
table shows such an assignment if each of its variables holds null or a handle of the object there
(`Table.Shows`). It keeps showing what the same change makes of the assignment when a call puts a
handle into a variable or releases one, so a refinement of calls only has to relate handles with
objects, one call at a time (`Session.run_related`).
-/

namespace Containers.Foreign

/-- The object that each variable stands for, if it stands for one. -/
abbrev Variables (β : Type) := String → Option β

namespace Variables

variable {β : Type}

/-- No variable stands for an object. -/
def empty : Variables β := fun _ => none

/-- The object of a variable; a missing variable has none. -/
def get (v : Variables β) (name : Option String) : Option β := name.bind v

/-- Another object for a variable, if there are both. -/
def keep (v : Variables β) (name : Option String) (b : Option β) : Variables β :=
  match name, b with
  | some name, some b => Function.update v name (some b)
  | _, _ => v

/-- No object for a variable. -/
def release (v : Variables β) (name : String) : Variables β := Function.update v name none

end Variables

namespace Table

variable {α β : Type} {R : α → β → Prop} {t : Table α} {v : Variables β}

/-- Where no object stands the variable holds null, and elsewhere a handle of the object. -/
def Shows (R : α → β → Prop) (t : Table α) (v : Variables β) : Prop :=
  ∀ name : String, Option.Rel R (t.get name) (v name)

/-- No variables show no objects. -/
theorem Shows.empty : Shows R {} Variables.empty := fun _ => .none

/-- A variable that is read has the handle of its object, or neither. -/
theorem Shows.get (h : t.Shows R v) (name : Option String) :
    Option.Rel R (t.get name) (v.get name) := by
  cases name with
  | none => exact .none
  | some name => exact h name

/-- A live handle has its object. -/
theorem Shows.of_get_eq_some (h : t.Shows R v) {name : Option String} {a : α}
    (ha : t.get name = some a) : ∃ b, v.get name = some b ∧ R a b := by
  have hname := h.get name
  rw [ha] at hname
  generalize v.get name = object at hname ⊢
  cases hname with
  | some hab => exact ⟨_, rfl, hab⟩

/-- A variable holds a handle just if it stands for an object. -/
theorem Shows.isSome_get (h : t.Shows R v) (name : Option String) :
    (t.get name).isSome = (v.get name).isSome := by
  have hname := h.get name
  generalize t.get name = handle, v.get name = object at hname ⊢
  cases hname <;> rfl

/-- A reading of the handles that gives the objects gives what the variables stand for. -/
theorem Shows.map_get {f : α → β} (h : t.Shows R v) (hf : ∀ a b, R a b → f a = b)
    (name : Option String) : (t.get name).map f = v.get name := by
  have hname := h.get name
  generalize t.get name = handle, v.get name = object at hname ⊢
  cases hname with
  | none => rfl
  | some hab => exact congrArg some (hf _ _ hab)

/-- A handle and its object may be put into a variable. -/
theorem Shows.keep (h : t.Shows R v) (name : Option String) {a : Pointer α} {b : Option β}
    (hab : Option.Rel R a b) : (t.keep name a).Shows R (v.keep name b) := by
  cases name with
  | none => exact h
  | some name =>
    cases hab with
    | none => exact h
    | some hab =>
      intro other
      simp only [Table.keep, Variables.keep, get_put, Function.update_apply]
      split
      · exact .some hab
      · exact h other

/-- A call that made nothing leaves its variable alone. -/
theorem Shows.keep_none (h : t.Shows R v) (name : Option String) :
    (t.keep name none).Shows R v := by
  rw [Table.keep_none]
  exact h

/-- A variable may be released together with its object. -/
theorem Shows.release (h : t.Shows R v) (name : String) :
    (t.release name).Shows R (v.release name) := by
  intro other
  rw [get_release, Variables.release, Function.update_apply]
  split
  · exact .none
  · exact h other

end Table

/-! ## Runs of calls -/

/-- Carry out calls in order, with all their replies, where `step` carries out one. -/
def runCalls {σ : Type} (step : σ → Call → σ × Reply) (state : σ) : List Call → σ × List Reply
  | [] => (state, [])
  | call :: calls =>
    let (next, reply) := step state call
    let (last, replies) := runCalls step next calls
    (last, reply :: replies)

/-- A session stays related to a state, and its replies to those of the state, if every call does
that which is among the calls and whose reply is as the replies are. -/
theorem Session.run_related {σ : Type} {step : σ → Call → σ × Reply} {R : Session → σ → Prop}
    {Q : Reply → Reply → Prop} {OfCall : Call → Prop} {OfReply : Reply → Prop}
    (hstep : ∀ {s : Session} {state : σ}, R s state → ∀ {call : Call}, OfCall call →
      OfReply (s.step call).2 →
        R (s.step call).1 (step state call).1 ∧ Q (s.step call).2 (step state call).2)
    {s : Session} {state : σ} (h : R s state) {calls : List Call}
    (hcalls : ∀ call ∈ calls, OfCall call) (hreplies : ∀ reply ∈ (s.run calls).2, OfReply reply) :
    R (s.run calls).1 (runCalls step state calls).1 ∧
      List.Forall₂ Q (s.run calls).2 (runCalls step state calls).2 := by
  induction calls generalizing s state with
  | nil => exact ⟨h, .nil⟩
  | cons call calls ih =>
    obtain ⟨hcall, hcalls⟩ := List.forall_mem_cons.1 hcalls
    obtain ⟨hreply, hreplies⟩ := List.forall_mem_cons.1 hreplies
    obtain ⟨hnext, hanswer⟩ := hstep h hcall hreply
    obtain ⟨hlast, hanswers⟩ := ih hnext hcalls hreplies
    exact ⟨hlast, .cons hanswer hanswers⟩

end Containers.Foreign
