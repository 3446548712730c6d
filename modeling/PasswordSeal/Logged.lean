/-
# Operations that log

A `Logged α` is the outcome of an operation together with the events that it left behind, in
their order.  One operation after another logs the events of both, unless the first fails: then
the second does not run and logs nothing.
-/
import PasswordSeal.Event

namespace PasswordSeal

/-- An outcome, and the events on the way to it. -/
structure Logged (α : Type) where
  outcome : Except Failure α
  events : List Event

namespace Logged

variable {α β : Type}

/-- An outcome that no event announces. -/
def ofExcept (outcome : Except Failure α) : Logged α := ⟨outcome, []⟩

/-- Logs an event. -/
def emit (e : Event) : Logged Unit := ⟨.ok (), [e]⟩

/-- One operation after another. -/
def andThen (x : Logged α) (f : α → Logged β) : Logged β :=
  match x.outcome with
  | .ok a => ⟨(f a).outcome, x.events ++ (f a).events⟩
  | .error e => ⟨.error e, x.events⟩

instance : Monad Logged where
  pure a := ofExcept (.ok a)
  bind := andThen

/-- Logs an event when the operation fails. -/
def reporting (event : Failure.Kind → Event) (x : Logged α) : Logged α :=
  match x.outcome with
  | .ok _ => x
  | .error e => ⟨.error e, x.events ++ [event e.kind]⟩

/-! ## What the combinators do to the two parts -/

@[simp] theorem outcome_ofExcept (o : Except Failure α) : (ofExcept o).outcome = o := rfl

@[simp] theorem events_ofExcept (o : Except Failure α) : (ofExcept o).events = [] := rfl

@[simp] theorem outcome_reporting (event : Failure.Kind → Event) (x : Logged α) :
    (reporting event x).outcome = x.outcome := by
  unfold reporting
  split <;> simp_all

theorem pure_eq (a : α) : (pure a : Logged α) = ⟨.ok a, []⟩ := rfl

theorem bind_of_ok {x : Logged α} {a : α} (h : x.outcome = .ok a) (f : α → Logged β) :
    x >>= f = ⟨(f a).outcome, x.events ++ (f a).events⟩ := by
  simp [bind, andThen, h]

theorem bind_of_error {x : Logged α} {e : Failure} (h : x.outcome = .error e)
    (f : α → Logged β) : x >>= f = ⟨.error e, x.events⟩ := by
  simp [bind, andThen, h]

/-- The outcome of one operation after another depends on their outcomes only. -/
theorem outcome_bind (x : Logged α) (f : α → Logged β) :
    (x >>= f).outcome = x.outcome >>= fun a => (f a).outcome := by
  cases h : x.outcome with
  | ok a => rw [bind_of_ok h]; rfl
  | error e => rw [bind_of_error h]; rfl

@[simp] theorem outcome_emit (e : Event) : (emit e).outcome = .ok () := rfl

@[simp] theorem outcome_pure (a : α) : (pure a : Logged α).outcome = .ok a := rfl

end Logged
end PasswordSeal
