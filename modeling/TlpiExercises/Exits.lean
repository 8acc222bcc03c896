import Mathlib.Tactic

/-!
# Calls that end the program when they fail

A program that gives up at the first failing call is a sequence of steps in `Except`. It
comes to its end exactly if every step does, one after the other.
-/
namespace TlpiExercises.Exits

universe u

variable {ε : Type*} {α β : Type u}

/-- Goes on if the call succeeded, and ends the program with `e` otherwise. -/
def require (succeeded : Bool) (e : ε) : Except ε Unit :=
  if succeeded then .ok () else .error e

@[simp] theorem require_eq_ok_iff {succeeded : Bool} {e : ε} {u : Unit} :
    require succeeded e = .ok u ↔ succeeded := by
  cases succeeded <;> simp [require]

@[simp] theorem bind_eq_ok_iff {x : Except ε α} {f : α → Except ε β} {b : β} :
    (x >>= f) = .ok b ↔ ∃ a, x = .ok a ∧ f a = .ok b := by
  cases hx : x with
  | ok a =>
      show f a = .ok b ↔ _
      simp
  | error e =>
      show Except.error e = .ok b ↔ _
      simp

@[simp] theorem pure_eq_ok_iff {a b : α} : (pure a : Except ε α) = .ok b ↔ a = b := by
  simp [pure, Except.pure]

end TlpiExercises.Exits
