import Mathlib.Data.Fintype.Basic
import Mathlib.Logic.Function.Basic

/-!
# Lib.Locks

Locks on a file: any number of processes may hold it shared, or one exclusively.
-/

namespace Locks

inductive Mode where
  | shared
  | exclusive
  deriving DecidableEq

variable {P : Type}

/-- The lock can be given to a process: nobody else holds one that excludes it. -/
def Free (held : P → Option Mode) (p : P) (m : Mode) : Prop :=
  ∀ q, q ≠ p → held q ≠ some .exclusive ∧ (m = .exclusive → held q = none)

instance [DecidableEq P] [Fintype P] (held : P → Option Mode) (p : P) (m : Mode) :
    Decidable (Free held p m) :=
  inferInstanceAs
    (Decidable (∀ q, q ≠ p → held q ≠ some .exclusive ∧ (m = .exclusive → held q = none)))

/-- Who holds the lock exclusively holds it alone. -/
def Exclusive (held : P → Option Mode) : Prop :=
  ∀ p q, q ≠ p → held p = some .exclusive → held q = none

variable {held : P → Option Mode}

theorem exclusive_none : Exclusive fun _ : P => none := by
  intro p q _ h
  contradiction

/-- Who holds the lock may go on holding it. -/
theorem Exclusive.free (h : Exclusive held) {p : P} {m : Mode} (hp : held p = some m) :
    Free held p m := by
  intro q hne
  constructor
  · intro hq
    rw [h q p hne.symm hq] at hp
    contradiction
  · intro hm
    subst hm
    exact h p q hne hp

/-- Giving the lock to a process when it is free, or taking it back. -/
theorem Exclusive.update [DecidableEq P] (h : Exclusive held) {p : P} {m : Option Mode}
    (hfree : ∀ k, m = some k → Free held p k) : Exclusive (Function.update held p m) := by
  intro q r hne hq
  by_cases hqp : q = p
  · subst hqp
    rw [Function.update_self] at hq
    rw [Function.update_of_ne hne]
    exact (hfree .exclusive hq r hne).2 rfl
  · rw [Function.update_of_ne hqp] at hq
    by_cases hrp : r = p
    · subst hrp
      rw [Function.update_self]
      cases m with
      | none => rfl
      | some k => exact absurd hq (hfree k rfl q hqp).1
    · rw [Function.update_of_ne hrp]
      exact h q r hne hq

end Locks
