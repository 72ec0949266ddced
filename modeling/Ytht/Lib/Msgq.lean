import Mathlib.Data.List.Basic

/-!
# Lib.Msgq

A message queue, from which messages are received by their type: 0 is the first message, a positive
type the first of that type, and a negative one the first of the lowest type that is not above its
absolute value.
-/

namespace Msgq

structure Message (α : Type) where
  mtype : Int
  body : α

variable {α : Type} {q r : List (Message α)} {m : Message α}

/-- The first message with a property, and the queue without it. -/
def takeFirst (p : Message α → Bool) : List (Message α) → Option (Message α × List (Message α))
  | [] => none
  | m :: q => if p m then some (m, q) else (takeFirst p q).map fun r => (r.1, m :: r.2)

/-- The lowest type that is not above a bound. -/
def lowestType (q : List (Message α)) (bound : Int) : Option Int :=
  ((q.map Message.mtype).filter fun t => decide (t ≤ bound)).min?

def msgrcv (q : List (Message α)) (typ : Int) : Option (Message α × List (Message α)) :=
  if typ = 0 then takeFirst (fun _ => true) q
  else if 0 < typ then takeFirst (fun m => m.mtype = typ) q
  else (lowestType q (-typ)).bind fun t => takeFirst (fun m => m.mtype = t) q

theorem takeFirst_eq {p : Message α → Bool} (h : takeFirst p q = some (m, r)) :
    p m = true ∧ ∃ a b, q = a ++ m :: b ∧ r = a ++ b := by
  induction q generalizing r with
  | nil => contradiction
  | cons m' q ih =>
      rw [takeFirst] at h
      split at h
      · next hp =>
          obtain ⟨rfl, rfl⟩ := Prod.mk.inj (Option.some.inj h)
          exact ⟨hp, [], q, rfl, rfl⟩
      · obtain ⟨⟨m₁, r₁⟩, htake, heq⟩ := Option.map_eq_some_iff.mp h
        obtain ⟨rfl, rfl⟩ := Prod.mk.inj heq
        obtain ⟨hp, a, b, rfl, rfl⟩ := ih htake
        exact ⟨hp, m' :: a, b, rfl, rfl⟩

theorem takeFirst_eq_none {p : Message α → Bool} (h : takeFirst p q = none) :
    ∀ m ∈ q, p m = false := by
  induction q with
  | nil => exact fun m hm => absurd hm List.not_mem_nil
  | cons m' q ih =>
      rw [takeFirst] at h
      split at h
      · contradiction
      · next hp =>
          rw [List.forall_mem_cons]
          exact ⟨by simpa using hp, ih (Option.map_eq_none_iff.mp h)⟩

/-- One message is taken out, and the others stay in order. -/
theorem msgrcv_eq {typ : Int} (h : msgrcv q typ = some (m, r)) :
    ∃ a b, q = a ++ m :: b ∧ r = a ++ b := by
  unfold msgrcv at h
  split at h
  · exact (takeFirst_eq h).2
  · split at h
    · exact (takeFirst_eq h).2
    · obtain ⟨t, -, htake⟩ := Option.bind_eq_some_iff.mp h
      exact (takeFirst_eq htake).2

/-- What a positive type gets. -/
theorem msgrcv_mtype {typ : Int} (htyp : 0 < typ) (h : msgrcv q typ = some (m, r)) :
    m.mtype = typ := by
  rw [msgrcv, if_neg (by omega), if_pos htyp] at h
  simpa using (takeFirst_eq h).1

/-- There is none of that type. -/
theorem msgrcv_eq_none {typ : Int} (htyp : 0 < typ) (h : msgrcv q typ = none) :
    ∀ m ∈ q, m.mtype ≠ typ := by
  rw [msgrcv, if_neg (by omega), if_pos htyp] at h
  exact fun m hm => by simpa using takeFirst_eq_none h m hm

end Msgq
