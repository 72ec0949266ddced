import Mathlib.Data.Fintype.Card
import Mathlib.Logic.Function.Basic

/-!
# Lib.Roster

Who is where: each party is in one room or in none.
-/

namespace Roster

open Function

variable {P R : Type} [Fintype P] [DecidableEq R]

/-- How many are in a room. -/
def count (place : P → Option R) (r : R) : Nat :=
  (Finset.univ.filter fun p => place p = some r).card

variable {place : P → Option R} {p : P} {r : R}

theorem count_none (r : R) : count (fun _ : P => none) r = 0 := by
  unfold count
  rw [Finset.card_eq_zero, Finset.filter_eq_empty_iff]
  intro p _ h
  contradiction

/-- A room in which someone is besides `p`. -/
theorem exists_other_of_count (hp : place p = some r) (h : 1 < count place r) :
    ∃ q, q ≠ p ∧ place q = some r := by
  unfold count at h
  have hmem : p ∈ Finset.univ.filter fun q => place q = some r :=
    Finset.mem_filter.mpr ⟨Finset.mem_univ p, hp⟩
  obtain ⟨q, hq, hne⟩ := Finset.exists_mem_ne h p
  exact ⟨q, hne, (Finset.mem_filter.mp hq).2⟩

variable [DecidableEq P]

/-- Who leaves a room is missing there. -/
theorem count_leave (hp : place p = some r) :
    count (update place p none) r + 1 = count place r := by
  have herase : (Finset.univ.filter fun q => update place p none q = some r) =
      (Finset.univ.filter fun q => place q = some r).erase p := by
    ext q
    by_cases hq : q = p
    · subst hq
      simp
    · simp [hq]
  unfold count
  rw [herase]
  exact Finset.card_erase_add_one (Finset.mem_filter.mpr ⟨Finset.mem_univ p, hp⟩)

/-- Who enters a room is one more there. -/
theorem count_enter (hp : place p ≠ some r) :
    count (update place p (some r)) r = count place r + 1 := by
  have hinsert : (Finset.univ.filter fun q => update place p (some r) q = some r) =
      insert p (Finset.univ.filter fun q => place q = some r) := by
    ext q
    by_cases hq : q = p
    · subst hq
      simp
    · simp [hq]
  unfold count
  rw [hinsert]
  refine Finset.card_insert_of_notMem fun hmem => ?_
  exact hp (Finset.mem_filter.mp hmem).2

/-- The other rooms are as they were. -/
theorem count_elsewhere {v : Option R} (hp : place p ≠ some r) (hv : v ≠ some r) :
    count (update place p v) r = count place r := by
  unfold count
  congr 1
  ext q
  by_cases hq : q = p
  · subst hq
    simp [hp, hv]
  · simp [hq]

end Roster
