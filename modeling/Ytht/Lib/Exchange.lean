import Mathlib.Data.List.Perm.Basic
import Mathlib.Order.Lattice

/-!
# Lib.Exchange

Sorting by exchange, in decreasing order of a key: each place in turn is compared with
all the places behind it, and takes over what is greater.
-/

namespace Exchange

variable {α β : Type} [LinearOrder β] (key : α → β)

/-- The inner loop: what is at a place in the end, and behind it. -/
def pass (x : α) : List α → α × List α
  | [] => (x, [])
  | y :: ys =>
      if key x < key y then ((pass y ys).1, x :: (pass y ys).2)
      else ((pass x ys).1, y :: (pass x ys).2)

/-- The outer loop, for so many places. -/
def sortLoop : Nat → List α → List α
  | n + 1, x :: xs => (pass key x xs).1 :: sortLoop n (pass key x xs).2
  | _, l => l

def exchangeSort (l : List α) : List α := sortLoop key l.length l

variable {key}

theorem pass_perm (x : α) (l : List α) :
    ((pass key x l).1 :: (pass key x l).2).Perm (x :: l) := by
  induction l generalizing x with
  | nil => exact .refl _
  | cons y ys ih =>
      rw [pass]
      split
      · exact (List.Perm.swap x _ _).trans ((ih y).cons x)
      · exact (List.Perm.swap y _ _).trans (((ih x).cons y).trans (List.Perm.swap x y ys))

/-- The inner loop leaves the greatest at its place. -/
theorem pass_max (x : α) (l : List α) : ∀ y ∈ x :: l, key y ≤ key (pass key x l).1 := by
  induction l generalizing x with
  | nil => simp [pass]
  | cons z zs ih =>
      rw [pass]
      split
      · next hlt =>
          rw [List.forall_mem_cons]
          exact ⟨hlt.le.trans (ih z z List.mem_cons_self), ih z⟩
      · next hle =>
          have ih := List.forall_mem_cons.mp (ih x)
          rw [List.forall_mem_cons, List.forall_mem_cons]
          exact ⟨ih.1, (le_of_not_gt hle).trans ih.1, ih.2⟩

theorem length_pass (x : α) (l : List α) : (pass key x l).2.length = l.length := by
  have h : ((pass key x l).1 :: (pass key x l).2).length = (x :: l).length :=
    (pass_perm x l).length_eq
  simpa using h

theorem sortLoop_perm (n : Nat) (l : List α) : (sortLoop key n l).Perm l := by
  induction n generalizing l with
  | zero => cases l <;> exact .refl _
  | succ n ih =>
      cases l with
      | nil => exact .refl _
      | cons x xs => exact ((ih _).cons _).trans (pass_perm x xs)

theorem exchangeSort_perm (l : List α) : (exchangeSort key l).Perm l := sortLoop_perm _ l

theorem sortLoop_pairwise {n : Nat} {l : List α} (h : l.length ≤ n) :
    (sortLoop key n l).Pairwise fun x y => key y ≤ key x := by
  induction n generalizing l with
  | zero =>
      cases List.length_eq_zero_iff.mp (Nat.le_zero.mp h)
      exact .nil
  | succ n ih =>
      cases l with
      | nil => exact .nil
      | cons x xs =>
          rw [List.length_cons] at h
          rw [sortLoop, List.pairwise_cons]
          refine ⟨fun y hy => ?_, ih (by rw [length_pass]; omega)⟩
          have hmem := (sortLoop_perm n (pass key x xs).2).mem_iff.mp hy
          exact pass_max x xs y ((pass_perm x xs).mem_iff.mp (List.mem_cons_of_mem _ hmem))

/-- **Exchange sort** gives a list in decreasing order. -/
theorem exchangeSort_pairwise (l : List α) :
    (exchangeSort key l).Pairwise fun x y => key y ≤ key x :=
  sortLoop_pairwise (Nat.le_refl _)

end Exchange
