import Mathlib.Data.List.Count
import Mathlib.Logic.Function.Basic

/-!
# Lib.Sliding

Events in the order in which they come, each with a key and a time, and a table that counts the
events of every key.  An event is recent for a while; what is no longer recent is expired from the
front, and released in the table.  `Counted.expire` says that a table that counts the events never
lacks the count of one, and counts those that stay.
-/

namespace Sliding

open Function

variable {α κ : Type} (key : α → κ) (time : α → Nat)

/-- The events of the last `width` seconds. -/
def recent (width now : Nat) (l : List α) : List α := l.filter fun x => now < time x + width

theorem recent_append (width now : Nat) (l r : List α) :
    recent time width now (l ++ r) = recent time width now l ++ recent time width now r :=
  List.filter_append ..

/-- What was recent before is enough. -/
theorem recent_recent {before now : Nat} (h : before ≤ now) (width : Nat) (l : List α) :
    recent time width now (recent time width before l) = recent time width now l := by
  rw [recent, recent, List.filter_filter]
  refine List.filter_congr fun x _ => ?_
  rw [← Bool.decide_and, decide_eq_decide]
  omega

/-- In order, the events that are no longer recent come first. -/
theorem dropWhile_eq_recent (width now : Nat) {l : List α}
    (h : l.Pairwise fun x y => time x ≤ time y) :
    l.dropWhile (fun x => time x + width ≤ now) = recent time width now l := by
  induction l with
  | nil => rfl
  | cons x l ih =>
      obtain ⟨hx, hl⟩ := List.pairwise_cons.mp h
      by_cases hold : time x + width ≤ now
      · rw [List.dropWhile_cons_of_pos (by simpa using hold), ih hl, recent, recent,
          List.filter_cons_of_neg (by simpa using hold)]
      · have hall : recent time width now (x :: l) = x :: l := by
          refine List.filter_eq_self.mpr fun y hy => decide_eq_true ?_
          rcases List.mem_cons.mp hy with rfl | hy
          · omega
          · have := hx y hy
            omega
        rw [hall, List.dropWhile_cons_of_neg (by simpa using hold)]

variable [DecidableEq κ]

/-- How many events have this key. -/
def count (k : κ) (l : List α) : Nat := l.countP fun x => key x = k

/-- The table counts the events, and has no entry for a key without any. -/
def Counted (table : κ → Option Nat) (l : List α) : Prop :=
  ∀ k, table k = if count key k l = 0 then none else some (count key k l)

/-- One more. -/
def bump (table : κ → Option Nat) (k : κ) : κ → Option Nat :=
  update table k (some ((table k).getD 0 + 1))

/-- One less; the entry goes with the last event.  There must be an entry. -/
def release (table : κ → Option Nat) (k : κ) : Option (κ → Option Nat) :=
  (table k).map fun n => update table k (if n - 1 = 0 then none else some (n - 1))

/-- Expire from the front what is no longer recent. -/
def expire (width now : Nat) : (κ → Option Nat) → List α → Option ((κ → Option Nat) × List α)
  | table, [] => some (table, [])
  | table, x :: l =>
      if now < time x + width then some (table, x :: l)
      else (release table (key x)).bind fun table => expire width now table l

variable {key}

theorem count_append (k : κ) (l r : List α) : count key k (l ++ r) = count key k l + count key k r :=
  List.countP_append

theorem count_cons (k : κ) (x : α) (l : List α) :
    count key k (x :: l) = count key k l + if key x = k then 1 else 0 := by
  rw [count, List.countP_cons, count]
  simp only [decide_eq_true_eq]

theorem counted_nil : Counted key (fun _ => none) [] := fun _ => rfl

theorem Counted.getD {table : κ → Option Nat} {l : List α} (h : Counted key table l) (k : κ) :
    (table k).getD 0 = count key k l := by
  rw [h k]
  split
  · next h0 => exact h0.symm
  · rfl

/-- A new event. -/
theorem Counted.bump {table : κ → Option Nat} {l : List α} (h : Counted key table l) (x : α) :
    Counted key (Sliding.bump table (key x)) (l ++ [x]) := by
  intro k
  have hone : count key k [x] = if key x = k then 1 else 0 := by
    rw [count_cons]
    exact Nat.zero_add _
  rw [Sliding.bump, h.getD, count_append, hone]
  by_cases hk : key x = k
  · rw [hk, update_self, if_pos rfl, if_neg (Nat.succ_ne_zero _)]
  · rw [update_of_ne (Ne.symm hk), if_neg hk, h k]
    rfl

/-- The oldest event goes. -/
theorem Counted.release {table : κ → Option Nat} {x : α} {l : List α}
    (h : Counted key table (x :: l)) :
    ∃ table', Sliding.release table (key x) = some table' ∧ Counted key table' l := by
  have hx : table (key x) = some (count key (key x) l + 1) := by
    rw [h, count_cons, if_pos rfl, if_neg (Nat.succ_ne_zero _)]
  rw [Sliding.release, hx]
  refine ⟨_, rfl, fun k => ?_⟩
  dsimp only
  by_cases hk : key x = k
  · rw [hk, update_self]
    rfl
  · rw [update_of_ne (Ne.symm hk), h k, count_cons, if_neg hk]
    rfl

/-- **No count is missing**, and the table counts what stays. -/
theorem Counted.expire {table : κ → Option Nat} {l : List α} (h : Counted key table l)
    (time : α → Nat) (width now : Nat) :
    ∃ table', Sliding.expire key time width now table l =
        some (table', l.dropWhile fun x => time x + width ≤ now) ∧
      Counted key table' (l.dropWhile fun x => time x + width ≤ now) := by
  induction l generalizing table with
  | nil => exact ⟨table, rfl, h⟩
  | cons x l ih =>
      rw [Sliding.expire]
      split
      · next hrecent =>
        rw [List.dropWhile_cons_of_neg (by simpa using hrecent)]
        exact ⟨table, rfl, h⟩
      · next hold =>
        obtain ⟨table₁, hrelease, hcounted⟩ := h.release
        obtain ⟨table', hexpire, hdone⟩ := ih hcounted
        rw [List.dropWhile_cons_of_pos (by simpa using hold), hrelease, Option.bind_some, hexpire]
        exact ⟨table', rfl, hdone⟩

/-- An event that is recent counts, and one that is not does not matter. -/
theorem count_recent {time : α → Nat} {width now : Nat} {k : κ} {l : List α}
    (h : ∀ x ∈ l, key x = k → now < time x + width) :
    count key k (recent time width now l) = count key k l := by
  rw [count, count, recent, List.countP_filter]
  refine List.countP_congr fun x hx => ?_
  rw [Bool.and_eq_true, decide_eq_true_eq, decide_eq_true_eq]
  exact and_iff_left_of_imp (h x hx)

end Sliding
