import Mathlib.Order.Interval.Finset.Nat

/-!
# Lib.Window

A sequence that is computed from its front, one element from the one before, and a ring of `cap`
slots that holds some of its elements in a row.

`collect` is the whole sequence as a list.  `Holds` says what the ring's slots are good for; it
survives a write outside the window, the element that comes in next, and the loss of the first.
-/

namespace Window

open Function (update)

variable {α : Type}

section Sequence

variable (next : α → Option α)

/-- Element `n` of the sequence, if it gets that far. -/
def nth (first : Option α) : Nat → Option α
  | 0 => first
  | n + 1 => (nth first n).bind next

/-- The first `n` elements. -/
def collect : Nat → Option α → List α
  | 0, _ => []
  | _, none => []
  | n + 1, some x => x :: collect n (next x)

@[simp] theorem nth_none (n : Nat) : nth next none n = none := by
  induction n with
  | zero => rfl
  | succ n ih => rw [nth, ih, Option.bind_none]

theorem nth_succ (first : Option α) (n : Nat) :
    nth next first (n + 1) = nth next (first.bind next) n := by
  induction n with
  | zero => rfl
  | succ n ih => rw [nth, ih, nth]

/-- Once it has ended the sequence stays so. -/
theorem nth_eq_none {first : Option α} {n k : Nat} (h : nth next first n = none) (hle : n ≤ k) :
    nth next first k = none := by
  induction hle with
  | refl => exact h
  | step _ ih => rw [nth, ih, Option.bind_none]

/-- A sequence whose elements get smaller ends. -/
theorem nth_eq_none_of_rank (rank : α → Nat) (h : ∀ x y, next x = some y → rank y < rank x)
    {first : Option α} {n : Nat} (hfirst : ∀ x, first = some x → rank x < n) :
    nth next first n = none := by
  induction n generalizing first with
  | zero =>
      cases first with
      | none => rfl
      | some x => exact absurd (hfirst x rfl) (Nat.not_lt_zero _)
  | succ n ih =>
      rw [nth_succ]
      refine ih fun y hy => ?_
      obtain ⟨x, hx, hxy⟩ := Option.bind_eq_some_iff.mp hy
      have hlt := h x y hxy
      have hxn := hfirst x hx
      omega

theorem getElem?_collect (first : Option α) {n k : Nat} (h : k < n) :
    (collect next n first)[k]? = nth next first k := by
  induction k generalizing n first with
  | zero =>
      obtain ⟨n, rfl⟩ := Nat.exists_eq_succ_of_ne_zero (Nat.ne_zero_of_lt h)
      cases first <;> rfl
  | succ k ih =>
      obtain ⟨n, rfl⟩ := Nat.exists_eq_succ_of_ne_zero (Nat.ne_zero_of_lt h)
      cases first with
      | none => simp [collect]
      | some x =>
          rw [collect, List.getElem?_cons_succ, ih _ (Nat.lt_of_succ_lt_succ h), nth_succ,
            Option.bind_some]

/-- A sequence that has ended by `n` is the whole list. -/
theorem getElem?_collect_of_end {first : Option α} {n : Nat} (hend : nth next first n = none)
    (k : Nat) : (collect next (n + 1) first)[k]? = nth next first k := by
  obtain hlt | hle := Nat.lt_or_ge k (n + 1)
  · exact getElem?_collect next first hlt
  · rw [nth_eq_none next hend (by omega), List.getElem?_eq_none_iff]
    have hlast := getElem?_collect next first (Nat.lt_add_one n)
    rw [hend, List.getElem?_eq_none_iff] at hlast
    omega

end Sequence

/-! ## The ring -/

/-- Elements `start` up to `start + num` are in the slots that they have in a ring of `cap`. -/
def Holds (cap : Nat) (seq : Nat → Option α) (slot : Nat → α) (start num : Nat) : Prop :=
  ∀ k, start ≤ k → k < start + num → seq k = some (slot (k % cap))

variable {cap : Nat} {seq : Nat → Option α} {slot : Nat → α} {start num : Nat}

theorem Holds.empty (start : Nat) : Holds cap seq slot start 0 :=
  fun k hle hlt => by omega

/-- A slot behind the window may be written. -/
theorem Holds.write (h : Holds cap seq slot start num) (hnum : num < cap) (x : α) :
    Holds cap seq (update slot ((start + num) % cap) x) start num := by
  intro k hle hlt
  have hne : k % cap ≠ (start + num) % cap := by
    intro heq
    have hinj := Nat.mod_injOn_Ico start cap (Finset.mem_coe.mpr (Finset.mem_Ico.mpr ⟨hle, by omega⟩))
      (Finset.mem_coe.mpr (Finset.mem_Ico.mpr ⟨Nat.le_add_right start num, by omega⟩)) heq
    omega
  rw [Function.update_of_ne hne]
  exact h k hle hlt

/-- The next element comes in. -/
theorem Holds.push (h : Holds cap seq slot start num) (hnum : num < cap) {x : α}
    (hx : seq (start + num) = some x) :
    Holds cap seq (update slot ((start + num) % cap) x) start (num + 1) := by
  intro k hle hlt
  obtain hlt | rfl : k < start + num ∨ k = start + num := by omega
  · exact h.write hnum x k hle hlt
  · rw [Function.update_self]
    exact hx

/-- The first element is given up. -/
theorem Holds.shift (h : Holds cap seq slot start (num + 1)) :
    Holds cap seq slot (start + 1) num :=
  fun k hle hlt => h k (by omega) (by omega)

end Window
