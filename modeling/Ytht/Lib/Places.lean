import Mathlib.Data.List.Nodup
import Mathlib.Logic.Function.Basic

/-!
# Lib.Places

A row of `n` places in which the live things are noted.  A place that notes nothing live may be
used again, whatever stands in it.

As long as no more things are live than there are places, each of them is noted in one place
(`Notes.enter`, `Notes.erase`).
-/

namespace Places

open Function

variable {α : Type} [DecidableEq α] {n : Nat} {vacant x : α} {live live' : α → Prop}
  {row : Nat → α}

/-- The first place with such a content gets another. -/
def setFirst (n : Nat) (p : α → Bool) (row : Nat → α) (x : α) : Nat → α :=
  match (List.range n).find? fun i => p (row i) with
  | some i => update row i x
  | none => row

/-- Note something, in the first place that is free. -/
def enter (n : Nat) (free : α → Bool) (row : Nat → α) (x : α) : Nat → α :=
  if (List.range n).any fun i => row i == x then row else setFirst n free row x

/-- Strike something out. -/
def erase (n : Nat) (vacant : α) (row : Nat → α) (x : α) : Nat → α :=
  setFirst n (· == x) row vacant

/-- What is live is noted, and nothing is noted twice. -/
structure Notes (n : Nat) (vacant : α) (live : α → Prop) (row : Nat → α) : Prop where
  noted : ∀ x, live x → ∃ i < n, row i = x
  once : ∀ i < n, ∀ j < n, row i = row j → row i ≠ vacant → i = j

omit [DecidableEq α] in
theorem setFirst_cases (n : Nat) (p : α → Bool) (row : Nat → α) (x : α) :
    (∃ i < n, p (row i) = true ∧ setFirst n p row x = update row i x) ∨
      (∀ i < n, p (row i) = false) ∧ setFirst n p row x = row := by
  unfold setFirst
  split
  · next i hfind =>
    have hi : i < n := List.mem_range.mp (List.mem_of_find?_eq_some hfind)
    have hp := List.find?_some hfind
    exact Or.inl ⟨i, hi, hp, rfl⟩
  · next hfind =>
    refine Or.inr ⟨fun i hi => ?_, rfl⟩
    simpa using List.find?_eq_none.mp hfind i (List.mem_range.mpr hi)

namespace Notes

omit [DecidableEq α] in
theorem mono (h : Notes n vacant live row) (hlive : ∀ y, live' y → live y) :
    Notes n vacant live' row :=
  ⟨fun y hy => h.noted y (hlive y hy), h.once⟩

omit [DecidableEq α] in
/-- Exactly one place. -/
theorem existsUnique (h : Notes n vacant live row) (hx : live x) (hne : x ≠ vacant) :
    ∃! i, i < n ∧ row i = x := by
  obtain ⟨i, hi, hrow⟩ := h.noted x hx
  refine ⟨i, ⟨hi, hrow⟩, fun j ⟨hj, hrow'⟩ => ?_⟩
  exact h.once j hj i hi (hrow'.trans hrow.symm) (hrow'.symm ▸ hne)

/-- **Striking out** what is not live any more. -/
theorem erase (h : Notes n vacant live row) (hlive : ∀ y, live' y → live y ∧ y ≠ x) :
    Notes n vacant live' (erase n vacant row x) := by
  rcases setFirst_cases n (· == x) row vacant with ⟨i, hi, hp, heq⟩ | ⟨-, heq⟩
  · rw [beq_iff_eq] at hp
    rw [Places.erase, heq]
    constructor
    · intro y hy
      obtain ⟨hold, hne⟩ := hlive y hy
      obtain ⟨j, hj, hrow⟩ := h.noted y hold
      have hji : j ≠ i := fun hji => hne (hrow ▸ hji ▸ hp)
      exact ⟨j, hj, by rw [update_of_ne hji, hrow]⟩
    · intro j hj k hk hsame hvac
      have hji : j ≠ i := by
        rintro rfl
        exact hvac (update_self ..)
      rw [update_of_ne hji] at hsame hvac
      have hki : k ≠ i := by
        rintro rfl
        rw [update_self] at hsame
        exact hvac hsame
      rw [update_of_ne hki] at hsame
      exact h.once j hj k hk hsame hvac
  · rw [Places.erase, heq]
    exact h.mono fun y hy => (hlive y hy).1

omit [DecidableEq α] in
/-- When all places are taken, more things are live than there are places. -/
theorem exists_free (h : Notes n vacant live row) (hvacant : ¬ live' vacant)
    (hroom : ∀ l : List α, l.Nodup → (∀ y ∈ l, live' y) → l.length ≤ n) (hx : live' x)
    (hnew : ∀ i < n, row i ≠ x) : ∃ i < n, ¬ live' (row i) := by
  by_contra htaken
  simp only [not_exists, not_and, not_not] at htaken
  have hnodup : ((List.range n).map row).Nodup := by
    refine List.Nodup.map_on (fun i hi j hj hsame => ?_) List.nodup_range
    rw [List.mem_range] at hi hj
    exact h.once i hi j hj hsame fun hvac => hvacant (hvac ▸ htaken i hi)
  have hlen := hroom (x :: (List.range n).map row)
    (List.nodup_cons.mpr ⟨by simpa using hnew, hnodup⟩)
    (List.forall_mem_cons.mpr ⟨hx, by simpa using htaken⟩)
  rw [List.length_cons, List.length_map, List.length_range] at hlen
  omega

/-- **Noting** something new. -/
theorem enter (h : Notes n vacant live row) {free : α → Bool}
    (hfree : ∀ i < n, free (row i) = true ↔ ¬ live' (row i)) (hvacant : ¬ live' vacant)
    (hroom : ∀ l : List α, l.Nodup → (∀ y ∈ l, live' y) → l.length ≤ n) (hx : live' x)
    (hlive : ∀ y, live' y → y = x ∨ live y) : Notes n vacant live' (enter n free row x) := by
  unfold Places.enter
  split
  · next hany =>
    obtain ⟨i, hi, hrow⟩ := List.any_eq_true.mp hany
    refine ⟨fun y hy => ?_, h.once⟩
    rcases hlive y hy with rfl | hold
    · exact ⟨i, List.mem_range.mp hi, beq_iff_eq.mp hrow⟩
    · exact h.noted y hold
  · next hany =>
    have hnew : ∀ i < n, row i ≠ x := by simpa using hany
    obtain ⟨k, hk, hdead⟩ := h.exists_free hvacant hroom hx hnew
    rcases setFirst_cases n free row x with ⟨i, hi, hp, heq⟩ | ⟨hnone, -⟩
    · rw [heq]
      constructor
      · intro y hy
        rcases hlive y hy with rfl | hold
        · exact ⟨i, hi, update_self ..⟩
        · obtain ⟨j, hj, hrow⟩ := h.noted y hold
          have hji : j ≠ i := by
            rintro rfl
            exact (hfree j hj).mp hp (hrow ▸ hy)
          exact ⟨j, hj, by rw [update_of_ne hji, hrow]⟩
      · intro j hj m hm hsame hvac
        by_cases hji : j = i
        · by_cases hmi : m = i
          · exact hji.trans hmi.symm
          · rw [hji, update_self, update_of_ne hmi] at hsame
            exact absurd hsame.symm (hnew m hm)
        · rw [update_of_ne hji] at hsame hvac
          by_cases hmi : m = i
          · rw [hmi, update_self] at hsame
            exact absurd hsame (hnew j hj)
          · rw [update_of_ne hmi] at hsame
            exact h.once j hj m hm hsame hvac
    · have hfalse := hnone k hk
      rw [(hfree k hk).mpr hdead] at hfalse
      contradiction

end Notes

end Places
