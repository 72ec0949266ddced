import Mathlib.Data.List.Nodup

/-!
# Lib.Keyed

A file of records with a key, written one record at a time at a place.  With
distinct keys a write keeps them distinct and loses none exactly when the place
holds the record of the same key, or is the end and the key is new
(`fits_iff`).
-/

namespace Keyed

variable {α κ : Type} (key : α → κ)

/-- A record written at place `i`; what a write behind the end skips is a hole. -/
def writeAt (hole : α) (l : List α) (i : Nat) (x : α) : List α :=
  l.take i ++ List.replicate (i - l.length) hole ++ x :: l.drop (i + 1)

/-- The place holds the record of this key, or is the end and there is none. -/
def Fits (l : List α) (i : Nat) (x : α) : Prop :=
  (∃ y ∈ l[i]?, key y = key x) ∨ i = l.length ∧ key x ∉ l.map key

instance [DecidableEq κ] (l : List α) (i : Nat) (x : α) : Decidable (Fits key l i x) :=
  inferInstanceAs (Decidable ((∃ y ∈ l[i]?, _) ∨ _))

variable {key} {hole x : α} {l : List α} {i : Nat}

theorem writeAt_end : writeAt hole l l.length x = l ++ [x] := by
  simp [writeAt]

theorem writeAt_mid {pre post : List α} {y : α} (hl : l = pre ++ y :: post)
    (hi : i = pre.length) : writeAt hole l i x = pre ++ x :: post := by
  subst hl hi
  simp [writeAt, show pre.length - (pre.length + (post.length + 1)) = 0 by omega]

/-- Inside the file, a place divides it. -/
theorem split_at (hi : i < l.length) :
    ∃ pre y post, l = pre ++ y :: post ∧ i = pre.length ∧ l[i]? = some y :=
  ⟨l.take i, l[i], l.drop (i + 1), by rw [← List.drop_eq_getElem_cons hi, List.take_append_drop],
    by rw [List.length_take, Nat.min_eq_left (by omega)], List.getElem?_eq_getElem hi⟩

/-- **What a write keeps.** -/
theorem fits_iff (hole : α) (hnd : (l.map key).Nodup) (hi : i ≤ l.length) :
    Fits key l i x ↔ ((writeAt hole l i x).map key).Nodup ∧
      ∀ k ∈ l.map key, k ∈ (writeAt hole l i x).map key := by
  unfold Fits
  rcases Nat.eq_or_lt_of_le hi with rfl | hlt
  · have hnew : ((l ++ [x]).map key).Nodup ↔ key x ∉ l.map key := by
      rw [List.map_append, List.map_singleton, ← List.concat_eq_append, List.nodup_concat]
      exact and_iff_left hnd
    rw [writeAt_end, hnew]
    simp only [List.getElem?_eq_none (Nat.le_refl _), Option.mem_def, reduceCtorEq, false_and,
      exists_false, true_and, false_or]
    refine (and_iff_left ?_).symm
    intro k hk
    rw [List.map_append]
    exact List.mem_append_left _ hk
  · obtain ⟨pre, y, post, rfl, rfl, hy⟩ := split_at hlt
    rw [writeAt_mid rfl rfl, hy]
    rw [List.map_append, List.map_cons, List.nodup_middle, List.nodup_cons] at hnd
    rw [List.map_append, List.map_append, List.map_cons, List.map_cons, List.nodup_middle,
      List.nodup_cons]
    constructor
    · rintro (⟨z, hz, hkey⟩ | ⟨hend, -⟩)
      · cases hz
        rw [← hkey]
        exact ⟨hnd, fun k hk => hk⟩
      · omega
    · rintro ⟨-, hall⟩
      refine Or.inl ⟨y, rfl, ?_⟩
      have hy := hall (key y) (by simp)
      rw [List.mem_append, List.mem_cons] at hy
      rw [List.mem_append, not_or] at hnd
      rcases hy with hpre | heq | hpost
      · exact absurd hpre hnd.1.1
      · exact heq
      · exact absurd hpost hnd.1.2

/-- A write that fits keeps every key where it is. -/
theorem Fits.getElem? (h : Fits key l i x) {j : Nat} {y : α} (hy : l[j]? = some y) :
    ∃ y', (writeAt hole l i x)[j]? = some y' ∧ key y' = key y := by
  obtain ⟨z, hz, hkey⟩ | ⟨rfl, -⟩ := h
  · obtain ⟨pre, w, post, rfl, rfl, hw⟩ := split_at (List.getElem?_eq_some_iff.mp hz).1
    rw [hw] at hz
    cases hz
    rw [writeAt_mid rfl rfl]
    by_cases hj : j = pre.length
    · subst hj
      rw [hw, Option.some.injEq] at hy
      exact ⟨x, by simp, by rw [← hy, hkey]⟩
    · refine ⟨y, ?_, rfl⟩
      rw [List.getElem?_append] at hy ⊢
      split at hy
      · rwa [if_pos (by assumption)]
      · rw [if_neg (by assumption)]
        obtain ⟨k, hk⟩ : ∃ k, j - pre.length = k + 1 := ⟨j - pre.length - 1, by omega⟩
        rw [hk, List.getElem?_cons_succ] at hy ⊢
        exact hy
  · rw [writeAt_end]
    exact ⟨y, by rw [List.getElem?_append_left (List.getElem?_eq_some_iff.mp hy).1, hy], rfl⟩

/-- What is in the file after a write that fits. -/
theorem Fits.mem_writeAt (h : Fits key l i x) {y : α} (hy : y ∈ writeAt hole l i x) :
    y = x ∨ y ∈ l := by
  obtain ⟨z, hz, -⟩ | ⟨rfl, -⟩ := h
  · obtain ⟨pre, w, post, rfl, rfl, -⟩ := split_at (List.getElem?_eq_some_iff.mp hz).1
    rw [writeAt_mid rfl rfl] at hy
    simp only [List.mem_append, List.mem_cons] at hy ⊢
    tauto
  · rw [writeAt_end] at hy
    simp only [List.mem_append, List.mem_singleton] at hy
    tauto

theorem mem_writeAt_self : x ∈ writeAt hole l i x := by
  simp [writeAt]

theorem Fits.length_le (h : Fits key l i x) : l.length ≤ (writeAt hole l i x).length := by
  by_contra hlt
  rw [Nat.not_le] at hlt
  obtain ⟨y, hy⟩ : ∃ y, l[(writeAt hole l i x).length]? = some y :=
    ⟨_, List.getElem?_eq_getElem hlt⟩
  obtain ⟨y', hy', -⟩ := @Fits.getElem? _ _ key hole _ _ _ h _ _ hy
  simp at hy'

end Keyed
