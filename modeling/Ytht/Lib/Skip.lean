import Mathlib.Tactic.Common

/-!
# Lib.Skip

A search that skips: it looks at places from left to right, and where there is no hit it goes on by
as much as it knows there can be none.  `search_eq_true_iff` says that it misses none, provided no
hit lies closer than the skip.
-/

namespace Skip

/-- From place `e` on, below `last`; `fuel` places at most. -/
def search (hit : Nat → Bool) (skip : Nat → Nat) (last : Nat) : Nat → Nat → Bool
  | 0, _ => false
  | fuel + 1, e =>
      if e < last then if hit e then true else search hit skip last fuel (e + skip e) else false

/-- A skip goes on, and no further than the next hit. -/
structure Sound (hit : Nat → Bool) (skip : Nat → Nat) (first last : Nat) : Prop where
  pos : ∀ e, 0 < skip e
  le : ∀ {e e'}, first ≤ e → e < e' → e' < last → hit e' = true → e + skip e ≤ e'

variable {hit : Nat → Bool} {skip : Nat → Nat} {first last fuel e : Nat}

theorem search_eq_true_iff (h : Sound hit skip first last) (hfirst : first ≤ e)
    (hfuel : last ≤ e + fuel) :
    search hit skip last fuel e = true ↔ ∃ e', e ≤ e' ∧ e' < last ∧ hit e' = true := by
  induction fuel generalizing e with
  | zero =>
      simp only [search, Bool.false_eq_true, false_iff]
      rintro ⟨e', hle, hlt, -⟩
      omega
  | succ fuel ih =>
      have hpos := h.pos e
      rw [search]
      split
      · next hlt =>
          split
          · next hhit => simpa using ⟨e, Nat.le_refl e, hlt, hhit⟩
          · next hmiss =>
              rw [ih (by omega) (by omega)]
              constructor
              · rintro ⟨e', hle, hrest⟩
                exact ⟨e', by omega, hrest⟩
              · rintro ⟨e', hle, hlt', hhit⟩
                obtain rfl | hgt : e' = e ∨ e < e' := by omega
                · exact absurd hhit hmiss
                · exact ⟨e', h.le hfirst hgt hlt' hhit, hlt', hhit⟩
      · next hend =>
          simp only [Bool.false_eq_true, false_iff]
          rintro ⟨e', hle, hlt, -⟩
          omega

end Skip
