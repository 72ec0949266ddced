import Mathlib.Order.Lattice

/-!
# Lib.Bisect

Bisection in an array of which a part is in order, with any rule for the place that is looked at:
it finds what is there (`search_iff`).
-/

namespace Bisect

variable {α : Type} [LinearOrder α]

/-- Whether `key` is at one of the places from `lo` on and below `hi`, of which `mid` chooses the
next to look at. -/
def search (mid : Nat → Nat → Nat) (key : α) (a : Nat → α) : Nat → Nat → Nat → Bool
  | 0, _, _ => false
  | fuel + 1, lo, hi =>
      if hi ≤ lo then false
      else if a (mid lo hi) = key then true
      else if key < a (mid lo hi) then search mid key a fuel lo (mid lo hi)
      else search mid key a fuel (mid lo hi + 1) hi

/-- The place is one of those that are left. -/
def Inside (mid : Nat → Nat → Nat) : Prop := ∀ lo hi, lo < hi → lo ≤ mid lo hi ∧ mid lo hi < hi

theorem search_iff {mid : Nat → Nat → Nat} (hmid : Inside mid) {key : α} {a : Nat → α} {n : Nat}
    (hsorted : ∀ i j, i ≤ j → j < n → a i ≤ a j) {fuel lo hi : Nat} (hfuel : hi - lo < fuel)
    (hn : hi ≤ n) : search mid key a fuel lo hi = true ↔ ∃ i, lo ≤ i ∧ i < hi ∧ a i = key := by
  induction fuel generalizing lo hi with
  | zero => omega
  | succ fuel ih =>
      rw [search]
      split
      · next hempty =>
        refine ⟨nofun, ?_⟩
        rintro ⟨i, hlo, hhi, -⟩
        omega
      · next hsome =>
        obtain ⟨hlo, hhi⟩ := hmid lo hi (by omega)
        split
        · next hfound => exact ⟨fun _ => ⟨_, hlo, hhi, hfound⟩, fun _ => rfl⟩
        · next hne =>
          split
          · next hlt =>
            rw [ih (by omega) (by omega)]
            constructor
            · rintro ⟨i, hlo', hhi', hkey⟩
              exact ⟨i, hlo', by omega, hkey⟩
            · rintro ⟨i, hlo', hhi', hkey⟩
              refine ⟨i, hlo', Nat.lt_of_not_le fun hge => ?_, hkey⟩
              exact absurd (hsorted _ i hge (by omega)) (not_le_of_gt (hkey ▸ hlt))
          · next hnlt =>
            rw [ih (by omega) hn]
            constructor
            · rintro ⟨i, hlo', hhi', hkey⟩
              exact ⟨i, by omega, hhi', hkey⟩
            · rintro ⟨i, hlo', hhi', hkey⟩
              refine ⟨i, Nat.lt_of_not_le fun hge => hne ?_, hhi', hkey⟩
              have hle := hsorted i (mid lo hi) (by omega) (Nat.lt_of_lt_of_le hhi hn)
              rw [hkey] at hle
              exact le_antisymm (le_of_not_gt hnlt) hle

end Bisect
