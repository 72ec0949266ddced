import Mathlib.Algebra.BigOperators.Group.Finset.Basic
import Mathlib.Data.Int.ModEq
import Mathlib.Data.List.Count
import Mathlib.Data.Nat.Bitwise
import Mathlib.Tactic.Ring

/-!
# Lib.Bits

Words read as sets of small numbers: the number of bits that are set, the word
of a set (`mask`), and sums of powers of two.  A sum of powers of two with
arbitrary factors is the word of a set exactly when what the factors are beyond
0 and 1 cancels out (`ofInt_sum_eq_mask_iff`).

A word is turned by adding what two shifts make of it; that is right when the bits above
those turned do not come in (`turn_iff`).
-/

namespace Bits

variable {w : Nat}

/-- The number of bits set. -/
def ones (v : BitVec w) : Nat := (List.range w).countP (v.getLsbD ·)

/-- The word of the numbers below `t` with `p`. -/
def mask (w : Nat) (p : Nat → Bool) : Nat → BitVec w
  | 0 => 0
  | t + 1 => if p t then mask w p t ||| BitVec.twoPow w t else mask w p t

theorem getLsbD_mask (p : Nat → Bool) {t : Nat} (ht : t ≤ w) (k : Nat) :
    (mask w p t).getLsbD k = (decide (k < t) && p k) := by
  induction t with
  | zero => simp [mask]
  | succ t ih =>
      have ih := ih (by omega)
      rw [mask]
      by_cases hk : k = t
      · subst hk
        cases hp : p k with
        | false => rw [if_neg (by simp), ih, hp, Bool.and_false, Bool.and_false]
        | true => simp [show k < w by omega]
      · have hlt : k < t + 1 ↔ k < t := by omega
        split <;> simp [ih, hlt, Ne.symm hk]

theorem eq_mask_iff (p : Nat → Bool) {t : Nat} (ht : t ≤ w) (v : BitVec w) :
    v = mask w p t ↔ ∀ k < w, (v.getLsbD k = true ↔ k < t ∧ p k = true) := by
  constructor
  · rintro rfl k _
    simp [getLsbD_mask p ht]
  · intro h
    refine BitVec.eq_of_getLsbD_eq fun k hk => ?_
    rw [Bool.eq_iff_iff, h k hk, getLsbD_mask p ht]
    simp

theorem ones_mask (p : Nat → Bool) {t : Nat} (ht : t ≤ w) :
    ones (mask w p t) = (List.range t).countP p := by
  obtain ⟨d, rfl⟩ := Nat.exists_eq_add_of_le ht
  have hlow : (List.range t).countP (mask (t + d) p t).getLsbD = (List.range t).countP p := by
    refine List.countP_congr fun k hk => ?_
    simp [getLsbD_mask p ht, List.mem_range.mp hk]
  have hhigh : ((List.range d).map (t + ·)).countP (mask (t + d) p t).getLsbD = 0 := by
    rw [List.countP_eq_zero]
    intro k hk
    obtain ⟨i, -, rfl⟩ := List.mem_map.mp hk
    simp [getLsbD_mask p ht]
  rw [ones, List.range_add, List.countP_append, hlow, hhigh, Nat.add_zero]

/-- The powers of two of a set add up to its word. -/
theorem ofInt_sum_mask (p : Nat → Bool) {t : Nat} (ht : t ≤ w) :
    BitVec.ofInt w (∑ k ∈ Finset.range t, if p k then 2 ^ k else 0) = mask w p t := by
  induction t with
  | zero => simp [mask]
  | succ t ih =>
      have hpow : BitVec.ofInt w (2 ^ t) = BitVec.twoPow w t := by
        rw [← BitVec.toNat_inj, BitVec.toNat_twoPow, BitVec.toNat_ofInt]
        norm_cast
      rw [Finset.sum_range_succ, BitVec.ofInt_add, ih (by omega), mask]
      split
      · rw [hpow, BitVec.add_eq_or_of_and_eq_zero]
        refine BitVec.eq_of_getLsbD_eq fun k hk => ?_
        simp [getLsbD_mask p (show t ≤ w by omega)]
        omega
      · simp

theorem ofInt_eq_iff (x y : Int) : BitVec.ofInt w x = BitVec.ofInt w y ↔ (2 ^ w : Int) ∣ y - x := by
  rw [← Int.modEq_iff_dvd, ← BitVec.toNat_inj, BitVec.toNat_ofInt, BitVec.toNat_ofInt, Int.ModEq]
  have hne : (2 ^ w : Int) ≠ 0 := pow_ne_zero w (by decide)
  have hx := Int.emod_nonneg x hne
  have hy := Int.emod_nonneg y hne
  push_cast
  omega

/-- **Factors other than 0 and 1** still make the word of a set when what they are too
much cancels out. -/
theorem ofInt_sum_eq_mask_iff (a : Nat → Int) (p : Nat → Bool) {t : Nat} (ht : t ≤ w) :
    BitVec.ofInt w (∑ k ∈ Finset.range t, a k * 2 ^ k) = mask w p t ↔
      (2 ^ w : Int) ∣ ∑ k ∈ Finset.range t, ((if p k then 1 else 0) - a k) * 2 ^ k := by
  rw [← ofInt_sum_mask p ht, ofInt_eq_iff, ← Finset.sum_sub_distrib]
  refine iff_of_eq (congrArg _ (Finset.sum_congr rfl fun k _ => ?_))
  split <;> simp [Int.sub_mul]

/-! ## Turning -/

/-- Numbers that agree in their low bits. -/
theorem testBit_eq_iff_mod (x y k : Nat) :
    (∀ j < k, x.testBit j = y.testBit j) ↔ x % 2 ^ k = y % 2 ^ k := by
  constructor
  · intro h
    refine Nat.eq_of_testBit_eq fun j => ?_
    rw [Nat.testBit_mod_two_pow, Nat.testBit_mod_two_pow]
    by_cases hj : j < k
    · rw [h j hj]
    · simp [hj]
  · intro h j hj
    have hbit := congrArg (Nat.testBit · j) h
    simpa [Nat.testBit_mod_two_pow, hj] using hbit

/-- A word in three pieces: the lowest `r` bits, the next `d`, and those above. -/
theorem pieces (v r d : Nat) : ∃ a b, a < 2 ^ d ∧ b < 2 ^ r ∧
    v / 2 ^ r = 2 ^ d * (v / 2 ^ (r + d)) + a ∧
    v = 2 ^ r * (2 ^ d * (v / 2 ^ (r + d)) + a) + b := by
  have hupper : v / 2 ^ r = 2 ^ d * (v / 2 ^ (r + d)) + v / 2 ^ r % 2 ^ d := by
    rw [Nat.pow_add, ← Nat.div_div_eq_div_mul, Nat.div_add_mod]
  refine ⟨v / 2 ^ r % 2 ^ d, v % 2 ^ r, Nat.mod_lt _ (Nat.two_pow_pos d),
    Nat.mod_lt _ (Nat.two_pow_pos r), hupper, ?_⟩
  rw [← hupper, Nat.div_add_mod]

/-- **The lowest `r + d` bits, turned by `r`**: the sum of two shifts has them if the bits above
are 0 as far as they come in. -/
theorem turn_iff {v r d : Nat} (hd : 0 < d) :
    (∀ i < r + d, (v / 2 ^ r + v * 2 ^ d).testBit i = v.testBit ((i + r) % (r + d))) ↔
      2 ^ r ∣ v / 2 ^ (r + d) := by
  obtain ⟨a, b, ha, hb, hupper, hv⟩ := pieces v r d
  obtain ⟨above, habove⟩ : ∃ above, above = v / 2 ^ (r + d) := ⟨_, rfl⟩
  rw [← habove] at hupper hv ⊢
  have hsum : v / 2 ^ r + v * 2 ^ d =
      2 ^ d * (2 ^ r * (2 ^ d * above + a) + (above + b)) + a := by
    rw [hupper]
    conv_lhs => rw [hv]
    ring
  have hlow : ∀ i < d, v.testBit ((i + r) % (r + d)) = a.testBit i := by
    intro i hi
    rw [Nat.mod_eq_of_lt (by omega), ← Nat.testBit_div_two_pow, hupper,
      Nat.testBit_two_pow_mul_add _ ha, if_pos hi]
  have hhigh : ∀ j < r, v.testBit ((d + j + r) % (r + d)) = b.testBit j := by
    intro j hj
    rw [show d + j + r = j + (r + d) by omega, Nat.add_mod_right, Nat.mod_eq_of_lt (by omega), hv,
      Nat.testBit_two_pow_mul_add _ hb, if_pos hj]
  have hword : (∀ i < r + d, (v / 2 ^ r + v * 2 ^ d).testBit i = v.testBit ((i + r) % (r + d))) ↔
      ∀ j < r, (2 ^ r * (2 ^ d * above + a) + (above + b)).testBit j = b.testBit j := by
    rw [hsum]
    constructor
    · intro h j hj
      have hbit := h (d + j) (by omega)
      rwa [hhigh j hj, Nat.testBit_two_pow_mul_add _ ha, if_neg (by omega),
        Nat.add_sub_cancel_left] at hbit
    · intro h i hi
      rw [Nat.testBit_two_pow_mul_add _ ha]
      split_ifs with hid
      · exact (hlow i hid).symm
      · obtain ⟨j, rfl⟩ := Nat.exists_eq_add_of_le (Nat.not_lt.mp hid)
        rw [Nat.add_sub_cancel_left, h j (by omega), hhigh j (by omega)]
  rw [hword, testBit_eq_iff_mod, Nat.mul_add_mod, Nat.mod_eq_of_lt hb]
  constructor
  · intro h
    have hdiv := Nat.div_add_mod (above + b) (2 ^ r)
    rw [h] at hdiv
    exact ⟨_, (Nat.add_right_cancel hdiv).symm⟩
  · intro h
    rw [Nat.add_mod, Nat.mod_eq_zero_of_dvd h, Nat.zero_add, Nat.mod_mod, Nat.mod_eq_of_lt hb]

end Bits
