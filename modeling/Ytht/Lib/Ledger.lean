import Mathlib.Algebra.BigOperators.Group.Finset.Piecewise
import Mathlib.Algebra.BigOperators.Option
import Mathlib.Algebra.BigOperators.Ring.Finset
import Mathlib.Data.Fintype.BigOperators
import Mathlib.Data.Int.Order.Basic

/-!
# Lib.Ledger

Amounts held by some parties.  A payment is what one party gives up and what another,
or the same one, takes: each is an update of one account, so a payment to oneself needs
no case of its own.
-/

namespace Ledger

open Function Finset

variable {P : Type}

/-! ## Payments -/

section Pay

variable [DecidableEq P] {h : P → Int} {giver taker p : P} {t : Int}

/-- One party gives up an amount, and then one takes it. -/
def pay (h : P → Int) (giver taker : P) (t : Int) : P → Int :=
  let rest := update h giver (h giver - t)
  update rest taker (rest taker + t)

theorem pay_of_ne (hgiver : p ≠ giver) (htaker : p ≠ taker) : pay h giver taker t p = h p := by
  rw [pay, update_of_ne htaker, update_of_ne hgiver]

theorem pay_giver (hne : giver ≠ taker) : pay h giver taker t giver = h giver - t := by
  rw [pay, update_of_ne hne, update_self]

theorem pay_taker (hne : giver ≠ taker) : pay h giver taker t taker = h taker + t := by
  rw [pay, update_self, update_of_ne hne.symm]

@[simp] theorem pay_self : pay h p p t = h := by
  rw [pay, update_self, update_idem, Int.sub_add_cancel, update_eq_self]

/-- What is left is not negative while the payment is made. -/
theorem rest_nonneg (hnonneg : ∀ p, 0 ≤ h p) (hle : t ≤ h giver) :
    0 ≤ update h giver (h giver - t) p := by
  by_cases hp : p = giver
  · subst hp
    rw [update_self]
    omega
  · rw [update_of_ne hp]
    exact hnonneg p

end Pay

/-! ## Sums -/

section Sums

variable [Fintype P]

/-- The number of parties that hold something. -/
def holders (h : P → Int) : Int := ((univ.filter fun p => 0 < h p).card : Int)

theorem holders_eq_sum (h : P → Int) : holders h = ∑ p, if 0 < h p then 1 else 0 := by
  rw [holders, card_filter, Nat.cast_sum]
  simp

theorem holders_option (h : Option P → Int) :
    holders h = (if 0 < h none then 1 else 0) + holders fun p => h (some p) := by
  rw [holders_eq_sum, holders_eq_sum, Fintype.sum_option]

variable [DecidableEq P] {h : P → Int} {giver taker p : P} {t : Int}

/-- A sum over all parties, when the amount of one is replaced. -/
theorem sum_update (h : P → Int) (p : P) (x : Int) :
    ∑ q, update h p x q = (∑ q, h q) - h p + x := by
  have hset := sum_update_of_mem (mem_univ p) h x
  have hsplit : ∑ q ∈ univ \ {p}, h q + ∑ q ∈ {p}, h q = ∑ q, h q := sum_sdiff (subset_univ {p})
  rw [sum_singleton] at hsplit
  rw [hset]
  omega

theorem holders_update (h : P → Int) (p : P) (x : Int) :
    holders (update h p x) = holders h - (if 0 < h p then 1 else 0) + if 0 < x then 1 else 0 := by
  have hcomp : (fun q => if 0 < update h p x q then (1 : Int) else 0) =
      update (fun q => if 0 < h q then 1 else 0) p (if 0 < x then 1 else 0) := by
    funext q
    by_cases hq : q = p
    · subst hq
      simp
    · simp [update_of_ne hq]
  rw [holders_eq_sum, holders_eq_sum, hcomp, sum_update]

/-- What a party gives up: it may hold nothing afterwards. -/
theorem holders_take (ht : 0 < t) (hle : t ≤ h p) :
    holders (update h p (h p - t)) = holders h - if h p - t ≤ 0 then 1 else 0 := by
  rw [holders_update, if_pos (by omega)]
  split <;> split <;> omega

/-- What a party takes: it may have held nothing before. -/
theorem holders_give (ht : 0 < t) (hle : 0 ≤ h p) :
    holders (update h p (h p + t)) = holders h + if h p ≤ 0 then 1 else 0 := by
  rw [holders_update, if_pos (by omega : 0 < h p + t)]
  split <;> split <;> omega

theorem sum_pay (h : P → Int) (giver taker : P) (t : Int) :
    ∑ p, pay h giver taker t p = ∑ p, h p := by
  rw [pay, sum_update, sum_update]
  omega

theorem holders_pay (hnonneg : ∀ p, 0 ≤ h p) (ht : 0 < t) (hle : t ≤ h giver) (taker : P) :
    holders (pay h giver taker t) = holders h - (if h giver - t ≤ 0 then 1 else 0) +
      if update h giver (h giver - t) taker ≤ 0 then 1 else 0 := by
  rw [pay, holders_give ht (rest_nonneg hnonneg hle), holders_take ht hle]

end Sums

end Ledger
