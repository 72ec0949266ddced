import Mathlib.Algebra.Order.Ring.Int
import Mathlib.Tactic.LinearCombination
import Mathlib.Tactic.NormNum
import Mathlib.Tactic.Positivity
import Mathlib.Tactic.Ring
import Ytht.Attach.Append
import Ytht.Lib.Bytes

/-!
# Ythtlib.Itoa

Numbers of a fixed width in a 64-letter alphabet: `myitoa` writes the lowest
digits of an `int`, `myatoi` reads them back.
-/

namespace Ytht

open Bytes

/-- The letters, from 0 to 63. -/
def mybase64 : List UInt8 :=
  ascii "ABCDEFGHIJKLMNOPQRSTUVWXYZabcdefghijklmnopqrstuvwxyz0123456789*+"

/-- The digit that `myatoi` takes a letter for. -/
def digitOf (ch : UInt8) : Int :=
  if 97 ≤ ch then ch.toNat - 97 + 26
  else if 65 ≤ ch then ch.toNat - 65
  else if 48 ≤ ch then ch.toNat - 48 + 52
  else ch.toNat - 42 + 62

/-- `myatoi`; the shift to the left leaves 32 bits. -/
def myatoi (buf : List UInt8) (len : Nat) : Int :=
  ((buf.takeWhile (· ≠ 0)).take len).foldl (fun ret ch => toInt (ret * 64 + digitOf ch)) 0

/-- The string that `myitoa` leaves in the buffer; the shift to the right keeps the sign. -/
def myitoa (num : Int) : Nat → List UInt8
  | 0 => []
  | len + 1 => myitoa (num / 64) len ++ [mybase64.getD (num % 64).toNat 0]

theorem length_myitoa (num : Int) (len : Nat) : (myitoa num len).length = len := by
  induction len generalizing num with
  | zero => rfl
  | succ len ih => rw [myitoa, List.length_append, ih, List.length_singleton]

/-- Each letter is read as the digit it was written for, and is none of the
bytes that end a token. -/
theorem mybase64_spec : ∀ d < 64, digitOf (mybase64.getD d 0) = d ∧
    mybase64.getD d 0 ≠ 0 ∧ mybase64.getD d 0 ≠ 95 := by
  decide +kernel

theorem mem_myitoa {num : Int} {len : Nat} {ch : UInt8} (h : ch ∈ myitoa num len) :
    ch ≠ 0 ∧ ch ≠ 95 := by
  induction len generalizing num with
  | zero => cases h
  | succ len ih =>
      rw [myitoa, List.mem_append, List.mem_singleton] at h
      rcases h with h | rfl
      · exact ih h
      · exact (mybase64_spec (num % 64).toNat (by omega)).2

/-- The lowest digit and the others. -/
theorem emod_digit (n : Int) {m : Int} (hm : 0 < m) :
    n % (m * 64) = n / 64 % m * 64 + n % 64 := by
  have hn := Int.emod_add_mul_ediv n 64
  have hq := Int.emod_add_mul_ediv (n / 64) m
  have hlow : 0 ≤ n / 64 % m := Int.emod_nonneg _ (by omega)
  have hhigh : n / 64 % m < m := Int.emod_lt_of_pos _ hm
  have hsum : n = (n / 64 % m * 64 + n % 64) + m * 64 * (n / 64 / m) := by
    linear_combination -hn - 64 * hq
  conv_lhs => rw [hsum]
  rw [Int.add_mul_emod_self_left, Int.emod_eq_of_lt (by omega) (by omega)]

theorem toInt_mul_add (i j k : Int) : toInt (toInt i * j + k) = toInt (i * j + k) := by
  obtain ⟨n, hn⟩ := toInt_eq_add i
  have hsplit : toInt i * j + k = i * j + k + (256 ^ 4 : Nat) * (n * j) := by
    rw [hn]
    linear_combination
  rw [hsplit, toInt, wrap_add_mul, toInt]

/-- **What was written is read back**, as far as the digits and the `int` go. -/
theorem foldl_myitoa (n : Int) (len : Nat) :
    (myitoa n len).foldl (fun ret ch => toInt (ret * 64 + digitOf ch)) 0 =
      toInt (n % 64 ^ len) := by
  induction len generalizing n with
  | zero =>
      rw [pow_zero, Int.emod_one]
      rfl
  | succ len ih =>
      rw [myitoa, List.foldl_append, ih, List.foldl_cons, List.foldl_nil, toInt_mul_add,
        (mybase64_spec (n % 64).toNat (by omega)).1, Int.toNat_of_nonneg (by omega), pow_succ,
        emod_digit n (by positivity)]

/-- A number that fits the width is read back from the front of a longer string. -/
theorem myatoi_append (n : Int) (len : Nat) (rest : List UInt8) :
    myatoi (myitoa n len ++ rest) len = toInt (n % 64 ^ len) := by
  have hne : ∀ ch ∈ myitoa n len, decide (ch ≠ 0) = true := fun ch hch =>
    decide_eq_true (mem_myitoa hch).1
  rw [myatoi, List.takeWhile_append_of_pos hne,
    List.take_append_of_le_length (length_myitoa n len).ge,
    List.take_of_length_le (length_myitoa n len).le, foldl_myitoa]

/-- **`myatoi` undoes `myitoa`** modulo `64 ^ len`; from six digits on, which are
more than an `int` has, a negative number comes back itself. -/
theorem myatoi_myitoa {n : Int} (hn : IntRange n) (len : Nat) :
    myatoi (myitoa n len) len = if n < 0 ∧ 6 ≤ len then n else n % 64 ^ len := by
  have hread := myatoi_append n len []
  rw [List.append_nil] at hread
  rw [hread]
  obtain ⟨hlo, hhi⟩ := hn
  have hnonneg : 0 ≤ n % 64 ^ len := Int.emod_nonneg _ (by positivity)
  by_cases hlen : 6 ≤ len
  · -- all of the number is in the digits
    obtain ⟨k, hk⟩ : ∃ k : Int, (64 : Int) ^ len = (256 ^ 4 : Nat) * (16 * k) := by
      refine ⟨64 ^ (len - 6), ?_⟩
      rw [show len = 6 + (len - 6) by omega, pow_add, Nat.add_sub_cancel_left]
      norm_num
      ring
    have hsplit : n = n % 64 ^ len + (256 ^ 4 : Nat) * (16 * k * (n / 64 ^ len)) := by
      have hdiv := Int.emod_add_mul_ediv n (64 ^ len)
      conv_lhs => rw [← hdiv]
      rw [hk]
      ring
    have hback : toInt (n % 64 ^ len) = n := by
      rw [toInt, ← wrap_add_mul 4 (n % 64 ^ len) (16 * k * (n / 64 ^ len)), ← hsplit]
      exact IntRange.toInt ⟨hlo, hhi⟩
    rw [hback]
    split
    · rfl
    · next hneg =>
      have hpow : (64 : Int) ^ 6 ≤ 64 ^ len := pow_le_pow_right₀ (by norm_num) hlen
      rw [Int.emod_eq_of_lt (by omega) (by omega)]
  · have hpow : (64 : Int) ^ len ≤ 64 ^ 5 := pow_le_pow_right₀ (by norm_num) (by omega)
    have hlt : n % 64 ^ len < 64 ^ len := Int.emod_lt_of_pos _ (by positivity)
    rw [if_neg (by omega), toInt_of_range hnonneg (by omega)]

end Ytht
