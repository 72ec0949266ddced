import Mathlib.Data.List.Basic
import Mathlib.Data.List.TakeWhile
import Mathlib.Data.Nat.Basic
import Mathlib.Logic.Function.Basic

/-!
# Ythtlib.Strlib

Strings and parts of strings: `strstr`, `strsncpy` of `strop.c` and `strnstr` of
`strlib.c`.  A place in a text is the number of bytes before it.
-/

namespace Ytht

open Function

/-- The place of the first `needle`, as `strstr` finds it. -/
def strstr (needle : List UInt8) : List UInt8 → Option Nat
  | [] => if needle = [] then some 0 else none
  | ch :: hay => if needle.isPrefixOf (ch :: hay) then some 0 else (strstr needle hay).map (· + 1)

/-- The string that `strsncpy` leaves in a buffer of `n` bytes. -/
def strsncpy (s2 : List UInt8) (n : Nat) : List UInt8 := (s2.take (n - 1)).takeWhile (· ≠ 0)

theorem length_strsncpy_le (s2 : List UInt8) (n : Nat) : (strsncpy s2 n).length ≤ n - 1 :=
  (List.takeWhile_prefix _).length_le.trans (List.length_take_le _ _)

theorem strsncpy_eq_self {s2 : List UInt8} (h : 0 ∉ s2) {n : Nat} (hle : s2.length ≤ n - 1) :
    strsncpy s2 n = s2 := by
  rw [strsncpy, List.take_of_length_le hle, List.takeWhile_eq_self_iff]
  intro ch hch
  rw [decide_eq_true_eq]
  rintro rfl
  exact h hch

theorem mem_strsncpy {s2 : List UInt8} {n : Nat} {ch : UInt8} (h : ch ∈ strsncpy s2 n) :
    ch ∈ s2 ∧ ch ≠ 0 := by
  have hzero := List.mem_takeWhile_imp (p := fun ch => decide (ch ≠ 0)) h
  exact ⟨List.mem_of_mem_take ((List.takeWhile_sublist _).subset h), of_decide_eq_true hzero⟩

/-! ## `strnstr` -/

/-- `skiptable` of `__boyer_moore`. -/
def skiptable (needle : List UInt8) : UInt8 → Nat :=
  needle.dropLast.zipIdx.foldl (fun table x => update table x.1 (needle.length - 1 - x.2))
    fun _ => needle.length

/-- The loop that compares from the end: after how many bytes it stopped, and the byte
of `haystack` there. -/
def mismatch : Nat → List UInt8 → List UInt8 → Option (Nat × UInt8)
  | i, nc :: ns, hc :: hs => if nc = hc then mismatch (i + 1) ns hs else some (i, hc)
  | _, _, _ => none

/-- The loop of `__boyer_moore`. -/
def boyerMoore (needle : List UInt8) : Nat → List UInt8 → Option Nat
  | 0, _ => none
  | fuel + 1, haystack =>
      if haystack.length < needle.length then none
      else
        match mismatch 0 needle.reverse (haystack.take needle.length).reverse with
        | none => some 0
        | some (i, hc) =>
            let n := skiptable needle hc
            let n :=
              if n = needle.length ∧ i ≠ 0 ∧ needle.getLast? = needle.head? then n - 1 else n
            (boyerMoore needle fuel (haystack.drop n)).map (· + n)

def bmOptimal (hlen nlen : Nat) : Bool := (hlen == 0 || 20 < hlen) && 10 < nlen

/-- `strnstr`, for a string `needle`. -/
def strnstr (haystack needle : List UInt8) : Option Nat :=
  if haystack.length < needle.length then none
  else if needle.length = 0 then some 0
  else if needle.length = 1 then haystack.findIdx? fun ch => needle.head? == some ch
  else if bmOptimal haystack.length needle.length then
    boyerMoore needle (haystack.length + 1) haystack
  else strstr needle haystack

/-- Nothing is found in an empty text. -/
theorem strnstr_nil {needle : List UInt8} (h : needle ≠ []) : strnstr [] needle = none :=
  if_pos (List.length_pos_iff.mpr h)

theorem length_le_of_strstr {needle hay : List UInt8} {pos : Nat}
    (h : strstr needle hay = some pos) : pos + needle.length ≤ hay.length := by
  induction hay generalizing pos with
  | nil =>
      rw [strstr] at h
      split at h
      · next hempty =>
          cases h
          rw [hempty]
          exact Nat.le_refl 0
      · contradiction
  | cons ch hay ih =>
      rw [strstr] at h
      split at h
      · next hbegins =>
          cases h
          rw [Nat.zero_add]
          exact (List.isPrefixOf_iff_prefix.mp hbegins).length_le
      · obtain ⟨pos, hpos, rfl⟩ := Option.map_eq_some_iff.mp h
        have hle := ih hpos
        rw [List.length_cons]
        omega

end Ytht
