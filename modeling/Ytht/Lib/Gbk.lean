import Mathlib.Data.List.Basic

/-!
# Lib.Gbk

Text read as GBK: a byte 0x81-0xFE and a byte 0x40-0xFE behind it are one
character, every other byte stands alone.
-/

namespace Gbk

/-- `c & 0x80`: programs take such a byte for the first of a pair. -/
def highBit (c : UInt8) : Bool := c &&& 0x80 != 0

theorem ne_zero_of_highBit {c : UInt8} (h : highBit c) : c ≠ 0 := by
  intro hc
  subst hc
  contradiction

def isFirst (c : UInt8) : Bool := 0x81 ≤ c && c ≤ 0xFE

def isSecond (c : UInt8) : Bool := 0x40 ≤ c && c ≤ 0xFE

/-- The bytes that are characters of their own. -/
def standAlone : List UInt8 → List UInt8
  | [] => []
  | [c] => [c]
  | c :: d :: s => if isFirst c && isSecond d then standAlone s else c :: standAlone (d :: s)

/-- **A byte below 0x40 stands alone wherever it occurs.** -/
theorem mem_standAlone_iff {b : UInt8} (hb : b < 0x40) (s : List UInt8) :
    b ∈ standAlone s ↔ b ∈ s := by
  have hsecond : isSecond b = false := by
    simp only [isSecond, Bool.and_eq_false_iff, decide_eq_false_iff_not]
    exact Or.inl (UInt8.not_le.mpr hb)
  have hfirst : isFirst b = false := by
    simp only [isFirst, Bool.and_eq_false_iff, decide_eq_false_iff_not]
    exact Or.inl (UInt8.not_le.mpr (UInt8.lt_trans hb (by decide)))
  induction s using standAlone.induct with
  | case1 => rfl
  | case2 c => rfl
  | case3 c d s hpair ih =>
      rw [Bool.and_eq_true] at hpair
      have hc : b ≠ c := fun h => by simp [← h, hfirst] at hpair
      have hd : b ≠ d := fun h => by simp [← h, hsecond] at hpair
      simp [standAlone, hpair, ih, hc, hd]
  | case4 c d s hpair ih =>
      rw [standAlone, if_neg hpair, List.mem_cons, List.mem_cons]
      exact or_congr_right ih

end Gbk
