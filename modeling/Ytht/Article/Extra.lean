import Mathlib.Algebra.Order.Ring.Int
import Mathlib.Data.List.Basic
import Ytht.Lib.Bytes

/-!
# Article.Extra

`get_records_extra`: a window over the records of a file and of a buffer that
goes on where the file ends.

A window that starts in the last record of the file or behind it is read from a
place one record too far, as many bytes of it as there should be records, and
without a look at `number`.
-/

namespace Ytht

open Bytes

/-- `memcpy` to a place in a buffer; `none` when it writes past the end. -/
def memcpyAt (mem : List UInt8) (place : Nat) (src : List UInt8) : Option (List UInt8) :=
  if place + src.length ≤ mem.length then
    some (mem.take place ++ src ++ mem.drop (place + src.length))
  else none

/-- `get_records`; `none` is a file that does not open. -/
def getRecords (file : Option (List UInt8)) (rptr : List UInt8) (size id number : Nat) :
    Int × List UInt8 :=
  match file with
  | none => (-1, rptr)
  | some file =>
      let offset := toInt (size * ((id : Int) - 1))
      if offset < 0 then (0, rptr)
      else
        let got := (file.drop offset.toNat).take (size * number)
        (((got.length / size : Nat) : Int), got ++ rptr.drop got.length)

/-- `get_records_extra`. -/
def getRecordsExtra (file : Option (List UInt8)) (rptr : List UInt8)
    (size id number filetotal : Nat) (extrabuf : List UInt8) (nextra : Nat) :
    Option (Int × List UInt8) :=
  if nextra = 0 then some (getRecords file rptr size id number)
  else if id < filetotal then
    let (n, rptr) := getRecords file rptr size id number
    if n < 0 then some (-1, rptr)
    else
      let nextra := min (number - n.toNat) nextra
      (memcpyAt rptr (n.toNat * size) (extrabuf.take (nextra * size))).map fun rptr =>
        (n + nextra, rptr)
  else
    let n := id - filetotal
    if nextra ≤ n then some (0, rptr)
    else
      let nextra := nextra - n
      (memcpyAt rptr 0 ((extrabuf.drop (n * size)).take nextra)).map fun rptr => (nextra, rptr)

/-- A buffer shows it when too little is written to it. -/
theorem exists_not_prefix {window src : List UInt8} (hshort : src.length < window.length) {n : Nat}
    (hn : window.length ≤ n) :
    ∃ rptr : List UInt8, rptr.length = n ∧ ¬ window <+: src ++ rptr.drop src.length := by
  refine ⟨window.map (fun b => if b = 0 then 1 else 0) ++ List.replicate (n - window.length) 0,
    by simp; omega, fun hin => ?_⟩
  have hlast : window.length - 1 < window.length := by omega
  have hsame := List.prefix_iff_getElem?.mp hin _ hlast
  rw [List.getElem?_append_right (by omega), List.getElem?_drop,
    List.getElem?_append_left (by simp; omega), List.getElem?_map,
    show src.length + (window.length - 1 - src.length) = window.length - 1 by omega,
    List.getElem?_eq_getElem hlast, Option.map_some, Option.some.injEq] at hsame
  split at hsame
  · next hzero =>
    rw [hzero] at hsame
    contradiction
  · next hne => exact hne hsame.symm

/-! ## The window -/

/-- A file and a buffer of records, each of more than one byte. -/
structure TwoFiles where
  size : Nat
  filetotal : Nat
  nextra : Nat
  main : List UInt8
  extra : List UInt8
  size_ge : 2 ≤ size
  main_length : main.length = size * filetotal
  extra_length : extra.length = size * nextra
  main_lt : main.length < 2 ^ 31

namespace TwoFiles

variable (f : TwoFiles) (id number : Nat)

/-- The records of both from position `id` on, at most `number` of them. -/
def window : List UInt8 :=
  ((f.main ++ f.extra).drop (f.size * (id - 1))).take (f.size * number)

/-- Whatever room for `number` records is given, the window is read into it, and
the number of its records is returned. -/
def Reads : Prop :=
  ∀ rptr : List UInt8, rptr.length = f.size * number →
    ∃ rptr', getRecordsExtra (some f.main) rptr f.size id number f.filetotal f.extra f.nextra =
        some ((((f.window id number).length / f.size : Nat) : Int), rptr') ∧
      f.window id number <+: rptr'

/-- Without extra records, a place whose offset is right, or wrong but not in the
file; with some, a window that starts before the last record of the file, or
behind everything. -/
def Placed : Prop :=
  if f.nextra = 0 then
    f.size * (id - 1) < 2 ^ 31 ∨ number = 0 ∨ toInt (f.size * ((id : Int) - 1)) < 0 ∨
      f.size * f.filetotal < toInt (f.size * ((id : Int) - 1)) + f.size
  else
    id < f.filetotal ∨ f.filetotal + f.nextra < id ∨
      (number = 0 ∧ id = f.filetotal + f.nextra)

theorem length_window :
    (f.window id number).length =
      f.size * min number (f.filetotal + f.nextra - (id - 1)) := by
  rw [window, List.length_take, List.length_drop, List.length_append, f.main_length,
    f.extra_length, ← Nat.mul_add, ← Nat.mul_sub, Nat.mul_min_mul_left]

theorem size_pos : 0 < f.size := Nat.lt_of_lt_of_le Nat.zero_lt_two f.size_ge

theorem window_count :
    (f.window id number).length / f.size =
      min number (f.filetotal + f.nextra - (id - 1)) := by
  rw [length_window, Nat.mul_div_cancel_left _ f.size_pos]

/-- The part of the window that lies in the file. -/
def mainPart : List UInt8 := (f.main.drop (f.size * (id - 1))).take (f.size * number)

theorem length_mainPart :
    (f.mainPart id number).length = f.size * min number (f.filetotal - (id - 1)) := by
  rw [mainPart, List.length_take, List.length_drop, f.main_length, ← Nat.mul_sub,
    Nat.mul_min_mul_left]

variable {f id number}

theorem offset_eq (hid : 1 ≤ id) :
    ((f.size * (id - 1) : Nat) : Int) = f.size * ((id : Int) - 1) := by
  rw [Nat.cast_mul, Nat.cast_sub hid, Nat.cast_one]

/-- `get_records` reads that part, as long as its offset fits an `int`. -/
theorem getRecords_main (hid : 1 ≤ id) (hoff : f.size * (id - 1) < 2 ^ 31) (rptr : List UInt8) :
    getRecords (some f.main) rptr f.size id number =
      (((min number (f.filetotal - (id - 1)) : Nat) : Int),
        f.mainPart id number ++ rptr.drop (f.mainPart id number).length) := by
  have hint : toInt (f.size * ((id : Int) - 1)) = (f.size * (id - 1) : Nat) := by
    rw [← offset_eq hid]
    exact toInt_of_range (by omega) (by omega)
  unfold getRecords
  simp only [hint, if_neg (show ¬((f.size * (id - 1) : Nat) : Int) < 0 by omega),
    Int.toNat_natCast]
  have hlen := f.length_mainPart id number
  rw [mainPart] at hlen
  rw [mainPart, hlen, Nat.mul_div_cancel_left _ f.size_pos]

/-- The window goes on in the buffer behind the part that lies in the file. -/
theorem window_eq (hid : id - 1 ≤ f.filetotal) (number : Nat) :
    f.window id number = f.mainPart id number ++
      f.extra.take (min (number - min number (f.filetotal - (id - 1))) f.nextra * f.size) := by
  have hle : f.size * (id - 1) ≤ f.main.length := by
    rw [f.main_length]
    exact Nat.mul_le_mul_left _ hid
  have hrest : f.size * number - (f.main.drop (f.size * (id - 1))).length =
      f.size * (number - min number (f.filetotal - (id - 1))) := by
    rw [List.length_drop, f.main_length, ← Nat.mul_sub, ← Nat.mul_sub]
    congr 1
    omega
  have hextra : ∀ k, f.extra.take (f.size * k) = f.extra.take (min k f.nextra * f.size) := by
    intro k
    rcases Nat.le_total k f.nextra with hk | hk
    · rw [Nat.min_eq_left hk, Nat.mul_comm]
    · rw [Nat.min_eq_right hk, List.take_of_length_le, List.take_of_length_le]
      · rw [f.extra_length, Nat.mul_comm]
      · rw [f.extra_length]
        exact Nat.mul_le_mul_left _ hk
  rw [window, List.drop_append_of_le_length hle, List.take_append, hrest, hextra, mainPart]

/-! ## Windows that are read right -/

/-- Without extra records. -/
theorem reads_none_iff (hid : 1 ≤ id) (hextra : f.nextra = 0) :
    f.Reads id number ↔ f.Placed id number := by
  have hsize := f.size_pos
  have hmain : f.size * f.filetotal < 2 ^ 31 := by
    rw [← f.main_length]
    exact f.main_lt
  have hnil : f.extra = [] := List.length_eq_zero_iff.mp (by rw [f.extra_length, hextra, Nat.mul_zero])
  have hwindow : f.window id number = f.mainPart id number := by
    rw [window, mainPart, hnil, List.append_nil]
  rw [Placed, if_pos hextra]
  by_cases hoff : f.size * (id - 1) < 2 ^ 31
  · refine iff_of_true (fun rptr _ => ?_) (Or.inl hoff)
    refine ⟨_, ?_, hwindow ▸ List.prefix_append _ (rptr.drop (f.mainPart id number).length)⟩
    rw [getRecordsExtra, if_pos hextra, getRecords_main hid hoff, hwindow, length_mainPart,
      Nat.mul_div_cancel_left _ hsize]
  · have hempty : f.window id number = [] := by
      rw [hwindow, mainPart, List.drop_of_length_le (by rw [f.main_length]; omega), List.take_nil]
    by_cases hneg : toInt (f.size * ((id : Int) - 1)) < 0
    · refine iff_of_true (fun rptr _ => ?_) (Or.inr (Or.inr (Or.inl hneg)))
      refine ⟨rptr, ?_, hempty ▸ List.nil_prefix⟩
      rw [getRecordsExtra, if_pos hextra, getRecords]
      simp [hneg, hempty]
    · obtain ⟨o, ho⟩ := Int.eq_ofNat_of_zero_le (Int.not_lt.mp hneg)
      have hread : ∀ rptr, getRecords (some f.main) rptr f.size id number =
          (((((f.main.drop o).take (f.size * number)).length / f.size : Nat) : Int),
            (f.main.drop o).take (f.size * number) ++
              rptr.drop ((f.main.drop o).take (f.size * number)).length) := by
        intro rptr
        unfold getRecords
        simp only [ho, if_neg (show ¬((o : Nat) : Int) < 0 by omega), Int.toNat_natCast]
      have hlen : ((f.main.drop o).take (f.size * number)).length =
          min (f.size * number) (f.size * f.filetotal - o) := by
        rw [List.length_take, List.length_drop, f.main_length]
      have hzero : ((f.main.drop o).take (f.size * number)).length / f.size = 0 ↔
          number = 0 ∨ f.size * f.filetotal < o + f.size := by
        rw [Nat.div_eq_zero_iff_lt hsize, hlen]
        rcases Nat.eq_zero_or_pos number with rfl | hpos
        · rw [Nat.mul_zero, Nat.zero_min]
          exact iff_of_true hsize (Or.inl rfl)
        · have hone : f.size ≤ f.size * number := Nat.le_mul_of_pos_right _ hpos
          omega
      have hplaced : (number = 0 ∨ f.size * f.filetotal < o + f.size) ↔
          (f.size * (id - 1) < 2 ^ 31 ∨ number = 0 ∨ toInt (f.size * ((id : Int) - 1)) < 0 ∨
            f.size * f.filetotal < toInt (f.size * ((id : Int) - 1)) + f.size) := by
        rw [ho]
        omega
      rw [← hplaced, ← hzero]
      constructor
      · intro h
        obtain ⟨rptr', heq, -⟩ := h (List.replicate (f.size * number) 0) List.length_replicate
        rw [getRecordsExtra, if_pos hextra, hread, hempty, List.length_nil, Nat.zero_div,
          Option.some.injEq, Prod.mk.injEq] at heq
        exact Int.ofNat_inj.mp heq.1
      · intro h rptr _
        rw [getRecordsExtra, if_pos hextra, hread, h, hempty, List.length_nil, Nat.zero_div]
        exact ⟨_, rfl, List.nil_prefix⟩

/-- A window that starts before the last record of the file. -/
theorem reads_of_lt (hid : 1 ≤ id) (hextra : f.nextra ≠ 0) (hlt : id < f.filetotal) :
    f.Reads id number := by
  have hoff : f.size * (id - 1) < 2 ^ 31 := by
    refine Nat.lt_of_le_of_lt ?_ f.main_lt
    rw [f.main_length]
    exact Nat.mul_le_mul_left _ (by omega)
  intro rptr hrptr
  have hwindow := f.window_eq (show id - 1 ≤ f.filetotal by omega) number
  have hcount := f.window_count id number
  have hlen := f.length_mainPart id number
  rw [getRecordsExtra, if_neg hextra, if_pos hlt, getRecords_main hid hoff, hcount]
  generalize hk : min number (f.filetotal - (id - 1)) = k at hlen hwindow ⊢
  simp only [if_neg (show ¬((k : Nat) : Int) < 0 by omega), Int.toNat_natCast]
  generalize hm : min (number - k) f.nextra = m at hwindow ⊢
  have hsrc : (f.extra.take (m * f.size)).length = m * f.size := by
    rw [List.length_take, f.extra_length, Nat.mul_comm f.size]
    exact Nat.min_eq_left (Nat.mul_le_mul_right _ (by omega))
  have hroom : k * f.size + m * f.size ≤ f.size * number := by
    rw [← Nat.add_mul, Nat.mul_comm f.size]
    exact Nat.mul_le_mul_right _ (by omega)
  have hplace : (f.mainPart id number).length = k * f.size := by rw [hlen, Nat.mul_comm]
  have hbuf : (f.mainPart id number ++ rptr.drop (f.mainPart id number).length).length =
      f.size * number := by
    rw [List.length_append, List.length_drop, hplace, hrptr]
    omega
  rw [memcpyAt, if_pos (by rw [hsrc, hbuf]; exact hroom), Option.map_some,
    List.take_append_of_le_length hplace.ge, List.take_of_length_le hplace.le, ← hwindow]
  have hret : min number (f.filetotal + f.nextra - (id - 1)) = k + m := by omega
  rw [hret]
  exact ⟨_, rfl, List.prefix_append _ _⟩

/-- A window that starts in the last record of the file, or behind it. -/
theorem not_reads {n : Nat} (hid : id = f.filetotal + n) (hn : n < f.nextra) :
    ¬ f.Reads id number := by
  intro h
  have hsize := f.size_ge
  have hsrc : ((f.extra.drop (n * f.size)).take (f.nextra - n)).length = f.nextra - n := by
    rw [List.length_take, List.length_drop, f.extra_length, Nat.mul_comm f.size, ← Nat.sub_mul]
    exact Nat.min_eq_left (Nat.le_mul_of_pos_right _ f.size_pos)
  have hcount := f.window_count id number
  have hlen := f.length_window id number
  have hread : ∀ rptr, getRecordsExtra (some f.main) rptr f.size id number f.filetotal f.extra
      f.nextra = (memcpyAt rptr 0 ((f.extra.drop (n * f.size)).take (f.nextra - n))).map
        fun rptr => (((f.nextra - n : Nat) : Int), rptr) := by
    intro rptr
    have hsub : id - f.filetotal = n := by omega
    rw [getRecordsExtra, if_neg (by omega), if_neg (by omega)]
    simp only [hsub, if_neg (show ¬f.nextra ≤ n by omega)]
  generalize (f.extra.drop (n * f.size)).take (f.nextra - n) = src at hsrc hread
  generalize min number (f.filetotal + f.nextra - (id - 1)) = count at hcount hlen
  have hback : ∀ rptr : List UInt8, rptr.length = f.size * number →
      f.nextra - n = count ∧ f.window id number <+: src ++ rptr.drop src.length := by
    intro rptr hrptr
    obtain ⟨rptr', heq, hin⟩ := h rptr hrptr
    rw [hread, hcount, Option.map_eq_some_iff] at heq
    obtain ⟨mem, hmem, hret⟩ := heq
    rw [Prod.mk.injEq] at hret
    obtain ⟨hret, rfl⟩ := hret
    rw [memcpyAt] at hmem
    split at hmem
    · rw [Option.some.injEq] at hmem
      rw [← hmem, List.take_zero, List.nil_append, Nat.zero_add] at hin
      exact ⟨Int.ofNat_inj.mp hret, hin⟩
    · cases hmem
  have hsame := (hback (List.replicate (f.size * number) 0) List.length_replicate).1
  have hshort : src.length < (f.window id number).length := by
    rw [hsrc, hlen, hsame]
    exact Nat.lt_of_lt_of_le (show count < 2 * count by omega) (Nat.mul_le_mul_right _ hsize)
  have hfits : (f.window id number).length ≤ f.size * number := List.length_take_le _ _
  obtain ⟨rptr, hrptr, hnot⟩ := exists_not_prefix hshort hfits
  exact hnot (hback rptr hrptr).2

theorem reads_behind_iff (hid : 1 ≤ id) (hextra : f.nextra ≠ 0)
    (hbehind : f.filetotal + f.nextra ≤ id) :
    f.Reads id number ↔ f.filetotal + f.nextra < id ∨
      (number = 0 ∧ id = f.filetotal + f.nextra) := by
  have hcount := f.window_count id number
  have hlen := f.length_window id number
  have hread : ∀ rptr, getRecordsExtra (some f.main) rptr f.size id number f.filetotal f.extra
      f.nextra = some (0, rptr) := by
    intro rptr
    rw [getRecordsExtra, if_neg hextra, if_neg (by omega)]
    exact if_pos (by omega)
  have hzero : min number (f.filetotal + f.nextra - (id - 1)) = 0 ↔
      f.filetotal + f.nextra < id ∨ (number = 0 ∧ id = f.filetotal + f.nextra) := by omega
  rw [← hzero]
  constructor
  · intro h
    obtain ⟨rptr', heq, -⟩ := h (List.replicate (f.size * number) 0) List.length_replicate
    rw [hread, hcount, Option.some.injEq, Prod.mk.injEq] at heq
    omega
  · intro h rptr _
    rw [h, Nat.mul_zero, List.length_eq_zero_iff] at hlen
    rw [hread, hcount, h, hlen]
    exact ⟨rptr, rfl, List.nil_prefix⟩

/-- Three records of two bytes in the file and one in the buffer. -/
def threeAndOne : TwoFiles where
  size := 2
  filetotal := 3
  nextra := 1
  main := [1, 1, 2, 2, 3, 3]
  extra := [4, 4]
  size_ge := by decide
  main_length := by decide
  extra_length := by decide
  main_lt := by decide

end TwoFiles

end Ytht
