import Mathlib.Data.List.Basic

/-!
# Lib.File

A file as a list of bytes, read and written at an offset.  A write past the end
fills the hole with zeros.
-/

namespace File

/-- `read` of `n` bytes at an offset.  It stops at the end of the file. -/
def readAt (file : List UInt8) (pos n : Nat) : List UInt8 := (file.drop pos).take n

/-- `write` at an offset. -/
def writeAt (file : List UInt8) (pos : Nat) (bytes : List UInt8) : List UInt8 :=
  file.take pos ++ List.replicate (pos - file.length) 0 ++ bytes ++
    file.drop (pos + bytes.length)

/-- `lseek` to an offset, which fails and moves nothing when that is negative. -/
def seek (old : Nat) (pos : Int) : Nat := if pos < 0 then old else pos.toNat

theorem seek_natCast (old pos : Nat) : seek old pos = pos := by
  rw [seek, if_neg (by omega), Int.toNat_natCast]

theorem writeAt_end {file : List UInt8} {pos : Nat} (h : pos = file.length) (bytes : List UInt8) :
    writeAt file pos bytes = file ++ bytes := by
  subst h
  simp [writeAt]

/-- Bytes at the front are replaced by as many. -/
theorem writeAt_front {old bytes : List UInt8} (h : old.length = bytes.length)
    (file : List UInt8) : writeAt (old ++ file) 0 bytes = bytes ++ file := by
  simp [writeAt, ← h]

theorem readAt_append {before bytes : List UInt8} {pos n : Nat} (hpos : before.length = pos)
    (hn : bytes.length = n) (after : List UInt8) :
    readAt (before ++ bytes ++ after) pos n = bytes := by
  subst hpos hn
  simp [readAt]

theorem readAt_front {bytes : List UInt8} {n : Nat} (hn : bytes.length = n)
    (after : List UInt8) : readAt (bytes ++ after) 0 n = bytes := by
  subst hn
  simp [readAt]

/-! ## Records of one size -/

section Records

variable {α : Type} {enc : α → List UInt8} {size : Nat}

theorem length_flatMap_records (henc : ∀ r, (enc r).length = size) (recs : List α) :
    (recs.flatMap enc).length = recs.length * size := by
  induction recs with
  | nil => simp
  | cons r recs ih =>
      rw [List.flatMap_cons, List.length_append, henc, ih, List.length_cons, Nat.succ_mul,
        Nat.add_comm]

/-- The record at an index, behind a header. -/
theorem readAt_record (henc : ∀ r, (enc r).length = size) (head : List UInt8) {recs : List α}
    {k : Nat} {r : α} (h : recs[k]? = some r) :
    readAt (head ++ recs.flatMap enc) (k * size + head.length) size = enc r := by
  obtain ⟨hk, rfl⟩ := List.getElem?_eq_some_iff.mp h
  have hflat : recs.flatMap enc =
      (recs.take k).flatMap enc ++ (enc recs[k] ++ (recs.drop (k + 1)).flatMap enc) := by
    rw [← List.flatMap_cons, ← List.flatMap_append, ← List.drop_eq_getElem_cons hk,
      List.take_append_drop]
  have hpos : (head ++ (recs.take k).flatMap enc).length = k * size + head.length := by
    rw [List.length_append, length_flatMap_records henc, List.length_take]
    rw [Nat.min_eq_left (Nat.le_of_lt hk), Nat.add_comm]
  rw [hflat, ← List.append_assoc, ← List.append_assoc, readAt_append hpos (henc _)]

end Records

end File
