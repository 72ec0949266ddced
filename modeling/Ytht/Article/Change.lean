import Ytht.Article.Records
import Ytht.Lib.Bytes

/-!
# Article.Change

`change_dir`: one record of a directory is looked up, updated by a callback and
written back where it came from.

A `fileinfo` without a filetime stands for whatever record the hint names, as
the look-up documents.  With one, the record that changes is the record that
has it, and no other.
-/

namespace Ytht

open Bytes

/-- `sizeof (struct fileheader)`. -/
abbrev fileHeaderSize : Nat := 128

/-- What the callback returns, and the record as it leaves it.  The source
declares the callback to return a pointer: where a compiler takes no pointer to
be below 0, it is one that never refuses. -/
abbrev DirUpdate := FileHeader → FileHeader → Int × FileHeader

/-- What the system calls of one run do. -/
structure ChangeIo where
  opens : Bool
  locks : Bool
  maps : Bool
  seeks : Bool
  /-- The file that is left by a write that fails. -/
  torn : Option (List FileHeader)

/-- What a run returns, the file after it and `*fileinfo`. -/
structure Changed where
  ret : Int
  recs : List FileHeader
  fileinfo : FileHeader
  deriving DecidableEq

/-- `change_dir`.  `stackInfo` is what `newfileinfo` holds when `mode` does not
ask for it; a file that is too large for a 31-bit size is not opened. -/
def changeDir (io : ChangeIo) (recs : List FileHeader) (fileinfo stackInfo : FileHeader)
    (func : DirUpdate) (ent digestmode mode : Int) : Changed :=
  if digestmode ≠ 0 then ⟨-1, recs, fileinfo⟩
  else if io.opens = false ∨ 2 ^ 31 ≤ fileHeaderSize * recs.length then ⟨-2, recs, fileinfo⟩
  else if io.locks = false then ⟨-4, recs, fileinfo⟩
  else
    let newfileinfo := if mode ≠ 0 then fileinfo else stackInfo
    let found :=
      if io.maps then getFileheaderRecords recs fileinfo.filetime (ent - 1) true 0 1 none ()
      else none
    match found with
    | some ((xfh, newent) :: _, _) =>
        let (cbret, xfh) := func xfh newfileinfo
        let offset := toInt (fileHeaderSize * newent)
        if cbret < 0 then ⟨-1, recs, fileinfo⟩
        else if io.seeks = false ∨ offset < 0 then ⟨-5, recs, fileinfo⟩
        else
          match io.torn with
          | some recs => ⟨-6, recs, fileinfo⟩
          | none => ⟨0, recs.set (offset.toNat / fileHeaderSize) xfh, xfh⟩
    | _ => ⟨-3, recs, fileinfo⟩

/-- The record with a filetime, and it alone, goes through an update. -/
def Replaces (recs recs' : List FileHeader) (filetime : Int) (update : FileHeader → FileHeader) :
    Prop :=
  (∃ fh ∈ recs, fh.filetime = filetime) ∧
    recs' = recs.map fun fh => if fh.filetime = filetime then update fh else fh

/-- A window of one record. -/
theorem getFileheaderRecords_one (recs : List FileHeader) (filetime hintEnt : Int) :
    getFileheaderRecords recs filetime hintEnt true 0 1 none () =
      (findEnt recs filetime hintEnt true).map fun ent => ([slot recs ent], ()) := by
  unfold getFileheaderRecords
  cases findEnt recs filetime hintEnt true <;> rfl

/-- Where the look-up ends is in the file, with the filetime if there is one and
at the hint if not. -/
theorem findEnt_cases {recs : List FileHeader} {filetime hintEnt e : Int}
    (h : findEnt recs filetime hintEnt true = some e) :
    ∃ i : Nat, e = i ∧ i < recs.length ∧
      (filetime ≠ 0 → (recAt recs i).filetime = filetime) ∧ (filetime = 0 → hintEnt = i) := by
  by_cases hft : filetime = 0
  · subst hft
    by_cases hin : 0 ≤ hintEnt ∧ hintEnt < recs.length
    · rw [findEnt, if_pos hin, if_pos (Or.inl rfl), Option.filter_eq_some_iff, Option.some.injEq]
        at h
      obtain ⟨rfl, -⟩ := h
      obtain ⟨i, rfl⟩ := Int.eq_ofNat_of_zero_le hin.1
      exact ⟨i, rfl, by omega, fun hne => absurd rfl hne, fun _ => rfl⟩
    · rw [findEnt, if_neg hin, if_pos rfl] at h
      cases h
  · obtain ⟨hlow, hhigh, hkey, -⟩ := findEnt_hit hft h
    obtain ⟨i, rfl⟩ := Int.eq_ofNat_of_zero_le hlow
    exact ⟨i, rfl, by omega, fun _ => hkey, fun h0 => absurd h0 hft⟩

/-- In a sorted file the record at one index is the record with its filetime. -/
theorem set_eq_map {recs : List FileHeader} (hsorted : SortedByTime recs) {i : Nat}
    (hi : i < recs.length) (update : FileHeader → FileHeader) :
    recs.set i (update (recAt recs i)) =
      recs.map fun fh => if fh.filetime = (recAt recs i).filetime then update fh else fh := by
  refine List.ext_getElem (by simp) fun j hj hj' => ?_
  rw [List.length_set] at hj
  rw [List.getElem_map, List.getElem_set, ← recAt_eq_getElem hj]
  by_cases hij : i = j
  · rw [if_pos hij, hij, if_pos rfl]
  · rw [if_neg hij, if_neg]
    intro hkey
    exact hij (hsorted.index_unique hi hj hkey.symm)

/-- What a run that returns 0 has done: it found a record and wrote it back. -/
theorem changeDir_cases (io : ChangeIo) (recs : List FileHeader) (fileinfo stackInfo : FileHeader)
    (func : DirUpdate) (ent digestmode mode : Int) :
    let r := changeDir io recs fileinfo stackInfo func ent digestmode mode
    (r.ret = 0 ∧ ∃ i : Nat, i < recs.length ∧
        (fileinfo.filetime ≠ 0 → (recAt recs i).filetime = fileinfo.filetime) ∧
        (fileinfo.filetime = 0 → ent - 1 = i) ∧
        r.recs = recs.set i
          (func (recAt recs i) (if mode ≠ 0 then fileinfo else stackInfo)).2) ∨
      (r.ret < 0 ∧ (r.recs = recs ∨ io.torn.isSome = true)) := by
  have hkept : ∀ ret : Int, ret < 0 →
      (⟨ret, recs, fileinfo⟩ : Changed).ret < 0 ∧
        ((⟨ret, recs, fileinfo⟩ : Changed).recs = recs ∨ io.torn.isSome = true) :=
    fun ret hret => ⟨hret, Or.inl rfl⟩
  intro r
  simp only [r, changeDir]
  generalize (if mode ≠ 0 then fileinfo else stackInfo) = info
  split
  · exact Or.inr (hkept (-1) (by decide))
  split
  · exact Or.inr (hkept (-2) (by decide))
  next hopens =>
  split
  · exact Or.inr (hkept (-4) (by decide))
  split
  · next xfh newent rest cbArg hfound =>
    split at hfound
    · rw [getFileheaderRecords_one, Option.map_eq_some_iff] at hfound
      obtain ⟨e, he, hslots⟩ := hfound
      obtain ⟨i, rfl, hi, hkey, hhint⟩ := findEnt_cases he
      have hslot : slot recs i = (recAt recs i, (i : Int)) := if_pos (by omega)
      rw [hslot] at hslots
      obtain ⟨⟨rfl, rfl⟩, -⟩ := by simpa using hslots
      have hsize : (fileHeaderSize : Int) * i = 128 * i := rfl
      have hend : fileHeaderSize * recs.length = 128 * recs.length := rfl
      have hoff : toInt (fileHeaderSize * i) = 128 * i := by
        rw [hsize]
        exact toInt_of_range (by omega) (by omega)
      rw [hoff]
      split
      · exact Or.inr (hkept (-1) (by decide))
      split
      · exact Or.inr (hkept (-5) (by decide))
      split
      · next torn htorn =>
        rw [htorn]
        exact Or.inr ⟨show (-6 : Int) < 0 by decide, Or.inr rfl⟩
      · refine Or.inl ⟨rfl, i, hi, hkey, hhint, ?_⟩
        have hback : ((128 : Int) * i).toNat / 128 = i := by omega
        rw [fileHeaderSize, hback]
    · cases hfound
  · exact Or.inr (hkept (-3) (by decide))

/-- **One record changes**: a run that returns 0 has put the record with the
filetime of `fileinfo` through the update, or the record at the hint if
`fileinfo` has none; a run that fails leaves the file, unless the write failed. -/
theorem changeDir_replaces {recs : List FileHeader} (hsorted : SortedByTime recs) (io : ChangeIo)
    (fileinfo stackInfo : FileHeader) (func : DirUpdate) (ent digestmode mode : Int) :
    let r := changeDir io recs fileinfo stackInfo func ent digestmode mode
    let update := fun fh => (func fh (if mode ≠ 0 then fileinfo else stackInfo)).2
    (r.ret = 0 ∧
        if fileinfo.filetime = 0 then
          1 ≤ ent ∧ ent ≤ recs.length ∧
            r.recs = recs.set (ent - 1).toNat (update (recAt recs (ent - 1)))
        else Replaces recs r.recs fileinfo.filetime update) ∨
      (r.ret < 0 ∧ (r.recs = recs ∨ io.torn.isSome = true)) := by
  intro r update
  rcases changeDir_cases io recs fileinfo stackInfo func ent digestmode mode with
    ⟨hret, i, hi, hkey, hhint, hrecs⟩ | hkept
  · refine Or.inl ⟨hret, ?_⟩
    split
    · next hft =>
      have hent := hhint hft
      rw [hent, Int.toNat_natCast]
      exact ⟨by omega, by omega, hrecs⟩
    · next hft =>
      have hkey := hkey hft
      refine ⟨⟨recAt recs i, ?_, hkey⟩, ?_⟩
      · rw [recAt_eq_getElem hi]
        exact List.getElem_mem hi
      · rw [← hkey]
        exact hrecs.trans (set_eq_map hsorted hi update)
  · exact Or.inr hkept

/-- Everything works. -/
def smoothChange : ChangeIo := ⟨true, true, true, true, none⟩

/-- The update that marks a record. -/
def markRecord : DirUpdate := fun fh _ => (0, { fh with accessed := 4 })

theorem changeDir_replaces_second :
    let r := changeDir smoothChange twoRecords { zeroHeader with filetime := 2 } zeroHeader
      markRecord 2 0 0
    let update := fun fh => (markRecord fh (if (0 : Int) ≠ 0 then
      { zeroHeader with filetime := 2 } else zeroHeader)).2
    (r.ret = 0 ∧
        if ({ zeroHeader with filetime := 2 } : FileHeader).filetime = 0 then
          1 ≤ (2 : Int) ∧ (2 : Int) ≤ twoRecords.length ∧
            r.recs = twoRecords.set (2 - 1 : Int).toNat (update (recAt twoRecords (2 - 1)))
        else Replaces twoRecords r.recs 2 update) ∨
      (r.ret < 0 ∧ (r.recs = twoRecords ∨ smoothChange.torn.isSome = true)) :=
  changeDir_replaces sorted_twoRecords smoothChange { zeroHeader with filetime := 2 } zeroHeader
    markRecord 2 0 0

/-- Without a filetime the record at the hint changes, which has another one. -/
theorem changeDir_zero_filetime :
    ¬ ∀ recs, SortedByTime recs → ∀ (io : ChangeIo) (fileinfo stackInfo : FileHeader)
      (func : DirUpdate), (∀ fh info, (func fh info).2.filetime = fh.filetime) →
      ∀ ent digestmode mode : Int,
        let r := changeDir io recs fileinfo stackInfo func ent digestmode mode
        (r.ret = 0 ∧ Replaces recs r.recs fileinfo.filetime
            fun fh => (func fh (if mode ≠ 0 then fileinfo else stackInfo)).2) ∨
          (r.ret < 0 ∧ (r.recs = recs ∨ io.torn.isSome = true)) := by
  intro hall
  have hret : (changeDir smoothChange twoRecords zeroHeader zeroHeader markRecord 1 0 0).ret = 0 := by
    decide
  rcases hall twoRecords sorted_twoRecords smoothChange zeroHeader zeroHeader markRecord
    (fun _ _ => rfl) 1 0 0 with ⟨-, ⟨fh, hmem, hkey⟩, -⟩ | ⟨hneg, -⟩
  · revert fh
    decide
  · rw [hret] at hneg
    exact absurd hneg (by decide)

end Ytht
