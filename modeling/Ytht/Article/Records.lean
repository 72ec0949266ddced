import Ytht.Article.Dir

/-!
# Article.Records

`_get_fileheader_records`: a window of records around the one with a given
filetime, which is looked up from a hint.

With `dir_sorted` only the records up to the hint are searched, so one behind a
hint that lies in the file is not found; `getFileheaderRecords_agree_iff` says
that this is the only difference between the two modes.
-/

namespace Ytht

def naIndex : Int := -1

/-! ## The look-up -/

/-- `for (i = hint_ent; i >= 0; i--)`, with `i + 1` records to look at. -/
def scanDown (recs : List FileHeader) (filetime : Int) : Nat → Int
  | 0 => naIndex
  | i + 1 => if (recAt recs i).filetime = filetime then i else scanDown recs filetime i

/-- `for (i = hint_ent; i < total; i++)`, with `k` records to look at. -/
def scanUp (recs : List FileHeader) (filetime : Int) : Nat → Int → Int
  | 0, _ => naIndex
  | k + 1, i => if (recAt recs i).filetime = filetime then i else scanUp recs filetime k (i + 1)

/-- The record is not at the hint.  In an empty file the second loop begins at
index -1: whatever lies there, `ent` is `NA_INDEX` afterwards. -/
def relocate (recs : List FileHeader) (filetime hintEnt : Int) (dirSorted : Bool) : Int :=
  if dirSorted then searchBin recs filetime 0 hintEnt
  else
    let ent := scanDown recs filetime (hintEnt + 1).toNat
    if ent = naIndex then scanUp recs filetime (recs.length - hintEnt).toNat hintEnt else ent

/-- `ent`, up to the test of its range; `none` for the early return. -/
def findEnt (recs : List FileHeader) (filetime hintEnt : Int) (dirSorted : Bool) : Option Int :=
  let total : Int := recs.length
  let ent : Option Int :=
    if 0 ≤ hintEnt ∧ hintEnt < total then
      if filetime = 0 ∨ (recAt recs hintEnt).filetime = filetime then some hintEnt
      else some (relocate recs filetime hintEnt dirSorted)
    else if filetime = 0 then none
    else some (relocate recs filetime (total - 1) dirSorted)
  ent.filter fun ent => decide (0 ≤ ent ∧ ent < total)

/-! ## The window -/

variable {σ : Type}

/-- What the callback says of a record near the centre: 1 to take it, -1 to stop,
anything else to go on. -/
abbrev WindowCallback (σ : Type) := FileHeader → FileHeader → Int → σ → Int × σ

section Window

variable (recs : List FileHeader) (ent : Int) (callback : WindowCallback σ)

/-- `while (j >= 0)`, from `j` down to 0; the index where it ends. -/
def seekDown : Nat → σ → Int × σ
  | 0, cbArg => (-1, cbArg)
  | j + 1, cbArg =>
      let (cbret, cbArg) := callback (recAt recs ent) (recAt recs j) (j - ent) cbArg
      if cbret = -1 then (-1, cbArg)
      else if cbret = 1 then (j, cbArg)
      else seekDown j cbArg

/-- `while (j < total)`, with `k` records to look at. -/
def seekUp : Nat → Int → σ → Int × σ
  | 0, _, cbArg => (recs.length, cbArg)
  | k + 1, j, cbArg =>
      let (cbret, cbArg) := callback (recAt recs ent) (recAt recs j) (j - ent) cbArg
      if cbret = -1 then (recs.length, cbArg)
      else if cbret = 1 then (j, cbArg)
      else seekUp k (j + 1) cbArg

end Window

/-- `rs` and `index` of a slot that shows record `j`, or nothing. -/
def slot (recs : List FileHeader) (j : Int) : FileHeader × Int :=
  if 0 ≤ j ∧ j < recs.length then (recAt recs j, j) else (zeroHeader, naIndex)

/-- The slots before the centre, from `base - 1` down. -/
def fillDown (recs : List FileHeader) (ent : Int) (callback : Option (WindowCallback σ)) :
    Nat → Int → σ → List (FileHeader × Int) × σ
  | 0, _, cbArg => ([], cbArg)
  | i + 1, j, cbArg =>
      let j := j - 1
      let (j, cbArg) :=
        match callback with
        | some callback => if j < 0 then (j, cbArg) else seekDown recs ent callback (j + 1).toNat cbArg
        | none => (j, cbArg)
      let (slots, cbArg) := fillDown recs ent callback i j cbArg
      (slot recs j :: slots, cbArg)

/-- The slots behind the centre. -/
def fillUp (recs : List FileHeader) (ent : Int) (callback : Option (WindowCallback σ)) :
    Nat → Int → σ → List (FileHeader × Int) × σ
  | 0, _, cbArg => ([], cbArg)
  | i + 1, j, cbArg =>
      let j := j + 1
      let (j, cbArg) :=
        match callback with
        | some callback =>
            if recs.length ≤ j then (j, cbArg)
            else seekUp recs ent callback (recs.length - j).toNat j cbArg
        | none => (j, cbArg)
      let (slots, cbArg) := fillUp recs ent callback i j cbArg
      (slot recs j :: slots, cbArg)

/-- `base`: where the window has the record that is looked up. -/
def baseSlot (resultcentered count : Int) : Option Nat :=
  if count ≤ 0 then none
  else if resultcentered = 1 then some 0
  else if resultcentered = 2 then some (count - 1).toNat
  else if resultcentered = 0 then some (count / 2).toNat
  else none

/-- `_get_fileheader_records`: the slots of `rs` and `index`, or `none` for the
result -1. -/
def getFileheaderRecords (recs : List FileHeader) (filetime hintEnt : Int) (dirSorted : Bool)
    (resultcentered count : Int) (callback : Option (WindowCallback σ)) (cbArg : σ) :
    Option (List (FileHeader × Int) × σ) := do
  let base ← baseSlot resultcentered count
  let ent ← findEnt recs filetime hintEnt dirSorted
  let (before, cbArg) := fillDown recs ent callback base ent cbArg
  let (behind, cbArg) := fillUp recs ent callback (count.toNat - 1 - base) ent cbArg
  some (before.reverse ++ slot recs ent :: behind, cbArg)

/-! ## The loops of the unsorted mode -/

theorem scanDown_spec (recs : List FileHeader) (filetime : Int) (n : Nat) :
    (scanDown recs filetime n = naIndex ∧ ∀ i : Nat, i < n → (recAt recs i).filetime ≠ filetime) ∨
      ∃ i : Nat, i < n ∧ scanDown recs filetime n = i ∧ (recAt recs i).filetime = filetime := by
  induction n with
  | zero => exact Or.inl ⟨rfl, fun i hi => absurd hi (Nat.not_lt_zero i)⟩
  | succ n ih =>
      rw [scanDown]
      by_cases hkey : (recAt recs n).filetime = filetime
      · rw [if_pos hkey]
        exact Or.inr ⟨n, Nat.lt_succ_self n, rfl, hkey⟩
      · rw [if_neg hkey]
        cases ih with
        | inl hnone =>
            refine Or.inl ⟨hnone.1, fun i hi => ?_⟩
            rcases Nat.lt_succ_iff_lt_or_eq.mp hi with hlt | rfl
            · exact hnone.2 i hlt
            · exact hkey
        | inr hsome =>
            obtain ⟨i, hi, hscan, hfound⟩ := hsome
            exact Or.inr ⟨i, by omega, hscan, hfound⟩

theorem scanUp_spec (recs : List FileHeader) (filetime : Int) (k n : Nat) :
    (scanUp recs filetime k n = naIndex ∧
        ∀ i : Nat, n ≤ i → i < n + k → (recAt recs i).filetime ≠ filetime) ∨
      ∃ i : Nat, i < n + k ∧ scanUp recs filetime k n = i ∧ (recAt recs i).filetime = filetime := by
  induction k generalizing n with
  | zero => exact Or.inl ⟨rfl, fun i hi hi' => absurd hi' (Nat.not_lt.mpr hi)⟩
  | succ k ih =>
      rw [scanUp]
      by_cases hkey : (recAt recs n).filetime = filetime
      · rw [if_pos hkey]
        exact Or.inr ⟨n, by omega, rfl, hkey⟩
      · rw [if_neg hkey]
        cases ih (n + 1) with
        | inl hnone =>
            refine Or.inl ⟨hnone.1, fun i hi hi' => ?_⟩
            rcases Nat.lt_or_eq_of_le hi with hlt | rfl
            · exact hnone.2 i hlt (by omega)
            · exact hkey
        | inr hsome =>
            obtain ⟨i, hi, hscan, hfound⟩ := hsome
            exact Or.inr ⟨i, by omega, hscan, hfound⟩

/-! ## What the look-up finds -/

section Find

variable {recs : List FileHeader} {filetime hintEnt : Int} {dirSorted : Bool}

/-- Where the search starts: a hint outside the file counts as the last record. -/
def startOf (recs : List FileHeader) (hintEnt : Int) : Int :=
  if 0 ≤ hintEnt ∧ hintEnt < recs.length then hintEnt else recs.length - 1

theorem startOf_spec (h : 0 < recs.length) :
    ∃ n : Nat, n < recs.length ∧ startOf recs hintEnt = n := by
  unfold startOf
  split
  · exact ⟨hintEnt.toNat, by omega, by omega⟩
  · exact ⟨recs.length - 1, by omega, by omega⟩

theorem findEnt_eq (hft : filetime ≠ 0) :
    findEnt recs filetime hintEnt dirSorted =
      (some (if (0 ≤ hintEnt ∧ hintEnt < recs.length) ∧
          (recAt recs hintEnt).filetime = filetime then hintEnt
        else relocate recs filetime (startOf recs hintEnt) dirSorted)).filter
          fun ent : Int => decide (0 ≤ ent ∧ ent < recs.length) := by
  unfold findEnt startOf
  by_cases hin : 0 ≤ hintEnt ∧ hintEnt < recs.length
  · by_cases hkey : (recAt recs hintEnt).filetime = filetime <;> simp [hin, hkey, hft]
  · simp [hin, hft]

/-- A look-up that succeeds ends at a record with the filetime; in a sorted file
not behind the start. -/
theorem relocate_hit {n : Nat} (h : 0 ≤ relocate recs filetime n dirSorted) :
    (recAt recs (relocate recs filetime n dirSorted)).filetime = filetime ∧
      (dirSorted = true → relocate recs filetime n dirSorted ≤ n) := by
  unfold relocate at h ⊢
  cases dirSorted with
  | true =>
      obtain ⟨-, hle, hkey⟩ := searchBin_hit (Int.le_refl 0) h
      exact ⟨hkey, fun _ => hle⟩
  | false =>
      simp only [Bool.false_eq_true, if_false, false_implies, and_true] at h ⊢
      rcases scanDown_spec recs filetime ((n : Int) + 1).toNat with ⟨hdown, -⟩ | ⟨i, -, hdown, hkey⟩
      · rw [if_pos hdown] at h ⊢
        rcases scanUp_spec recs filetime ((recs.length : Int) - n).toNat n with
          ⟨hup, -⟩ | ⟨i, -, hup, hkey⟩
        · rw [hup] at h
          contradiction
        · rwa [hup]
      · rw [hdown, if_neg (by simp [naIndex])]
        exact hkey

/-- The unsorted search misses no record. -/
theorem relocate_unsorted {n : Nat} (hn : n < recs.length) {i : Nat} (hi : i < recs.length)
    (hkey : (recAt recs i).filetime = filetime) :
    ∃ j : Nat, j < recs.length ∧ relocate recs filetime n false = j := by
  simp only [relocate, Bool.false_eq_true, if_false]
  rcases scanDown_spec recs filetime ((n : Int) + 1).toNat with ⟨hdown, hnone⟩ | ⟨j, hj, hdown, -⟩
  · rw [if_pos hdown]
    rcases scanUp_spec recs filetime ((recs.length : Int) - n).toNat n with
      ⟨-, hnone'⟩ | ⟨j, hj, hup, -⟩
    · rcases Nat.lt_or_ge i n with hlt | hge
      · exact absurd hkey (hnone i (by omega))
      · exact absurd hkey (hnone' i hge (by omega))
    · exact ⟨j, by omega, hup⟩
  · rw [hdown, if_neg (by simp [naIndex])]
    exact ⟨j, by omega, rfl⟩

variable (hft : filetime ≠ 0)

include hft

/-- **What the look-up returns** is the index of a record with the filetime, in
sorted mode not behind a hint in the file. -/
theorem findEnt_hit {e : Int} (h : findEnt recs filetime hintEnt dirSorted = some e) :
    0 ≤ e ∧ e < recs.length ∧ (recAt recs e).filetime = filetime ∧
      (dirSorted = true → e ≤ startOf recs hintEnt) := by
  rw [findEnt_eq hft, Option.filter_eq_some_iff, decide_eq_true_iff, Option.some.injEq] at h
  obtain ⟨he, hlow, hhigh⟩ := h
  refine ⟨hlow, hhigh, ?_⟩
  split at he
  · next hin =>
    subst he
    refine ⟨hin.2, fun _ => ?_⟩
    have hstart : startOf recs hintEnt = hintEnt := if_pos hin.1
    exact Int.le_of_eq hstart.symm
  · obtain ⟨n, -, hn⟩ := @startOf_spec recs hintEnt (by omega)
    rw [hn] at he ⊢
    subst he
    exact relocate_hit hlow

section Sorted

variable (hsorted : SortedByTime recs) {i : Nat} (hi : i < recs.length)
  (hkey : (recAt recs i).filetime = filetime)

include hsorted hi hkey

/-- In a sorted file there is one place it can return. -/
theorem findEnt_eq_some_of_isSome (h : (findEnt recs filetime hintEnt dirSorted).isSome = true) :
    findEnt recs filetime hintEnt dirSorted = some (i : Int) := by
  obtain ⟨e, he⟩ := Option.isSome_iff_exists.mp h
  obtain ⟨hlow, hhigh, hkey', -⟩ := findEnt_hit hft he
  obtain ⟨k, rfl⟩ := Int.eq_ofNat_of_zero_le hlow
  rw [he, hsorted.index_unique (show k < recs.length by omega) hi (hkey'.trans hkey.symm)]

theorem findEnt_unsorted : findEnt recs filetime hintEnt false = some (i : Int) := by
  refine findEnt_eq_some_of_isSome hft hsorted hi hkey ?_
  obtain ⟨n, hlt, hn⟩ := @startOf_spec recs hintEnt (by omega)
  obtain ⟨j, hj, hfound⟩ := relocate_unsorted hlt hi hkey
  rw [findEnt_eq hft, hn, hfound]
  split
  · next hin =>
    rw [Option.filter_some, if_pos (by simpa using hin.1)]
    rfl
  · rw [Option.filter_some, if_pos (by simpa using hj)]
    rfl

/-- With `dir_sorted` it is found up to the start of the search, and not behind. -/
theorem findEnt_sorted_iff :
    findEnt recs filetime hintEnt true = some (i : Int) ↔ i ≤ startOf recs hintEnt := by
  constructor
  · intro h
    exact (findEnt_hit hft h).2.2.2 rfl
  · intro hle
    refine findEnt_eq_some_of_isSome hft hsorted hi hkey ?_
    have hhigh : startOf recs hintEnt < recs.length := by
      unfold startOf
      split <;> omega
    have hfound : relocate recs filetime (startOf recs hintEnt) true = i :=
      searchBin_sorted (hsorted.between (Int.le_refl 0) hhigh) (Int.le_refl 0) (by omega) hle hkey
    rw [findEnt_eq hft, hfound]
    split
    · next hin =>
      rw [Option.filter_some, if_pos (by simpa using hin.1)]
      rfl
    · rw [Option.filter_some, if_pos (by simpa using hi)]
      rfl

end Sorted

end Find

/-! ## The window around what is found -/

theorem length_fillDown (recs : List FileHeader) (ent : Int) (callback : Option (WindowCallback σ))
    (n : Nat) (j : Int) (cbArg : σ) : (fillDown recs ent callback n j cbArg).1.length = n := by
  induction n generalizing j cbArg with
  | zero => rfl
  | succ n ih => simp [fillDown, ih]

/-- The call returns 0 when a record has the filetime, and has it then in its
slot; and -1 when none has. -/
def LooksUp (recs : List FileHeader) (filetime : Int) (base : Nat)
    (out : Option (List (FileHeader × Int) × σ)) : Prop :=
  (out.isSome = true ↔ ∃ i : Nat, i < recs.length ∧ (recAt recs i).filetime = filetime) ∧
    ∀ i : Nat, i < recs.length → (recAt recs i).filetime = filetime →
      ∃ slots cbArg, out = some (slots, cbArg) ∧ slots[base]? = some (recAt recs i, (i : Int))

section Agree

variable {recs : List FileHeader} {filetime hintEnt : Int} {dirSorted : Bool}
  {resultcentered count : Int} {base : Nat} (hbase : baseSlot resultcentered count = some base)
  (callback : Option (WindowCallback σ)) (cbArg : σ)

include hbase

theorem getFileheaderRecords_none (h : findEnt recs filetime hintEnt dirSorted = none) :
    getFileheaderRecords recs filetime hintEnt dirSorted resultcentered count callback cbArg =
      none := by
  simp only [getFileheaderRecords, hbase, h]
  rfl

/-- The record that is found is in the slot `base`. -/
theorem getFileheaderRecords_some {i : Nat} (hi : i < recs.length)
    (h : findEnt recs filetime hintEnt dirSorted = some (i : Int)) :
    ∃ slots cbArg', getFileheaderRecords recs filetime hintEnt dirSorted resultcentered count
        callback cbArg = some (slots, cbArg') ∧
      slots[base]? = some (recAt recs i, (i : Int)) := by
  simp only [getFileheaderRecords, hbase, h]
  refine ⟨_, _, rfl, ?_⟩
  have hslot : slot recs (i : Int) = (recAt recs i, (i : Int)) := if_pos (by omega)
  rw [List.getElem?_append_right (by simp [length_fillDown])]
  simp [length_fillDown, hslot]

variable (hft : filetime ≠ 0) (hsorted : SortedByTime recs)

include hft hsorted

theorem looksUp_iff :
    LooksUp recs filetime base (getFileheaderRecords recs filetime hintEnt dirSorted resultcentered
        count callback cbArg) ↔
      ∀ i : Nat, i < recs.length → (recAt recs i).filetime = filetime →
        findEnt recs filetime hintEnt dirSorted = some (i : Int) := by
  constructor
  · rintro ⟨-, hslot⟩ i hi hkey
    obtain ⟨slots, cbArg', hout, -⟩ := hslot i hi hkey
    refine findEnt_eq_some_of_isSome hft hsorted hi hkey ?_
    cases hfind : findEnt recs filetime hintEnt dirSorted with
    | none =>
        rw [getFileheaderRecords_none hbase callback cbArg hfind] at hout
        contradiction
    | some e => rfl
  · intro hfound
    refine ⟨⟨fun hsome => ?_, ?_⟩, fun i hi hkey =>
      getFileheaderRecords_some hbase callback cbArg hi (hfound i hi hkey)⟩
    · cases hfind : findEnt recs filetime hintEnt dirSorted with
      | none =>
          rw [getFileheaderRecords_none hbase callback cbArg hfind] at hsome
          contradiction
      | some e =>
          obtain ⟨hlow, hhigh, hkey, -⟩ := findEnt_hit hft hfind
          obtain ⟨i, rfl⟩ := Int.eq_ofNat_of_zero_le hlow
          exact ⟨i, by omega, hkey⟩
    · rintro ⟨i, hi, hkey⟩
      obtain ⟨slots, cbArg', hout, -⟩ :=
        getFileheaderRecords_some hbase callback cbArg hi (hfound i hi hkey)
      rw [hout]
      rfl

end Agree

/-- **When the two modes agree with the file**: unless the hint is the index of a
record before the one that has the filetime. -/
theorem getFileheaderRecords_agree_iff {recs : List FileHeader} (hsorted : SortedByTime recs)
    {filetime : Int} (hft : filetime ≠ 0) (hintEnt : Int) {resultcentered count : Int} {base : Nat}
    (hbase : baseSlot resultcentered count = some base) (callback : Option (WindowCallback σ))
    (cbArg : σ) :
    (∀ dirSorted, LooksUp recs filetime base (getFileheaderRecords recs filetime hintEnt dirSorted
        resultcentered count callback cbArg)) ↔
      ∀ i : Nat, i < recs.length → (recAt recs i).filetime = filetime → 0 ≤ hintEnt →
        hintEnt < recs.length → i ≤ hintEnt := by
  have hstart : ∀ i : Nat, i < recs.length → (i ≤ startOf recs hintEnt ↔
      (0 ≤ hintEnt → hintEnt < recs.length → i ≤ hintEnt)) := by
    intro i hi
    unfold startOf
    split <;> omega
  constructor
  · intro hall i hi hkey
    have hfound := (looksUp_iff hbase callback cbArg hft hsorted).mp (hall true) i hi hkey
    exact (hstart i hi).mp ((findEnt_sorted_iff hft hsorted hi hkey).mp hfound)
  · intro hcond dirSorted
    refine (looksUp_iff hbase callback cbArg hft hsorted).mpr fun i hi hkey => ?_
    cases dirSorted with
    | true => exact (findEnt_sorted_iff hft hsorted hi hkey).mpr ((hstart i hi).mpr (hcond i hi hkey))
    | false => exact findEnt_unsorted hft hsorted hi hkey

/-- A hint behind the record. -/
theorem getFileheaderRecords_agree_iff_behind :
    LooksUp twoRecords 1 0 (getFileheaderRecords twoRecords 1 1 true 0 1 none ()) ∧
      LooksUp twoRecords 1 0 (getFileheaderRecords twoRecords 1 1 false 0 1 none ()) := by
  have hsorted : SortedByTime twoRecords := by
    unfold SortedByTime
    decide
  have hall : ∀ dirSorted, LooksUp twoRecords 1 0
      (getFileheaderRecords twoRecords 1 1 dirSorted 0 1 none ()) := by
    refine (getFileheaderRecords_agree_iff hsorted (by decide) 1 rfl none ()).mpr ?_
    intro i hi _ _ _
    have hlen : twoRecords.length = 2 := rfl
    omega
  exact ⟨hall true, hall false⟩

/-- A hint before the record: it is not found with `dir_sorted`. -/
theorem getFileheaderRecords_misses :
    ¬ ∀ dirSorted, LooksUp twoRecords 2 0
      (getFileheaderRecords twoRecords 2 0 dirSorted 0 1 none ()) := by
  intro hall
  have hsome := (hall true).1.mpr ⟨1, by decide, by decide⟩
  have hnone : (getFileheaderRecords twoRecords 2 0 true 0 1 none ()).isSome = false := by decide
  rw [hnone] at hsome
  contradiction

end Ytht
