import Mathlib.Data.List.GetD
import Mathlib.Tactic.ByContra
import Ytht.Lib.Bytes

/-!
# Boardrc.Record

The unpacked read record of one board, `struct onebrc`, and the functions that
work on it: the search `brc_locate`, the unread test `brc_unreadt`, and the two
updates `brc_addlistt` and `brc_clearto`.

The array `list[BRC_MAXNUM]` with its counter `num` is kept as the list of its
`num` live entries.  A record a reader can hold lists the times of the posts
that were read, newest first, and everything older than its last entry counts
as read: `UnreadIn` says so once, and `brcUnreadt_iff` shows that the search
with its remembered cursor computes it, wherever the cursor was left.
-/

namespace Ytht

open Bytes

abbrev brcMaxsize : Nat := 28672
abbrev brcMaxsizeGuest : Nat := 10240
abbrev brcMaxnum : Nat := 60
abbrev brcStrlen : Nat := 15

/-- `struct onebrc`: the `num` live entries of `list`, at most `BRC_MAXNUM`. -/
structure OneBrc where
  cur : Nat
  changed : Bool
  board : CStr (brcStrlen - 1)
  list : List Int
  num_le : list.length ≤ brcMaxnum
  notetime : Int
  deriving DecidableEq

namespace OneBrc

abbrev num (brc : OneBrc) : Nat := brc.list.length

/-- A record as the read-mark functions build it: times of read posts,
newest first, each a positive C `int`. -/
structure Valid (brc : OneBrc) : Prop where
  decreasing : brc.list.Pairwise (· > ·)
  positive : ∀ x ∈ brc.list, 0 < x
  inInt : ∀ x ∈ brc.list, x < 2 ^ 31
  nonempty : brc.list ≠ []
  note : -(2 ^ 31) ≤ brc.notetime ∧ brc.notetime < 2 ^ 31

end OneBrc

/-! ## brc_locate -/

/-- The first loop of `brc_locate`, towards older entries; the fuel is
`num - cur`. -/
def locateDown (list : List Int) (t : Int) : Nat → Nat → Bool × Nat
  | 0, cur => (false, cur)
  | k + 1, cur =>
      if t = list.getD cur 0 then (true, cur)
      else if t > list.getD cur 0 then (false, cur)
      else locateDown list t k (cur + 1)

/-- The second loop of `brc_locate`, towards newer entries. -/
def locateUp (list : List Int) (t : Int) : Nat → Bool × Nat
  | 0 => (false, 0)
  | cur + 1 =>
      if t < list.getD cur 0 then (false, cur + 1)
      else if t = list.getD cur 0 then (true, cur)
      else locateUp list t cur

/-- `brc_locate`: whether `t` is in the list, leaving the cursor there. -/
def brcLocate (brc : OneBrc) (t : Int) : Bool × OneBrc :=
  if brc.num = 0 then (false, { brc with cur := 0 })
  else
    let cur := if brc.num ≤ brc.cur then brc.num - 1 else brc.cur
    let r := if t ≤ brc.list.getD cur 0 then locateDown brc.list t (brc.num - cur) cur
      else locateUp brc.list t cur
    (r.1, { brc with cur := r.2 })

/-- `brc_unreadt`. -/
def brcUnreadt (brc : OneBrc) (t : Int) : Bool × OneBrc :=
  let (found, brc) := brcLocate brc t
  if found then (false, brc)
  else if brc.num = 0 then (true, brc)
  else (decide (brc.cur < brc.num), brc)

/-! ## brc_addlistt and brc_clearto -/

/-- `brc_insert`.  With a full list the oldest entry falls off the end. -/
def brcInsert (brc : OneBrc) (t : Int) : OneBrc :=
  let num := if brc.num < brcMaxnum then brc.num + 1 else brc.num
  if num ≤ brc.cur then brc
  else
    { brc with
      changed := true
      list := (brc.list.take brc.cur ++ t :: brc.list.drop brc.cur).take num
      num_le := by
        have h : brc.num ≤ brcMaxnum := brc.num_le
        have hnum : num ≤ brcMaxnum := by
          simp only [num]
          split <;> omega
        exact Nat.le_trans (List.length_take_le _ _) hnum }

/-- `brc_set`. -/
def brcSet (brc : OneBrc) (t : Int) : OneBrc :=
  if h : brc.num ≠ 0 ∧ brc.num ≤ brc.cur then brc
  else
    { brc with
      changed := true
      list := brc.list.take brc.cur ++ [t]
      num_le := by
        have h60 := brc.num_le
        simp only [OneBrc.num, brcMaxnum, List.length_append, List.length_take,
          List.length_singleton] at *
        omega }

/-- `brc_addlistt`. -/
def brcAddlistt (brc : OneBrc) (t : Int) : OneBrc :=
  let (unread, brc) := brcUnreadt brc t
  if unread then brcInsert brc t else brc

/-- `brc_clearto`. -/
def brcClearto (brc : OneBrc) (t : Int) : OneBrc :=
  brcSet (brcLocate brc t).2 t

/-! ## What a record says -/

/-- A post of time `t` is unread: it is not listed, and the list goes back
further than `t`. -/
def UnreadIn (list : List Int) (t : Int) : Prop := t ∉ list ∧ ∃ x ∈ list, x < t

instance (list : List Int) (t : Int) : Decidable (UnreadIn list t) :=
  inferInstanceAs (Decidable (_ ∧ _))

/-- The cursor `r.2` separates the entries newer than `t` from the others, and
`r.1` tells whether it stands on `t`. -/
structure Located (list : List Int) (t : Int) (r : Bool × Nat) : Prop where
  le : r.2 ≤ list.length
  newer : ∀ j < r.2, t < list.getD j 0
  found : r.1 = true → r.2 < list.length ∧ list.getD r.2 0 = t
  older : r.1 = false → ∀ j < list.length, r.2 ≤ j → list.getD j 0 < t

theorem getD_lt_getD {list : List Int} (hs : list.Pairwise (· > ·)) {i j : Nat}
    (hij : i < j) (hj : j < list.length) : list.getD j 0 < list.getD i 0 := by
  rw [List.getD_eq_getElem _ _ hj, List.getD_eq_getElem _ _ (by omega)]
  exact List.pairwise_iff_getElem.mp hs i j (by omega) hj hij

theorem mem_iff_getD {list : List Int} {t : Int} :
    t ∈ list ↔ ∃ j < list.length, list.getD j 0 = t := by
  rw [List.mem_iff_getElem]
  constructor
  · rintro ⟨j, hj, rfl⟩
    exact ⟨j, hj, List.getD_eq_getElem _ _ hj⟩
  · rintro ⟨j, hj, rfl⟩
    exact ⟨j, hj, (List.getD_eq_getElem _ _ hj).symm⟩

theorem locateDown_located {list : List Int} (hs : list.Pairwise (· > ·)) (t : Int) (k cur : Nat)
    (hk : cur + k = list.length) (hnew : ∀ j < cur, t < list.getD j 0) :
    Located list t (locateDown list t k cur) := by
  induction k generalizing cur with
  | zero =>
      refine ⟨by simp [locateDown]; omega, hnew, by simp [locateDown], ?_⟩
      intro _ j hj hcur
      simp only [locateDown] at hcur
      omega
  | succ k ih =>
      rw [locateDown]
      by_cases heq : t = list.getD cur 0
      · rw [if_pos heq]
        exact ⟨by simp only; omega, hnew, fun _ => ⟨by simp only; omega, heq.symm⟩, by simp⟩
      · rw [if_neg heq]
        by_cases hgt : t > list.getD cur 0
        · rw [if_pos hgt]
          refine ⟨by simp only; omega, hnew, by simp, ?_⟩
          intro _ j hj hcur
          simp only at hcur
          rcases Nat.eq_or_lt_of_le hcur with rfl | hlt
          · exact hgt
          · exact Int.lt_trans (getD_lt_getD hs hlt hj) hgt
        · rw [if_neg hgt]
          refine ih (cur + 1) (by omega) ?_
          intro j hj
          rcases Nat.lt_succ_iff_lt_or_eq.mp hj with hlt | rfl
          · exact hnew j hlt
          · omega

theorem locateUp_located {list : List Int} (hs : list.Pairwise (· > ·)) (t : Int) (cur : Nat)
    (hcur : cur < list.length) (hold : list.getD cur 0 < t) :
    Located list t (locateUp list t cur) := by
  induction cur with
  | zero =>
      refine ⟨by simp [locateUp], by simp [locateUp], by simp [locateUp], ?_⟩
      intro _ j hj _
      rcases Nat.eq_zero_or_pos j with rfl | hpos
      · exact hold
      · exact Int.lt_trans (getD_lt_getD hs hpos hj) hold
  | succ cur ih =>
      rw [locateUp]
      by_cases hlt : t < list.getD cur 0
      · rw [if_pos hlt]
        refine ⟨by simp only; omega, ?_, by simp, ?_⟩
        · intro j hj
          simp only at hj
          rcases Nat.lt_succ_iff_lt_or_eq.mp hj with hj' | rfl
          · exact Int.lt_trans hlt (getD_lt_getD hs hj' (by omega))
          · exact hlt
        · intro _ j hj hle
          rcases Nat.eq_or_lt_of_le hle with rfl | hlt'
          · exact hold
          · exact Int.lt_trans (getD_lt_getD hs hlt' hj) hold
      · rw [if_neg hlt]
        by_cases heq : t = list.getD cur 0
        · rw [if_pos heq]
          refine ⟨by simp only; omega, ?_, fun _ => ⟨by simp only; omega, heq.symm⟩, by simp⟩
          intro j hj
          rw [heq]
          exact getD_lt_getD hs hj (by omega)
        · rw [if_neg heq]
          exact ih (by omega) (by omega)

/-- Past the empty list, `brc_locate` runs one of its two loops from a cursor
inside the list. -/
theorem brcLocate_eq {brc : OneBrc} (h0 : brc.list ≠ []) (t : Int) :
    ∃ cur < brc.list.length, ∀ r,
      r = (if t ≤ brc.list.getD cur 0 then locateDown brc.list t (brc.list.length - cur) cur
        else locateUp brc.list t cur) →
      brcLocate brc t = (r.1, { brc with cur := r.2 }) := by
  have hnum : brc.num ≠ 0 := fun h => h0 (List.length_eq_zero_iff.mp h)
  refine ⟨if brc.num ≤ brc.cur then brc.num - 1 else brc.cur, ?_, ?_⟩
  · have hlen : brc.num = brc.list.length := rfl
    split <;> omega
  · rintro r rfl
    rw [brcLocate, if_neg hnum]

/-- `brc_locate` finds the place of `t`, whatever cursor it starts from, and
moves nothing but the cursor. -/
theorem brcLocate_located {brc : OneBrc} (hs : brc.list.Pairwise (· > ·)) (t : Int) :
    ∃ r, Located brc.list t r ∧ brcLocate brc t = (r.1, { brc with cur := r.2 }) := by
  by_cases h0 : brc.list = []
  · refine ⟨(false, 0), ⟨by simp, by simp, by simp, by simp [h0]⟩, ?_⟩
    rw [brcLocate, if_pos (by rw [OneBrc.num, h0]; rfl)]
  · obtain ⟨cur, hlt, heq⟩ := brcLocate_eq h0 t
    refine ⟨_, ?_, heq _ rfl⟩
    by_cases ht : t ≤ brc.list.getD cur 0
    · rw [if_pos ht]
      refine locateDown_located hs t _ _ (by omega) ?_
      intro j hj
      exact Int.lt_of_le_of_lt ht (getD_lt_getD hs hj hlt)
    · rw [if_neg ht]
      exact locateUp_located hs t cur hlt (by omega)

theorem Located.found_iff {list : List Int} {t : Int} {r : Bool × Nat} (h : Located list t r) :
    r.1 = true ↔ t ∈ list := by
  rw [mem_iff_getD]
  constructor
  · intro hr
    exact ⟨r.2, h.found hr⟩
  · rintro ⟨j, hj, hjt⟩
    by_contra hr
    rw [Bool.not_eq_true] at hr
    by_cases hlt : j < r.2
    · have := h.newer j hlt
      omega
    · have := h.older hr j hj (by omega)
      omega

theorem Located.lt_iff {list : List Int} {t : Int} {r : Bool × Nat} (h : Located list t r)
    (hr : r.1 = false) : r.2 < list.length ↔ ∃ x ∈ list, x < t := by
  constructor
  · intro hlt
    exact ⟨list.getD r.2 0, mem_iff_getD.mpr ⟨r.2, hlt, rfl⟩, h.older hr r.2 hlt (Nat.le_refl _)⟩
  · rintro ⟨x, hx, hxt⟩
    obtain ⟨j, hj, rfl⟩ := mem_iff_getD.mp hx
    by_contra hge
    have := h.newer j (by omega)
    omega

/-- **The unread test is a function of the list alone**: the cursor only
saves work. -/
theorem brcUnreadt_iff {brc : OneBrc} (hs : brc.list.Pairwise (· > ·)) (hne : brc.list ≠ [])
    (t : Int) : (brcUnreadt brc t).1 = true ↔ UnreadIn brc.list t := by
  obtain ⟨r, hloc, heq⟩ := brcLocate_located hs t
  have hnum : brc.list.length ≠ 0 := fun h => hne (List.length_eq_zero_iff.mp h)
  unfold brcUnreadt UnreadIn
  rw [← hloc.found_iff, heq]
  cases hf : r.1 with
  | true => simp
  | false =>
      simp only [if_neg hnum, Bool.false_eq_true, if_false, decide_eq_true_eq,
        not_false_eq_true, true_and]
      exact hloc.lt_iff hf

/-! ## The updates keep a record valid -/

theorem Located.newer_mem {list : List Int} {t : Int} {r : Bool × Nat} (h : Located list t r) :
    ∀ x ∈ list.take r.2, t < x := by
  intro x hx
  obtain ⟨j, hj, rfl⟩ := List.mem_iff_getElem.mp hx
  rw [List.length_take] at hj
  rw [List.getElem_take, ← List.getD_eq_getElem _ 0 (by omega)]
  exact h.newer j (by omega)

theorem Located.older_mem {list : List Int} {t : Int} {r : Bool × Nat} (h : Located list t r)
    (hr : r.1 = false) : ∀ x ∈ list.drop r.2, x < t := by
  intro x hx
  obtain ⟨j, hj, rfl⟩ := List.mem_iff_getElem.mp hx
  rw [List.length_drop] at hj
  rw [List.getElem_drop, ← List.getD_eq_getElem _ 0 (by omega)]
  exact h.older hr (r.2 + j) (by omega) (by omega)

/-- Putting `t` at its place keeps the list newest first. -/
theorem Located.pairwise_insert {list : List Int} {t : Int} {r : Bool × Nat}
    (h : Located list t r) (hr : r.1 = false) (hs : list.Pairwise (· > ·)) :
    (list.take r.2 ++ t :: list.drop r.2).Pairwise (· > ·) := by
  have hsplit : (list.take r.2 ++ list.drop r.2).Pairwise (· > ·) := by
    rwa [List.take_append_drop]
  obtain ⟨htake, hdrop, hacross⟩ := List.pairwise_append.mp hsplit
  refine List.pairwise_append.mpr ⟨htake, List.pairwise_cons.mpr ⟨h.older_mem hr, hdrop⟩, ?_⟩
  intro x hx y hy
  rcases List.mem_cons.mp hy with rfl | hy
  · exact h.newer_mem x hx
  · exact hacross x hx y hy

/-- `brc_insert` gives up, or puts `t` at the cursor and keeps the newest
entries. -/
theorem brcInsert_cases (brc : OneBrc) (t : Int) :
    brcInsert brc t = brc ∨ ∃ n > 0,
      (brcInsert brc t).list = (brc.list.take brc.cur ++ t :: brc.list.drop brc.cur).take n ∧
        (brcInsert brc t).notetime = brc.notetime := by
  by_cases hcur : (if brc.num < brcMaxnum then brc.num + 1 else brc.num) ≤ brc.cur
  · left
    rw [brcInsert, if_pos hcur]
  · right
    refine ⟨_, Nat.lt_of_le_of_lt (Nat.zero_le _) (Nat.lt_of_not_le hcur), ?_⟩
    rw [brcInsert, if_neg hcur]
    exact ⟨rfl, rfl⟩

/-- The cursor does not matter. -/
theorem OneBrc.Valid.setCur {brc : OneBrc} (hv : brc.Valid) (cur : Nat) :
    ({ brc with cur } : OneBrc).Valid :=
  ⟨hv.decreasing, hv.positive, hv.inInt, hv.nonempty, hv.note⟩

/-- `brc_unreadt` moves nothing but the cursor. -/
theorem brcUnreadt_record {brc : OneBrc} {t : Int} {r : Bool × Nat}
    (heq : brcLocate brc t = (r.1, { brc with cur := r.2 })) :
    (brcUnreadt brc t).2 = { brc with cur := r.2 } := by
  unfold brcUnreadt
  rw [heq]
  dsimp only
  split
  · rfl
  · split <;> rfl

/-- A time put at its place, and some of the newest entries kept. -/
theorem OneBrc.Valid.insert {brc brc' : OneBrc} (hv : brc.Valid) {t : Int} (hpos : 0 < t)
    (ht : t < 2 ^ 31) {r : Bool × Nat} (hloc : Located brc.list t r) (hr : r.1 = false) {n : Nat}
    (hn : n > 0) (hlist : brc'.list = (brc.list.take r.2 ++ t :: brc.list.drop r.2).take n)
    (hnote : brc'.notetime = brc.notetime) : brc'.Valid := by
  have hmem : ∀ y ∈ brc'.list, y = t ∨ y ∈ brc.list := by
    intro y hy
    rw [hlist] at hy
    have hy := List.mem_of_mem_take hy
    simp only [List.mem_append, List.mem_cons] at hy
    rcases hy with hy | rfl | hy
    · exact Or.inr (List.mem_of_mem_take hy)
    · exact Or.inl rfl
    · exact Or.inr (List.mem_of_mem_drop hy)
  constructor
  · rw [hlist]
    exact (hloc.pairwise_insert hr hv.decreasing).sublist (List.take_sublist _ _)
  · intro y hy
    rcases hmem y hy with rfl | hy
    · exact hpos
    · exact hv.positive y hy
  · intro y hy
    rcases hmem y hy with rfl | hy
    · exact ht
    · exact hv.inInt y hy
  · intro hnil
    rw [hnil] at hlist
    have hlen := congrArg List.length hlist
    simp only [List.length_take, List.length_append, List.length_cons, List.length_nil] at hlen
    omega
  · rw [hnote]
    exact hv.note

/-- `brc_addlistt` keeps the record valid: what it lists is newer than some
listed time. -/
theorem OneBrc.Valid.brcAddlistt {brc : OneBrc} (hv : brc.Valid) {t : Int} (ht : t < 2 ^ 31) :
    (brcAddlistt brc t).Valid := by
  obtain ⟨r, hloc, heq⟩ := brcLocate_located hv.decreasing t
  have hunread := brcUnreadt_iff hv.decreasing hv.nonempty t
  unfold Ytht.brcAddlistt
  simp only [brcUnreadt_record heq]
  by_cases hu : (brcUnreadt brc t).1 = true
  · rw [if_pos hu]
    obtain ⟨hnot, x, hx, hxt⟩ := hunread.mp hu
    have hr : r.1 = false := by
      rw [← Bool.not_eq_true, hloc.found_iff]
      exact hnot
    have hpos : 0 < t := Int.lt_trans (hv.positive x hx) hxt
    rcases brcInsert_cases { brc with cur := r.2 } t with hsame | ⟨n, hn, hlist, hnote⟩
    · rw [hsame]
      exact hv.setCur r.2
    · exact hv.insert hpos ht hloc hr hn hlist hnote
  · rw [if_neg hu]
    exact hv.setCur r.2

/-- `brc_clearto` keeps the record valid. -/
theorem OneBrc.Valid.brcClearto {brc : OneBrc} (hv : brc.Valid) {t : Int} (ht : t < 2 ^ 31) :
    (brcClearto brc t).Valid := by
  obtain ⟨r, hloc, heq⟩ := brcLocate_located hv.decreasing t
  have hnum : brc.list.length ≠ 0 := fun h => hv.nonempty (List.length_eq_zero_iff.mp h)
  unfold Ytht.brcClearto
  rw [heq]
  unfold brcSet
  simp only
  split
  · exact hv.setCur r.2
  · next hcur =>
    have hlt : r.2 < brc.list.length := by
      by_contra hge
      exact hcur ⟨hnum, by simp only [OneBrc.num]; omega⟩
    have hpos : 0 < t := by
      cases hr : r.1 with
      | true =>
          obtain ⟨_, hget⟩ := hloc.found hr
          exact hv.positive t (mem_iff_getD.mpr ⟨r.2, hlt, hget⟩)
      | false =>
          obtain ⟨x, hx, hxt⟩ := (hloc.lt_iff hr).mp hlt
          exact Int.lt_trans (hv.positive x hx) hxt
    refine ⟨?_, ?_, ?_, by simp, hv.note⟩
    · refine List.pairwise_append.mpr
        ⟨hv.decreasing.sublist (List.take_sublist _ _), List.pairwise_singleton _ _, ?_⟩
      intro x hx y hy
      rw [List.mem_singleton.mp hy]
      exact hloc.newer_mem x hx
    · intro x hx
      rcases List.mem_append.mp hx with hx | hx
      · exact hv.positive x (List.mem_of_mem_take hx)
      · rwa [List.mem_singleton.mp hx]
    · intro x hx
      rcases List.mem_append.mp hx with hx | hx
      · exact hv.inInt x (List.mem_of_mem_take hx)
      · rwa [List.mem_singleton.mp hx]

end Ytht
