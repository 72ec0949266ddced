import Mathlib.Data.List.Basic
import Mathlib.Order.Nat
import Ytht.Article.Records

/-!
# Article.Window

What stands around the record that `_get_fileheader_records` finds.  Each side
of the window is one scan away from the centre: the records for which the
callback answers 1 are taken one by one until it answers -1, the side is full
or the file ends, and the slots that are left are zero (`fillDown_eq`,
`fillUp_eq`).  A callback may keep a state; the side behind the centre starts
from the one that the side before it has left.
-/

namespace Ytht

variable {σ : Type}

/-! ## One side of the window -/

section Scan

variable (recs : List FileHeader) (ent : Nat) (callback : Option (WindowCallback σ))

/-- The answer about record `j`; without a callback every record is taken. -/
def ask (j : Nat) (cbArg : σ) : Int × σ :=
  match callback with
  | none => (1, cbArg)
  | some callback => callback (recAt recs ent) (recAt recs j) (j - ent) cbArg

/-- The answers about some records, asked for in turn. -/
def answers : List Nat → σ → List (Nat × Int)
  | [], _ => []
  | j :: js, cbArg =>
      let (cbret, cbArg) := ask recs ent callback j cbArg
      (j, cbret) :: answers js cbArg

/-- A scan that stops at the first -1 or when `n` records are taken. -/
def scan : Nat → List Nat → σ → List Nat × σ
  | 0, _, cbArg => ([], cbArg)
  | _ + 1, [], cbArg => ([], cbArg)
  | n + 1, j :: js, cbArg =>
      let (cbret, cbArg) := ask recs ent callback j cbArg
      if cbret = -1 then ([], cbArg)
      else if cbret = 1 then
        let (taken, cbArg) := scan n js cbArg
        (j :: taken, cbArg)
      else scan (n + 1) js cbArg

end Scan

/-- The records before a -1 that were answered with 1. -/
def wanted (heard : List (Nat × Int)) : List Nat :=
  ((heard.takeWhile fun answer => answer.2 ≠ -1).filter fun answer => answer.2 = 1).map Prod.fst

/-- `n` slots: the records taken, then zeros. -/
def sideSlots (recs : List FileHeader) (n : Nat) (taken : List Nat) : List (FileHeader × Int) :=
  taken.map (fun j : Nat => (recAt recs j, (j : Int))) ++
    List.replicate (n - taken.length) (zeroHeader, naIndex)

section Scan

variable {recs : List FileHeader} {ent : Nat} {callback : Option (WindowCallback σ)}

/-- A scan takes the first `n` records that are wanted. -/
theorem scan_eq (n : Nat) (js : List Nat) (cbArg : σ) :
    (scan recs ent callback n js cbArg).1 =
      (wanted (answers recs ent callback js cbArg)).take n := by
  induction js generalizing n cbArg with
  | nil => cases n <;> simp [scan, wanted, answers]
  | cons j js ih =>
      cases n with
      | zero => simp [scan]
      | succ n =>
          simp only [scan, answers]
          generalize ask recs ent callback j cbArg = answer
          obtain ⟨cbret, cbArg'⟩ := answer
          dsimp only
          by_cases hstop : cbret = -1
          · simp [wanted, hstop]
          · by_cases htake : cbret = 1
            · simp [wanted, htake, ih]
            · rw [if_neg hstop, if_neg htake, ih]
              simp [wanted, hstop, htake]

theorem map_answers (js : List Nat) (cbArg : σ) :
    (answers recs ent callback js cbArg).map Prod.fst = js := by
  induction js generalizing cbArg with
  | nil => rfl
  | cons j js ih => simp [answers, ih]

theorem wanted_sublist (js : List Nat) (cbArg : σ) :
    (wanted (answers recs ent callback js cbArg)).Sublist js := by
  have hmap : (answers recs ent callback js cbArg).map Prod.fst = js := map_answers js cbArg
  conv_rhs => rw [← hmap]
  exact (List.filter_sublist.trans (List.takeWhile_sublist _)).map _

end Scan

/-- The records before the centre, nearest first. -/
def downFrom (ent : Nat) : List Nat := (List.range ent).reverse

theorem downFrom_succ (ent : Nat) : downFrom (ent + 1) = ent :: downFrom ent := by
  simp [downFrom, List.range_succ]

/-- The records from one on. -/
def upFrom (recs : List FileHeader) (j : Nat) : List Nat := List.range' j (recs.length - j)

theorem upFrom_of_lt {recs : List FileHeader} {j : Nat} (hj : j < recs.length) :
    upFrom recs j = j :: upFrom recs (j + 1) := by
  rw [upFrom, show recs.length - j = recs.length - (j + 1) + 1 by omega, List.range'_succ, upFrom]

theorem slot_natCast {recs : List FileHeader} {j : Nat} (hj : j < recs.length) :
    slot recs j = (recAt recs j, (j : Int)) :=
  if_pos (by omega)

theorem slot_out {recs : List FileHeader} {j : Int} (hj : j < 0 ∨ recs.length ≤ j) :
    slot recs j = (zeroHeader, naIndex) :=
  if_neg (by omega)

section Fill

variable {recs : List FileHeader} {ent : Nat} {callback : Option (WindowCallback σ)}

/-- Past the front of the file every slot is zero. -/
theorem fillDown_out (n : Nat) {j : Int} (hj : j ≤ 0) (cbArg : σ) :
    fillDown recs ent callback n j cbArg =
      (List.replicate n (zeroHeader, naIndex), cbArg) := by
  induction n generalizing j with
  | zero => rfl
  | succ n ih =>
      have hslot : slot recs (j - 1) = (zeroHeader, naIndex) := slot_out (Or.inl (by omega))
      cases callback with
      | none =>
          simp only [fillDown, ih (show j - 1 ≤ 0 by omega), hslot]
          rfl
      | some callback =>
          simp only [fillDown, if_pos (show j - 1 < 0 by omega), ih (show j - 1 ≤ 0 by omega),
            hslot]
          rfl

/-- Past the end of the file every slot is zero. -/
theorem fillUp_out (n : Nat) {j : Int} (hj : recs.length - 1 ≤ j) (hpos : -1 ≤ j) (cbArg : σ) :
    fillUp recs ent callback n j cbArg =
      (List.replicate n (zeroHeader, naIndex), cbArg) := by
  induction n generalizing j with
  | zero => rfl
  | succ n ih =>
      have hslot : slot recs (j + 1) = (zeroHeader, naIndex) := slot_out (Or.inr (by omega))
      have hrest := ih (show (recs.length : Int) - 1 ≤ j + 1 by omega) (by omega)
      cases callback with
      | none =>
          simp only [fillUp, hrest, hslot]
          rfl
      | some callback =>
          simp only [fillUp, if_pos (show (recs.length : Int) ≤ j + 1 by omega), hrest, hslot]
          rfl

theorem sideSlots_nil (n : Nat) :
    sideSlots recs n [] = List.replicate n (zeroHeader, naIndex) := by
  simp [sideSlots]

theorem sideSlots_cons {j : Nat} (hj : j < recs.length) (n : Nat) (taken : List Nat) :
    sideSlots recs (n + 1) (j :: taken) = slot recs j :: sideSlots recs n taken := by
  simp [sideSlots, slot_natCast hj]

theorem ask_some (callback : WindowCallback σ) (j : Nat) (cbArg : σ) :
    ask recs ent (some callback) j cbArg = callback (recAt recs ent) (recAt recs j) (j - ent) cbArg :=
  rfl

/-- One slot before the centre and the rest of its side, which `ih` describes. -/
theorem seekDown_eq {callback : WindowCallback σ} {n : Nat}
    (ih : ∀ {m : Nat}, m ≤ recs.length → ∀ cbArg,
      fillDown recs ent (some callback) n m cbArg =
        (sideSlots recs n (scan recs ent (some callback) n (downFrom m) cbArg).1,
          (scan recs ent (some callback) n (downFrom m) cbArg).2))
    {m : Nat} (hm : m ≤ recs.length) (cbArg : σ) :
    let next := seekDown recs ent callback m cbArg
    let side := fillDown recs ent (some callback) n next.1 next.2
    (slot recs next.1 :: side.1, side.2) =
      (sideSlots recs (n + 1) (scan recs ent (some callback) (n + 1) (downFrom m) cbArg).1,
        (scan recs ent (some callback) (n + 1) (downFrom m) cbArg).2) := by
  have hnone : slot recs (-1) = (zeroHeader, naIndex) := slot_out (Or.inl (by decide))
  induction m generalizing cbArg with
  | zero =>
      simp only [seekDown, fillDown_out n (show (-1 : Int) ≤ 0 by decide), hnone]
      rw [downFrom, List.range_zero, List.reverse_nil, scan, sideSlots_nil, List.replicate_succ]
  | succ m ihm =>
      rw [downFrom_succ]
      simp only [seekDown, scan]
      rw [ask_some]
      generalize callback (recAt recs ent) (recAt recs m) (m - ent) cbArg = answer
      by_cases hstop : answer.1 = -1
      · simp only [if_pos hstop, fillDown_out n (show (-1 : Int) ≤ 0 by decide), hnone]
        rw [sideSlots_nil, List.replicate_succ]
      · simp only [if_neg hstop]
        by_cases htake : answer.1 = 1
        · simp only [if_pos htake, ih (show m ≤ recs.length by omega)]
          rw [sideSlots_cons hm]
        · simp only [if_neg htake]
          exact ihm (by omega) answer.2

/-- **The side before the centre** is one scan towards the front. -/
theorem fillDown_eq {m : Nat} (hm : m ≤ recs.length) (n : Nat) (cbArg : σ) :
    fillDown recs ent callback n m cbArg =
      (sideSlots recs n (scan recs ent callback n (downFrom m) cbArg).1,
        (scan recs ent callback n (downFrom m) cbArg).2) := by
  induction n generalizing m cbArg with
  | zero => simp [fillDown, scan, sideSlots]
  | succ n ih =>
      cases m with
      | zero =>
          rw [fillDown_out (n + 1) (show ((0 : Nat) : Int) ≤ 0 by decide), downFrom,
            List.range_zero, List.reverse_nil, scan, sideSlots_nil]
      | succ m =>
          have hj : ((m + 1 : Nat) : Int) - 1 = (m : Nat) := by omega
          cases callback with
          | none =>
              simp only [fillDown, hj, ih (show m ≤ recs.length by omega), downFrom_succ, scan,
                ask, if_neg (show ¬(1 : Int) = -1 by decide), if_true]
              rw [sideSlots_cons hm]
          | some callback =>
              have hsucc : ((m : Int) + 1).toNat = m + 1 := by omega
              simp only [fillDown, hj, if_neg (show ¬(m : Int) < 0 by omega), hsucc]
              exact seekDown_eq ih hm cbArg

/-- One slot behind the centre and the rest of its side, which `ih` describes. -/
theorem seekUp_eq {callback : WindowCallback σ} {n : Nat}
    (ih : ∀ {m : Nat}, m < recs.length → ∀ cbArg,
      fillUp recs ent (some callback) n m cbArg =
        (sideSlots recs n (scan recs ent (some callback) n (upFrom recs (m + 1)) cbArg).1,
          (scan recs ent (some callback) n (upFrom recs (m + 1)) cbArg).2))
    {k m : Nat} (hm : m + k = recs.length) (cbArg : σ) :
    let next := seekUp recs ent callback k m cbArg
    let side := fillUp recs ent (some callback) n next.1 next.2
    (slot recs next.1 :: side.1, side.2) =
      (sideSlots recs (n + 1) (scan recs ent (some callback) (n + 1) (upFrom recs m) cbArg).1,
        (scan recs ent (some callback) (n + 1) (upFrom recs m) cbArg).2) := by
  have hnone : slot recs recs.length = (zeroHeader, naIndex) := slot_out (Or.inr (Int.le_refl _))
  have hout := @fillUp_out σ recs ent (some callback) n recs.length (by omega) (by omega)
  induction k generalizing m cbArg with
  | zero =>
      simp only [seekUp, hout, hnone]
      rw [upFrom, show recs.length - m = 0 by omega, List.range'_zero, scan, sideSlots_nil,
        List.replicate_succ]
  | succ k ihk =>
      have hlt : m < recs.length := by omega
      rw [upFrom_of_lt hlt]
      simp only [seekUp, scan]
      rw [ask_some]
      generalize callback (recAt recs ent) (recAt recs m) (m - ent) cbArg = answer
      by_cases hstop : answer.1 = -1
      · simp only [if_pos hstop, hout, hnone]
        rw [sideSlots_nil, List.replicate_succ]
      · simp only [if_neg hstop]
        by_cases htake : answer.1 = 1
        · simp only [if_pos htake, ih hlt]
          rw [sideSlots_cons hlt]
        · simp only [if_neg htake]
          have hrest := ihk (show m + 1 + k = recs.length by omega) answer.2
          exact hrest

/-- **The side behind the centre** is one scan towards the end. -/
theorem fillUp_eq {m : Nat} (hm : m < recs.length) (n : Nat) (cbArg : σ) :
    fillUp recs ent callback n m cbArg =
      (sideSlots recs n (scan recs ent callback n (upFrom recs (m + 1)) cbArg).1,
        (scan recs ent callback n (upFrom recs (m + 1)) cbArg).2) := by
  induction n generalizing m cbArg with
  | zero => simp [fillUp, scan, sideSlots]
  | succ n ih =>
      by_cases hlast : recs.length = m + 1
      · rw [fillUp_out (n + 1) (by omega) (by omega), upFrom, hlast, Nat.sub_self, List.range'_zero,
          scan, sideSlots_nil]
      · have hlt : m + 1 < recs.length := by omega
        cases callback with
        | none =>
            simp only [fillUp, ← Int.natCast_succ, ih hlt, upFrom_of_lt hlt, scan, ask,
              if_neg (show ¬(1 : Int) = -1 by decide), if_true]
            rw [sideSlots_cons hlt]
        | some callback =>
            have hk : ((recs.length : Int) - (m + 1 : Nat)).toNat = recs.length - (m + 1) := by
              omega
            simp only [fillUp, ← Int.natCast_succ, hk,
              if_neg (show ¬(recs.length : Int) ≤ (m + 1 : Nat) by omega)]
            exact seekUp_eq ih (by omega) cbArg

theorem length_scan_le (n : Nat) (js : List Nat) (cbArg : σ) :
    (scan recs ent callback n js cbArg).1.length ≤ n := by
  rw [scan_eq]
  exact List.length_take_le _ _

theorem scan_sublist (n : Nat) (js : List Nat) (cbArg : σ) :
    (scan recs ent callback n js cbArg).1.Sublist js := by
  rw [scan_eq]
  exact (List.take_sublist _ _).trans (wanted_sublist js cbArg)

theorem length_sideSlots {n : Nat} {taken : List Nat} (h : taken.length ≤ n) :
    (sideSlots recs n taken).length = n := by
  simp [sideSlots]
  omega

/-- The indexes that a side shows. -/
theorem indexes_sideSlots (n : Nat) (taken : List Nat) :
    ((sideSlots recs n taken).map Prod.snd).filter (· ≠ naIndex) =
      taken.map fun j : Nat => (j : Int) := by
  have htaken : (taken.map fun j : Nat => (j : Int)).filter (· ≠ naIndex) =
      taken.map fun j : Nat => (j : Int) := by
    rw [List.filter_eq_self]
    intro j hj
    obtain ⟨k, -, rfl⟩ := List.mem_map.mp hj
    exact decide_eq_true (show (k : Int) ≠ -1 by omega)
  rw [sideSlots, List.map_append, List.filter_append, List.map_map, List.map_replicate,
    List.filter_replicate_of_neg (by simp), List.append_nil]
  exact htaken

end Fill

/-! ## The window -/

theorem baseSlot_eq_some {resultcentered count : Int} {base : Nat}
    (h : baseSlot resultcentered count = some base) :
    base < count.toNat ∧
      ((resultcentered = 0 ∧ (base : Int) = count / 2) ∨ (resultcentered = 1 ∧ base = 0) ∨
        (resultcentered = 2 ∧ (base : Int) = count - 1)) := by
  unfold baseSlot at h
  grind

theorem pairwise_downFrom (ent : Nat) : (downFrom ent).reverse.Pairwise (· < ·) := by
  rw [downFrom, List.reverse_reverse]
  exact List.pairwise_lt_range

/-- The indexes of a window grow: before the centre they come from the records
before it, and behind it from those behind. -/
theorem pairwise_indexes {recs : List FileHeader} {ent : Nat} {before behind : List Nat}
    (hbefore : before.Sublist (downFrom ent)) (hbehind : behind.Sublist (upFrom recs (ent + 1))) :
    (List.map (fun j : Nat => (j : Int)) (before.reverse ++ ent :: behind)).Pairwise (· < ·) := by
  have hlow : ∀ j ∈ before, j < ent := fun j hj => by
    simpa [downFrom] using hbefore.subset hj
  have hhigh : ∀ j ∈ behind, ent < j := fun j hj => by
    have hmem := List.mem_range'_1.mp (hbehind.subset hj)
    omega
  rw [List.pairwise_map]
  refine List.Pairwise.imp (fun hlt => Int.ofNat_lt.mpr hlt) ?_
  have hrange : (upFrom recs (ent + 1)).Pairwise (· < ·) := List.pairwise_lt_range'
  refine List.pairwise_append.mpr ⟨(pairwise_downFrom ent).sublist hbefore.reverse,
    List.pairwise_cons.mpr ⟨hhigh, hrange.sublist hbehind⟩, ?_⟩
  intro i hi j hj
  have hi := hlow i (List.mem_reverse.mp hi)
  rcases List.mem_cons.mp hj with rfl | hj
  · exact hi
  · exact hi.trans (hhigh j hj)

/-- What the slots of a window have to show around the record `ent` in the slot
`base`: the callback's choice of the records before it, nearest first, and of
those behind it; zeros where there are no more; and indexes that grow. -/
structure WindowAround (recs : List FileHeader) (callback : Option (WindowCallback σ)) (cbArg : σ)
    (resultcentered count : Int) (slots : List (FileHeader × Int)) (base ent : Nat) : Prop where
  place : (resultcentered = 0 ∧ (base : Int) = count / 2) ∨ (resultcentered = 1 ∧ base = 0) ∨
    (resultcentered = 2 ∧ (base : Int) = count - 1)
  length : slots.length = count
  centre : slots[base]? = some (recAt recs ent, (ent : Int))
  before : (slots.take base).reverse = sideSlots recs base
    ((wanted (answers recs ent callback (downFrom ent) cbArg)).take base)
  behind : slots.drop (base + 1) = sideSlots recs (count.toNat - 1 - base)
    ((wanted (answers recs ent callback (upFrom recs (ent + 1))
      (scan recs ent callback base (downFrom ent) cbArg).2)).take (count.toNat - 1 - base))
  increasing : ((slots.map Prod.snd).filter (· ≠ naIndex)).Pairwise (· < ·)

/-- **The window** a call returns is the one around the record it found. -/
theorem getFileheaderRecords_window {recs : List FileHeader} {filetime hintEnt : Int}
    {dirSorted : Bool} {resultcentered count : Int} {callback : Option (WindowCallback σ)}
    {cbArg cbArg' : σ} {slots : List (FileHeader × Int)}
    (h : getFileheaderRecords recs filetime hintEnt dirSorted resultcentered count callback cbArg =
      some (slots, cbArg')) :
    ∃ base ent : Nat, findEnt recs filetime hintEnt dirSorted = some (ent : Int) ∧
      ent < recs.length ∧
      WindowAround recs callback cbArg resultcentered count slots base ent := by
  simp only [getFileheaderRecords, Option.bind_eq_bind, Option.bind_eq_some_iff] at h
  obtain ⟨base, hbase, found, hfound, heq⟩ := h
  obtain ⟨hlt, hplace⟩ := baseSlot_eq_some hbase
  have hrange : 0 ≤ found ∧ found < recs.length := by
    unfold findEnt at hfound
    simpa using (Option.filter_eq_some_iff.mp hfound).2
  obtain ⟨ent, rfl⟩ := Int.eq_ofNat_of_zero_le hrange.1
  have hent : ent < recs.length := by omega
  rw [fillDown_eq hent.le, Option.some.injEq, Prod.mk.injEq] at heq
  simp only [fillUp_eq hent, slot_natCast hent] at heq
  obtain ⟨rfl, -⟩ := heq
  set before := (scan recs ent callback base (downFrom ent) cbArg).1 with hbefore
  set s := (scan recs ent callback base (downFrom ent) cbArg).2
  have hlen : (sideSlots recs base before).reverse.length = base := by
    rw [List.length_reverse, length_sideSlots (length_scan_le _ _ _)]
  refine ⟨base, ent, hfound, hent, hplace, ?_, ?_, ?_, ?_, ?_⟩
  · rw [List.length_append, hlen, List.length_cons, length_sideSlots (length_scan_le _ _ _)]
    omega
  · rw [List.getElem?_append_right hlen.le, hlen, Nat.sub_self, List.getElem?_cons_zero]
  · rw [List.take_append_of_le_length hlen.ge, List.take_of_length_le hlen.le, List.reverse_reverse,
      hbefore, scan_eq]
  · rw [List.drop_append, hlen, List.drop_of_length_le (by omega), List.nil_append,
      Nat.add_sub_cancel_left, List.drop_one, List.tail_cons, scan_eq]
  · have hdown : before.Sublist (downFrom ent) := scan_sublist base _ cbArg
    have hup : (scan recs ent callback (count.toNat - 1 - base) (upFrom recs (ent + 1)) s).1.Sublist
        (upFrom recs (ent + 1)) := scan_sublist _ _ s
    have hindexes := pairwise_indexes hdown hup
    have hcentre : decide ((recAt recs ent, (ent : Int)).2 ≠ naIndex) = true :=
      decide_eq_true (show (ent : Int) ≠ -1 by omega)
    rw [List.map_append, List.filter_append, List.map_reverse, List.filter_reverse,
      indexes_sideSlots, List.map_cons, List.filter_cons, if_pos hcentre, indexes_sideSlots]
    rwa [List.map_append, List.map_reverse, List.map_cons] at hindexes

/-- The last of two records in the middle of three slots. -/
theorem getFileheaderRecords_window_two :
    ∃ base ent : Nat, findEnt twoRecords 2 1 true = some (ent : Int) ∧ ent < twoRecords.length ∧
      WindowAround twoRecords none () 0 3
        [(recAt twoRecords 0, 0), (recAt twoRecords 1, 1), (zeroHeader, naIndex)] base ent := by
  have hcall : getFileheaderRecords twoRecords 2 1 true 0 3 none () =
      some ([(recAt twoRecords 0, 0), (recAt twoRecords 1, 1), (zeroHeader, naIndex)], ()) := by
    decide
  exact getFileheaderRecords_window hcall

end Ytht
