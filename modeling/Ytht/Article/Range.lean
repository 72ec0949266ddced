import Mathlib.Data.List.Basic
import Ytht.Pop3.Session

/-!
# Article.Range

`delete_range`: the records of a directory between two positions, or those that
carry `FH_DEL`, are taken out.  The file is read once; from the first record
that goes on, the records that stay are gathered in memory and written back to
the place of that record.

What happens to the articles is kept as the list of the calls that are made.
-/

namespace Ytht

def fhDel : Nat := 0x40

/-- What `delete_range` calls for the records it removes. -/
inductive RangeCall
  | cancelpost (board userid : List UInt8) (fh : FileHeader) (owned : Bool)
  | updateMailsizeDown (fh : FileHeader) (userid : List UInt8)
  | deltree (userid : List UInt8) (fname : String)
  deriving DecidableEq

/-- The globals that `delete_range` reads, and how its system calls end. -/
structure RangeEnv where
  digestmode : Int
  /-- `uinfo.mode == RMAIL` -/
  rmail : Bool
  currboard : List UInt8
  userid : List UInt8
  opens : Bool
  allocates : Bool

/-- A file of records, and the bytes behind its last whole record. -/
structure RangeFile where
  recs : List FileHeader
  tail : List UInt8
  deriving DecidableEq

section Sweep

variable (env : RangeEnv) (id1 id2 : Int)

/-- The records that stay; `count` is the position, from 1. -/
def staysInRange (count : Nat) (fhdr : FileHeader) : Bool :=
  fhdr.accessed &&& fhMarked != 0 || (id2 == -1 && fhdr.accessed &&& fhDel == 0) ||
    (id2 != -1 && (count < id1 || count > id2))

/-- The calls for a record that goes. -/
def disposal (fhdr : FileHeader) : List RangeCall :=
  if env.rmail then
    [.updateMailsizeDown fhdr env.userid, .deltree env.userid (Session.fh2fname fhdr)]
  else [.cancelpost env.currboard env.userid fhdr false]

/-- The variables of the loop: the position, the place of the first record that
goes (`none` for -1), the records gathered since, and the calls made. -/
structure Sweep where
  count : Nat
  wstart : Option Nat
  fhmw : List FileHeader
  calls : List RangeCall

/-- One record of the loop. -/
def sweepRecord (st : Sweep) (fhdr : FileHeader) : Sweep :=
  let count := st.count + 1
  if staysInRange id1 id2 count fhdr then
    match st.wstart with
    | none => { st with count := count }
    | some _ => { st with count := count, fhmw := st.fhmw ++ [fhdr] }
  else
    let wstart := st.wstart.getD (count - 1)
    if fhdr.filetime = 0 then { st with count := count, wstart := some wstart }
    else
      { st with count := count, wstart := some wstart, calls := st.calls ++ disposal env fhdr }

/-- `delete_range`, with `BACK_DELETE_RANGE`: what it returns, the file and the calls. -/
def deleteRange (file : RangeFile) : Int × RangeFile × List RangeCall :=
  if env.digestmode = 4 ∨ env.digestmode = 5 then (0, file, [])
  else if env.opens = false then (-2, file, [])
  else if file.tail ≠ [] then (-1, file, [])
  else if env.allocates = false then (-1, file, [])
  else
    let st := file.recs.foldl (sweepRecord env id1 id2) ⟨0, none, [], []⟩
    match st.wstart with
    | none => (0, file, st.calls)
    | some wstart =>
        -- cut to the length there will be, then written from `wstart` on
        (0, ⟨(file.recs.take (wstart + st.fhmw.length)).take wstart ++ st.fhmw, []⟩, st.calls)

end Sweep

/-! ## What stays, and what is called -/

section Spec

variable (env : RangeEnv) (id1 id2 : Int)

/-- The records that stay of those from a position on. -/
def stayed (start : Nat) (recs : List FileHeader) : List FileHeader :=
  ((recs.zipIdx start).filter fun x => staysInRange id1 id2 x.2 x.1).map Prod.fst

/-- The records that go and have a filetime. -/
def removed (start : Nat) (recs : List FileHeader) : List FileHeader :=
  ((recs.zipIdx start).filter fun x =>
    !staysInRange id1 id2 x.2 x.1 && x.1.filetime != 0).map Prod.fst

theorem stayed_cons (start : Nat) (fhdr : FileHeader) (recs : List FileHeader) :
    stayed id1 id2 start (fhdr :: recs) =
      (if staysInRange id1 id2 start fhdr then [fhdr] else []) ++
        stayed id1 id2 (start + 1) recs := by
  rw [stayed, List.zipIdx_cons, List.filter_cons]
  split <;> rfl

theorem removed_cons (start : Nat) (fhdr : FileHeader) (recs : List FileHeader) :
    removed id1 id2 start (fhdr :: recs) =
      (if !staysInRange id1 id2 start fhdr && fhdr.filetime != 0 then [fhdr] else []) ++
        removed id1 id2 (start + 1) recs := by
  rw [removed, List.zipIdx_cons, List.filter_cons]
  split <;> rfl

/-- What the loop has kept of the records read so far: those before the first
that goes, and the ones gathered. -/
def Sweep.kept (st : Sweep) (seen : List FileHeader) : List FileHeader :=
  seen.take (st.wstart.getD st.count) ++ st.fhmw

/-- The variables after the records `seen`. -/
structure Sweep.After (st : Sweep) (seen : List FileHeader) : Prop where
  count : st.count = seen.length
  start : ∀ w, st.wstart = some w → w ≤ seen.length
  nothing : st.wstart = none → st.fhmw = []

/-- **One record**: it is kept or its article is disposed of. -/
theorem Sweep.After.record {st : Sweep} {seen : List FileHeader} (h : st.After seen)
    (fhdr : FileHeader) :
    (sweepRecord env id1 id2 st fhdr).After (seen ++ [fhdr]) ∧
      (sweepRecord env id1 id2 st fhdr).kept (seen ++ [fhdr]) =
        st.kept seen ++ stayed id1 id2 (seen.length + 1) [fhdr] ∧
      (sweepRecord env id1 id2 st fhdr).calls =
        st.calls ++ (removed id1 id2 (seen.length + 1) [fhdr]).flatMap (disposal env) := by
  obtain ⟨count, wstart, fhmw, calls⟩ := st
  obtain ⟨hcount, hstart, hnothing⟩ := h
  dsimp only at hcount hstart hnothing
  subst hcount
  rw [stayed_cons, removed_cons]
  simp only [sweepRecord]
  cases hstays : staysInRange id1 id2 (seen.length + 1) fhdr with
  | true =>
      cases wstart with
      | none =>
          refine ⟨⟨by simp, by simp, hnothing⟩, ?_, ?_⟩
          · simp [Sweep.kept, stayed, hnothing rfl]
          · simp [removed]
      | some w =>
          have hw := hstart w rfl
          refine ⟨⟨by simp, fun w' hw' => ?_, by simp⟩, ?_, ?_⟩
          · obtain rfl := Option.some.inj hw'
            rw [List.length_append]
            omega
          · simp [Sweep.kept, stayed, List.take_append_of_le_length hw]
          · simp [removed]
  | false =>
      have hw : wstart.getD seen.length ≤ seen.length := by
        cases wstart with
        | none => exact Nat.le_refl _
        | some w => exact hstart w rfl
      have hafter : ∀ calls, Sweep.After ⟨seen.length + 1, some (wstart.getD seen.length), fhmw,
          calls⟩ (seen ++ [fhdr]) := by
        intro calls
        refine ⟨by simp, fun w hw' => ?_, by simp⟩
        obtain rfl := Option.some.inj hw'
        rw [List.length_append]
        omega
      have hkept : ∀ calls, Sweep.kept ⟨seen.length + 1, some (wstart.getD seen.length), fhmw,
          calls⟩ (seen ++ [fhdr]) = seen.take (wstart.getD seen.length) ++ fhmw := by
        intro calls
        rw [Sweep.kept, Option.getD_some, List.take_append_of_le_length hw]
      by_cases hzero : fhdr.filetime = 0
      · refine ⟨?_, ?_, ?_⟩
        · simpa [hzero] using hafter calls
        · simpa [hzero, Sweep.kept, stayed] using hkept calls
        · simp [hzero, removed]
      · refine ⟨?_, ?_, ?_⟩
        · simpa [hzero] using hafter (calls ++ disposal env fhdr)
        · simpa [hzero, Sweep.kept, stayed] using hkept (calls ++ disposal env fhdr)
        · simp [hzero, removed]

/-- **The loop.** -/
theorem Sweep.After.run {st : Sweep} {seen : List FileHeader} (h : st.After seen)
    (recs : List FileHeader) :
    (recs.foldl (sweepRecord env id1 id2) st).After (seen ++ recs) ∧
      (recs.foldl (sweepRecord env id1 id2) st).kept (seen ++ recs) =
        st.kept seen ++ stayed id1 id2 (seen.length + 1) recs ∧
      (recs.foldl (sweepRecord env id1 id2) st).calls =
        st.calls ++ (removed id1 id2 (seen.length + 1) recs).flatMap (disposal env) := by
  induction recs generalizing st seen with
  | nil => simp [h, stayed, removed]
  | cons fhdr recs ih =>
      obtain ⟨hafter, hkept, hcalls⟩ := h.record env id1 id2 fhdr
      obtain ⟨hrun, hkept', hcalls'⟩ := ih hafter
      rw [List.append_assoc, List.singleton_append] at hrun hkept'
      rw [List.length_append, List.length_singleton] at hkept' hcalls'
      rw [List.foldl_cons]
      refine ⟨hrun, ?_, ?_⟩
      · rw [hkept', hkept, stayed_cons, stayed_cons, List.append_assoc, List.append_assoc]
        rfl
      · rw [hcalls', hcalls, removed_cons, removed_cons, List.append_assoc, List.flatMap_append,
          List.flatMap_append, List.append_assoc]
        rfl

end Spec

/-- **Deleting a range is a filter**: the file has the records that stay, in
order, and each record that goes and has a filetime is disposed of once; unless
the file does not open or there is no memory, and nothing happens. -/
theorem deleteRange_filter {env : RangeEnv} (hmode : env.digestmode ≠ 4 ∧ env.digestmode ≠ 5)
    (id1 id2 : Int) (recs : List FileHeader) :
    let r := deleteRange env id1 id2 ⟨recs, []⟩
    (r.1 = 0 ∧ r.2.1 = ⟨stayed id1 id2 1 recs, []⟩ ∧
        r.2.2 = (removed id1 id2 1 recs).flatMap (disposal env)) ∨
      (r.1 < 0 ∧ r.2.1 = ⟨recs, []⟩ ∧ r.2.2 = [] ∧
        (env.opens = false ∨ env.allocates = false)) := by
  have hfirst : Sweep.After ⟨0, none, [], []⟩ [] := ⟨rfl, by simp, fun _ => rfl⟩
  obtain ⟨⟨hcount, hstart, hnothing⟩, hkept, hcalls⟩ :=
    hfirst.run env id1 id2 recs
  intro r
  simp only [r, deleteRange, not_or.mpr hmode, if_false]
  split
  · next hopens => exact Or.inr ⟨show (-2 : Int) < 0 by decide, rfl, rfl, Or.inl hopens⟩
  split
  · next htail => exact absurd rfl htail
  split
  · next hallocates =>
    exact Or.inr ⟨show (-1 : Int) < 0 by decide, rfl, rfl, Or.inr hallocates⟩
  refine Or.inl ?_
  generalize recs.foldl (sweepRecord env id1 id2) ⟨0, none, [], []⟩ = st at *
  rw [List.nil_append] at hcount hstart hkept
  rw [Sweep.kept, Sweep.kept, List.take_nil, List.nil_append, List.nil_append,
    List.length_nil, Nat.zero_add] at hkept
  rw [List.nil_append, List.length_nil, Nat.zero_add] at hcalls
  cases hw : st.wstart with
  | none =>
      rw [hw, Option.getD_none, hcount, List.take_length, hnothing hw, List.append_nil] at hkept
      exact ⟨rfl, by rw [← hkept], hcalls⟩
  | some w =>
      rw [hw, Option.getD_some] at hkept
      refine ⟨rfl, ?_, hcalls⟩
      have hcut : (recs.take (w + st.fhmw.length)).take w = recs.take w := by
        rw [List.take_take, Nat.min_eq_left (Nat.le_add_right _ _)]
      rw [← hkept, ← hcut]

/-- A board, with everything in order. -/
def boardEnv : RangeEnv := ⟨0, false, [98], [97], true, true⟩

theorem deleteRange_filter_two :
    let r := deleteRange boardEnv 1 1 ⟨twoRecords, []⟩
    (r.1 = 0 ∧ r.2.1 = ⟨stayed 1 1 1 twoRecords, []⟩ ∧
        r.2.2 = (removed 1 1 1 twoRecords).flatMap (disposal boardEnv)) ∨
      (r.1 < 0 ∧ r.2.1 = ⟨twoRecords, []⟩ ∧ r.2.2 = [] ∧
        (boardEnv.opens = false ∨ boardEnv.allocates = false)) :=
  deleteRange_filter ⟨by decide, by decide⟩ 1 1 twoRecords

end Ytht
