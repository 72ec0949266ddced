import Mathlib.Tactic.ByContra
import Mathlib.Tactic.Tauto
import Ytht.Article.Dir

/-!
# Article.Delete

`delete_dir_callback`: remove one record from a directory file that is mapped
into memory.  The position is found from a hint, by binary search or by looking
backwards from the hint; a callback may veto; the records behind are moved up
and the file is cut by one record.

The cut is made whenever `ret` is still 0, also when nothing was moved: after a
veto, and after a fault of the mapping, whose handler is empty.  So the last
record is lost there, and `deleteDirCallback_iff` says exactly when the call is
all or nothing.
-/

namespace Ytht

/-- A directory file as a call finds it: whether it opens, its records, how many
zero records the mapping holds behind them up to the end of its last page, and
whether the mapping raises SIGBUS before the records are moved. -/
structure DirFile where
  opens : Bool
  recs : List FileHeader
  slack : Nat
  sigbus : Bool

/-- What a memory access can end in: a jump to `MMAP_CATCH`, or the end of the
process. -/
inductive Fault
  | sigbus
  | killed
  deriving DecidableEq

/-- `ptr[i]`.  An empty file cannot be mapped at all. -/
def DirFile.read (f : DirFile) (i : Int) : Except Fault FileHeader :=
  if f.recs = [] then .error .killed
  else if 0 ≤ i ∧ i < f.recs.length then
    if f.sigbus then .error .sigbus else .ok (recAt f.recs i)
  else if (f.recs.length : Int) ≤ i ∧ i < f.recs.length + f.slack then .ok zeroHeader
  else .error .killed

/-- `for (pos = ent; pos > 0; pos--) if (ptr[pos - 1].filetime == filetime) break;` -/
def scanBack (f : DirFile) (filetime : Int) : Nat → Except Fault Nat
  | 0 => .ok 0
  | pos + 1 => do
      let r ← f.read pos
      if r.filetime = filetime then .ok (pos + 1) else scanBack f filetime pos

/-- The look-up: `pos` and `ret`. -/
def locate (f : DirFile) (ent filetime : Int) : Except Fault (Int × Int) := do
  let total : Int := f.recs.length
  let pos := if ent < total then ent else total
  let r ← f.read (pos - 1)
  if r.filetime = filetime then .ok (pos, 0)
  else
    let pos := searchBin f.recs filetime 0 (pos - 1) + 1
    if pos ≤ 0 then
      if 0 < ent then
        let pos ← scanBack f filetime ent.toNat
        .ok (pos, if pos = 0 then -2 else 0)
      else .ok (ent, if ent = 0 then -2 else 0)
    else .ok (pos, 0)

/-- `memmove(ptr + (pos - 1), ptr + pos, st.st_size - sizeof (struct fileheader) * pos)`;
a size below zero is a huge one. -/
def moveUp (recs : List FileHeader) (pos : Int) : Except Fault (List FileHeader) :=
  if 1 ≤ pos ∧ pos ≤ recs.length then
    .ok (recs.take (pos.toNat - 1) ++ recs.drop pos.toNat ++ recs.drop (recs.length - 1))
  else .error .killed

variable {σ : Type}

/-- The callback and the move. -/
def removeAt (f : DirFile) (pos : Int) (callback : Option (FileHeader → σ → Int × σ)) (cbArg : σ) :
    Except Fault (List FileHeader × σ) :=
  match callback with
  | none => (moveUp f.recs pos).map fun recs => (recs, cbArg)
  | some callback => do
      let r ← f.read (pos - 1)
      let (res, cbArg) := callback r cbArg
      if 0 ≤ res then (moveUp f.recs pos).map fun recs => (recs, cbArg) else .ok (f.recs, cbArg)

/-- What stands between `MMAP_TRY` and `MMAP_CATCH`. -/
def deleteBody (f : DirFile) (ent filetime : Int) (callback : Option (FileHeader → σ → Int × σ))
    (cbArg : σ) : Except Fault (Int × List FileHeader × σ) := do
  let (pos, ret) ← locate f ent filetime
  if ret = 0 then
    let (recs, cbArg) ← removeAt f pos callback cbArg
    .ok (ret, recs, cbArg)
  else .ok (ret, f.recs, cbArg)

/-- `delete_dir_callback`: its result, the file afterwards and the callback's
argument; `none` when the process is killed. -/
def deleteDirCallback (f : DirFile) (ent filetime : Int)
    (callback : Option (FileHeader → σ → Int × σ)) (cbArg : σ) :
    Option (Int × List FileHeader × σ) :=
  if f.opens = false then some (-1, f.recs, cbArg)
  else
    match deleteBody f ent filetime callback cbArg with
    | .error .killed => none
    -- the handler does nothing, and `ret` is 0 as it was set at the start
    | .error .sigbus => some (0, f.recs.dropLast, cbArg)
    | .ok (ret, recs, cbArg) => some (ret, if ret = 0 then recs.dropLast else recs, cbArg)

/-! ## The look-up in the file -/

/-- The index of the last of the first `n` records with the filetime. -/
def lastIndex (recs : List FileHeader) (filetime : Int) (n : Nat) : Option Nat :=
  (List.range n).reverse.find? fun i => (recAt recs i).filetime == filetime

/-- Which record a hint leads to: the one at the hint, or the one binary search
finds before it, or the last one before it. -/
def lookup (recs : List FileHeader) (ent filetime : Int) : Option Nat :=
  let pos := min ent.toNat recs.length
  if (recAt recs (pos - 1 : Nat)).filetime = filetime then some (pos - 1)
  else if 0 ≤ searchBin recs filetime 0 ((pos : Int) - 1) then
    some (searchBin recs filetime 0 ((pos : Int) - 1)).toNat
  else lastIndex recs filetime pos

theorem lastIndex_succ (recs : List FileHeader) (filetime : Int) (n : Nat) :
    lastIndex recs filetime (n + 1) =
      if (recAt recs n).filetime = filetime then some n else lastIndex recs filetime n := by
  rw [lastIndex, List.range_succ, List.reverse_append, List.reverse_singleton,
    List.singleton_append, List.find?_cons]
  by_cases h : (recAt recs n).filetime = filetime
  · simp [h]
  · rw [beq_false_of_ne h, if_neg h]
    rfl

theorem lastIndex_spec {recs : List FileHeader} {filetime : Int} {n i : Nat}
    (h : lastIndex recs filetime n = some i) : i < n ∧ (recAt recs i).filetime = filetime := by
  have hmem := List.mem_of_find?_eq_some h
  have hkey := List.find?_some h
  exact ⟨by simpa using hmem, by simpa using hkey⟩

/-- A record that is looked up is in the file and has the filetime. -/
theorem lookup_spec {recs : List FileHeader} {ent filetime : Int} {i : Nat} (hent : 1 ≤ ent)
    (hrecs : recs ≠ []) (h : lookup recs ent filetime = some i) :
    i < recs.length ∧ (recAt recs i).filetime = filetime := by
  have hlen : 0 < recs.length := List.length_pos_iff.mpr hrecs
  have hpos : 1 ≤ min ent.toNat recs.length := by omega
  simp only [lookup] at h
  split at h
  · next hfirst =>
    cases h
    exact ⟨by omega, hfirst⟩
  · split at h
    · next hbin =>
      obtain ⟨hlo, hhi, hkey⟩ := searchBin_hit (Int.le_refl 0) hbin
      cases h
      exact ⟨by omega, by rwa [Int.toNat_of_nonneg hbin]⟩
    · obtain ⟨hlt, hkey⟩ := lastIndex_spec h
      exact ⟨by omega, hkey⟩

section Reads

variable {f : DirFile} (hrecs : f.recs ≠ [])

include hrecs

theorem read_inside (hbus : f.sigbus = false) {i : Nat} (hi : i < f.recs.length) :
    f.read i = .ok (recAt f.recs i) := by
  rw [DirFile.read, if_neg hrecs, if_pos (by omega), hbus]
  rfl

/-- Inside the file the backward scan finds the last record with the filetime. -/
theorem scanBack_inside (hbus : f.sigbus = false) (filetime : Int) {n : Nat}
    (hn : n ≤ f.recs.length) :
    scanBack f filetime n = .ok ((lastIndex f.recs filetime n).elim 0 (· + 1)) := by
  induction n with
  | zero => rfl
  | succ n ih =>
      rw [scanBack, read_inside hrecs hbus (by omega), lastIndex_succ]
      by_cases hkey : (recAt f.recs n).filetime = filetime
      · rw [if_pos hkey]
        exact if_pos hkey
      · rw [if_neg hkey, ← ih (by omega)]
        exact if_neg hkey

/-- Behind the file it passes over zero records, stops at one when 0 is looked
for, and leaves the mapping when it starts too far out. -/
theorem scanBack_outside (filetime : Int) {k : Nat} :
    scanBack f filetime (f.recs.length + (k + 1)) =
      if f.slack < k + 1 then .error .killed
      else if filetime = 0 then .ok (f.recs.length + (k + 1))
      else scanBack f filetime f.recs.length := by
  have hread : ∀ k : Nat, f.read (f.recs.length + k : Nat) =
      if f.slack < k + 1 then .error .killed else .ok zeroHeader := by
    intro k
    rw [DirFile.read, if_neg hrecs, if_neg (by omega)]
    by_cases hk : f.slack < k + 1
    · rw [if_neg (by omega), if_pos hk]
    · rw [if_pos (by omega), if_neg hk]
  have hstep : ∀ k : Nat, scanBack f filetime (f.recs.length + (k + 1)) =
      (f.read (f.recs.length + k : Nat)).bind fun r =>
        if r.filetime = filetime then .ok (f.recs.length + k + 1)
        else scanBack f filetime (f.recs.length + k) := fun _ => rfl
  have hzero : zeroHeader.filetime = 0 := rfl
  induction k with
  | zero =>
      rw [hstep, hread]
      by_cases hk : f.slack < 0 + 1
      · rw [if_pos hk, if_pos hk]
        rfl
      · rw [if_neg hk, if_neg hk]
        simp only [Except.bind, hzero, eq_comm]
        rfl
  | succ k ih =>
      rw [hstep, hread]
      by_cases hk : f.slack < k + 1 + 1
      · rw [if_pos hk, if_pos hk]
        rfl
      · rw [if_neg (by omega)] at ih
        rw [if_neg hk, if_neg hk]
        simp only [Except.bind, hzero]
        by_cases hft : filetime = 0
        · rw [if_pos hft.symm, if_pos hft]
          rfl
        · rw [if_neg (fun h => hft h.symm), if_neg hft, ih, if_neg hft]

end Reads

/-! ## The look-up, with the ways it can leave the file -/

/-- The search does not go beyond the mapping: the hint is in the file, or
binary search settles it, or it meets zero records only, which it passes over. -/
def SearchStays (f : DirFile) (ent filetime : Int) : Prop :=
  ent ≤ f.recs.length ∨ 0 ≤ searchBin f.recs filetime 0 ((f.recs.length : Int) - 1) ∨
    (ent ≤ f.recs.length + f.slack ∧ filetime ≠ 0)

/-- The last record has the filetime. -/
def LastHas (recs : List FileHeader) (filetime : Int) : Prop :=
  (recAt recs (recs.length - 1 : Nat)).filetime = filetime

theorem locate_of_stays {f : DirFile} {ent filetime : Int} (hent : 1 ≤ ent) (hrecs : f.recs ≠ [])
    (hbus : f.sigbus = false) (hstay : LastHas f.recs filetime ∨ SearchStays f ent filetime) :
    locate f ent filetime =
      .ok ((lookup f.recs ent filetime).elim (0, -2) fun i => ((i : Int) + 1, 0)) := by
  have hlen : 0 < f.recs.length := List.length_pos_iff.mpr hrecs
  obtain ⟨n, hn⟩ : ∃ n : Nat, n + 1 = min ent.toNat f.recs.length :=
    ⟨min ent.toNat f.recs.length - 1, by omega⟩
  have hpos : (if ent < (f.recs.length : Int) then ent else (f.recs.length : Int)) = n + 1 := by
    split <;> omega
  have hread := read_inside hrecs hbus (show n < f.recs.length by omega)
  simp only [locate, lookup, hpos, ← hn, Int.add_sub_cancel, Nat.add_sub_cancel, hread,
    Int.natCast_add, Int.natCast_one]
  by_cases hfirst : (recAt f.recs n).filetime = filetime
  · rw [if_pos hfirst]
    exact if_pos hfirst
  · rw [if_neg hfirst]
    refine (if_neg hfirst).trans ?_
    by_cases hbin : 0 ≤ searchBin f.recs filetime 0 n
    · rw [if_pos hbin, if_neg (by omega)]
      simp only [Option.elim_some, Int.toNat_of_nonneg hbin]
    · rw [if_neg hbin, if_pos (by omega), if_pos (by omega)]
      have hback : scanBack f filetime ent.toNat = scanBack f filetime (n + 1) := by
        by_cases hin : ent ≤ f.recs.length
        · rw [show ent.toNat = n + 1 by omega]
        · have hnlen : n + 1 = f.recs.length := by omega
          have hlast : ¬ LastHas f.recs filetime := by
            rw [LastHas, ← hnlen]
            exact hfirst
          rcases hstay.resolve_left hlast with h | h | ⟨hslack, hft⟩
          · exact absurd h hin
          · rw [← hnlen] at h
            simp only [Int.natCast_add, Int.natCast_one, Int.add_sub_cancel] at h
            exact absurd h hbin
          · obtain ⟨k, hk⟩ : ∃ k : Nat, ent.toNat = f.recs.length + (k + 1) :=
              ⟨ent.toNat - f.recs.length - 1, by omega⟩
            rw [hk, scanBack_outside hrecs, if_neg (by omega), if_neg hft, hnlen]
      rw [hback, scanBack_inside hrecs hbus filetime (by omega)]
      cases lastIndex f.recs filetime (n + 1) with
      | none => rfl
      | some i =>
          simp only [Option.elim_some]
          exact congrArg Except.ok (by simp)

/-- Otherwise the process is killed, or the search settles on a zero record
behind the file. -/
theorem locate_of_not_stays {f : DirFile} {ent filetime : Int} (hent : 1 ≤ ent)
    (hrecs : f.recs ≠ []) (hbus : f.sigbus = false)
    (hstay : ¬ (LastHas f.recs filetime ∨ SearchStays f ent filetime)) :
    locate f ent filetime = .error .killed ∨
      ∃ pos : Int, f.recs.length < pos ∧ locate f ent filetime = .ok (pos, 0) := by
  have hlen : 0 < f.recs.length := List.length_pos_iff.mpr hrecs
  simp only [SearchStays, not_or, not_and] at hstay
  obtain ⟨hlast, hin, hbin, hslack⟩ := hstay
  obtain ⟨n, hn⟩ : ∃ n : Nat, n + 1 = f.recs.length := ⟨f.recs.length - 1, by omega⟩
  have hpos : (if ent < (f.recs.length : Int) then ent else (f.recs.length : Int)) = n + 1 := by
    split <;> omega
  have hread := read_inside hrecs hbus (show n < f.recs.length by omega)
  have hfirst : ¬ (recAt f.recs n).filetime = filetime := by
    rwa [LastHas, ← hn] at hlast
  rw [← hn] at hbin
  simp only [Int.natCast_add, Int.natCast_one, Int.add_sub_cancel] at hbin
  obtain ⟨k, hk⟩ : ∃ k : Nat, ent.toNat = f.recs.length + (k + 1) :=
    ⟨ent.toNat - f.recs.length - 1, by omega⟩
  have hscan : locate f ent filetime =
      (scanBack f filetime ent.toNat).bind fun pos =>
        .ok ((pos : Int), if pos = 0 then -2 else 0) := by
    simp only [locate, hpos, Int.add_sub_cancel, hread]
    refine (if_neg hfirst).trans ?_
    rw [if_pos (by omega), if_pos (by omega)]
    rfl
  rw [hscan, hk, scanBack_outside hrecs]
  by_cases hout : f.slack < k + 1
  · rw [if_pos hout]
    exact Or.inl rfl
  · have hft : filetime = 0 := by
      by_contra hne
      exact hslack (by omega) hne
    rw [if_neg hout, if_pos hft]
    exact Or.inr ⟨(f.recs.length + (k + 1) : Nat), by omega, rfl⟩

/-! ## All or nothing -/

/-- The call returned 0 and one record with the filetime is gone, or it returned
a negative value and the file is as it was. -/
def AllOrNothing (recs : List FileHeader) (filetime : Int)
    (out : Option (Int × List FileHeader × σ)) : Prop :=
  ∃ ret recs' cbArg, out = some (ret, recs', cbArg) ∧
    ((ret = 0 ∧ ∃ pre r post, recs = pre ++ r :: post ∧ r.filetime = filetime ∧
        recs' = pre ++ post) ∨
      (ret < 0 ∧ recs' = recs))

/-- The callback lets the record go. -/
def Accepts (callback : Option (FileHeader → σ → Int × σ)) (cbArg : σ) (r : FileHeader) : Prop :=
  match callback with
  | none => True
  | some callback => 0 ≤ (callback r cbArg).1

/-- When dropping the last of `r :: post` has the effect of dropping the first,
all of them are equal. -/
theorem getLast_eq_of_dropLast {r : FileHeader} {post : List FileHeader}
    (h : (r :: post).dropLast = post) : (r :: post).getLast (by simp) = r := by
  induction post with
  | nil => rfl
  | cons x post ih =>
      rw [List.dropLast_cons_cons, List.cons.injEq] at h
      obtain ⟨rfl, htail⟩ := h
      rw [List.getLast_cons (by simp)]
      exact ih htail

theorem recAt_last {recs : List FileHeader} (h : recs ≠ []) :
    recAt recs (recs.length - 1 : Nat) = recs.getLast h := by
  have hlen : 0 < recs.length := List.length_pos_iff.mpr h
  rw [recAt_eq_getElem (by omega), List.getLast_eq_getElem]

/-- Cutting the last record off is right only when it is the one to go. -/
theorem allOrNothing_cut {recs : List FileHeader} (hrecs : recs ≠ []) (filetime : Int) (cbArg : σ) :
    AllOrNothing recs filetime (some (0, recs.dropLast, cbArg)) ↔ LastHas recs filetime := by
  rw [LastHas, recAt_last hrecs]
  constructor
  · rintro ⟨ret, recs', cbArg', heq, ⟨-, pre, r, post, rfl, hkey, hcut⟩ | ⟨hneg, -⟩⟩
    · cases heq
      rw [List.dropLast_append_of_ne_nil (by simp), List.append_cancel_left_eq] at hcut
      rw [List.getLast_append_of_ne_nil _ (List.cons_ne_nil r post), getLast_eq_of_dropLast hcut,
        hkey]
    · cases heq
      omega
  · intro hkey
    exact ⟨0, _, cbArg, rfl, Or.inl ⟨rfl, recs.dropLast, recs.getLast hrecs, [],
      (List.dropLast_concat_getLast hrecs).symm, hkey, (List.append_nil _).symm⟩⟩

/-- What a move and a cut leave. -/
theorem moveUp_eq {recs : List FileHeader} {i : Nat} (hi : i < recs.length) :
    ∃ recs', moveUp recs ((i : Int) + 1) = .ok recs' ∧
      recs'.dropLast = recs.take i ++ recs.drop (i + 1) := by
  have hone : (recs.drop (recs.length - 1)).length = 1 := by
    rw [List.length_drop]
    omega
  obtain ⟨r, hr⟩ := List.length_eq_one_iff.mp hone
  have hnat : ((i : Int) + 1).toNat = i + 1 := by omega
  refine ⟨_, if_pos (by omega), ?_⟩
  rw [hnat, hr, List.dropLast_concat, Nat.add_sub_cancel]

/-- The call when the search settles on a record of the file. -/
theorem allOrNothing_removeAt {f : DirFile} (hrecs : f.recs ≠ []) (hbus : f.sigbus = false)
    {i : Nat} (hi : i < f.recs.length) {filetime : Int}
    (hkey : (recAt f.recs i).filetime = filetime)
    (callback : Option (FileHeader → σ → Int × σ)) (cbArg : σ) :
    ∃ recs cbArg', removeAt f ((i : Int) + 1) callback cbArg = .ok (recs, cbArg') ∧
      (AllOrNothing f.recs filetime (some (0, recs.dropLast, cbArg')) ↔
        LastHas f.recs filetime ∨ Accepts callback cbArg (recAt f.recs i)) := by
  obtain ⟨recs', hmove, hcut⟩ := moveUp_eq hi
  have hgood : ∀ cbArg' : σ, AllOrNothing f.recs filetime (some (0, recs'.dropLast, cbArg')) := by
    intro cbArg'
    refine ⟨0, _, cbArg', rfl, Or.inl ⟨rfl, f.recs.take i, f.recs[i], f.recs.drop (i + 1), ?_, ?_,
      hcut⟩⟩
    · rw [← List.drop_eq_getElem_cons hi, List.take_append_drop]
    · rwa [← recAt_eq_getElem hi]
  unfold removeAt Accepts
  cases callback with
  | none =>
      simp only [hmove]
      exact ⟨recs', cbArg, rfl, by simp [hgood]⟩
  | some callback =>
      have hread := read_inside hrecs hbus hi
      simp only [Int.add_sub_cancel, hread, hmove]
      by_cases hok : 0 ≤ (callback (recAt f.recs i) cbArg).1
      · exact ⟨recs', (callback (recAt f.recs i) cbArg).2, if_pos hok, by simp [hgood, hok]⟩
      · refine ⟨f.recs, (callback (recAt f.recs i) cbArg).2, if_neg hok, ?_⟩
        rw [allOrNothing_cut hrecs]
        simp [hok]

/-! ## The body, case by case -/

section Body

variable {f : DirFile} {ent filetime : Int}

/-- A hint below 1, or an empty file: the first access is before the mapping. -/
theorem deleteBody_outside (h : ¬ (1 ≤ ent ∧ f.recs ≠ []))
    (callback : Option (FileHeader → σ → Int × σ)) (cbArg : σ) :
    deleteBody f ent filetime callback cbArg = .error .killed := by
  have hread : f.read ((if ent < (f.recs.length : Int) then ent else f.recs.length) - 1) =
      .error .killed := by
    unfold DirFile.read
    by_cases hrecs : f.recs = []
    · rw [if_pos hrecs]
    · have hent : ¬ 1 ≤ ent := fun hent => h ⟨hent, hrecs⟩
      have hlen : 0 < f.recs.length := List.length_pos_iff.mpr hrecs
      rw [if_neg hrecs, if_neg (by split <;> omega), if_neg (by split <;> omega)]
  simp only [deleteBody, locate, hread]
  rfl

/-- A mapping that faults does so at the first access already. -/
theorem deleteBody_sigbus (hent : 1 ≤ ent) (hrecs : f.recs ≠ []) (hbus : f.sigbus = true)
    (callback : Option (FileHeader → σ → Int × σ)) (cbArg : σ) :
    deleteBody f ent filetime callback cbArg = .error .sigbus := by
  have hlen : 0 < f.recs.length := List.length_pos_iff.mpr hrecs
  have hread : f.read ((if ent < (f.recs.length : Int) then ent else f.recs.length) - 1) =
      .error .sigbus := by
    rw [DirFile.read, if_neg hrecs, if_pos (by split <;> omega), hbus]
    rfl
  simp only [deleteBody, locate, hread]
  rfl

/-- No record has the filetime. -/
theorem deleteBody_none (hent : 1 ≤ ent) (hrecs : f.recs ≠ []) (hbus : f.sigbus = false)
    (hstay : LastHas f.recs filetime ∨ SearchStays f ent filetime)
    (hlook : lookup f.recs ent filetime = none) (callback : Option (FileHeader → σ → Int × σ))
    (cbArg : σ) : deleteBody f ent filetime callback cbArg = .ok (-2, f.recs, cbArg) := by
  simp only [deleteBody, locate_of_stays hent hrecs hbus hstay, hlook]
  rfl

theorem deleteBody_of_locate {pos : Int} (h : locate f ent filetime = .ok (pos, 0))
    (callback : Option (FileHeader → σ → Int × σ)) (cbArg : σ) :
    deleteBody f ent filetime callback cbArg =
      (removeAt f pos callback cbArg).map fun x => (0, x.1, x.2) := by
  rw [deleteBody, h]
  change ((removeAt f pos callback cbArg).bind fun x => .ok ((0 : Int), x.1, x.2)) = _
  cases removeAt f pos callback cbArg <;> rfl

/-- The search settles on a record of the file. -/
theorem deleteBody_some (hent : 1 ≤ ent) (hrecs : f.recs ≠ []) (hbus : f.sigbus = false)
    (hstay : LastHas f.recs filetime ∨ SearchStays f ent filetime) {i : Nat}
    (hlook : lookup f.recs ent filetime = some i) (callback : Option (FileHeader → σ → Int × σ))
    (cbArg : σ) : deleteBody f ent filetime callback cbArg =
      (removeAt f ((i : Int) + 1) callback cbArg).map fun x => (0, x.1, x.2) :=
  deleteBody_of_locate (by rw [locate_of_stays hent hrecs hbus hstay, hlook]; rfl) callback cbArg

/-- Behind the file nothing can be moved. -/
theorem removeAt_behind (hrecs : f.recs ≠ []) {pos : Int} (hpos : f.recs.length < pos)
    (callback : Option (FileHeader → σ → Int × σ)) (cbArg : σ) :
    removeAt f pos callback cbArg = .error .killed ∨
      ∃ cbArg', removeAt f pos callback cbArg = .ok (f.recs, cbArg') := by
  have hmove : moveUp f.recs pos = .error .killed := if_neg (by omega)
  unfold removeAt
  cases callback with
  | none =>
      simp only [hmove]
      exact Or.inl rfl
  | some callback =>
      have hread : f.read (pos - 1) = .error .killed ∨ f.read (pos - 1) = .ok zeroHeader := by
        rw [DirFile.read, if_neg hrecs, if_neg (by omega)]
        split
        · exact Or.inr rfl
        · exact Or.inl rfl
      simp only [hmove]
      cases hread with
      | inl hkill =>
          rw [hkill]
          exact Or.inl rfl
      | inr hzero =>
          rw [hzero]
          by_cases hok : 0 ≤ (callback zeroHeader cbArg).1
          · exact Or.inl (if_pos hok)
          · exact Or.inr ⟨_, if_neg hok⟩

/-- The search leaves the file: the process is killed, or the callback vetoes
what it is shown there. -/
theorem deleteBody_not_stays (hent : 1 ≤ ent) (hrecs : f.recs ≠ []) (hbus : f.sigbus = false)
    (hstay : ¬ (LastHas f.recs filetime ∨ SearchStays f ent filetime))
    (callback : Option (FileHeader → σ → Int × σ)) (cbArg : σ) :
    deleteBody f ent filetime callback cbArg = .error .killed ∨
      ∃ cbArg', deleteBody f ent filetime callback cbArg = .ok (0, f.recs, cbArg') := by
  cases locate_of_not_stays hent hrecs hbus hstay with
  | inl hkill =>
      simp only [deleteBody, hkill]
      exact Or.inl rfl
  | inr hbehind =>
      obtain ⟨pos, hpos, hlocate⟩ := hbehind
      rw [deleteBody_of_locate hlocate]
      cases removeAt_behind hrecs hpos callback cbArg with
      | inl hkill =>
          rw [hkill]
          exact Or.inl rfl
      | inr hveto =>
          obtain ⟨cbArg', hveto⟩ := hveto
          rw [hveto]
          exact Or.inr ⟨cbArg', rfl⟩

end Body

/-! ## Deletion from a sorted file -/

/-- A hint that is not before the record leads to it. -/
theorem lookup_sorted {recs : List FileHeader} (hs : SortedByTime recs) {j : Nat}
    (hj : j < recs.length) {ent : Int} (hent : j < ent) :
    lookup recs ent (recAt recs j).filetime = some j := by
  have hpos : j < min ent.toNat recs.length := by omega
  simp only [lookup]
  by_cases hfirst : (recAt recs (min ent.toNat recs.length - 1 : Nat)).filetime =
      (recAt recs j).filetime
  · rw [if_pos hfirst, hs.index_unique (by omega) hj hfirst]
  · have hsearch : searchBin recs (recAt recs j).filetime 0
        (((min ent.toNat recs.length : Nat) : Int) - 1) = j :=
      searchBin_sorted (hs.between (Int.le_refl 0) (by omega)) (Int.le_refl 0) (by omega) (by omega)
        rfl
    rw [if_neg hfirst, hsearch, if_pos (Int.natCast_nonneg j), Int.toNat_natCast]

theorem searchStays_sorted {f : DirFile} (hs : SortedByTime f.recs) {j : Nat}
    (hj : j < f.recs.length) (ent : Int) : SearchStays f ent (recAt f.recs j).filetime := by
  have hsearch : searchBin f.recs (recAt f.recs j).filetime 0 ((f.recs.length : Int) - 1) = j :=
    searchBin_sorted (hs.between (Int.le_refl 0) (by omega)) (Int.le_refl 0) (by omega) (by omega)
      rfl
  exact Or.inr (Or.inl (by omega))

/-- **A record of a sorted file is deleted**, with any hint that is not before it
and a callback that accepts it. -/
theorem deleteDirCallback_sorted {f : DirFile} (hopen : f.opens = true) (hbus : f.sigbus = false)
    (hs : SortedByTime f.recs) {j : Nat} (hj : j < f.recs.length) {ent : Int} (hent : j < ent)
    (callback : FileHeader → σ → Int × σ) (cbArg : σ)
    (hok : 0 ≤ (callback (recAt f.recs j) cbArg).1) :
    deleteDirCallback f ent (recAt f.recs j).filetime (some callback) cbArg =
      some (0, f.recs.take j ++ f.recs.drop (j + 1), (callback (recAt f.recs j) cbArg).2) := by
  have hrecs : f.recs ≠ [] := by
    rintro hnil
    simp [hnil] at hj
  obtain ⟨recs', hmove, hcut⟩ := moveUp_eq hj
  have hremove : removeAt f ((j : Int) + 1) (some callback) cbArg =
      .ok (recs', (callback (recAt f.recs j) cbArg).2) := by
    simp only [removeAt, Int.add_sub_cancel, read_inside hrecs hbus hj, hmove]
    exact if_pos hok
  have hbody := deleteBody_some (by omega) hrecs hbus (Or.inr (searchStays_sorted hs hj ent))
    (lookup_sorted hs hj hent) (some callback) cbArg
  rw [deleteDirCallback, if_neg (by simp [hopen]), hbody, hremove]
  simp only [Except.map, if_true, hcut]

theorem not_allOrNothing_killed (recs : List FileHeader) (filetime : Int) :
    ¬ AllOrNothing recs filetime (none : Option (Int × List FileHeader × σ)) := by
  rintro ⟨_, _, _, h, -⟩
  cases h

/-- **When a deletion is all or nothing**: the file does not open; or the hint
is positive, the file is not empty, and either the last record is the one to
go anyway, or the mapping does not fault, the search stays in the mapping, and
the callback does not veto the record it settles on. -/
theorem deleteDirCallback_iff (f : DirFile) (ent filetime : Int)
    (callback : Option (FileHeader → σ → Int × σ)) (cbArg : σ) :
    AllOrNothing f.recs filetime (deleteDirCallback f ent filetime callback cbArg) ↔
      f.opens = false ∨
        (1 ≤ ent ∧ f.recs ≠ [] ∧
          (LastHas f.recs filetime ∨
            (f.sigbus = false ∧ SearchStays f ent filetime ∧
              ∀ i, lookup f.recs ent filetime = some i →
                Accepts callback cbArg (recAt f.recs i)))) := by
  unfold deleteDirCallback
  cases hopen : f.opens with
  | false =>
      simp only [if_true, true_or, iff_true]
      exact ⟨-1, _, cbArg, rfl, Or.inr ⟨by omega, rfl⟩⟩
  | true =>
      simp only [Bool.true_eq_false, if_false, false_or]
      by_cases hin : 1 ≤ ent ∧ f.recs ≠ []
      · obtain ⟨hent, hrecs⟩ := hin
        simp only [hent, hrecs, ne_eq, not_false_eq_true, true_and]
        cases hbus : f.sigbus with
        | true =>
            rw [deleteBody_sigbus hent hrecs hbus]
            simp only [Bool.true_eq_false, false_and, or_false]
            exact allOrNothing_cut hrecs filetime cbArg
        | false =>
            simp only [true_and]
            by_cases hstay : LastHas f.recs filetime ∨ SearchStays f ent filetime
            · cases hlook : lookup f.recs ent filetime with
              | none =>
                  rw [deleteBody_none hent hrecs hbus hstay hlook]
                  simp only [reduceCtorEq, false_implies, implies_true, and_true, hstay, iff_true]
                  exact ⟨-2, _, cbArg, rfl, Or.inr ⟨by omega, rfl⟩⟩
              | some i =>
                  obtain ⟨hi, hkey⟩ := lookup_spec hent hrecs hlook
                  obtain ⟨recs, cbArg', hremove, hiff⟩ :=
                    allOrNothing_removeAt hrecs hbus hi hkey callback cbArg
                  rw [deleteBody_some hent hrecs hbus hstay hlook, hremove]
                  simp only [Except.map, if_true, hiff, Option.some.injEq, forall_eq']
                  tauto
            · have hlast : ¬ LastHas f.recs filetime := fun h => hstay (Or.inl h)
              have hcond : ¬ (LastHas f.recs filetime ∨ SearchStays f ent filetime ∧
                  ∀ i, lookup f.recs ent filetime = some i →
                    Accepts callback cbArg (recAt f.recs i)) := by tauto
              simp only [hcond, iff_false]
              cases deleteBody_not_stays hent hrecs hbus hstay callback cbArg with
              | inl hkill =>
                  rw [hkill]
                  exact not_allOrNothing_killed f.recs filetime
              | inr hveto =>
                  obtain ⟨cbArg', hveto⟩ := hveto
                  rw [hveto]
                  exact fun h => hlast ((allOrNothing_cut hrecs filetime cbArg').mp h)
      · rw [deleteBody_outside hin]
        have hcond : ∀ p : Prop, ¬ (1 ≤ ent ∧ f.recs ≠ [] ∧ p) := fun p h => hin ⟨h.1, h.2.1⟩
        simp only [hcond, iff_false]
        exact not_allOrNothing_killed f.recs filetime

/-- When the callback vetoes the removal of the first, the second is cut off. -/
theorem deleteDirCallback_veto :
    ¬ AllOrNothing twoRecords 1
        (deleteDirCallback ⟨true, twoRecords, 30, false⟩ 1 1 (some fun _ cbArg => (-1, cbArg)) ()) := by
  have hout : deleteDirCallback ⟨true, twoRecords, 30, false⟩ 1 1
      (some fun _ cbArg => (-1, cbArg)) () = some (0, twoRecords.dropLast, ()) := rfl
  rw [hout, allOrNothing_cut (by simp [twoRecords])]
  unfold LastHas
  decide

end Ytht
