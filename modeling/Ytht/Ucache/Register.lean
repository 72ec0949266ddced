import Mathlib.Data.List.Range
import Ytht.Ucache.Passwd

/-!
# Ucache.Register

A registration that fails.  `insertuserec` takes a slot off the free list before
it opens `.PASSWDS`, moves to the slot and writes the record; each of the three
may fail, and the first two failures put the slot back.  A failure of the write
does not: the slot is in no chain from then on.
-/

namespace Ytht

open Bytes Function

/-- How the three steps end; a write that fails leaves something in the record. -/
structure RegisterIo extends PasswdIo where
  torn : Option Userec

/-- `insertuserec`, with a `write` that may fail. -/
def insertuserecIo (c : HashConf) (s : Ucache) (x : Userec) (io : RegisterIo) :
    Option (Int × Ucache) := do
  let found ← finduseridhash c s x.userid.bytes
  if 0 < found then some (0, s)
  else
    let (i, s) ← deluseridhash c s []
    if i ≤ 0 then some (-1, s)
    else if !io.opens then some (-1, insertuseridhash c s [] i.toNat true)
    else if !io.seeks then some (-1, insertuseridhash c s [] i.toNat true)
    else
      match io.torn with
      | some torn => some (-1, { s with passwd := update s.passwd (i.toNat - 1) torn })
      | none =>
          let s := { s with passwd := update s.passwd (i.toNat - 1) x }
          some (i, insertuseridhash c s x.userid.bytes i.toNat true)

/-- With a write that does not fail it is the call of the histories. -/
theorem insertuserecIo_whole (c : HashConf) (s : Ucache) (x : Userec) (io : PasswdIo) :
    insertuserecIo c s x ⟨io, none⟩ = insertuserec c s x io := rfl

/-! ## What a failure has to keep -/

/-- Slot `x` is met on the walk along chain `h`. -/
def Ucache.Linked (s : Ucache) (h x : Nat) : Prop :=
  ∃ l, Chain.IsChain s.next (s.hashHead h) l ∧ x ∈ l

/-- The number of empty slots. -/
def Ucache.empties (c : HashConf) (s : Ucache) : Nat :=
  (List.range' 1 c.maxusers).countP fun x => (s.userid x).isEmpty

/-- The table `s'` has the chains of `s`; its free list has every empty slot and
`next[0]` is their number. -/
structure TableKept (c : HashConf) (s s' : Ucache) : Prop where
  chains : ∀ h x, s'.Linked h x ↔ s.Linked h x
  free : ∀ x, c.Slot x → s'.userid x = [] → s'.Linked 0 x
  count : s'.next 0 = s'.empties c

/-- The write is reached, and fails: the id is new, a slot is free, and `.PASSWDS`
opens and seeks. -/
def WriteFails (c : HashConf) (s : Ucache) (x : Userec) (io : RegisterIo) : Prop :=
  (∀ z, c.Slot z → ¬ strcasecmp x.userid.bytes (s.userid z) = true) ∧
    (∃ z, c.Slot z ∧ s.userid z = []) ∧ io.opens = true ∧ io.seeks = true ∧ io.torn.isSome = true

section Kept

variable {c : HashConf} {live : Nat → Prop} {s s' : Ucache} {own own' : Nat → List Nat}

theorem Ucache.Inv.linked_iff (h : s.Inv c live own) (k x : Nat) :
    s.Linked k x ↔ live x ∧ ucacheHash c (s.userid x) = k := by
  rw [← h.mem]
  constructor
  · rintro ⟨l, hl, hx⟩
    rwa [hl.unique (h.threaded.chain k)] at hx
  · exact fun hx => ⟨own k, h.threaded.chain k, hx⟩

/-- The free list of a whole table has the empty slots, each once. -/
theorem Ucache.Inv.count_empties (h : s.Inv c c.Slot own) : s.next 0 = s.empties c := by
  rw [h.count, Ucache.empties, List.countP_eq_length_filter]
  refine List.Perm.length_eq ?_
  refine (List.perm_ext_iff_of_nodup (h.threaded.nodup 0) ((List.nodup_range' ..).filter _)).mpr ?_
  intro x
  rw [h.mem, ucacheHash_eq_zero, List.mem_filter, List.mem_range'_1, List.isEmpty_iff]
  unfold HashConf.Slot
  refine and_congr_left fun _ => ?_
  omega

/-- A whole table with the same records is kept. -/
theorem TableKept.of_inv (h : s.Inv c c.Slot own) (h' : s'.Inv c c.Slot own')
    (hp : s'.passwd = s.passwd) : TableKept c s s' where
  chains k x := by
    have hid : s'.userid x = s.userid x := congrArg (fun p => (p (x - 1)).userid.bytes) hp
    rw [h.linked_iff, h'.linked_iff, hid]
  free x hx hid := by
    rw [h'.linked_iff, ucacheHash_eq_zero]
    exact ⟨hx, hid⟩
  count := h'.count_empties

/-- A slot that was linked in and is no longer. -/
theorem not_tableKept {y : Nat} (h : s.Inv c c.Slot own) (hy : c.Slot y)
    (h' : s'.Inv c (fun z => c.Slot z ∧ z ≠ y) own') : ¬ TableKept c s s' := by
  intro hkept
  have hin : s.Linked (ucacheHash c (s.userid y)) y := (h.linked_iff _ y).mpr ⟨hy, rfl⟩
  exact ((h'.linked_iff _ y).mp ((hkept.chains _ y).mpr hin)).1.2 rfl

/-- **How a registration ends**: where it fails before the write the table is
kept, and where the write fails a slot is lost. -/
theorem insertuserecIo_cases (h : s.Inv c c.Slot own) (x : Userec) (io : RegisterIo) :
    ∃ r s', insertuserecIo c s x io = some (r, s') ∧
      ((r ≠ -1 ∧ ¬ WriteFails c s x io) ∨
        (r = -1 ∧ ¬ WriteFails c s x io ∧ TableKept c s s') ∨
        (r = -1 ∧ WriteFails c s x io ∧ ¬ TableKept c s s')) := by
  unfold insertuserecIo
  rcases h.find_cases x.userid.bytes with ⟨hfind, hnew⟩ | ⟨y, hfind, hy, hid⟩
  · rw [hfind]
    simp only [Option.bind_eq_bind, Option.bind_some]
    rw [if_neg (by omega)]
    rcases h.find_cases [] with ⟨-, hfull⟩ | ⟨y, hfree, hy, hyid⟩
    · rw [h.deluseridhash_none hfull]
      refine ⟨-1, s, rfl, Or.inr (Or.inl ⟨rfl, ?_, TableKept.of_inv h h rfl⟩)⟩
      rintro ⟨-, ⟨z, hz, hzid⟩, -⟩
      exact hfull z hz (by rw [hzid]; rfl)
    · obtain ⟨s1, own1, hdel, hpasswd, hinv⟩ := h.deluseridhash hfree
      have hslot : 1 ≤ y := hy.1
      have huserid : ∀ z, s1.userid z = s.userid z := fun z =>
        congrArg (fun p => (p (z - 1)).userid.bytes) hpasswd
      obtain ⟨own2, hback⟩ := hinv.putBack hy (by rwa [huserid])
      have hkept := TableKept.of_inv h hback (by simp [hpasswd])
      rw [hdel]
      simp only [Option.bind_some, Int.toNat_natCast]
      rw [if_neg (by omega)]
      split
      · next hopen =>
        refine ⟨-1, _, rfl, Or.inr (Or.inl ⟨rfl, ?_, hkept⟩)⟩
        rintro ⟨-, -, hopens, -⟩
        rw [hopens] at hopen
        contradiction
      split
      · next hseek =>
        refine ⟨-1, _, rfl, Or.inr (Or.inl ⟨rfl, ?_, hkept⟩)⟩
        rintro ⟨-, -, -, hseeks, -⟩
        rw [hseeks] at hseek
        contradiction
      next hopen hseek =>
      cases htorn : io.torn with
      | none =>
          refine ⟨y, _, rfl, Or.inl ⟨by omega, ?_⟩⟩
          rintro ⟨-, -, -, -, hfails⟩
          rw [htorn] at hfails
          contradiction
      | some torn =>
          have hempty : s.userid y = [] :=
            strcasecmp_nil_right.mp (strcasecmp_symm hyid)
          have hlost := hinv.setPasswd (x := torn) hy fun hlive => absurd rfl hlive.2
          exact ⟨-1, _, rfl, Or.inr (Or.inr ⟨rfl, ⟨hnew, ⟨y, hy, hempty⟩, by simpa using hopen,
            by simpa using hseek, by rw [htorn]; rfl⟩, not_tableKept h hy hlost⟩)⟩
  · have hslot : 1 ≤ y := hy.1
    rw [hfind]
    simp only [Option.bind_eq_bind, Option.bind_some]
    rw [if_pos (by omega)]
    exact ⟨0, s, rfl, Or.inl ⟨by decide, fun hfails => hfails.1 y hy hid⟩⟩

end Kept

/-- **A failed registration keeps the table exactly when it is not the write that
fails.** -/
theorem insertuserec_keeps_iff {c : HashConf} {s : Ucache} (h : PasswdReachable c s) (x : Userec)
    (io : RegisterIo) :
    (∀ s', insertuserecIo c s x io = some (-1, s') → TableKept c s s') ↔
      ¬ WriteFails c s x io := by
  obtain ⟨own, hinv, -⟩ := h.inv
  obtain ⟨r, s', heq, hcases⟩ := insertuserecIo_cases hinv x io
  constructor
  · intro hkeeps hfails
    rcases hcases with ⟨-, hnot⟩ | ⟨-, hnot, -⟩ | ⟨rfl, -, hlost⟩
    · exact hnot hfails
    · exact hnot hfails
    · exact hlost (hkeeps s' heq)
  · intro hnot s1 hs1
    rw [heq, Option.some.injEq, Prod.mk.injEq] at hs1
    obtain ⟨rfl, rfl⟩ := hs1
    rcases hcases with ⟨hne, -⟩ | ⟨-, -, hkept⟩ | ⟨-, hfails, -⟩
    · exact absurd rfl hne
    · exact hkept
    · exact absurd hfails hnot

/-- A registration of `cd` next to `Ab`. -/
def cdUserec : Userec := ⟨⟨[99, 100], by decide, by decide⟩, 0⟩

/-- A write that fails and leaves an empty record. -/
def fullDisk : RegisterIo := ⟨⟨true, true⟩, some emptyUserec⟩

/-- `.PASSWDS` does not open. -/
def noFile : RegisterIo := ⟨⟨false, true⟩, none⟩

theorem exists_onePasswd : ∃ s, PasswdReachable twoUsers s ∧ s.passwd = onePasswd := by
  obtain ⟨s, own, hload, hpasswd, -⟩ := loadUcache_spec onePasswd_distinct
  exact ⟨s, ⟨onePasswd, onePasswd_distinct, s, hload, Relation.ReflTransGen.refl⟩, hpasswd⟩

theorem insertuserec_keeps_iff_noFile :
    ∃ s, PasswdReachable twoUsers s ∧
      ((∀ s', insertuserecIo twoUsers s cdUserec noFile = some (-1, s') → TableKept twoUsers s s') ↔
        ¬ WriteFails twoUsers s cdUserec noFile) := by
  obtain ⟨s, hreach, -⟩ := exists_onePasswd
  exact ⟨s, hreach, insertuserec_keeps_iff hreach cdUserec noFile⟩

/-- The disk is full when `cd` registers: the second slot is lost. -/
theorem insertuserec_loses_slot :
    ∃ s s', PasswdReachable twoUsers s ∧
      insertuserecIo twoUsers s cdUserec fullDisk = some (-1, s') ∧ ¬ TableKept twoUsers s s' := by
  obtain ⟨s, hreach, hpasswd⟩ := exists_onePasswd
  have hid : ∀ z, s.userid z = (onePasswd (z - 1)).userid.bytes := fun z =>
    congrArg (fun p => (p (z - 1)).userid.bytes) hpasswd
  have hfails : WriteFails twoUsers s cdUserec fullDisk := by
    refine ⟨fun z hz => ?_, ⟨2, by decide, (hid 2).trans rfl⟩, rfl, rfl, rfl⟩
    rw [hid]
    obtain rfl | rfl : z = 1 ∨ z = 2 := by
      have hmax : twoUsers.maxusers = 2 := rfl
      unfold HashConf.Slot at hz
      omega
    · decide
    · decide
  obtain ⟨own, hinv, -⟩ := hreach.inv
  obtain ⟨r, s', heq, ⟨-, hnot⟩ | ⟨-, hnot, -⟩ | ⟨rfl, -, hlost⟩⟩ :=
    insertuserecIo_cases hinv cdUserec fullDisk
  · exact absurd hfails hnot
  · exact absurd hfails hnot
  · exact ⟨s, s', hreach, heq, hlost⟩

end Ytht
