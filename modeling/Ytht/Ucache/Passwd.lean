import Mathlib.Logic.Relation
import Mathlib.Tactic.ByContra
import Ytht.Ucache.Table

/-!
# Ucache.Passwd

The operations on `.PASSWDS` that keep the hash of user ids up to date:
`load_ucache` builds it, `insertuserec` moves a slot from the free list to the
chain of a new id, `deluserec` moves it back, `kickoutuserec` leaves it alone.
Opening and seeking may fail at every call, and the slot that was taken out is
then put back where it was.

`PasswdReachable.wellFormed` is the invariant of all histories.
-/

namespace Ytht

open Bytes Function

/-! ## load_ucache -/

/-- The test for a duplicate in `load_ucache`. -/
def isDuplicate (c : HashConf) (s : Ucache) (userid : List UInt8) : Option Bool :=
  if userid = [] then some false else (finduseridhash c s userid).map fun r => decide (0 < r)

/-- The loop of `load_ucache`, with `k` slots to go from index `i`. -/
def loadLoop (c : HashConf) : Nat → Nat → Ucache → Option (Int × Ucache)
  | 0, _, s => some (0, s)
  | k + 1, i, s => do
      let userid := (s.passwd i).userid.bytes
      let dup ← isDuplicate c s userid
      if dup then some (-1, s)
      else loadLoop c k (i + 1) (insertuseridhash c s userid (i + 1) false)

/-- `load_ucache`, after `ucache_hashinit` has read the table. -/
def loadUcache (c : HashConf) (passwd : Nat → Userec) : Option (Int × Ucache) :=
  loadLoop c c.maxusers 0 (Ucache.cleared passwd)

/-! ## insertuserec, kickoutuserec, deluserec -/

/-- How `open` and `lseek` on `.PASSWDS` end. -/
structure PasswdIo where
  opens : Bool
  seeks : Bool

/-- `insertuserec`. -/
def insertuserec (c : HashConf) (s : Ucache) (x : Userec) (io : PasswdIo) :
    Option (Int × Ucache) := do
  let found ← finduseridhash c s x.userid.bytes
  if 0 < found then some (0, s)
  else
    let (i, s) ← deluseridhash c s []
    if i ≤ 0 then some (-1, s)
    else if !io.opens then some (-1, insertuseridhash c s [] i.toNat true)
    else if !io.seeks then some (-1, insertuseridhash c s [] i.toNat true)
    else
      let s := { s with passwd := update s.passwd (i.toNat - 1) x }
      some (i, insertuseridhash c s x.userid.bytes i.toNat true)

/-- `kickoutuserec` at the time `now`. -/
def kickoutuserec (c : HashConf) (s : Ucache) (userid : List UInt8) (now : Int) (io : PasswdIo) :
    Option (Int × Ucache) := do
  let i ← finduseridhash c s userid
  if i ≤ 0 ∨ (c.maxusers : Int) < i then some (-1, s)
  else
    let rec1 := s.passwd (i.toNat - 1)
    if rec1.kickout ≠ 0 then some (0, s)
    else if !io.opens then some (-1, s)
    else if !io.seeks then some (-1, s)
    else some (0, { s with passwd := update s.passwd (i.toNat - 1) { rec1 with kickout := now } })

/-- `deluserec` at the time `now`. -/
def deluserec (c : HashConf) (s : Ucache) (userid : List UInt8) (now : Int) (io : PasswdIo) :
    Option (Int × Ucache) := do
  let i ← finduseridhash c s userid
  if i ≤ 0 ∨ (c.maxusers : Int) < i then some (0, s)
  else
    let kickout := (s.passwd (i.toNat - 1)).kickout
    if kickout = 0 ∨ now - kickout ≤ 86400 - 3600 then some (0, s)
    else
      let (r, s) ← deluseridhash c s userid
      if r ≤ 0 then some (-1, s)
      else if !io.opens then some (-1, insertuseridhash c s userid i.toNat true)
      else if !io.seeks then some (-1, insertuseridhash c s userid i.toNat true)
      else
        let s := { s with passwd := update s.passwd (i.toNat - 1) emptyUserec }
        some (0, insertuseridhash c s [] i.toNat true)

/-! ## Histories -/

/-- One call, with any arguments and any I/O failures. -/
inductive PasswdStep (c : HashConf) (s s' : Ucache) : Prop
  | insert (x : Userec) (io : PasswdIo) (r : Int) (h : insertuserec c s x io = some (r, s'))
  | kickout (userid : CStr (idlen + 1)) (now : Int) (io : PasswdIo) (r : Int)
      (h : kickoutuserec c s userid.bytes now io = some (r, s'))
  | delete (userid : CStr (idlen + 1)) (now : Int) (io : PasswdIo) (r : Int)
      (h : deluserec c s userid.bytes now io = some (r, s'))

/-- The states reached from `load_ucache` on an array without duplicate ids. -/
def PasswdReachable (c : HashConf) (s : Ucache) : Prop :=
  ∃ passwd : Nat → Userec,
    (∀ i j, i < c.maxusers → j < c.maxusers → (passwd i).userid.bytes ≠ [] →
      strcasecmp (passwd i).userid.bytes (passwd j).userid.bytes = true → i = j) ∧
    ∃ s0, loadUcache c passwd = some (0, s0) ∧ Relation.ReflTransGen (PasswdStep c) s0 s

/-- What the hash of user ids promises. -/
structure Ucache.WellFormed (c : HashConf) (s : Ucache) : Prop where
  /-- All chains end, and hold slots only; each slot is in exactly one, once. -/
  chains : ∃ own : Nat → List Nat,
    (∀ h, Chain.IsChain s.next (s.hashHead h) (own h) ∧ (own h).Nodup ∧ ∀ x ∈ own h, c.Slot x) ∧
    (∀ x, c.Slot x → ∃! h, x ∈ own h) ∧
    (∀ x, c.Slot x → x ∈ own (ucacheHash c (s.userid x))) ∧
    (∀ x, x ∈ own 0 ↔ c.Slot x ∧ s.userid x = []) ∧
    s.next 0 = (own 0).length
  /-- An id that is there is in one slot, and found there. -/
  found : ∀ (u : CStr (idlen + 1)) (x : Nat), u.bytes ≠ [] → c.Slot x →
    strcasecmp u.bytes (s.userid x) = true →
    finduseridhash c s u.bytes = some (x : Int) ∧
      ∀ y, c.Slot y → strcasecmp u.bytes (s.userid y) = true → y = x
  notFound : ∀ u : CStr (idlen + 1), (∀ x, c.Slot x → ¬ strcasecmp u.bytes (s.userid x) = true) →
    finduseridhash c s u.bytes = some (-1)
  /-- No call is caught in a chain without end. -/
  returns : (∀ x io, (insertuserec c s x io).isSome) ∧
    (∀ u now io, (kickoutuserec c s u now io).isSome) ∧
    ∀ u now io, (deluserec c s u now io).isSome

/-- The id in a slot that has just been written, and in the others. -/
theorem userid_update {s : Ucache} {c : HashConf} {x : Userec} {y : Nat} (hy : c.Slot y) (z : Nat)
    (hz : c.Slot z) :
    Ucache.userid { s with passwd := update s.passwd (y - 1) x } z =
      if z = y then x.userid.bytes else s.userid z := by
  unfold HashConf.Slot at hy hz
  unfold Ucache.userid
  by_cases hzy : z = y
  · simp only [hzy, update_self, if_true]
  · simp only [if_neg hzy, update_of_ne (show z - 1 ≠ y - 1 by omega)]

/-- Writing a slot that is not linked in, or writing the same id, does not matter. -/
theorem Ucache.Inv.setPasswd {c : HashConf} {live : Nat → Prop} {s : Ucache}
    {own : Nat → List Nat} (h : s.Inv c live own) {y : Nat} {x : Userec} (hy : c.Slot y)
    (hx : live y → x.userid.bytes = s.userid y) :
    Ucache.Inv c live { s with passwd := update s.passwd (y - 1) x } own := by
  refine ⟨h.threaded, h.slots, fun k z => ?_, h.count⟩
  rw [h.mem]
  refine and_congr_right fun hz => ?_
  rw [userid_update hy z (h.slots z hz)]
  by_cases hzy : z = y
  · subst hzy
    rw [if_pos rfl, hx hz]
  · rw [if_neg hzy]

/-- A new id that is nowhere else keeps the ids distinct. -/
theorem Ucache.Distinct.setPasswd {c : HashConf} {s : Ucache} (h : s.Distinct c) {y : Nat}
    {x : Userec} (hy : c.Slot y)
    (hx : x.userid.bytes ≠ [] →
      ∀ z, c.Slot z → strcasecmp x.userid.bytes (s.userid z) = true → z = y) :
    Ucache.Distinct c { s with passwd := update s.passwd (y - 1) x } := by
  intro z w hz hw hne hsame
  rw [userid_update hy z hz] at hne hsame
  rw [userid_update hy w hw] at hsame
  by_cases hzy : z = y
  · by_cases hwy : w = y
    · rw [hzy, hwy]
    · rw [if_pos hzy] at hne hsame
      rw [if_neg hwy] at hsame
      rw [hzy, hx hne w hw hsame]
  · by_cases hwy : w = y
    · rw [if_neg hzy] at hne hsame
      rw [if_pos hwy] at hsame
      have hxne : x.userid.bytes ≠ [] := fun hnil =>
        hne (strcasecmp_nil_right.mp (hnil ▸ hsame))
      rw [hwy, hx hxne z hz (strcasecmp_symm hsame)]
    · rw [if_neg hzy] at hne hsame
      rw [if_neg hwy] at hsame
      exact h z w hz hw hne hsame

theorem Ucache.Distinct.of_passwd {c : HashConf} {s s' : Ucache} (h : s.Distinct c)
    (hp : s'.passwd = s.passwd) : s'.Distinct c := by
  unfold Ucache.Distinct Ucache.userid at h ⊢
  rwa [hp]

/-- A slot that was taken out is linked in again. -/
theorem Ucache.Inv.putBack {c : HashConf} {s : Ucache} {own : Nat → List Nat} {y : Nat}
    {userid : List UInt8} (h : Ucache.Inv c (fun z => c.Slot z ∧ z ≠ y) s own) (hy : c.Slot y)
    (hid : strcasecmp userid (s.userid y) = true) :
    ∃ own', Ucache.Inv c c.Slot (Ytht.insertuseridhash c s userid y true) own' := by
  have hins : Ucache.Inv c _ (Ytht.insertuseridhash c s userid y true) _ :=
    h.insertuseridhash (fun hlive => hlive.2 rfl) hy hid (Or.inr rfl)
  refine ⟨_, hins.congr fun z => ?_⟩
  by_cases hz : z = y <;> simp [hz, hy]

/-- A slot that was taken out, and a record written to it, is linked in under the
new id. -/
theorem Ucache.Inv.rewrite {c : HashConf} {s : Ucache} {own : Nat → List Nat} {y : Nat}
    (h : Ucache.Inv c (fun z => c.Slot z ∧ z ≠ y) s own) (hy : c.Slot y) (x : Userec) :
    ∃ own', Ucache.Inv c c.Slot (Ytht.insertuseridhash c
      { s with passwd := update s.passwd (y - 1) x } x.userid.bytes y true) own' := by
  refine (h.setPasswd hy fun hlive => absurd rfl hlive.2).putBack hy ?_
  rw [userid_update hy y hy, if_pos rfl]
  exact strcasecmp_refl _

/-- **A slot is taken out**, and then put back, or written anew with an id that is
nowhere else. -/
theorem Ucache.Inv.takeOut {c : HashConf} {s : Ucache} {own : Nat → List Nat}
    (h : s.Inv c c.Slot own) (hd : s.Distinct c) {userid : List UInt8} {y : Nat}
    (hfind : finduseridhash c s userid = some (y : Int)) (hy : c.Slot y)
    (hid : strcasecmp userid (s.userid y) = true) :
    ∃ s1, Ytht.deluseridhash c s userid = some ((y : Int), s1) ∧
      (∃ own1, (Ytht.insertuseridhash c s1 userid y true).Inv c c.Slot own1 ∧
        (Ytht.insertuseridhash c s1 userid y true).Distinct c) ∧
      ∀ x : Userec, (x.userid.bytes ≠ [] →
          ∀ z, c.Slot z → strcasecmp x.userid.bytes (s.userid z) = true → z = y) →
        ∃ s2 own2, Ytht.insertuseridhash c { s1 with passwd := update s1.passwd (y - 1) x }
            x.userid.bytes y true = s2 ∧ s2.Inv c c.Slot own2 ∧ s2.Distinct c := by
  obtain ⟨s1, own1, hdel, hpasswd, hinv⟩ := h.deluseridhash hfind
  have huserid : ∀ z, s1.userid z = s.userid z := by
    intro z
    unfold Ucache.userid
    rw [hpasswd]
  have hd1 : s1.Distinct c := hd.of_passwd hpasswd
  refine ⟨s1, hdel, ?_, fun x hx => ?_⟩
  · obtain ⟨own2, hback⟩ := hinv.putBack hy (by rwa [huserid])
    exact ⟨own2, hback, hd1.of_passwd (by simp)⟩
  · obtain ⟨own2, hdone⟩ := hinv.rewrite hy x
    have hset : Ucache.Distinct c { s1 with passwd := update s1.passwd (y - 1) x } :=
      hd1.setPasswd hy fun hne z hz hsame => hx hne z hz (by rwa [huserid] at hsame)
    exact ⟨_, own2, rfl, hdone, hset.of_passwd (by simp)⟩

/-! ## One call -/

/-- `finduseridhash` on a whole table: -1, or a slot with the id. -/
theorem Ucache.Inv.find_cases {c : HashConf} {s : Ucache} {own : Nat → List Nat}
    (h : s.Inv c c.Slot own) (userid : List UInt8) :
    (finduseridhash c s userid = some (-1) ∧
        ∀ x, c.Slot x → ¬ strcasecmp userid (s.userid x) = true) ∨
      ∃ y : Nat, finduseridhash c s userid = some (y : Int) ∧ c.Slot y ∧
        strcasecmp userid (s.userid y) = true := by
  by_cases hex : ∃ x, c.Slot x ∧ strcasecmp userid (s.userid x) = true
  · obtain ⟨x, hx, hid⟩ := hex
    obtain ⟨y, hy, hyid, hfind⟩ := h.finduseridhash_some hx hid
    exact Or.inr ⟨y, hfind, hy, hyid⟩
  · have hno : ∀ x, c.Slot x → ¬ strcasecmp userid (s.userid x) = true :=
      fun x hx hid => hex ⟨x, hx, hid⟩
    exact Or.inl ⟨h.finduseridhash_none hno, hno⟩

/-- `insertuserec` ends, and keeps the table and the ids in order. -/
theorem insertuserec_spec {c : HashConf} {s : Ucache} {own : Nat → List Nat}
    (h : s.Inv c c.Slot own) (hd : s.Distinct c) (x : Userec) (io : PasswdIo) :
    ∃ r s' own', insertuserec c s x io = some (r, s') ∧ s'.Inv c c.Slot own' ∧ s'.Distinct c := by
  unfold insertuserec
  rcases h.find_cases x.userid.bytes with ⟨hfind, hno⟩ | ⟨y, hfind, hy, -⟩
  · rw [hfind]
    simp only [Option.bind_eq_bind, Option.bind_some]
    rw [if_neg (by omega)]
    rcases h.find_cases [] with ⟨-, hfull⟩ | ⟨y, hfree, hy, hyid⟩
    · exact ⟨-1, s, own, by rw [h.deluseridhash_none hfull]; rfl, h, hd⟩
    · obtain ⟨s1, hdel, ⟨own1, hback⟩, hwrite⟩ := h.takeOut hd hfree hy hyid
      have hslot : 1 ≤ y := hy.1
      rw [hdel]
      simp only [Option.bind_some, Int.toNat_natCast]
      rw [if_neg (by omega)]
      by_cases hopen : io.opens = true
      · by_cases hseek : io.seeks = true
        · simp only [hopen, hseek, Bool.not_true, Bool.false_eq_true, if_false]
          obtain ⟨s2, own2, hs2, hdone⟩ := hwrite x fun _ z hz hsame => absurd hsame (hno z hz)
          exact ⟨_, s2, own2, by rw [hs2], hdone⟩
        · rw [if_neg (by simp [hopen]), if_pos (by simp [hseek])]
          exact ⟨_, _, own1, rfl, hback⟩
      · rw [if_pos (by simp [hopen])]
        exact ⟨_, _, own1, rfl, hback⟩
  · have hslot : 1 ≤ y := hy.1
    rw [hfind]
    simp only [Option.bind_eq_bind, Option.bind_some]
    rw [if_pos (by omega)]
    exact ⟨_, _, own, rfl, h, hd⟩

/-- `kickoutuserec` ends, and keeps the table and the ids in order. -/
theorem kickoutuserec_spec {c : HashConf} {s : Ucache} {own : Nat → List Nat}
    (h : s.Inv c c.Slot own) (hd : s.Distinct c) (userid : List UInt8) (now : Int)
    (io : PasswdIo) :
    ∃ r s' own', kickoutuserec c s userid now io = some (r, s') ∧ s'.Inv c c.Slot own' ∧
      s'.Distinct c := by
  unfold kickoutuserec
  rcases h.find_cases userid with ⟨hfind, -⟩ | ⟨y, hfind, hy, -⟩
  · rw [hfind]
    simp only [Option.bind_eq_bind, Option.bind_some]
    rw [if_pos (Or.inl (by omega))]
    exact ⟨_, _, own, rfl, h, hd⟩
  · have hlo : 1 ≤ y := hy.1
    have hhi : y ≤ c.maxusers := hy.2
    rw [hfind]
    simp only [Option.bind_eq_bind, Option.bind_some, Int.toNat_natCast]
    rw [if_neg (by omega)]
    by_cases hkick : (s.passwd (y - 1)).kickout = 0
    · rw [if_neg (by simp [hkick])]
      by_cases hopen : io.opens = true
      · by_cases hseek : io.seeks = true
        · simp only [hopen, hseek, Bool.not_true, Bool.false_eq_true, if_false]
          refine ⟨_, _, own, rfl, h.setPasswd hy fun _ => rfl, hd.setPasswd hy ?_⟩
          exact fun hne z hz hsame => (hd y z hy hz hne hsame).symm
        · rw [if_neg (by simp [hopen]), if_pos (by simp [hseek])]
          exact ⟨_, _, own, rfl, h, hd⟩
      · rw [if_pos (by simp [hopen])]
        exact ⟨_, _, own, rfl, h, hd⟩
    · rw [if_pos hkick]
      exact ⟨_, _, own, rfl, h, hd⟩

/-- `deluserec` ends, and keeps the table and the ids in order. -/
theorem deluserec_spec {c : HashConf} {s : Ucache} {own : Nat → List Nat}
    (h : s.Inv c c.Slot own) (hd : s.Distinct c) (userid : List UInt8) (now : Int)
    (io : PasswdIo) :
    ∃ r s' own', deluserec c s userid now io = some (r, s') ∧ s'.Inv c c.Slot own' ∧
      s'.Distinct c := by
  unfold deluserec
  rcases h.find_cases userid with ⟨hfind, -⟩ | ⟨y, hfind, hy, hyid⟩
  · rw [hfind]
    simp only [Option.bind_eq_bind, Option.bind_some]
    rw [if_pos (Or.inl (by omega))]
    exact ⟨_, _, own, rfl, h, hd⟩
  · have hlo : 1 ≤ y := hy.1
    have hhi : y ≤ c.maxusers := hy.2
    obtain ⟨s1, hdel, ⟨own1, hback⟩, hwrite⟩ := h.takeOut hd hfind hy hyid
    rw [hfind]
    simp only [Option.bind_eq_bind, Option.bind_some, Int.toNat_natCast]
    rw [if_neg (by omega)]
    by_cases hkick : (s.passwd (y - 1)).kickout = 0 ∨
        now - (s.passwd (y - 1)).kickout ≤ 86400 - 3600
    · rw [if_pos hkick]
      exact ⟨_, _, own, rfl, h, hd⟩
    · rw [if_neg hkick, hdel]
      simp only [Option.bind_some]
      rw [if_neg (by omega)]
      by_cases hopen : io.opens = true
      · by_cases hseek : io.seeks = true
        · simp only [hopen, hseek, Bool.not_true, Bool.false_eq_true, if_false]
          obtain ⟨s2, own2, hs2, hdone⟩ := hwrite emptyUserec fun hne => absurd rfl hne
          exact ⟨_, s2, own2, congrArg (fun s2 => some (0, s2)) hs2, hdone⟩
        · rw [if_neg (by simp [hopen]), if_pos (by simp [hseek])]
          exact ⟨_, _, own1, rfl, hback⟩
      · rw [if_pos (by simp [hopen])]
        exact ⟨_, _, own1, rfl, hback⟩

/-! ## load_ucache -/

/-- The table while `load_ucache` runs: the first `i` slots are in, and
`lastspace` is the end of the free list. -/
structure Loading (c : HashConf) (s : Ucache) (i : Nat) (own : Nat → List Nat) : Prop where
  inv : s.Inv c (fun x => 1 ≤ x ∧ x ≤ i) own
  last : s.lastspace = (own 0).getLast?

/-- One turn of the loop. -/
theorem Loading.step {c : HashConf} {s : Ucache} {i : Nat} {own : Nat → List Nat}
    (h : Loading c s i own) (hi : i < c.maxusers) :
    ∃ own', Loading c (insertuseridhash c s (s.passwd i).userid.bytes (i + 1) false) (i + 1) own' := by
  have hslot : c.Slot (i + 1) := ⟨by omega, hi⟩
  have hnum : ¬ (1 ≤ i + 1 ∧ i + 1 ≤ i) := by omega
  have hlive : ∀ x, (1 ≤ x ∧ x ≤ i + 1) ↔ ((1 ≤ x ∧ x ≤ i) ∨ x = i + 1) := by omega
  by_cases hu : (s.passwd i).userid.bytes = []
  · have htail := h.inv.insertuseridhash_tail h.last hnum hslot hu
    rw [hu]
    refine ⟨_, htail.congr hlive, ?_⟩
    rw [update_self, List.getLast?_concat]
    rfl
  · have hne : ucacheHash c (s.passwd i).userid.bytes ≠ 0 := fun h0 => hu (ucacheHash_eq_zero.mp h0)
    have hins : Ucache.Inv c _ (insertuseridhash c s (s.passwd i).userid.bytes (i + 1) false) _ :=
      h.inv.insertuseridhash hnum hslot (strcasecmp_refl _) (Or.inl hu)
    refine ⟨_, hins.congr hlive, ?_⟩
    rw [update_of_ne hne.symm, ← h.last]
    simp only [insertuseridhash, hne, ne_eq, not_false_eq_true, true_or, if_true, hu, if_false]

theorem loadLoop_spec {c : HashConf} {passwd : Nat → Userec}
    (hd : ∀ i j, i < c.maxusers → j < c.maxusers → (passwd i).userid.bytes ≠ [] →
      strcasecmp (passwd i).userid.bytes (passwd j).userid.bytes = true → i = j)
    {k i : Nat} (hk : k + i = c.maxusers) {s : Ucache} {own : Nat → List Nat}
    (hs : s.passwd = passwd) (h : Loading c s i own) :
    ∃ s' own', loadLoop c k i s = some (0, s') ∧ s'.passwd = passwd ∧
      Loading c s' c.maxusers own' := by
  induction k generalizing i s own with
  | zero =>
      obtain rfl : i = c.maxusers := by omega
      exact ⟨s, own, rfl, hs, h⟩
  | succ k ih =>
      have hdup : isDuplicate c s (s.passwd i).userid.bytes = some false := by
        unfold isDuplicate
        by_cases hu : (s.passwd i).userid.bytes = []
        · rw [if_pos hu]
        · rw [if_neg hu, h.inv.finduseridhash_none]
          · rfl
          · intro x hx hsame
            rw [hs] at hu hsame
            unfold Ucache.userid at hsame
            rw [hs] at hsame
            have := hd i (x - 1) (by omega) (by omega) hu hsame
            omega
      obtain ⟨own', hstep⟩ := h.step (by omega)
      rw [loadLoop]
      simp only [hdup, Option.bind_eq_bind, Option.bind_some, Bool.false_eq_true, if_false]
      exact ih (by omega) (by simp [hs]) hstep

/-- `load_ucache` succeeds on an array without duplicate ids. -/
theorem loadUcache_spec {c : HashConf} {passwd : Nat → Userec}
    (hd : ∀ i j, i < c.maxusers → j < c.maxusers → (passwd i).userid.bytes ≠ [] →
      strcasecmp (passwd i).userid.bytes (passwd j).userid.bytes = true → i = j) :
    ∃ s own, loadUcache c passwd = some (0, s) ∧ s.passwd = passwd ∧ s.Inv c c.Slot own ∧
      s.Distinct c := by
  have hstart : Loading c (Ucache.cleared passwd) 0 (fun _ => []) :=
    ⟨(Ucache.Inv.cleared c passwd).congr fun x => by
      simp only [iff_false, not_and]
      omega, rfl⟩
  obtain ⟨s, own, hload, hpasswd, hdone⟩ := loadLoop_spec hd (Nat.add_zero _) rfl hstart
  refine ⟨s, own, hload, hpasswd, hdone.inv.congr fun x => Iff.rfl, ?_⟩
  intro x y hx hy hne hsame
  unfold HashConf.Slot at hx hy
  unfold Ucache.userid at hne hsame
  rw [hpasswd] at hne hsame
  have := hd (x - 1) (y - 1) (by omega) (by omega) hne hsame
  omega

/-! ## All histories -/

theorem PasswdStep.inv {c : HashConf} {s s' : Ucache} {own : Nat → List Nat}
    (h : s.Inv c c.Slot own) (hd : s.Distinct c) (hstep : PasswdStep c s s') :
    ∃ own', s'.Inv c c.Slot own' ∧ s'.Distinct c := by
  cases hstep with
  | insert x io r hr =>
      obtain ⟨r', s1, own', heq, hinv, hd'⟩ := insertuserec_spec h hd x io
      rw [hr] at heq
      cases heq
      exact ⟨own', hinv, hd'⟩
  | kickout userid now io r hr =>
      obtain ⟨r', s1, own', heq, hinv, hd'⟩ := kickoutuserec_spec h hd userid.bytes now io
      rw [hr] at heq
      cases heq
      exact ⟨own', hinv, hd'⟩
  | delete userid now io r hr =>
      obtain ⟨r', s1, own', heq, hinv, hd'⟩ := deluserec_spec h hd userid.bytes now io
      rw [hr] at heq
      cases heq
      exact ⟨own', hinv, hd'⟩

/-- Every history keeps the table and the ids in order. -/
theorem PasswdReachable.inv {c : HashConf} {s : Ucache} (h : PasswdReachable c s) :
    ∃ own, s.Inv c c.Slot own ∧ s.Distinct c := by
  obtain ⟨passwd, hdist, s0, hload, hrun⟩ := h
  induction hrun with
  | refl =>
      obtain ⟨s, own, hload', -, hinv, hd⟩ := loadUcache_spec hdist
      rw [hload] at hload'
      cases hload'
      exact ⟨own, hinv, hd⟩
  | tail _ hstep ih =>
      obtain ⟨own, hinv, hd⟩ := ih
      exact hstep.inv hinv hd

/-- **The hash of user ids is right after every history.** -/
theorem PasswdReachable.wellFormed {c : HashConf} {s : Ucache} (h : PasswdReachable c s) :
    s.WellFormed c := by
  obtain ⟨own, hinv, hd⟩ := h.inv
  constructor
  · refine ⟨own, fun k => ⟨hinv.threaded.chain k, hinv.threaded.nodup k, fun x => hinv.slot⟩,
      fun x hx => ?_, fun x hx => (hinv.mem _ x).mpr ⟨hx, rfl⟩, fun x => ?_, hinv.count⟩
    · refine ⟨ucacheHash c (s.userid x), (hinv.mem _ x).mpr ⟨hx, rfl⟩, fun k hk => ?_⟩
      exact ((hinv.mem k x).mp hk).2.symm
    · rw [hinv.mem, ucacheHash_eq_zero]
  · intro u x hu hx hid
    have hone : ∀ y, c.Slot y → strcasecmp u.bytes (s.userid y) = true → y = x := by
      intro y hy hyid
      refine hd y x hy hx ?_ (strcasecmp_trans (strcasecmp_symm hyid) hid)
      intro hnil
      rw [hnil] at hyid
      exact hu (strcasecmp_nil_right.mp hyid)
    obtain ⟨y, hy, hyid, hfind⟩ := hinv.finduseridhash_some hx hid
    rw [hone y hy hyid] at hfind
    exact ⟨hfind, hone⟩
  · exact fun u hno => hinv.finduseridhash_none hno
  · refine ⟨fun x io => ?_, fun u now io => ?_, fun u now io => ?_⟩
    · obtain ⟨r, s', _, heq, -⟩ := insertuserec_spec hinv hd x io
      rw [heq]
      rfl
    · obtain ⟨r, s', _, heq, -⟩ := kickoutuserec_spec hinv hd u now io
      rw [heq]
      rfl
    · obtain ⟨r, s', _, heq, -⟩ := deluserec_spec hinv hd u now io
      rw [heq]
      rfl

def twoUsers : HashConf := ⟨2, by decide, lettersTable⟩

/-- The user `Ab` and a free slot. -/
def onePasswd (i : Nat) : Userec :=
  if i = 0 then ⟨⟨[65, 98], by decide, by decide⟩, 0⟩ else emptyUserec

theorem onePasswd_distinct (i j : Nat) (_hi : i < twoUsers.maxusers) (_hj : j < twoUsers.maxusers)
    (hne : (onePasswd i).userid.bytes ≠ [])
    (h : strcasecmp (onePasswd i).userid.bytes (onePasswd j).userid.bytes = true) : i = j := by
  have hzero : ∀ k, (onePasswd k).userid.bytes ≠ [] → k = 0 := by
    intro k hk
    by_contra hk0
    exact hk (by rw [onePasswd, if_neg hk0]; rfl)
  have hj : (onePasswd j).userid.bytes ≠ [] :=
    fun hnil => hne (strcasecmp_nil_right.mp (hnil ▸ h))
  rw [hzero i hne, hzero j hj]

theorem wellFormed_onePasswd :
    ∃ s, loadUcache twoUsers onePasswd = some (0, s) ∧ s.WellFormed twoUsers := by
  obtain ⟨s, own, hload, -⟩ := loadUcache_spec onePasswd_distinct
  exact ⟨s, hload, PasswdReachable.wellFormed
    ⟨onePasswd, onePasswd_distinct, s, hload, Relation.ReflTransGen.refl⟩⟩

end Ytht
