import Mathlib.Data.List.Nodup
import Mathlib.Data.List.Perm.Subperm
import Ytht.Lib.Chain
import Ytht.Ucache.Hash

/-!
# Ucache.Table

The hash table of user ids, `struct UCACHEHASH`: one `next` array threads the
chains of all buckets, chain 0 holds the empty slots of `.PASSWDS`, and
`next[0]`, which no chain uses, counts them.

`Ucache.Inv` describes the table while the slots `live` are linked in;
`insertuseridhash` and `deluseridhash` move a slot in and out of it.
-/

namespace Ytht

open Bytes Function

/-- `struct userec`, of which the table needs the id and the time of removal. -/
structure Userec where
  userid : CStr (idlen + 1)
  kickout : Int
  deriving DecidableEq

theorem zero_notMem_nil : (0 : UInt8) ∉ ([] : List UInt8) := List.not_mem_nil

/-- A record of zero bytes. -/
def emptyUserec : Userec := ⟨⟨[], zero_notMem_nil, by simp⟩, 0⟩

/-- The mapped `.PASSWDS`, the table, and the variable `lastspace` of
`insertuseridhash` (`none` for -1). -/
structure Ucache where
  passwd : Nat → Userec
  hashHead : Nat → Nat
  next : Nat → Nat
  lastspace : Option Nat

namespace Ucache

/-- `passwdptr[i - 1].userid`. -/
def userid (s : Ucache) (i : Nat) : List UInt8 := (s.passwd (i - 1)).userid.bytes

/-- After `bzero(ucachehashshm)`, in a process that has not inserted yet. -/
def cleared (passwd : Nat → Userec) : Ucache where
  passwd := passwd
  hashHead := fun _ => 0
  next := fun _ => 0
  lastspace := none

end Ucache

/-! ## The three functions -/

/-- `insertuseridhash`. -/
def insertuseridhash (c : HashConf) (s : Ucache) (userid : List UInt8) (num : Nat)
    (tohead : Bool) : Ucache :=
  let h := ucacheHash c userid
  let s :=
    if h ≠ 0 ∨ tohead = true then
      { s with next := update s.next num (s.hashHead h), hashHead := update s.hashHead h num }
    else
      let s := match s.lastspace with
        | none => { s with hashHead := update s.hashHead h num }
        | some lastspace => { s with next := update s.next lastspace num }
      { s with next := update s.next num 0, lastspace := some num }
  if userid = [] then { s with next := update s.next 0 (s.next 0 + 1) } else s

/-- The loop of `finduseridhash`. -/
def findLoop (s : Ucache) (userid : List UInt8) : Nat → Nat → Option Int
  | 0, _ => none
  | fuel + 1, i =>
      if i = 0 then some (-1)
      else if strcasecmp userid (s.userid i) then some i
      else findLoop s userid fuel (s.next i)

/-- `finduseridhash`; `none` when the chain does not end. -/
def finduseridhash (c : HashConf) (s : Ucache) (userid : List UInt8) : Option Int :=
  findLoop s userid (c.maxusers + 1) (s.hashHead (ucacheHash c userid))

/-- Take cell `i` out of chain `h`, where it stands behind `prev`. -/
def Ucache.unlink (s : Ucache) (h : Nat) (prev : Option Nat) (i : Nat) : Ucache :=
  match prev with
  | some prev => { s with next := update s.next prev (s.next i) }
  | none => { s with hashHead := update s.hashHead h (s.next i) }

/-- The loop of `deluseridhash`. -/
def delLoop (s : Ucache) (userid : List UInt8) (h : Nat) :
    Nat → Option Nat → Nat → Option (Int × Ucache)
  | 0, _, _ => none
  | fuel + 1, prev, i =>
      if i = 0 then some (-1, s)
      else if strcasecmp userid (s.userid i) then
        let s := s.unlink h prev i
        some (i, if userid = [] then { s with next := update s.next 0 (s.next 0 - 1) } else s)
      else delLoop s userid h fuel (some i) (s.next i)

/-- `deluseridhash`. -/
def deluseridhash (c : HashConf) (s : Ucache) (userid : List UInt8) : Option (Int × Ucache) :=
  delLoop s userid (ucacheHash c userid) (c.maxusers + 1) none (s.hashHead (ucacheHash c userid))

/-! ## The invariant -/

/-- A slot of `.PASSWDS`, counted from 1. -/
def HashConf.Slot (c : HashConf) (x : Nat) : Prop := 1 ≤ x ∧ x ≤ c.maxusers

instance (c : HashConf) (x : Nat) : Decidable (c.Slot x) := inferInstanceAs (Decidable (_ ∧ _))

theorem HashConf.Slot.ne_zero {c : HashConf} {x : Nat} (h : c.Slot x) : x ≠ 0 := by
  unfold HashConf.Slot at h
  omega

/-- The slots `live` are linked in, each in the chain of its id. -/
structure Ucache.Inv (c : HashConf) (live : Nat → Prop) (s : Ucache) (own : Nat → List Nat) :
    Prop where
  threaded : Chain.Threaded s.next s.hashHead own
  slots : ∀ x, live x → c.Slot x
  mem : ∀ h x, x ∈ own h ↔ live x ∧ ucacheHash c (s.userid x) = h
  count : s.next 0 = (own 0).length

/-- Ids that are not empty differ, ignoring case. -/
def Ucache.Distinct (c : HashConf) (s : Ucache) : Prop :=
  ∀ x y, c.Slot x → c.Slot y → s.userid x ≠ [] →
    strcasecmp (s.userid x) (s.userid y) = true → x = y

theorem strcasecmp_nil_right {u : List UInt8} : strcasecmp u [] = true ↔ u = [] := by
  rw [strcasecmp_iff, List.map_nil, List.map_eq_nil_iff]

theorem strcasecmp_symm {u v : List UInt8} (h : strcasecmp u v = true) : strcasecmp v u = true := by
  rw [strcasecmp_iff] at h ⊢
  exact h.symm

theorem strcasecmp_trans {u v w : List UInt8} (h : strcasecmp u v = true)
    (h' : strcasecmp v w = true) : strcasecmp u w = true := by
  rw [strcasecmp_iff] at h h' ⊢
  exact h.trans h'

namespace Ucache.Inv

variable {c : HashConf} {live : Nat → Prop} {s : Ucache} {own : Nat → List Nat}

theorem zero_notMem (h : s.Inv c live own) (k : Nat) : 0 ∉ own k :=
  fun h0 => (h.threaded.chain k).ne_zero h0 rfl

theorem slot (h : s.Inv c live own) {k x : Nat} (hx : x ∈ own k) : c.Slot x :=
  h.slots x ((h.mem k x).mp hx).1

/-- A chain is no longer than the array. -/
theorem length_le (h : s.Inv c live own) (k : Nat) : (own k).length ≤ c.maxusers := by
  have hsub : own k ⊆ List.range' 1 c.maxusers := fun x hx => by
    have hslot := h.slot hx
    unfold HashConf.Slot at hslot
    rw [List.mem_range'_1]
    omega
  simpa using ((h.threaded.nodup k).subperm hsub).length_le

end Ucache.Inv

theorem Ucache.Inv.cleared (c : HashConf) (passwd : Nat → Userec) :
    Ucache.Inv c (fun _ => False) (Ucache.cleared passwd) (fun _ => []) :=
  ⟨Chain.Threaded.empty _, fun _ hx => hx.elim, fun k x => by simp, rfl⟩

theorem Ucache.Inv.congr {c : HashConf} {live live' : Nat → Prop} {s : Ucache}
    {own : Nat → List Nat} (h : s.Inv c live own) (hl : ∀ x, live' x ↔ live x) :
    s.Inv c live' own := by
  obtain rfl : live' = live := funext fun x => propext (hl x)
  exact h

/-! ## finduseridhash -/

theorem findLoop_chain {s : Ucache} {userid : List UInt8} {l : List Nat} {fuel i : Nat}
    (h : Chain.IsChain s.next i l) (hfuel : l.length < fuel) :
    findLoop s userid fuel i =
      some ((l.find? fun x => strcasecmp userid (s.userid x)).elim (-1) fun x => (x : Int)) := by
  induction l generalizing fuel i with
  | nil =>
      obtain ⟨fuel, rfl⟩ : ∃ f, fuel = f + 1 := ⟨fuel - 1, by simp at hfuel; omega⟩
      rw [findLoop, if_pos (Chain.isChain_nil.mp h)]
      rfl
  | cons x l ih =>
      obtain ⟨fuel, rfl⟩ : ∃ f, fuel = f + 1 := ⟨fuel - 1, by omega⟩
      obtain ⟨rfl, h0, htail⟩ := h
      rw [findLoop, if_neg h0]
      cases hx : strcasecmp userid (s.userid i) with
      | true => simp [hx]
      | false =>
          rw [List.find?_cons_of_neg (by simp [hx])]
          exact ih htail (by simp only [List.length_cons] at hfuel; omega)

/-- `finduseridhash` searches the chain of the id. -/
theorem Ucache.Inv.finduseridhash_eq {c : HashConf} {live : Nat → Prop} {s : Ucache}
    {own : Nat → List Nat} (h : s.Inv c live own) (userid : List UInt8) :
    finduseridhash c s userid =
      some (((own (ucacheHash c userid)).find?
        fun x => strcasecmp userid (s.userid x)).elim (-1) fun x => (x : Int)) :=
  findLoop_chain (h.threaded.chain _) (Nat.lt_succ_of_le (h.length_le _))

/-- No linked slot has the id: -1. -/
theorem Ucache.Inv.finduseridhash_none {c : HashConf} {live : Nat → Prop} {s : Ucache}
    {own : Nat → List Nat} (h : s.Inv c live own) {userid : List UInt8}
    (hno : ∀ x, live x → ¬ strcasecmp userid (s.userid x) = true) :
    finduseridhash c s userid = some (-1) := by
  rw [h.finduseridhash_eq, List.find?_eq_none.mpr fun x hx => hno x ((h.mem _ x).mp hx).1]
  rfl

/-- A linked slot has the id: some such slot is found. -/
theorem Ucache.Inv.finduseridhash_some {c : HashConf} {live : Nat → Prop} {s : Ucache}
    {own : Nat → List Nat} (h : s.Inv c live own) {userid : List UInt8} {x : Nat} (hx : live x)
    (hid : strcasecmp userid (s.userid x) = true) :
    ∃ y, live y ∧ strcasecmp userid (s.userid y) = true ∧
      finduseridhash c s userid = some (y : Int) := by
  rw [h.finduseridhash_eq]
  have hmem : x ∈ own (ucacheHash c userid) :=
    (h.mem _ x).mpr ⟨hx, (ucacheHash_congr c hid).symm⟩
  cases hfind : (own (ucacheHash c userid)).find? fun y => strcasecmp userid (s.userid y) with
  | none => exact absurd hid (List.find?_eq_none.mp hfind x hmem)
  | some y =>
      have hy := List.mem_of_find?_eq_some hfind
      have hsame := List.find?_some (p := fun y => strcasecmp userid (s.userid y)) hfind
      exact ⟨y, ((h.mem _ y).mp hy).1, hsame, rfl⟩

/-! ## deluseridhash -/

theorem unlink_threaded {s : Ucache} {own : Nat → List Nat} {h x : Nat} {pre post : List Nat}
    (ht : Chain.Threaded s.next s.hashHead own) (hown : own h = pre ++ x :: post) :
    Chain.Threaded (s.unlink h pre.getLast? x).next (s.unlink h pre.getLast? x).hashHead
      (update own h (pre ++ post)) := by
  cases hpre : pre.getLast? with
  | none =>
      rw [List.getLast?_eq_none_iff] at hpre
      subst hpre
      exact ht.unlinkHead hown
  | some p =>
      obtain ⟨front, rfl⟩ := List.getLast?_eq_some_iff.mp hpre
      rw [List.append_assoc] at hown ⊢
      exact ht.unlinkAfter hown

theorem delLoop_chain {s : Ucache} {userid : List UInt8} {h : Nat} {l pre : List Nat}
    {fuel i : Nat} (hl : Chain.IsChain s.next i l) (hfuel : l.length < fuel) :
    match l.find? fun x => strcasecmp userid (s.userid x) with
    | none => delLoop s userid h fuel pre.getLast? i = some (-1, s)
    | some x => ∃ front post, l = front ++ x :: post ∧
        delLoop s userid h fuel pre.getLast? i =
          some ((x : Int),
            if userid = [] then
              { s.unlink h (pre ++ front).getLast? x with
                next := update (s.unlink h (pre ++ front).getLast? x).next 0
                  ((s.unlink h (pre ++ front).getLast? x).next 0 - 1) }
            else s.unlink h (pre ++ front).getLast? x) := by
  induction l generalizing pre fuel i with
  | nil =>
      obtain ⟨fuel, rfl⟩ : ∃ f, fuel = f + 1 := ⟨fuel - 1, by simp at hfuel; omega⟩
      simp only [List.find?_nil]
      rw [delLoop, if_pos (Chain.isChain_nil.mp hl)]
  | cons x l ih =>
      obtain ⟨fuel, rfl⟩ : ∃ f, fuel = f + 1 := ⟨fuel - 1, by omega⟩
      obtain ⟨rfl, h0, htail⟩ := hl
      cases hx : strcasecmp userid (s.userid i) with
      | true =>
          rw [List.find?_cons_of_pos (by simp [hx])]
          refine ⟨[], l, rfl, ?_⟩
          rw [delLoop, if_neg h0, if_pos hx, List.append_nil]
      | false =>
          have hrec := @ih (pre ++ [i]) fuel _ htail
            (by simp only [List.length_cons] at hfuel; omega)
          rw [List.find?_cons_of_neg (by simp [hx]), delLoop, if_neg h0, if_neg (by simp [hx])]
          rw [List.getLast?_concat] at hrec
          split at hrec
          · exact hrec
          · obtain ⟨front, post, rfl, heq⟩ := hrec
            refine ⟨i :: front, post, rfl, ?_⟩
            rw [heq]
            simp only [List.append_assoc, List.singleton_append]

/-- What is left when slot `x` has been unlinked. -/
theorem Ucache.Inv.unlink {c : HashConf} {live : Nat → Prop} {s : Ucache} {own : Nat → List Nat}
    (h : s.Inv c live own) {k x : Nat} {pre post : List Nat} (hown : own k = pre ++ x :: post)
    {n : Nat} (hn : n = (update own k (pre ++ post) 0).length) :
    Ucache.Inv c (fun y => live y ∧ y ≠ x)
      { s.unlink k pre.getLast? x with next := update (s.unlink k pre.getLast? x).next 0 n }
      (update own k (pre ++ post)) := by
  have ht := unlink_threaded h.threaded hown
  have hpasswd : (s.unlink k pre.getLast? x).passwd = s.passwd := by
    unfold Ucache.unlink
    split <;> rfl
  have hmem : ∀ g y, y ∈ update own k (pre ++ post) g ↔ y ∈ own g ∧ y ≠ x :=
    fun g y => h.threaded.mem_unlink hown
  constructor
  · refine ht.updateFree (fun g h0 => ?_) n
    exact h.zero_notMem g ((hmem g 0).mp h0).1
  · exact fun y hy => h.slots y hy.1
  · intro g y
    simp only [hmem, h.mem, Ucache.userid, hpasswd]
    grind
  · simp only [update_self]
    exact hn

/-- **`deluseridhash` takes out the slot that `finduseridhash` finds.** -/
theorem Ucache.Inv.deluseridhash {c : HashConf} {live : Nat → Prop} {s : Ucache}
    {own : Nat → List Nat} (h : s.Inv c live own) {userid : List UInt8} {y : Nat}
    (hy : finduseridhash c s userid = some (y : Int)) :
    ∃ s' own', Ytht.deluseridhash c s userid = some ((y : Int), s') ∧ s'.passwd = s.passwd ∧
      Ucache.Inv c (fun z => live z ∧ z ≠ y) s' own' := by
  have hloop := @delLoop_chain s userid (ucacheHash c userid) _ [] (c.maxusers + 1) _
    (h.threaded.chain (ucacheHash c userid)) (Nat.lt_succ_of_le (h.length_le _))
  rw [h.finduseridhash_eq] at hy
  cases hfind : (own (ucacheHash c userid)).find? fun y => strcasecmp userid (s.userid y) with
  | none =>
      simp only [hfind, Option.elim_none, Option.some.injEq] at hy
      omega
  | some x =>
      simp only [hfind, Option.elim_some, Option.some.injEq, Int.natCast_inj] at hy
      subst hy
      simp only [hfind] at hloop
      obtain ⟨front, post, hown, heq⟩ := hloop
      have hpasswd : (s.unlink (ucacheHash c userid) front.getLast? x).passwd = s.passwd := by
        unfold Ucache.unlink
        split <;> rfl
      have hzero : (s.unlink (ucacheHash c userid) front.getLast? x).next 0 = s.next 0 := by
        unfold Ucache.unlink
        split
        · next p hp =>
          have hpown : p ∈ own (ucacheHash c userid) := by
            rw [hown]
            exact List.mem_append_left _ (List.mem_of_getLast? hp)
          exact update_of_ne (fun h0 => h.zero_notMem _ (h0 ▸ hpown)) _ _
        · rfl
      rw [List.nil_append] at heq
      refine ⟨_, update own (ucacheHash c userid) (front ++ post), heq, ?_, ?_⟩
      · split <;> exact hpasswd
      · by_cases hu : userid = []
        · have h0 : ucacheHash c userid = 0 := ucacheHash_eq_zero.mpr hu
          rw [if_pos hu]
          refine h.unlink hown ?_
          rw [hzero, h.count]
          rw [h0] at hown
          rw [h0, update_self, hown]
          simp only [List.length_append, List.length_cons]
          omega
        · have hne : ucacheHash c userid ≠ 0 := fun h0 => hu (ucacheHash_eq_zero.mp h0)
          have hinv := h.unlink hown (n := s.next 0) (by
            rw [update_of_ne hne.symm]
            exact h.count)
          rw [if_neg hu]
          rwa [← hzero, update_eq_self] at hinv

/-- No linked slot has the id: nothing happens. -/
theorem Ucache.Inv.deluseridhash_none {c : HashConf} {live : Nat → Prop} {s : Ucache}
    {own : Nat → List Nat} (h : s.Inv c live own) {userid : List UInt8}
    (hno : ∀ x, live x → ¬ strcasecmp userid (s.userid x) = true) :
    Ytht.deluseridhash c s userid = some (-1, s) := by
  have hloop := @delLoop_chain s userid (ucacheHash c userid) _ [] (c.maxusers + 1) _
    (h.threaded.chain (ucacheHash c userid)) (Nat.lt_succ_of_le (h.length_le _))
  have hfind : (own (ucacheHash c userid)).find? (fun y => strcasecmp userid (s.userid y)) = none :=
    List.find?_eq_none.mpr fun x hx => hno x ((h.mem _ x).mp hx).1
  simp only [hfind] at hloop
  exact hloop

/-! ## insertuseridhash -/

/-- A slot that joins the chain of its id is linked in. -/
theorem Ucache.Inv.linked {c : HashConf} {live : Nat → Prop} {s : Ucache} {own own' : Nat → List Nat}
    (h : s.Inv c live own) {num : Nat} (hslot : c.Slot num) {next head : Nat → Nat}
    {last : Option Nat} (ht : Chain.Threaded next head own')
    (hmem : ∀ k y, y ∈ own' k ↔ (k = ucacheHash c (s.userid num) ∧ y = num) ∨ y ∈ own k)
    (hcount : next 0 = (own' 0).length) :
    Ucache.Inv c (fun y => live y ∨ y = num) ⟨s.passwd, head, next, last⟩ own' := by
  refine ⟨ht, ?_, fun k y => ?_, hcount⟩
  · rintro y (hy | rfl)
    · exact h.slots y hy
    · exact hslot
  · have hid : (⟨s.passwd, head, next, last⟩ : Ucache).userid y = s.userid y := rfl
    rw [hmem, h.mem, hid]
    grind

/-- **`insertuseridhash` at the head links a slot in** under an id that hashes
like the slot's own. -/
theorem Ucache.Inv.insertuseridhash {c : HashConf} {live : Nat → Prop} {s : Ucache}
    {own : Nat → List Nat} (h : s.Inv c live own) {userid : List UInt8} {num : Nat} {tohead : Bool}
    (hnum : ¬ live num) (hslot : c.Slot num) (hid : strcasecmp userid (s.userid num) = true)
    (hhead : userid ≠ [] ∨ tohead = true) :
    Ucache.Inv c (fun y => live y ∨ y = num) (Ytht.insertuseridhash c s userid num tohead)
      (update own (ucacheHash c userid) (num :: own (ucacheHash c userid))) := by
  have hfree : ∀ k, num ∉ own k := fun k hk => hnum ((h.mem k num).mp hk).1
  have h0 : num ≠ 0 := hslot.ne_zero
  have hif : ucacheHash c userid ≠ 0 ∨ tohead = true := by
    rwa [ne_eq, ucacheHash_eq_zero]
  have ht := h.threaded.pushFront hfree h0 (k := ucacheHash c userid)
  have hmem : ∀ k y, y ∈ update own (ucacheHash c userid) (num :: own (ucacheHash c userid)) k ↔
      (k = ucacheHash c (s.userid num) ∧ y = num) ∨ y ∈ own k := by
    intro k y
    rw [Chain.Threaded.mem_update_cons, ucacheHash_congr c hid]
  have hzero : ∀ k, 0 ∉ update own (ucacheHash c userid) (num :: own (ucacheHash c userid)) k :=
    fun k hk => (ht.chain k).ne_zero hk rfl
  simp only [Ytht.insertuseridhash, if_pos hif]
  by_cases hu : userid = []
  · rw [if_pos hu]
    refine h.linked hslot (ht.updateFree hzero _) hmem ?_
    have hk : ucacheHash c userid = 0 := ucacheHash_eq_zero.mpr hu
    simp only [update_self, hk, update_of_ne h0.symm, h.count, List.length_cons]
  · rw [if_neg hu]
    refine h.linked hslot ht hmem ?_
    have hk : ucacheHash c userid ≠ 0 := fun hz => hu (ucacheHash_eq_zero.mp hz)
    simp only [update_of_ne h0.symm, update_of_ne hk.symm]
    exact h.count

/-- **`insertuseridhash` at the tail** appends an empty slot to the free list,
as `load_ucache` does. -/
theorem Ucache.Inv.insertuseridhash_tail {c : HashConf} {live : Nat → Prop} {s : Ucache}
    {own : Nat → List Nat} (h : s.Inv c live own) (hlast : s.lastspace = (own 0).getLast?)
    {num : Nat} (hnum : ¬ live num) (hslot : c.Slot num) (hid : s.userid num = []) :
    Ucache.Inv c (fun y => live y ∨ y = num) (Ytht.insertuseridhash c s [] num false)
      (update own 0 (own 0 ++ [num])) := by
  have hfree : ∀ k, num ∉ own k := fun k hk => hnum ((h.mem k num).mp hk).1
  have h0 : num ≠ 0 := hslot.ne_zero
  have hmem : ∀ k y, y ∈ update own 0 (own 0 ++ [num]) k ↔
      (k = ucacheHash c (s.userid num) ∧ y = num) ∨ y ∈ own k := by
    intro k y
    have hempty : ucacheHash c (s.userid num) = 0 := ucacheHash_eq_zero.mpr hid
    by_cases hk : k = 0
    · subst hk
      rw [update_self, List.mem_append, List.mem_singleton, hempty, or_comm]
      simp only [true_and]
    · rw [update_of_ne hk, hempty]
      simp only [hk, false_and, false_or]
  have hzero : ∀ {next head : Nat → Nat}, Chain.Threaded next head (update own 0 (own 0 ++ [num])) →
      ∀ k, 0 ∉ update own 0 (own 0 ++ [num]) k := fun ht k hk => (ht.chain k).ne_zero hk rfl
  have hlen : (own 0 ++ [num]).length = s.next 0 + 1 := by
    rw [List.length_append, List.length_singleton, h.count]
  have hhash : ucacheHash c [] = 0 := rfl
  simp only [Ytht.insertuseridhash, hhash, ne_eq, not_true_eq_false, Bool.false_eq_true, or_self,
    if_false, if_true, hlast]
  cases hown : (own 0).getLast? with
  | none =>
      have hnil := List.getLast?_eq_none_iff.mp hown
      have hhead : s.hashHead 0 = 0 := by
        have hchain := h.threaded.chain 0
        rwa [hnil] at hchain
      have hfirst : num :: own 0 = own 0 ++ [num] := by rw [hnil, List.nil_append]
      have ht := h.threaded.pushFront hfree h0 (k := 0)
      rw [hhead, hfirst] at ht
      refine h.linked hslot (ht.updateFree (hzero ht) _) hmem ?_
      simp only [update_self, update_of_ne h0.symm, hlen]
  | some p =>
      obtain ⟨pre, hpre⟩ := List.getLast?_eq_some_iff.mp hown
      have ht := h.threaded.pushBack hfree h0 hpre
      have hp : p ∈ own 0 := List.mem_of_getLast? hown
      have hp0 : 0 ≠ p := fun heq => h.zero_notMem 0 (heq ▸ hp)
      refine h.linked hslot (ht.updateFree (hzero ht) _) hmem ?_
      simp only [update_self, update_of_ne h0.symm, update_of_ne hp0, hlen]

@[simp] theorem insertuseridhash_passwd (c : HashConf) (s : Ucache) (userid : List UInt8)
    (num : Nat) (tohead : Bool) :
    (insertuseridhash c s userid num tohead).passwd = s.passwd := by
  simp only [insertuseridhash]
  split <;> split <;> cases s.lastspace <;> rfl

theorem strcasecmp_refl (u : List UInt8) : strcasecmp u u = true := strcasecmp_iff.mpr rfl

end Ytht
