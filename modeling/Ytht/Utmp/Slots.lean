import Mathlib.Data.Finset.Card
import Mathlib.Data.List.Perm.Subperm
import Mathlib.Algebra.BigOperators.Group.Finset.Piecewise
import Mathlib.Order.Interval.Finset.Nat
import Ytht.Lib.Chain
import Ytht.Lib.Runs
import Ytht.Utmp.Table

/-!
# Utmp.Slots

The invariant of the table of online users.  `Linked` says where each slot is
linked in: a free one in chain 0, an active web guest in the chain of its
address, another active one nowhere.  A slot that is taken out of its chain
(`Linked.take_*`) may get any record, and is put where that belongs
(`Linked.put`); the counters follow the records (`count_update`).

`utmp_wellFormed` is the invariant of all histories.
-/

namespace Ytht

open Function Runs

/-- A slot of the table. -/
def UtmpConf.Slot (c : UtmpConf) (x : Nat) : Prop := 1 ≤ x ∧ x ≤ c.maxactive

/-- All slots but one. -/
def UtmpConf.SlotBut (c : UtmpConf) (x y : Nat) : Prop := c.Slot y ∧ y ≠ x

/-- The chain a record belongs in. -/
def placeOf (c : UtmpConf) (u : UserInfo) : Option Nat :=
  if u.active = 0 then some 0
  else if u.isWwwGuest then some (utmpIphash c u.fromhost)
  else none

theorem placeOf_eq_zero {c : UtmpConf} {u : UserInfo} : placeOf c u = some 0 ↔ u.active = 0 := by
  unfold placeOf utmpIphash
  grind

theorem placeOf_eq_some {c : UtmpConf} {u : UserInfo} {h : Nat} (hh : h ≠ 0) :
    placeOf c u = some h ↔
      u.active ≠ 0 ∧ u.isWwwGuest = true ∧ utmpIphash c u.fromhost = h := by
  unfold placeOf
  grind

/-- The slots `live` are linked in where they belong, and chain 0 ends with those
that are not for use. -/
structure Linked (c : UtmpConf) (live : Nat → Prop) (uinfo : Nat → UserInfo)
    (next head : Nat → Nat) (own : Nat → List Nat) : Prop where
  threaded : Chain.Threaded next head own
  mem : ∀ h x, x ∈ own h ↔ live x ∧ placeOf c (uinfo x) = some h
  reserve : ∃ low, own 0 =
      low ++ List.range' (c.maxactiverun + 1) (c.maxactive - c.maxactiverun) ∧
    ∀ x ∈ low, x ≤ c.maxactiverun

namespace Linked

variable {c : UtmpConf} {live : Nat → Prop} {uinfo : Nat → UserInfo} {next head : Nat → Nat}
  {own : Nat → List Nat} {x : Nat} {l : List Nat}

/-- A slot that is in use is not one of the reserve. -/
theorem le_maxactiverun (h : Linked c c.Slot uinfo next head own) (hx : c.Slot x)
    (hact : (uinfo x).active ≠ 0) : x ≤ c.maxactiverun := by
  by_contra hgt
  obtain ⟨low, hown, -⟩ := h.reserve
  have hmem : x ∈ own 0 := by
    rw [hown, List.mem_append, List.mem_range'_1]
    unfold UtmpConf.Slot at hx
    omega
  exact hact (placeOf_eq_zero.mp ((h.mem 0 x).mp hmem).2)

/-- A slot that is in no chain. -/
theorem take_unplaced (h : Linked c c.Slot uinfo next head own)
    (hplace : placeOf c (uinfo x) = none) : Linked c (c.SlotBut x) uinfo next head own := by
  refine ⟨h.threaded, fun k y => ?_, h.reserve⟩
  rw [h.mem, UtmpConf.SlotBut]
  grind

/-- The first free slot, when it is for use. -/
theorem take_free (h : Linked c c.Slot uinfo next head own) (hown : own 0 = x :: l)
    (hrun : x ≤ c.maxactiverun) :
    Linked c (c.SlotBut x) uinfo next (update head 0 (next x)) (update own 0 l) := by
  have hmem : ∀ {k y}, y ∈ update own 0 l k ↔ y ∈ own k ∧ y ≠ x :=
    h.threaded.mem_unlink (show own 0 = [] ++ x :: l from hown)
  refine ⟨h.threaded.unlinkHead hown, fun k y => ?_, ?_⟩
  · rw [hmem, h.mem, UtmpConf.SlotBut]
    grind
  · obtain ⟨low, hlow, hle⟩ := h.reserve
    rw [hown] at hlow
    cases low with
    | nil =>
        have hres : x ∈ List.range' (c.maxactiverun + 1) (c.maxactive - c.maxactiverun) := by
          rw [← List.nil_append (List.range' _ _), ← hlow]
          exact List.mem_cons_self
        rw [List.mem_range'_1] at hres
        omega
    | cons y low =>
        rw [List.cons_append, List.cons.injEq] at hlow
        exact ⟨low, by rw [update_self, hlow.2], fun y hy => hle y (List.mem_cons_of_mem _ hy)⟩

/-- A web guest, by whatever way of unlinking. -/
theorem take_guest (h : Linked c c.Slot uinfo next head own) {k : Nat} (hk : k ≠ 0)
    {pre post : List Nat} (hown : own k = pre ++ x :: post) {next' head' : Nat → Nat}
    (ht : Chain.Threaded next' head' (update own k (pre ++ post))) :
    Linked c (c.SlotBut x) uinfo next' head' (update own k (pre ++ post)) := by
  refine ⟨ht, fun g y => ?_, ?_⟩
  · rw [h.threaded.mem_unlink hown, h.mem, UtmpConf.SlotBut]
    grind
  · rw [update_of_ne hk.symm]
    exact h.reserve

/-- A slot that is not linked in may get any record, and any link. -/
theorem setRecord (h : Linked c (c.SlotBut x) uinfo next head own) (u : UserInfo) :
    Linked c (c.SlotBut x) (update uinfo x u) next head own := by
  refine ⟨h.threaded, fun k y => ?_, h.reserve⟩
  rw [h.mem, UtmpConf.SlotBut]
  by_cases hy : y = x
  · simp [hy]
  · rw [update_of_ne hy]

theorem notMem (h : Linked c (c.SlotBut x) uinfo next head own) (k : Nat) : x ∉ own k :=
  fun hx => ((h.mem k x).mp hx).1.2 rfl

theorem setNext (h : Linked c (c.SlotBut x) uinfo next head own) (v : Nat) :
    Linked c (c.SlotBut x) uinfo (update next x v) head own :=
  ⟨h.threaded.updateFree h.notMem v, h.mem, h.reserve⟩

/-- Nothing is to be done for a slot that belongs in no chain. -/
theorem put_unplaced (h : Linked c (c.SlotBut x) uinfo next head own)
    (hplace : placeOf c (uinfo x) = none) : Linked c c.Slot uinfo next head own := by
  refine ⟨h.threaded, fun k y => ?_, h.reserve⟩
  rw [h.mem, UtmpConf.SlotBut]
  grind

/-- **Putting a slot where it belongs.** -/
theorem put (h : Linked c (c.SlotBut x) uinfo next head own) (hx : c.Slot x) {k : Nat}
    (hplace : placeOf c (uinfo x) = some k) (hrun : k = 0 → x ≤ c.maxactiverun) :
    Linked c c.Slot uinfo (update next x (head k)) (update head k x)
      (update own k (x :: own k)) := by
  refine ⟨h.threaded.pushFront h.notMem (by unfold UtmpConf.Slot at hx; omega), fun g y => ?_, ?_⟩
  · rw [Chain.Threaded.mem_update_cons, h.mem, UtmpConf.SlotBut]
    grind
  · obtain ⟨low, hlow, hle⟩ := h.reserve
    by_cases hk : k = 0
    · subst hk
      refine ⟨x :: low, by rw [update_self, hlow]; rfl, fun y hy => ?_⟩
      cases List.mem_cons.mp hy with
      | inl heq => exact heq ▸ hrun rfl
      | inr hmem => exact hle y hmem
    · rw [update_of_ne (Ne.symm hk)]
      exact ⟨low, hlow, hle⟩

/-- A chain is no longer than the table. -/
theorem length_le (h : Linked c c.Slot uinfo next head own) (k : Nat) :
    (own k).length ≤ c.maxactive := by
  have hsub : own k ⊆ List.range' 1 c.maxactive := fun x hx => by
    have hslot := ((h.mem k x).mp hx).1
    unfold UtmpConf.Slot at hslot
    rw [List.mem_range'_1]
    omega
  simpa using ((h.threaded.nodup k).subperm hsub).length_le

end Linked

/-! ## The counters -/

/-- How many slots have such a record. -/
def countSlots (c : UtmpConf) (p : UserInfo → Bool) (uinfo : Nat → UserInfo) : Nat :=
  ((Finset.Icc 1 c.maxactive).filter fun x => p (uinfo x) = true).card

theorem countSlots_le (c : UtmpConf) (p : UserInfo → Bool) (uinfo : Nat → UserInfo) :
    countSlots c p uinfo ≤ c.maxactive := by
  refine (Finset.card_filter_le _ _).trans ?_
  simp

theorem countSlots_update {c : UtmpConf} {x : Nat} (hx : c.Slot x) (p : UserInfo → Bool)
    (uinfo : Nat → UserInfo) (u : UserInfo) :
    countSlots c p (update uinfo x u) + (if p (uinfo x) then 1 else 0) =
      countSlots c p uinfo + (if p u then 1 else 0) := by
  have hmem : x ∈ Finset.Icc 1 c.maxactive := Finset.mem_Icc.mpr hx
  simp only [countSlots, Finset.card_filter]
  rw [← Finset.add_sum_erase _ _ hmem, ← Finset.add_sum_erase _ _ hmem]
  have hrest : ∀ y ∈ (Finset.Icc 1 c.maxactive).erase x,
      (if p (update uinfo x u y) = true then 1 else 0) = if p (uinfo y) = true then 1 else 0 := by
    intro y hy
    rw [update_of_ne (Finset.ne_of_mem_erase hy)]
  rw [Finset.sum_congr rfl hrest, update_self]
  omega

/-- What a record has in common with the one it replaces. -/
theorem update_same {α : Type} {f : UserInfo → α} {uinfo : Nat → UserInfo} {x : Nat} {u : UserInfo}
    (hsame : f u = f (uinfo x)) (y : Nat) : f (update uinfo x u y) = f (uinfo y) := by
  by_cases hy : y = x
  · subst hy
    rw [update_self, hsame]
  · rw [update_of_ne hy]

theorem countSlots_same {c : UtmpConf} {p : UserInfo → Bool} {uinfo : Nat → UserInfo} {x : Nat}
    {u : UserInfo} (hsame : p u = p (uinfo x)) :
    countSlots c p (update uinfo x u) = countSlots c p uinfo := by
  simp only [countSlots, update_same hsame]

def isActive (u : UserInfo) : Bool := u.active != 0

def isActiveGuest (u : UserInfo) : Bool := u.active != 0 && u.isWwwGuest

/-- The invariant of the table. -/
structure Utmp.Inv (c : UtmpConf) (t : Utmp) (own : Nat → List Nat) : Prop where
  linked : Linked c c.Slot t.uinfo t.guesthashNext t.guesthashHead own
  activeuser : t.activeuser = countSlots c isActive t.uinfo
  wwwguestnum : t.wwwguestnum = countSlots c isActiveGuest t.uinfo

theorem ushortInc_of_lt {n m : Nat} (h : n + 1 = m) (hm : m < 65536) : ushortInc n = m := by
  unfold ushortInc
  omega

theorem ushortDec_of_le {n m : Nat} (h : n = m + 1) (hm : m < 65535) : ushortDec n = m := by
  unfold ushortDec
  omega

/-! ## What the other data are -/

theorem removeUindex_frame (c : UtmpConf) (t : Utmp) (uid : Int) (x : Nat) :
    ∃ uindex, removeUindex c t uid x = { t with uindex } := by
  unfold removeUindex Utmp.setUindex
  split
  · exact ⟨t.uindex, rfl⟩
  · split
    · exact ⟨_, rfl⟩
    · exact ⟨t.uindex, rfl⟩

theorem addUindex_frame (c : UtmpConf) (t : Utmp) (uid : Int) (x : Nat) :
    ∃ uindex, addUindex c t uid x = { t with uindex } := by
  unfold addUindex Utmp.setUindex
  dsimp only
  split
  · exact ⟨t.uindex, rfl⟩
  · split
    · exact ⟨t.uindex, rfl⟩
    · split
      · exact ⟨_, rfl⟩
      · exact ⟨t.uindex, rfl⟩

theorem updateMaxOnline_frame (t : Utmp) :
    ∃ maxtoday maxuser maxLoginNum,
      updateMaxOnline t = { t with maxtoday, maxuser, maxLoginNum } := by
  unfold updateMaxOnline
  dsimp only
  split
  · exact ⟨t.maxtoday, t.maxuser, t.maxLoginNum, rfl⟩
  · split
    · exact ⟨t.activeuser, t.maxuser, t.maxLoginNum, rfl⟩
    · split
      · exact ⟨t.activeuser, _, t.maxLoginNum, rfl⟩
      · exact ⟨t.activeuser, t.activeuser, some t.activeuser, rfl⟩

/-- The slot leaves the free chain; the figures of the day and the index are all else that
`occupySlot` touches. -/
theorem occupySlot_frame (c : UtmpConf) (t : Utmp) (x : Nat) (up : UserInfo) :
    ∃ maxtoday maxuser maxLoginNum, occupySlot c t x up = addUindex c
      { t with
        guesthashHead := update t.guesthashHead 0 (t.guesthashNext x)
        guesthashNext := update t.guesthashNext x 0
        uinfo := update t.uinfo x up
        activeuser := ushortInc t.activeuser
        maxtoday, maxuser, maxLoginNum } up.uid x := by
  obtain ⟨maxtoday, maxuser, maxLoginNum, hmax⟩ := updateMaxOnline_frame
    { t with
      guesthashHead := update t.guesthashHead 0 (t.guesthashNext x)
      guesthashNext := update t.guesthashNext x 0
      uinfo := update t.uinfo x up
      activeuser := ushortInc t.activeuser }
  refine ⟨maxtoday, maxuser, maxLoginNum, ?_⟩
  unfold occupySlot
  dsimp only
  rw [hmax]

theorem occupySlot_uinfo (c : UtmpConf) (t : Utmp) (x : Nat) (up : UserInfo) :
    (occupySlot c t x up).uinfo = update t.uinfo x up := by
  obtain ⟨_, _, _, hframe⟩ := occupySlot_frame c t x up
  obtain ⟨_, hindex⟩ := addUindex_frame c _ up.uid x
  rw [hframe, hindex]

theorem enterChain_uinfo (c : UtmpConf) (t : Utmp) (x : Nat) (up : UserInfo) :
    (enterChain c t x up).uinfo = t.uinfo := by
  unfold enterChain
  split <;> rfl

/-! ## Unlinking a web guest -/

/-- The loop stops at the cell before `x`. -/
theorem unlinkLoop_chain {next : Nat → Nat} {x p : Nat} {pre post : List Nat} {fuel i : Nat}
    (h : Chain.IsChain next i (pre ++ p :: x :: post)) (hfuel : pre.length < fuel) :
    unlinkLoop next x fuel i = some (update next p (next x)) := by
  induction pre generalizing fuel i with
  | nil =>
      obtain ⟨fuel, rfl⟩ : ∃ f, fuel = f + 1 := ⟨fuel - 1, by omega⟩
      obtain ⟨rfl, -, hx, h0, -⟩ := h
      rw [unlinkLoop, if_neg (hx ▸ h0), if_pos hx]
  | cons y pre ih =>
      obtain ⟨fuel, rfl⟩ : ∃ f, fuel = f + 1 := ⟨fuel - 1, by omega⟩
      rw [List.cons_append] at h
      have hnd := h.nodup
      obtain ⟨rfl, -, htail⟩ := h
      -- the cell behind this one is still before `x`
      obtain ⟨z, rest, hz, hzx⟩ : ∃ z rest, pre ++ p :: x :: post = z :: rest ∧ z ≠ x := by
        cases pre with
        | nil => exact ⟨p, x :: post, rfl, by grind⟩
        | cons z pre => exact ⟨z, pre ++ p :: x :: post, rfl, by grind⟩
      have hstart := htail
      rw [hz] at hstart
      obtain ⟨hnext, h0, -⟩ := hstart
      rw [unlinkLoop, if_neg (hnext ▸ h0), if_neg (hnext ▸ hzx)]
      exact ih htail (by simp only [List.length_cons] at hfuel; omega)

/-- A web guest is taken out of the chain of its address. -/
theorem unlinkGuest_spec {c : UtmpConf} {t : Utmp} {own : Nat → List Nat} {x : Nat}
    (h : Linked c c.Slot t.uinfo t.guesthashNext t.guesthashHead own) (hx : c.Slot x)
    (hact : (t.uinfo x).active ≠ 0) (hguest : (t.uinfo x).isWwwGuest = true) :
    ∃ next head own', unlinkGuest c t x =
        some { t with guesthashNext := next, guesthashHead := head } ∧
      Linked c (c.SlotBut x) t.uinfo next head own' := by
  obtain ⟨k, hk⟩ : ∃ k, utmpIphash c (t.uinfo x).fromhost = k := ⟨_, rfl⟩
  have hk0 : k ≠ 0 := by
    unfold utmpIphash at hk
    omega
  have hmem : x ∈ own k := (h.mem k x).mpr ⟨hx, (placeOf_eq_some hk0).mpr ⟨hact, hguest, hk⟩⟩
  obtain ⟨pre, post, hown⟩ := List.append_of_mem hmem
  have hchain := h.threaded.chain k
  have hlen := h.length_le k
  rw [hown] at hchain hlen
  simp only [unlinkGuest, hk]
  rcases List.eq_nil_or_concat pre with rfl | ⟨pre, p, rfl⟩
  · have hhead : t.guesthashHead k = x := hchain.1
    rw [if_pos hhead]
    refine ⟨_, _, _, rfl, h.take_guest hk0 hown ?_⟩
    rw [hhead]
    exact h.threaded.unlinkHead hown
  · rw [List.concat_eq_append, List.append_assoc, List.singleton_append] at hchain hown
    have hhead : t.guesthashHead k ≠ x := by
      intro heq
      have hnd := hchain.nodup
      rw [heq] at hchain
      cases pre with
      | nil =>
          obtain ⟨rfl, -⟩ := hchain
          simp at hnd
      | cons y pre =>
          obtain ⟨rfl, -⟩ := hchain
          simp at hnd
    rw [if_neg hhead, unlinkLoop_chain hchain (by simp at hlen; omega)]
    have ht := h.threaded.unlinkAfter hown
    have hown' : own k = (pre ++ [p]) ++ x :: post := by
      rw [hown, List.append_assoc, List.singleton_append]
    refine ⟨_, _, _, rfl, h.take_guest hk0 hown' ?_⟩
    rwa [List.append_assoc, List.singleton_append]

/-! ## The functions keep the invariant -/

/-- A slot that is not linked in becomes a free one. -/
theorem Linked.free {c : UtmpConf} {uinfo : Nat → UserInfo} {next head : Nat → Nat}
    {own : Nat → List Nat} {x : Nat} (h : Linked c (c.SlotBut x) uinfo next head own)
    (hx : c.Slot x) (hrun : x ≤ c.maxactiverun) {u : UserInfo} (hu : u.active = 0) :
    Linked c c.Slot (update uinfo x u) (update next x (head 0)) (update head 0 x)
      (update own 0 (x :: own 0)) := by
  refine (h.setRecord u).put hx ?_ fun _ => hrun
  rw [update_self]
  exact placeOf_eq_zero.mpr hu

section Spec

variable {c : UtmpConf} {t : Utmp} {own : Nat → List Nat} {x : Nat}

/-- `ushortDec` of a count when slot `x` no longer counts. -/
theorem ushortDec_count (hx : c.Slot x) {p : UserInfo → Bool} {n : Nat}
    (hn : n = countSlots c p t.uinfo) {u : UserInfo} (hold : p (t.uinfo x) = true)
    (hnew : p u = false) : ushortDec n = countSlots c p (update t.uinfo x u) := by
  have hcount := countSlots_update hx p t.uinfo u
  have hle := countSlots_le c p t.uinfo
  have hfits := c.fits
  rw [hold, hnew, if_pos rfl, if_neg Bool.false_ne_true] at hcount
  exact ushortDec_of_le (by omega) (by omega)

/-- `ushortInc` of a count when slot `x` counts from now on. -/
theorem ushortInc_count (hx : c.Slot x) {p : UserInfo → Bool} {n : Nat}
    (hn : n = countSlots c p t.uinfo) {u : UserInfo} (hold : p (t.uinfo x) = false)
    (hnew : p u = true) : ushortInc n = countSlots c p (update t.uinfo x u) := by
  have hcount := countSlots_update hx p t.uinfo u
  have hle := countSlots_le c p (update t.uinfo x u)
  have hfits := c.fits
  rw [hold, hnew, if_pos rfl, if_neg Bool.false_ne_true] at hcount
  exact ushortInc_of_lt (by omega) (by omega)

/-- A slot that has left its chain is in none, and the guests are counted without
it. -/
theorem leaveChain_spec (h : t.Inv c own) (hx : c.Slot x) (hact : (t.uinfo x).active ≠ 0) :
    ∃ next head wwwguestnum own',
      leaveChain c t x =
        some { t with guesthashNext := next, guesthashHead := head, wwwguestnum } ∧
      Linked c (c.SlotBut x) t.uinfo next head own' ∧
      wwwguestnum = countSlots c isActiveGuest (update t.uinfo x (t.uinfo x).kicked) := by
  unfold leaveChain
  cases hguest : (t.uinfo x).isWwwGuest with
  | true =>
      obtain ⟨next, head, own', hunlink, hlinked⟩ := unlinkGuest_spec h.linked hx hact hguest
      refine ⟨next, head, ushortDec t.wwwguestnum, own', ?_, hlinked,
        ushortDec_count hx h.wwwguestnum (by simp [isActiveGuest, hact, hguest]) rfl⟩
      rw [if_pos rfl, hunlink]
      rfl
  | false =>
      have hplace : placeOf c (t.uinfo x) = none := by simp [placeOf, hact, hguest]
      refine ⟨_, _, _, own, if_neg Bool.false_ne_true, h.linked.take_unplaced hplace, ?_⟩
      rw [h.wwwguestnum, countSlots_same]
      simp [isActiveGuest, hguest, UserInfo.kicked]

/-- What is in no chain becomes free. -/
theorem freeSlot_inv
    (h : Linked c (c.SlotBut x) t.uinfo t.guesthashNext t.guesthashHead own) (hx : c.Slot x)
    (hrun : x ≤ c.maxactiverun) (hact : (t.uinfo x).active ≠ 0)
    (hactive : t.activeuser = countSlots c isActive t.uinfo)
    (hguests : t.wwwguestnum = countSlots c isActiveGuest (update t.uinfo x (t.uinfo x).kicked)) :
    (freeSlot c t x).Inv c (update own 0 (x :: own 0)) := by
  unfold freeSlot
  obtain ⟨uindex, hindex⟩ := removeUindex_frame c
    { t.pushFree x with activeuser := ushortDec t.activeuser } (t.uinfo x).uid x
  have hcount : ushortDec t.activeuser =
      countSlots c isActive (update t.uinfo x (t.uinfo x).kicked) :=
    ushortDec_count hx hactive (by simp [isActive, hact]) rfl
  refine ⟨?_, ?_, ?_⟩
  · simp only [Utmp.pushFree] at hindex ⊢
    rw [hindex]
    exact h.free hx hrun rfl
  · simp only [Utmp.pushFree] at hindex ⊢
    rw [hindex]
    exact hcount
  · simp only [Utmp.pushFree] at hindex ⊢
    rw [hindex]
    exact hguests

/-- **The sweep frees an active slot.** -/
theorem kickSlot_spec (h : t.Inv c own) (hx : c.Slot x) (hact : (t.uinfo x).active ≠ 0) :
    ∃ t' own', kickSlot c t x = some t' ∧ t'.Inv c own' := by
  have hrun := h.linked.le_maxactiverun hx hact
  obtain ⟨next, head, wwwguestnum, own', hleave, hlinked, hguests⟩ := leaveChain_spec h hx hact
  rw [kickSlot, hleave, Option.map_some]
  exact ⟨_, _, rfl, freeSlot_inv hlinked hx hrun hact h.activeuser hguests⟩

/-- **The sweep ends, and keeps the invariant.** -/
theorem utmpKickidle_spec (h : t.Inv c own) (now : Int) (alive : Nat → Bool) :
    ∃ t' own', utmpKickidle c t now alive = some t' ∧ t'.Inv c own' := by
  have hloop : ∀ (l : List Nat) (t : Utmp) (own : Nat → List Nat), (∀ x ∈ l, c.Slot x) →
      t.Inv c own → ∃ t' own',
        l.foldlM (fun t x => if idles (t.uinfo x) now (alive x) then kickSlot c t x else some t) t =
          some t' ∧ t'.Inv c own' := by
    intro l
    induction l with
    | nil => exact fun t own _ h => ⟨t, own, rfl, h⟩
    | cons x l ih =>
        intro t own hl h
        rw [List.foldlM_cons]
        by_cases hidle : idles (t.uinfo x) now (alive x) = true
        · have hact : (t.uinfo x).active ≠ 0 := by
            simp only [idles, Bool.and_eq_true, bne_iff_ne] at hidle
            exact hidle.1.1.1.2
          obtain ⟨t', own', hkick, h'⟩ := kickSlot_spec h (hl x List.mem_cons_self) hact
          rw [if_pos hidle, hkick]
          exact ih t' own' (fun y hy => hl y (List.mem_cons_of_mem _ hy)) h'
        · rw [if_neg hidle]
          exact ih t own (fun y hy => hl y (List.mem_cons_of_mem _ hy)) h
  unfold utmpKickidle
  split
  · exact ⟨t, own, rfl, h⟩
  · refine hloop _ _ own (fun x hx => ?_) ⟨h.linked, h.activeuser, h.wwwguestnum⟩
    rw [List.mem_range'_1] at hx
    unfold UtmpConf.Slot
    omega

/-- The first free slot with its new record is in no chain. -/
theorem occupySlot_spec (h : t.Inv c own) {l : List Nat} (hown : own 0 = x :: l)
    (hrun : x ≤ c.maxactiverun) {up : UserInfo} (hup : up.active ≠ 0) :
    ∃ own', Linked c (c.SlotBut x) (occupySlot c t x up).uinfo (occupySlot c t x up).guesthashNext
        (occupySlot c t x up).guesthashHead own' ∧
      (occupySlot c t x up).uinfo = update t.uinfo x up ∧
      (occupySlot c t x up).activeuser = countSlots c isActive (update t.uinfo x up) ∧
      (occupySlot c t x up).wwwguestnum = t.wwwguestnum := by
  obtain ⟨hx, hplace⟩ := (h.linked.mem 0 x).mp (hown ▸ List.mem_cons_self)
  have hfree : (t.uinfo x).active = 0 := placeOf_eq_zero.mp hplace
  have hcount : ushortInc t.activeuser = countSlots c isActive (update t.uinfo x up) :=
    ushortInc_count hx h.activeuser (by simp [isActive, hfree]) (by simp [isActive, hup])
  have hlinked := ((h.linked.take_free hown hrun).setNext 0).setRecord up
  obtain ⟨_, _, _, hframe⟩ := occupySlot_frame c t x up
  obtain ⟨_, hindex⟩ := addUindex_frame c _ up.uid x
  rw [hframe, hindex]
  exact ⟨_, hlinked, rfl, hcount, rfl⟩

/-- With the new record linked in, the invariant holds again. -/
theorem enterChain_spec (h : t.Inv c own) {l : List Nat} (hown : own 0 = x :: l)
    (hrun : x ≤ c.maxactiverun) {up : UserInfo} (hup : up.active ≠ 0) :
    ∃ own', (enterChain c (occupySlot c t x up) x up).Inv c own' := by
  obtain ⟨hx, hplace⟩ := (h.linked.mem 0 x).mp (hown ▸ List.mem_cons_self)
  have hfree : (t.uinfo x).active = 0 := placeOf_eq_zero.mp hplace
  obtain ⟨own', hlinked, huinfo, hactive, hguests⟩ := occupySlot_spec h hown hrun hup
  have hrecord : (occupySlot c t x up).uinfo x = up := by rw [huinfo, update_self]
  unfold enterChain
  cases hguest : up.isWwwGuest with
  | true =>
      rw [if_pos rfl]
      have hput : placeOf c ((occupySlot c t x up).uinfo x) = some (utmpIphash c up.fromhost) := by
        simp [hrecord, placeOf, hup, hguest]
      have hcount : ushortInc t.wwwguestnum = countSlots c isActiveGuest (update t.uinfo x up) :=
        ushortInc_count hx h.wwwguestnum (by simp [isActiveGuest, hfree])
          (by simp [isActiveGuest, hup, hguest])
      refine ⟨_, hlinked.put hx hput (fun h0 => ?_), by rw [hactive, huinfo], ?_⟩
      · unfold utmpIphash at h0
        omega
      · rw [hguests, huinfo]
        exact hcount
  | false =>
      rw [if_neg Bool.false_ne_true]
      have hnone : placeOf c ((occupySlot c t x up).uinfo x) = none := by
        simp [hrecord, placeOf, hup, hguest]
      refine ⟨own', hlinked.put_unplaced hnone, by rw [hactive, huinfo], ?_⟩
      rw [hguests, huinfo, h.wwwguestnum, countSlots_same]
      simp [isActiveGuest, hfree, hguest]

/-- When no slot is to be had, all of those for use are taken. -/
theorem Linked.all_taken {uinfo : Nat → UserInfo} {next head : Nat → Nat}
    (h : Linked c c.Slot uinfo next head own) (hfull : head 0 = 0 ∨ c.maxactiverun < head 0)
    (hx : c.Slot x) (hrun : x ≤ c.maxactiverun) : (uinfo x).active ≠ 0 := by
  intro hfree
  have hmem : x ∈ own 0 := (h.mem 0 x).mpr ⟨hx, placeOf_eq_zero.mpr hfree⟩
  obtain ⟨low, hlow, hle⟩ := h.reserve
  have hchain := h.threaded.chain 0
  cases low with
  | nil =>
      rw [hlow, List.nil_append, List.mem_range'_1] at hmem
      omega
  | cons y low =>
      rw [hlow, List.cons_append] at hchain
      have hy := hle y List.mem_cons_self
      have h0 := hchain.2.1
      rw [hchain.1] at hfull
      omega

/-- **A login** ends; it returns -1 when all slots for use are taken, and else a
slot that was free. -/
theorem utmpLogin_spec (h : t.Inv c own) {up : UserInfo} (hup : up.active ≠ 0) (now : Int)
    (alive : Nat → Bool) :
    ∃ r t' own', utmpLogin c t up now alive = some (r, t') ∧ t'.Inv c own' ∧
      ((r = -1 ∧ ∀ x, c.Slot x → x ≤ c.maxactiverun → (t.uinfo x).active ≠ 0) ∨
        ∃ x : Nat, r = x ∧ c.Slot x ∧ x ≤ c.maxactiverun ∧ (t.uinfo x).active = 0) := by
  by_cases hfull : t.guesthashHead 0 = 0 ∨ c.maxactiverun < t.guesthashHead 0
  · exact ⟨-1, t, own, if_pos hfull, h,
      Or.inl ⟨rfl, fun x hx hrun => h.linked.all_taken hfull hx hrun⟩⟩
  · have hchain := h.linked.threaded.chain 0
    cases hown : own 0 with
    | nil =>
        rw [hown] at hchain
        exact absurd (Or.inl hchain) hfull
    | cons x l =>
        rw [hown] at hchain
        have hhead := hchain.1
        obtain ⟨hx, hplace⟩ := (h.linked.mem 0 x).mp (hown ▸ List.mem_cons_self)
        have hfree : (t.uinfo x).active = 0 := placeOf_eq_zero.mp hplace
        have hrun : x ≤ c.maxactiverun := by omega
        obtain ⟨own', hinv⟩ := enterChain_spec h hown hrun hup
        obtain ⟨t', own'', hsweep, hinv'⟩ := utmpKickidle_spec hinv now alive
        refine ⟨x, t', own'', ?_, hinv', Or.inr ⟨x, rfl, hx, hrun, hfree⟩⟩
        rw [hhead] at hfull
        simp only [utmpLogin, hhead, if_neg hfull, hfree, hsweep]
        simp

/-- **A logout keeps the invariant.** -/
theorem utmpLogout_spec (h : t.Inv c own) {utmpent : Int} {up : UserInfo}
    (hallowed : (UtmpEvent.logout utmpent up).Allowed c t) :
    ∃ own', (utmpLogout c t utmpent up).Inv c own' := by
  obtain ⟨hup, hent, hle, hguest⟩ := hallowed
  unfold utmpLogout
  dsimp only
  split
  · exact ⟨own, h⟩
  · split
    · exact ⟨own, h⟩
    · next hneg hact =>
      obtain ⟨x, rfl⟩ := Int.eq_ofNat_of_zero_le (show 0 ≤ utmpent by omega)
      have hx : c.Slot x := by
        unfold UtmpConf.Slot
        omega
      simp only [Int.toNat_natCast] at hact hguest ⊢
      have hnot := hguest (by omega) hact
      have hplace : placeOf c (t.uinfo x) = none := by simp [placeOf, hact, hnot]
      have hrun := h.linked.le_maxactiverun hx hact
      obtain ⟨uindex, hindex⟩ := removeUindex_frame c t (t.uinfo x).uid x
      simp only [hindex, Utmp.pushFree]
      refine ⟨_, (h.linked.take_unplaced hplace).free hx hrun hup, ?_, ?_⟩
      · exact ushortDec_count hx h.activeuser (by simp [isActive, hact]) (by simp [isActive, hup])
      · have hsame : isActiveGuest up = isActiveGuest (t.uinfo x) := by
          simp [isActiveGuest, hup, hnot]
        exact h.wwwguestnum.trans (countSlots_same hsame).symm

end Spec

/-- What a session changes in its record does not matter. -/
theorem Utmp.Inv.touch {c : UtmpConf} {t : Utmp} {own : Nat → List Nat} (h : t.Inv c own) (x : Nat)
    (lasttime extIdle : Int) (iskicked : Bool) :
    Utmp.Inv c
      { t with uinfo := update t.uinfo x { t.uinfo x with lasttime, extIdle, iskicked } } own := by
  obtain ⟨u, hu⟩ : ∃ u, { t.uinfo x with lasttime, extIdle, iskicked } = u := ⟨_, rfl⟩
  rw [hu]
  refine ⟨⟨h.linked.threaded, fun k y => ?_, h.linked.reserve⟩, ?_, ?_⟩
  · have hplace : placeOf c u = placeOf c (t.uinfo x) := by
      rw [← hu]
      rfl
    rw [h.linked.mem, update_same hplace]
  · have hsame : isActive u = isActive (t.uinfo x) := by
      rw [← hu]
      rfl
    exact h.activeuser.trans (countSlots_same hsame).symm
  · have hsame : isActiveGuest u = isActiveGuest (t.uinfo x) := by
      rw [← hu]
      rfl
    exact h.wwwguestnum.trans (countSlots_same hsame).symm

/-- The chain of the free slots that `initutmp` builds. -/
theorem initutmp_chain (c : UtmpConf) {n k : Nat} (hn : n + k = c.maxactive) :
    Chain.IsChain (initutmp c).guesthashNext (if k = 0 then 0 else n + 1)
      (List.range' (n + 1) k) := by
  induction k generalizing n with
  | zero => rfl
  | succ k ih =>
      rw [if_neg (Nat.succ_ne_zero k), List.range'_succ]
      refine ⟨rfl, Nat.succ_ne_zero n, ?_⟩
      have hnext : (initutmp c).guesthashNext (n + 1) = if k = 0 then 0 else n + 1 + 1 := by
        simp only [initutmp]
        split <;> split <;> omega
      rw [hnext]
      exact ih (by omega)

theorem initutmp_inv (c : UtmpConf) :
    (initutmp c).Inv c (update (fun _ => []) 0 (List.range' 1 c.maxactive)) := by
  have hpos := c.pos
  have hzero : ∀ p : UserInfo → Bool, p emptyUserInfo = false →
      countSlots c p (initutmp c).uinfo = 0 := by
    intro p hp
    simp [countSlots, initutmp, hp]
  refine ⟨⟨⟨fun h => ?_, ?_⟩, fun h x => ?_, ?_⟩, (hzero _ rfl).symm, (hzero _ rfl).symm⟩
  · by_cases hh : h = 0
    · subst hh
      have hchain := @initutmp_chain c 0 c.maxactive (Nat.zero_add _)
      rw [if_neg (by omega)] at hchain
      exact hchain
    · simp only [initutmp, update_of_ne hh, Chain.isChain_nil]
  · intro h k x hx hx'
    grind
  · have hplace : placeOf c ((initutmp c).uinfo x) = some 0 := rfl
    rw [hplace, Option.some.injEq]
    by_cases hh : h = 0
    · subst hh
      rw [update_self, List.mem_range'_1, UtmpConf.Slot]
      omega
    · rw [update_of_ne hh]
      simp [Ne.symm hh]
  · rcases Nat.le_total c.maxactiverun c.maxactive with hle | hge
    · refine ⟨List.range' 1 c.maxactiverun, ?_, fun x hx => ?_⟩
      · rw [update_self, Nat.add_comm, List.range'_append_1, Nat.add_sub_cancel' hle]
      · rw [List.mem_range'_1] at hx
        omega
    · refine ⟨List.range' 1 c.maxactive, ?_, fun x hx => ?_⟩
      · rw [update_self, Nat.sub_eq_zero_of_le hge, List.range'_zero, List.append_nil]
      · rw [List.mem_range'_1] at hx
        omega

/-! ## Histories -/

/-- What the table promises: each slot is active or a free one in chain 0, each
active web guest is in the chain of its address, no chain holds anything else or
anything twice, the counters are right, and a login fails only when all slots
for use are taken. -/
structure Utmp.WellFormed (c : UtmpConf) (t : Utmp) : Prop where
  chains : ∃ own : Nat → List Nat,
    (∀ h, Chain.IsChain t.guesthashNext (t.guesthashHead h) (own h) ∧ (own h).Nodup) ∧
    (∀ x, x ∈ own 0 ↔ c.Slot x ∧ (t.uinfo x).active = 0) ∧
    ∀ h x, h ≠ 0 → (x ∈ own h ↔ c.Slot x ∧ (t.uinfo x).active ≠ 0 ∧
      (t.uinfo x).isWwwGuest = true ∧ utmpIphash c (t.uinfo x).fromhost = h)
  activeuser : t.activeuser = countSlots c isActive t.uinfo
  wwwguestnum : t.wwwguestnum = countSlots c isActiveGuest t.uinfo
  login : ∀ up now alive, up.active ≠ 0 → ∃ r t', utmpLogin c t up now alive = some (r, t') ∧
    ((r = -1 ∧ ∀ x, c.Slot x → x ≤ c.maxactiverun → (t.uinfo x).active ≠ 0) ∨
      ∃ x : Nat, r = x ∧ c.Slot x ∧ x ≤ c.maxactiverun ∧ (t.uinfo x).active = 0)

theorem Utmp.Inv.toWellFormed {c : UtmpConf} {t : Utmp} {own : Nat → List Nat} (h : t.Inv c own) :
    t.WellFormed c := by
  refine ⟨⟨own, fun k => ⟨h.linked.threaded.chain k, h.linked.threaded.nodup k⟩, fun x => ?_,
    fun k x hk => ?_⟩, h.activeuser, h.wwwguestnum, fun up now alive hup => ?_⟩
  · rw [h.linked.mem, placeOf_eq_zero]
  · rw [h.linked.mem, placeOf_eq_some hk]
  · obtain ⟨r, t', own', hlogin, -, hr⟩ := utmpLogin_spec h hup now alive
    exact ⟨r, t', hlogin, hr⟩

/-- **One event keeps the invariant**, and its function returns. -/
theorem Utmp.Inv.step {c : UtmpConf} {t : Utmp} {own : Nat → List Nat} (h : t.Inv c own)
    {e : UtmpEvent} (hallowed : e.Allowed c t) :
    ∃ t' own', utmpStep c t e = some t' ∧ t'.Inv c own' := by
  cases e with
  | login up now alive =>
      obtain ⟨r, t', own', hlogin, hinv, -⟩ := utmpLogin_spec h hallowed.1 now alive
      refine ⟨t', own', ?_, hinv⟩
      rw [utmpStep, hlogin]
      rfl
  | logout utmpent up =>
      obtain ⟨own', hinv⟩ := utmpLogout_spec h hallowed
      exact ⟨_, own', rfl, hinv⟩
  | kickidle now alive => exact utmpKickidle_spec h now alive
  | touch x lasttime extIdle iskicked => exact ⟨_, own, rfl, h.touch x lasttime extIdle iskicked⟩

/-- **The table of online users is right after every history**, and every
function returns. -/
theorem utmp_wellFormed {c : UtmpConf} {es : List UtmpEvent} {st : Option Utmp}
    (hrun : Run (utmpNext c) (some (initutmp c)) es st) : ∃ t, st = some t ∧ t.WellFormed c := by
  have hinv : ∃ t own, st = some t ∧ t.Inv c own := by
    refine hrun.invariant (fun _ st => ∃ t own, st = some t ∧ t.Inv c own) ?_ ?_
    · exact ⟨_, _, rfl, initutmp_inv c⟩
    · rintro es st e st' ⟨t, own, rfl, hinv⟩ hnext
      simp only [utmpNext, Option.bind_some] at hnext
      split at hnext
      · next hallowed =>
        cases hnext
        exact hinv.step hallowed
      · contradiction
  obtain ⟨t, own, hst, hinv⟩ := hinv
  exact ⟨t, hst, hinv.toWellFormed⟩

/-- Two slots, of which one is for use. -/
def oneOfTwo : UtmpConf where
  maxactive := 2
  maxactiverun := 1
  maxusers := 5
  guestUid := 3
  inetAton := fun _ => 7
  pos := by decide
  fits := by decide

/-- A web guest. -/
def wwwGuest : UserInfo :=
  { emptyUserInfo with active := 1, pid := 1, uid := 3, userid := [103, 117, 101, 115, 116] }

/-- A web guest comes, a second one finds no slot, the sweep takes the first. -/
theorem utmp_wellFormed_guest :
    ∃ t, Run (utmpNext oneOfTwo) (some (initutmp oneOfTwo))
        [.login wwwGuest 100 fun _ => false, .login wwwGuest 200 fun _ => false,
          .kickidle 5000 fun _ => false] (some t) ∧
      t.WellFormed oneOfTwo := by
  have hrun := @Run.of_exec _ _ (utmpNext oneOfTwo) (some (initutmp oneOfTwo)) _
    [.login wwwGuest 100 fun _ => false, .login wwwGuest 200 fun _ => false,
      .kickidle 5000 fun _ => false] rfl
  obtain ⟨t, hst, hwf⟩ := utmp_wellFormed hrun
  exact ⟨t, hst ▸ hrun, hwf⟩

end Ytht
