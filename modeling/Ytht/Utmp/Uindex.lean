import Ytht.Lib.Places
import Ytht.Utmp.Slots

/-!
# Utmp.Uindex

The index of sessions, `struct UINDEX`: six places for each user, in which the slots of the
user's sessions are noted.  A place is judged by the record in the slot it names, so that it
need not be struck out when the slot gets another user.

While no user has more than six sessions each of them is noted in one place, and
`queryUIndex` finds one if there is one (`sessions_indexed`).
-/

namespace Ytht

open Function Runs

/-! ## Looking up -/

/-- What `queryUIndex` asks about whom the answer is for: whether `isreject` of a record with
that user, and whether cloaked users are seen. -/
structure QueryReader where
  isreject : UserInfo → Bool
  seesCloaked : Bool

/-- The loop of `queryUIndex`. -/
def queryLoop (t : Utmp) (uid : Int) (reader : Option QueryReader) (pid : Int) :
    Bool → List Nat → Option Nat
  | _, [] => none
  | testreject, uent :: rest =>
    let uentp := t.uinfo uent
    if uent = 0 then queryLoop t uid reader pid testreject rest
    else if uentp.active = 0 ∨ uentp.pid = 0 ∨ uentp.uid ≠ uid then
      queryLoop t uid reader pid testreject rest
    else if pid ≠ 0 ∧ uentp.pid ≠ pid then queryLoop t uid reader pid testreject rest
    else
      match reader with
      | none => some uent
      | some r =>
        if !testreject && r.isreject uentp then none
        else if uentp.invisible ≠ 0 ∧ !r.seesCloaked then queryLoop t uid reader pid true rest
        else some uent

/-- `queryUIndex`: the slot that is put in `*pos`. -/
def queryUIndex (c : UtmpConf) (t : Utmp) (uid : Int) (reader : Option QueryReader) (pid : Int) :
    Option Nat :=
  if uid ≤ 0 ∨ c.maxusers < uid then none
  else queryLoop t uid reader pid false ((List.range 6).map (t.uindex (uid - 1).toNat))

/-- A slot with a session of the user. -/
def Utmp.SessionOf (t : Utmp) (u : Int) (x : Nat) : Prop :=
  (t.uinfo x).active ≠ 0 ∧ (t.uinfo x).uid = u

instance (t : Utmp) (u : Int) (x : Nat) : Decidable (t.SessionOf u x) :=
  inferInstanceAs (Decidable (_ ∧ _))

/-- No registered user but the guest has more than six sessions. -/
def AtMostSix (c : UtmpConf) (uinfo : Nat → UserInfo) : Prop :=
  ∀ n < c.maxusers, ¬ c.noIndex ((n : Int) + 1) →
    countSlots c (fun r => r.active != 0 && r.uid == (n : Int) + 1) uinfo ≤ 6

instance (c : UtmpConf) (uinfo : Nat → UserInfo) : Decidable (AtMostSix c uinfo) :=
  inferInstanceAs (Decidable (∀ n < c.maxusers, _ → _))

theorem queryLoop_none (t : Utmp) (uid pid : Int) (testreject : Bool) (row : List Nat) :
    queryLoop t uid none pid testreject row = row.find? fun x =>
      x ≠ 0 ∧ (t.uinfo x).active ≠ 0 ∧ (t.uinfo x).pid ≠ 0 ∧ (t.uinfo x).uid = uid ∧
        (pid ≠ 0 → (t.uinfo x).pid = pid) := by
  induction row with
  | nil => rfl
  | cons x row ih =>
    rw [queryLoop, List.find?_cons]
    split_ifs with hzero hother hpid
    · rw [ih, decide_eq_false (by simp [hzero])]
    · rw [ih, decide_eq_false (by tauto)]
    · rw [ih, decide_eq_false (by tauto)]
    · rw [decide_eq_true (by tauto)]

/-! ## The invariant -/

/-- What is right about the index, and what it takes from the table: links lead to slots, and
what is active is a slot with a process. -/
structure Utmp.Indexed (c : UtmpConf) (t : Utmp) : Prop where
  head_le : ∀ h, t.guesthashHead h ≤ c.maxactive
  next_le : ∀ i, t.guesthashNext i ≤ c.maxactive
  active : ∀ x, (t.uinfo x).active ≠ 0 → c.Slot x ∧ 1 ≤ (t.uinfo x).pid
  entry_le : ∀ u i, t.uindex u i ≤ c.maxactive
  rows : ∀ u, ¬ c.noIndex u → Places.Notes 6 0 (t.SessionOf u) (t.uindex (u - 1).toNat)

namespace Utmp.Indexed

variable {c : UtmpConf} {t t' : Utmp} {x : Nat}

/-- Slot 0 is none. -/
theorem not_sessionOf_zero (h : t.Indexed c) (u : Int) : ¬ t.SessionOf u 0 := by
  intro hzero
  have hslot := (h.active 0 hzero.1).1
  unfold UtmpConf.Slot at hslot
  omega

/-- The links do not matter, nor do the counters, nor the rest of the records. -/
theorem congr (h : t.Indexed c)
    (hsame : ∀ x, (t'.uinfo x).active = (t.uinfo x).active ∧ (t'.uinfo x).uid = (t.uinfo x).uid ∧
      (t'.uinfo x).pid = (t.uinfo x).pid)
    (huindex : t'.uindex = t.uindex) (hhead : ∀ h, t'.guesthashHead h ≤ c.maxactive)
    (hnext : ∀ i, t'.guesthashNext i ≤ c.maxactive) : t'.Indexed c := by
  refine ⟨hhead, hnext, fun x hx => ?_, huindex ▸ h.entry_le, fun u hu => ?_⟩
  · rw [(hsame x).1] at hx
    rw [(hsame x).2.2]
    exact h.active x hx
  · rw [huindex]
    refine (h.rows u hu).mono fun x hx => ?_
    unfold SessionOf at hx ⊢
    rwa [(hsame x).1, (hsame x).2.1] at hx

/-- Only links and counters change. -/
theorem relink (h : t.Indexed c) (huinfo : t'.uinfo = t.uinfo) (huindex : t'.uindex = t.uindex)
    (hhead : ∀ h, t'.guesthashHead h ≤ c.maxactive)
    (hnext : ∀ i, t'.guesthashNext i ≤ c.maxactive) : t'.Indexed c :=
  h.congr (fun x => by rw [huinfo]; exact ⟨rfl, rfl, rfl⟩) huindex hhead hnext

end Utmp.Indexed

/-- Sessions are among the slots that are counted. -/
theorem AtMostSix.length_le {c : UtmpConf} {t : Utmp} (h : AtMostSix c t.uinfo)
    (hslot : ∀ x, (t.uinfo x).active ≠ 0 → c.Slot x) {u : Int} (hu : ¬ c.noIndex u)
    {l : List Nat} (hnodup : l.Nodup) (hl : ∀ x ∈ l, t.SessionOf u x) : l.length ≤ 6 := by
  have hrange := hu
  unfold UtmpConf.noIndex at hrange
  obtain ⟨n, rfl⟩ : ∃ n : Nat, u = n + 1 := ⟨(u - 1).toNat, by omega⟩
  refine le_trans ?_ (h n (by omega) hu)
  rw [← List.toFinset_card_of_nodup hnodup]
  refine Finset.card_le_card fun x hx => ?_
  obtain ⟨hact, huid⟩ := hl x (List.mem_toFinset.mp hx)
  refine Finset.mem_filter.mpr ⟨Finset.mem_Icc.mpr (hslot x hact), ?_⟩
  rw [Bool.and_eq_true, bne_iff_ne, beq_iff_eq]
  exact ⟨hact, huid⟩

/-! ## One row -/

theorem UtmpConf.row_ne {c : UtmpConf} {u v : Int} (hu : ¬ c.noIndex u) (hv : ¬ c.noIndex v)
    (hne : u ≠ v) : (u - 1).toNat ≠ (v - 1).toNat := by
  unfold UtmpConf.noIndex at hu hv
  omega

/-- What `add_uindex` takes for a free place. -/
def isUnused (t : Utmp) (uid : Int) (x : Nat) : Bool :=
  x == 0 || (t.uinfo x).active == 0 || (t.uinfo x).uid != uid

theorem addUindex_eq {c : UtmpConf} {t : Utmp} {uid : Int} (huid : ¬ c.noIndex uid) (x : Nat) :
    addUindex c t uid x = { t with
      uindex := update t.uindex (uid - 1).toNat
        (Places.enter 6 (isUnused t uid) (t.uindex (uid - 1).toNat) x) } := by
  unfold addUindex Places.enter Places.setFirst Utmp.setUindex isUnused
  dsimp only
  rw [if_neg huid]
  split
  · rw [update_eq_self]
  · generalize List.find? _ (List.range 6) = found
    cases found with
    | some i => rfl
    | none => exact congrArg (fun uindex => { t with uindex := uindex }) (update_eq_self _ _).symm

theorem removeUindex_eq {c : UtmpConf} {t : Utmp} {uid : Int} (huid : ¬ c.noIndex uid) (x : Nat) :
    removeUindex c t uid x = { t with
      uindex := update t.uindex (uid - 1).toNat
        (Places.erase 6 0 (t.uindex (uid - 1).toNat) x) } := by
  unfold removeUindex Places.erase Places.setFirst Utmp.setUindex
  rw [if_neg huid]
  generalize List.find? _ (List.range 6) = found
  cases found with
  | some i => rfl
  | none => exact congrArg (fun uindex => { t with uindex := uindex }) (update_eq_self _ _).symm

theorem update_le {m k v : Nat} {f : Nat → Nat} (h : ∀ i, f i ≤ m) (hv : v ≤ m) (i : Nat) :
    update f k v i ≤ m := by
  by_cases hi : i = k
  · rw [hi, update_self]
    exact hv
  · rw [update_of_ne hi]
    exact h i

theorem setFirst_le {m n x : Nat} {p : Nat → Bool} {row : Nat → Nat} (hrow : ∀ i, row i ≤ m)
    (hx : x ≤ m) (i : Nat) : Places.setFirst n p row x i ≤ m := by
  rcases Places.setFirst_cases n p row x with ⟨j, -, -, heq⟩ | ⟨-, heq⟩
  · rw [heq]
    by_cases hij : i = j
    · rw [hij, update_self]
      exact hx
    · rw [update_of_ne hij]
      exact hrow i
  · rw [heq]
    exact hrow i

theorem update_row_le {m k : Nat} {uindex : Nat → Nat → Nat} (h : ∀ u i, uindex u i ≤ m)
    {row : Nat → Nat} (hrow : ∀ i, row i ≤ m) (u i : Nat) : update uindex k row u i ≤ m := by
  by_cases hu : u = k
  · rw [hu, update_self]
    exact hrow i
  · rw [update_of_ne hu]
    exact h u i

namespace Utmp.Indexed

variable {c : UtmpConf} {t t' : Utmp} {x : Nat}

/-! ## Records come and go -/

/-- **A session ends**: its slot is struck out, and gets a record that is not active. -/
theorem leave (h : t.Indexed c) (x : Nat) {up : UserInfo} (hup : up.active = 0) :
    Utmp.Indexed c { t with
      uindex := (removeUindex c t (t.uinfo x).uid x).uindex
      uinfo := update t.uinfo x up } := by
  have hold : ∀ {u y}, ((update t.uinfo x up) y).active ≠ 0 ∧ ((update t.uinfo x up) y).uid = u →
      t.SessionOf u y ∧ y ≠ x := by
    intro u y hy
    by_cases hyx : y = x
    · rw [hyx, update_self] at hy
      exact absurd hup hy.1
    · rw [update_of_ne hyx] at hy
      exact ⟨hy, hyx⟩
  have hactive : ∀ y, ((update t.uinfo x up) y).active ≠ 0 →
      c.Slot y ∧ 1 ≤ ((update t.uinfo x up) y).pid := by
    intro y hy
    have hyx := (hold ⟨hy, rfl⟩).2
    rw [update_of_ne hyx] at hy ⊢
    exact h.active y hy
  by_cases huid : c.noIndex (t.uinfo x).uid
  · rw [removeUindex, if_pos huid]
    exact ⟨h.head_le, h.next_le, hactive, h.entry_le, fun u hu => (h.rows u hu).mono
      fun y hy => (hold hy).1⟩
  · rw [removeUindex_eq huid]
    refine ⟨h.head_le, h.next_le, hactive, ?_, fun u hu => ?_⟩
    · exact update_row_le h.entry_le fun i => setFirst_le (h.entry_le _) (Nat.zero_le _) i
    · by_cases hne : u = (t.uinfo x).uid
      · subst hne
        dsimp only
        rw [update_self]
        exact (h.rows _ hu).erase fun y hy => hold hy
      · dsimp only
        rw [update_of_ne (UtmpConf.row_ne hu huid hne)]
        exact (h.rows u hu).mono fun y hy => (hold hy).1

/-- **A session begins**, in a table where its record has been stored. -/
theorem join (h : t.Indexed c) (hx : c.Slot x) {up : UserInfo} (hact : up.active ≠ 0)
    (hpid : 1 ≤ up.pid) (huinfo : t'.uinfo = update t.uinfo x up) (huindex : t'.uindex = t.uindex)
    (hhead : ∀ h, t'.guesthashHead h ≤ c.maxactive) (hnext : ∀ i, t'.guesthashNext i ≤ c.maxactive)
    (hsix : AtMostSix c t'.uinfo) : (addUindex c t' up.uid x).Indexed c := by
  have hself : t'.uinfo x = up := by
    rw [huinfo, update_self]
  have hother : ∀ y, y ≠ x → t'.uinfo y = t.uinfo y := fun y hy => by
    rw [huinfo, update_of_ne hy]
  have hactive : ∀ y, (t'.uinfo y).active ≠ 0 → c.Slot y ∧ 1 ≤ (t'.uinfo y).pid := by
    intro y hy
    by_cases hyx : y = x
    · rw [hyx, hself]
      exact ⟨hx, hpid⟩
    · rw [hother y hyx] at hy ⊢
      exact h.active y hy
  have hlive : ∀ u y, t'.SessionOf u y → y = x ∨ t.SessionOf u y := by
    intro u y hy
    by_cases hyx : y = x
    · exact Or.inl hyx
    · unfold SessionOf at hy ⊢
      rw [hother y hyx] at hy
      exact Or.inr hy
  have hmono : ∀ u, u ≠ up.uid → ∀ y, t'.SessionOf u y → t.SessionOf u y := by
    intro u hu y hy
    refine (hlive u y hy).resolve_left fun hyx => ?_
    rw [hyx, SessionOf, hself] at hy
    exact hu hy.2.symm
  by_cases huid : c.noIndex up.uid
  · rw [addUindex, if_pos huid]
    refine ⟨hhead, hnext, hactive, huindex ▸ h.entry_le, fun u hu => ?_⟩
    rw [huindex]
    exact (h.rows u hu).mono (hmono u fun heq => hu (heq ▸ huid))
  · rw [addUindex_eq huid, huindex]
    refine ⟨hhead, hnext, hactive, ?_, fun u hu => ?_⟩
    · refine update_row_le h.entry_le fun i => ?_
      unfold Places.enter
      split
      · exact h.entry_le _ i
      · exact setFirst_le (h.entry_le _) hx.2 i
    · by_cases hne : u = up.uid
      · subst hne
        dsimp only
        rw [update_self]
        have hzero : ¬ t'.SessionOf up.uid 0 := by
          intro hzero
          have hslot := (hactive 0 hzero.1).1
          unfold UtmpConf.Slot at hslot
          omega
        refine (h.rows _ hu).enter (fun i _ => ?_) hzero (fun l hnodup hl => ?_) ⟨?_, ?_⟩
          (hlive up.uid)
        · rw [isUnused, SessionOf, Bool.or_eq_true, Bool.or_eq_true, beq_iff_eq, beq_iff_eq,
            bne_iff_ne]
          constructor
          · rintro ((h0 | h0) | h0) hsession
            · rw [h0] at hsession
              exact hzero hsession
            · exact hsession.1 h0
            · exact h0 hsession.2
          · intro hnot
            by_contra hused
            simp only [not_or, not_not] at hused
            exact hnot ⟨hused.1.2, hused.2⟩
        · exact hsix.length_le (fun y hy => (hactive y hy).1) hu hnodup hl
        · rwa [hself]
        · rw [hself]
      · dsimp only
        rw [update_of_ne (UtmpConf.row_ne hu huid hne)]
        exact (h.rows u hu).mono (hmono u hne)

/-! ## Links -/

theorem unlinkLoop_le {m fuel i : Nat} {next next' : Nat → Nat} (h : ∀ i, next i ≤ m)
    (hloop : unlinkLoop next x fuel i = some next') : ∀ i, next' i ≤ m := by
  induction fuel generalizing i with
  | zero => contradiction
  | succ fuel ih =>
    rw [unlinkLoop] at hloop
    split_ifs at hloop
    · cases hloop
      exact h
    · cases hloop
      exact update_le h (h x)
    · exact ih hloop

/-- The free slots may get one more. -/
theorem pushFree (h : t.Indexed c) (hx : c.Slot x) : (t.pushFree x).Indexed c :=
  h.relink rfl rfl (update_le h.head_le hx.2) (update_le h.next_le (h.head_le 0))

theorem leaveChain (h : t.Indexed c) (hleave : leaveChain c t x = some t') : t'.Indexed c ∧
    t'.uinfo = t.uinfo := by
  unfold Ytht.leaveChain at hleave
  split at hleave
  · obtain ⟨s, hs, rfl⟩ := Option.map_eq_some_iff.mp hleave
    unfold unlinkGuest at hs
    dsimp only at hs
    split at hs
    · cases hs
      exact ⟨h.relink rfl rfl (update_le h.head_le (h.next_le _)) h.next_le, rfl⟩
    · obtain ⟨next, hnext, rfl⟩ := Option.map_eq_some_iff.mp hs
      exact ⟨h.relink rfl rfl h.head_le (unlinkLoop_le h.next_le hnext), rfl⟩
  · cases hleave
    exact ⟨h, rfl⟩

/-! ## The three functions -/

theorem freeSlot (h : t.Indexed c) (hx : c.Slot x) : (freeSlot c t x).Indexed c := by
  have hfree : Utmp.Indexed c { t.pushFree x with activeuser := ushortDec t.activeuser } :=
    (h.pushFree hx).relink rfl rfl (h.pushFree hx).head_le (h.pushFree hx).next_le
  have hkicked : (t.uinfo x).kicked.active = 0 := rfl
  have hleft := hfree.leave x hkicked
  obtain ⟨uindex, hindex⟩ := removeUindex_frame c
    { t.pushFree x with activeuser := ushortDec t.activeuser } (t.uinfo x).uid x
  unfold Ytht.freeSlot
  simp only [Utmp.pushFree] at hindex hleft ⊢
  rw [hindex] at hleft ⊢
  exact hleft

theorem kickSlot (h : t.Indexed c) (hx : c.Slot x) (hkick : kickSlot c t x = some t') :
    t'.Indexed c := by
  obtain ⟨s, hleave, rfl⟩ := Option.map_eq_some_iff.mp hkick
  exact (h.leaveChain hleave).1.freeSlot hx

theorem utmpKickidle (h : t.Indexed c) {now : Int} {alive : Nat → Bool}
    (hkick : utmpKickidle c t now alive = some t') : t'.Indexed c := by
  unfold Ytht.utmpKickidle at hkick
  split at hkick
  · cases hkick
    exact h
  · have hloop : ∀ (l : List Nat) (t : Utmp), t.Indexed c →
        l.foldlM (fun t x => if idles (t.uinfo x) now (alive x) then Ytht.kickSlot c t x
          else some t) t = some t' → t'.Indexed c := by
      intro l
      induction l with
      | nil =>
          intro t h hfold
          cases hfold
          exact h
      | cons x l ih =>
          intro t h hfold
          rw [List.foldlM_cons] at hfold
          by_cases hidle : idles (t.uinfo x) now (alive x) = true
          · rw [if_pos hidle] at hfold
            obtain ⟨s, hs, hrest⟩ := Option.bind_eq_some_iff.mp hfold
            have hact : (t.uinfo x).active ≠ 0 := by
              simp only [idles, Bool.and_eq_true, bne_iff_ne] at hidle
              exact hidle.1.1.1.2
            exact ih s (h.kickSlot (h.active x hact).1 hs) hrest
          · rw [if_neg hidle] at hfold
            exact ih t h hfold
    refine hloop _ _ ?_ hkick
    exact h.relink rfl rfl h.head_le h.next_le

/-- Slot `x` is taken by a login. -/
theorem occupySlot (h : t.Indexed c) (hx : c.Slot x) {up : UserInfo} (hact : up.active ≠ 0)
    (hpid : 1 ≤ up.pid) (hsix : AtMostSix c (update t.uinfo x up)) :
    (occupySlot c t x up).Indexed c := by
  obtain ⟨_, _, _, hframe⟩ := occupySlot_frame c t x up
  rw [hframe]
  exact h.join hx hact hpid rfl rfl (update_le h.head_le (h.next_le x))
    (update_le h.next_le (Nat.zero_le _)) hsix

theorem enterChain (h : t.Indexed c) (hx : c.Slot x) (up : UserInfo) :
    (enterChain c t x up).Indexed c := by
  unfold Ytht.enterChain
  split
  · exact h.relink rfl rfl (update_le h.head_le hx.2) (update_le h.next_le (h.head_le _))
  · exact h

theorem utmpLogout (h : t.Indexed c) {utmpent : Int} {up : UserInfo} (hup : up.active = 0) :
    (utmpLogout c t utmpent up).Indexed c := by
  unfold Ytht.utmpLogout
  dsimp only
  split
  · exact h
  · split
    · exact h
    · next hact =>
      have hx := (h.active _ hact).1
      have hleft := h.leave utmpent.toNat hup
      obtain ⟨uindex, hindex⟩ := removeUindex_frame c t (t.uinfo utmpent.toNat).uid utmpent.toNat
      rw [hindex] at hleft ⊢
      have hfree := hleft.pushFree hx
      exact hfree.relink rfl rfl hfree.head_le hfree.next_le

end Utmp.Indexed

/-! ## Histories -/

/-- The login is refused. -/
def Utmp.Refuses (c : UtmpConf) (t : Utmp) : Prop :=
  let x := t.guesthashHead 0
  (x = 0 ∨ c.maxactiverun < x) ∨ (t.uinfo x).active ≠ 0 ∧ (t.uinfo x).pid ≠ 0

instance (c : UtmpConf) (t : Utmp) : Decidable (t.Refuses c) :=
  inferInstanceAs (Decidable (_ ∨ _))

/-- The records are those of a login and of a logout, and no user gets a seventh session. -/
def UtmpEvent.SixOk (c : UtmpConf) (t : Utmp) : UtmpEvent → Prop
  | .login up _ _ => up.active ≠ 0 ∧ 1 ≤ up.pid ∧
      (t.Refuses c ∨ AtMostSix c (update t.uinfo (t.guesthashHead 0) up))
  | .logout _ up => up.active = 0
  | .kickidle _ _ => True
  | .touch _ _ _ _ => True

instance (c : UtmpConf) (t : Utmp) : ∀ e : UtmpEvent, Decidable (e.SixOk c t)
  | .login _ _ _ => inferInstanceAs (Decidable (_ ∧ _ ∧ _))
  | .logout _ _ => inferInstanceAs (Decidable (_ = _))
  | .kickidle _ _ => inferInstanceAs (Decidable True)
  | .touch _ _ _ _ => inferInstanceAs (Decidable True)

/-- **One event keeps the index right.** -/
theorem Utmp.Indexed.step {c : UtmpConf} {t t' : Utmp} (h : t.Indexed c) {e : UtmpEvent}
    (hok : e.SixOk c t) (hstep : utmpStep c t e = some t') : t'.Indexed c := by
  cases e with
  | login up now alive =>
      obtain ⟨⟨r, s⟩, hlogin, rfl⟩ := Option.map_eq_some_iff.mp hstep
      obtain ⟨hact, hpid, hsix⟩ := hok
      unfold utmpLogin at hlogin
      dsimp only at hlogin
      split at hlogin
      · cases hlogin
        exact h
      · next hhead =>
        split at hlogin
        · cases hlogin
          exact h
        · next htaken =>
          obtain ⟨s', hkick, heq⟩ := Option.map_eq_some_iff.mp hlogin
          cases heq
          have hx : c.Slot (t.guesthashHead 0) := ⟨by omega, h.head_le 0⟩
          have hroom := hsix.resolve_left fun hrefuses => hrefuses.elim hhead htaken
          exact ((h.occupySlot hx hact hpid hroom).enterChain hx up).utmpKickidle hkick
  | logout utmpent up =>
      cases hstep
      exact h.utmpLogout hok
  | kickidle now alive => exact h.utmpKickidle hstep
  | touch x lasttime extIdle iskicked =>
      cases hstep
      refine h.congr (fun y => ?_) rfl h.head_le h.next_le
      by_cases hy : y = x
      · subst hy
        dsimp only
        rw [update_self]
        exact ⟨rfl, rfl, rfl⟩
      · dsimp only
        rw [update_of_ne hy]
        exact ⟨rfl, rfl, rfl⟩

theorem initutmp_indexed (c : UtmpConf) : (initutmp c).Indexed c := by
  have hpos := c.pos
  refine ⟨update_le (fun _ => Nat.zero_le _) hpos, fun i => ?_, fun x hx => absurd rfl hx,
    fun _ _ => Nat.zero_le _, fun u hu => ⟨fun x hx => absurd rfl hx.1, fun i _ j _ _ h => ?_⟩⟩
  · dsimp only [initutmp]
    split <;> omega
  · exact absurd rfl h

/-! ## Queries -/

variable {c : UtmpConf} {t : Utmp}

/-- `queryUIndex` finds a session of the user, with that process, if there is one. -/
theorem Utmp.Indexed.query (h : t.Indexed c) {u : Int} (hu : ¬ c.noIndex u) (pid : Int) :
    (∀ x, queryUIndex c t u none pid = some x →
      t.SessionOf u x ∧ (pid ≠ 0 → (t.uinfo x).pid = pid)) ∧
    ((∃ x, queryUIndex c t u none pid = some x) ↔
      ∃ x, t.SessionOf u x ∧ (pid ≠ 0 → (t.uinfo x).pid = pid)) := by
  have hrange : ¬ (u ≤ 0 ∨ c.maxusers < u) := by
    unfold UtmpConf.noIndex at hu
    omega
  rw [queryUIndex, if_neg hrange, queryLoop_none]
  have hfound : ∀ x, ((List.range 6).map (t.uindex (u - 1).toNat)).find? (fun x =>
      x ≠ 0 ∧ (t.uinfo x).active ≠ 0 ∧ (t.uinfo x).pid ≠ 0 ∧ (t.uinfo x).uid = u ∧
        (pid ≠ 0 → (t.uinfo x).pid = pid)) = some x →
      t.SessionOf u x ∧ (pid ≠ 0 → (t.uinfo x).pid = pid) := by
    intro x hx
    have hp := List.find?_some hx
    rw [decide_eq_true_iff] at hp
    exact ⟨⟨hp.2.1, hp.2.2.2.1⟩, hp.2.2.2.2⟩
  refine ⟨hfound, fun ⟨x, hx⟩ => ⟨x, hfound x hx⟩, fun ⟨x, hsession, hpid⟩ => ?_⟩
  obtain ⟨i, hi, hrow⟩ := (h.rows u hu).noted x hsession
  rw [← Option.isSome_iff_exists, List.find?_isSome]
  refine ⟨x, List.mem_map.mpr ⟨i, List.mem_range.mpr hi, hrow⟩, decide_eq_true ?_⟩
  have hactive := h.active x hsession.1
  have hx0 : x ≠ 0 := fun h0 => h.not_sessionOf_zero u (h0 ▸ hsession)
  exact ⟨hx0, hsession.1, by omega, hsession.2, hpid⟩

/-- **The index of sessions** is right after all logins, logouts and sweeps in which no user gets
a seventh session: each session of a user has one place there, what else the places hold is 0 or
a slot without a session of the user, and a query finds a session if there is one. -/
theorem sessions_indexed {c : UtmpConf} {es : List UtmpEvent} {t : Utmp}
    (hrun : Run (when (UtmpEvent.SixOk c) (utmpStep c)) (initutmp c) es t) {u : Int}
    (hu : ¬ c.noIndex u) :
    (∀ x, t.SessionOf u x → ∃! i, i < 6 ∧ t.uindex (u - 1).toNat i = x) ∧
    (∀ i < 6, ¬ t.SessionOf u (t.uindex (u - 1).toNat i) →
      t.uindex (u - 1).toNat i = 0 ∨ c.Slot (t.uindex (u - 1).toNat i) ∧
        ((t.uinfo (t.uindex (u - 1).toNat i)).active = 0 ∨
          (t.uinfo (t.uindex (u - 1).toNat i)).uid ≠ u)) ∧
    ∀ pid, (∀ x, queryUIndex c t u none pid = some x →
        t.SessionOf u x ∧ (pid ≠ 0 → (t.uinfo x).pid = pid)) ∧
      ((∃ x, queryUIndex c t u none pid = some x) ↔
        ∃ x, t.SessionOf u x ∧ (pid ≠ 0 → (t.uinfo x).pid = pid)) := by
  have h : t.Indexed c := hrun.invariant_when (Utmp.Indexed c) (initutmp_indexed c)
    fun _ _ _ hinv hok hstep => hinv.step hok hstep
  refine ⟨fun x hx => ?_, fun i _ hnot => ?_, h.query hu⟩
  · exact (h.rows u hu).existsUnique hx fun h0 => h.not_sessionOf_zero u (h0 ▸ hx)
  · have hle := h.entry_le (u - 1).toNat i
    unfold Utmp.SessionOf at hnot
    unfold UtmpConf.Slot
    by_cases h0 : t.uindex (u - 1).toNat i = 0
    · exact Or.inl h0
    · refine Or.inr ⟨by omega, ?_⟩
      by_cases hact : (t.uinfo (t.uindex (u - 1).toNat i)).active = 0
      · exact Or.inl hact
      · exact Or.inr fun huid => hnot ⟨hact, huid⟩

/-- Three slots. -/
def threeSlots : UtmpConf where
  maxactive := 3
  maxactiverun := 3
  maxusers := 5
  guestUid := 3
  inetAton := fun _ => 7
  pos := by decide
  fits := by decide

/-- User 1 comes twice and leaves once, and user 2 gets the slot. -/
theorem sessions_indexed_reused :
    ∃ t, Run (when (UtmpEvent.SixOk threeSlots) (utmpStep threeSlots)) (initutmp threeSlots)
        [.login { wwwGuest with uid := 1, pid := 70 } 100 fun _ => true,
          .login { wwwGuest with uid := 1, pid := 80 } 101 fun _ => true,
          .logout 1 emptyUserInfo,
          .login { wwwGuest with uid := 2, pid := 90 } 102 fun _ => true] t ∧
      ∃ x, queryUIndex threeSlots t 1 none 80 = some x := by
  have hrun := @Run.of_exec _ _ (when (UtmpEvent.SixOk threeSlots) (utmpStep threeSlots))
    (initutmp threeSlots) _
    [.login { wwwGuest with uid := 1, pid := 70 } 100 fun _ => true,
      .login { wwwGuest with uid := 1, pid := 80 } 101 fun _ => true,
      .logout 1 emptyUserInfo,
      .login { wwwGuest with uid := 2, pid := 90 } 102 fun _ => true] rfl
  refine ⟨_, hrun, ((sessions_indexed hrun (u := 1) (by decide)).2.2 80).2.mpr ⟨2, ?_, ?_⟩⟩
  · decide
  · decide

end Ytht
