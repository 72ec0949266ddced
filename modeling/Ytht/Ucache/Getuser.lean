import Ytht.Ucache.Passwd

/-!
# Ucache.Getuser

`getuser` looks a user up in the hash of user ids, and does not find one that has been kicked out
or whose name has a dot.  `getuser_eq` says that it finds the account of that name, and
`kickoutuserec_accounts` that kicking out a user leaves all other accounts as they are.
-/

namespace Ytht

open Bytes Function

/-- `getuser`; 0 is `some none`, and `none` a chain that does not end. -/
def getuser (c : HashConf) (s : Ucache) (userid : List UInt8) : Option (Option Nat) :=
  if userid = [] ∨ 46 ∈ userid then some none
  else
    (finduseridhash c s userid).map fun i : Int =>
      if 0 < i ∧ i ≤ c.maxusers ∧ strcasecmp (s.userid i.toNat) userid ∧
          (s.passwd (i.toNat - 1)).kickout = 0 then some i.toNat
      else none

/-! ## Accounts -/

/-- The slot holds a user that is not kicked out, with a name that can be looked up. -/
def Ucache.Account (c : HashConf) (s : Ucache) (x : Nat) : Prop :=
  c.Slot x ∧ s.userid x ≠ [] ∧ 46 ∉ s.userid x ∧ (s.passwd (x - 1)).kickout = 0

instance (c : HashConf) (s : Ucache) (x : Nat) : Decidable (s.Account c x) :=
  inferInstanceAs (Decidable (_ ∧ _))

/-- The account of a user, whose name may be given in other letters. -/
def Ucache.account (c : HashConf) (s : Ucache) (userid : List UInt8) : Option Nat :=
  ((List.range c.maxusers).map (· + 1)).find? fun x =>
    s.Account c x ∧ strcasecmp userid (s.userid x) = true

theorem mem_slots {c : HashConf} {x : Nat} : x ∈ (List.range c.maxusers).map (· + 1) ↔ c.Slot x := by
  simp only [List.mem_map, List.mem_range, HashConf.Slot]
  constructor
  · rintro ⟨y, hy, rfl⟩
    omega
  · exact fun h => ⟨x - 1, by omega, by omega⟩

/-- Letters do not matter for a dot. -/
theorem dot_mem_of_strcasecmp {u v : List UInt8} (h : strcasecmp u v = true) (hu : 46 ∈ u) :
    46 ∈ v := by
  have hmem : 46 ∈ v.map toLower := by
    rw [← strcasecmp_iff.mp h]
    exact List.mem_map_of_mem hu
  obtain ⟨c, hc, hdot⟩ := List.mem_map.mp hmem
  have : c = 46 := by
    unfold toLower isUpper at hdot
    grind
  rwa [this] at hc

/-- An account is the only one of its name. -/
theorem Ucache.account_eq {c : HashConf} {s : Ucache} (hd : s.Distinct c) {userid : List UInt8}
    {x : Nat} (hx : s.Account c x) (hid : strcasecmp userid (s.userid x) = true) :
    s.account c userid = some x := by
  unfold account
  cases hfind : ((List.range c.maxusers).map (· + 1)).find?
      fun x => s.Account c x ∧ strcasecmp userid (s.userid x) = true with
  | none =>
      have hno := List.find?_eq_none.mp hfind x (mem_slots.mpr hx.1)
      exact absurd (decide_eq_true (And.intro hx hid)) hno
  | some y =>
      have hy := List.find?_some hfind
      obtain ⟨hacc, hyid⟩ := of_decide_eq_true hy
      rw [hd y x hacc.1 hx.1 hacc.2.1 (strcasecmp_trans (strcasecmp_symm hyid) hid)]

theorem Ucache.account_some {c : HashConf} {s : Ucache} {userid : List UInt8} {x : Nat}
    (h : s.account c userid = some x) :
    s.Account c x ∧ strcasecmp userid (s.userid x) = true := by
  unfold account at h
  have hfound := List.find?_some h
  exact of_decide_eq_true hfound

theorem Ucache.account_none {c : HashConf} {s : Ucache} {userid : List UInt8} :
    s.account c userid = none ↔
      ∀ x, s.Account c x → ¬ strcasecmp userid (s.userid x) = true := by
  rw [account, List.find?_eq_none]
  constructor
  · exact fun h x hx hid => h x (mem_slots.mpr hx.1) (decide_eq_true ⟨hx, hid⟩)
  · intro h x hx hdec
    obtain ⟨hacc, hid⟩ := of_decide_eq_true hdec
    exact h x hacc hid

/-- **`getuser` finds the account.** -/
theorem getuser_eq {c : HashConf} {s : Ucache} {own : Nat → List Nat} (h : s.Inv c c.Slot own)
    (hd : s.Distinct c) (userid : List UInt8) :
    getuser c s userid = some (s.account c userid) := by
  unfold getuser
  split
  · next hbad =>
    have hnone : s.account c userid = none := by
      refine Ucache.account_none.mpr fun x hx hid => ?_
      rcases hbad with rfl | hdot
      · exact hx.2.1 (strcasecmp_nil_right.mp (strcasecmp_symm hid))
      · exact hx.2.2.1 (dot_mem_of_strcasecmp hid hdot)
    rw [hnone]
  · next hgood =>
    rw [not_or] at hgood
    rcases h.find_cases userid with ⟨hfind, hno⟩ | ⟨y, hfind, hy, hid⟩
    · have hnone : s.account c userid = none :=
        Ucache.account_none.mpr fun x hx => hno x hx.1
      rw [hfind, hnone]
      rfl
    · have hne : s.userid y ≠ [] := by
        intro hnil
        rw [hnil] at hid
        exact hgood.1 (strcasecmp_nil_right.mp hid)
      have hlo : 1 ≤ y := hy.1
      have hhi : y ≤ c.maxusers := hy.2
      rw [hfind, Option.map_some, Int.toNat_natCast]
      congr 1
      split
      · next hin =>
        have hdot : 46 ∉ s.userid y := fun hdot =>
          hgood.2 (dot_mem_of_strcasecmp (strcasecmp_symm hid) hdot)
        exact (Ucache.account_eq hd ⟨hy, hne, hdot, hin.2.2.2⟩ hid).symm
      · next hout =>
        symm
        refine Ucache.account_none.mpr fun x hx hxid => hout ?_
        have hxy : y = x := hd y x hy hx.1 hne (strcasecmp_trans (strcasecmp_symm hid) hxid)
        exact ⟨by omega, by omega, strcasecmp_symm hid, by rw [hxy]; exact hx.2.2.2⟩

/-! ## Kicking out -/

/-- `kickoutuserec` keeps the table, the names and the other accounts. -/
theorem kickoutuserec_accounts {c : HashConf} {s : Ucache} {own : Nat → List Nat}
    (h : s.Inv c c.Slot own) (hd : s.Distinct c) (userid : List UInt8) (now : Int) (io : PasswdIo) :
    ∃ r s' own', kickoutuserec c s userid now io = some (r, s') ∧ s'.Inv c c.Slot own' ∧
      s'.Distinct c ∧ ∀ z, c.Slot z → s'.userid z = s.userid z ∧
        (¬ strcasecmp userid (s.userid z) = true →
          (s'.passwd (z - 1)).kickout = (s.passwd (z - 1)).kickout) := by
  obtain ⟨r, s', own', heq, hinv, hdist⟩ := kickoutuserec_spec h hd userid now io
  refine ⟨r, s', own', heq, hinv, hdist, ?_⟩
  have hsame : ∀ z, c.Slot z → s.userid z = s.userid z ∧
      (¬ strcasecmp userid (s.userid z) = true →
        (s.passwd (z - 1)).kickout = (s.passwd (z - 1)).kickout) := fun z _ => ⟨rfl, fun _ => rfl⟩
  unfold kickoutuserec at heq
  rcases h.find_cases userid with ⟨hfind, -⟩ | ⟨y, hfind, hy, hid⟩
  · rw [hfind] at heq
    simp only [Option.bind_eq_bind, Option.bind_some] at heq
    rw [if_pos (Or.inl (by omega))] at heq
    cases heq
    exact hsame
  · have hlo : 1 ≤ y := hy.1
    have hhi : y ≤ c.maxusers := hy.2
    rw [hfind] at heq
    simp only [Option.bind_eq_bind, Option.bind_some, Int.toNat_natCast] at heq
    rw [if_neg (by omega)] at heq
    split at heq
    · cases heq
      exact hsame
    · split at heq
      · cases heq
        exact hsame
      · split at heq
        · cases heq
          exact hsame
        · cases heq
          intro z hz
          rw [userid_update hy z hz]
          by_cases hzy : z = y
          · subst hzy
            exact ⟨if_pos rfl, fun hother => absurd hid hother⟩
          · have hslot : z - 1 ≠ y - 1 := by
              have := hz.1
              omega
            refine ⟨if_neg hzy, fun _ => ?_⟩
            simp only [update_of_ne hslot]

/-- A user of another name has the same account as before. -/
theorem Ucache.account_kickout {c : HashConf} {s s' : Ucache} {userid : List UInt8}
    (h : ∀ z, c.Slot z → s'.userid z = s.userid z ∧
      (¬ strcasecmp userid (s.userid z) = true →
        (s'.passwd (z - 1)).kickout = (s.passwd (z - 1)).kickout))
    {other : List UInt8} (hother : ¬ strcasecmp userid other = true) :
    s'.account c other = s.account c other := by
  have hsame : ∀ z, (s'.Account c z ∧ strcasecmp other (s'.userid z) = true) ↔
      s.Account c z ∧ strcasecmp other (s.userid z) = true := by
    intro z
    by_cases hz : c.Slot z
    · obtain ⟨hname, hkick⟩ := h z hz
      rw [Account, Account, hname]
      refine and_congr_left fun hid => ?_
      rw [hkick fun hmine => hother (strcasecmp_trans hmine (strcasecmp_symm hid))]
    · exact ⟨fun hacc => absurd hacc.1.1 hz, fun hacc => absurd hacc.1.1 hz⟩
  unfold account
  congr 1
  funext z
  exact decide_eq_decide.mpr (hsame z)

/-! ## A table with one user -/

def onlyUser (u : CStr (idlen + 1)) (i : Nat) : Userec := if i = 0 then ⟨u, 0⟩ else emptyUserec

theorem onlyUser_distinct (u : CStr (idlen + 1)) (i j : Nat)
    (hne : (onlyUser u i).userid.bytes ≠ [])
    (h : strcasecmp (onlyUser u i).userid.bytes (onlyUser u j).userid.bytes = true) : i = j := by
  have hzero : ∀ k, (onlyUser u k).userid.bytes ≠ [] → k = 0 := by
    intro k hk
    by_contra hk0
    exact hk (by rw [onlyUser, if_neg hk0]; rfl)
  have hj : (onlyUser u j).userid.bytes ≠ [] :=
    fun hnil => hne (strcasecmp_nil_right.mp (hnil ▸ h))
  rw [hzero i hne, hzero j hj]

/-- After the start the first slot is the account of this user, and the only one. -/
theorem exists_onlyUser {u : CStr (idlen + 1)} (hne : u.bytes ≠ []) (hdot : 46 ∉ u.bytes) :
    ∃ s, PasswdReachable twoUsers s ∧ s.userid 1 = u.bytes ∧ s.Account twoUsers 1 ∧
      ∀ x, s.Account twoUsers x → x = 1 := by
  obtain ⟨s, own, hload, hpasswd, -⟩ := loadUcache_spec (c := twoUsers)
    fun i j _ _ => onlyUser_distinct u i j
  have hname : s.userid 1 = u.bytes := by
    rw [Ucache.userid, hpasswd]
    rfl
  have hreach : PasswdReachable twoUsers s :=
    ⟨onlyUser u, fun i j _ _ => onlyUser_distinct u i j, s, hload, Relation.ReflTransGen.refl⟩
  refine ⟨s, hreach, hname, ⟨by decide, ?_, ?_, ?_⟩, fun x hx => ?_⟩
  · rwa [hname]
  · rwa [hname]
  · rw [hpasswd]
    rfl
  · by_contra hx1
    have hfree : s.userid x = [] := by
      have hslot := hx.1.1
      rw [Ucache.userid, hpasswd, onlyUser, if_neg (by omega)]
      rfl
    exact hx.2.1 hfree

theorem zero_notMem_shortName : (0 : UInt8) ∉ [65, 98] := by decide

theorem length_shortName : [(65 : UInt8), 98].length ≤ idlen + 1 := by decide

/-- `Ab` -/
def shortName : CStr (idlen + 1) := ⟨[65, 98], zero_notMem_shortName, length_shortName⟩

end Ytht
