import Mathlib.Logic.Function.Basic
import Ytht.Lib.Bytes
import Ytht.Nju09.Session

/-!
# Nju09.Userinit

`user_init` decides whose session a request belongs to, from the token in the cookie, the
table of online users and the users' records.

`getuserbynum` returns 0 for a user who has been kicked out.  The branch for the short tokens
of telnet tests the result with `<=`, the one for the web with `<`, and then goes on with
whatever is in `x2`: `userInit_sound_iff`.
-/

namespace Ytht

open Bytes Function

/-! ## The tables -/

/-- `struct user_info`, as far as `user_init` looks into it.  A string is what is read from
where its field begins. -/
structure OnlineUser where
  active : Int
  lasttime : Int
  sessionid : List UInt8
  userid : List UInt8
  fromIP : UInt32
  ipmask : Fin 16
  iskicked : Int

/-- `struct userec`, as far as `user_init` looks into it. -/
structure UserRecord where
  userid : List UInt8
  kickout : Int
  deriving DecidableEq

/-- What `user_init` finds: the tables, the address of the client, the time, and the guest's
record, if `getuser` has ever found it. -/
structure WebEnv where
  maxactive : Nat
  maxusers : Nat
  uinfo : Nat → OnlineUser
  passwdptr : Nat → UserRecord
  fromAddr : UInt32
  now : Int
  guestrec : Option UserRecord

/-- `"new"` and `"guest"` -/
def newName : List UInt8 := [110, 101, 119]
def guestName : List UInt8 := [103, 117, 101, 115, 116]

/-- `getuserbynum`, with what it leaves in `*urec`. -/
def getuserbynum (e : WebEnv) (uid : Int) (urec : Option UserRecord) : Int × Option UserRecord :=
  if 0 < uid ∧ uid ≤ e.maxusers ∧ (e.passwdptr (uid.toNat - 1)).kickout = 0 then
    (uid, some (e.passwdptr (uid.toNat - 1)))
  else (0, urec)

/-! ## user_init -/

/-- What `user_init` returns, and what it sets: `y` is an index into `uinfo`. -/
structure UserInit where
  ret : Bool
  x : Option UserRecord
  y : Option Nat
  utmpent : Nat
  isguest : Bool
  tempuser : Bool
  uinfo : Nat → OnlineUser

/-- `OUT_INIT`, when nobody has been found. -/
def outInit (e : WebEnv) (y : Option Nat) (isguest : Bool) : UserInit :=
  ⟨false, e.guestrec, y, 0, isguest, false, e.uinfo⟩

/-- The tests of the branch for short tokens, each of which goes to `OUT_INIT`. -/
def telnetChecks (e : WebEnv) (y : OnlineUser) (sessionid : List UInt8) : Bool :=
  y.fromIP == e.fromAddr && y.sessionid.take 2 == sessionid.take 2 && y.active != 0 &&
    !strcasecmp y.userid newName

/-- The branch for a short token. -/
def telnetInit (e : WebEnv) (x2 : Option UserRecord) (tok : Token) : UserInit :=
  let i := tok.slot.toNat
  let y := e.uinfo i
  if !telnetChecks e y tok.sessionid then outInit e (some i) false
  else
    let isguest := y.userid == guestName
    let (r, x2) := if isguest then (1, e.guestrec) else getuserbynum e tok.uid x2
    if r ≤ 0 then outInit e (some i) isguest
    else
      match x2 with
      | none => outInit e (some i) isguest
      | some rec =>
          if rec.userid ≠ y.userid then outInit e (some i) isguest
          else ⟨false, some rec, some i, i + 1, isguest, true, e.uinfo⟩

/-- The address under `ipmask`. -/
def addrOk (e : WebEnv) (y : OnlineUser) : Bool :=
  if y.ipmask ≠ 0 then
    y.fromIP <<< y.ipmask.val.toUInt32 == e.fromAddr <<< y.ipmask.val.toUInt32
  else y.fromIP == e.fromAddr

/-- The tests of the branch for web tokens. -/
def webChecks (e : WebEnv) (y : OnlineUser) (sessionid : List UInt8) : Bool :=
  addrOk e y && y.sessionid == sessionid && y.active != 0 && y.userid != [] &&
    !strcasecmp y.userid newName && !(18 * 60 < toInt (e.now - y.lasttime) || y.iskicked != 0)

/-- The branch for a web token. -/
def webInit (e : WebEnv) (x2 : Option UserRecord) (tok : Token) : UserInit :=
  let i := tok.slot.toNat
  let y := e.uinfo i
  if !webChecks e y tok.sessionid then outInit e (some i) false
  else
    let e := { e with uinfo := update e.uinfo i { y with lasttime := e.now } }
    let isguest := strcasecmp y.userid guestName
    let (r, x2) := if isguest then (1, e.guestrec) else getuserbynum e tok.uid x2
    if r < 0 then outInit e (some i) isguest
    else
      match x2 with
      | none => outInit e (some i) isguest
      | some rec =>
          if rec.userid ≠ y.userid then outInit e (some i) isguest
          else ⟨true, some rec, some i, i + 1, isguest, false, e.uinfo⟩

/-- `user_init`; `x2` is what is on the stack where its variable of that name lies. -/
def userInit (e : WebEnv) (x2 : Option UserRecord) (ub : List UInt8) : UserInit :=
  match userInitToken ub with
  | none => outInit e none false
  | some tok =>
      if tok.slot < 0 ∨ (e.maxactive : Int) ≤ tok.slot then outInit e none false
      else if tok.uid ≤ 0 ∨ (e.maxusers : Int) < tok.uid then outInit e none false
      else if ub.length < 33 then telnetInit e x2 tok
      else webInit e x2 tok

/-! ## What it promises -/

/-- The address of the client is the one of the slot under its mask. -/
def AddrMatches (e : WebEnv) (y : OnlineUser) : Prop :=
  y.fromIP <<< y.ipmask.val.toUInt32 = e.fromAddr <<< y.ipmask.val.toUInt32

/-- What a session that is let in has shown, and whom it is let in as. -/
structure LetIn (e : WebEnv) (tok : Token) (x : Option UserRecord) : Prop where
  slot : 0 ≤ tok.slot ∧ tok.slot < e.maxactive
  active : (e.uinfo tok.slot.toNat).active ≠ 0
  sessionid : (e.uinfo tok.slot.toNat).sessionid = tok.sessionid
  addr : AddrMatches e (e.uinfo tok.slot.toNat)
  user : ∃ n < e.maxusers, x = some (e.passwdptr n) ∧ (e.passwdptr n).kickout = 0 ∧
    (e.passwdptr n).userid ≠ [] ∧ (e.passwdptr n).userid = (e.uinfo tok.slot.toNat).userid

/-- A token of a user who has been kicked out, and not of a guest. -/
def KickedOut (e : WebEnv) (tok : Token) : Prop :=
  (0 < tok.uid ∧ tok.uid ≤ e.maxusers) ∧ (e.passwdptr (tok.uid.toNat - 1)).kickout ≠ 0 ∧
    strcasecmp (e.uinfo tok.slot.toNat).userid guestName = false

/-- Sessions are let in only as their users, and nobody who has been kicked out is. -/
def Sound (e : WebEnv) (ub : List UInt8) (r : UserInit) : Prop :=
  (r.ret = true → r.isguest = false → ∃ tok, userInitToken ub = some tok ∧ LetIn e tok r.x) ∧
    ∀ tok, userInitToken ub = some tok → KickedOut e tok → r.ret = false ∧ r.tempuser = false

/-- A web token that passes the tests, of a user who has been kicked out, when a record with
the id of the slot is left on the stack. -/
def StaleRecord (e : WebEnv) (x2 : Option UserRecord) (ub : List UInt8) : Prop :=
  33 ≤ ub.length ∧ ∃ tok, userInitToken ub = some tok ∧
    (0 ≤ tok.slot ∧ tok.slot < e.maxactive) ∧ KickedOut e tok ∧
    webChecks e (e.uinfo tok.slot.toNat) tok.sessionid = true ∧
    ∃ rec, x2 = some rec ∧ rec.userid = (e.uinfo tok.slot.toNat).userid

/-! ## The two branches -/

theorem addrOk_iff (e : WebEnv) (y : OnlineUser) : addrOk e y = true ↔ AddrMatches e y := by
  unfold addrOk AddrMatches
  split
  · exact beq_iff_eq
  · next hzero =>
    have hmask : y.ipmask.val.toUInt32 = 0 := by
      rw [not_not.mp hzero]
      rfl
    rw [hmask, UInt32.shiftLeft_zero, UInt32.shiftLeft_zero]
    exact beq_iff_eq

/-- Whoever has not been kicked out is found. -/
theorem getuserbynum_found {e : WebEnv} {uid : Int} (huid : 0 < uid ∧ uid ≤ e.maxusers)
    (hkick : (e.passwdptr (uid.toNat - 1)).kickout = 0) (urec : Option UserRecord) :
    getuserbynum e uid urec = (uid, some (e.passwdptr (uid.toNat - 1))) :=
  if_pos ⟨huid.1, huid.2, hkick⟩

theorem getuserbynum_kickedOut {e : WebEnv} {tok : Token} (h : KickedOut e tok)
    (urec : Option UserRecord) : getuserbynum e tok.uid urec = (0, urec) :=
  if_neg fun hfound => h.2.1 hfound.2.2

/-- On telnet nobody who has been kicked out is let in. -/
theorem telnetInit_kickedOut {e : WebEnv} {tok : Token} (h : KickedOut e tok)
    (x2 : Option UserRecord) :
    (telnetInit e x2 tok).ret = false ∧ (telnetInit e x2 tok).tempuser = false := by
  have hguest : ((e.uinfo tok.slot.toNat).userid == guestName) = false := by
    rw [beq_eq_false_iff_ne]
    intro heq
    have hcase := h.2.2
    rw [heq, strcasecmp_iff.mpr rfl] at hcase
    contradiction
  unfold telnetInit
  dsimp only
  split
  · exact ⟨rfl, rfl⟩
  · rw [hguest, if_neg Bool.false_ne_true, getuserbynum_kickedOut h]
    exact ⟨rfl, rfl⟩

theorem telnetInit_ret (e : WebEnv) (x2 : Option UserRecord) (tok : Token) :
    (telnetInit e x2 tok).ret = false := by
  unfold telnetInit
  dsimp only
  repeat' split
  all_goals rfl

/-- What the web branch does with a session that is not a guest's. -/
theorem webInit_user {e : WebEnv} {tok : Token}
    (hchecks : webChecks e (e.uinfo tok.slot.toNat) tok.sessionid = true)
    (hguest : strcasecmp (e.uinfo tok.slot.toNat).userid guestName = false)
    {x2 found : Option UserRecord} {r : Int} (hr : 0 ≤ r)
    (hfound : getuserbynum e tok.uid x2 = (r, found)) :
    (webInit e x2 tok).tempuser = false ∧
      ((webInit e x2 tok).ret = true ↔
        ∃ rec, found = some rec ∧ rec.userid = (e.uinfo tok.slot.toNat).userid) ∧
      ((webInit e x2 tok).ret = true → (webInit e x2 tok).x = found) := by
  -- the look-up does not see what has been written to the slot
  have hsame : ∀ uinfo, getuserbynum { e with uinfo := uinfo } tok.uid x2 = (r, found) :=
    fun _ => hfound
  unfold webInit
  dsimp only
  rw [hchecks, Bool.not_true, if_neg Bool.false_ne_true, hguest, if_neg Bool.false_ne_true, hsame,
    if_neg (Int.not_lt.mpr hr)]
  cases found with
  | none => simp [outInit]
  | some rec =>
      dsimp only
      split
      · next hne => simpa [outInit] using hne
      · next heq => simpa using heq

theorem webInit_guest {e : WebEnv} {tok : Token} (x2 : Option UserRecord)
    (hguest : strcasecmp (e.uinfo tok.slot.toNat).userid guestName = true)
    (hchecks : webChecks e (e.uinfo tok.slot.toNat) tok.sessionid = true) :
    (webInit e x2 tok).isguest = true := by
  unfold webInit
  dsimp only
  rw [hchecks, Bool.not_true, if_neg Bool.false_ne_true, hguest, if_pos rfl]
  repeat' split
  all_goals rfl

theorem webInit_refused {e : WebEnv} {tok : Token} (x2 : Option UserRecord)
    (hchecks : webChecks e (e.uinfo tok.slot.toNat) tok.sessionid = false) :
    webInit e x2 tok = outInit e (some tok.slot.toNat) false := by
  unfold webInit
  dsimp only
  rw [hchecks, Bool.not_false, if_pos rfl]

/-- The branch that `user_init` takes. -/
theorem userInit_cases (e : WebEnv) (x2 : Option UserRecord) (ub : List UInt8) :
    (∃ y, userInit e x2 ub = outInit e y false) ∧
        (∀ tok, userInitToken ub = some tok →
          ¬ ((0 ≤ tok.slot ∧ tok.slot < e.maxactive) ∧ 0 < tok.uid ∧ tok.uid ≤ e.maxusers)) ∨
      ∃ tok, userInitToken ub = some tok ∧ (0 ≤ tok.slot ∧ tok.slot < e.maxactive) ∧
        (0 < tok.uid ∧ tok.uid ≤ e.maxusers) ∧
        userInit e x2 ub = if ub.length < 33 then telnetInit e x2 tok else webInit e x2 tok := by
  unfold userInit
  cases htok : userInitToken ub with
  | none => exact .inl ⟨⟨none, rfl⟩, fun tok h => by contradiction⟩
  | some tok =>
      dsimp only
      split
      · next hslot =>
        refine .inl ⟨⟨none, rfl⟩, fun tok' h => ?_⟩
        cases h
        omega
      · split
        · next huid =>
          refine .inl ⟨⟨none, rfl⟩, fun tok' h => ?_⟩
          cases h
          omega
        · next hslot huid => exact .inr ⟨tok, rfl, by omega, by omega, rfl⟩

/-- What the tests of the web branch have shown. -/
theorem letIn_of_webChecks {e : WebEnv} {tok : Token} {x : Option UserRecord}
    (hslot : 0 ≤ tok.slot ∧ tok.slot < e.maxactive) (huid : 0 < tok.uid ∧ tok.uid ≤ e.maxusers)
    (hchecks : webChecks e (e.uinfo tok.slot.toNat) tok.sessionid = true)
    (hx : x = some (e.passwdptr (tok.uid.toNat - 1)))
    (hkick : (e.passwdptr (tok.uid.toNat - 1)).kickout = 0)
    (hid : (e.passwdptr (tok.uid.toNat - 1)).userid = (e.uinfo tok.slot.toNat).userid) :
    LetIn e tok x := by
  simp only [webChecks, Bool.and_eq_true, bne_iff_ne, beq_iff_eq] at hchecks
  obtain ⟨⟨⟨⟨⟨haddr, hsession⟩, hactive⟩, hname⟩, -⟩, -⟩ := hchecks
  refine ⟨hslot, hactive, hsession, (addrOk_iff ..).mp haddr, tok.uid.toNat - 1, by omega, hx, hkick,
    ?_, hid⟩
  rw [hid]
  exact hname

/-- What has to hold of the one token there is. -/
theorem sound_of_token {e : WebEnv} {ub : List UInt8} {tok : Token}
    (htok : userInitToken ub = some tok) (r : UserInit) :
    Sound e ub r ↔ (r.ret = true → r.isguest = false → LetIn e tok r.x) ∧
      (KickedOut e tok → r.ret = false ∧ r.tempuser = false) := by
  unfold Sound
  simp only [htok, Option.some.injEq, exists_eq_left', forall_eq']

theorem staleRecord_of_token {e : WebEnv} {ub : List UInt8} {tok : Token}
    (htok : userInitToken ub = some tok) (x2 : Option UserRecord) :
    StaleRecord e x2 ub ↔ 33 ≤ ub.length ∧ (0 ≤ tok.slot ∧ tok.slot < e.maxactive) ∧
      KickedOut e tok ∧ webChecks e (e.uinfo tok.slot.toNat) tok.sessionid = true ∧
      ∃ rec, x2 = some rec ∧ rec.userid = (e.uinfo tok.slot.toNat).userid := by
  unfold StaleRecord
  simp only [htok, Option.some.injEq, exists_eq_left']

/-- On the web it is the record on the stack that decides on who has been kicked out. -/
theorem webInit_sound_iff {e : WebEnv} {ub : List UInt8} {tok : Token}
    (htok : userInitToken ub = some tok) (hslot : 0 ≤ tok.slot ∧ tok.slot < e.maxactive)
    (huid : 0 < tok.uid ∧ tok.uid ≤ e.maxusers) (hlong : 33 ≤ ub.length)
    (x2 : Option UserRecord) : Sound e ub (webInit e x2 tok) ↔ ¬ StaleRecord e x2 ub := by
  rw [sound_of_token htok, staleRecord_of_token htok]
  cases hchecks : webChecks e (e.uinfo tok.slot.toNat) tok.sessionid with
  | false =>
      rw [webInit_refused x2 hchecks]
      exact iff_of_true ⟨fun hret => by contradiction, fun _ => ⟨rfl, rfl⟩⟩
        fun hstale => Bool.false_ne_true hstale.2.2.2.1
  | true =>
      by_cases hkicked : KickedOut e tok
      · obtain ⟨htemp, hret, -⟩ := webInit_user hchecks hkicked.2.2 le_rfl
          (getuserbynum_kickedOut hkicked x2)
        rw [← hret]
        constructor
        · intro hsound hstale
          have hfalse := (hsound.2 hkicked).1
          rw [hstale.2.2.2.2] at hfalse
          contradiction
        · intro hfresh
          have hfalse : (webInit e x2 tok).ret = false := by
            rw [← Bool.not_eq_true]
            exact fun hlet => hfresh ⟨hlong, hslot, hkicked, rfl, hlet⟩
          rw [hfalse]
          exact ⟨fun hlet => by contradiction, fun _ => ⟨rfl, htemp⟩⟩
      · refine iff_of_true ⟨fun hlet hisguest => ?_, fun h => absurd h hkicked⟩
          fun hstale => hkicked hstale.2.2.1
        cases hguest : strcasecmp (e.uinfo tok.slot.toNat).userid guestName with
        | true =>
            rw [webInit_guest x2 hguest hchecks] at hisguest
            contradiction
        | false =>
            have hkick : (e.passwdptr (tok.uid.toNat - 1)).kickout = 0 :=
              not_not.mp fun hne => hkicked ⟨huid, hne, hguest⟩
            obtain ⟨-, hret, hx⟩ := webInit_user hchecks hguest (by omega)
              (getuserbynum_found huid hkick x2)
            obtain ⟨rec, hrec, hid⟩ := hret.mp hlet
            cases hrec
            exact letIn_of_webChecks hslot huid hchecks (hx hlet) hkick hid

/-- **Whom `user_init` lets in**: only the users of the sessions, and nobody who has been kicked
out, exactly if no record of the kicked-out user is left on the stack. -/
theorem userInit_sound_iff (e : WebEnv) (x2 : Option UserRecord) (ub : List UInt8) :
    Sound e ub (userInit e x2 ub) ↔ ¬ StaleRecord e x2 ub := by
  rcases userInit_cases e x2 ub with ⟨⟨y, hout⟩, hno⟩ | ⟨tok, htok, hslot, huid, hinit⟩
  · rw [hout]
    refine iff_of_true ⟨fun hret => by contradiction, fun _ _ _ => ⟨rfl, rfl⟩⟩ ?_
    rintro ⟨-, tok, htok, hslot, hkicked, -⟩
    exact hno tok htok ⟨hslot, hkicked.1⟩
  · rw [hinit]
    split
    · next hshort =>
      rw [sound_of_token htok]
      refine iff_of_true ⟨fun hret => ?_, fun hkicked => telnetInit_kickedOut hkicked x2⟩
        fun hstale => absurd hstale.1 (by omega)
      rw [telnetInit_ret] at hret
      contradiction
    · next hlong => exact webInit_sound_iff htok hslot huid (by omega) x2

/-- One session, of a user who has been kicked out since it began. -/
def kickedEnv : WebEnv where
  maxactive := 1
  maxusers := 1
  uinfo := fun _ => ⟨1, 0, List.replicate 30 65, [97, 98], 0, 0, 0⟩
  passwdptr := fun _ => ⟨[97, 98], 1⟩
  fromAddr := 0
  now := 0
  guestrec := none

/-- The token of that session. -/
def kickedToken : List UInt8 := List.replicate 6 65 ++ 66 :: List.replicate 30 65

/-- When the look-up before left the user's record on the stack, the user is let in. -/
theorem userInit_letsKickedOutIn : ¬ Sound kickedEnv kickedToken
    (userInit kickedEnv (some (kickedEnv.passwdptr 0)) kickedToken) := by
  intro hsound
  have htok : userInitToken kickedToken = some ⟨0, 1, List.replicate 30 65⟩ := by decide +kernel
  have hkicked : KickedOut kickedEnv ⟨0, 1, List.replicate 30 65⟩ :=
    ⟨by decide, by decide, by decide⟩
  have hret : (userInit kickedEnv (some (kickedEnv.passwdptr 0)) kickedToken).ret = true := by
    decide +kernel
  rw [(hsound.2 _ htok hkicked).1] at hret
  contradiction

end Ytht
