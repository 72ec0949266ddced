import Mathlib.Data.Nat.Prime.Basic
import Mathlib.Tactic.NormNum.Prime
import Ytht.Attach.Conn
import Ytht.Utmp.Slots
import Ytht.Ythtlib.Inet
import Ytht.Ythtlib.Strlib

/-!
# Nju09.Login

The login of a web user: `wwwlogin` gives back a session that is still there, `check_multi`, or
takes a new slot.  A guest's sessions are looked for in the chain of the address the request
comes from; a new one is put in the chain of the address that is shown, where the last two
bytes are 0.  So a session is found again exactly when both addresses have one chain
(`guest_keeps_session`).
-/

namespace Ytht

open Bytes Function Runs

/-! ## Where a request comes from -/

def maxProxyNum : Nat := 4

/-- What the main loop knows of the servers in front of it. -/
structure WwwCache where
  validproxy : List Nat
  accelAddr : Nat

/-- The two variables of the environment that tell the address. -/
structure HostEnv where
  remoteAddr : List UInt8
  forwardedFor : Option (List UInt8)

/-- `fromhost`, of an address -/
def maskedHost (fromAddr : Nat) : List UInt8 := strsncpy (inetNtoa (fromAddr % 65536)) 60

/-- Where a request comes from: `realfromhost`, `from_addr` and `fromhost`. -/
structure Host where
  realfromhost : List UInt8
  fromAddr : Nat
  fromhost : List UInt8
  parsed : ∀ addr, inetAton realfromhost = some addr → fromAddr = addr
  masked : fromhost = maskedHost fromAddr

theorem host_parsed (text : List UInt8) (old addr : Nat) (h : inetAton text = some addr) :
    (inetAton text).getD old = addr := by
  rw [h, Option.getD_some]

/-- `inet_aton(realfromhost, &from_addr)` and what is made of it; a text that is no address
leaves the address of the request before. -/
def hostOf (old : Nat) (realfromhost : List UInt8) : Host where
  realfromhost := realfromhost
  fromAddr := (inetAton realfromhost).getD old
  fromhost := maskedHost ((inetAton realfromhost).getD old)
  parsed := host_parsed realfromhost old
  masked := rfl

/-- The last one in `HTTP_X_FORWARDED_FOR` -/
def forwardedHost (ptr : List UInt8) : List UInt8 :=
  match strrchr ptr 44 with
  | none => strsncpy ptr 60
  | some p =>
    let p := p.dropWhile (!isdigit ·)
    if p = [] then strsncpy ptr 60 else strsncpy p 60

/-- The start of the main loop, after a request from `old`. -/
def acceptHost (cache : WwwCache) (old : Nat) (env : HostEnv) : Host :=
  let host := hostOf old (strsncpy env.remoteAddr 60)
  let viaProxy := ((cache.validproxy.take maxProxyNum).takeWhile (· ≠ 0)).contains host.fromAddr
  if viaProxy ∨ host.fromAddr = cache.accelAddr then
    hostOf host.fromAddr (forwardedHost (env.forwardedFor.getD env.remoteAddr))
  else host

/-! ## Login -/

def guestId : List UInt8 := [103, 117, 101, 115, 116]

/-- A user who logs in: `uid` is what `getuser` says. -/
structure WwwUser where
  userid : List UInt8
  uid : Int
  cloaks : Bool

/-- The table, with the field `fromIP` of its records. -/
structure WwwUtmp where
  utmp : Utmp
  fromIP : Nat → Nat

/-- `do_check` -/
def doCheck (s : WwwUtmp) (host : Host) (now uid : Int) (uent : Nat) : Bool :=
  (s.utmp.uinfo uent).uid == uid && (s.utmp.uinfo uent).active == 1 &&
    (s.utmp.uinfo uent).pid == 1 && decide (now - (s.utmp.uinfo uent).lasttime < 18 * 60) &&
    host.fromAddr == s.fromIP uent

/-- The loop of `check_multi` along the chain of an address; `none` when it does not end. -/
def guestLoop (next : Nat → Nat) (check : Nat → Bool) : Nat → Nat → Option (Option Nat)
  | 0, _ => none
  | fuel + 1, uent =>
    if uent = 0 then some none
    else if check uent then some (some uent)
    else guestLoop next check fuel (next uent)

/-- `check_multi` -/
def checkMulti (c : UtmpConf) (s : WwwUtmp) (host : Host) (now : Int) (id : List UInt8)
    (uid : Int) : Option (Option Nat) :=
  if uid ≤ 0 ∨ c.maxusers < uid then some none
  else if !strcasecmp id guestId then
    some (((List.range 6).map (s.utmp.uindex (uid - 1).toNat)).find? fun uent =>
      uent != 0 && doCheck s host now uid uent)
  else
    guestLoop s.utmp.guesthashNext (doCheck s host now uid) (c.maxactive + 1)
      (s.utmp.guesthashHead (utmpIphash c host.realfromhost))

/-- `count_uindex`, which strikes out what has no process any more. -/
def countUindex (c : UtmpConf) (t : Utmp) (uid : Int) (alive : Nat → Bool) : Nat × Utmp :=
  if uid ≤ 0 ∨ c.maxusers < uid then (0, t)
  else
    (List.range 6).foldl (fun acc i =>
      let uent := acc.2.uindex (uid - 1).toNat i
      let uentp := acc.2.uinfo uent
      if uent = 0 then acc
      else if uentp.active = 0 ∨ uentp.pid = 0 ∨ uentp.uid ≠ uid then acc
      else if 1 < uentp.pid ∧ !alive uent then (acc.1, acc.2.setUindex uid i 0)
      else (acc.1 + 1, acc.2)) (0, t)

/-- The record of a new session. -/
def wwwRecord (user : WwwUser) (host : Host) (now : Int) : UserInfo :=
  { emptyUserInfo with
    active := 1
    uid := user.uid
    pid := 1
    lasttime := now
    invisible := if user.cloaks then 1 else 0
    fromhost := strsncpy host.fromhost 20
    userid := strsncpy user.userid 13 }

/-- What `wwwlogin` answers: a session, or one of its two refusals. -/
inductive LoginReply
  | session (uent : Nat)
  | tooMany
  | full
  deriving DecidableEq

/-- The table in which `wwwlogin` takes a slot: sessions of registered users have been
counted. -/
def countedUtmp (c : UtmpConf) (t : Utmp) (user : WwwUser) (alive : Nat → Bool) : Utmp :=
  if strcasecmp user.userid guestId then t else (countUindex c t user.uid alive).2

/-- `wwwlogin`, for a user who has no session to go on with. -/
def newSession (c : UtmpConf) (s : WwwUtmp) (user : WwwUser) (host : Host) (now clock : Int)
    (alive : Nat → Bool) : Option (LoginReply × WwwUtmp) :=
  let t := countedUtmp c s.utmp user alive
  if !strcasecmp user.userid guestId ∧ 3 ≤ (countUindex c s.utmp user.uid alive).1 then
    some (.tooMany, { s with utmp := t })
  else
    (utmpLogin c t (wwwRecord user host now) clock alive).map fun (n, t) =>
      if c.maxactiverun < n ∨ n ≤ 0 then (.full, { s with utmp := t })
      else (.session n.toNat, { utmp := t, fromIP := update s.fromIP n.toNat host.fromAddr })

/-- `wwwlogin`; `now` is `now_t`, and `clock` the time of the sweep in `utmp_login`. -/
def wwwlogin (c : UtmpConf) (s : WwwUtmp) (user : WwwUser) (host : Host) (now clock : Int)
    (alive : Nat → Bool) : Option (LoginReply × WwwUtmp) :=
  (checkMulti c s host now user.userid user.uid).bind fun found =>
    match found with
    | some uent => some (.session uent, s)
    | none => newSession c s user host now clock alive

/-- What happens to the web's sessions: a login, a sweep, or a page that is asked for. -/
inductive WwwEvent
  | wwwlogin (user : WwwUser) (host : Host) (now clock : Int) (alive : Nat → Bool)
  | kickidle (now : Int) (alive : Nat → Bool)
  | touch (x : Nat) (lasttime : Int) (iskicked : Bool)

/-- One event; `none` when a function does not return. -/
def wwwStep (c : UtmpConf) (s : WwwUtmp) : WwwEvent → Option WwwUtmp
  | .wwwlogin user host now clock alive => (wwwlogin c s user host now clock alive).map Prod.snd
  | .kickidle now alive => (utmpKickidle c s.utmp now alive).map fun utmp => { s with utmp }
  | .touch x lasttime iskicked =>
      some { s with
        utmp := { s.utmp with
          uinfo := update s.utmp.uinfo x { s.utmp.uinfo x with lasttime, iskicked } } }

/-- The table at the start. -/
def initWww (c : UtmpConf) : WwwUtmp := ⟨initutmp c, fun _ => 0⟩

/-! ## What becomes of a record -/

section Records

variable {c : UtmpConf} {t t' : Utmp}

/-- The record of a slot that the sweep takes is not active any more. -/
theorem kickSlot_uinfo {x : Nat} (h : kickSlot c t x = some t') :
    t'.uinfo = update t.uinfo x (t.uinfo x).kicked := by
  obtain ⟨s, hleave, rfl⟩ := Option.map_eq_some_iff.mp h
  have huinfo : s.uinfo = t.uinfo := by
    unfold leaveChain at hleave
    split at hleave
    · obtain ⟨s', hs', rfl⟩ := Option.map_eq_some_iff.mp hleave
      unfold unlinkGuest at hs'
      dsimp only at hs'
      split at hs'
      · cases hs'
        rfl
      · obtain ⟨next, -, rfl⟩ := Option.map_eq_some_iff.mp hs'
        rfl
    · cases hleave
      rfl
  unfold freeSlot
  obtain ⟨uindex, hindex⟩ := removeUindex_frame c
    { s.pushFree x with activeuser := ushortDec s.activeuser } (s.uinfo x).uid x
  simp only [Utmp.pushFree] at hindex ⊢
  rw [hindex, huinfo]

/-- What is active after a sweep has the record it had. -/
theorem utmpKickidle_uinfo {now : Int} {alive : Nat → Bool}
    (h : utmpKickidle c t now alive = some t') (y : Nat) (hact : (t'.uinfo y).active ≠ 0) :
    t'.uinfo y = t.uinfo y := by
  unfold utmpKickidle at h
  split at h
  · cases h
    rfl
  · have hloop : ∀ (l : List Nat) (t : Utmp),
        l.foldlM (fun t x => if idles (t.uinfo x) now (alive x) then kickSlot c t x
          else some t) t = some t' → t'.uinfo y = t.uinfo y := by
      intro l
      induction l with
      | nil =>
          intro t hfold
          cases hfold
          rfl
      | cons x l ih =>
          intro t hfold
          rw [List.foldlM_cons] at hfold
          by_cases hidle : idles (t.uinfo x) now (alive x) = true
          · rw [if_pos hidle] at hfold
            obtain ⟨s, hs, hrest⟩ := Option.bind_eq_some_iff.mp hfold
            have hsame := ih s hrest
            rw [kickSlot_uinfo hs] at hsame
            by_cases hy : y = x
            · rw [hy, update_self] at hsame
              rw [hy, hsame] at hact
              exact absurd rfl hact
            · rwa [update_of_ne hy] at hsame
          · rw [if_neg hidle] at hfold
            exact ih t hfold
    exact hloop _ { t with uptime := now } h

/-- What is active after a login has the record it had, or is the new one. -/
theorem utmpLogin_uinfo {up : UserInfo} {now : Int} {alive : Nat → Bool} {n : Int}
    (h : utmpLogin c t up now alive = some (n, t')) :
    n = -1 ∧ t' = t ∨ ∃ x : Nat, n = x ∧ 0 < x ∧ x ≤ c.maxactiverun ∧
      ∀ y, (t'.uinfo y).active ≠ 0 → t'.uinfo y = update t.uinfo x up y := by
  unfold utmpLogin at h
  dsimp only at h
  split at h
  · cases h
    exact Or.inl ⟨rfl, rfl⟩
  · next hhead =>
    split at h
    · cases h
      exact Or.inl ⟨rfl, rfl⟩
    · obtain ⟨s, hkick, heq⟩ := Option.map_eq_some_iff.mp h
      cases heq
      refine Or.inr ⟨_, rfl, by omega, by omega, fun y hy => ?_⟩
      rw [utmpKickidle_uinfo hkick y hy]
      rw [enterChain_uinfo, occupySlot_uinfo]

/-- Counting sessions changes the index only. -/
theorem countUindex_frame (c : UtmpConf) (t : Utmp) (uid : Int) (alive : Nat → Bool) :
    ∃ uindex, (countUindex c t uid alive).2 = { t with uindex } := by
  unfold countUindex
  split
  · exact ⟨t.uindex, rfl⟩
  · have hloop : ∀ (l : List Nat) (acc : Nat × Utmp), (∃ uindex, acc.2 = { t with uindex }) →
        ∃ uindex, (l.foldl (fun acc i =>
          let uent := acc.2.uindex (uid - 1).toNat i
          let uentp := acc.2.uinfo uent
          if uent = 0 then acc
          else if uentp.active = 0 ∨ uentp.pid = 0 ∨ uentp.uid ≠ uid then acc
          else if 1 < uentp.pid ∧ !alive uent then (acc.1, acc.2.setUindex uid i 0)
          else (acc.1 + 1, acc.2)) acc).2 = { t with uindex } := by
      intro l
      induction l with
      | nil => exact fun acc h => h
      | cons i l ih =>
          intro acc h
          rw [List.foldl_cons]
          refine ih _ ?_
          obtain ⟨uindex, hacc⟩ := h
          dsimp only
          split_ifs
          · exact ⟨uindex, hacc⟩
          · exact ⟨uindex, hacc⟩
          · exact ⟨_, by rw [hacc]; rfl⟩
          · exact ⟨uindex, hacc⟩
    exact hloop _ _ ⟨t.uindex, rfl⟩

theorem countedUtmp_frame (c : UtmpConf) (t : Utmp) (user : WwwUser) (alive : Nat → Bool) :
    ∃ uindex, countedUtmp c t user alive = { t with uindex } := by
  unfold countedUtmp
  split
  · exact ⟨t.uindex, rfl⟩
  · exact countUindex_frame c t user.uid alive

end Records

/-! ## All runs -/

theorem maskedHost_eq (fromAddr : Nat) : maskedHost fromAddr = inetNtoa (fromAddr % 65536) := by
  have hlen := length_inetNtoa_le (fromAddr % 65536)
  exact strsncpy_eq_self (zero_notMem_inetNtoa _) (by omega)

/-- The field `from` is long enough for the address. -/
theorem wwwRecord_fromhost (user : WwwUser) (host : Host) (now : Int) :
    (wwwRecord user host now).fromhost = maskedHost host.fromAddr := by
  have hlen := length_inetNtoa_le (host.fromAddr % 65536)
  rw [wwwRecord, host.masked, maskedHost_eq]
  exact strsncpy_eq_self (zero_notMem_inetNtoa _) (by omega)

/-- The table is right, and an active record shows the address it came from. -/
def WwwUtmp.Right (c : UtmpConf) (s : WwwUtmp) : Prop :=
  (∃ own, s.utmp.Inv c own) ∧
    ∀ x, (s.utmp.uinfo x).active ≠ 0 → (s.utmp.uinfo x).fromhost = maskedHost (s.fromIP x)

namespace WwwUtmp.Right

variable {c : UtmpConf} {s s' : WwwUtmp}

/-- A new session. -/
theorem newSession (h : s.Right c) {user : WwwUser} {host : Host} {now clock : Int}
    {alive : Nat → Bool} {reply : LoginReply}
    (hnew : newSession c s user host now clock alive = some (reply, s')) : s'.Right c := by
  obtain ⟨⟨own, hinv⟩, hshown⟩ := h
  obtain ⟨uindex, hcount⟩ := countedUtmp_frame c s.utmp user alive
  have hcounted : (countedUtmp c s.utmp user alive).Inv c own := by
    rw [hcount]
    exact ⟨hinv.linked, hinv.activeuser, hinv.wwwguestnum⟩
  have huinfo : (countedUtmp c s.utmp user alive).uinfo = s.utmp.uinfo := by rw [hcount]
  unfold Ytht.newSession at hnew
  dsimp only at hnew
  split at hnew
  · cases hnew
    refine ⟨⟨own, hcounted⟩, fun x hx => ?_⟩
    dsimp only at hx ⊢
    rw [huinfo] at hx ⊢
    exact hshown x hx
  · obtain ⟨⟨n, t'⟩, hlogin, heq⟩ := Option.map_eq_some_iff.mp hnew
    have hinv' : ∃ own', t'.Inv c own' := by
      have hactive : (wwwRecord user host now).active ≠ 0 := Int.one_ne_zero
      obtain ⟨r, t'', own', hlogin', hinv', -⟩ := utmpLogin_spec hcounted hactive clock alive
      rw [hlogin] at hlogin'
      cases hlogin'
      exact ⟨own', hinv'⟩
    rcases utmpLogin_uinfo hlogin with ⟨rfl, rfl⟩ | ⟨x, rfl, hpos, hrun, hrecord⟩
    · rw [if_pos (Or.inr (show (-1 : Int) ≤ 0 by decide))] at heq
      cases heq
      refine ⟨hinv', fun y hy => ?_⟩
      dsimp only at hy ⊢
      rw [huinfo] at hy ⊢
      exact hshown y hy
    · rw [if_neg (by omega)] at heq
      cases heq
      refine ⟨hinv', fun y hy => ?_⟩
      dsimp only at hy ⊢
      have hrec := hrecord y hy
      rw [huinfo] at hrec
      rw [Int.toNat_natCast]
      by_cases hyx : y = x
      · rw [hyx, update_self] at hrec
        rw [hyx, update_self, hrec]
        exact wwwRecord_fromhost user host now
      · rw [update_of_ne hyx] at hrec
        rw [hrec] at hy
        rw [update_of_ne hyx, hrec]
        exact hshown y hy

/-- **One event** keeps the table right. -/
theorem step (h : s.Right c) {e : WwwEvent} (hstep : wwwStep c s e = some s') : s'.Right c := by
  cases e with
  | wwwlogin user host now clock alive =>
      obtain ⟨⟨reply, s''⟩, hlogin, rfl⟩ := Option.map_eq_some_iff.mp hstep
      obtain ⟨found, -, hreply⟩ := Option.bind_eq_some_iff.mp hlogin
      cases found with
      | some uent =>
          cases hreply
          exact h
      | none => exact h.newSession hreply
  | kickidle now alive =>
      obtain ⟨⟨own, hinv⟩, hshown⟩ := h
      obtain ⟨t', hkick, rfl⟩ := Option.map_eq_some_iff.mp hstep
      obtain ⟨t'', own', hkick', hinv'⟩ := utmpKickidle_spec hinv now alive
      rw [hkick] at hkick'
      cases hkick'
      refine ⟨⟨own', hinv'⟩, fun x hx => ?_⟩
      have hrecord := utmpKickidle_uinfo hkick x hx
      dsimp only at hx ⊢
      rw [hrecord] at hx ⊢
      exact hshown x hx
  | touch x lasttime iskicked =>
      obtain ⟨⟨own, hinv⟩, hshown⟩ := h
      cases hstep
      refine ⟨⟨own, hinv.touch x lasttime (s.utmp.uinfo x).extIdle iskicked⟩, fun y hy => ?_⟩
      dsimp only at hy ⊢
      by_cases hyx : y = x
      · rw [hyx, update_self] at hy ⊢
        exact hshown x hy
      · rw [update_of_ne hyx] at hy ⊢
        exact hshown y hy

theorem ofRun {es : List WwwEvent} (hrun : Run (wwwStep c) (initWww c) es s) : s.Right c := by
  refine hrun.invariant (fun _ s => s.Right c) ⟨⟨_, initutmp_inv c⟩, fun x hx => ?_⟩
    fun _ _ _ _ h hstep => h.step hstep
  exact absurd rfl hx

end WwwUtmp.Right

/-! ## Looking for a session -/

/-- The walk along a chain finds the first that passes. -/
theorem guestLoop_eq {next : Nat → Nat} {check : Nat → Bool} {l : List Nat} {fuel i : Nat}
    (h : Chain.IsChain next i l) (hfuel : l.length < fuel) :
    guestLoop next check fuel i = some (l.find? check) := by
  induction l generalizing fuel i with
  | nil =>
      obtain ⟨fuel, rfl⟩ : ∃ f, fuel = f + 1 := ⟨fuel - 1, (Nat.succ_pred_eq_of_pos hfuel).symm⟩
      rw [guestLoop, if_pos (Chain.isChain_nil.mp h)]
      rfl
  | cons x l ih =>
      obtain ⟨fuel, rfl⟩ : ∃ f, fuel = f + 1 := ⟨fuel - 1, by omega⟩
      obtain ⟨rfl, hpos, htail⟩ := h
      rw [guestLoop, if_neg hpos, List.find?_cons]
      cases check i with
      | true => rfl
      | false =>
          rw [if_neg Bool.false_ne_true]
          exact ih htail (by simp only [List.length_cons] at hfuel; omega)

/-- A web session of the guest that comes from the address of the request, and was used less
than 18 minutes ago. -/
def WwwUtmp.GuestSession (c : UtmpConf) (s : WwwUtmp) (uid : Int) (host : Host) (now : Int)
    (x : Nat) : Prop :=
  c.Slot x ∧ (s.utmp.uinfo x).active = 1 ∧ (s.utmp.uinfo x).isWwwGuest = true ∧
    (s.utmp.uinfo x).uid = uid ∧ s.fromIP x = host.fromAddr ∧
    now - (s.utmp.uinfo x).lasttime < 18 * 60

theorem doCheck_iff {c : UtmpConf} {s : WwwUtmp} {uid : Int} {host : Host} {now : Int} {x : Nat}
    (hx : c.Slot x) (hguest : (s.utmp.uinfo x).isWwwGuest = true) :
    doCheck s host now uid x = true ↔ s.GuestSession c uid host now x := by
  have hpid := (Bool.and_eq_true _ _ ▸ hguest).2
  simp only [doCheck, Bool.and_eq_true, beq_iff_eq, decide_eq_true_eq] at hpid ⊢
  unfold WwwUtmp.GuestSession
  grind

/-- The guest's session that is looked for is in the chain of `realfromhost`, or none is found. -/
theorem checkMulti_guest {c : UtmpConf} {s : WwwUtmp} (h : s.Right c) {id : List UInt8}
    (hid : strcasecmp id guestId = true) {uid : Int} (huid : 0 < uid ∧ uid ≤ c.maxusers)
    (host : Host) (now : Int) :
    ∃ found, checkMulti c s host now id uid = some found ∧
      (∀ y, found = some y → s.GuestSession c uid host now y ∧
        utmpIphash c (s.utmp.uinfo y).fromhost = utmpIphash c host.realfromhost) ∧
      (found = none → ∀ x, s.GuestSession c uid host now x →
        utmpIphash c (s.utmp.uinfo x).fromhost ≠ utmpIphash c host.realfromhost) := by
  obtain ⟨⟨own, hinv⟩, -⟩ := h
  obtain ⟨k, hk⟩ : ∃ k, utmpIphash c host.realfromhost = k := ⟨_, rfl⟩
  have hk0 : k ≠ 0 := by
    unfold utmpIphash at hk
    omega
  have hlen := hinv.linked.length_le k
  have hmem : ∀ x, x ∈ own k ↔ c.Slot x ∧ (s.utmp.uinfo x).active ≠ 0 ∧
      (s.utmp.uinfo x).isWwwGuest = true ∧ utmpIphash c (s.utmp.uinfo x).fromhost = k := by
    intro x
    rw [hinv.linked.mem, placeOf_eq_some hk0]
  rw [checkMulti, if_neg (by omega), hid, if_neg (by decide), hk,
    guestLoop_eq (hinv.linked.threaded.chain k) (by omega)]
  refine ⟨_, rfl, fun y hy => ?_, fun hnone x hx heq => ?_⟩
  · obtain ⟨hslot, -, hguest, hhash⟩ := (hmem y).mp (List.mem_of_find?_eq_some hy)
    exact ⟨(doCheck_iff hslot hguest).mp (List.find?_some hy), hhash⟩
  · have hin := (hmem x).mpr ⟨hx.1, by rw [hx.2.1]; exact Int.one_ne_zero, hx.2.2.1, heq⟩
    exact List.find?_eq_none.mp hnone x hin ((doCheck_iff hx.1 hx.2.2.1).mpr hx)

/-- `check_multi` has a session for the guest, and `wwwlogin` gives it back without a new
slot. -/
def WwwUtmp.Returns (c : UtmpConf) (s : WwwUtmp) (user : WwwUser) (host : Host) (now : Int) : Prop :=
  ∃ y, checkMulti c s host now user.userid user.uid = some (some y) ∧
    s.GuestSession c user.uid host now y ∧
    ∀ clock alive, wwwlogin c s user host now clock alive = some (.session y, s)

/-- With a session that could be given back, it depends on the chains of the two addresses. -/
theorem WwwUtmp.Right.returns_iff {c : UtmpConf} {s : WwwUtmp} (h : s.Right c) {user : WwwUser}
    (hid : strcasecmp user.userid guestId = true) (huid : 0 < user.uid ∧ user.uid ≤ c.maxusers)
    {host : Host} {now : Int} {x : Nat} (hx : s.GuestSession c user.uid host now x) :
    s.Returns c user host now ↔ utmpIphash c host.realfromhost = utmpIphash c host.fromhost := by
  have hshown : ∀ y, s.GuestSession c user.uid host now y →
      (s.utmp.uinfo y).fromhost = host.fromhost := by
    intro y hy
    rw [h.2 y (by rw [hy.2.1]; exact Int.one_ne_zero), hy.2.2.2.2.1, host.masked]
  obtain ⟨found, hcheck, hsome, hnone⟩ := checkMulti_guest h hid huid host now
  constructor
  · rintro ⟨y, hy, -⟩
    rw [hy, Option.some.injEq] at hcheck
    obtain ⟨hsession, hhash⟩ := hsome y hcheck.symm
    rw [← hhash, hshown y hsession]
  · intro hhash
    cases found with
    | none =>
        refine absurd ?_ (hnone rfl x hx)
        rw [hshown x hx, hhash]
    | some y =>
        refine ⟨y, hcheck, (hsome y rfl).1, fun clock alive => ?_⟩
        rw [wwwlogin, hcheck]
        rfl

/-- The chains are the same when the last two bytes are a multiple of the number of chains. -/
theorem utmpIphash_iff {c : UtmpConf} (hinet : ∀ text addr, inetAton text = some addr →
      c.inetAton text = addr) {host : Host} (hparsed : (inetAton host.realfromhost).isSome) :
    utmpIphash c host.realfromhost = utmpIphash c host.fromhost ↔
      4099 ∣ host.fromAddr / 65536 := by
  obtain ⟨addr, haddr⟩ := Option.isSome_iff_exists.mp hparsed
  have hsmall : host.fromAddr % 65536 < 2 ^ 32 := (Nat.mod_lt _ (by decide)).trans (by decide)
  have hreal := hinet _ _ haddr
  have hshown := hinet _ _ (inetAton_inetNtoa hsmall)
  rw [host.masked, maskedHost_eq, utmpIphash, utmpIphash, hreal, hshown, host.parsed addr haddr,
    utmphashSize]
  omega

/-- **A guest who comes back** in any run of logins, sweeps and pages, and has a session from
that address, gets it back if and only if the address and the one that is shown, whose last two
bytes are 0, have one chain; that is, if the last two bytes are a multiple of 4099. -/
theorem guest_keeps_session {c : UtmpConf}
    (hinet : ∀ text addr, inetAton text = some addr → c.inetAton text = addr)
    {es : List WwwEvent} {s : WwwUtmp} (hrun : Run (wwwStep c) (initWww c) es s) {user : WwwUser}
    (hid : strcasecmp user.userid guestId = true) (huid : 0 < user.uid ∧ user.uid ≤ c.maxusers)
    {host : Host} {now : Int} {x : Nat} (hx : s.GuestSession c user.uid host now x) :
    (s.Returns c user host now ↔ utmpIphash c host.realfromhost = utmpIphash c host.fromhost) ∧
    ((inetAton host.realfromhost).isSome →
      (s.Returns c user host now ↔ 4099 ∣ host.fromAddr / 65536)) := by
  have hiff := (WwwUtmp.Right.ofRun hrun).returns_iff hid huid hx
  exact ⟨hiff, fun hparsed => hiff.trans (utmpIphash_iff hinet hparsed)⟩

theorem wwwConf_pos : 1 ≤ 4 := by decide

theorem wwwConf_fits : 4 < 65536 := by decide

/-- Four slots, and `inet_aton` itself. -/
def wwwConf : UtmpConf where
  maxactive := 4
  maxactiverun := 4
  maxusers := 5
  guestUid := 3
  inetAton := fun text => (inetAton text).getD 0
  pos := wwwConf_pos
  fits := wwwConf_fits

/-- The guest. -/
def guestUser : WwwUser := ⟨guestId, 3, false⟩

/-- `10.0.3.16` -/
def nearHost : Host := hostOf 0 [49, 48, 46, 48, 46, 51, 46, 49, 54]

theorem farHost_parsed (addr : Nat) (h : inetAton [49, 48, 46, 48, 46, 48, 46, 49] = some addr) :
    16777226 = addr :=
  Option.some.inj h

theorem farHost_masked : [49, 48, 46, 48, 46, 48, 46, 48] = maskedHost 16777226 := by
  simp [maskedHost_eq, inetNtoa, decimal]

/-- `10.0.0.1` -/
def farHost : Host :=
  ⟨[49, 48, 46, 48, 46, 48, 46, 49], 16777226, [49, 48, 46, 48, 46, 48, 46, 48], farHost_parsed,
    farHost_masked⟩

/-- From `10.0.3.16`, whose last bytes are 4099, the guest gets the session back. -/
theorem guest_keeps_session_near :
    ∃ s, Run (wwwStep wwwConf) (initWww wwwConf)
        [.wwwlogin guestUser nearHost 100 100 fun _ => true] s ∧
      s.Returns wwwConf guestUser nearHost 200 := by
  have hrun := @Run.of_exec _ _ (wwwStep wwwConf) (initWww wwwConf) _
    [.wwwlogin guestUser nearHost 100 100 fun _ => true] rfl
  refine ⟨_, hrun, ((guest_keeps_session (c := wwwConf) (fun text addr h => ?_) hrun (x := 1) rfl
    ⟨by decide, by decide⟩ ⟨⟨by decide, by decide⟩, by decide, by decide, by decide, by decide,
      by decide⟩).2 (by decide)).mpr (by decide)⟩
  exact host_parsed text 0 addr h

/-- From `10.0.0.1` the guest has a session, which is not found, and gets a second slot. -/
theorem guest_loses_session :
    ∃ s, Run (wwwStep wwwConf) (initWww wwwConf)
        [.wwwlogin guestUser farHost 100 100 fun _ => true] s ∧
      s.GuestSession wwwConf 3 farHost 200 1 ∧
      checkMulti wwwConf s farHost 200 guestId 3 = some none ∧
      (wwwlogin wwwConf s guestUser farHost 200 200 fun _ => true).map Prod.fst =
        some (.session 2) := by
  have hrun := @Run.of_exec _ _ (wwwStep wwwConf) (initWww wwwConf) _
    [.wwwlogin guestUser farHost 100 100 fun _ => true] rfl
  refine ⟨_, hrun, ⟨⟨by decide, by decide⟩, by decide, by decide, by decide, by decide,
    by decide⟩, by decide, by decide⟩

end Ytht
