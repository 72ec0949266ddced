import Mathlib.Logic.Function.Basic
import Ytht.Lib.Bytes

/-!
# Utmp.Table

The table of online users, `struct UTMPFILE`: records, counters, and one array
`guesthash_next` that threads the free slots (chain 0) and, in the chains 1 to
`UTMPHASH_SIZE`, the web guests by the address they come from.

The functions that rewire it are `utmp_login`, `utmp_logout` and the idle sweep
`utmp_kickidle`, which every login makes.
-/

namespace Ytht

open Bytes Function

def utmphashSize : Nat := 4099

/-- What is fixed when the system is built or installed: the sizes, `getuser` of
the guest, and `inet_aton` of a dotted address. -/
structure UtmpConf where
  maxactive : Nat
  maxactiverun : Nat
  maxusers : Nat
  guestUid : Int
  inetAton : List UInt8 → Nat
  pos : 1 ≤ maxactive
  /-- The links and counters are unsigned shorts. -/
  fits : maxactive < 65536

/-- `struct user_info`, as far as the table looks into it. -/
structure UserInfo where
  active : Int
  uid : Int
  pid : Int
  invisible : Int
  sockactive : Int
  sockaddr : Int
  destuid : Int
  extIdle : Int
  lasttime : Int
  fromhost : List UInt8
  userid : List UInt8
  iskicked : Bool

/-- A record of zero bytes. -/
def emptyUserInfo : UserInfo := ⟨0, 0, 0, 0, 0, 0, 0, 0, 0, [], [], false⟩

/-- `struct UTMPFILE`, with `struct UINDEX` and the number in `.max_login_num`.
Records are given by their slot, which is one more than their index. -/
structure Utmp where
  uinfo : Nat → UserInfo
  guesthashHead : Nat → Nat
  guesthashNext : Nat → Nat
  uptime : Int
  activeuser : Nat
  maxuser : Nat
  maxtoday : Nat
  wwwguestnum : Nat
  uindex : Nat → Nat → Nat
  maxLoginNum : Option Nat

/-- `initutmp`, in memory that was zero. -/
def initutmp (c : UtmpConf) : Utmp where
  uinfo := fun _ => emptyUserInfo
  guesthashHead := update (fun _ => 0) 0 1
  guesthashNext := fun i => if 1 ≤ i ∧ i < c.maxactive then i + 1 else 0
  uptime := 0
  activeuser := 0
  maxuser := 0
  maxtoday := 0
  wwwguestnum := 0
  uindex := fun _ _ => 0
  maxLoginNum := none

/-- `x++` and `x--` on an unsigned short. -/
def ushortInc (n : Nat) : Nat := (n + 1) % 65536
def ushortDec (n : Nat) : Nat := (n + 65535) % 65536

/-- `utmp_iphash`. -/
def utmpIphash (c : UtmpConf) (fromhost : List UInt8) : Nat :=
  c.inetAton fromhost % utmphashSize + 1

/-- `!strcasecmp(userid, "guest") && pid == 1` -/
def UserInfo.isWwwGuest (u : UserInfo) : Bool :=
  strcasecmp u.userid [103, 117, 101, 115, 116] && u.pid == 1

/-! ## The index of sessions -/

/-- Whom `add_uindex` and `remove_uindex` pass over. -/
def UtmpConf.noIndex (c : UtmpConf) (uid : Int) : Prop :=
  uid ≤ 0 ∨ c.maxusers < uid ∨ uid = c.guestUid

instance (c : UtmpConf) (uid : Int) : Decidable (c.noIndex uid) :=
  inferInstanceAs (Decidable (_ ∨ _))

/-- `uindexshm->user[uid - 1][i] = v` -/
def Utmp.setUindex (t : Utmp) (uid : Int) (i v : Nat) : Utmp :=
  { t with uindex := update t.uindex (uid - 1).toNat (update (t.uindex (uid - 1).toNat) i v) }

/-- `add_uindex`. -/
def addUindex (c : UtmpConf) (t : Utmp) (uid : Int) (utmpent : Nat) : Utmp :=
  let user := t.uindex (uid - 1).toNat
  if c.noIndex uid then t
  else if (List.range 6).any fun i => user i == utmpent then t
  else
    let unused := fun i =>
      user i == 0 || (t.uinfo (user i)).active == 0 || (t.uinfo (user i)).uid != uid
    match (List.range 6).find? unused with
    | some i => t.setUindex uid i utmpent
    | none => t

/-- `remove_uindex`. -/
def removeUindex (c : UtmpConf) (t : Utmp) (uid : Int) (utmpent : Nat) : Utmp :=
  if c.noIndex uid then t
  else
    match (List.range 6).find? fun i => t.uindex (uid - 1).toNat i == utmpent with
    | some i => t.setUindex uid i 0
    | none => t

/-- `update_max_online`. -/
def updateMaxOnline (t : Utmp) : Utmp :=
  if t.activeuser ≤ t.maxtoday then t
  else
    let t := { t with maxtoday := t.activeuser }
    if t.activeuser ≤ t.maxuser then t
    else
      let t := { t with maxuser := t.activeuser }
      if t.maxuser < t.maxLoginNum.getD 0 then { t with maxuser := t.maxLoginNum.getD 0 }
      else { t with maxLoginNum := some t.maxuser }

/-! ## The sweep -/

/-- A slot that the sweep takes: `alive` is the answer of `kill(pid, 0)`.  The
SIGHUP for a process that idles does not concern the table. -/
def idles (u : UserInfo) (now : Int) (alive : Bool) : Bool :=
  u.pid != 0 && u.active != 0 &&
    !(u.pid == 1 && decide (now - u.lasttime < 20 * 60) && !u.iskicked) &&
    !(decide (1 < u.pid) && decide (now - u.lasttime < 120)) &&
    !(decide (1 < u.pid) && alive)

/-- The loop that takes slot `x` out of the chain at `i`; `none` when it does not
end. -/
def unlinkLoop (next : Nat → Nat) (x : Nat) : Nat → Nat → Option (Nat → Nat)
  | 0, _ => none
  | fuel + 1, i =>
      if next i = 0 then some next
      else if next i = x then some (update next i (next x))
      else unlinkLoop next x fuel (next i)

/-- Take a web guest out of the chain of its address. -/
def unlinkGuest (c : UtmpConf) (t : Utmp) (x : Nat) : Option Utmp :=
  let h := utmpIphash c (t.uinfo x).fromhost
  let i := t.guesthashHead h
  if i = x then
    some { t with guesthashHead := update t.guesthashHead h (t.guesthashNext i) }
  else
    (unlinkLoop t.guesthashNext x (c.maxactive + 1) i).map fun next =>
      { t with guesthashNext := next }

/-- Put slot `x` in front of the free ones. -/
def Utmp.pushFree (t : Utmp) (x : Nat) : Utmp :=
  { t with
    guesthashNext := update t.guesthashNext x (t.guesthashHead 0)
    guesthashHead := update t.guesthashHead 0 x }

/-- The record the sweep leaves. -/
def UserInfo.kicked (u : UserInfo) : UserInfo :=
  { u with
    active := 0, pid := 0, invisible := 1, sockactive := 0, sockaddr := 0, destuid := 0
    lasttime := 0 }

/-- A web guest leaves its chain and is no longer counted as one. -/
def leaveChain (c : UtmpConf) (t : Utmp) (x : Nat) : Option Utmp :=
  if (t.uinfo x).isWwwGuest then
    (unlinkGuest c t x).map fun t => { t with wwwguestnum := ushortDec t.wwwguestnum }
  else some t

/-- The slot becomes a free one. -/
def freeSlot (c : UtmpConf) (t : Utmp) (x : Nat) : Utmp :=
  let t := t.pushFree x
  let t := { t with activeuser := ushortDec t.activeuser }
  let t := removeUindex c t (t.uinfo x).uid x
  { t with uinfo := update t.uinfo x (t.uinfo x).kicked }

/-- What the sweep makes of a slot that it takes. -/
def kickSlot (c : UtmpConf) (t : Utmp) (x : Nat) : Option Utmp :=
  (leaveChain c t x).map fun t => freeSlot c t x

/-- `utmp_kickidle`. -/
def utmpKickidle (c : UtmpConf) (t : Utmp) (now : Int) (alive : Nat → Bool) : Option Utmp :=
  if now < t.uptime + 60 ∧ t.uptime ≤ now then some t
  else
    (List.range' 1 c.maxactive).foldlM
      (fun t x => if idles (t.uinfo x) now (alive x) then kickSlot c t x else some t)
      { t with uptime := now }

/-! ## Login and logout -/

/-- The first free slot, which is `x`, gets the record. -/
def occupySlot (c : UtmpConf) (t : Utmp) (x : Nat) (up : UserInfo) : Utmp :=
  let t := { t with guesthashHead := update t.guesthashHead 0 (t.guesthashNext x) }
  let t := { t with guesthashNext := update t.guesthashNext x 0 }
  let t := { t with uinfo := update t.uinfo x up, activeuser := ushortInc t.activeuser }
  addUindex c (updateMaxOnline t) up.uid x

/-- A web guest enters the chain of its address and is counted. -/
def enterChain (c : UtmpConf) (t : Utmp) (x : Nat) (up : UserInfo) : Utmp :=
  if up.isWwwGuest then
    let h := utmpIphash c up.fromhost
    { t with
      guesthashNext := update t.guesthashNext x (t.guesthashHead h)
      guesthashHead := update t.guesthashHead h x
      wwwguestnum := ushortInc t.wwwguestnum }
  else t

/-- `utmp_login`, with the clock and the processes for its sweep. -/
def utmpLogin (c : UtmpConf) (t : Utmp) (up : UserInfo) (now : Int) (alive : Nat → Bool) :
    Option (Int × Utmp) :=
  let x := t.guesthashHead 0
  if x = 0 ∨ c.maxactiverun < x then some (-1, t)
  else if (t.uinfo x).active ≠ 0 ∧ (t.uinfo x).pid ≠ 0 then some (-1, t)
  else
    (utmpKickidle c (enterChain c (occupySlot c t x up) x up) now alive).map fun t => ((x : Int), t)

/-- `utmp_logout`; the slot is not 0. -/
def utmpLogout (c : UtmpConf) (t : Utmp) (utmpent : Int) (up : UserInfo) : Utmp :=
  let x := utmpent.toNat
  if utmpent < 0 then t
  else if (t.uinfo x).active = 0 then t
  else
    let t := removeUindex c t (t.uinfo x).uid x
    let t := { t with uinfo := update t.uinfo x up }
    let t := t.pushFree x
    { t with activeuser := ushortDec t.activeuser }

/-! ## Histories -/

/-- What happens to the table: a login, a logout, a sweep, or a session that
touches its record. -/
inductive UtmpEvent
  | login (up : UserInfo) (now : Int) (alive : Nat → Bool)
  | logout (utmpent : Int) (up : UserInfo)
  | kickidle (now : Int) (alive : Nat → Bool)
  | touch (x : Nat) (lasttime extIdle : Int) (iskicked : Bool)

/-- What the callers keep to: a record is active when it is stored by a login and
not when it is stored by a logout, and a web guest does not log out. -/
def UtmpEvent.Allowed (c : UtmpConf) (t : Utmp) : UtmpEvent → Prop
  | .login up _ _ => up.active ≠ 0 ∧ 1 ≤ up.pid
  | .logout utmpent up => up.active = 0 ∧ utmpent ≠ 0 ∧ utmpent ≤ c.maxactive ∧
      (0 < utmpent → (t.uinfo utmpent.toNat).active ≠ 0 →
        (t.uinfo utmpent.toNat).isWwwGuest = false)
  | .kickidle _ _ => True
  | .touch _ _ _ _ => True

instance (c : UtmpConf) (t : Utmp) (e : UtmpEvent) : Decidable (e.Allowed c t) := by
  cases e <;> unfold UtmpEvent.Allowed <;> infer_instance

/-- One event; `none` when a function does not return. -/
def utmpStep (c : UtmpConf) (t : Utmp) : UtmpEvent → Option Utmp
  | .login up now alive => (utmpLogin c t up now alive).map Prod.snd
  | .logout utmpent up => some (utmpLogout c t utmpent up)
  | .kickidle now alive => utmpKickidle c t now alive
  | .touch x lasttime extIdle iskicked =>
      some { t with uinfo := update t.uinfo x { t.uinfo x with lasttime, extIdle, iskicked } }

/-- A run's next state; from a function that does not return there is none. -/
def utmpNext (c : UtmpConf) (t : Option Utmp) (e : UtmpEvent) : Option (Option Utmp) :=
  t.bind fun t => if e.Allowed c t then some (utmpStep c t e) else none

end Ytht
