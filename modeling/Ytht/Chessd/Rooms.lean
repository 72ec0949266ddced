import Mathlib.Data.Fintype.Card
import Ytht.Lib.Bytes
import Ytht.Lib.Roster
import Ytht.Lib.Runs
import Ytht.Msg.Msgbox
import Ytht.Pop3.Session

/-!
# Chessd.Rooms

The rooms of the chess server, and who is in them: the slots of `uarray`, which keep
what the last client had when they are freed, and the commands.

`doexitroom` takes the first slot with the number of the room for its new owner,
whether a client is there or not (`freedSlot_becomesOwner`); `cmd_kick` and
`cmd_setowner` do not ask whether a client has logged in; the loop of `trydealinbuf`
goes on with a client that a command has removed; and the last one to leave a game
keeps its seat.  `rooms_run` is about the runs in which none of these happens.
-/

namespace Ytht

open Bytes Runs Function

/-! ## Slots and rooms -/

abbrev NUARRAY : Nat := 200

local instance neZero_nuarray : NeZero NUARRAY := ⟨by decide⟩

abbrev Slot := Fin NUARRAY

abbrev RoomNo := Fin 100

/-- The fields of `struct userarray` for the rooms. -/
structure ChessUser where
  /-- `fd >= 0` -/
  connected : Bool
  haslogin : Bool
  userid : List UInt8
  room : RoomNo

/-- What the games do with a board: `init`, `go` and `seatchanged` of a type.  They
write nothing else of a room. -/
structure Games (γ : Type) where
  init : Nat → γ
  go : Nat → (Fin 8 → Option Slot) → Slot → List UInt8 → γ → γ
  seatchanged : Nat → (Fin 8 → Option Slot) → γ → γ

/-- `chesslist[type].max`; the types but 0 have a game. -/
def chessMax (type : Nat) : Nat := if type = 0 then 0 else 2

variable {γ : Type} (g : Games γ)

/-- `struct Room`, without its title.  No owner and a free seat are -1, no board is
`NULL`. -/
structure Room (γ : Type) where
  name : List UInt8
  type : Nat
  nuser : Int
  owner : Option Slot
  seat : Fin 8 → Option Slot
  data : Option γ

/-- `seat[n]` changes, and the game is told. -/
def Room.setSeat (q : Room γ) (n : Fin 8) (who : Option Slot) : Room γ :=
  let seat := update q.seat n who
  { q with
    seat
    data := if q.type = 0 then q.data else q.data.map (g.seatchanged q.type seat) }

/-- `uarray` and `room`; and the client whose input the loop of `trydealinbuf` is
at, which a command may have removed. -/
structure Chessd (γ : Type) where
  user : Slot → ChessUser
  room : RoomNo → Room γ
  dealing : Option Slot

/-- `"ytht"` -/
def lobbyName : List UInt8 := [121, 116, 104, 116]

namespace Chessd

/-- `initarray`. -/
def initarray : Chessd γ where
  user _ := ⟨false, false, [], 0⟩
  room r :=
    if r = 0 then ⟨lobbyName, 0, 1, none, fun _ => some 0, none⟩
    else ⟨[], 0, 0, some 0, fun _ => some 0, none⟩
  dealing := none

variable (s : Chessd γ)

def setUser (i : Slot) (u : ChessUser) : Chessd γ := { s with user := update s.user i u }

def setRoom (r : RoomNo) (q : Room γ) : Chessd γ := { s with room := update s.room r q }

/-- The first slot after `i` with the number of a room. -/
def nextOwner (i : Slot) (r : RoomNo) : Option Slot :=
  ((List.range' 1 (NUARRAY - 1)).map fun n =>
    (⟨(n + i) % NUARRAY, Nat.mod_lt _ (by decide)⟩ : Slot)).find?
    fun k => (s.user k).room = r

end Chessd

/-- The part of `doexitroom` that is about the room, with the new owner found. -/
def Room.exit (q : Room γ) (i : Slot) (next : Option Slot) : Room γ :=
  let nuser := q.nuser - 1
  if nuser = 0 ∧ q.data.isSome then { q with nuser }
  else
    let owner := if q.owner = some i ∧ 0 < nuser then next else q.owner
    (List.finRange 8).foldl (fun q n => if q.seat n = some i then q.setSeat g n none else q)
      { q with nuser, owner }

/-- The part of `doenterroom` that is about the room. -/
def Room.enter (q : Room γ) (i : Slot) (name : List UInt8) : Room γ :=
  let q :=
    if q.nuser = 0 then
      { q with name, type := 0, data := none, owner := some i, seat := fun _ => none }
    else q
  { q with nuser := q.nuser + 1 }

namespace Chessd

variable (s : Chessd γ)

def doexitroom (i : Slot) : Chessd γ :=
  let r := (s.user i).room
  s.setRoom r ((s.room r).exit g i (s.nextOwner i r))

def doenterroom (i : Slot) (r : RoomNo) (name : List UInt8) : Chessd γ :=
  (s.setRoom r ((s.room r).enter i name)).setUser i { s.user i with room := r }

/-- `newuser`, when a connection is accepted. -/
def newuser : Chessd γ :=
  match (List.finRange NUARRAY).find? fun i => (s.user i).connected = false with
  | none => s
  | some i => s.setUser i { s.user i with connected := true, haslogin := false }

def removeuser (i : Slot) : Chessd γ :=
  if (s.user i).connected = false then s
  else
    let s := if (s.user i).haslogin then s.doexitroom g i else s
    s.setUser i { s.user i with connected := false }

end Chessd

/-! ## Commands -/

/-- A message in the buffer of `dealinbuf`: what is there from `data` on, behind the
message too. -/
structure ChessMsg where
  len : Int
  cmd : UInt8
  data : List UInt8

/-- The text in `data` when byte `last` of it is set to 0. -/
def ChessMsg.upTo (m : ChessMsg) (last : Int) : List UInt8 :=
  cString (if last < 0 then m.data else m.data.take last.toNat)

namespace Chessd

variable (s : Chessd γ) (i : Slot) (m : ChessMsg)

def cmdLogin : Chessd γ :=
  if (s.user i).haslogin then s
  else if m.len < 6 then s.removeuser g i
  else
    let userid := m.upTo (m.len - 4)
    if 14 ≤ userid.length then s.removeuser g i
    else if (List.finRange NUARRAY).any fun n =>
        (s.user n).connected && n != i && (s.user n).haslogin &&
          strcasecmp userid (s.user n).userid then
      s.removeuser g i
    else (s.setUser i { s.user i with haslogin := true, userid }).doenterroom i 0 lobbyName

/-- The room of a name, or else an empty one. -/
def findRoom (name : List UInt8) : Option RoomNo :=
  ((List.finRange 100).find? fun n => (s.room n).nuser ≠ 0 ∧ strcasecmp (s.room n).name name).or
    ((List.finRange 100).find? fun n => (s.room n).nuser = 0)

/-- The room that `cmd_intoroom` goes to, with the name that it was given. -/
def intoroomTarget : Option (RoomNo × List UInt8) :=
  if (s.user i).haslogin = false then none
  else
    match scanWord (m.upTo (if m.len - 4 ≥ 20 then 19 else m.len - 4)) with
    | none => none
    | some name =>
        if 12 < name.length ∨ name.length < 1 then none
        else
          match s.findRoom name with
          | none => none
          | some n => if n = (s.user i).room then none else some (n, name)

def cmdIntoroom : Chessd γ :=
  match s.intoroomTarget i m with
  | none => s
  | some (n, name) => (s.doexitroom g i).doenterroom i n name

/-- A move in the game of the room. -/
def cmdChess : Chessd γ :=
  let r := (s.user i).room
  let q := s.room r
  if (s.user i).haslogin = false ∨ q.type = 0 then s
  else s.setRoom r { q with data := q.data.map (g.go q.type q.seat i m.data) }

def cmdType : Chessd γ :=
  let r := (s.user i).room
  let q := s.room r
  if (s.user i).haslogin = false then s
  else
    match scanInt (m.upTo (m.len - 3 - 1)) with
    | none => s
    | some type =>
        if type < 0 ∨ type ≥ 4 then s
        else if r = 0 then s
        else if q.type ≠ 0 ∧ q.owner ≠ some i then s
        else if type = q.type then s
        else
          s.setRoom r { q with
            seat := fun _ => none
            type := type.toNat
            data := if type = 0 then none else some (g.init type.toNat) }

def cmdSeat : Chessd γ :=
  let r := (s.user i).room
  let q := s.room r
  if (s.user i).haslogin = false then s
  else if h : 0 ≤ atoi m.data ∧ (atoi m.data).toNat < chessMax q.type ∧
      (atoi m.data).toNat < 8 then
    let n : Fin 8 := ⟨(atoi m.data).toNat, h.2.2⟩
    if q.seat n ≠ none ∧ q.seat n ≠ some i then s
    else s.setRoom r (q.setSeat g n (if q.seat n ≠ some i then some i else none))
  else s

/-- The client that an owner names in `cmd_kick` and `cmd_setowner`. -/
def named : Option Slot :=
  let r := (s.user i).room
  if (s.user i).haslogin = false then none
  else if (s.room r).owner ≠ some i then none
  else
    match scanWord (m.upTo (if m.len - 4 > 39 then 39 else m.len - 4)) with
    | none => none
    | some who =>
        if 19 ≤ who.length then none
        else
          (List.finRange NUARRAY).find? fun n =>
            (s.user n).connected ∧ (s.user n).room = r ∧ (s.user n).userid = who

def cmdKick : Chessd γ :=
  match s.named i m with
  | none => s
  | some n =>
      if (s.user i).room = 0 then s.removeuser g n
      else (s.doexitroom g n).doenterroom n 0 lobbyName

def cmdSetowner : Chessd γ :=
  match s.named i m with
  | none => s
  | some n =>
      if n = i then s
      else
        let r := (s.user i).room
        s.setRoom r { s.room r with owner := some n }

/-- `ecmdlist`.  The lists of rooms and users and what is said change nothing here. -/
def command : Chessd γ :=
  match m.cmd.toNat with
  | 0 => s.cmdLogin g i m
  | 1 => s.removeuser g i
  | 4 => s.cmdIntoroom g i m
  | 6 => s.cmdChess g i m
  | 7 => s.cmdType g i m
  | 8 => s.cmdSeat g i m
  | 9 => s.cmdKick g i m
  | 10 => s.cmdSetowner i m
  | _ => s

/-! ## The server -/

end Chessd

inductive ChessEvent where
  /-- A connection is accepted. -/
  | newuser
  /-- The connection of a client is lost, or what it sends is no message. -/
  | remove (i : Slot)
  /-- A message of a client is dealt with. -/
  | command (i : Slot) (m : ChessMsg)

namespace Chessd

/-- One event.  The loop of `trydealinbuf` starts with a connected client, but does
not end when a command removes it: it reads on in the freed buffer. -/
def chessStep (s : Chessd γ) : ChessEvent → Option (Chessd γ)
  | .newuser => some { s.newuser with dealing := none }
  | .remove i =>
      if (s.user i).connected then some { s.removeuser g i with dealing := none } else none
  | .command i m =>
      if (s.user i).connected ∨ s.dealing = some i then
        some { s.command g i m with dealing := some i }
      else none

/-! ## Who is in a room -/

end Chessd

/-- The room of a client that is connected and logged in. -/
def ChessUser.place (u : ChessUser) : Option RoomNo :=
  if u.connected && u.haslogin then some u.room else none

namespace Chessd

variable (s : Chessd γ)

def place (i : Slot) : Option RoomNo := (s.user i).place

/-- The counts, the owners and the seats of the rooms are right.  A game has `max`
seats. -/
structure Right : Prop where
  nuser : ∀ r, (s.room r).nuser = Roster.count s.place r + if r = 0 then 1 else 0
  owner : ∀ r, r ≠ 0 → (s.room r).nuser ≠ 0 →
    ∃ k, (s.room r).owner = some k ∧ s.place k = some r
  seat : ∀ r (n : Fin 8) k, n.val < chessMax (s.room r).type → (s.room r).seat n = some k →
    s.place k = some r

/-- The client that a kick hits. -/
def kicked : ChessEvent → Option Slot
  | .command i m => if m.cmd = 9 then s.named i m else none
  | _ => none

/-- A client can leave its room: the next slot with the number of the room, which may
have to become the owner, is that of a client that is there; and the last one to leave
a game has no seat. -/
def LeavesWell (i : Slot) : Prop :=
  let r := (s.user i).room
  let q := s.room r
  (q.owner = some i → 1 < q.nuser →
    ∀ k ∈ s.nextOwner i r, (s.user k).connected ∧ (s.user k).haslogin) ∧
  (q.nuser = 1 → q.data.isSome → ∀ n, q.seat n ≠ some i)

instance (i : Slot) : Decidable (s.LeavesWell i) := by
  unfold LeavesWell
  exact inferInstance

/-- The steps that keep the rooms right: a client that was removed gives no command,
one that is named by an owner has logged in, and one that leaves a room can. -/
def KeepsRooms : ChessEvent → Prop
  | .newuser => True
  | .remove i => (s.user i).haslogin → s.LeavesWell i
  | .command i m => (s.user i).connected ∧
      match m.cmd.toNat with
      | 1 => (s.user i).haslogin → s.LeavesWell i
      | 4 => (s.intoroomTarget i m).isSome → s.LeavesWell i
      | 9 => ∀ n ∈ s.named i m, (s.user n).haslogin ∧ s.LeavesWell n
      | 10 => ∀ n ∈ s.named i m, (s.user n).haslogin
      | _ => True

instance (e : ChessEvent) : Decidable (s.KeepsRooms e) := by
  cases e with
  | newuser => exact inferInstanceAs (Decidable True)
  | remove i => exact inferInstanceAs (Decidable ((s.user i).haslogin → s.LeavesWell i))
  | command i m =>
      unfold KeepsRooms
      simp only
      refine @instDecidableAnd _ _ inferInstance ?_
      split <;> exact inferInstance

end Chessd

/-! ## One room -/

/-- A room is right for who is where.  The lobby has no owner and no game. -/
structure Room.Ok (q : Room γ) (r : RoomNo) (place : Slot → Option RoomNo) : Prop where
  nuser : q.nuser = Roster.count place r + if r = 0 then 1 else 0
  owner : r ≠ 0 → q.nuser ≠ 0 → ∃ k, q.owner = some k ∧ place k = some r
  seat : ∀ (n : Fin 8) k, n.val < chessMax q.type → q.seat n = some k → place k = some r
  lobby : r = 0 → q.owner = none ∧ q.type = 0

section room

variable {q : Room γ} {r : RoomNo} {place : Slot → Option RoomNo} {i : Slot} {next : Option Slot}

/-- Who comes and goes elsewhere does not matter to a room. -/
theorem Room.Ok.elsewhere (h : q.Ok r place) {v : Option RoomNo} (hi : place i ≠ some r)
    (hv : v ≠ some r) : q.Ok r (update place i v) := by
  have hkept : ∀ k, place k = some r → update place i v k = some r := by
    intro k hk
    have hki : k ≠ i := by
      rintro rfl
      exact hi hk
    rw [update_of_ne hki, hk]
  refine ⟨?_, fun hr hne => ?_, fun n k hn hk => hkept k (h.seat n k hn hk), h.lobby⟩
  · rw [h.nuser, Roster.count_elsewhere hi hv]
  · obtain ⟨k, hk, hplace⟩ := h.owner hr hne
    exact ⟨k, hk, hkept k hplace⟩

@[simp] theorem Room.setSeat_nuser (q : Room γ) (n : Fin 8) (who : Option Slot) :
    (q.setSeat g n who).nuser = q.nuser := rfl

@[simp] theorem Room.setSeat_owner (q : Room γ) (n : Fin 8) (who : Option Slot) :
    (q.setSeat g n who).owner = q.owner := rfl

@[simp] theorem Room.setSeat_type (q : Room γ) (n : Fin 8) (who : Option Slot) :
    (q.setSeat g n who).type = q.type := rfl

@[simp] theorem Room.setSeat_seat (q : Room γ) (n : Fin 8) (who : Option Slot) :
    (q.setSeat g n who).seat = update q.seat n who := rfl

/-- Clearing the seats of a client leaves those of the others. -/
theorem Room.clear_spec (i : Slot) (ns : List (Fin 8)) (q : Room γ) :
    let q' := ns.foldl (fun q n => if q.seat n = some i then q.setSeat g n none else q) q
    q'.nuser = q.nuser ∧ q'.owner = q.owner ∧ q'.type = q.type ∧
      ∀ n k, q'.seat n = some k → q.seat n = some k ∧ (n ∈ ns → k ≠ i) := by
  induction ns generalizing q with
  | nil => exact ⟨rfl, rfl, rfl, fun n k hk => ⟨hk, fun hn => absurd hn List.not_mem_nil⟩⟩
  | cons m ns ih =>
      obtain ⟨hnuser, howner, htype, hseat⟩ := ih (if q.seat m = some i then q.setSeat g m none else q)
      rw [List.foldl_cons]
      by_cases hm : q.seat m = some i
      · rw [if_pos hm] at hnuser howner htype hseat ⊢
        refine ⟨hnuser, howner, htype, fun n k hk => ?_⟩
        obtain ⟨hold, hne⟩ := hseat n k hk
        rw [Room.setSeat_seat] at hold
        by_cases hn : n = m
        · subst hn
          rw [update_self] at hold
          contradiction
        · rw [update_of_ne hn] at hold
          exact ⟨hold, fun hmem => hne ((List.mem_cons.mp hmem).resolve_left hn)⟩
      · rw [if_neg hm] at hnuser howner htype hseat ⊢
        refine ⟨hnuser, howner, htype, fun n k hk => ?_⟩
        obtain ⟨hold, hne⟩ := hseat n k hk
        refine ⟨hold, fun hmem => ?_⟩
        cases List.mem_cons.mp hmem with
        | inl hn =>
            rintro rfl
            rw [hn] at hold
            exact hm hold
        | inr hn => exact hne hn

/-- What `doexitroom` leaves of a room. -/
theorem Room.exit_spec (q : Room γ) (i : Slot) (next : Option Slot) :
    (q.exit g i next).nuser = q.nuser - 1 ∧ (q.exit g i next).type = q.type ∧
      (q.exit g i next).owner = (if q.owner = some i ∧ 1 < q.nuser then next else q.owner) ∧
      ∀ n k, (q.exit g i next).seat n = some k → q.seat n = some k ∧
        (k ≠ i ∨ q.nuser = 1 ∧ q.data.isSome) := by
  by_cases hlast : q.nuser - 1 = 0 ∧ q.data.isSome
  · have hone : ¬ (1 < q.nuser) := by omega
    have hexit : q.exit g i next = { q with nuser := q.nuser - 1 } := by
      unfold Room.exit
      rw [if_pos hlast]
    rw [hexit, if_neg (fun h => hone h.2)]
    exact ⟨rfl, rfl, rfl, fun n k hk => ⟨hk, Or.inr ⟨by omega, hlast.2⟩⟩⟩
  · have hspec := Room.clear_spec g i (List.finRange 8) { q with
      nuser := q.nuser - 1
      owner := if q.owner = some i ∧ 0 < q.nuser - 1 then next else q.owner }
    have hexit : q.exit g i next = _ := if_neg hlast
    rw [hexit]
    obtain ⟨hnuser, howner, htype, hseat⟩ := hspec
    have hpos : 0 < q.nuser - 1 ↔ 1 < q.nuser := by omega
    refine ⟨hnuser, htype, by rw [howner]; simp only [hpos], fun n k hk => ?_⟩
    obtain ⟨hold, hne⟩ := hseat n k hk
    exact ⟨hold, Or.inl (hne (List.mem_finRange n))⟩

/-- **A client leaves a room.** -/
theorem Room.Ok.exit (h : q.Ok r place) (hi : place i = some r)
    (hnext : q.owner = some i → 1 < q.nuser → ∃ k, k ≠ i ∧ next = some k ∧ place k = some r)
    (hseats : q.nuser = 1 → q.data.isSome → ∀ n, q.seat n ≠ some i) :
    (q.exit g i next).Ok r (update place i none) := by
  obtain ⟨hnuser, htype, howner, hseat⟩ := Room.exit_spec g q i next
  have hcount := Roster.count_leave hi
  have hold := h.nuser
  refine ⟨?_, fun hr hne => ?_, fun n k hn hk => ?_, fun hr => ?_⟩
  · rw [hnuser]
    omega
  · rw [if_neg hr] at hold
    have hmore : 1 < q.nuser := by omega
    by_cases hown : q.owner = some i
    · obtain ⟨k, hki, hk, hplace⟩ := hnext hown hmore
      refine ⟨k, ?_, by rw [update_of_ne hki, hplace]⟩
      rw [howner, if_pos ⟨hown, hmore⟩, hk]
    · obtain ⟨k, hk, hplace⟩ := h.owner hr (by omega)
      have hki : k ≠ i := by
        rintro rfl
        exact hown hk
      refine ⟨k, ?_, by rw [update_of_ne hki, hplace]⟩
      rw [howner, if_neg (fun hboth => hown hboth.1), hk]
  · rw [htype] at hn
    obtain ⟨hkept, hki⟩ := hseat n k hk
    have hne : k ≠ i := by
      cases hki with
      | inl hne => exact hne
      | inr hlast =>
          rintro rfl
          exact hseats hlast.1 hlast.2 n hkept
    rw [update_of_ne hne]
    exact h.seat n k hn hkept
  · obtain ⟨hnone, hzero⟩ := h.lobby hr
    rw [htype, howner, hnone]
    exact ⟨by simp, hzero⟩

/-- **A client enters a room.** -/
theorem Room.Ok.enter (h : q.Ok r place) (hi : place i = none) (name : List UInt8) :
    (q.enter i name).Ok r (update place i (some r)) := by
  have hnuser := h.nuser
  have hcount : Roster.count (update place i (some r)) r = Roster.count place r + 1 :=
    Roster.count_enter (by simp [hi])
  have hkept : ∀ k, place k = some r → update place i (some r) k = some r := by
    intro k hk
    by_cases hki : k = i
    · rw [hki, update_self]
    · rw [update_of_ne hki, hk]
  unfold Room.enter
  by_cases hempty : q.nuser = 0
  · rw [if_pos hempty]
    have hr : r ≠ 0 := by
      rintro rfl
      rw [if_pos rfl] at hnuser
      omega
    refine ⟨?_, fun _ _ => ⟨i, rfl, update_self ..⟩, fun n k _ hk => ?_, fun h0 => absurd h0 hr⟩
    · show q.nuser + 1 = _
      rw [hcount]
      omega
    · contradiction
  · rw [if_neg hempty]
    refine ⟨?_, fun hr _ => ?_, fun n k hn hk => hkept k (h.seat n k hn hk), h.lobby⟩
    · show q.nuser + 1 = _
      rw [hcount]
      omega
    · obtain ⟨k, hk, hplace⟩ := h.owner hr hempty
      exact ⟨k, hk, hkept k hplace⟩

/-- The board does not matter. -/
theorem Room.Ok.withData (h : q.Ok r place) (data : Option γ) : Room.Ok { q with data } r place :=
  ⟨h.nuser, h.owner, h.seat, h.lobby⟩

/-- A seat is freed, or given to a client in the room. -/
theorem Room.Ok.setSeat (h : q.Ok r place) {n : Fin 8} {who : Option Slot}
    (hwho : ∀ k, who = some k → place k = some r) : (q.setSeat g n who).Ok r place := by
  refine ⟨h.nuser, h.owner, fun m k hm hk => ?_, h.lobby⟩
  rw [Room.setSeat_seat] at hk
  by_cases hmn : m = n
  · subst hmn
    rw [update_self] at hk
    exact hwho k hk
  · rw [update_of_ne hmn] at hk
    exact h.seat m k hm hk

end room

/-! ## All rooms -/

namespace Chessd

/-- The invariant: every room is right. -/
def Inv (s : Chessd γ) : Prop := ∀ r, (s.room r).Ok r s.place

variable {s s' : Chessd γ} {i : Slot} {r : RoomNo}

theorem Inv.right (h : s.Inv) : s.Right where
  nuser r := (h r).nuser
  owner r := (h r).owner
  seat r := (h r).seat

theorem place_eq_some :
    s.place i = some r ↔
      (s.user i).connected = true ∧ (s.user i).haslogin = true ∧ (s.user i).room = r := by
  unfold place ChessUser.place
  cases (s.user i).connected <;> cases (s.user i).haslogin <;> simp

theorem place_setUser (u : ChessUser) : (s.setUser i u).place = update s.place i u.place := by
  funext k
  unfold place setUser
  by_cases hk : k = i
  · subst hk
    simp only [update_self]
  · simp only [update_of_ne hk]

/-- Only one room changes. -/
theorem Inv.setRoom (h : s.Inv) {q : Room γ} (hq : q.Ok r s.place) : (s.setRoom r q).Inv := by
  intro k
  show (update s.room r q k).Ok k s.place
  by_cases hk : k = r
  · subst hk
    rw [update_self]
    exact hq
  · rw [update_of_ne hk]
    exact h k

/-- The slots after `i` are all but `i`. -/
theorem mem_slotsAfter {i k : Slot} :
    k ∈ (List.range' 1 (NUARRAY - 1)).map
        (fun n => (⟨(n + i) % NUARRAY, Nat.mod_lt _ (by decide)⟩ : Slot)) ↔ k ≠ i := by
  have hi : i.val < 200 := i.isLt
  have hk : k.val < 200 := k.isLt
  rw [List.mem_map]
  constructor
  · rintro ⟨n, hn, rfl⟩ heq
    have hn : 1 ≤ n ∧ n < 1 + 199 := List.mem_range'_1.mp hn
    have hval : (n + i.val) % 200 = i.val := congrArg Fin.val heq
    omega
  · intro hne
    have hval : k.val ≠ i.val := fun heq => hne (Fin.ext heq)
    refine ⟨(k.val + 200 - i.val) % 200, List.mem_range'_1.mpr ?_, Fin.ext ?_⟩
    · show 1 ≤ _ ∧ _ < 1 + 199
      omega
    · show ((k.val + 200 - i.val) % 200 + i.val) % 200 = k.val
      omega

/-- `nextOwner` finds another slot with the number of the room, when there is one. -/
theorem nextOwner_spec {k : Slot} (hk : s.nextOwner i r = some k) :
    k ≠ i ∧ (s.user k).room = r := by
  unfold nextOwner at hk
  have hroom := List.find?_some hk
  exact ⟨mem_slotsAfter.mp (List.mem_of_find?_eq_some hk), of_decide_eq_true hroom⟩

theorem nextOwner_isSome {k : Slot} (hk : k ≠ i) (hroom : (s.user k).room = r) :
    (s.nextOwner i r).isSome := by
  unfold nextOwner
  rw [List.find?_isSome]
  exact ⟨k, mem_slotsAfter.mpr hk, decide_eq_true hroom⟩

/-- `doexitroom`, for a client that goes nowhere or elsewhere afterwards. -/
theorem Inv.doexitroom (h : s.Inv) (hi : s.place i = some r) (hok : s.LeavesWell i) (k : RoomNo) :
    ((s.doexitroom g i).room k).Ok k (update s.place i none) := by
  obtain ⟨-, -, hroom⟩ := place_eq_some.mp hi
  unfold LeavesWell at hok
  obtain ⟨hnext, hseats⟩ := hok
  rw [hroom] at hnext hseats
  have hr := h r
  show (update s.room (s.user i).room _ k).Ok k _
  rw [hroom]
  by_cases hk : k = r
  · subst hk
    rw [update_self]
    refine hr.exit g hi (fun hown hmore => ?_) hseats
    have hzero : k ≠ 0 := by
      intro hzero
      rw [(hr.lobby hzero).1] at hown
      contradiction
    have hcount := hr.nuser
    rw [if_neg hzero] at hcount
    obtain ⟨other, hne, hother⟩ := Roster.exists_other_of_count hi (by omega)
    obtain ⟨-, -, hotherRoom⟩ := place_eq_some.mp hother
    obtain ⟨new, hnew⟩ := Option.isSome_iff_exists.mp (nextOwner_isSome hne hotherRoom)
    obtain ⟨hnewNe, hnewRoom⟩ := nextOwner_spec hnew
    obtain ⟨hconn, hlogin⟩ := hnext hown hmore new hnew
    exact ⟨new, hnewNe, hnew, place_eq_some.mpr ⟨hconn, hlogin, hnewRoom⟩⟩
  · rw [update_of_ne hk]
    refine (h k).elsewhere ?_ (by simp)
    rw [hi]
    exact fun heq => hk (Option.some.inj heq).symm

/-- `doenterroom`, for a client that is in no room. -/
theorem doenterroom_inv {place : Slot → Option RoomNo} (h : ∀ k, (s.room k).Ok k place)
    (hi : place i = none) (hothers : ∀ k, k ≠ i → s.place k = place k)
    (hconn : (s.user i).connected = true) (hlogin : (s.user i).haslogin = true)
    (name : List UInt8) : (s.doenterroom i r name).Inv := by
  have hplace : (s.doenterroom i r name).place = update place i (some r) := by
    have hself : (ChessUser.place { s.user i with room := r }) = some r := by
      unfold ChessUser.place
      rw [if_pos (by rw [hconn, hlogin]; rfl)]
    unfold Chessd.doenterroom
    rw [place_setUser, hself]
    funext k
    by_cases hk : k = i
    · subst hk
      simp only [update_self]
    · rw [update_of_ne hk, update_of_ne hk]
      exact hothers k hk
  intro k
  rw [hplace]
  show (update s.room r _ k).Ok k _
  by_cases hk : k = r
  · subst hk
    rw [update_self]
    exact (h k).enter hi name
  · rw [update_of_ne hk]
    refine (h k).elsewhere (by simp [hi]) ?_
    exact fun heq => hk (Option.some.inj heq).symm

/-- A client goes to another room. -/
theorem Inv.move (h : s.Inv) {k : RoomNo} (hi : s.place i = some r) (hok : s.LeavesWell i)
    (name : List UInt8) : ((s.doexitroom g i).doenterroom i k name).Inv := by
  obtain ⟨hconn, hlogin, -⟩ := place_eq_some.mp hi
  refine doenterroom_inv (h.doexitroom g hi hok) (update_self ..) ?_ hconn hlogin name
  intro n hn
  rw [update_of_ne hn]
  rfl

/-- A client that has logged in is removed. -/
theorem removeuser_member (hconn : (s.user i).connected = true)
    (hlogin : (s.user i).haslogin = true) :
    s.removeuser g i = (s.doexitroom g i).setUser i { s.user i with connected := false } := by
  unfold Chessd.removeuser
  rw [hconn, hlogin]
  rfl

/-- A client that has not logged in is removed. -/
theorem removeuser_stranger (hconn : (s.user i).connected = true)
    (hlogin : (s.user i).haslogin = false) :
    s.removeuser g i = s.setUser i { s.user i with connected := false } := by
  unfold Chessd.removeuser
  rw [hconn, hlogin]
  rfl

theorem removeuser_freed (hconn : (s.user i).connected = false) : s.removeuser g i = s := by
  unfold Chessd.removeuser
  rw [if_pos hconn]

/-- A slot without a member changes, and still has none. -/
theorem Inv.setUser (h : s.Inv) {u : ChessUser} (hi : s.place i = none) (hu : u.place = none) :
    (s.setUser i u).Inv := by
  intro k
  rw [place_setUser, hu, ← hi, update_eq_self]
  exact h k

theorem place_stranger {u : ChessUser} (h : u.haslogin = false) : u.place = none := by
  unfold ChessUser.place
  rw [h, Bool.and_false]
  rfl

theorem place_freed {u : ChessUser} (h : u.connected = false) : u.place = none := by
  unfold ChessUser.place
  rw [h, Bool.false_and]
  rfl

theorem Inv.removeuser (h : s.Inv) (hok : (s.user i).haslogin = true → s.LeavesWell i) :
    (s.removeuser g i).Inv := by
  cases hconn : (s.user i).connected with
  | false =>
      rw [removeuser_freed g hconn]
      exact h
  | true =>
      cases hlogin : (s.user i).haslogin with
      | true =>
          have hi := place_eq_some.mpr ⟨hconn, hlogin, rfl⟩
          intro k
          rw [removeuser_member g hconn hlogin, place_setUser, place_freed rfl]
          exact h.doexitroom g hi (hok hlogin) k
      | false =>
          rw [removeuser_stranger g hconn hlogin]
          exact h.setUser (place_stranger hlogin) (place_freed rfl)

theorem newuser_inv (h : s.Inv) : s.newuser.Inv := by
  unfold newuser
  split
  · exact h
  · next i hi =>
      have hfree := List.find?_some hi
      exact h.setUser (place_freed (of_decide_eq_true hfree)) (place_stranger rfl)

/-! ## The commands -/

variable {m : ChessMsg}

theorem cmdLogin_inv (h : s.Inv) (hconn : (s.user i).connected = true) :
    (s.cmdLogin g i m).Inv := by
  unfold cmdLogin
  cases hlogin : (s.user i).haslogin with
  | true =>
      rw [if_pos rfl]
      exact h
  | false =>
      have hremoved : (s.removeuser g i).Inv := by
        refine h.removeuser g fun htrue => ?_
        rw [hlogin] at htrue
        contradiction
      rw [if_neg Bool.false_ne_true]
      split
      · exact hremoved
      · dsimp only
        split
        · exact hremoved
        · split
          · exact hremoved
          · refine @doenterroom_inv _ (s.setUser i _) i 0 s.place h (place_stranger hlogin) ?_ ?_ ?_ _
            · intro k hk
              rw [place_setUser, update_of_ne hk]
            · show (update s.user i _ i).connected = true
              rw [update_self]
              exact hconn
            · show (update s.user i _ i).haslogin = true
              rw [update_self]

theorem haslogin_of_intoroomTarget (h : (s.intoroomTarget i m).isSome) :
    (s.user i).haslogin = true := by
  cases hlogin : (s.user i).haslogin with
  | true => rfl
  | false =>
      unfold intoroomTarget at h
      rw [if_pos hlogin] at h
      contradiction

theorem cmdIntoroom_inv (h : s.Inv) (hconn : (s.user i).connected = true)
    (hok : (s.intoroomTarget i m).isSome → s.LeavesWell i) : (s.cmdIntoroom g i m).Inv := by
  unfold cmdIntoroom
  split
  · exact h
  · next n name htarget =>
      have hsome : (s.intoroomTarget i m).isSome := by
        rw [htarget]
        rfl
      have hi := place_eq_some.mpr ⟨hconn, haslogin_of_intoroomTarget hsome, rfl⟩
      exact h.move g hi (hok hsome) name

theorem cmdChess_inv (h : s.Inv) : (s.cmdChess g i m).Inv := by
  unfold cmdChess
  dsimp only
  split
  · exact h
  · exact h.setRoom (Room.Ok.withData (h _) _)

theorem cmdType_inv (h : s.Inv) : (s.cmdType g i m).Inv := by
  have hr := h (s.user i).room
  unfold cmdType
  dsimp only
  split
  · exact h
  split
  · exact h
  · split
    · exact h
    · split
      · exact h
      · next hzero =>
          split
          · exact h
          · split
            · exact h
            · refine h.setRoom ⟨hr.nuser, hr.owner, ?_, fun hr0 => absurd hr0 hzero⟩
              intro n k _ hk
              contradiction

theorem cmdSeat_inv (h : s.Inv) (hconn : (s.user i).connected = true) :
    (s.cmdSeat g i m).Inv := by
  unfold cmdSeat
  dsimp only
  cases hlogin : (s.user i).haslogin with
  | false =>
      rw [if_pos rfl]
      exact h
  | true =>
      have hi := place_eq_some.mpr ⟨hconn, hlogin, rfl⟩
      rw [if_neg (by simp)]
      split
      · split
        · exact h
        · refine h.setRoom ((h _).setSeat g ?_)
          intro k hk
          split at hk
          · cases hk
            exact hi
          · contradiction
      · exact h

/-- Who is named by an owner is connected and in the room, which is not the lobby. -/
theorem named_spec (h : s.Inv) {n : Slot} (hn : s.named i m = some n) :
    (s.user i).haslogin = true ∧ (s.user i).room ≠ 0 ∧ (s.user n).connected = true ∧
      (s.user n).room = (s.user i).room := by
  unfold named at hn
  dsimp only at hn
  split at hn
  · contradiction
  · next hlogin =>
      split at hn
      · contradiction
      · next howner =>
          split at hn
          · contradiction
          · split at hn
            · contradiction
            · have hfound := List.find?_some hn
              have hfound := of_decide_eq_true hfound
              rw [Bool.not_eq_false] at hlogin
              refine ⟨hlogin, ?_, hfound.1, hfound.2.1⟩
              intro hzero
              rw [not_not, ((h _).lobby hzero).1] at howner
              contradiction

theorem cmdKick_inv (h : s.Inv)
    (hok : ∀ n ∈ s.named i m, (s.user n).haslogin ∧ s.LeavesWell n) : (s.cmdKick g i m).Inv := by
  unfold cmdKick
  split
  · exact h
  · next n hn =>
      obtain ⟨-, hroom, hconn, hsame⟩ := named_spec h hn
      obtain ⟨hlogin, hleaves⟩ := hok n hn
      rw [if_neg hroom]
      exact h.move g (place_eq_some.mpr ⟨hconn, hlogin, hsame⟩) hleaves lobbyName

theorem cmdSetowner_inv (h : s.Inv) (hok : ∀ n ∈ s.named i m, (s.user n).haslogin) :
    (s.cmdSetowner i m).Inv := by
  unfold cmdSetowner
  split
  · exact h
  · next n hn =>
      obtain ⟨-, hroom, hconn, hsame⟩ := named_spec h hn
      have hr := h (s.user i).room
      split
      · exact h
      · refine h.setRoom ⟨hr.nuser, ?_, hr.seat, fun hzero => absurd hzero hroom⟩
        intro _ _
        exact ⟨n, rfl, place_eq_some.mpr ⟨hconn, hok n hn, hsame⟩⟩

theorem command_inv (h : s.Inv) (hok : s.KeepsRooms (.command i m)) : (s.command g i m).Inv := by
  unfold KeepsRooms at hok
  obtain ⟨hconn, hok⟩ := hok
  unfold command
  split
  · exact cmdLogin_inv g h hconn
  · next hcmd =>
      simp only [hcmd] at hok
      exact h.removeuser g hok
  · next hcmd =>
      simp only [hcmd] at hok
      exact cmdIntoroom_inv g h hconn hok
  · exact cmdChess_inv g h
  · exact cmdType_inv g h
  · exact cmdSeat_inv g h hconn
  · next hcmd =>
      simp only [hcmd] at hok
      exact cmdKick_inv g h hok
  · next hcmd =>
      simp only [hcmd] at hok
      exact cmdSetowner_inv h hok
  · exact h

/-! ## Runs -/

theorem initarray_inv : (initarray : Chessd γ).Inv := by
  have hplace : (initarray : Chessd γ).place = fun _ => none := rfl
  intro r
  rw [hplace]
  unfold initarray
  dsimp only
  by_cases hr : r = 0
  · rw [if_pos hr]
    refine ⟨?_, fun hne => absurd hr hne, fun n k hn => absurd hn (Nat.not_lt_zero _),
      fun _ => ⟨rfl, rfl⟩⟩
    rw [Roster.count_none, if_pos hr]
    rfl
  · rw [if_neg hr]
    refine ⟨?_, fun _ hne => absurd rfl hne, fun n k hn => absurd hn (Nat.not_lt_zero _),
      fun h0 => absurd h0 hr⟩
    rw [Roster.count_none, if_neg hr]
    rfl

theorem chessStep_inv (h : s.Inv) {e : ChessEvent} (hok : s.KeepsRooms e)
    (hstep : s.chessStep g e = some s') : s'.Inv := by
  cases e with
  | newuser =>
      cases hstep
      exact newuser_inv h
  | remove i =>
      simp only [chessStep] at hstep
      split at hstep
      · cases hstep
        exact h.removeuser g hok
      · contradiction
  | command i m =>
      simp only [chessStep] at hstep
      split at hstep
      · cases hstep
        exact command_inv g h hok
      · contradiction

/-- **The rooms are right** after every run of steps that keep them so, and a kick that
does hits a client that is in the room. -/
theorem rooms_run {es : List ChessEvent}
    (hrun : Run (when KeepsRooms (chessStep g)) initarray es s) :
    s.Right ∧ ∀ e n, s.KeepsRooms e → s.kicked e = some n → ∃ r, r ≠ 0 ∧ s.place n = some r := by
  have hinv := hrun.invariant_when Inv initarray_inv fun _ _ _ h hok => chessStep_inv g h hok
  refine ⟨hinv.right, fun e n hok hn => ?_⟩
  cases e with
  | newuser => contradiction
  | remove i => contradiction
  | command i m =>
      simp only [kicked] at hn
      split at hn
      · next hcmd =>
          unfold KeepsRooms at hok
          simp only [hcmd] at hok
          obtain ⟨-, hroom, hconn, hsame⟩ := named_spec hinv hn
          exact ⟨_, hroom, place_eq_some.mpr ⟨hconn, (hok.2 n hn).1, hsame⟩⟩
      · contradiction

/-- No boards. -/
def noGames : Games Unit := ⟨fun _ => (), fun _ _ _ _ b => b, fun _ _ b => b⟩

def chessMsg (cmd : UInt8) (text : List UInt8) : ChessMsg := ⟨4 + text.length, cmd, text ++ [0]⟩

/-- A new client logs in and goes to a room. -/
def arrive (i : Slot) (userid name : List UInt8) : List ChessEvent :=
  [.newuser, .command i (chessMsg 0 userid), .command i (chessMsg 4 name)]

/-- Clients `aa`, `bb` and `cc` in room `r`. -/
def threeInRoom : List ChessEvent :=
  arrive 0 [97, 97] [114] ++ arrive 1 [98, 98] [114] ++ arrive 2 [99, 99] [114]

/-- A game is set, the owner sits down, kicks `cc` and leaves to `bb`. -/
theorem rooms_run_ownerLeaves :
    ∃ s, Run (when KeepsRooms (chessStep noGames)) initarray
        (threeInRoom ++ [.command 0 (chessMsg 7 [49]), .command 0 (chessMsg 8 [48]),
          .command 0 (chessMsg 9 [99, 99]), .command 0 (chessMsg 1 [])]) s ∧
      (s.room 1).owner = some 1 ∧ (s.room 0).nuser = 2 ∧ s.Right := by
  have hexec : (exec (when KeepsRooms (chessStep noGames)) initarray
      (threeInRoom ++ [.command 0 (chessMsg 7 [49]), .command 0 (chessMsg 8 [48]),
        .command 0 (chessMsg 9 [99, 99]), .command 0 (chessMsg 1 [])])).any
        (fun s => decide ((s.room 1).owner = some 1 ∧ (s.room 0).nuser = 2)) = true := by
    decide +kernel
  obtain ⟨s, hs, hroom⟩ := (Option.any_eq_true _ _).mp hexec
  obtain ⟨howner, hnuser⟩ := of_decide_eq_true hroom
  exact ⟨s, Run.of_exec hs, howner, hnuser, (rooms_run noGames (Run.of_exec hs)).1⟩

/-- The client in the next slot has gone when the owner leaves: its slot becomes the
owner. -/
theorem freedSlot_becomesOwner :
    ∃ s, Run (chessStep noGames) initarray (threeInRoom ++ [.remove 1, .remove 0]) s ∧
      (s.room 1).owner = some 1 ∧ (s.user 1).connected = false ∧ ¬ s.Right := by
  have hexec : (exec (chessStep noGames) initarray (threeInRoom ++ [.remove 1, .remove 0])).any
      (fun s => decide ((s.room 1).owner = some 1 ∧ (s.room 1).nuser ≠ 0 ∧
        (s.user 1).connected = false)) = true := by
    decide +kernel
  obtain ⟨s, hs, hroom⟩ := (Option.any_eq_true _ _).mp hexec
  obtain ⟨howner, hnuser, hfree⟩ := of_decide_eq_true hroom
  refine ⟨s, Run.of_exec hs, howner, hfree, fun hright => ?_⟩
  obtain ⟨k, hk, hplace⟩ := hright.owner 1 (by decide) hnuser
  rw [howner] at hk
  cases hk
  exact Bool.false_ne_true (hfree.symm.trans (place_eq_some.mp hplace).1)

end Chessd

end Ytht
