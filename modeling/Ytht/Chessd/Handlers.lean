import Ytht.Chessd.Cchess
import Ytht.Chessd.Five
import Ytht.Chessd.Go

/-!
# Chessd.Handlers

The games in their rooms, and whom their messages go to.  The handlers of five in a row
and Chinese chess address the other seat, or both, when a new game is asked for, when a
player resigns and when a move ends the game; of these none asks whether the seat is
taken (`askRestart_addresses_nobody`).

`messages_run` is about the runs in which both seats are taken at such a request.  A
client that has been removed gives no command in them, and one that is kicked has
logged in: else the clients of a room are counted wrongly, and its board can be freed
under them.
-/

namespace Ytht

open Function Runs

/-! ## The games -/

/-- What `data` of a room points to. -/
inductive GameData where
  | five (f : FiveData)
  | cchess (f : CchessData)
  | go (f : GoData)

/-- `chesslist[type].init` -/
def gameInit (type : Nat) : GameData :=
  match type with
  | 1 => .five fiveInit
  | 2 => .cchess cchessInit
  | _ => .go goInit

/-- `chesslist[type].go`.  What the clients are called does not matter to a board. -/
def gameGo (type : Nat) (seat : Fin 8 → Option Slot) (i : Slot) (data : List UInt8)
    (b : GameData) : GameData :=
  match type, b with
  | 1, .five f => .five (fiveStep f ⟨⟨seat, fun _ => ""⟩, i, data⟩)
  | 2, .cchess f => .cchess (cchessStep f ⟨⟨seat, fun _ => ""⟩, i, data⟩)
  | 3, .go f => .go (goStep f ⟨⟨seat, fun _ => ""⟩, i, data⟩)
  | _, b => b

/-- `chesslist` -/
def chesslist : Games GameData where
  init := gameInit
  go := gameGo
  seatchanged _ _ b := b

namespace Duel

variable {β : Type} (t : Seats) (i : Slot)

/-- The requests whose messages go to the other seat, or to both: `N` at any time, `F`
while the game goes on, and a move that ends it. -/
def NeedsBoth (mayResign : Duel β → Bool) (ends : List UInt8 → Duel β → Bool) (data : List UInt8)
    (f : Duel β) : Prop :=
  let ch := data.headD 0
  (t.of false = some i ∨ t.of true = some i) ∧ ch ≠ 121 ∧ ch ≠ 110 ∧ f.q false = 0 ∧ f.q true = 0 ∧
    (ch = 78 ∨ f.fi = false ∧
      (ch = 70 ∧ mayResign f = true ∨ ch ≠ 70 ∧ t.of f.who = some i ∧ ends data f = true))

instance (mayResign : Duel β → Bool) (ends : List UInt8 → Duel β → Bool) (data : List UInt8)
    (f : Duel β) : Decidable (f.NeedsBoth t i mayResign ends data) := by
  unfold NeedsBoth
  exact inferInstance

end Duel

/-- Both seats of a game are taken. -/
def Seats.Taken (t : Seats) : Prop := t.of false ≠ none ∧ t.of true ≠ none

instance (t : Seats) : Decidable t.Taken := inferInstanceAs (Decidable (_ ∧ _))

/-- A request places a stone, and `five_check` finds a winner. -/
def fiveEnds (data : List UInt8) (f : FiveData) : Bool :=
  (fiveTarget data f).any fun p => (fiveCheck (update f.matrix p (some f.who)) p).isSome

/-- A request takes a general. -/
def cchessEnds (data : List UInt8) (f : CchessData) : Bool :=
  (cchessTarget data f).any fun move => (f.matrix move.2).any fun z => z.kind = .jiang

/-- The receivers of `addmsgqueue`. -/
def receivers (sent : List Sent) : List (Option Slot) := sent.filterMap Sent.to

/-! ## Whom a request addresses -/

/-- Messages go to clients. -/
def Valid (sent : List Sent) : Prop := ∀ k ∈ receivers sent, k ≠ none

@[simp] theorem valid_nil : Valid [] := fun _ h => absurd h List.not_mem_nil

@[simp] theorem valid_broadcast {cmd : UInt8} {text : String} {sent : List Sent} :
    Valid (.broadcastroom cmd text :: sent) ↔ Valid sent := by
  simp [Valid, receivers, Sent.to]

@[simp] theorem valid_addmsgqueue {k : Option Slot} {cmd : UInt8} {text : String} {sent : List Sent} :
    Valid (.addmsgqueue k cmd text :: sent) ↔ k ≠ none ∧ Valid sent := by
  simp [Valid, receivers, Sent.to]

namespace Duel

variable {β : Type} {t : Seats} {i : Slot} {f : Duel β}

/-- One of the seats is that of the client. -/
theorem taken_iff (hi : t.of false = some i ∨ t.of true = some i) :
    t.Taken ↔ t.of (!decide (t.of false ≠ some i)) ≠ none := by
  unfold Seats.Taken
  by_cases hfalse : t.of false = some i
  · simp [hfalse]
  · have htrue := hi.resolve_left hfalse
    simp [hfalse, htrue]

theorem answer_valid {m : β} {no who : Bool} {f' : Duel β} {sent : List Sent} (h : f.Asks)
    (heq : f.answer t i m no who = some (f', sent)) : Valid sent := by
  unfold answer at heq
  split at heq
  · cases heq
    exact valid_nil
  · dsimp only at heq
    split at heq
    · split at heq
      · next hother =>
          cases heq
          simp [Option.isSome_iff_ne_none.mp hother]
      · cases heq
        exact valid_nil
    · split at heq
      · cases heq
        simp [restart, seatchanged]
      · cases heq
        simp
  · next htwo =>
      have hle := h who
      omega
  · cases heq
    exact valid_nil

/-- **Whom a request addresses**: all of its messages go to clients when the seats are
taken if they must be, and else one does not. -/
theorem go_valid {answerer : Bool → Duel β → Bool × Duel β} {mayResign : Duel β → Bool} {m : β}
    {move : List UInt8 → Duel β → Duel β × List Sent} {ends : List UInt8 → Duel β → Bool}
    {data : List UInt8} {f' : Duel β} {sent : List Sent}
    (hanswerer : ∀ who (f : Duel β), f.Asks → (answerer who f).2.Asks)
    (hmove : ∀ f : Duel β, Valid (move data f).2 ↔ (ends data f = true → t.Taken)) (h : f.Asks)
    (heq : f.go t i answerer mayResign m move data = some (f', sent)) :
    Valid sent ↔ ((f.vacate t).NeedsBoth t i mayResign ends data → t.Taken) := by
  have hasks := h.vacate (t := t)
  unfold go at heq
  split at heq
  · next hout =>
      cases heq
      refine iff_of_true valid_nil fun hneeds => ?_
      exact (hneeds.1.elim hout.1 hout.2).elim
  next hin =>
  have hseated : t.of false = some i ∨ t.of true = some i := by
    rwa [not_and_or, not_not, not_not] at hin
  have htaken := taken_iff hseated
  dsimp only at heq
  unfold NeedsBoth
  dsimp only
  generalize f.vacate t = f at heq hasks ⊢
  generalize data.headD 0 = ch at heq ⊢
  split at heq
  · next hch =>
      refine iff_of_true (answer_valid ?_ heq) fun hneeds => ?_
      · split
        · exact hanswerer _ _ hasks
        · exact hasks
      · exact (hch.elim hneeds.2.1 hneeds.2.2.1).elim
  next hch =>
  split at heq
  · next hq =>
      cases heq
      refine iff_of_true valid_nil fun hneeds => ?_
      exact (hq.elim (fun h => h hneeds.2.2.2.1) (fun h => h hneeds.2.2.2.2.1)).elim
  next hq =>
  obtain ⟨hy, hn⟩ := not_or.mp hch
  obtain ⟨hq0, hq1⟩ : f.q false = 0 ∧ f.q true = 0 := by simpa using hq
  split at heq
  · next hN =>
      cases heq
      rw [imp_iff_right ⟨hseated, hy, hn, hq0, hq1, .inl hN⟩, htaken]
      simp
  next hN =>
  split at heq
  · next hfi =>
      cases heq
      refine iff_of_true valid_nil fun hneeds => ?_
      simp [hN, hfi] at hneeds
  next hfi =>
  have hfi : f.fi = false := by simpa using hfi
  split at heq
  · next hF =>
      split at heq
      · next hresign =>
          cases heq
          rw [imp_iff_right ⟨hseated, hy, hn, hq0, hq1, .inr ⟨hfi, .inl ⟨hF, hresign⟩⟩⟩]
          unfold Seats.Taken
          cases decide (t.of false ≠ some i) <;> simp [and_comm]
      · next hresign =>
          cases heq
          refine iff_of_true valid_nil fun hneeds => ?_
          simp [hF, hresign] at hneeds
  next hF =>
  split at heq
  · next hturn =>
      cases heq
      refine iff_of_true valid_nil fun hneeds => ?_
      simp [hN, hF, hturn] at hneeds
  · next hturn =>
      have hsent : sent = (move data f).2 := congrArg Prod.snd (Option.some.inj heq).symm
      rw [hsent, hmove]
      simp [hseated, hy, hn, hq0, hq1, hN, hF, hfi, not_not.mp hturn]

end Duel

/-! ## What the clients are called -/

namespace Duel

variable {β : Type} {seat : Fin 8 → Option Slot} {i : Slot}

theorem answer_userid (u u' : Slot → String) (m : β) (no who : Bool) (f : Duel β) :
    (f.answer ⟨seat, u⟩ i m no who).map Prod.fst = (f.answer ⟨seat, u'⟩ i m no who).map Prod.fst := by
  unfold answer Seats.of
  split
  · rfl
  · dsimp only
    split
    · split <;> rfl
    · split <;> rfl
  · rfl
  · rfl

/-- What the clients are called is in the messages only. -/
theorem go_userid (u u' : Slot → String) {answerer : Bool → Duel β → Bool × Duel β}
    {mayResign : Duel β → Bool} {m : β} {move move' : List UInt8 → Duel β → Duel β × List Sent}
    {data : List UInt8} (f : Duel β) (h : ∀ g, (move data g).1 = (move' data g).1) :
    (f.go ⟨seat, u⟩ i answerer mayResign m move data).map Prod.fst =
      (f.go ⟨seat, u'⟩ i answerer mayResign m move' data).map Prod.fst := by
  have hof : (Seats.mk seat u).of = (Seats.mk seat u').of := rfl
  have hvacate : f.vacate ⟨seat, u⟩ = f.vacate ⟨seat, u'⟩ := rfl
  unfold go
  rw [hof, hvacate]
  dsimp only
  split
  · rfl
  split
  · exact answer_userid ..
  split
  · rfl
  split
  · rfl
  split
  · rfl
  split
  · split <;> rfl
  split
  · rfl
  · simp [h]

end Duel

theorem fiveMove_valid (t : Seats) (data : List UInt8) (f : FiveData) :
    Valid (fiveMove t data f).2 ↔ (fiveEnds data f = true → t.Taken) := by
  unfold fiveMove fiveEnds
  cases fiveTarget data f with
  | none => simp
  | some p =>
      unfold fivePlace Seats.Taken
      dsimp only
      cases hcheck : fiveCheck (update f.matrix p (some f.who)) p with
      | none => simp [hcheck]
      | some retv => cases retv <;> simp [hcheck, fiveWon, and_comm]

theorem cchessMove_valid (t : Seats) (data : List UInt8) (f : CchessData) :
    Valid (cchessMove t data f).2 ↔ (cchessEnds data f = true → t.Taken) := by
  unfold cchessMove cchessEnds
  cases cchessTarget data f with
  | none => simp
  | some move =>
      unfold cchessAdvance Seats.Taken
      dsimp only [Option.any_some]
      split
      · next hends =>
          cases hwho : f.who <;> simp [hends, and_comm]
      · next hends => simp [hends]

theorem fivePlace_userid (seat : Fin 8 → Option Slot) (u u' : Slot → String) (f : FiveData)
    (p : FivePoint) : (fivePlace ⟨seat, u⟩ f p).1 = (fivePlace ⟨seat, u'⟩ f p).1 := by
  unfold fivePlace
  dsimp only
  split <;> rfl

theorem cchessAdvance_userid (seat : Fin 8 → Option Slot) (u u' : Slot → String) (f : CchessData)
    (p0 p : CchessPoint) : (cchessAdvance ⟨seat, u⟩ f p0 p).1 = (cchessAdvance ⟨seat, u'⟩ f p0 p).1 := by
  unfold cchessAdvance
  dsimp only
  split <;> rfl

/-- **The boards do not know what the clients are called.** -/
theorem fiveGo_userid (seat : Fin 8 → Option Slot) (u u' : Slot → String) (i : Slot)
    (data : List UInt8) (f : FiveData) :
    (fiveGo ⟨seat, u⟩ i data f).map Prod.fst = (fiveGo ⟨seat, u'⟩ i data f).map Prod.fst := by
  refine Duel.go_userid u u' f fun g => ?_
  unfold fiveMove
  cases fiveTarget data g with
  | none => rfl
  | some p => exact fivePlace_userid seat u u' g p

theorem cchessGo_userid (seat : Fin 8 → Option Slot) (u u' : Slot → String) (i : Slot)
    (data : List UInt8) (f : CchessData) :
    (cchessGo ⟨seat, u⟩ i data f).map Prod.fst = (cchessGo ⟨seat, u'⟩ i data f).map Prod.fst := by
  refine Duel.go_userid u u' f fun g => ?_
  unfold cchessMove
  cases cchessTarget data g with
  | none => rfl
  | some move => exact cchessAdvance_userid seat u u' g move.1 move.2

/-! ## The handlers in the server -/

namespace Chessd

section handlers

variable (s : Chessd GameData)

/-- The seats of a room. -/
def seats (r : RoomNo) : Seats where
  seat := (s.room r).seat
  userid k := String.ofList ((s.user k).userid.map fun ch => Char.ofNat ch.toNat)

/-- What `five_go` or `cchess_go` sends. -/
def gameSent (i : Slot) (m : ChessMsg) : List Sent :=
  let r := (s.user i).room
  if (s.user i).haslogin = false then []
  else
    match (s.room r).type, (s.room r).data with
    | 1, some (.five f) => ((fiveGo (s.seats r) i m.data f).map Prod.snd).getD []
    | 2, some (.cchess f) => ((cchessGo (s.seats r) i m.data f).map Prod.snd).getD []
    | _, _ => []

/-- The receivers of what the handlers of the two games send with `addmsgqueue`: those of
a request, and of `five_restore` and `cchess_restore`, which send the board, its history
and the seats to a client that enters. -/
def handlerReceivers : ChessEvent → List (Option Slot)
  | .command i m =>
      if m.cmd = 6 then receivers (s.gameSent i m)
      else if m.cmd = 4 then
        match s.intoroomTarget i m with
        | none => []
        | some (n, name) =>
            let type := (((s.doexitroom chesslist i).doenterroom i n name).room n).type
            if type = 1 ∨ type = 2 then [some i, some i, some i] else []
      else []
  | _ => []

/-- Both seats are taken when a request needs it. -/
def SeatsTaken : ChessEvent → Prop
  | .command i m =>
      let t := s.seats (s.user i).room
      m.cmd = 6 → (s.user i).haslogin = true →
        match (s.room (s.user i).room).type, (s.room (s.user i).room).data with
        | 1, some (.five f) =>
            (f.vacate t).NeedsBoth t i (fun f => f.n ≠ 0) fiveEnds m.data → t.Taken
        | 2, some (.cchess f) =>
            (f.vacate t).NeedsBoth t i (fun _ => true) cchessEnds m.data → t.Taken
        | _, _ => True
  | _ => True

instance (e : ChessEvent) : Decidable (s.SeatsTaken e) :=
  match e with
  | .newuser => inferInstanceAs (Decidable True)
  | .remove _ => inferInstanceAs (Decidable True)
  | .command i m => by
      unfold SeatsTaken
      refine @instDecidableForall _ _ inferInstance (@instDecidableForall _ _ inferInstance ?_)
      split <;> exact inferInstance

end handlers

variable {γ : Type} (s : Chessd γ)

/-- A client that was removed gives no command, and one that is kicked has logged in. -/
def KeepsCount : ChessEvent → Prop
  | .command i m =>
      (s.user i).connected = true ∧ (m.cmd = 9 → ∀ n ∈ s.named i m, (s.user n).haslogin = true)
  | _ => True

instance (e : ChessEvent) : Decidable (s.KeepsCount e) :=
  match e with
  | .newuser => inferInstanceAs (Decidable True)
  | .remove _ => inferInstanceAs (Decidable True)
  | .command i m => inferInstanceAs (Decidable ((s.user i).connected = true ∧
      (m.cmd = 9 → ∀ n ∈ s.named i m, (s.user n).haslogin = true)))

/-! ## Boards that are not freed -/

/-- The clients of the rooms are counted, and the lobby has no owner. -/
structure Counts (place : Slot → Option RoomNo) : Prop where
  nuser : ∀ r, (s.room r).nuser = Roster.count place r + if r = 0 then 1 else 0
  lobby : (s.room 0).owner = none

variable {s} (g : Games γ) {place : Slot → Option RoomNo} {i : Slot}

/-- A room changes, but not who is in it. -/
theorem Counts.setRoom (h : s.Counts place) {r : RoomNo} {q : Room γ}
    (hnuser : q.nuser = (s.room r).nuser) (howner : r = 0 → q.owner = none) :
    (s.setRoom r q).Counts place := by
  refine ⟨fun k => ?_, ?_⟩
  · by_cases hk : k = r
    · subst hk
      simp [Chessd.setRoom, hnuser, h.nuser]
    · simp [Chessd.setRoom, hk, h.nuser]
  · by_cases hr : r = 0
    · subst hr
      simp [Chessd.setRoom, howner]
    · simp [Chessd.setRoom, Ne.symm hr, h.lobby]

theorem Counts.doexitroom (h : s.Counts place) (hi : place i = some (s.user i).room) :
    (s.doexitroom g i).Counts (update place i none) := by
  have hleave := Roster.count_leave hi
  obtain ⟨hnuser, -, howner, -⟩ := Room.exit_spec g (s.room (s.user i).room) i
    (s.nextOwner i (s.user i).room)
  refine ⟨fun k => ?_, ?_⟩
  · have hk := h.nuser k
    by_cases heq : k = (s.user i).room
    · subst heq
      simp only [Chessd.doexitroom, Chessd.setRoom, update_self]
      rw [hnuser]
      omega
    · have hne : place i ≠ some k := by
        rw [hi]
        exact fun h => heq (Option.some.inj h).symm
      simp only [Chessd.doexitroom, Chessd.setRoom, update_of_ne heq]
      rw [Roster.count_elsewhere hne (by simp), hk]
  · by_cases heq : (0 : RoomNo) = (s.user i).room
    · rw [← heq] at howner
      have hlobby := h.lobby
      simp only [Chessd.doexitroom, Chessd.setRoom, ← heq, update_self]
      rw [howner, hlobby]
      simp
    · simp only [Chessd.doexitroom, Chessd.setRoom, update_of_ne heq]
      exact h.lobby

theorem Counts.doenterroom (h : s.Counts place) (hi : place i = none) (r : RoomNo)
    (name : List UInt8) : (s.doenterroom i r name).Counts (update place i (some r)) := by
  have henter : Roster.count (update place i (some r)) r = Roster.count place r + 1 :=
    Roster.count_enter (by simp [hi])
  have hnuser : ((s.room r).enter i name).nuser = (s.room r).nuser + 1 := by
    unfold Room.enter
    dsimp only
    split <;> rfl
  refine ⟨fun k => ?_, ?_⟩
  · have hk := h.nuser k
    by_cases heq : k = r
    · subst heq
      simp only [Chessd.doenterroom, Chessd.setUser, Chessd.setRoom, update_self]
      rw [hnuser]
      omega
    · simp only [Chessd.doenterroom, Chessd.setUser, Chessd.setRoom, update_of_ne heq]
      rw [Roster.count_elsewhere (by simp [hi]) (fun h => heq (Option.some.inj h).symm), hk]
  · by_cases heq : (0 : RoomNo) = r
    · have hcount := h.nuser 0
      have hsome : (s.room 0).nuser ≠ 0 := by
        rw [hcount, if_pos rfl]
        omega
      simp only [Chessd.doenterroom, Chessd.setUser, Chessd.setRoom, ← heq, update_self]
      unfold Room.enter
      rw [if_neg hsome]
      exact h.lobby
    · simp only [Chessd.doenterroom, Chessd.setUser, Chessd.setRoom, update_of_ne heq]
      exact h.lobby

variable {m : ChessMsg}

theorem place_doenterroom (hconn : (s.user i).connected = true) (hlogin : (s.user i).haslogin = true)
    (r : RoomNo) (name : List UInt8) :
    (s.doenterroom i r name).place = update s.place i (some r) := by
  unfold Chessd.doenterroom
  rw [place_setUser]
  have hself : ChessUser.place { s.user i with room := r } = some r := by
    unfold ChessUser.place
    rw [if_pos (by rw [hconn, hlogin]; rfl)]
  rw [hself]
  rfl

/-- A client goes to another room. -/
theorem Counts.move (h : s.Counts s.place) (hconn : (s.user i).connected = true)
    (hlogin : (s.user i).haslogin = true) (r : RoomNo) (name : List UInt8) :
    ((s.doexitroom g i).doenterroom i r name).Counts
      ((s.doexitroom g i).doenterroom i r name).place := by
  have hi := place_eq_some.mpr ⟨hconn, hlogin, rfl⟩
  have hentered := (h.doexitroom g hi).doenterroom (update_self ..) r name
  rw [update_idem] at hentered
  rwa [place_doenterroom (s := s.doexitroom g i) hconn hlogin]

theorem Counts.removeuser (h : s.Counts s.place) :
    (s.removeuser g i).Counts (s.removeuser g i).place := by
  cases hconn : (s.user i).connected with
  | false => rwa [removeuser_freed g hconn]
  | true =>
      cases hlogin : (s.user i).haslogin with
      | true =>
          have hleft := h.doexitroom g (place_eq_some.mpr ⟨hconn, hlogin, rfl⟩)
          rw [removeuser_member g hconn hlogin, place_setUser, place_freed rfl]
          exact ⟨hleft.nuser, hleft.lobby⟩
      | false =>
          have hi : s.place i = none := place_stranger hlogin
          rw [removeuser_stranger g hconn hlogin, place_setUser, place_freed rfl, ← hi, update_eq_self]
          exact ⟨h.nuser, h.lobby⟩

theorem Counts.newuser (h : s.Counts s.place) : s.newuser.Counts s.newuser.place := by
  unfold Chessd.newuser
  split
  · exact h
  · next i hi =>
      have hfound := List.find?_some hi
      have hfree : s.place i = none := place_freed (of_decide_eq_true hfound)
      rw [place_setUser, place_stranger rfl, ← hfree, update_eq_self]
      exact ⟨h.nuser, h.lobby⟩

theorem Counts.cmdLogin (h : s.Counts s.place) (hconn : (s.user i).connected = true) :
    (s.cmdLogin g i m).Counts (s.cmdLogin g i m).place := by
  unfold Chessd.cmdLogin
  cases hlogin : (s.user i).haslogin with
  | true => exact h
  | false =>
      rw [if_neg Bool.false_ne_true]
      split
      · exact h.removeuser g
      dsimp only
      split
      · exact h.removeuser g
      split
      · exact h.removeuser g
      · have hi : s.place i = none := place_stranger hlogin
        have hentered := h.doenterroom hi 0 lobbyName
        rw [place_doenterroom, place_setUser, update_idem]
        · have hrooms : Counts (s.setUser i
              { s.user i with haslogin := true, userid := m.upTo (m.len - 4) })
              s.place := ⟨h.nuser, h.lobby⟩
          exact hrooms.doenterroom hi 0 lobbyName
        · show (update s.user i _ i).connected = true
          rw [update_self]
          exact hconn
        · show (update s.user i _ i).haslogin = true
          rw [update_self]

theorem Counts.cmdIntoroom (h : s.Counts s.place) (hconn : (s.user i).connected = true) :
    (s.cmdIntoroom g i m).Counts (s.cmdIntoroom g i m).place := by
  unfold Chessd.cmdIntoroom
  split
  · exact h
  · next n name htarget =>
      exact h.move g hconn (haslogin_of_intoroomTarget (by rw [htarget]; rfl)) n name

theorem Counts.cmdChess (h : s.Counts s.place) :
    (s.cmdChess g i m).Counts (s.cmdChess g i m).place := by
  unfold Chessd.cmdChess
  dsimp only
  split
  · exact h
  · exact h.setRoom rfl fun hr => by rw [hr]; exact h.lobby

theorem Counts.cmdType (h : s.Counts s.place) :
    (s.cmdType g i m).Counts (s.cmdType g i m).place := by
  unfold Chessd.cmdType
  dsimp only
  split
  · exact h
  split
  · exact h
  split
  · exact h
  split
  · exact h
  next hzero =>
  split
  · exact h
  split
  · exact h
  · exact h.setRoom rfl fun hr => absurd hr hzero

theorem Counts.cmdSeat (h : s.Counts s.place) :
    (s.cmdSeat g i m).Counts (s.cmdSeat g i m).place := by
  unfold Chessd.cmdSeat
  dsimp only
  split
  · exact h
  split
  · split
    · exact h
    · exact h.setRoom rfl fun hr => by rw [Room.setSeat_owner, hr]; exact h.lobby
  · exact h

/-- Who is named by an owner is connected and in its room. -/
theorem Counts.named (h : s.Counts place) {n : Slot} (hn : s.named i m = some n) :
    (s.user i).room ≠ 0 ∧ (s.user n).connected = true := by
  unfold Chessd.named at hn
  dsimp only at hn
  split at hn
  · contradiction
  split at hn
  · contradiction
  next howner =>
  split at hn
  · contradiction
  split at hn
  · contradiction
  have hfound := List.find?_some hn
  refine ⟨fun hzero => ?_, (of_decide_eq_true hfound).1⟩
  rw [hzero, h.lobby] at howner
  simp at howner

theorem Counts.cmdKick (h : s.Counts s.place)
    (hok : ∀ n ∈ s.named i m, (s.user n).haslogin = true) :
    (s.cmdKick g i m).Counts (s.cmdKick g i m).place := by
  unfold Chessd.cmdKick
  split
  · exact h
  · next n hn =>
      obtain ⟨hroom, hconn⟩ := h.named hn
      rw [if_neg hroom]
      exact h.move g hconn (hok n hn) 0 lobbyName

theorem Counts.cmdSetowner (h : s.Counts s.place) :
    (s.cmdSetowner i m).Counts (s.cmdSetowner i m).place := by
  unfold Chessd.cmdSetowner
  split
  · exact h
  · next n hn =>
      split
      · exact h
      · exact h.setRoom rfl fun hr => absurd hr (h.named hn).1

/-- One event keeps the clients counted. -/
theorem Counts.chessStep (h : s.Counts s.place) {e : ChessEvent} (hok : s.KeepsCount e)
    {s' : Chessd γ} (hstep : s.chessStep g e = some s') : s'.Counts s'.place := by
  have hdealing : ∀ (t : Chessd γ) (d : Option Slot), t.Counts t.place →
      Counts { t with dealing := d } (Chessd.place { t with dealing := d }) :=
    fun t d ht => ⟨ht.nuser, ht.lobby⟩
  cases e with
  | newuser =>
      cases hstep
      exact hdealing _ _ h.newuser
  | remove i =>
      simp only [Chessd.chessStep] at hstep
      split at hstep
      · cases hstep
        exact hdealing _ _ (h.removeuser g)
      · contradiction
  | command i m =>
      simp only [Chessd.chessStep] at hstep
      split at hstep
      · cases hstep
        refine hdealing _ _ ?_
        unfold KeepsCount at hok
        obtain ⟨hconn, hkick⟩ := hok
        unfold Chessd.command
        split
        · exact h.cmdLogin g hconn
        · exact h.removeuser g
        · exact h.cmdIntoroom g hconn
        · exact h.cmdChess g
        · exact h.cmdType g
        · exact h.cmdSeat g
        · next hcmd => exact h.cmdKick g (hkick (UInt8.toNat_inj.mp hcmd))
        · exact h.cmdSetowner
        · exact h
      · contradiction

end Chessd

/-! ## The boards -/

/-- The board of a room is of its type, and as the rules of the game have it. -/
structure Room.BoardOk (q : Room GameData) : Prop where
  five : q.type = 1 → ∃ f : FiveData, q.data = some (.five f) ∧ f.FiveInv
  cchess : q.type = 2 → ∃ f : CchessData, q.data = some (.cchess f) ∧ f.CchessInv
  go : q.type = 3 → ∃ f : GoData, q.data = some (.go f) ∧ Groups.Settled GoAdj f.matrix

section boards

variable {q q' : Room GameData}

/-- Nothing but the board and its type matters. -/
theorem Room.BoardOk.congr (h : q.BoardOk) (htype : q'.type = q.type) (hdata : q'.data = q.data) :
    q'.BoardOk := by
  obtain ⟨hfive, hcchess, hgo⟩ := h
  rw [← htype, ← hdata] at hfive hcchess hgo
  exact ⟨hfive, hcchess, hgo⟩

theorem Room.setSeat_data (q : Room GameData) (n : Fin 8) (who : Option Slot) :
    (q.setSeat chesslist n who).data = q.data := by
  unfold Room.setSeat chesslist
  dsimp only
  split
  · rfl
  · simp

theorem Room.clear_data (i : Slot) (ns : List (Fin 8)) (q : Room GameData) :
    (ns.foldl (fun q n => if q.seat n = some i then q.setSeat chesslist n none else q) q).data =
      q.data := by
  induction ns generalizing q with
  | nil => rfl
  | cons n ns ih =>
      rw [List.foldl_cons, ih]
      split
      · exact q.setSeat_data n none
      · rfl

theorem Room.BoardOk.exit (h : q.BoardOk) (i : Slot) (next : Option Slot) :
    (q.exit chesslist i next).BoardOk := by
  refine h.congr (Room.exit_spec chesslist q i next).2.1 ?_
  unfold Room.exit
  dsimp only
  split
  · rfl
  · exact Room.clear_data i _ _

theorem Room.boardOk_of_none (htype : q.type = 0) : q.BoardOk := by
  constructor <;> (intro h; rw [htype] at h; contradiction)

theorem Room.BoardOk.enter (h : q.BoardOk) (i : Slot) (name : List UInt8) :
    (q.enter i name).BoardOk := by
  unfold Room.enter
  dsimp only
  split
  · exact Room.boardOk_of_none rfl
  · exact h.congr rfl rfl

theorem settled_goStep {f : GoData} (h : Groups.Settled GoAdj f.matrix) (r : PlayRequest) :
    Groups.Settled GoAdj (goStep f r).matrix := by
  rcases goStep_spec f r with ⟨hsame, -⟩ | ⟨p, hmoved, -⟩
  · rwa [hsame]
  · rw [hmoved.matrix]
    exact Groups.settled_move _ _ _

/-- A request to the game of a room. -/
theorem Room.BoardOk.request (h : q.BoardOk) (i : Slot) (data : List UInt8) :
    Room.BoardOk { q with data := q.data.map (chesslist.go q.type q.seat i data) } := by
  constructor
  · intro htype
    obtain ⟨f, hf, hinv⟩ := h.five htype
    obtain ⟨f', sent, heq, hinv', -⟩ := fiveGo_spec hinv ⟨q.seat, fun _ => ""⟩ i data
    refine ⟨f', ?_, hinv'⟩
    change q.type = 1 at htype
    simp [hf, htype, chesslist, gameGo, fiveStep, heq]
  · intro htype
    obtain ⟨f, hf, hinv⟩ := h.cchess htype
    obtain ⟨f', sent, heq, hinv', -⟩ := cchessGo_spec hinv ⟨q.seat, fun _ => ""⟩ i data
    refine ⟨f', ?_, hinv'⟩
    change q.type = 2 at htype
    simp [hf, htype, chesslist, gameGo, cchessStep, heq]
  · intro htype
    obtain ⟨f, hf, hinv⟩ := h.go htype
    refine ⟨_, ?_, settled_goStep hinv ⟨⟨q.seat, fun _ => ""⟩, i, data⟩⟩
    change q.type = 3 at htype
    simp [hf, htype, chesslist, gameGo]

/-- A new game. -/
theorem Room.boardOk_init (q : Room GameData) {type : Int} (hlo : 0 ≤ type) :
    Room.BoardOk { q with
      seat := fun _ => none
      type := type.toNat
      data := if type = 0 then none else some (chesslist.init type.toNat) } := by
  constructor
  · intro htype
    have hone : type = 1 := by
      have htype : type.toNat = 1 := htype
      omega
    subst hone
    exact ⟨fiveInit, rfl, .fresh, fun _ => noFive_empty⟩
  · intro htype
    have htwo : type = 2 := by
      have htype : type.toNat = 2 := htype
      omega
    subst htwo
    exact ⟨cchessInit, rfl, .fresh, fun _ => CchessBoard.inPlace_ff⟩
  · intro htype
    have hthree : type = 3 := by
      have htype : type.toNat = 3 := htype
      omega
    subst hthree
    exact ⟨goInit, rfl, fun p hp => absurd rfl hp⟩

end boards

namespace Chessd

section boards

/-- The boards of all rooms are right. -/
def BoardsOk (s : Chessd GameData) : Prop := ∀ r, (s.room r).BoardOk

variable {s : Chessd GameData} {i : Slot} {m : ChessMsg}

theorem BoardsOk.setRoom (h : s.BoardsOk) {r : RoomNo} {q : Room GameData} (hq : q.BoardOk) :
    (s.setRoom r q).BoardsOk := by
  intro k
  by_cases hk : k = r
  · subst hk
    simpa [Chessd.setRoom] using hq
  · simpa [Chessd.setRoom, hk] using h k

theorem BoardsOk.doexitroom (h : s.BoardsOk) (i : Slot) : (s.doexitroom chesslist i).BoardsOk :=
  h.setRoom ((h _).exit i _)

theorem BoardsOk.doenterroom (h : s.BoardsOk) (i : Slot) (r : RoomNo) (name : List UInt8) :
    (s.doenterroom i r name).BoardsOk :=
  h.setRoom ((h _).enter i name)

theorem BoardsOk.removeuser (h : s.BoardsOk) (i : Slot) : (s.removeuser chesslist i).BoardsOk := by
  unfold Chessd.removeuser
  split
  · exact h
  · dsimp only
    split
    · exact h.doexitroom i
    · exact h

theorem BoardsOk.cmdLogin (h : s.BoardsOk) : (s.cmdLogin chesslist i m).BoardsOk := by
  unfold Chessd.cmdLogin
  split
  · exact h
  split
  · exact h.removeuser i
  dsimp only
  split
  · exact h.removeuser i
  split
  · exact h.removeuser i
  · exact BoardsOk.doenterroom (s := s.setUser i _) h i 0 lobbyName

theorem BoardsOk.cmdChess (h : s.BoardsOk) : (s.cmdChess chesslist i m).BoardsOk := by
  unfold Chessd.cmdChess
  dsimp only
  split
  · exact h
  · exact h.setRoom ((h _).request i m.data)

theorem BoardsOk.cmdType (h : s.BoardsOk) : (s.cmdType chesslist i m).BoardsOk := by
  unfold Chessd.cmdType
  dsimp only
  split
  · exact h
  split
  · exact h
  split
  · exact h
  next hrange =>
  split
  · exact h
  split
  · exact h
  split
  · exact h
  · exact h.setRoom (Room.boardOk_init _ (by omega))

theorem BoardsOk.cmdSeat (h : s.BoardsOk) : (s.cmdSeat chesslist i m).BoardsOk := by
  unfold Chessd.cmdSeat
  dsimp only
  split
  · exact h
  split
  · split
    · exact h
    · exact h.setRoom ((h _).congr rfl (Room.setSeat_data _ _ _))
  · exact h

/-- **One event** keeps the boards as the rules have them. -/
theorem BoardsOk.chessStep (h : s.BoardsOk) {e : ChessEvent} {s' : Chessd GameData}
    (hstep : s.chessStep chesslist e = some s') : s'.BoardsOk := by
  cases e with
  | newuser =>
      cases hstep
      unfold Chessd.newuser
      split <;> exact h
  | remove i =>
      simp only [Chessd.chessStep] at hstep
      split at hstep
      · cases hstep
        exact h.removeuser i
      · contradiction
  | command i m =>
      simp only [Chessd.chessStep] at hstep
      split at hstep
      · cases hstep
        show (s.command chesslist i m).BoardsOk
        unfold Chessd.command
        split
        · exact h.cmdLogin
        · exact h.removeuser i
        · unfold Chessd.cmdIntoroom
          split
          · exact h
          · next n name _ => exact BoardsOk.doenterroom (h.doexitroom i) i n name
        · exact h.cmdChess
        · exact h.cmdType
        · exact h.cmdSeat
        · unfold Chessd.cmdKick
          split
          · exact h
          next n _ =>
          split
          · exact h.removeuser n
          · exact BoardsOk.doenterroom (h.doexitroom n) n 0 lobbyName
        · unfold Chessd.cmdSetowner
          split
          · exact h
          split
          · exact h
          · exact h.setRoom ((h _).congr rfl rfl)
        · exact h
      · contradiction

theorem boardsOk_initarray : (initarray : Chessd GameData).BoardsOk := by
  intro r
  refine Room.boardOk_of_none ?_
  unfold initarray
  dsimp only
  split <;> rfl

theorem counts_initarray :
    (initarray : Chessd GameData).Counts (initarray : Chessd GameData).place := by
  have hplace : (initarray : Chessd GameData).place = fun _ => none := rfl
  refine ⟨fun r => ?_, rfl⟩
  rw [hplace, Roster.count_none]
  unfold initarray
  dsimp only
  split <;> rfl

/-! ## Messages -/

theorem gameSent_valid (h : s.BoardsOk) (i : Slot) (m : ChessMsg) (hcmd : m.cmd = 6) :
    s.SeatsTaken (.command i m) ↔ Valid (s.gameSent i m) := by
  have hboard := h (s.user i).room
  unfold SeatsTaken gameSent
  dsimp only
  rw [forall_prop_of_true hcmd]
  cases hlogin : (s.user i).haslogin with
  | false => simp
  | true =>
      rw [forall_prop_of_true rfl, if_neg (by simp)]
      by_cases hfive : (s.room (s.user i).room).type = 1
      · obtain ⟨f, hf, hinv⟩ := hboard.five hfive
        obtain ⟨f', sent, heq, -⟩ := fiveGo_spec hinv (s.seats (s.user i).room) i m.data
        simp only [hfive, hf, heq, Option.map_some, Option.getD_some]
        exact (Duel.go_valid (fun who f h => (fiveAnswerer_spec who f h).2)
          (fiveMove_valid _ _) hinv.asks heq).symm
      by_cases hcchess : (s.room (s.user i).room).type = 2
      · obtain ⟨f, hf, hinv⟩ := hboard.cchess hcchess
        obtain ⟨f', sent, heq, -⟩ := cchessGo_spec hinv (s.seats (s.user i).room) i m.data
        simp only [hcchess, hf, heq, Option.map_some, Option.getD_some]
        exact (Duel.go_valid (fun who f h => h.setQ _ (Nat.zero_le 1))
          (cchessMove_valid _ _) hinv.asks heq).symm
      · split
        · contradiction
        · contradiction
        · simp

/-- **Messages of one event** go to clients when both seats are taken, if they must be. -/
theorem seatsTaken_iff (h : s.BoardsOk) (e : ChessEvent) :
    s.SeatsTaken e ↔ ∀ k ∈ s.handlerReceivers e, k ≠ none := by
  cases e with
  | newuser => simp [SeatsTaken, handlerReceivers]
  | remove i => simp [SeatsTaken, handlerReceivers]
  | command i m =>
      by_cases hcmd : m.cmd = 6
      · rw [gameSent_valid h i m hcmd]
        simp only [handlerReceivers, if_pos hcmd]
        rfl
      · refine iff_of_true (fun h6 => absurd h6 hcmd) ?_
        simp only [handlerReceivers, if_neg hcmd]
        split
        · split
          · simp
          · split <;> simp
        · simp

/-- **Messages of the games go to clients** exactly when both seats are taken, if they
must be, after every run in which they were and in which the clients are counted; and
the board of a room is not freed while a client is in it. -/
theorem messages_run {es : List ChessEvent}
    (hrun : Run (when (fun s e => KeepsCount s e ∧ SeatsTaken s e) (chessStep chesslist)) initarray
      es s) :
    (∀ e, s.SeatsTaken e ↔ ∀ k ∈ s.handlerReceivers e, k ≠ none) ∧
      ∀ i r, s.place i = some r → 0 < (s.room r).nuser := by
  obtain ⟨hboards, hcounts⟩ := hrun.invariant_when (fun s => s.BoardsOk ∧ s.Counts s.place)
    ⟨boardsOk_initarray, counts_initarray⟩ fun s e s' h hok hstep =>
      ⟨h.1.chessStep hstep, h.2.chessStep chesslist hok.1 hstep⟩
  refine ⟨seatsTaken_iff hboards, fun i r hi => ?_⟩
  have hpos : 0 < Roster.count s.place r := Finset.card_pos.mpr ⟨i, by simp [hi]⟩
  rw [hcounts.nuser r]
  split <;> omega

/-- Two clients sit down in the same room, whose game is set. -/
def twoSeats (i j : Slot) : List ChessEvent :=
  arrive i [97, 97] [114] ++ arrive j [98, 98] [114] ++
    [.command i (chessMsg 7 [49]), .command i (chessMsg 8 [48]), .command j (chessMsg 8 [49])]

/-- With both seats taken, a new game can be asked for. -/
theorem messages_run_twoSeats :
    ∃ s, Run (when (fun s e => KeepsCount s e ∧ SeatsTaken s e) (chessStep chesslist)) initarray
        (twoSeats 0 1 ++ [.command 0 (chessMsg 6 [78])]) s ∧
      ∀ e, s.SeatsTaken e ↔ ∀ k ∈ s.handlerReceivers e, k ≠ none := by
  have hexec : (exec (when (fun s e => KeepsCount s e ∧ SeatsTaken s e) (chessStep chesslist))
      initarray (twoSeats 0 1 ++ [.command 0 (chessMsg 6 [78])])).isSome = true := by
    decide +kernel
  obtain ⟨s, hs⟩ := Option.isSome_iff_exists.mp hexec
  exact ⟨s, Run.of_exec hs, (messages_run (Run.of_exec hs)).1⟩

/-- A client alone at the board asks for a new game: the message goes to slot -1. -/
theorem askRestart_addresses_nobody :
    ∃ s, Run (chessStep chesslist) initarray
        (arrive 0 [97, 97] [114] ++
          [.command 0 (chessMsg 7 [49]), .command 0 (chessMsg 8 [48])]) s ∧
      none ∈ s.handlerReceivers (.command 0 (chessMsg 6 [78])) := by
  have hexec : (exec (chessStep chesslist) initarray
      (arrive 0 [97, 97] [114] ++
        [.command 0 (chessMsg 7 [49]), .command 0 (chessMsg 8 [48])])).any
          (fun s => decide (none ∈ s.handlerReceivers (.command 0 (chessMsg 6 [78])))) = true := by
    decide +kernel
  obtain ⟨s, hs, hmem⟩ := (Option.any_eq_true _ _).mp hexec
  exact ⟨s, Run.of_exec hs, of_decide_eq_true hmem⟩

end boards

end Chessd

end Ytht
