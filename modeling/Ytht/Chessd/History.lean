import Mathlib.Tactic.SplitIfs
import Ytht.Chessd.Cchess
import Ytht.Chessd.Five
import Ytht.Chessd.Go
import Ytht.Lib.Journal

/-!
# Chessd.History

The histories of the games, that a client who comes into a room gets.  Each is an array of
moves, and when it is full `five_addhistory`, `cchess_addhistory` and `go_addhistory` drop the
first ten.  All three move what is behind 20 bytes, and that is ten entries of two bytes;
those of Chinese chess have five.

The games of `Chessd.Five`, `Chessd.Cchess` and `Chessd.Go` are run here with their histories,
and beside each history with the list of all moves since the start of the game.
-/

namespace Ytht

open Function Journal

/-! ## Entries -/

/-- `char history[250][2]` -/
def fiveLayout : Journal.Layout := ⟨250, 2, 20, 250 * 2 - 20, 10⟩

/-- `char history[1000][5]` -/
def cchessLayout : Journal.Layout := ⟨1000, 5, 20, 1000 * 2 - 20, 10⟩

/-- `char history[1500][2]`, of which 1000 are used. -/
def goLayout : Journal.Layout := ⟨1000, 2, 20, 1000 * 2 - 20, 10⟩

/-- `history`, and all the moves since the start of the game, that the source does not have. -/
structure MoveLog where
  history : Nat → Int8
  played : List (List Int8)

namespace MoveLog

/-- No move yet, in a record that is zero. -/
def empty : MoveLog := ⟨fun _ => 0, []⟩

/-- A move, that `five_addhistory` and the others write. -/
def add (log : MoveLog) (L : Journal.Layout) (n : Nat) (e : List Int8) : MoveLog :=
  ⟨(Journal.add L log.history n e).1, log.played ++ [e]⟩

/-- `if(f->n<1000) f->history[f->n][0]=0`, for who comes into the room. -/
def terminate (log : MoveLog) (L : Journal.Layout) (n : Nat) : MoveLog :=
  if n < L.cap then { log with history := put log.history (L.width * n) [0] } else log

/-- The history has the last `n` moves. -/
def Right (log : MoveLog) (L : Journal.Layout) (n : Nat) : Prop :=
  Kept L.width log.history n log.played

end MoveLog

/-- What happens in a room where a game is on. -/
inductive RoomEvent where
  | request (r : PlayRequest)
  /-- Someone comes in, and gets the history. -/
  | restore

/-- The requests among the events. -/
def RoomEvent.requests (es : List RoomEvent) : List PlayRequest :=
  es.filterMap fun
    | .request r => some r
    | .restore => none

/-! ## Games of two players -/

namespace Duel

variable {β : Type}

/-- A game without its history. -/
def board (f : Duel (β × MoveLog)) : Duel β := ⟨f.matrix.1, f.who, f.n, f.fi, f.q⟩

def log (f : Duel (β × MoveLog)) : MoveLog := f.matrix.2

def withLog (f : Duel β) (log : MoveLog) : Duel (β × MoveLog) :=
  ⟨(f.matrix, log), f.who, f.n, f.fi, f.q⟩

/-- `answerer` does not look at the history. -/
def answererLog (answerer : Bool → Duel β → Bool × Duel β) (who : Bool)
    (f : Duel (β × MoveLog)) : Bool × Duel (β × MoveLog) :=
  ((answerer who f.board).1, (answerer who f.board).2.withLog f.log)

/-- `five_go` and `cchess_go` with the history. -/
def goLog (t : Seats) (i : Slot) (answerer : Bool → Duel β → Bool × Duel β)
    (mayResign : Duel β → Bool) (m : β)
    (move : List UInt8 → Duel (β × MoveLog) → Duel (β × MoveLog) × List Sent)
    (data : List UInt8) (f : Duel (β × MoveLog)) : Option (Duel (β × MoveLog) × List Sent) :=
  f.go t i (answererLog answerer) (fun f => mayResign f.board) (m, .empty) move data

/-- The game after an event. -/
def stepLog (L : Journal.Layout)
    (go : PlayRequest → Duel (β × MoveLog) → Option (Duel (β × MoveLog) × List Sent))
    (f : Duel (β × MoveLog)) : RoomEvent → Duel (β × MoveLog)
  | .request r =>
      match go r f with
      | some (f', _) => f'
      | none => f
  | .restore => f.board.withLog (f.log.terminate L f.n)

end Duel

/-! ## The three games -/

/-- What `five_addhistory` writes. -/
def fiveEntry (p : FivePoint) : List Int8 := [.ofNat (p.1.val + 1), .ofNat (p.2.val + 1)]

/-- The move part of `five_go`. -/
def fiveMoveLog (t : Seats) (data : List UInt8) (f : Duel (FiveBoard × MoveLog)) :
    Duel (FiveBoard × MoveLog) × List Sent :=
  match fiveTarget data f.board with
  | none => (f, [])
  | some p =>
      let (g, sent) := fivePlace t f.board p
      (g.withLog (f.log.add fiveLayout f.n (fiveEntry p)), sent)

/-- `five_go` -/
def fiveGoLog (r : PlayRequest) : Duel (FiveBoard × MoveLog) →
    Option (Duel (FiveBoard × MoveLog) × List Sent) :=
  Duel.goLog r.seats r.i fiveAnswerer (fun f => f.n ≠ 0) fiveEmpty (fiveMoveLog r.seats) r.data

/-- A room of five in a row after some events. -/
def fiveRoom (es : List RoomEvent) : Duel (FiveBoard × MoveLog) :=
  es.foldl (Duel.stepLog fiveLayout fiveGoLog) (fiveInit.withLog .empty)

/-- `c_jiang` to `c_zu` -/
def ChessKind.code : ChessKind → Int8
  | .jiang => 1
  | .shi => 2
  | .xiang => 3
  | .ju => 4
  | .ma => 5
  | .pao => 6
  | .zu => 7

/-- An entry of `matrix` as it is stored. -/
def ChessPiece.code : Option ChessPiece → Int8
  | none => 0
  | some z => if z.side then -z.kind.code else z.kind.code

/-- What `cchess_addhistory` writes. -/
def cchessEntry (p0 p : CchessPoint) (z : Option ChessPiece) : List Int8 :=
  [.ofNat (p0.1.val + 1), .ofNat (p0.2.val + 1), .ofNat (p.1.val + 1), .ofNat (p.2.val + 1),
    ChessPiece.code z]

/-- The move part of `cchess_go`. -/
def cchessMoveLog (t : Seats) (data : List UInt8) (f : Duel (CchessBoard × MoveLog)) :
    Duel (CchessBoard × MoveLog) × List Sent :=
  match cchessTarget data f.board with
  | none => (f, [])
  | some (p0, p) =>
      let (g, sent) := cchessAdvance t f.board p0 p
      (g.withLog (f.log.add cchessLayout f.n (cchessEntry p0 p (f.board.matrix p0))), sent)

/-- `cchess_go` -/
def cchessGoLog (r : PlayRequest) : Duel (CchessBoard × MoveLog) →
    Option (Duel (CchessBoard × MoveLog) × List Sent) :=
  Duel.goLog r.seats r.i cchessAnswerer (fun _ => true) cchessFf (cchessMoveLog r.seats) r.data

/-- A room of Chinese chess after some events. -/
def cchessRoom (es : List RoomEvent) : Duel (CchessBoard × MoveLog) :=
  es.foldl (Duel.stepLog cchessLayout cchessGoLog) (cchessInit.withLog .empty)

/-- `struct godata` -/
structure GoRoom where
  f : GoData
  n : Nat
  log : MoveLog

/-- The move of a request that is accepted. -/
def goPlayed (f : GoData) (r : PlayRequest) : Option (Int × Int) :=
  if goAccepts f r then scan2 r.data else none

/-- `go_go` and `go_restore` -/
def goStepLog (s : GoRoom) : RoomEvent → GoRoom
  | .request r =>
      match goPlayed s.f r with
      | none => { s with f := goStep s.f r }
      | some (y, x) =>
          let e := [y.toInt8, x.toInt8]
          ⟨goStep s.f r, (Journal.add goLayout s.log.history s.n e).2, s.log.add goLayout s.n e⟩
  | .restore => { s with log := s.log.terminate goLayout s.n }

/-- A room of go after some events. -/
def goRoom (es : List RoomEvent) : GoRoom := es.foldl goStepLog ⟨goInit, 0, .empty⟩

/-! ## The games without their histories -/

namespace Duel

variable {β : Type} {t : Seats} {i : Slot} {answerer : Bool → Duel β → Bool × Duel β}
  {mayResign : Duel β → Bool} {m : β} {move : List UInt8 → Duel β → Duel β × List Sent}
  {moveLog : List UInt8 → Duel (β × MoveLog) → Duel (β × MoveLog) × List Sent}

/-- What is left of a result without the history. -/
def boardOf (r : Duel (β × MoveLog) × List Sent) : Duel β × List Sent := (r.1.board, r.2)

theorem board_answer (f : Duel (β × MoveLog)) (no who : Bool) :
    (f.answer t i (m, .empty) no who).map boardOf = f.board.answer t i m no who := by
  have hq : f.board.q = f.q := rfl
  rw [answer, answer, hq]
  rcases f.q who with _ | _ | _ | k
  · rfl
  · simp only [apply_ite (Option.map boardOf)]
    rfl
  · simp only [apply_ite (Option.map boardOf)]
    rfl
  · rfl

/-- **The history is only written to.** -/
theorem board_goLog (hmove : ∀ data f, boardOf (moveLog data f) = move data f.board)
    (data : List UInt8) (f : Duel (β × MoveLog)) :
    (goLog t i answerer mayResign m moveLog data f).map boardOf =
      f.board.go t i answerer mayResign m move data := by
  unfold goLog go
  dsimp only
  simp only [apply_ite (Option.map boardOf), Option.map_some, hmove, board_answer]
  by_cases hboth : t.of false = t.of true
  · simp only [if_pos hboth]
    rfl
  · simp only [if_neg hboth]
    rfl

/-! ## What a request keeps -/

section keeps

variable {γ : Type} {P : γ → Nat → Prop} {start : γ}

theorem answer_keeps (hstart : P start 0) {f f' : Duel γ} {no who : Bool} {sent : List Sent}
    (h : P f.matrix f.n) (hanswer : f.answer t i start no who = some (f', sent)) :
    P f'.matrix f'.n := by
  unfold answer at hanswer
  split at hanswer
  · cases hanswer
    exact h
  · dsimp only at hanswer
    split at hanswer
    · split at hanswer
      · cases hanswer
        exact h
      · cases hanswer
        exact h
    · split at hanswer
      · cases hanswer
        exact hstart
      · cases hanswer
        exact h
  · dsimp only at hanswer
    split at hanswer
    · cases hanswer
      exact h
    · split at hanswer
      · cases hanswer
        exact h
      · contradiction
  · cases hanswer
    exact h

/-- **What holds at the start of a game, and is kept by its moves, is kept by all requests**,
when it is about the board and the number of moves. -/
theorem go_keeps {answerer : Bool → Duel γ → Bool × Duel γ} {mayResign : Duel γ → Bool}
    {move : List UInt8 → Duel γ → Duel γ × List Sent} {data : List UInt8} {f f' : Duel γ}
    {sent : List Sent} (hstart : P start 0)
    (hanswerer : ∀ who f, (answerer who f).2.matrix = f.matrix ∧ (answerer who f).2.n = f.n)
    (hmove : ∀ f, P f.matrix f.n → P (move data f).1.matrix (move data f).1.n)
    (h : P f.matrix f.n) (hgo : f.go t i answerer mayResign start move data = some (f', sent)) :
    P f'.matrix f'.n := by
  unfold go at hgo
  dsimp only at hgo
  split at hgo
  · cases hgo
    exact h
  split at hgo
  · refine answer_keeps hstart ?_ hgo
    split
    · rw [(hanswerer _ _).1, (hanswerer _ _).2]
      exact h
    · exact h
  split at hgo
  · cases hgo
    exact h
  split at hgo
  · cases hgo
    exact h
  split at hgo
  · cases hgo
    exact h
  split at hgo
  · split at hgo
    · cases hgo
      exact h
    · cases hgo
      exact h
  split at hgo
  · cases hgo
    exact h
  · have hkept := hmove (f.vacate t) h
    rw [Option.some.inj hgo] at hkept
    exact hkept

end keeps


/-! ## Rooms -/

section rooms

variable {L : Journal.Layout} {f₀ : Duel (β × MoveLog)}
  {go : PlayRequest → Duel (β × MoveLog) → Option (Duel (β × MoveLog) × List Sent)}

/-- A request that does not come to an end leaves the game. -/
theorem stepLog_request (f : Duel (β × MoveLog)) (r : PlayRequest) :
    stepLog L go f (.request r) = ((go r f).map Prod.fst).getD f := by
  show (match go r f with | some (f', _) => f' | none => f) = _
  cases go r f with
  | none => rfl
  | some result => rfl

theorem room_keeps {P : β × MoveLog → Nat → Prop}
    (hgo : ∀ r f f' sent, P f.matrix f.n → go r f = some (f', sent) → P f'.matrix f'.n)
    (hterminate : ∀ b log n, P (b, log) n → P (b, log.terminate L n) n)
    (h₀ : P f₀.matrix f₀.n) (es : List RoomEvent) :
    P (es.foldl (stepLog L go) f₀).matrix (es.foldl (stepLog L go) f₀).n := by
  refine List.foldlRecOn (motive := fun f : Duel (β × MoveLog) => P f.matrix f.n) es _ h₀
    fun f h e _ => ?_
  cases e with
  | restore => exact hterminate f.board.matrix f.log f.n h
  | request r =>
      rw [stepLog_request]
      cases hr : go r f with
      | none => exact h
      | some result => exact hgo r f result.1 result.2 h hr

/-- A room is a game that has a history. -/
theorem room_board {base : PlayRequest → Duel β → Option (Duel β × List Sent)}
    {step : Duel β → PlayRequest → Duel β}
    (hgo : ∀ r f, (go r f).map boardOf = base r f.board)
    (hstep : ∀ f r, step f r = ((base r f).map Prod.fst).getD f) (es : List RoomEvent) :
    (es.foldl (stepLog L go) f₀).board = (RoomEvent.requests es).foldl step f₀.board := by
  induction es generalizing f₀ with
  | nil => rfl
  | cons e es ih =>
      rw [List.foldl_cons, ih]
      cases e with
      | restore => rfl
      | request r =>
          have hboard : (stepLog L go f₀ (.request r)).board = step f₀.board r := by
            rw [stepLog_request, hstep, ← hgo]
            cases go r f₀ with
            | none => rfl
            | some result => rfl
          rw [hboard]
          rfl

end rooms

end Duel

/-! ## The histories -/

namespace MoveLog

variable {L : Journal.Layout} {log : MoveLog} {n : Nat}

/-- The history has the last `n` moves and `n` is not too much. -/
def Sound (L : Journal.Layout) (log : MoveLog) (n : Nat) : Prop := log.Right L n ∧ n ≤ L.cap

theorem sound_empty : Sound L .empty 0 := ⟨kept_nil, Nat.zero_le _⟩

@[simp] theorem played_terminate : (log.terminate L n).played = log.played := by
  unfold terminate
  split <;> rfl

theorem Right.terminate (h : log.Right L n) : (log.terminate L n).Right L n := by
  unfold MoveLog.terminate
  split
  · exact Kept.put h (Nat.le_refl _) [0]
  · exact h

theorem Sound.add {e : List Int8} (h : Sound L log n) (hL : L.Fits) (he : e.length = L.width) :
    Sound L (log.add L n e) (Journal.add L log.history n e).2 :=
  Kept.add hL h.1 h.2 he

end MoveLog

theorem fits_five : fiveLayout.Fits := ⟨by decide, by decide, rfl, by decide⟩

theorem fits_go : goLayout.Fits := ⟨by decide, by decide, rfl, by decide⟩

/-- An entry of Chinese chess has five bytes, and ten of them are not 20. -/
theorem not_fits_cchess : ¬ cchessLayout.Fits := fun h => absurd h.off (by decide)

theorem add_snd (L : Journal.Layout) (a : Nat → Int8) (n : Nat) (e : List Int8) :
    (Journal.add L a n e).2 = (if n ≥ L.cap then n - L.drop else n) + 1 := by
  rcases Nat.lt_or_ge n L.cap with hlt | hge
  · rw [add_of_lt hlt, if_neg (Nat.not_le.mpr hlt)]
  · rw [add_of_ge hge, if_pos hge]

/-! ### Five in a row -/

theorem fivePlace_fst (t : Seats) (f : FiveData) (p : FivePoint) :
    (fivePlace t f p).1.matrix = update f.matrix p (some f.who) ∧
      (fivePlace t f p).1.n = fiveAddhistory f.n := by
  unfold fivePlace
  dsimp only
  split
  · exact ⟨rfl, rfl⟩
  · exact ⟨rfl, rfl⟩

theorem fiveAnswerer_keeps (who : Bool) (f : FiveData) :
    (fiveAnswerer who f).2.matrix = f.matrix ∧ (fiveAnswerer who f).2.n = f.n := by
  unfold fiveAnswerer
  split
  · exact ⟨rfl, rfl⟩
  · exact ⟨rfl, rfl⟩

theorem fiveMoveLog_sound {t : Seats} {data : List UInt8} {f : Duel (FiveBoard × MoveLog)}
    (h : f.log.Sound fiveLayout f.n) :
    (fiveMoveLog t data f).1.log.Sound fiveLayout (fiveMoveLog t data f).1.n := by
  unfold fiveMoveLog
  split
  · exact h
  · next p _ =>
      have hadd := h.add fits_five (e := fiveEntry p) rfl
      rw [add_snd] at hadd
      show MoveLog.Sound fiveLayout _ (fivePlace t f.board p).1.n
      rw [(fivePlace_fst t f.board p).2]
      exact hadd

theorem fiveRoom_sound (es : List RoomEvent) :
    (fiveRoom es).log.Sound fiveLayout (fiveRoom es).n := by
  refine Duel.room_keeps (P := fun b n => b.2.Sound fiveLayout n) ?_ ?_ ?_ es
  · intro r f f' sent h hgo
    unfold fiveGoLog Duel.goLog at hgo
    refine Duel.go_keeps (P := fun (b : FiveBoard × MoveLog) n => b.2.Sound fiveLayout n)
      MoveLog.sound_empty ?_ ?_ h hgo
    · exact fun who f => ⟨Prod.ext (fiveAnswerer_keeps who f.board).1 rfl,
        (fiveAnswerer_keeps who f.board).2⟩
    · exact fun f hf => fiveMoveLog_sound hf
  · exact fun b log n h => ⟨h.1.terminate, h.2⟩
  · exact MoveLog.sound_empty

theorem fiveGoLog_board (r : PlayRequest) (f : Duel (FiveBoard × MoveLog)) :
    (fiveGoLog r f).map Duel.boardOf = fiveGo r.seats r.i r.data f.board := by
  refine Duel.board_goLog (fun data f => ?_) r.data f
  unfold fiveMoveLog fiveMove
  cases fiveTarget data f.board with
  | none => rfl
  | some p => rfl

theorem fiveRoom_board (es : List RoomEvent) :
    (fiveRoom es).board = fivePlay (RoomEvent.requests es) := by
  refine Duel.room_board fiveGoLog_board (fun f r => ?_) es
  unfold fiveStep
  cases fiveGo r.seats r.i r.data f with
  | none => rfl
  | some result => rfl

/-! ### Go -/

theorem goStepLog_sound {s : GoRoom} (h : s.log.Sound goLayout s.n) (e : RoomEvent) :
    (goStepLog s e).log.Sound goLayout (goStepLog s e).n := by
  cases e with
  | restore => exact ⟨h.1.terminate, h.2⟩
  | request r =>
      unfold goStepLog
      dsimp only
      split
      · exact h
      · exact h.add fits_go rfl

theorem goRoom_sound (es : List RoomEvent) : (goRoom es).log.Sound goLayout (goRoom es).n :=
  List.foldlRecOn (motive := fun s => s.log.Sound goLayout s.n) es goStepLog MoveLog.sound_empty
    fun _ h e _ => goStepLog_sound h e

theorem goRoom_f (es : List RoomEvent) : (goRoom es).f = goPlay (RoomEvent.requests es) := by
  have hrun : ∀ s : GoRoom,
      (es.foldl goStepLog s).f = (RoomEvent.requests es).foldl goStep s.f := by
    induction es with
    | nil => exact fun _ => rfl
    | cons e es ih =>
        intro s
        rw [List.foldl_cons, ih]
        cases e with
        | restore => rfl
        | request r =>
            have hstep : (goStepLog s (.request r)).f = goStep s.f r := by
              unfold goStepLog
              dsimp only
              split
              · rfl
              · rfl
            rw [hstep]
            rfl
  exact hrun _

/-! ### Chinese chess -/

/-- The code of a piece is what `matrix` has for it. -/
theorem ofCode_code (z : Option ChessPiece) : ChessPiece.ofCode (ChessPiece.code z).toInt = z := by
  rcases z with _ | ⟨side, kind⟩
  · rfl
  · cases side <;> cases kind <;> decide

theorem cchessAdvance_fst (t : Seats) (f : CchessData) (p0 p : CchessPoint) :
    (cchessAdvance t f p0 p).1.matrix = f.matrix.shift p0 p ∧
      (cchessAdvance t f p0 p).1.n = cchessAddhistory f.n := by
  unfold cchessAdvance
  dsimp only
  split
  · exact ⟨rfl, rfl⟩
  · exact ⟨rfl, rfl⟩

/-- In a game that is not longer than the array nothing has been dropped. -/
def MoveLog.Short (log : MoveLog) (n : Nat) : Prop :=
  log.played.length ≤ 1000 → log.Right cchessLayout n ∧ n = log.played.length

theorem MoveLog.Short.add {log : MoveLog} {n : Nat} {e : List Int8} (h : log.Short n)
    (he : e.length = 5) : (log.add cchessLayout n e).Short (cchessAddhistory n) := by
  intro hle
  have hplayed : (log.add cchessLayout n e).played.length = log.played.length + 1 :=
    List.length_append
  obtain ⟨hright, hn⟩ := h (by omega)
  have hlt : n < cchessLayout.cap := by
    show n < 1000
    omega
  have hadd := add_of_lt (a := log.history) hlt e
  have hcount : cchessAddhistory n = n + 1 :=
    (add_snd cchessLayout log.history n e).symm.trans (congrArg Prod.snd hadd)
  rw [hcount]
  refine ⟨?_, by omega⟩
  show Kept 5 (Journal.add cchessLayout log.history n e).1 (n + 1) (log.played ++ [e])
  rw [hadd]
  exact hright.append he

theorem cchessMoveLog_short {t : Seats} {data : List UInt8} {f : Duel (CchessBoard × MoveLog)}
    (h : f.log.Short f.n) : (cchessMoveLog t data f).1.log.Short (cchessMoveLog t data f).1.n := by
  unfold cchessMoveLog
  split
  · exact h
  · next p0 p _ =>
      show MoveLog.Short _ (cchessAdvance t f.board p0 p).1.n
      rw [(cchessAdvance_fst t f.board p0 p).2]
      exact h.add rfl

theorem cchessRoom_short (es : List RoomEvent) : (cchessRoom es).log.Short (cchessRoom es).n := by
  have hempty : MoveLog.Short .empty 0 := fun _ => ⟨kept_nil, rfl⟩
  refine Duel.room_keeps (P := fun b n => b.2.Short n) ?_ ?_ hempty es
  · intro r f f' sent h hgo
    unfold cchessGoLog Duel.goLog at hgo
    refine Duel.go_keeps (P := fun (b : CchessBoard × MoveLog) n => b.2.Short n) hempty ?_ ?_ h hgo
    · exact fun who f => ⟨rfl, rfl⟩
    · exact fun f hf => cchessMoveLog_short hf
  · intro b log n h hle
    rw [MoveLog.played_terminate] at hle ⊢
    exact ⟨(h hle).1.terminate, (h hle).2⟩

theorem cchessGoLog_board (r : PlayRequest) (f : Duel (CchessBoard × MoveLog)) :
    (cchessGoLog r f).map Duel.boardOf = cchessGo r.seats r.i r.data f.board := by
  refine Duel.board_goLog (fun data f => ?_) r.data f
  unfold cchessMoveLog cchessMove
  cases cchessTarget data f.board with
  | none => rfl
  | some p => rfl

theorem cchessRoom_board (es : List RoomEvent) :
    (cchessRoom es).board = cchessPlay (RoomEvent.requests es) := by
  refine Duel.room_board cchessGoLog_board (fun f r => ?_) es
  unfold cchessStep
  cases cchessGo r.seats r.i r.data f with
  | none => rfl
  | some result => rfl

/-- **Histories.**  After any events the history of five in a row, and that of go, has the last
`n` moves of the game in order; that of Chinese chess has them while the game has no more moves
than the array. -/
theorem histories_right (es : List RoomEvent) :
    (fiveRoom es).log.Right fiveLayout (fiveRoom es).n ∧
      (goRoom es).log.Right goLayout (goRoom es).n ∧
      ((cchessRoom es).log.played.length ≤ 1000 →
        (cchessRoom es).log.Right cchessLayout (cchessRoom es).n) :=
  ⟨(fiveRoom_sound es).1, (goRoom_sound es).1, fun hle => (cchessRoom_short es hle).1⟩

/-! ### A game with 1001 moves -/

namespace RookGame

theorem zero_lt_NUARRAY : 0 < NUARRAY := by decide

theorem one_lt_NUARRAY : 1 < NUARRAY := by decide

def slot0 : Slot := ⟨0, zero_lt_NUARRAY⟩

def slot1 : Slot := ⟨1, one_lt_NUARRAY⟩

def seats : Seats :=
  ⟨fun k => if k.val = 0 then some slot0 else if k.val = 1 then some slot1 else none, fun _ => ""⟩

/-- A move of a rook to the place before it, `1 1 2 1`. -/
def out0 : PlayRequest := ⟨seats, slot0, [49, 32, 49, 32, 50, 32, 49]⟩

/-- `10 1 9 1` -/
def out1 : PlayRequest := ⟨seats, slot1, [49, 48, 32, 49, 32, 57, 32, 49]⟩

/-- `2 1 1 1` -/
def back0 : PlayRequest := ⟨seats, slot0, [50, 32, 49, 32, 49, 32, 49]⟩

/-- `9 1 10 1` -/
def back1 : PlayRequest := ⟨seats, slot1, [57, 32, 49, 32, 49, 48, 32, 49]⟩

/-- Both players move a rook to and fro. -/
def round : List RoomEvent := [out0, out1, back0, back1].map .request

/-- What a round writes. -/
def entries : List (List Int8) :=
  [[1, 1, 2, 1, 4], [10, 1, 9, 1, -4], [2, 1, 1, 1, 4], [9, 1, 10, 1, -4]]

/-- 250 rounds, and a move. -/
def game : List RoomEvent := (List.replicate 250 round).flatten ++ [.request out0]

/-- A room where the game goes on. -/
def room (m : CchessBoard) (who : Bool) (n : Nat) (log : MoveLog) : Duel (CchessBoard × MoveLog) :=
  ⟨(m, log), who, n, false, fun _ => 0⟩

/-- A request that is a move. -/
theorem step_room {m : CchessBoard} {who : Bool} {r : PlayRequest} {p0 p : CchessPoint}
    (hseats : r.seats = seats) (hi : seats.of who = some r.i) (hdata : r.data.headD 0 ∈ [49, 50, 57])
    (htarget : ∀ n, cchessTarget r.data ⟨m, who, n, false, fun _ => 0⟩ = some (p0, p))
    (hjiang : (m p).any (fun z => z.kind = .jiang) = false) (n : Nat) (log : MoveLog) :
    Duel.stepLog cchessLayout cchessGoLog (room m who n log) (.request r) =
      room (m.shift p0 p) (!who) (cchessAddhistory n)
        (log.add cchessLayout n (cchessEntry p0 p (m p0))) := by
  have hmove : cchessMoveLog seats r.data (room m who n log) =
      (room (m.shift p0 p) (!who) (cchessAddhistory n)
        (log.add cchessLayout n (cchessEntry p0 p (m p0))),
        (cchessAdvance seats ⟨m, who, n, false, fun _ => 0⟩ p0 p).2) := by
    have hboard : (room m who n log).board = ⟨m, who, n, false, fun _ => 0⟩ := rfl
    unfold cchessMoveLog
    rw [hboard, htarget]
    unfold cchessAdvance
    simp only [hjiang, Bool.false_eq_true, if_false]
    rfl
  have hvacate : (room m who n log).vacate seats = room m who n log := by
    have hq : (fun s => if seats.of s = none then 0 else (room m who n log).q s) = fun _ => 0 :=
      funext fun s => ite_self 0
    unfold Duel.vacate
    rw [hq]
    rfl
  have hseat : ¬ (seats.of false ≠ some r.i ∧ seats.of true ≠ some r.i) := by
    rintro ⟨hfalse, htrue⟩
    cases who with
    | false => exact hfalse hi
    | true => exact htrue hi
  have hgo : cchessGoLog r (room m who n log) =
      some (cchessMoveLog seats r.data (room m who n log)) := by
    unfold cchessGoLog Duel.goLog Duel.go
    rw [hseats, if_neg hseat]
    dsimp only
    rw [hvacate]
    have hno : ∀ c : UInt8, c ∉ ([49, 50, 57] : List UInt8) → r.data.headD 0 ≠ c :=
      fun c hc heq => hc (heq ▸ hdata)
    have hturn : ¬ seats.of (room m who n log).who ≠ some r.i := not_not.mpr hi
    rw [if_neg (not_or.mpr ⟨hno _ (by decide), hno _ (by decide)⟩), if_neg (by simp [room]),
      if_neg (hno _ (by decide)), if_neg (by simp [room]), if_neg (hno _ (by decide)),
      if_neg hturn]
  rw [Duel.stepLog_request, hgo, hmove]
  rfl

/-- The board after a round is the one before it. -/
theorem shift_back :
    (((cchessFf.shift (0, 0) (1, 0)).shift (9, 0) (8, 0)).shift (1, 0) (0, 0)).shift (8, 0) (9, 0) =
      cchessFf := by
  funext p
  revert p
  decide

/-- A round. -/
theorem round_room {n : Nat} (hn : n + 4 ≤ 1000) (log : MoveLog) :
    ∃ log', round.foldl (Duel.stepLog cchessLayout cchessGoLog) (room cchessFf false n log) =
        room cchessFf false (n + 4) log' ∧ log'.played = log.played ++ entries := by
  have hcount : ∀ k < 1000, cchessAddhistory k = k + 1 := by
    intro k hk
    rw [cchessAddhistory, if_neg (by omega)]
  let m1 := cchessFf.shift (0, 0) (1, 0)
  let m2 := m1.shift (9, 0) (8, 0)
  let m3 := m2.shift (1, 0) (0, 0)
  have h0 := @step_room cchessFf false out0 (0, 0) (1, 0) rfl rfl (by decide) (fun _ => rfl)
    (by decide)
  have h1 := @step_room m1 true out1 (9, 0) (8, 0) rfl rfl (by decide) (fun _ => rfl) (by decide)
  have h2 := @step_room m2 false back0 (1, 0) (0, 0) rfl rfl (by decide) (fun _ => rfl) (by decide)
  have h3 := @step_room m3 true back1 (8, 0) (9, 0) rfl rfl (by decide) (fun _ => rfl) (by decide)
  have hback : m3.shift (8, 0) (9, 0) = cchessFf := shift_back
  unfold round
  simp only [List.map_cons, List.map_nil, List.foldl_cons, List.foldl_nil]
  rw [h0, hcount n (by omega)]
  rw [Bool.not_false, h1, hcount (n + 1) (by omega), Bool.not_true, h2, hcount (n + 1 + 1) (by omega),
    Bool.not_false, h3, hcount (n + 1 + 1 + 1) (by omega), hback]
  refine ⟨_, rfl, ?_⟩
  simp only [MoveLog.add, List.append_assoc]
  rfl

theorem rounds_room : ∀ k, 4 * k ≤ 1000 →
    ∃ log, cchessRoom (List.replicate k round).flatten = room cchessFf false (4 * k) log ∧
      log.played = (List.replicate k entries).flatten := by
  intro k
  induction k with
  | zero => exact fun _ => ⟨.empty, rfl, rfl⟩
  | succ k ih =>
      intro hk
      obtain ⟨log, hroom, hplayed⟩ := ih (by omega)
      obtain ⟨log', hround, hplayed'⟩ := round_room (n := 4 * k) (by omega) log
      refine ⟨log', ?_, ?_⟩
      · rw [List.replicate_succ', List.flatten_append, List.flatten_singleton]
        unfold cchessRoom at hroom ⊢
        rw [List.foldl_append, hroom, hround]
        rfl
      · rw [hplayed', hplayed, List.replicate_succ', List.flatten_append, List.flatten_singleton]

/-- **After 1001 moves** the history begins with the fifth of them, and not with the eleventh. -/
theorem history_moved :
    ¬ (cchessRoom game).log.Right cchessLayout (cchessRoom game).n := by
  obtain ⟨log, hroom, hplayed⟩ := rounds_room 250 (by decide)
  have hlength : log.played.length = 1000 := by
    rw [hplayed, List.length_flatten, List.map_replicate, List.sum_replicate]
    rfl
  have hfull : Kept 5 log.history 1000 log.played := by
    have hshort := cchessRoom_short (List.replicate 250 round).flatten
    rw [hroom] at hshort
    exact (hshort hlength.le).1
  have hlast : cchessRoom game =
      room (cchessFf.shift (0, 0) (1, 0)) true 991 (log.add cchessLayout 1000 [1, 1, 2, 1, 4]) := by
    unfold game
    unfold cchessRoom at hroom ⊢
    rw [List.foldl_append, hroom]
    exact @step_room cchessFf false out0 (0, 0) (1, 0) rfl rfl (by decide) (fun _ => rfl)
      (by decide) 1000 log
  rw [hlast]
  rintro ⟨-, hkept⟩
  change Journal.entries 5 (Journal.add cchessLayout log.history 1000 [1, 1, 2, 1, 4]).1 991 =
    (log.played ++ [[1, 1, 2, 1, 4]]).drop ((log.played ++ [[1, 1, 2, 1, 4]]).length - 991) at hkept
  rw [List.length_append, hlength, hplayed] at hkept
  -- the byte 20 was the first of the fifth move, and is now the first of all
  have hfifth : some ((List.range 5).map fun i => log.history (5 * 4 + i)) =
      some [1, 1, 2, 1, 4] := by
    rw [← getElem?_entries (show 4 < 1000 by decide), hfull.2, hlength, hplayed]
    rfl
  have hfirst := congrArg (fun es => es[0]?) hkept
  rw [getElem?_entries (show 0 < 991 by decide), List.getElem?_drop,
    List.getElem?_append_left (by rw [← hplayed, hlength]; decide)] at hfirst
  change _ = some [2, 1, 1, 1, 4] at hfirst
  have hbyte : log.history 20 = 1 := congrArg (fun e => e.headD 0) (Option.some.inj hfifth)
  have hbyte' : log.history 20 = 2 := congrArg (fun e => e.headD 0) (Option.some.inj hfirst)
  rw [hbyte] at hbyte'
  exact absurd hbyte' (by decide)

end RookGame

end Ytht
