import Ytht.Chessd.Rooms

/-!
# Chessd.Play

What the games of the chess server share: the seats at a board, what a handler sends,
and the numbers of a request.  Five in a row and Chinese chess also share their
questions to the players (`Duel.go`); they differ in who answers when one client has
both seats, in when a player may resign, and in the moves.

The texts are in GBK in the source.
-/

namespace Ytht

open Function

/-! ## Seats and messages -/

/-- The seats of a room, and what its clients are called. -/
structure Seats where
  seat : Fin 8 → Option Slot
  userid : Slot → String

/-- The seat of a colour. -/
def Seats.of (t : Seats) (who : Bool) : Option Slot := t.seat (if who then 1 else 0)

/-- A request of a client, at the seats of that moment. -/
structure PlayRequest where
  seats : Seats
  i : Slot
  data : List UInt8

/-- A message that a handler sends with `strmq`. -/
inductive Sent where
  /-- `addmsgqueue(i, ..)`.  No slot is -1. -/
  | addmsgqueue (i : Option Slot) (cmd : UInt8) (text : String)
  /-- `broadcastroom(r, ..)` for the room of the game. -/
  | broadcastroom (cmd : UInt8) (text : String)
  deriving DecidableEq

/-- The first argument of `addmsgqueue`. -/
def Sent.to : Sent → Option (Option Slot)
  | .addmsgqueue i _ _ => some i
  | .broadcastroom _ _ => none

/-- `'C'` -/
def cmdC : UInt8 := 67

/-- What `five_seatchanged`, `cchess_seatchanged` and `go_seatchanged` send. -/
def seatchanged (t : Seats) (who : Bool) : Sent :=
  let name (s : Bool) : String :=
    match t.of s with
    | some k => t.userid k
    | none => if s then "空座位1" else "空座位0"
  .broadcastroom 6 s!"s{name false} {name true} {who.toNat}"

/-! ## The numbers of a request -/

/-- `sscanf` with `"%d %d"`, when it returns 2. -/
def scan2 (str : List UInt8) : Option (Int × Int) := do
  let (y, rest) ← scanNext str
  let (x, _) ← scanNext rest
  some (y, x)

/-- `sscanf` with `"%d %d %d %d"`, when it returns 4. -/
def scan4 (str : List UInt8) : Option (Int × Int × Int × Int) := do
  let (y0, rest) ← scanNext str
  let (x0, rest) ← scanNext rest
  let (y, x) ← scan2 rest
  some (y0, x0, y, x)

/-! ## Two players -/

/-- `struct fivedata` and `struct cchessdata`, without their histories.  Nothing sets
a question to more than 1. -/
structure Duel (β : Type) where
  matrix : β
  who : Bool
  n : Nat
  fi : Bool
  q : Bool → Nat

namespace Duel

variable {β : Type}

/-- A board at the start of a game. -/
def fresh (m : β) : Duel β := ⟨m, false, 0, false, fun _ => 0⟩

variable (t : Seats) (i : Slot) (f : Duel β)

/-- Who left has no question to answer. -/
def vacate : Duel β := { f with q := fun s => if t.of s = none then 0 else f.q s }

def setQ (s : Bool) (v : Nat) : Duel β := { f with q := update f.q s v }

/-- `five_restart` and `cchess_restart`. -/
def restart (m : β) : Duel β × List Sent :=
  (fresh m, [.broadcastroom 6 "N", seatchanged t (fresh m).who])

/-- The answer `y` or `n` of a player.  Taking a move back does nothing, so that the
loop in case 2 never ends unless it is over at once. -/
def answer (m : β) (no : Bool) (who : Bool) : Option (Duel β × List Sent) :=
  match f.q who with
  | 0 => some (f, [])
  | 1 =>
      let f := f.setQ who 0
      if no then
        if (t.of (!who)).isSome then
          some (f.setQ (!who) 0, [.addmsgqueue (t.of (!who)) 6 "n"])
        else some (f, [])
      else if f.q (!who) = 0 then
        let (f, sent) := restart t m
        some (f, sent ++ [.broadcastroom cmdC "重新开局"])
      else some (f, [.addmsgqueue (some i) cmdC "正在征询对方意见"])
  | 2 =>
      let f := f.setQ who 0
      if no then some (f, [.addmsgqueue (t.of (!who)) 6 "n"])
      else if f.who = !who then some (f, [])
      else none
  | _ => some (f, [])

/-- The request `N`. -/
def askRestart (who : Bool) : Duel β × List Sent :=
  (f.setQ (!who) 1,
    [.addmsgqueue (some i) cmdC "正在征求对方意见",
      .addmsgqueue (t.of (!who)) 6 "q对方提出重新开局, 是否同意?(y/n)"])

/-- The end of a game: both are asked for another one. -/
def finish : Duel β := { f with fi := true, q := fun _ => 1 }

/-- The request `F`. -/
def resign (who : Bool) : Duel β × List Sent :=
  (f.finish,
    [.addmsgqueue (t.of who) 6 "q你认输了, 重新开局?(y/n)",
      .addmsgqueue (t.of (!who)) 6 "q对方认输了, 重新开局?(y/n)",
      .broadcastroom cmdC s!"{t.userid i} 认输了"])

/-- `five_go` and `cchess_go`: `answerer` is who answers, and what becomes of the
questions, when one client has both seats; `mayResign` is asked by `F`; `m` is the
board of a new game. -/
def go (answerer : Bool → Duel β → Bool × Duel β) (mayResign : Duel β → Bool) (m : β)
    (move : List UInt8 → Duel β → Duel β × List Sent) (data : List UInt8) :
    Option (Duel β × List Sent) :=
  if t.of false ≠ some i ∧ t.of true ≠ some i then some (f, [])
  else
    let f := f.vacate t
    let ch := data.headD 0
    let who := decide (t.of false ≠ some i)
    if ch = 121 ∨ ch = 110 then
      let (who, f) := if t.of false = t.of true then answerer who f else (who, f)
      f.answer t i m (ch = 110) who
    else if f.q false ≠ 0 ∨ f.q true ≠ 0 then some (f, [])
    else if ch = 78 then some (f.askRestart t i who)
    else if f.fi then some (f, [])
    else if ch = 70 then
      if mayResign f then some (f.resign t i who) else some (f, [])
    else if t.of f.who ≠ some i then some (f, [])
    else some (move data f)

/-- No question but those that are asked. -/
def Asks : Prop := ∀ s, f.q s ≤ 1

/-- The game itself is the same, or has been ended. -/
structure SameGame (f' : Duel β) : Prop where
  matrix : f'.matrix = f.matrix
  who : f'.who = f.who
  fi : f.fi = true → f'.fi = true

variable {t i f}

theorem SameGame.refl : f.SameGame f := ⟨rfl, rfl, id⟩

theorem SameGame.trans {f' f'' : Duel β} (h : f.SameGame f') (h' : f'.SameGame f'') :
    f.SameGame f'' :=
  ⟨h'.matrix.trans h.matrix, h'.who.trans h.who, fun hfi => h'.fi (h.fi hfi)⟩

theorem SameGame.fi_eq_false {f' : Duel β} (h : f.SameGame f') (hfi : f'.fi = false) :
    f.fi = false := by
  by_contra htrue
  rw [h.fi (Bool.eq_true_of_not_eq_false htrue)] at hfi
  contradiction

theorem Asks.setQ (h : f.Asks) (s : Bool) {v : Nat} (hv : v ≤ 1) : (f.setQ s v).Asks := by
  intro s'
  by_cases hs : s' = s
  · simp [Duel.setQ, hs, hv]
  · simp [Duel.setQ, hs, h s']

theorem Asks.vacate (h : f.Asks) : (f.vacate t).Asks := by
  intro s
  simp only [Duel.vacate]
  split
  · exact Nat.zero_le 1
  · exact h s

theorem Asks.finish : f.finish.Asks := fun _ => Nat.le_refl 1

theorem Asks.fresh {m : β} : (fresh m).Asks := fun _ => Nat.zero_le 1

/-- What a request can do, `f'` being the game after it. -/
inductive Outcome (t : Seats) (i : Slot) (m : β) (move : Duel β → Duel β × List Sent) (f : Duel β) :
    Duel β → List Sent → Prop
  | same {f' : Duel β} {sent : List Sent} : f.SameGame f' → f'.Asks → Outcome t i m move f f' sent
  | restart {sent : List Sent} : Outcome t i m move f (Duel.fresh m) sent
  | move {g : Duel β} : f.SameGame g → g.fi = false → t.of g.who = some i → g.Asks →
      Outcome t i m move f (move g).1 (move g).2

theorem Outcome.of_same {m : β} {move : Duel β → Duel β × List Sent} {g f' : Duel β}
    {sent : List Sent} (hg : f.SameGame g) (h : Outcome t i m move g f' sent) :
    Outcome t i m move f f' sent := by
  cases h with
  | same hsame hasks => exact .same (hg.trans hsame) hasks
  | restart => exact .restart
  | move hsame hfi hturn hasks => exact .move (hg.trans hsame) hfi hturn hasks

/-- An answer is taken: no question is that of case 2. -/
theorem answer_spec {m : β} (no who : Bool) {move : Duel β → Duel β × List Sent} (h : f.Asks) :
    ∃ f' sent, f.answer t i m no who = some (f', sent) ∧ Outcome t i m move f f' sent := by
  have hwho := h.setQ who (Nat.zero_le 1)
  have hsame (s : Bool) (v : Nat) : f.SameGame (f.setQ s v) := ⟨rfl, rfl, id⟩
  unfold answer
  split
  · exact ⟨_, _, rfl, .same .refl h⟩
  · dsimp only
    split
    · split
      · exact ⟨_, _, rfl, .same ⟨rfl, rfl, id⟩ (hwho.setQ _ (Nat.zero_le 1))⟩
      · exact ⟨_, _, rfl, .same (hsame _ _) hwho⟩
    · split
      · exact ⟨_, _, rfl, .restart⟩
      · exact ⟨_, _, rfl, .same (hsame _ _) hwho⟩
  · next htwo =>
      have hle := h who
      omega
  · exact ⟨_, _, rfl, .same .refl h⟩

/-- **What a request does**: it leaves the game as it is or ends it, starts another one,
or is a move of the client whose turn it is. -/
theorem go_spec {answerer : Bool → Duel β → Bool × Duel β} {mayResign : Duel β → Bool} {m : β}
    {move : List UInt8 → Duel β → Duel β × List Sent} {data : List UInt8}
    (hanswerer : ∀ who (f : Duel β), f.Asks →
      f.SameGame (answerer who f).2 ∧ (answerer who f).2.Asks) (h : f.Asks) :
    ∃ f' sent, f.go t i answerer mayResign m move data = some (f', sent) ∧
      Outcome t i m (move data) f f' sent := by
  have hvacate : f.SameGame (f.vacate t) := ⟨rfl, rfl, id⟩
  have hasks := h.vacate (t := t)
  unfold go
  split
  · exact ⟨_, _, rfl, .same .refl h⟩
  dsimp only
  split
  · have hanswer : ∀ who, (f.vacate t).SameGame
        (if t.of false = t.of true then answerer who (f.vacate t) else (who, f.vacate t)).2 ∧
        (if t.of false = t.of true then answerer who (f.vacate t) else (who, f.vacate t)).2.Asks := by
      intro who
      split
      · exact hanswerer who _ hasks
      · exact ⟨.refl, hasks⟩
    obtain ⟨hsame, hasks'⟩ := hanswer (decide (t.of false ≠ some i))
    obtain ⟨f', sent, heq, hout⟩ := answer_spec _ _ hasks'
    exact ⟨f', sent, heq, hout.of_same (hvacate.trans hsame)⟩
  split
  · exact ⟨_, _, rfl, .same hvacate hasks⟩
  split
  · exact ⟨_, _, rfl, .same ⟨rfl, rfl, id⟩ (hasks.setQ _ (Nat.le_refl 1))⟩
  split
  · exact ⟨_, _, rfl, .same hvacate hasks⟩
  next hfi =>
  split
  · split
    · exact ⟨_, _, rfl, .same ⟨rfl, rfl, fun _ => rfl⟩ .finish⟩
    · exact ⟨_, _, rfl, .same hvacate hasks⟩
  split
  · exact ⟨_, _, rfl, .same hvacate hasks⟩
  next hturn =>
    exact ⟨_, _, rfl, .move hvacate (Bool.not_eq_true _ ▸ hfi) (not_not.mp hturn) hasks⟩

end Duel

end Ytht
