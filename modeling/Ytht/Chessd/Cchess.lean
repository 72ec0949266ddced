import Mathlib.Data.Fintype.Prod
import Ytht.Chessd.Play

/-!
# Chessd.Cchess

Chinese chess.  `can_cchess` tells whether a piece can go from one place to another,
without asking whose the pieces are; `cchess_go` asks that first, and ends the game when
a general is taken.

`InPlace` is what holds of the board while the game goes on, and `Advance` what a move
does to it.
-/

namespace Ytht

open Function

/-! ## The board -/

/-- `c_jiang` to `c_zu`. -/
inductive ChessKind where
  | jiang | shi | xiang | ju | ma | pao | zu
  deriving DecidableEq

/-- A piece; those of seat 1 are negative in the source. -/
structure ChessPiece where
  side : Bool
  kind : ChessKind
  deriving DecidableEq

abbrev CchessPoint := Fin 10 × Fin 9

abbrev CchessBoard := CchessPoint → Option ChessPiece

abbrev CchessData := Duel CchessBoard

/-- The kind of an entry of `matrix`. -/
def ChessKind.ofCode : Nat → Option ChessKind
  | 1 => some .jiang
  | 2 => some .shi
  | 3 => some .xiang
  | 4 => some .ju
  | 5 => some .ma
  | 6 => some .pao
  | 7 => some .zu
  | _ => none

/-- An entry of `matrix`. -/
def ChessPiece.ofCode (z : Int) : Option ChessPiece :=
  (ChessKind.ofCode z.natAbs).map fun kind => ⟨decide (z < 0), kind⟩

/-- `cchess_ff` -/
def cchessFf : CchessBoard := fun p =>
  ChessPiece.ofCode <|
    ([[4, 5, 3, 2, 1, 2, 3, 5, 4],
      [],
      [0, 6, 0, 0, 0, 0, 0, 6, 0],
      [7, 0, 7, 0, 7, 0, 7, 0, 7],
      [],
      [],
      [-7, 0, -7, 0, -7, 0, -7, 0, -7],
      [0, -6, 0, 0, 0, 0, 0, -6, 0],
      [],
      [-4, -5, -3, -2, -1, -2, -3, -5, -4]].getD p.1 []).getD p.2 0

/-- `matrix[i][j]` -/
def CchessBoard.entry (m : CchessBoard) (i j : Nat) : Option ChessPiece :=
  if h : i < 10 ∧ j < 9 then m (⟨i, h.1⟩, ⟨j, h.2⟩) else none

/-- The indices from `min(a,b)+1` to `max(a,b)-1`. -/
def strictlyBetween (a b : Nat) : List Nat := List.range' (min a b + 1) (max a b - (min a b + 1))

/-- The pieces in row `i` between two columns. -/
def CchessBoard.inRow (m : CchessBoard) (i a b : Nat) : Nat :=
  (strictlyBetween a b).countP fun n => (m.entry i n).isSome

/-- The pieces in column `j` between two rows. -/
def CchessBoard.inColumn (m : CchessBoard) (j a b : Nat) : Nat :=
  (strictlyBetween a b).countP fun n => (m.entry n j).isSome

/-- `abs(a-b)` -/
def absDiff (a b : Nat) : Nat := max a b - min a b

/-- The rows and columns of the palaces. -/
def inPalaces (i j : Nat) : Bool := !((2 < i && i < 7) || (j < 3 || 5 < j))

/-- `can_cchess`, from `p0` to `p`. -/
def canCchess (m : CchessBoard) (p0 p : CchessPoint) : Bool :=
  let i0 := p0.1.val
  let j0 := p0.2.val
  let i := p.1.val
  let j := p.2.val
  match m p0 with
  | none => true
  | some z =>
      match z.kind with
      | .jiang =>
          if j0 = j ∧ (m p).any (fun z => z.kind = .jiang) then m.inColumn j i0 i = 0
          else inPalaces i j && absDiff i i0 + absDiff j j0 ≤ 1
      | .shi => inPalaces i j && absDiff i i0 = 1 && absDiff j j0 = 1
      | .xiang =>
          !((i < 5 && 5 ≤ i0) || (5 ≤ i && i0 < 5)) && absDiff i i0 = 2 && absDiff j j0 = 2 &&
            m.entry ((i + i0) / 2) ((j + j0) / 2) = none
      | .ju =>
          if i = i0 then m.inRow i j0 j = 0
          else if j = j0 then m.inColumn j i0 i = 0
          else false
      | .ma =>
          if absDiff i i0 = 2 ∧ absDiff j j0 = 1 then m.entry ((i + i0) / 2) j0 = none
          else if absDiff i i0 = 1 ∧ absDiff j j0 = 2 then m.entry i0 ((j + j0) / 2) = none
          else false
      | .pao =>
          if i ≠ i0 ∧ j ≠ j0 then false
          else
            let n := if i = i0 then m.inRow i j0 j else m.inColumn j i0 i
            (n = 1 && (m p).isSome) || (n = 0 && (m p).isNone)
      | .zu =>
          if absDiff i i0 + absDiff j j0 ≠ 1 then false
          else if z.side = false then
            if i0 < 5 ∧ i ≤ i0 then false else !(i < i0)
          else
            if 4 < i0 ∧ i0 ≤ i then false else !(i0 < i)

/-! ## Requests -/

/-- `cchess_addhistory`: the length of the history. -/
def cchessAddhistory (n : Nat) : Nat := (if n ≥ 1000 then n - 10 else n) + 1

/-- Whether a place has a piece of a side. -/
def ChessPiece.ownedBy (z : Option ChessPiece) (who : Bool) : Bool := z.any fun z => z.side == who

/-- A piece goes from `p0` to `p`. -/
def CchessBoard.shift (m : CchessBoard) (p0 p : CchessPoint) : CchessBoard :=
  update (update m p (m p0)) p0 none

/-- An accepted move. -/
def cchessAdvance (t : Seats) (f : CchessData) (p0 p : CchessPoint) : CchessData × List Sent :=
  let sent := Sent.broadcastroom 6
    s!"g{f.who.toNat} {p0.1.val + 1} {p0.2.val + 1} {p.1.val + 1} {p.2.val + 1}"
  let g : CchessData :=
    { f with matrix := f.matrix.shift p0 p, who := !f.who, n := cchessAddhistory f.n }
  if (f.matrix p).any (fun z => z.kind = .jiang) then
    (g.finish,
      [sent, .broadcastroom cmdC (if f.who then "红方输了" else "绿方输了"),
        .addmsgqueue (t.of (!f.who)) 6 "q你输了, 重新开局?(y/n)",
        .addmsgqueue (t.of f.who) 6 "q对方输了, 重新开局?(y/n)"])
  else (g, [sent])

/-- The move that a request names, when the rules allow it. -/
def cchessTarget (data : List UInt8) (f : CchessData) : Option (CchessPoint × CchessPoint) :=
  match scan4 data with
  | none => none
  | some (y0, x0, y, x) =>
      if h : 0 < y ∧ y ≤ 10 ∧ 0 < x ∧ x ≤ 9 ∧ 0 < y0 ∧ y0 ≤ 10 ∧ 0 < x0 ∧ x0 ≤ 9 then
        let p0 : CchessPoint := (⟨(y0 - 1).toNat, by omega⟩, ⟨(x0 - 1).toNat, by omega⟩)
        let p : CchessPoint := (⟨(y - 1).toNat, by omega⟩, ⟨(x - 1).toNat, by omega⟩)
        if p0 = p then none
        else if !ChessPiece.ownedBy (f.matrix p0) f.who || ChessPiece.ownedBy (f.matrix p) f.who then
          none
        else if !canCchess f.matrix p0 p then none
        else some (p0, p)
      else none

/-- The move part of `cchess_go`. -/
def cchessMove (t : Seats) (data : List UInt8) (f : CchessData) : CchessData × List Sent :=
  match cchessTarget data f with
  | none => (f, [])
  | some (p0, p) => cchessAdvance t f p0 p

/-- When one client has both seats, it answers for the first one. -/
def cchessAnswerer (who : Bool) (f : CchessData) : Bool × CchessData := (who, f.setQ (!who) 0)

/-- `cchess_go`. -/
def cchessGo (t : Seats) (i : Slot) (data : List UInt8) (f : CchessData) :
    Option (CchessData × List Sent) :=
  f.go t i cchessAnswerer (fun _ => true) cchessFf (cchessMove t) data

/-- `cchess_init`. -/
def cchessInit : CchessData := .fresh cchessFf

/-- The game after a request. -/
def cchessStep (f : CchessData) (r : PlayRequest) : CchessData :=
  match cchessGo r.seats r.i r.data f with
  | some (f', _) => f'
  | none => f

/-- The game after requests from the start. -/
def cchessPlay (rs : List PlayRequest) : CchessData := rs.foldl cchessStep cchessInit

/-! ## Where the pieces are -/

/-- The palace of a side. -/
def InPalace (side : Bool) (p : CchessPoint) : Prop :=
  3 ≤ p.2.val ∧ p.2.val ≤ 5 ∧ if side then 7 ≤ p.1.val else p.1.val ≤ 2

/-- The half of a side. -/
def OwnHalf (side : Bool) (p : CchessPoint) : Prop :=
  if side then 5 ≤ p.1.val else p.1.val < 5

namespace CchessBoard

/-- What holds of the board while no general is taken. -/
structure InPlace (m : CchessBoard) : Prop where
  general : ∀ c, ∃ p, m p = some ⟨c, .jiang⟩ ∧ ∀ q, m q = some ⟨c, .jiang⟩ → q = p
  palace : ∀ c p, m p = some ⟨c, .jiang⟩ ∨ m p = some ⟨c, .shi⟩ → InPalace c p
  elephant : ∀ c p, m p = some ⟨c, .xiang⟩ → OwnHalf c p

/-- How many pieces of a kind there are. -/
def count (m : CchessBoard) (z : ChessPiece) : Nat := (Finset.univ.filter fun p => m p = some z).card

/-- A soldier goes ahead, or sideways when it has crossed. -/
def SoldierStep (side : Bool) (p0 p : CchessPoint) : Prop :=
  if side then p.1 < p0.1 ∨ p.1 = p0.1 ∧ p0.1.val < 5
  else p0.1 < p.1 ∨ p.1 = p0.1 ∧ 5 ≤ p0.1.val

/-- `who` moves a piece of its own from `p0` to `p`. -/
structure Advance (m m' : CchessBoard) (who : Bool) (p0 p : CchessPoint) : Prop where
  shift : m' = m.shift p0 p
  own : ∃ kind, m p0 = some ⟨who, kind⟩
  soldier : m p0 = some ⟨who, .zu⟩ → SoldierStep who p0 p
  count_le : ∀ z, m'.count z ≤ m.count z

variable {m : CchessBoard} {p0 p q : CchessPoint} {z z' : ChessPiece}

/-- The pieces after a move. -/
theorem shift_eq_some (hne : p0 ≠ p) (hz : m p0 = some z) :
    m.shift p0 p q = some z' ↔ q = p ∧ z' = z ∨ q ≠ p ∧ q ≠ p0 ∧ m q = some z' := by
  unfold shift
  by_cases hq0 : q = p0
  · subst hq0
    simp [hne]
  · rw [update_of_ne hq0]
    by_cases hqp : q = p
    · subst hqp
      rw [update_self, hz]
      simp [eq_comm]
    · simp [hqp, hq0]

/-- **No move adds a piece.** -/
theorem count_shift_le (hne : p0 ≠ p) (hz : m p0 = some z) (z' : ChessPiece) :
    (m.shift p0 p).count z' ≤ m.count z' := by
  unfold count
  by_cases hzz : z' = z
  · subst hzz
    have hmem : p0 ∈ Finset.univ.filter fun q => m q = some z' := by simp [hz]
    have hsub : (Finset.univ.filter fun q => m.shift p0 p q = some z') ⊆
        insert p ((Finset.univ.filter fun q => m q = some z').erase p0) := by
      intro q hq
      have hq := (shift_eq_some hne hz).mp (Finset.mem_filter.mp hq).2
      cases hq with
      | inl h => simp [h.1]
      | inr h => simp [h.2.1, h.2.2]
    have hpos : 0 < (Finset.univ.filter fun q => m q = some z').card := Finset.card_pos.mpr ⟨p0, hmem⟩
    have hcard := (Finset.card_le_card hsub).trans (Finset.card_insert_le _ _)
    rw [Finset.card_erase_of_mem hmem] at hcard
    omega
  · refine Finset.card_le_card fun q hq => ?_
    have hq := (shift_eq_some hne hz).mp (Finset.mem_filter.mp hq).2
    cases hq with
    | inl h => exact absurd h.2 hzz
    | inr h => simp [h.2.2]

end CchessBoard

/-! ## What `can_cchess` lets the pieces do -/

section pieces

variable {m : CchessBoard} {p0 p : CchessPoint} {who : Bool}

/-- A general that takes no general stays in its palace. -/
theorem canCchess_jiang (hz : m p0 = some ⟨who, .jiang⟩) (hcan : canCchess m p0 p = true)
    (hp : ∀ c, m p ≠ some ⟨c, .jiang⟩) (hin : InPalace who p0) : InPalace who p := by
  have hno : (m p).any (fun z => z.kind = .jiang) = false := by
    cases hmp : m p with
    | none => rfl
    | some z =>
        have hkind : z.kind ≠ .jiang := fun h => hp z.side (by rw [hmp, ← h])
        simp [hkind]
  unfold canCchess at hcan
  simp [hz, hno, inPalaces] at hcan
  unfold absDiff at hcan
  unfold InPalace at hin ⊢
  cases who <;> simp only [Bool.false_eq_true, if_false, if_true] at hin ⊢ <;> omega

theorem canCchess_shi (hz : m p0 = some ⟨who, .shi⟩) (hcan : canCchess m p0 p = true)
    (hin : InPalace who p0) : InPalace who p := by
  unfold canCchess at hcan
  simp [hz, inPalaces] at hcan
  unfold absDiff at hcan
  unfold InPalace at hin ⊢
  cases who <;> simp only [Bool.false_eq_true, if_false, if_true] at hin ⊢ <;> omega

theorem canCchess_xiang (hz : m p0 = some ⟨who, .xiang⟩) (hcan : canCchess m p0 p = true)
    (hin : OwnHalf who p0) : OwnHalf who p := by
  unfold canCchess at hcan
  simp [hz] at hcan
  unfold OwnHalf at hin ⊢
  cases who <;> simp only [Bool.false_eq_true, if_false, if_true] at hin ⊢ <;> omega

theorem canCchess_zu (hz : m p0 = some ⟨who, .zu⟩) (hcan : canCchess m p0 p = true) :
    CchessBoard.SoldierStep who p0 p := by
  unfold canCchess at hcan
  simp only [hz] at hcan
  unfold CchessBoard.SoldierStep
  rw [Fin.lt_def, Fin.lt_def, Fin.ext_iff]
  cases who <;> split_ifs at hcan <;> simp [absDiff] at * <;> omega

end pieces

/-! ## Moves -/

namespace CchessBoard

variable {m : CchessBoard} {p0 p : CchessPoint} {who : Bool} {kind : ChessKind}

/-- **A move that takes no general** leaves the pieces where they may be. -/
theorem InPlace.shift (h : m.InPlace) (hne : p0 ≠ p) (hz : m p0 = some ⟨who, kind⟩)
    (hcan : canCchess m p0 p = true) (hp : ∀ c, m p ≠ some ⟨c, .jiang⟩) :
    (m.shift p0 p).InPlace := by
  refine ⟨fun c => ?_, fun c q hq => ?_, fun c q hq => ?_⟩
  · obtain ⟨g, hg, huniq⟩ := h.general c
    have hgp : g ≠ p := by
      rintro rfl
      exact hp c hg
    by_cases hg0 : g = p0
    · subst hg0
      rw [hz] at hg
      cases hg
      refine ⟨p, (shift_eq_some hne hz).mpr (.inl ⟨rfl, rfl⟩), fun q hq => ?_⟩
      cases (shift_eq_some hne hz).mp hq with
      | inl hnew => exact hnew.1
      | inr hold => exact absurd (huniq q hold.2.2) hold.2.1
    · refine ⟨g, (shift_eq_some hne hz).mpr (.inr ⟨hgp, hg0, hg⟩), fun q hq => ?_⟩
      cases (shift_eq_some hne hz).mp hq with
      | inl hnew =>
          rw [← hnew.2] at hz
          exact absurd (huniq p0 hz).symm hg0
      | inr hold => exact huniq q hold.2.2
  · simp only [shift_eq_some hne hz] at hq
    rcases hq with (⟨rfl, heq⟩ | hold) | (⟨rfl, heq⟩ | hold)
    · rw [← heq] at hz
      exact canCchess_jiang hz hcan hp (h.palace c p0 (.inl hz))
    · exact h.palace c q (.inl hold.2.2)
    · rw [← heq] at hz
      exact canCchess_shi hz hcan (h.palace c p0 (.inr hz))
    · exact h.palace c q (.inr hold.2.2)
  · rcases (shift_eq_some hne hz).mp hq with ⟨rfl, heq⟩ | hold
    · rw [← heq] at hz
      exact canCchess_xiang hz hcan (h.elephant c p0 hz)
    · exact h.elephant c q hold.2.2

theorem inPlace_ff : cchessFf.InPlace := by
  refine ⟨fun c => ⟨(if c then 9 else 0, 4), ?_⟩, ?_, ?_⟩
  · revert c
    decide +kernel
  · unfold InPalace
    decide +kernel
  · unfold OwnHalf
    decide +kernel

end CchessBoard

/-! ## Games -/

/-- What holds between the requests. -/
structure Duel.CchessInv (f : CchessData) : Prop where
  asks : f.Asks
  inPlace : f.fi = false → f.matrix.InPlace

/-- What a request does: nothing to the board and the turn, or a new game, or a move,
which needs both generals. -/
def CchessTurn (f f' : CchessData) : Prop :=
  (f'.matrix = f.matrix ∧ f'.who = f.who) ∨ f' = cchessInit ∨
    (∀ c, ∃ p, f.matrix p = some ⟨c, .jiang⟩) ∧ f'.who = !f.who ∧
      ∃ p0 p, f.matrix.Advance f'.matrix f.who p0 p

/-- **An accepted move.** -/
theorem cchessAdvance_spec {f : CchessData} {p0 p : CchessPoint} (t : Seats) (hasks : f.Asks)
    (hin : f.matrix.InPlace) (hne : p0 ≠ p) {kind : ChessKind}
    (hz : f.matrix p0 = some ⟨f.who, kind⟩) (hcan : canCchess f.matrix p0 p = true) :
    (cchessAdvance t f p0 p).1.CchessInv ∧ CchessTurn f (cchessAdvance t f p0 p).1 := by
  have hgenerals : ∀ c, ∃ p, f.matrix p = some ⟨c, .jiang⟩ := by
    intro c
    obtain ⟨g, hg, -⟩ := hin.general c
    exact ⟨g, hg⟩
  have hadvance : f.matrix.Advance (f.matrix.shift p0 p) f.who p0 p :=
    ⟨rfl, ⟨kind, hz⟩, fun hzu => canCchess_zu hzu hcan, CchessBoard.count_shift_le hne hz⟩
  unfold cchessAdvance
  dsimp only
  split
  · exact ⟨⟨.finish, fun hfi => by contradiction⟩, .inr (.inr ⟨hgenerals, rfl, p0, p, hadvance⟩)⟩
  · next hno =>
      refine ⟨⟨hasks, fun _ => hin.shift hne hz hcan fun c hc => ?_⟩,
        .inr (.inr ⟨hgenerals, rfl, p0, p, hadvance⟩)⟩
      rw [hc] at hno
      simp at hno

theorem ownedBy_eq_true {z : Option ChessPiece} {who : Bool} (h : ChessPiece.ownedBy z who = true) :
    ∃ kind, z = some ⟨who, kind⟩ := by
  cases z with
  | none => contradiction
  | some z =>
      refine ⟨z.kind, ?_⟩
      rw [← eq_of_beq (a := z.side) (b := who) h]

theorem cchessTarget_spec {f : CchessData} {data : List UInt8} {p0 p : CchessPoint}
    (h : cchessTarget data f = some (p0, p)) :
    p0 ≠ p ∧ (∃ kind, f.matrix p0 = some ⟨f.who, kind⟩) ∧ canCchess f.matrix p0 p = true := by
  unfold cchessTarget at h
  split at h
  · contradiction
  split at h
  · dsimp only at h
    split at h
    · contradiction
    next hne =>
    split at h
    · contradiction
    next hown =>
    split at h
    · contradiction
    next hcan =>
      cases h
      simp only [Bool.or_eq_true, Bool.not_eq_true', not_or, Bool.not_eq_false] at hown
      exact ⟨hne, ownedBy_eq_true hown.1, by simpa using hcan⟩
  · contradiction

theorem cchessMove_spec {f : CchessData} (t : Seats) (data : List UInt8) (hasks : f.Asks)
    (hin : f.matrix.InPlace) :
    (cchessMove t data f).1.CchessInv ∧ CchessTurn f (cchessMove t data f).1 := by
  unfold cchessMove
  split
  · exact ⟨⟨hasks, fun _ => hin⟩, .inl ⟨rfl, rfl⟩⟩
  · next p0 p htarget =>
      obtain ⟨hne, ⟨kind, hz⟩, hcan⟩ := cchessTarget_spec htarget
      exact cchessAdvance_spec t hasks hin hne hz hcan

/-- **One request** keeps the invariant. -/
theorem cchessGo_spec {f : CchessData} (h : f.CchessInv) (t : Seats) (i : Slot)
    (data : List UInt8) :
    ∃ f' sent, cchessGo t i data f = some (f', sent) ∧ f'.CchessInv ∧ CchessTurn f f' := by
  obtain ⟨f', sent, heq, hout⟩ := @Duel.go_spec _ t i f cchessAnswerer (fun _ => true) cchessFf
    (cchessMove t) data (fun who f h => ⟨⟨rfl, rfl, id⟩, h.setQ _ (Nat.zero_le 1)⟩) h.asks
  refine ⟨f', sent, heq, ?_⟩
  cases hout with
  | same hsame hasks =>
      refine ⟨⟨hasks, fun hfi => ?_⟩, .inl ⟨hsame.matrix, hsame.who⟩⟩
      rw [hsame.matrix]
      exact h.inPlace (hsame.fi_eq_false hfi)
  | restart => exact ⟨⟨.fresh, fun _ => CchessBoard.inPlace_ff⟩, .inr (.inl rfl)⟩
  | @move g hsame hfi _ hasks =>
      have hin : g.matrix.InPlace := by
        rw [hsame.matrix]
        exact h.inPlace (hsame.fi_eq_false hfi)
      obtain ⟨hinv, hturn⟩ := cchessMove_spec t data hasks hin
      refine ⟨hinv, ?_⟩
      unfold CchessTurn at hturn ⊢
      rwa [hsame.matrix, hsame.who] at hturn

theorem cchessPlay_inv (rs : List PlayRequest) : (cchessPlay rs).CchessInv := by
  unfold cchessPlay
  refine List.foldlRecOn rs cchessStep ⟨.fresh, fun _ => CchessBoard.inPlace_ff⟩ fun f h r _ => ?_
  obtain ⟨f', sent, heq, hinv, -⟩ := cchessGo_spec h r.seats r.i r.data
  unfold cchessStep
  rw [heq]
  exact hinv

/-- **Chinese chess.**  After any requests the pieces are where they may be while the
game goes on, and the next request is no move, or starts again, or is a move of the
side whose turn it is. -/
theorem cchess_rules (rs : List PlayRequest) :
    ((cchessPlay rs).fi = false → (cchessPlay rs).matrix.InPlace) ∧
      ∀ t i data, ∃ f' sent, cchessGo t i data (cchessPlay rs) = some (f', sent) ∧
        CchessTurn (cchessPlay rs) f' := by
  have hinv := cchessPlay_inv rs
  refine ⟨hinv.inPlace, fun t i data => ?_⟩
  obtain ⟨f', sent, heq, -, hturn⟩ := cchessGo_spec hinv t i data
  exact ⟨f', sent, heq, hturn⟩

end Ytht
