import Mathlib.Tactic.Ring
import Ytht.Chessd.Play

/-!
# Chessd.Five

Five in a row.  After a move `five_check` looks at nine points in each of the four
directions, the new stone in the middle, and classifies them by the patterns that
`numstr` finds: six, five, four and three.

A line of six can have all but its end outside the nine points, but then five of it
stood there before, which `five_rules` excludes.
-/

namespace Ytht

open Function

/-! ## The board -/

abbrev FivePoint := Fin 15 × Fin 15

/-- `matrix`: a stone is its colour plus 1 there. -/
abbrev FiveBoard := FivePoint → Option Bool

abbrev FiveData := Duel FiveBoard

/-- `bzero`. -/
def fiveEmpty : FiveBoard := fun _ => none

/-- The stone at a place that may be outside. -/
def FiveBoard.stoneAt (m : FiveBoard) (yy xx : Int) : Option Bool :=
  if h : 0 ≤ yy ∧ yy < 15 ∧ 0 ≤ xx ∧ xx < 15 then
    m (⟨yy.toNat, by omega⟩, ⟨xx.toNat, by omega⟩)
  else none

/-- Whether a place is inside the board. -/
def fiveInside (yy xx : Int) : Bool := 0 ≤ yy && yy < 15 && 0 ≤ xx && xx < 15

/-- Column, row and the two diagonals, in the order of `five_check`. -/
def fiveDirections : List (Int × Int) := [(1, 0), (0, 1), (1, 1), (-1, 1)]

/-- `numstr`. -/
def numstr (k s : List Nat) : Bool :=
  (List.range (k.length + 1 - s.length)).any fun i => s.isPrefixOf (k.drop i)

/-- `five_calc`. -/
def fiveCalc (k : List Nat) : Nat :=
  if numstr k [1, 1, 1, 1, 1, 1] then 6
  else if numstr k [1, 1, 1, 1, 1] then 5
  else if [[0, 1, 1, 1, 1], [1, 0, 1, 1, 1], [1, 1, 0, 1, 1], [1, 1, 1, 0, 1],
      [1, 1, 1, 1, 0]].any (numstr k) then 4
  else if [[0, 0, 1, 1, 1, 0], [0, 1, 1, 1, 0, 0], [0, 1, 0, 1, 1, 0],
      [0, 1, 1, 0, 1, 0]].any (numstr k) then 3
  else 0

/-- `k` in `five_check`: 1 is a stone of colour `j`, 0 a free point, 2 another stone or
no point. -/
def fiveCell (m : FiveBoard) (j : Bool) (yy xx : Int) : Nat :=
  if fiveInside yy xx then
    match m.stoneAt yy xx with
    | none => 0
    | some c => if c = j then 1 else 2
  else 2

/-- The nine points around `p` in a direction. -/
def fiveLine (m : FiveBoard) (j : Bool) (p : FivePoint) (d : Int × Int) : List Nat :=
  (List.range 9).map fun (i : Nat) =>
    fiveCell m j (p.1 + ((i : Int) - 4) * d.1) (p.2 + ((i : Int) - 4) * d.2)

/-- `five_check`, -1 being no colour.  Black, which is 0, may not make a line of six, two
fours or two threes. -/
def fiveCheck (m : FiveBoard) (p : FivePoint) : Option Bool :=
  match m p with
  | none => none
  | some j =>
      let num := fun n => (fiveDirections.map fun d => fiveCalc (fiveLine m j p d)).count n
      if num 6 ≠ 0 then some true
      else if num 5 ≠ 0 then some j
      else if num 4 = 2 ∧ j = false then some true
      else if num 4 = 0 ∧ num 3 = 2 ∧ j = false then some true
      else none

/-! ## Requests -/

/-- `five_addhistory`: the length of the history. -/
def fiveAddhistory (n : Nat) : Nat := (if n ≥ 250 then n - 10 else n) + 1

/-- The message that declares a winner. -/
def fiveWon (who : Bool) : Sent :=
  .broadcastroom cmdC (if who then "白方赢了" else "黑方赢了")

/-- A stone is placed. -/
def fivePlace (t : Seats) (f : FiveData) (p : FivePoint) : FiveData × List Sent :=
  let g : FiveData :=
    { f with
      matrix := update f.matrix p (some f.who)
      who := !f.who
      n := fiveAddhistory f.n }
  let sent := Sent.broadcastroom 6 s!"g{f.who.toNat} {p.1.val + 1} {p.2.val + 1}"
  match fiveCheck g.matrix p with
  | none => (g, [sent])
  | some retv =>
      (g.finish,
        [sent, fiveWon retv, .addmsgqueue (t.of (!retv)) 6 "q你输了, 重新开局?(y/n)",
          .addmsgqueue (t.of retv) 6 "q你赢了, 重新开局?(y/n)"])

/-- The free point that a request names. -/
def fiveTarget (data : List UInt8) (f : FiveData) : Option FivePoint :=
  match scan2 data with
  | none => none
  | some (y, x) =>
      if h : 0 < y ∧ y ≤ 15 ∧ 0 < x ∧ x ≤ 15 then
        let p : FivePoint := (⟨(y - 1).toNat, by omega⟩, ⟨(x - 1).toNat, by omega⟩)
        if f.matrix p ≠ none then none else some p
      else none

/-- The move part of `five_go`. -/
def fiveMove (t : Seats) (data : List UInt8) (f : FiveData) : FiveData × List Sent :=
  match fiveTarget data f with
  | none => (f, [])
  | some p => fivePlace t f p

/-- When one client has both seats, the one who is asked answers. -/
def fiveAnswerer (who : Bool) (f : FiveData) : Bool × FiveData :=
  if f.q who = 0 then (!who, f) else (who, f.setQ (!who) 0)

/-- `five_go`. -/
def fiveGo (t : Seats) (i : Slot) (data : List UInt8) (f : FiveData) :
    Option (FiveData × List Sent) :=
  f.go t i fiveAnswerer (fun f => f.n ≠ 0) fiveEmpty (fiveMove t) data

/-- `five_init`. -/
def fiveInit : FiveData := .fresh fiveEmpty

/-- The game after a request. -/
def fiveStep (f : FiveData) (r : PlayRequest) : FiveData :=
  match fiveGo r.seats r.i r.data f with
  | some (f', _) => f'
  | none => f

/-- The game after requests from the start. -/
def fivePlay (rs : List PlayRequest) : FiveData := rs.foldl fiveStep fiveInit

/-! ## Lines -/

/-- `n` stones of colour `c` in a row, `p` being the one after `s` of them. -/
def FiveBoard.Row (m : FiveBoard) (c : Bool) (p : FivePoint) (d : Int × Int) (s n : Nat) : Prop :=
  ∀ k < n, m.stoneAt (p.1 + ((k : Int) - s) * d.1) (p.2 + ((k : Int) - s) * d.2) = some c

/-- A line of `n` stones through `p`. -/
def FiveBoard.Line (m : FiveBoard) (c : Bool) (p : FivePoint) (d : Int × Int) (n : Nat) : Prop :=
  ∃ s < n, m.Row c p d s n

/-- No line of five. -/
def FiveBoard.NoFive (m : FiveBoard) : Prop :=
  ∀ c p, ∀ d ∈ fiveDirections, ¬ m.Line c p d 5

/-! ## What the judge sees -/

section judge

variable {m : FiveBoard} {c : Bool} {p : FivePoint} {d : Int × Int}

theorem FiveBoard.stoneAt_eq_some {yy xx : Int} (h : m.stoneAt yy xx = some c) :
    ∃ q : FivePoint, (q.1 : Int) = yy ∧ (q.2 : Int) = xx ∧ m q = some c := by
  unfold stoneAt at h
  split at h
  · next hin =>
      refine ⟨_, ?_, ?_, h⟩
      · exact Int.toNat_of_nonneg hin.1
      · exact Int.toNat_of_nonneg hin.2.2.1
  · contradiction

theorem FiveBoard.stoneAt_point (m : FiveBoard) (q : FivePoint) : m.stoneAt q.1 q.2 = m q := by
  unfold stoneAt
  rw [dif_pos (by omega)]
  rfl

theorem fiveCell_eq_one {yy xx : Int} : fiveCell m c yy xx = 1 ↔ m.stoneAt yy xx = some c := by
  unfold fiveCell
  constructor
  · intro h
    split at h
    · split at h
      · contradiction
      · next heq =>
          split at h
          · next hc => rw [heq, hc]
          · contradiction
    · contradiction
  · intro h
    have hin : fiveInside yy xx = true := by
      by_contra hout
      unfold FiveBoard.stoneAt at h
      split at h
      · next hin =>
          refine hout ?_
          simp [fiveInside, hin]
      · contradiction
    rw [if_pos hin, h]
    simp

/-- A run of ones is found wherever it is. -/
theorem numstr_ones (k : List Nat) (n : Nat) :
    numstr k (List.replicate n 1) = true ↔
      ∃ i, i + n ≤ k.length ∧ ∀ j < n, k[i + j]? = some 1 := by
  unfold numstr
  rw [List.any_eq_true]
  constructor
  · rintro ⟨i, hi, hbegins⟩
    rw [List.mem_range, List.length_replicate] at hi
    obtain ⟨rest, hrest⟩ := List.isPrefixOf_iff_prefix.mp hbegins
    have hlen : n ≤ (k.drop i).length := by
      rw [← hrest]
      simp
    rw [List.length_drop] at hlen
    refine ⟨i, by omega, fun j hj => ?_⟩
    rw [← List.getElem?_drop, ← hrest, List.getElem?_append_left (by simpa using hj)]
    simp [hj]
  · rintro ⟨i, hi, hones⟩
    refine ⟨i, by simp; omega, List.isPrefixOf_iff_prefix.mpr ⟨(k.drop i).drop n, ?_⟩⟩
    have htake : (k.drop i).take n = List.replicate n 1 := by
      refine List.ext_getElem? fun j => ?_
      by_cases hj : j < n
      · rw [List.getElem?_take_of_lt hj, List.getElem?_drop, hones j hj]
        simp [hj]
      · simp [hj]
    rw [← htake, List.take_append_drop]

theorem getElem?_fiveLine {i : Nat} (hi : i < 9) :
    (fiveLine m c p d)[i]? =
      some (fiveCell m c (p.1 + ((i : Int) - 4) * d.1) (p.2 + ((i : Int) - 4) * d.2)) := by
  simp [fiveLine, hi]

/-- **The patterns of ones** in the nine points are the lines that do not reach beyond. -/
theorem numstr_fiveLine {n : Nat} (hn : 5 ≤ n) :
    numstr (fiveLine m c p d) (List.replicate n 1) = true ↔
      ∃ s, s ≤ 4 ∧ n ≤ 5 + s ∧ m.Row c p d s n := by
  rw [numstr_ones]
  have hlen : (fiveLine m c p d).length = 9 := by simp [fiveLine]
  rw [hlen]
  constructor
  · rintro ⟨i, hi, hones⟩
    refine ⟨4 - i, by omega, by omega, fun k hk => ?_⟩
    have hone := hones k hk
    rw [getElem?_fiveLine (by omega)] at hone
    have hcell := fiveCell_eq_one.mp (Option.some.inj hone)
    have hoff : (((i + k : Nat) : Int) - 4) = (k : Int) - ((4 - i : Nat) : Int) := by omega
    rwa [hoff] at hcell
  · rintro ⟨s, hs, hsn, hrow⟩
    refine ⟨4 - s, by omega, fun k hk => ?_⟩
    rw [getElem?_fiveLine (by omega)]
    have hoff : ((((4 - s) + k : Nat) : Int) - 4) = (k : Int) - (s : Int) := by omega
    rw [hoff, fiveCell_eq_one.mpr (hrow k hk)]

theorem numstr_five :
    numstr (fiveLine m c p d) [1, 1, 1, 1, 1] = true ↔ m.Line c p d 5 := by
  refine (numstr_fiveLine (n := 5) (Nat.le_refl 5)).trans ⟨?_, ?_⟩
  · rintro ⟨s, hs, -, hrow⟩
    exact ⟨s, by omega, hrow⟩
  · rintro ⟨s, hs, hrow⟩
    exact ⟨s, by omega, by omega, hrow⟩

/-- A line of six in the nine points. -/
theorem numstr_six :
    numstr (fiveLine m c p d) [1, 1, 1, 1, 1, 1] = true ↔
      ∃ s, 1 ≤ s ∧ s ≤ 4 ∧ m.Row c p d s 6 := by
  refine (numstr_fiveLine (n := 6) (by omega)).trans ⟨?_, ?_⟩
  · rintro ⟨s, hs, hlen, hrow⟩
    exact ⟨s, by omega, hs, hrow⟩
  · rintro ⟨s, hpos, hs, hrow⟩
    exact ⟨s, hs, by omega, hrow⟩

theorem fiveCalc_eq_six :
    fiveCalc (fiveLine m c p d) = 6 ↔ ∃ s, 1 ≤ s ∧ s ≤ 4 ∧ m.Row c p d s 6 := by
  rw [← numstr_six]
  unfold fiveCalc
  split_ifs with h <;> simp [h]

theorem fiveCalc_eq_five :
    fiveCalc (fiveLine m c p d) = 5 ↔ fiveCalc (fiveLine m c p d) ≠ 6 ∧ m.Line c p d 5 := by
  rw [← numstr_five]
  unfold fiveCalc
  split_ifs with h6 h5 <;> simp [*]

/-- A stone of a line is the one that it is told from. -/
theorem FiveBoard.Row.shift {q : FivePoint} {s k n : Nat} (h : m.Row c q d s n)
    (hy : (p.1 : Int) = q.1 + ((k : Int) - s) * d.1) (hx : (p.2 : Int) = q.2 + ((k : Int) - s) * d.2) :
    m.Row c p d k n := by
  intro j hj
  have hstone := h j hj
  have hmove (a b : Int) : a + ((j : Int) - s) * b = a + ((k : Int) - s) * b + ((j : Int) - k) * b := by
    ring
  rwa [hmove, hmove, ← hy, ← hx] at hstone

/-- A direction leads away. -/
theorem fiveDirections_away (hd : d ∈ fiveDirections) {k : Int} (hy : k * d.1 = 0)
    (hx : k * d.2 = 0) : k = 0 := by
  simp only [fiveDirections, List.mem_cons, List.not_mem_nil, or_false] at hd
  rcases hd with rfl | rfl | rfl | rfl <;> simp at hy hx <;> assumption

end judge

/-! ## Moves -/

section moves

variable {m : FiveBoard} {c : Bool} {p : FivePoint} {d : Int × Int}

/-- A stone elsewhere was there before. -/
theorem stoneAt_update {w : Bool} {yy xx : Int}
    (h : FiveBoard.stoneAt (update m p (some w)) yy xx = some c) :
    m.stoneAt yy xx = some c ∨ (p.1 : Int) = yy ∧ (p.2 : Int) = xx ∧ c = w := by
  obtain ⟨q, hy, hx, hq⟩ := FiveBoard.stoneAt_eq_some h
  by_cases hqp : q = p
  · subst hqp
    rw [update_self] at hq
    exact .inr ⟨hy, hx, (Option.some.inj hq).symm⟩
  · rw [update_of_ne hqp] at hq
    rw [← hy, ← hx, m.stoneAt_point]
    exact .inl hq

/-- A line of five that a move makes goes through the new stone. -/
theorem line_through {w : Bool} {q : FivePoint} (hfive : m.NoFive) (hd : d ∈ fiveDirections)
    (h : FiveBoard.Line (update m p (some w)) c q d 5) :
    c = w ∧ FiveBoard.Line (update m p (some w)) c p d 5 := by
  obtain ⟨s, hs, hrow⟩ := h
  have hnew : ¬ m.Row c q d s 5 := fun hold => hfive c q d hd ⟨s, hs, hold⟩
  unfold FiveBoard.Row at hnew
  push Not at hnew
  obtain ⟨k, hk, hne⟩ := hnew
  obtain ⟨hy, hx, hc⟩ := (stoneAt_update (hrow k hk)).resolve_left hne
  exact ⟨hc, k, hk, hrow.shift hy hx⟩

/-- Stones in a row that are not the new one were there before. -/
theorem row_before {w : Bool} {s n : Nat} (hd : d ∈ fiveDirections)
    (h : FiveBoard.Row (update m p (some w)) c p d s n) {k : Nat} (hk : k < n) (hks : k ≠ s) :
    m.stoneAt (p.1 + ((k : Int) - s) * d.1) (p.2 + ((k : Int) - s) * d.2) = some c := by
  refine (stoneAt_update (h k hk)).resolve_right ?_
  rintro ⟨hy, hx, -⟩
  have hzero := @fiveDirections_away d hd ((k : Int) - s) (by omega) (by omega)
  omega

/-- Five in a row at one side of the new stone were there before. -/
theorem no_five_beside (hfive : m.NoFive) (hd : d ∈ fiveDirections) {s j : Nat}
    (h : ∀ k, k < 5 →
      m.stoneAt (p.1 + ((k + j : Nat) - (s : Int)) * d.1) (p.2 + ((k + j : Nat) - (s : Int)) * d.2)
        = some c) : False := by
  obtain ⟨q, hy, hx, -⟩ := FiveBoard.stoneAt_eq_some (h 0 (by omega))
  refine hfive c q d hd ⟨0, by omega, fun k hk => ?_⟩
  have hstone := h k hk
  have hmove (a b : Int) :
      a + ((k + j : Nat) - (s : Int)) * b =
        a + ((0 + j : Nat) - (s : Int)) * b + ((k : Int) - (0 : Nat)) * b := by
    push_cast
    ring
  rwa [hmove, hmove, ← hy, ← hx] at hstone

/-- **A line of six that a move makes is seen**: the new stone is not its end. -/
theorem six_seen {w : Bool} (hfive : m.NoFive) (hd : d ∈ fiveDirections)
    (h : FiveBoard.Line (update m p (some w)) c p d 6) :
    ∃ s, 1 ≤ s ∧ s ≤ 4 ∧ FiveBoard.Row (update m p (some w)) c p d s 6 := by
  obtain ⟨s, hs, hrow⟩ := h
  refine ⟨s, ?_, ?_, hrow⟩
  · by_contra hzero
    exact no_five_beside (s := s) (j := 1) hfive hd fun k hk => row_before hd hrow (by omega) (by omega)
  · by_contra hlast
    exact no_five_beside (s := s) (j := 0) hfive hd fun k hk => row_before hd hrow (by omega) (by omega)

/-- The board after a stone is placed, as the judge sees it. -/
theorem fiveCheck_spec {w : Bool} (hfive : m.NoFive) :
    let m' : FiveBoard := update m p (some w)
    ((∃ d ∈ fiveDirections, m'.Line w p d 6) → fiveCheck m' p = some true) ∧
      ((∀ d ∈ fiveDirections, ¬ m'.Line w p d 6) → (∃ d ∈ fiveDirections, m'.Line w p d 5) →
        fiveCheck m' p = some w) := by
  intro m'
  have hstone : m' p = some w := update_self ..
  have hcount (v : Nat) : (fiveDirections.map fun d => fiveCalc (fiveLine m' w p d)).count v ≠ 0 ↔
      ∃ d ∈ fiveDirections, fiveCalc (fiveLine m' w p d) = v := by
    rw [← Nat.pos_iff_ne_zero, List.count_pos_iff, List.mem_map]
  have hsix : (∃ d ∈ fiveDirections, fiveCalc (fiveLine m' w p d) = 6) ↔
      ∃ d ∈ fiveDirections, m'.Line w p d 6 := by
    constructor
    · rintro ⟨d, hd, hcalc⟩
      obtain ⟨s, -, hs, hrow⟩ := fiveCalc_eq_six.mp hcalc
      exact ⟨d, hd, s, by omega, hrow⟩
    · rintro ⟨d, hd, hline⟩
      exact ⟨d, hd, fiveCalc_eq_six.mpr (six_seen hfive hd hline)⟩
  unfold fiveCheck
  simp only [hstone, hcount]
  constructor
  · intro hline
    rw [if_pos (hsix.mpr hline)]
  · rintro hnone ⟨d, hd, hline⟩
    have hno : ¬ ∃ d ∈ fiveDirections, fiveCalc (fiveLine m' w p d) = 6 := by
      rw [hsix]
      rintro ⟨d, hd, hline⟩
      exact hnone d hd hline
    rw [if_neg hno, if_pos ⟨d, hd, fiveCalc_eq_five.mpr ⟨fun h => hno ⟨d, hd, h⟩, hline⟩⟩]

/-- Without a winner there is no line. -/
theorem noFive_of_check {w : Bool} (hfive : m.NoFive)
    (h : fiveCheck (update m p (some w)) p = none) :
    FiveBoard.NoFive (update m p (some w)) := by
  obtain ⟨hsix, hline⟩ := fiveCheck_spec (p := p) (w := w) hfive
  intro c q d hd hq
  obtain ⟨rfl, hthrough⟩ := line_through hfive hd hq
  by_cases h6 : ∃ d ∈ fiveDirections, FiveBoard.Line (update m p (some c)) c p d 6
  · rw [hsix h6] at h
    contradiction
  · rw [hline (fun d hd hl => h6 ⟨d, hd, hl⟩) ⟨d, hd, hthrough⟩] at h
    contradiction

end moves

/-! ## Games -/

/-- What holds between the requests. -/
structure Duel.FiveInv (f : FiveData) : Prop where
  asks : f.Asks
  noFive : f.fi = false → f.matrix.NoFive

/-- What a request that places a stone must do. -/
def FiveJudged (f f' : FiveData) (sent : List Sent) : Prop :=
  ∀ p c, f.matrix p = none → f'.matrix p = some c →
    (∃ d ∈ fiveDirections, f'.matrix.Line c p d 5) →
      c = f.who ∧ f'.fi = true ∧
        ((∃ d ∈ fiveDirections, f'.matrix.Line c p d 6) → ∀ w, fiveWon w ∈ sent ↔ w = true) ∧
        ((∀ d ∈ fiveDirections, ¬ f'.matrix.Line c p d 6) → ∀ w, fiveWon w ∈ sent ↔ w = c)

theorem fiveWon_inj {w w' : Bool} : fiveWon w = fiveWon w' ↔ w = w' := by
  cases w <;> cases w' <;> decide

/-- No stone, no judgement. -/
theorem FiveJudged.of_same {f f' : FiveData} (h : ∀ p, f.matrix p = none → f'.matrix p = none)
    (sent : List Sent) : FiveJudged f f' sent := by
  intro p c hp hp'
  rw [h p hp] at hp'
  contradiction

/-- **A stone is placed** and judged. -/
theorem fivePlace_spec {f : FiveData} {p : FivePoint} (t : Seats) (hasks : f.Asks)
    (hfive : f.matrix.NoFive) :
    (fivePlace t f p).1.FiveInv ∧ FiveJudged f (fivePlace t f p).1 (fivePlace t f p).2 := by
  have hspec := fiveCheck_spec (p := p) (w := f.who) hfive
  have hjudged : ∀ (g : FiveData) (sent : List Sent), g.matrix = update f.matrix p (some f.who) →
      (∀ w, fiveCheck g.matrix p = some w → g.fi = true ∧ ∀ w', fiveWon w' ∈ sent ↔ w' = w) →
      FiveJudged f g sent := by
    intro g sent hg hsent q c hq hq' hline
    rw [hg] at hq' hsent
    rw [hg] at hline ⊢
    have hqp : q = p := by
      by_contra hqp
      rw [update_of_ne hqp, hq] at hq'
      contradiction
    subst hqp
    rw [update_self] at hq'
    cases hq'
    by_cases h6 : ∃ d ∈ fiveDirections, FiveBoard.Line (update f.matrix q (some f.who)) f.who q d 6
    · obtain ⟨hfi, hwon⟩ := hsent true (hspec.1 h6)
      refine ⟨rfl, hfi, fun _ => hwon, fun hnone => ?_⟩
      obtain ⟨d, hd, hl⟩ := h6
      exact absurd hl (hnone d hd)
    · obtain ⟨hfi, hwon⟩ := hsent f.who (hspec.2 (fun d hd hl => h6 ⟨d, hd, hl⟩) hline)
      exact ⟨rfl, hfi, fun hl => absurd hl h6, fun _ => hwon⟩
  unfold fivePlace
  dsimp only
  cases hcheck : fiveCheck (update f.matrix p (some f.who)) p with
  | none =>
      refine ⟨⟨hasks, fun _ => noFive_of_check hfive hcheck⟩, hjudged _ _ rfl fun w hw => ?_⟩
      rw [hcheck] at hw
      contradiction
  | some retv =>
      refine ⟨⟨.finish, fun hfi => by contradiction⟩, hjudged _ _ rfl fun w hw => ⟨rfl, fun w' => ?_⟩⟩
      change fiveCheck (update f.matrix p (some f.who)) p = some w at hw
      rw [hcheck] at hw
      cases hw
      simp only [List.mem_cons, fiveWon_inj, List.not_mem_nil, or_false]
      simp [fiveWon, cmdC]

theorem fiveMove_spec {f : FiveData} (t : Seats) (data : List UInt8) (hasks : f.Asks)
    (hfive : f.matrix.NoFive) :
    (fiveMove t data f).1.FiveInv ∧ FiveJudged f (fiveMove t data f).1 (fiveMove t data f).2 := by
  have hstay : f.FiveInv ∧ FiveJudged f f [] := ⟨⟨hasks, fun _ => hfive⟩, .of_same (fun _ => id) []⟩
  unfold fiveMove
  split
  · exact hstay
  · exact fivePlace_spec t hasks hfive

theorem fiveAnswerer_spec (who : Bool) (f : FiveData) (h : f.Asks) :
    f.SameGame (fiveAnswerer who f).2 ∧ (fiveAnswerer who f).2.Asks := by
  unfold fiveAnswerer
  split
  · exact ⟨.refl, h⟩
  · exact ⟨⟨rfl, rfl, id⟩, h.setQ _ (Nat.zero_le 1)⟩

theorem noFive_empty : fiveEmpty.NoFive := by
  rintro c p d - ⟨s, hs, hrow⟩
  obtain ⟨q, -, -, hq⟩ := FiveBoard.stoneAt_eq_some (hrow 0 (by omega))
  contradiction

/-- **One request** keeps the invariant, and a stone that it places is judged. -/
theorem fiveGo_spec {f : FiveData} (h : f.FiveInv) (t : Seats) (i : Slot) (data : List UInt8) :
    ∃ f' sent, fiveGo t i data f = some (f', sent) ∧ f'.FiveInv ∧ FiveJudged f f' sent := by
  obtain ⟨f', sent, heq, hout⟩ := @Duel.go_spec _ t i f fiveAnswerer (fun f => f.n ≠ 0) fiveEmpty
    (fiveMove t) data fiveAnswerer_spec h.asks
  refine ⟨f', sent, heq, ?_⟩
  cases hout with
  | same hsame hasks =>
      refine ⟨⟨hasks, fun hfi => ?_⟩, .of_same (fun p hp => by rwa [hsame.matrix]) sent⟩
      rw [hsame.matrix]
      exact h.noFive (hsame.fi_eq_false hfi)
  | restart => exact ⟨⟨.fresh, fun _ => noFive_empty⟩, .of_same (fun _ _ => rfl) sent⟩
  | @move g hsame hfi _ hasks =>
      have hfive : g.matrix.NoFive := by
        rw [hsame.matrix]
        exact h.noFive (hsame.fi_eq_false hfi)
      obtain ⟨hinv, hjudged⟩ := fiveMove_spec t data hasks hfive
      refine ⟨hinv, ?_⟩
      unfold FiveJudged at hjudged ⊢
      rwa [hsame.matrix, hsame.who] at hjudged

theorem fivePlay_inv (rs : List PlayRequest) : (fivePlay rs).FiveInv := by
  unfold fivePlay
  refine List.foldlRecOn rs fiveStep ⟨.fresh, fun _ => noFive_empty⟩ fun f h r _ => ?_
  obtain ⟨f', sent, heq, hinv, -⟩ := fiveGo_spec h r.seats r.i r.data
  unfold fiveStep
  rw [heq]
  exact hinv

/-- **Five in a row.**  After any requests there is no line of five while the game goes
on, and the move that makes one ends the game: the mover wins with five, and white
with six or more. -/
theorem five_rules (rs : List PlayRequest) :
    ((fivePlay rs).fi = false → (fivePlay rs).matrix.NoFive) ∧
      ∀ t i data, ∃ f' sent, fiveGo t i data (fivePlay rs) = some (f', sent) ∧
        FiveJudged (fivePlay rs) f' sent := by
  have hinv := fivePlay_inv rs
  refine ⟨hinv.noFive, fun t i data => ?_⟩
  obtain ⟨f', sent, heq, -, hjudged⟩ := fiveGo_spec hinv t i data
  exact ⟨f', sent, heq, hjudged⟩

end Ytht
