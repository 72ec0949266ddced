import Mathlib.Data.Finset.Card
import Mathlib.Data.Prod.Basic
import Mathlib.Tactic.IntervalCases
import Mathlib.Algebra.Group.Prod
import Mathlib.Algebra.Group.Int.Defs
import Mathlib.Logic.Function.Basic
import Mathlib.Logic.Relation
import Ytht.Lib.Replay
import Ytht.Lib.Runs

/-!
# Games.Worker

Boxes are pushed onto targets.  A cell holds flags: 1 a target, 2 the player, 4 a box, 8 a wall.

A push is recorded as two movements, and a backspace takes only one of them back.  Still the map is
always the one that the recorded movements lead to, from which everything else follows
(`worker_right`).
-/

namespace Ytht.Worker

open Runs Replay

/-! ## The map -/

/-- `y` and `x`. -/
abbrev Pos := Int × Int

/-- `map_now` -/
abbrev Grid := Pos → Nat

def InArray (p : Pos) : Prop := (0 ≤ p.1 ∧ p.1 < 20) ∧ 0 ≤ p.2 ∧ p.2 < 30

instance (p : Pos) : Decidable (InArray p) := inferInstanceAs (Decidable (_ ∧ _))

def Grid.get? (m : Grid) (p : Pos) : Option Nat := if InArray p then some (m p) else none

/-- All cells, row by row. -/
def positions : List Pos :=
  (List.range 20).flatMap fun n : Nat => (List.range 30).map fun m : Nat => ((n : Int), (m : Int))

/-- `check_if_win` -/
def checkIfWin (map : Grid) : Bool := positions.all fun p => map p ≠ 1 ∧ map p ≠ 3

/-- `find_y_x` -/
def findYX (map : Grid) : Option Pos := positions.find? fun p => map p &&& 2 ≠ 0

/-- What `map_move` leaves. -/
def moved (map : Grid) (r : Pos × Pos) : Grid :=
  Function.update (Function.update map r.2 (map r.1 &&& 6 ||| map r.2 &&& 1)) r.1 (map r.1 &&& 1)

/-- `map_move` -/
def mapMove (map : Grid) (r : Pos × Pos) : Option Grid :=
  if InArray r.1 ∧ InArray r.2 then some (moved map r) else none

/-! ## The keys -/

/-- What is read: a byte, or an escape sequence by its last byte. -/
inductive Key where
  | char (c : Int)
  | escape (c : Int)

/-- `inkey`, which may end the program. -/
def inkey : Key → Option Int
  | .char c => if c = 3 ∨ c = 4 then none else if c = 127 then some 8 else some c
  | .escape c => if 65 ≤ c ∧ c ≤ 68 then some c else some 0

/-- `dy` and `dx` -/
def direction (c : Int) : Option Pos :=
  if c = 65 then some (-1, 0)
  else if c = 66 then some (1, 0)
  else if c = 68 then some (0, -1)
  else if c = 67 then some (0, 1)
  else none

/-! ## The play loop -/

structure Game where
  map : Grid
  /-- `now_y` and `now_x` -/
  now : Pos
  /-- `my_history`, latest first; `max` is its length. -/
  history : List (Pos × Pos)

/-- The loop goes on, the stage is over, or the program has ended. -/
inductive State where
  | play (s : Game)
  | won (s : Game)
  | quit

/-- `start2` -/
def start (data : Grid) (now : Pos) : Game where
  map := data
  now := (findYX data).getD now
  history := []

/-- A movement is made and recorded. -/
def record (s : Game) (r : Pos × Pos) : Option Game :=
  (mapMove s.map r).map fun map => { s with map := map, history := r :: s.history }

/-- The box in front goes on by one. -/
def push (s : Game) (d : Pos) : Option Game :=
  (s.map.get? (s.now + d)).bind fun c =>
    if c &&& 4 ≠ 0 then
      (s.map.get? (s.now + d + d)).bind fun c₂ =>
        if c₂ < 2 then record s (s.now + d, s.now + d + d) else some s
    else some s

/-- The player goes on by one. -/
def walk (s : Game) (d : Pos) : Option Game :=
  (s.map.get? (s.now + d)).bind fun c => if c < 2 then record s (s.now, s.now + d) else some s

/-- A direction key. -/
def go (s : Game) (d : Pos) : Option State :=
  (push s d).bind fun s => (walk s d).map fun s =>
    if checkIfWin s.map then .won s else .play { s with now := (findYX s.map).getD s.now }

/-- A backspace. -/
def undo (s : Game) : Option State :=
  match s.history with
  | [] => some (.play s)
  | r :: h => (mapMove s.map (r.2, r.1)).map fun map =>
      .play { map := map, now := (findYX map).getD s.now, history := h }

/-- One key. -/
def step (data : Grid) : State → Key → Option State
  | .play s, k =>
      match inkey k with
      | none => some .quit
      | some c =>
          if 1999 ≤ s.history.length then some .quit
          else if c = 8 then undo s
          else if c = 32 then some .quit
          else if c = 9 then some (.play (start data s.now))
          else match direction c with
            | none => some (.play s)
            | some d => go s d
  | st, _ => some st

/-! ## What a map is -/

/-- The four ways to go. -/
def directions : List Pos := [(-1, 0), (1, 0), (0, -1), (0, 1)]

/-- A step that does not end on a wall. -/
def Beside (map : Grid) (p q : Pos) : Prop := (∃ d ∈ directions, q = p + d) ∧ map q ≠ 8

/-- At least one cell inside the array. -/
def Inner (p : Pos) : Prop := (1 ≤ p.1 ∧ p.1 ≤ 18) ∧ 1 ≤ p.2 ∧ p.2 ≤ 28

/-- The flags a cell can have at the same time. -/
def cellValues : List Nat := [0, 1, 2, 3, 4, 5, 8]

/-- A map whose one player is enclosed by walls. -/
structure Stage where
  data : Grid
  player : Pos
  cell : ∀ p, InArray p → data p ∈ cellValues
  one : ∀ p, InArray p → (data p &&& 2 ≠ 0 ↔ p = player)
  enclosed : ∀ p, Relation.ReflTransGen (Beside data) player p → Inner p

/-- The cells where a flag is set. -/
def holding (map : Grid) (f : Nat) : Finset Pos :=
  positions.toFinset.filter fun p => map p &&& f ≠ 0

/-- Every target holds a box. -/
def Filled (map : Grid) : Prop := ∀ p, InArray p → map p &&& 1 ≠ 0 → map p &&& 4 ≠ 0

theorem mem_positions {p : Pos} : p ∈ positions ↔ InArray p := by
  obtain ⟨y, x⟩ := p
  simp only [positions, List.mem_flatMap, List.mem_map, List.mem_range, InArray, Prod.mk.injEq]
  constructor
  · rintro ⟨n, hn, m, hm, rfl, rfl⟩
    omega
  · rintro ⟨⟨hy, hy'⟩, hx, hx'⟩
    exact ⟨y.toNat, by omega, x.toNat, by omega, Int.toNat_of_nonneg hy, Int.toNat_of_nonneg hx⟩

theorem mem_holding {map : Grid} {f : Nat} {p : Pos} :
    p ∈ holding map f ↔ InArray p ∧ map p &&& f ≠ 0 := by
  rw [holding, Finset.mem_filter, List.mem_toFinset, mem_positions]

theorem checkIfWin_iff {map : Grid} (hcell : ∀ p, InArray p → map p ∈ cellValues) :
    checkIfWin map = true ↔ Filled map := by
  have hvalue : ∀ v ∈ cellValues, (v ≠ 1 ∧ v ≠ 3) ↔ (v &&& 1 ≠ 0 → v &&& 4 ≠ 0) := by decide
  simp only [checkIfWin, List.all_eq_true, decide_eq_true_eq, mem_positions, Filled]
  exact forall₂_congr fun p hp => hvalue _ (hcell p hp)

theorem findYX_eq {map : Grid} {q : Pos} (h : holding map 2 = {q}) : findYX map = some q := by
  have hq : q ∈ holding map 2 := by
    rw [h]
    exact Finset.mem_singleton_self q
  obtain ⟨hin, hflag⟩ := mem_holding.mp hq
  cases hfind : findYX map with
  | none =>
      have hnone := List.find?_eq_none.mp hfind q (mem_positions.mpr hin)
      simp [hflag] at hnone
  | some p =>
      have hp : p ∈ holding map 2 := mem_holding.mpr
        ⟨mem_positions.mp (List.mem_of_find?_eq_some hfind), by simpa using List.find?_some hfind⟩
      rw [h, Finset.mem_singleton] at hp
      rw [hp]

/-! ## A movement -/

/-- What moves is a player or a box, to a free cell beside it. -/
structure Movable (map : Grid) (r : Pos × Pos) : Prop where
  inside : InArray r.1 ∧ InArray r.2
  beside : ∃ d ∈ directions, r.2 = r.1 + d
  source : map r.1 ∈ [2, 3, 4, 5]
  target : map r.2 ∈ [0, 1]

theorem Movable.ne {map : Grid} {r : Pos × Pos} (h : Movable map r) : r.2 ≠ r.1 := by
  intro heq
  have hboth : ∀ v ∈ [2, 3, 4, 5], v ∉ [0, 1] := by decide
  exact hboth _ h.source (heq ▸ h.target)

theorem moved_source (map : Grid) (r : Pos × Pos) : moved map r r.1 = map r.1 &&& 1 :=
  Function.update_self ..

theorem Movable.moved_target {map : Grid} {r : Pos × Pos} (h : Movable map r) :
    moved map r r.2 = map r.1 &&& 6 ||| map r.2 &&& 1 := by
  rw [moved, Function.update_of_ne h.ne, Function.update_self]

theorem moved_of_ne {map : Grid} {r : Pos × Pos} {p : Pos} (h₁ : p ≠ r.1) (h₂ : p ≠ r.2) :
    moved map r p = map p := by
  rw [moved, Function.update_of_ne h₁, Function.update_of_ne h₂]

/-- A movement goes on at two cells, and is nothing elsewhere. -/
theorem Movable.forall_moved {map : Grid} {r : Pos × Pos} (h : Movable map r)
    {Q : Nat → Nat → Prop} (hrefl : ∀ v, Q v v)
    (hQ : ∀ v ∈ [2, 3, 4, 5], ∀ w ∈ [0, 1], Q v (v &&& 1) ∧ Q w (v &&& 6 ||| w &&& 1)) (p : Pos) :
    Q (map p) (moved map r p) := by
  have hboth := hQ _ h.source _ h.target
  by_cases h₁ : p = r.1
  · rw [h₁, moved_source]
    exact hboth.1
  · by_cases h₂ : p = r.2
    · rw [h₂, h.moved_target]
      exact hboth.2
    · rw [moved_of_ne h₁ h₂]
      exact hrefl _

/-- Walls and targets stay. -/
theorem Movable.moved_fixed {map : Grid} {r : Pos × Pos} (h : Movable map r) (p : Pos) :
    moved map r p &&& 9 = map p &&& 9 :=
  h.forall_moved (Q := fun v w => w &&& 9 = v &&& 9) (fun _ => rfl) (by decide) p

theorem Movable.moved_cell {map : Grid} {r : Pos × Pos} (h : Movable map r) {p : Pos}
    (hp : map p ∈ cellValues) : moved map r p ∈ cellValues :=
  h.forall_moved (Q := fun v w => v ∈ cellValues → w ∈ cellValues) (fun _ hv => hv) (by decide) p hp

/-- A movement that is taken back. -/
theorem Movable.moved_back {map : Grid} {r : Pos × Pos} (h : Movable map r) :
    moved (moved map r) (r.2, r.1) = map := by
  have hvalue : ∀ v ∈ [2, 3, 4, 5], ∀ w ∈ [0, 1],
      (v &&& 6 ||| w &&& 1) &&& 6 ||| (v &&& 1) &&& 1 = v ∧
        (v &&& 6 ||| w &&& 1) &&& 1 = w := by decide
  obtain ⟨hsource, htarget⟩ := hvalue _ h.source _ h.target
  funext p
  by_cases h₂ : p = r.2
  · rw [h₂, moved_source (moved map r) (r.2, r.1), h.moved_target, htarget]
  · by_cases h₁ : p = r.1
    · rw [moved, Function.update_of_ne h₂]
      change Function.update _ r.1 _ p = _
      rw [h₁, Function.update_self, h.moved_target, moved_source, hsource]
    · rw [moved_of_ne h₂ h₁, moved_of_ne h₁ h₂]

/-- The flag that moves. -/
theorem Movable.holding_moved {map : Grid} {r : Pos × Pos} (h : Movable map r) {f : Nat}
    (hf : f = 2 ∨ f = 4) (hflag : map r.1 &&& f ≠ 0) :
    holding (moved map r) f = insert r.2 ((holding map f).erase r.1) := by
  have hvalue : ∀ f ∈ [2, 4], ∀ v ∈ [2, 3, 4, 5], ∀ w ∈ [0, 1], v &&& f ≠ 0 →
      (v &&& 1) &&& f = 0 ∧ (v &&& 6 ||| w &&& 1) &&& f ≠ 0 := by decide
  obtain ⟨hsource, htarget⟩ := hvalue f (by simpa using hf) _ h.source _ h.target hflag
  rw [← moved_source] at hsource
  rw [← h.moved_target] at htarget
  ext p
  rw [Finset.mem_insert, Finset.mem_erase, mem_holding, mem_holding]
  by_cases h₁ : p = r.1
  · simp [h₁, hsource, h.ne.symm]
  · by_cases h₂ : p = r.2
    · simp [h₂, htarget, h.inside.2]
    · simp [h₁, h₂, moved_of_ne h₁ h₂]

/-- The other flag. -/
theorem Movable.holding_of_not {map : Grid} {r : Pos × Pos} (h : Movable map r) {f : Nat}
    (hf : f = 2 ∨ f = 4) (hflag : map r.1 &&& f = 0) : holding (moved map r) f = holding map f := by
  have hvalue : ∀ f ∈ [2, 4], ∀ v ∈ [2, 3, 4, 5], ∀ w ∈ [0, 1], v &&& f = 0 →
      (v &&& 1) &&& f = 0 ∧ (v &&& 6 ||| w &&& 1) &&& f = 0 ∧ w &&& f = 0 := by decide
  obtain ⟨hsource, htarget, hfree⟩ := hvalue f (by simpa using hf) _ h.source _ h.target hflag
  rw [← moved_source] at hsource
  rw [← h.moved_target] at htarget
  ext p
  rw [mem_holding, mem_holding]
  by_cases h₁ : p = r.1
  · simp [h₁, hsource, hflag]
  · by_cases h₂ : p = r.2
    · simp [h₂, htarget, hfree]
    · simp [moved_of_ne h₁ h₂]

/-! ## What the movements keep -/

/-- The cells the player can ever get to. -/
abbrev Stage.Region (M : Stage) (p : Pos) : Prop :=
  Relation.ReflTransGen (Beside M.data) M.player p

structure Kept (M : Stage) (map : Grid) : Prop where
  /-- Walls and targets. -/
  fixed : ∀ p, map p &&& 9 = M.data p &&& 9
  cell : ∀ p, InArray p → map p ∈ cellValues
  boxes : (holding map 4).card = (holding M.data 4).card
  player : ∃ q, M.Region q ∧ holding map 2 = {q}

theorem Inner.inArray {p : Pos} (h : Inner p) : InArray p := by
  unfold Inner at h
  unfold InArray
  omega

theorem Inner.beside {p d : Pos} (h : Inner p) (hd : d ∈ directions) : InArray (p + d) := by
  obtain ⟨y, x⟩ := p
  unfold Inner at h
  simp only [directions, List.mem_cons, List.not_mem_nil, or_false] at hd
  unfold InArray
  rcases hd with rfl | rfl | rfl | rfl <;> simp only [Prod.mk_add_mk] <;> omega

theorem Stage.start_kept (M : Stage) : Kept M M.data where
  fixed _ := rfl
  cell := M.cell
  boxes := rfl
  player := by
    refine ⟨M.player, .refl, ?_⟩
    ext p
    rw [mem_holding, Finset.mem_singleton]
    constructor
    · exact fun h => (M.one p h.1).mp h.2
    · rintro rfl
      have hin := (M.enclosed _ .refl).inArray
      exact ⟨hin, (M.one _ hin).mpr rfl⟩

/-- Where there is no wall the map had none. -/
theorem Kept.region {M : Stage} {map : Grid} (h : Kept M map) {p q : Pos} (hp : M.Region p)
    (hq : ∃ d ∈ directions, q = p + d) (hfree : map q ≠ 8) (hcell : map q ∈ cellValues) :
    M.Region q := by
  refine hp.tail ⟨hq, fun hwall => hfree ?_⟩
  have hvalue : ∀ v ∈ cellValues, v &&& 9 = 8 &&& 9 → v = 8 := by decide
  exact hvalue _ hcell (by rw [h.fixed q, hwall])

theorem Kept.moved {M : Stage} {map : Grid} (h : Kept M map) {r : Pos × Pos}
    (hr : Movable map r) : Kept M (moved map r) where
  fixed p := (hr.moved_fixed p).trans (h.fixed p)
  cell p hp := hr.moved_cell (h.cell p hp)
  boxes := by
    by_cases hbox : map r.1 &&& 4 = 0
    · rw [hr.holding_of_not (.inr rfl) hbox, h.boxes]
    · have hsource : r.1 ∈ holding map 4 := mem_holding.mpr ⟨hr.inside.1, hbox⟩
      have htarget : r.2 ∉ (holding map 4).erase r.1 := by
        have hvalue : ∀ w ∈ [0, 1], w &&& 4 = 0 := by decide
        simp [mem_holding, hvalue _ hr.target]
      rw [hr.holding_moved (.inr rfl) hbox, Finset.card_insert_of_notMem htarget,
        Finset.card_erase_add_one hsource, h.boxes]
  player := by
    obtain ⟨q, hq, hplayer⟩ := h.player
    by_cases hflag : map r.1 &&& 2 = 0
    · exact ⟨q, hq, by rw [hr.holding_of_not (.inl rfl) hflag, hplayer]⟩
    · have hsource : r.1 ∈ holding map 2 := mem_holding.mpr ⟨hr.inside.1, hflag⟩
      rw [hplayer, Finset.mem_singleton] at hsource
      have hfree : map r.2 ≠ 8 := by
        have hvalue : ∀ w ∈ [0, 1], w ≠ 8 := by decide
        exact hvalue _ hr.target
      refine ⟨r.2, h.region hq (hsource ▸ hr.beside) hfree (h.cell _ hr.inside.2), ?_⟩
      rw [hr.holding_moved (.inl rfl) hflag, hplayer, hsource, Finset.erase_singleton]
      rfl

/-- A movement of the player changes nothing about the targets. -/
theorem Movable.filled_iff {map : Grid} {r : Pos × Pos} (h : Movable map r)
    (hflag : map r.1 &&& 4 = 0) : Filled (moved map r) ↔ Filled map := by
  have hboxes := h.holding_of_not (.inr rfl) hflag
  have hvalue (v : Nat) : v &&& 1 = (v &&& 9) &&& 1 := by
    rw [Nat.and_assoc]
    rfl
  refine forall₂_congr fun p hp => ?_
  have hbox : moved map r p &&& 4 ≠ 0 ↔ map p &&& 4 ≠ 0 := by
    have hmem : p ∈ holding (Worker.moved map r) 4 ↔ p ∈ holding map 4 := by rw [hboxes]
    simpa only [mem_holding, hp, true_and] using hmem
  rw [hbox, hvalue (Worker.moved map r p), h.moved_fixed p, ← hvalue]

/-! ## The games that can be reached -/

/-- A movement that is recorded; the stage was not over after it. -/
def Entry (M : Stage) (map : Grid) (r : Pos × Pos) : Prop :=
  Movable map r ∧ (¬ Filled M.data → ¬ Filled (moved map r))

/-- The map is where the history leads to, and `now` is the player. -/
structure Game.Reached (M : Stage) (s : Game) : Prop where
  recorded : Recorded moved M.data (Entry M) s.history
  map : s.map = replay moved M.data s.history
  now : holding s.map 2 = {s.now}

theorem Game.Reached.kept {M : Stage} {s : Game} (h : s.Reached M) :
    Kept M s.map ∧ (¬ Filled M.data → ¬ Filled s.map) := by
  rw [h.map]
  exact h.recorded.keeps (fun map => Kept M map ∧ (¬ Filled M.data → ¬ Filled map))
    ⟨M.start_kept, id⟩ fun map r hkept hr => ⟨hkept.1.moved hr.1, hr.2⟩

theorem start_reached (M : Stage) (now : Pos) : (start M.data now).Reached M := by
  obtain ⟨q, -, hq⟩ := M.start_kept.player
  exact ⟨trivial, rfl, by rw [start, findYX_eq hq]; exact hq⟩

theorem Game.Reached.ext {M : Stage} {s s' : Game} (h : s.Reached M) (h' : s'.Reached M)
    (heq : s'.history = s.history) : s' = s := by
  have hmap : s'.map = s.map := by rw [h'.map, h.map, heq]
  have hnow : s'.now = s.now := by
    have hplayer := h'.now
    rw [hmap, h.now] at hplayer
    exact (Finset.singleton_injective hplayer).symm
  obtain ⟨map, now, history⟩ := s
  obtain ⟨map', now', history'⟩ := s'
  cases hmap
  cases hnow
  cases heq
  rfl

/-- **A backspace takes the latest movement back**, though it may be half of a push. -/
theorem undo_reached {M : Stage} {s : Game} (h : s.Reached M) {r : Pos × Pos}
    {rs : List (Pos × Pos)} (hr : s.history = r :: rs) :
    ∃ s', undo s = some (.play s') ∧ s'.Reached M ∧ s'.history = rs := by
  have hrec := h.recorded
  rw [hr] at hrec
  have hentry := hrec.2.1
  have hback : moved s.map (r.2, r.1) = replay moved M.data rs := by
    rw [h.map, hr]
    exact hrec.undo (fun map r => moved map (r.2, r.1)) fun _ _ hr => hr.1.moved_back
  have hkept := hrec.1.keeps (Kept M) M.start_kept fun map r hkept hr => hkept.moved hr.1
  obtain ⟨q, -, hq⟩ := hkept.player
  refine ⟨⟨replay moved M.data rs, q, rs⟩, ?_, ⟨hrec.1, rfl, hq⟩, rfl⟩
  rw [undo, hr]
  dsimp only
  rw [mapMove, if_pos ⟨hentry.inside.2, hentry.inside.1⟩, hback, Option.map_some, findYX_eq hq,
    Option.getD_some]

/-! ## A direction key -/

theorem record_eq {s : Game} {r : Pos × Pos} (h : Movable s.map r) :
    record s r = some { s with map := moved s.map r, history := r :: s.history } := by
  rw [record, mapMove, if_pos h.inside, Option.map_some]

theorem Grid.get?_eq {map : Grid} {p : Pos} (h : InArray p) : map.get? p = some (map p) :=
  if_pos h

theorem lt_two_iff {v : Nat} : v < 2 ↔ v ∈ [0, 1] := by
  simp only [List.mem_cons, List.not_mem_nil, or_false]
  omega

/-- Where the player stands. -/
theorem Game.Reached.here {M : Stage} {s : Game} (h : s.Reached M) :
    M.Region s.now ∧ Inner s.now ∧ s.map s.now ∈ [2, 3] := by
  obtain ⟨q, hq, hplayer⟩ := h.kept.1.player
  have heq : s.now = q := Finset.singleton_injective (h.now.symm.trans hplayer)
  have hinner := M.enclosed q hq
  have hmem : s.now ∈ holding s.map 2 := by
    rw [h.now]
    exact Finset.mem_singleton_self _
  have hvalue : ∀ v ∈ cellValues, v &&& 2 ≠ 0 → v ∈ [2, 3] := by decide
  exact ⟨heq ▸ hq, heq ▸ hinner,
    hvalue _ (h.kept.1.cell _ (mem_holding.mp hmem).1) (mem_holding.mp hmem).2⟩

/-- The box in front can be moved. -/
theorem Game.Reached.box {M : Stage} {s : Game} (h : s.Reached M) {d : Pos} (hd : d ∈ directions)
    (hbox : s.map (s.now + d) &&& 4 ≠ 0) :
    InArray (s.now + d + d) ∧
      (s.map (s.now + d + d) ∈ [0, 1] → Movable s.map (s.now + d, s.now + d + d)) := by
  obtain ⟨hregion, hinner, -⟩ := h.here
  have hin := hinner.beside hd
  have hcell := h.kept.1.cell _ hin
  have hvalue : ∀ v ∈ cellValues, v &&& 4 ≠ 0 → v ≠ 8 ∧ v ∈ [2, 3, 4, 5] := by decide
  obtain ⟨hfree, hsource⟩ := hvalue _ hcell hbox
  have hnext := (M.enclosed _ (h.kept.1.region hregion ⟨d, hd, rfl⟩ hfree hcell)).beside hd
  exact ⟨hnext, fun htarget => ⟨⟨hin, hnext⟩, ⟨d, hd, rfl⟩, hsource, htarget⟩⟩

/-- What a direction key does to a map. -/
inductive MoveRight (d : Pos) (s s' : Game) : Prop
  | stays (same : s' = s)
  | walks (player : holding s'.map 2 = {s.now + d}) (boxes : holding s'.map 4 = holding s.map 4)
      (recorded : s'.history = (s.now, s.now + d) :: s.history)
  | pushes (player : holding s'.map 2 = {s.now + d}) (front : s.now + d ∈ holding s.map 4)
      (free : s.map (s.now + d + d) &&& 12 = 0)
      (boxes : holding s'.map 4 =
        insert (s.now + d + d) ((holding s.map 4).erase (s.now + d)))
      (recorded : s'.history =
        (s.now, s.now + d) :: (s.now + d, s.now + d + d) :: s.history)

/-- What is known after a direction key, when it is not yet looked whether the stage is over. -/
structure Went (M : Stage) (d : Pos) (s s' : Game) : Prop where
  move : MoveRight d s s'
  kept : Kept M s'.map
  map : s'.map = replay moved M.data s'.history
  recorded : (¬ Filled M.data → ¬ Filled s'.map) → Recorded moved M.data (Entry M) s'.history

theorem walk_stays {s : Game} {d : Pos} (hin : InArray (s.now + d))
    (h : s.map (s.now + d) ∉ [0, 1]) : walk s d = some s := by
  rw [walk, Grid.get?_eq hin, Option.bind_some, if_neg (mt lt_two_iff.mp h)]

theorem walk_goes {s : Game} {d : Pos} (h : Movable s.map (s.now, s.now + d)) :
    walk s d = some { s with
      map := moved s.map (s.now, s.now + d)
      history := (s.now, s.now + d) :: s.history } := by
  rw [walk, Grid.get?_eq h.inside.2, Option.bind_some, if_pos (lt_two_iff.mpr h.target),
    record_eq h]

theorem holding_walked {map : Grid} {p q : Pos} (h : Movable map (p, q))
    (hp : map p ∈ [2, 3]) (hplayer : holding map 2 = {p}) :
    holding (moved map (p, q)) 2 = {q} ∧ holding (moved map (p, q)) 4 = holding map 4 := by
  have hvalue : ∀ v ∈ [2, 3], v &&& 2 ≠ 0 ∧ v &&& 4 = 0 := by decide
  obtain ⟨hflag, hbox⟩ := hvalue _ hp
  refine ⟨?_, h.holding_of_not (.inr rfl) hbox⟩
  rw [h.holding_moved (.inl rfl) hflag, hplayer, Finset.erase_singleton]
  rfl

theorem go_walks {M : Stage} {s : Game} (h : s.Reached M) {d : Pos} (hd : d ∈ directions)
    (hfree : s.map (s.now + d) ∈ [0, 1]) : ∃ s', walk s d = some s' ∧ Went M d s s' := by
  obtain ⟨hregion, hinner, hhere⟩ := h.here
  have hvalue : ∀ v ∈ [2, 3], v ∈ [2, 3, 4, 5] ∧ v &&& 4 = 0 := by decide
  obtain ⟨hsource, hbox⟩ := hvalue _ hhere
  have hmove : Movable s.map (s.now, s.now + d) :=
    ⟨⟨hinner.inArray, hinner.beside hd⟩, ⟨d, hd, rfl⟩, hsource, hfree⟩
  obtain ⟨hplayer, hboxes⟩ := holding_walked hmove hhere h.now
  refine ⟨_, walk_goes hmove, .walks hplayer hboxes rfl, h.kept.1.moved hmove, ?_, ?_⟩
  · rw [replay, ← h.map]
  · exact fun hun => ⟨h.recorded, h.map ▸ hmove, h.map ▸ hun⟩

theorem go_pushes {M : Stage} {s : Game} (h : s.Reached M) {d : Pos} (hd : d ∈ directions)
    (hbox : s.map (s.now + d) &&& 4 ≠ 0) (hfree : s.map (s.now + d + d) ∈ [0, 1]) :
    ∃ s', (push s d).bind (walk · d) = some s' ∧ Went M d s s' := by
  obtain ⟨hregion, hinner, hhere⟩ := h.here
  obtain ⟨hin, hbmove⟩ := h.box hd hbox
  have hfront := hbmove hfree
  have hpush : push s d = some { s with
      map := moved s.map (s.now + d, s.now + d + d)
      history := (s.now + d, s.now + d + d) :: s.history } := by
    rw [push, Grid.get?_eq hfront.inside.1, Option.bind_some, if_pos hbox, Grid.get?_eq hin,
      Option.bind_some, if_pos (lt_two_iff.mpr hfree), record_eq hfront]
  -- The player stands where it stood, in front of a cell that is free now.
  have hnow : moved s.map (s.now + d, s.now + d + d) s.now = s.map s.now := by
    have hvalue : ∀ v ∈ [2, 3], v &&& 4 = 0 ∧ v ∉ [0, 1] := by decide
    refine moved_of_ne (fun heq => hbox ?_) fun heq => (hvalue _ hhere).2 ?_
    · rw [show s.now + d = s.now from heq.symm]
      exact (hvalue _ hhere).1
    · rwa [show s.now = s.now + d + d from heq]
  have hvalue : ∀ v ∈ [2, 3, 4, 5], v &&& 1 ∈ [0, 1] := by decide
  have htarget : moved s.map (s.now + d, s.now + d + d) (s.now + d) ∈ [0, 1] := by
    rw [moved_source s.map (s.now + d, s.now + d + d)]
    exact hvalue _ hfront.source
  have hplayer₁ : holding (moved s.map (s.now + d, s.now + d + d)) 2 = {s.now} := by
    have hvalue : ∀ v ∈ [2, 3, 4, 5], v &&& 4 ≠ 0 → v &&& 2 = 0 := by decide
    rw [hfront.holding_of_not (.inl rfl) (hvalue _ hfront.source hbox), h.now]
  have hvalue : ∀ v ∈ [2, 3], v ∈ [2, 3, 4, 5] ∧ v &&& 4 = 0 := by decide
  have hmove : Movable (moved s.map (s.now + d, s.now + d + d)) (s.now, s.now + d) :=
    ⟨⟨hinner.inArray, hfront.inside.1⟩, ⟨d, hd, rfl⟩, hnow ▸ (hvalue _ hhere).1, htarget⟩
  obtain ⟨hplayer, hboxes⟩ := holding_walked hmove (hnow ▸ hhere) hplayer₁
  refine ⟨_, by rw [hpush]; exact walk_goes hmove, ?_, ?_, ?_, ?_⟩
  · refine .pushes hplayer (mem_holding.mpr ⟨hfront.inside.1, hbox⟩) ?_ ?_ rfl
    · have hvalue : ∀ w ∈ [0, 1], w &&& 12 = 0 := by decide
      exact hvalue _ hfree
    · exact hboxes.trans (hfront.holding_moved (.inr rfl) hbox)
  · exact (h.kept.1.moved hfront).moved hmove
  · rw [replay, replay, ← h.map]
  · intro hun
    have hfilled := hmove.filled_iff (hnow ▸ (hvalue _ hhere).2)
    rw [h.map] at hfront hmove hfilled
    exact ⟨⟨h.recorded, hfront, fun hdata hfill => hun hdata (h.map ▸ hfilled.mpr hfill)⟩, hmove,
      fun hdata => h.map ▸ hun hdata⟩

/-- **A direction key** moves the player or does not, and then it is looked whether every target
holds a box. -/
theorem go_reached {M : Stage} {s : Game} (h : s.Reached M) {d : Pos} (hd : d ∈ directions) :
    ∃ s', MoveRight d s s' ∧ Kept M s'.map ∧
      (Filled s'.map ∧ go s d = some (.won s') ∨
        ¬ Filled s'.map ∧ go s d = some (.play s') ∧ s'.Reached M) := by
  have hin := h.here.2.1.beside hd
  have hwent : ∃ s', (push s d).bind (walk · d) = some s' ∧ Went M d s s' := by
    have hstay : Went M d s s := ⟨.stays rfl, h.kept.1, h.map, fun _ => h.recorded⟩
    have hvalue : ∀ v ∈ [0, 1], v &&& 4 = 0 := by decide
    by_cases hbox : s.map (s.now + d) &&& 4 = 0
    · have hpush : push s d = some s := by
        rw [push, Grid.get?_eq hin, Option.bind_some, if_neg (not_not_intro hbox)]
      rw [hpush, Option.bind_some]
      by_cases hfree : s.map (s.now + d) ∈ [0, 1]
      · exact go_walks h hd hfree
      · exact ⟨s, walk_stays hin hfree, hstay⟩
    · by_cases hfree : s.map (s.now + d + d) ∈ [0, 1]
      · exact go_pushes h hd hbox hfree
      · have hpush : push s d = some s := by
          rw [push, Grid.get?_eq hin, Option.bind_some, if_pos hbox,
            Grid.get?_eq (h.box hd hbox).1, Option.bind_some, if_neg (mt lt_two_iff.mp hfree)]
        rw [hpush, Option.bind_some]
        exact ⟨s, walk_stays hin fun hfree => hbox (hvalue _ hfree), hstay⟩
  obtain ⟨s', hgoes, hwent⟩ := hwent
  have hgo : go s d = some (if checkIfWin s'.map then .won s' else
      .play { s' with now := (findYX s'.map).getD s'.now }) := by
    obtain ⟨s₁, hpush, hwalk⟩ := Option.bind_eq_some_iff.mp hgoes
    rw [go, hpush, Option.bind_some, hwalk, Option.map_some]
  have hwin := checkIfWin_iff hwent.kept.cell
  by_cases hfilled : Filled s'.map
  · rw [if_pos (hwin.mpr hfilled)] at hgo
    exact ⟨s', hwent.move, hwent.kept, .inl ⟨hfilled, hgo⟩⟩
  · rw [if_neg fun hw => hfilled (hwin.mp hw)] at hgo
    obtain ⟨q, -, hq⟩ := hwent.kept.player
    rw [findYX_eq hq, Option.getD_some] at hgo
    refine ⟨{ s' with now := q }, ?_, hwent.kept, .inr ⟨hfilled, hgo, ?_⟩⟩
    · cases hwent.move with
      | stays same =>
          subst same
          rw [← Finset.singleton_injective (h.now.symm.trans hq)]
          exact .stays rfl
      | walks player boxes recorded => exact .walks player boxes recorded
      | pushes player front free boxes recorded => exact .pushes player front free boxes recorded
    · exact ⟨hwent.recorded fun _ => hfilled, hwent.map, hq⟩

theorem direction_mem {c : Int} {d : Pos} (h : direction c = some d) : d ∈ directions := by
  unfold direction at h
  split_ifs at h <;> cases h <;> decide

/-! ## Every key -/

/-- What a key may do. -/
inductive KeyRight (M : Stage) (s : Game) (k : Key) : State → Prop
  | goes {d : Pos} {s' : Game} (key : (inkey k).bind direction = some d)
      (few : s.history.length < 1999) (move : MoveRight d s s') (more : ¬ Filled s'.map) :
      KeyRight M s k (.play s')
  | ends {d : Pos} {s' : Game} (key : (inkey k).bind direction = some d)
      (few : s.history.length < 1999) (move : MoveRight d s s') (full : Filled s'.map) :
      KeyRight M s k (.won s')
  | undoes {r : Pos × Pos} {s' : Game} (key : inkey k = some 8) (few : s.history.length < 1999)
      (history : s.history = r :: s'.history) : KeyRight M s k (.play s')
  | restarts (key : inkey k = some 9) (few : s.history.length < 1999) :
      KeyRight M s k (.play (start M.data s.now))
  | quits (key : inkey k = none ∨ inkey k = some 32 ∨ 1999 ≤ s.history.length) :
      KeyRight M s k .quit
  | nothing (key : (inkey k).bind direction = none) : KeyRight M s k (.play s)

/-- What holds of all states that can be reached. -/
def State.Reached (M : Stage) : State → Prop
  | .play s => s.Reached M
  | .won s => Kept M s.map ∧ Filled s.map
  | .quit => True

theorem step_reached {M : Stage} {s : Game} (h : s.Reached M) (k : Key) :
    ∃ st, step M.data (.play s) k = some st ∧ st.Reached M ∧ KeyRight M s k st := by
  cases hkey : inkey k with
  | none => exact ⟨.quit, by simp only [step, hkey], trivial, .quits (.inl hkey)⟩
  | some c =>
      simp only [step, hkey]
      by_cases hfew : 1999 ≤ s.history.length
      · rw [if_pos hfew]
        exact ⟨.quit, rfl, trivial, .quits (.inr (.inr hfew))⟩
      rw [if_neg hfew]
      by_cases hback : c = 8
      · rw [if_pos hback]
        subst hback
        cases hhist : s.history with
        | nil =>
            refine ⟨.play s, by rw [undo, hhist], h, .nothing ?_⟩
            rw [hkey]
            rfl
        | cons r rs =>
            obtain ⟨s', hundo, hreached, hrs⟩ := undo_reached h hhist
            exact ⟨.play s', hundo, hreached,
              .undoes hkey (Nat.lt_of_not_le hfew) (hrs ▸ hhist)⟩
      rw [if_neg hback]
      by_cases hspace : c = 32
      · rw [if_pos hspace]
        exact ⟨.quit, rfl, trivial, .quits (.inr (.inl (hspace ▸ hkey)))⟩
      rw [if_neg hspace]
      by_cases htab : c = 9
      · rw [if_pos htab]
        exact ⟨_, rfl, start_reached M s.now, .restarts (htab ▸ hkey) (Nat.lt_of_not_le hfew)⟩
      rw [if_neg htab]
      have hbind : (inkey k).bind direction = direction c := by rw [hkey, Option.bind_some]
      cases hdir : direction c with
      | none => exact ⟨.play s, rfl, h, .nothing (hbind.trans hdir)⟩
      | some d =>
          obtain ⟨s', hmove, hkept, hend⟩ := go_reached h (direction_mem hdir)
          rcases hend with ⟨hfilled, hgo⟩ | ⟨hmore, hgo, hreached⟩
          · exact ⟨.won s', hgo, ⟨hkept, hfilled⟩,
              .ends (hbind.trans hdir) (Nat.lt_of_not_le hfew) hmove hfilled⟩
          · exact ⟨.play s', hgo, hreached,
              .goes (hbind.trans hdir) (Nat.lt_of_not_le hfew) hmove hmore⟩

theorem exec_reached {M : Stage} {st : State} (h : st.Reached M) (ks : List Key) :
    ∃ st', exec (step M.data) st ks = some st' ∧ st'.Reached M := by
  induction ks generalizing st with
  | nil => exact ⟨st, rfl, h⟩
  | cons k ks ih =>
      have hnext : ∃ st₁, step M.data st k = some st₁ ∧ st₁.Reached M := by
        cases st with
        | play s =>
            obtain ⟨st₁, hstep, hreached, -⟩ := step_reached h k
            exact ⟨st₁, hstep, hreached⟩
        | won s => exact ⟨.won s, rfl, h⟩
        | quit => exact ⟨.quit, rfl, h⟩
      obtain ⟨st₁, hstep, hreached⟩ := hnext
      obtain ⟨st', hexec, hlast⟩ := ih hreached
      exact ⟨st', by rw [exec, hstep]; exact hexec, hlast⟩

/-- As many backspaces as movements. -/
theorem exec_undo {M : Stage} {s s' : Game} (h : s.Reached M) (h' : s'.Reached M)
    {rs : List (Pos × Pos)} (hrs : s'.history = rs ++ s.history)
    (hfew : s'.history.length < 1999) :
    exec (step M.data) (.play s') (List.replicate rs.length (.char 8)) = some (.play s) := by
  induction rs generalizing s' with
  | nil =>
      rw [h.ext h' hrs]
      rfl
  | cons r rs ih =>
      have hcons : s'.history = r :: (rs ++ s.history) := hrs
      obtain ⟨s₁, hundo, hreached, hhist⟩ := undo_reached h' hcons
      have hstep : step M.data (.play s') (.char 8) = some (.play s₁) := by
        simp only [step, inkey]
        rw [if_neg (by decide), if_neg (by decide)]
        dsimp only
        rw [if_neg (Nat.not_le_of_lt hfew), if_pos rfl, hundo]
      rw [List.length_cons, List.replicate_succ, exec, hstep, Option.bind_some]
      refine ih hreached hhist ?_
      rw [hrs, List.cons_append, List.length_cons] at hfew
      rw [hhist]
      omega

/-- What the player can rely on. -/
def State.Right (M : Stage) : State → Prop
  | .play s =>
      (Kept M s.map ∧ holding s.map 2 = {s.now}) ∧ (¬ Filled M.data → ¬ Filled s.map) ∧
        (∀ k, ∃ st, step M.data (.play s) k = some st ∧ KeyRight M s k st) ∧
        ∀ ks s' rs, exec (step M.data) (.play s) ks = some (.play s') →
          s'.history = rs ++ s.history → s'.history.length < 1999 →
            exec (step M.data) (.play s') (List.replicate rs.length (.char 8)) = some (.play s)
  | .won s => Kept M s.map ∧ Filled s.map
  | .quit => True

/-- **Every game** stays inside the array and keeps walls, targets, the player and the number of
boxes; direction keys move by one cell, backspaces take back what is recorded, and the stage is over
when every target holds a box. -/
theorem worker_right (M : Stage) (now : Pos) (ks : List Key) :
    ∃ st, exec (step M.data) (.play (start M.data now)) ks = some st ∧ st.Right M := by
  obtain ⟨st, hexec, hreached⟩ :=
    @exec_reached M (.play (start M.data now)) (start_reached M now) ks
  refine ⟨st, hexec, ?_⟩
  cases st with
  | won s => exact hreached
  | quit => trivial
  | play s =>
      refine ⟨⟨hreached.kept.1, hreached.now⟩, hreached.kept.2, fun k => ?_, ?_⟩
      · obtain ⟨st, hstep, -, hright⟩ := step_reached hreached k
        exact ⟨st, hstep, hright⟩
      · intro ks s' rs hexec hrs hfew
        obtain ⟨st', hexec', hreached'⟩ := @exec_reached M (.play s) hreached ks
        cases hexec'.symm.trans hexec
        exact exec_undo hreached hreached' hrs hfew

/-! ## A corridor -/

/-- Three cells in a row, the player at the left and `t` at the right. -/
def hallData (t : Nat) : Grid := fun p =>
  if p = (1, 1) then 2 else if p = (1, 2) then 0 else if p = (1, 3) then t else 8

theorem hall_cell {t : Nat} (ht : t ≤ 1) (p : Pos) (_ : InArray p) : hallData t p ∈ cellValues := by
  unfold hallData cellValues
  split_ifs
  · decide
  · decide
  · interval_cases t <;> decide
  · decide

theorem hall_one {t : Nat} (ht : t ≤ 1) (p : Pos) (_ : InArray p) :
    hallData t p &&& 2 ≠ 0 ↔ p = (1, 1) := by
  unfold hallData
  split_ifs with h₁ h₂ h₃
  · simp [h₁]
  · simp [h₁]
  · interval_cases t <;> simp [h₁]
  · simp [h₁]

theorem hall_enclosed (t : Nat) (p : Pos)
    (h : Relation.ReflTransGen (Beside (hallData t)) (1, 1) p) : Inner p := by
  have hrow : p = (1, 1) ∨ p = (1, 2) ∨ p = (1, 3) := by
    induction h with
    | refl => exact .inl rfl
    | tail _ hbeside _ =>
        obtain ⟨-, hwall⟩ := hbeside
        by_contra hout
        rw [not_or, not_or] at hout
        refine hwall ?_
        rw [hallData, if_neg hout.1, if_neg hout.2.1, if_neg hout.2.2]
  rcases hrow with rfl | rfl | rfl <;> exact ⟨by decide, by decide⟩

def hall (t : Nat) (ht : t ≤ 1) : Stage where
  data := hallData t
  player := (1, 1)
  cell := hall_cell ht
  one := hall_one ht
  enclosed := hall_enclosed t

theorem go_free {map : Grid} {p q d : Pos} (hq : p + d = q) (h : Movable map (p, q))
    (hmore : checkIfWin (moved map (p, q)) = false) (hfind : findYX (moved map (p, q)) = some q)
    (history : List (Pos × Pos)) : go ⟨map, p, history⟩ d =
      some (.play ⟨moved map (p, q), q, (p, q) :: history⟩) := by
  have hvalue : ∀ w ∈ [0, 1], w &&& 4 = 0 := by decide
  subst hq
  have hpush : push ⟨map, p, history⟩ d = some ⟨map, p, history⟩ := by
    rw [push, Grid.get?_eq h.inside.2, Option.bind_some,
      if_neg (not_not_intro (hvalue _ h.target))]
  rw [go, hpush, Option.bind_some, walk_goes h, Option.map_some, if_neg (by simp [hmore]), hfind,
    Option.getD_some]

theorem step_go {data : Grid} {s : Game} {c : Int} {d : Pos} (hkey : inkey (.char c) = some c)
    (hc : c ≠ 8 ∧ c ≠ 32 ∧ c ≠ 9) (hd : direction c = some d) (hfew : s.history.length < 1999) :
    step data (.play s) (.char c) = go s d := by
  simp only [step, hkey, hd]
  rw [if_neg (Nat.not_le_of_lt hfew), if_neg hc.1, if_neg hc.2.1, if_neg hc.2.2]

/-- The player of the corridor goes to the right and comes back. -/
def pacing : Nat → List Key
  | 0 => []
  | n + 1 => .char 67 :: .char 68 :: pacing n

/-- The corridor with the player in the middle. -/
def hallMiddle : Grid := moved (hallData 1) ((1, 1), (1, 2))

theorem hall_movable : Movable (hallData 1) ((1, 1), (1, 2)) :=
  ⟨by decide, ⟨(0, 1), by decide, by decide⟩, by decide, by decide⟩

theorem hall_back : moved hallMiddle ((1, 2), (1, 1)) = hallData 1 := hall_movable.moved_back

theorem hall_right {h : List (Pos × Pos)} (hfew : h.length < 1999) :
    step (hallData 1) (.play ⟨hallData 1, (1, 1), h⟩) (.char 67) =
      some (.play ⟨hallMiddle, (1, 2), ((1, 1), (1, 2)) :: h⟩) := by
  rw [step_go (d := (0, 1)) rfl (by decide) rfl hfew]
  exact go_free (by decide) hall_movable (by decide +kernel) (by decide +kernel) h

theorem hall_left {h : List (Pos × Pos)} (hfew : h.length < 1999) :
    step (hallData 1) (.play ⟨hallMiddle, (1, 2), h⟩) (.char 68) =
      some (.play ⟨hallData 1, (1, 1), ((1, 2), (1, 1)) :: h⟩) := by
  have hmove : Movable hallMiddle ((1, 2), (1, 1)) :=
    ⟨by decide, ⟨(0, -1), by decide, by decide⟩, by decide, by decide⟩
  rw [step_go (d := (0, -1)) rfl (by decide) rfl hfew,
    go_free (by decide) hmove (by decide +kernel) (by decide +kernel) h, hall_back]

theorem exec_pacing (n : Nat) (h : List (Pos × Pos)) (hfew : h.length + 2 * n ≤ 1998)
    (ks : List Key) : ∃ h', h'.length = h.length + 2 * n ∧
      exec (step (hallData 1)) (.play ⟨hallData 1, (1, 1), h⟩) (pacing n ++ ks) =
        exec (step (hallData 1)) (.play ⟨hallData 1, (1, 1), h'⟩) ks := by
  induction n generalizing h with
  | zero => exact ⟨h, rfl, rfl⟩
  | succ n ih =>
      obtain ⟨h', hlen, hexec⟩ := ih (((1, 2), (1, 1)) :: ((1, 1), (1, 2)) :: h) (by
        rw [List.length_cons, List.length_cons]
        omega)
      rw [List.length_cons, List.length_cons] at hlen
      refine ⟨h', by omega, ?_⟩
      rw [pacing, List.cons_append, exec, hall_right (by omega), Option.bind_some,
        List.cons_append, exec, hall_left (by rw [List.length_cons]; omega), Option.bind_some,
        hexec]

theorem hall_start (now : Pos) : start (hallData 1) now = ⟨hallData 1, (1, 1), []⟩ := by
  have hfind : findYX (hallData 1) = some (1, 1) := by decide +kernel
  rw [start, hfind, Option.getD_some]

/-- Where there is no target a stage that is not played goes on; of 1999 movements a backspace takes
none back; and a tab takes the player further than one cell. -/
theorem worker_stops :
    (∃ s, exec (step (hall 0 (by decide)).data) (.play (start (hall 0 (by decide)).data (0, 0)))
        [.char 8] = some (.play s) ∧ Filled s.map) ∧
      (∃ s r h, exec (step (hall 1 (by decide)).data)
          (.play (start (hall 1 (by decide)).data (0, 0))) (pacing 999 ++ [.char 67]) =
            some (.play s) ∧ s.history = r :: h ∧
        step (hall 1 (by decide)).data (.play s) (.char 8) = some .quit) ∧
      ∃ s s', exec (step (hall 1 (by decide)).data)
          (.play (start (hall 1 (by decide)).data (0, 0))) [.char 67, .char 67] =
            some (.play s) ∧
        step (hall 1 (by decide)).data (.play s) (.char 9) = some (.play s') ∧
          s.now = (1, 3) ∧ s'.now = (1, 1) := by
  refine ⟨⟨_, rfl, ?_⟩, ?_, ?_⟩
  · exact (checkIfWin_iff (hall_cell (by decide))).mp (by decide +kernel)
  · obtain ⟨h, hlen, hexec⟩ := exec_pacing 999 [] (by decide) [.char 67]
    rw [List.length_nil, Nat.zero_add] at hlen
    refine ⟨⟨hallMiddle, (1, 2), ((1, 1), (1, 2)) :: h⟩, _, _, ?_, rfl, ?_⟩
    · change (exec (step (hallData 1)) (.play (start (hallData 1) (0, 0))) _) = _
      rw [hall_start, hexec, exec, hall_right (by omega)]
      rfl
    · simp only [step, inkey]
      rw [if_neg (by decide), if_neg (by decide)]
      exact if_pos (by rw [List.length_cons]; omega)
  · have hmove : Movable hallMiddle ((1, 2), (1, 3)) :=
      ⟨by decide, ⟨(0, 1), by decide, by decide⟩, by decide, by decide⟩
    have hgo := go_free (d := (0, 1)) (by decide) hmove (by decide +kernel) (by decide +kernel)
      [((1, 1), (1, 2))]
    have hnext : step (hallData 1) (.play ⟨hallMiddle, (1, 2), [((1, 1), (1, 2))]⟩) (.char 67) =
        _ := (step_go rfl (by decide) rfl (by decide)).trans hgo
    refine ⟨⟨moved hallMiddle ((1, 2), (1, 3)), (1, 3), [((1, 2), (1, 3)), ((1, 1), (1, 2))]⟩,
      start (hallData 1) (1, 3), ?_, rfl, rfl, congrArg Game.now (hall_start _)⟩
    change (exec (step (hallData 1)) (.play (start (hallData 1) (0, 0))) _) = _
    rw [hall_start, exec, hall_right (by decide), Option.bind_some, exec, hnext]
    rfl

end Ytht.Worker
