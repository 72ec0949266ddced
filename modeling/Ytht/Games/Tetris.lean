import Mathlib.Data.Fintype.Basic
import Ytht.Lib.Runs
import Ytht.Lib.Settle

/-!
# Games.Tetris

Falling blocks in `a[21][12]`, whose first and last columns and last row are the border.  An access
outside the array is `none`.

The collision test stops at the first cell that is taken, and that is what keeps the long piece
inside the array when it turns at a wall (`guarded_moves`).  `tetris_right` is about all games.
-/

namespace Ytht.Tetris

open Runs

/-! ## The array -/

/-- `a` -/
abbrev Grid := Int → Int → Nat

def InArray (y x : Int) : Prop := (0 ≤ y ∧ y ≤ 20) ∧ 0 ≤ x ∧ x ≤ 11

instance (y x : Int) : Decidable (InArray y x) := inferInstanceAs (Decidable (_ ∧ _))

/-- The 20 rows and 10 columns inside the border. -/
def Inside (y x : Int) : Prop := (0 ≤ y ∧ y ≤ 19) ∧ 1 ≤ x ∧ x ≤ 10

instance (y x : Int) : Decidable (Inside y x) := inferInstanceAs (Decidable (_ ∧ _))

/-- `a` before the first game. -/
def firstGrid : Grid := fun y x => if InArray y x ∧ ¬ Inside y x then 8 else 0

def Grid.get? (a : Grid) (y x : Int) : Option Nat := if InArray y x then some (a y x) else none

def Grid.put (a : Grid) (y x : Int) (v : Nat) : Grid :=
  fun y' x' => if y' = y ∧ x' = x then v else a y' x'

def Grid.set? (a : Grid) (y x : Int) (v : Nat) : Option Grid :=
  if InArray y x then some (a.put y x v) else none

/-- `d` -/
def d : List (List (List Nat)) :=
  [[[0, 1, 4, 5], [0, 1, 4, 5], [0, 1, 4, 5], [0, 1, 4, 5]],
    [[4, 5, 6, 7], [1, 5, 9, 13], [4, 5, 6, 7], [1, 5, 9, 13]],
    [[0, 1, 5, 6], [1, 4, 5, 8], [0, 1, 5, 6], [1, 4, 5, 8]],
    [[1, 2, 4, 5], [0, 4, 5, 9], [1, 2, 4, 5], [0, 4, 5, 9]],
    [[0, 1, 2, 4], [0, 1, 5, 9], [2, 4, 5, 6], [0, 4, 8, 9]],
    [[0, 1, 2, 6], [1, 5, 8, 9], [0, 4, 5, 6], [0, 1, 4, 8]],
    [[0, 1, 2, 5], [1, 4, 5, 9], [1, 4, 5, 6], [0, 4, 5, 8]]]

/-- `dy[k][n][e]` and `dx[k][n][e]` for all `e`. -/
def cells (k : Fin 7) (n : Fin 4) : List (Int × Int) :=
  ((d.getD k []).getD n []).map fun v => (((v / 4 : Nat) : Int), ((v % 4 : Nat) : Int))

/-- The loop of `crash2`. -/
def crashLoop (a : Grid) (y x : Int) : List (Int × Int) → Option Bool
  | [] => some false
  | c :: cs =>
      (a.get? (y + c.1) (x + c.2)).bind fun v =>
        if v ≠ 0 then some true else crashLoop a y x cs

/-- `crash2` -/
def crash2 (a : Grid) (x y : Int) (k : Fin 7) (n : Fin 4) : Option Bool :=
  crashLoop a y x (cells k n)

/-! ## checklines -/

/-- `x1` from 1 to 10. -/
def columns : List Int := [1, 2, 3, 4, 5, 6, 7, 8, 9, 10]

/-- The test of a row, which stops at the first hole. -/
def rowFull (a : Grid) (y1 : Int) : List Int → Option Bool
  | [] => some true
  | x1 :: xs => (a.get? y1 x1).bind fun v => if v = 0 then some false else rowFull a y1 xs

/-- `a[y2][x1] = a[y2 - 1][x1]` for all columns. -/
def copyRow (a : Grid) (y2 : Int) : Option Grid :=
  columns.foldlM (fun a x1 => (a.get? (y2 - 1) x1).bind fun v => a.set? y2 x1 v) a

/-- `y2` from a row down to 1. -/
def shiftRows : Nat → Grid → Option Grid
  | 0, a => some a
  | y2 + 1, a => (copyRow a ((y2 : Int) + 1)).bind (shiftRows y2)

def clearTop (a : Grid) : Option Grid := columns.foldlM (fun a x1 => a.set? 0 x1 0) a

/-- One turn of the loop, with `lines`. -/
def checkLine (s : Grid × Nat) (y1 : Nat) : Option (Grid × Nat) :=
  (rowFull s.1 y1 columns).bind fun full =>
    if full then (shiftRows y1 s.1).bind fun a => (clearTop a).map fun a => (a, s.2 + 1)
    else some s

/-- `checklines` -/
def checklines (s : Grid × Nat) : Option (Grid × Nat) := (List.range 20).foldlM checkLine s

/-! ## The game -/

/-- Where `start` stands: a piece comes, a key is awaited, the clock is looked at, or the game is
over. -/
inductive Phase where
  | spawn
  | key
  | tick (c : Int)
  | gameover
  deriving DecidableEq

structure Game where
  a : Grid
  k : Fin 7
  n : Fin 4
  y : Int
  x : Int
  newk : Fin 7
  lines : Nat
  phase : Phase

/-- What comes from outside: a key, whether `delay` has passed, and `rand() % 7`. -/
structure Input where
  c : Int
  late : Bool
  rand : Fin 7

/-- `init_data` -/
def initData (a : Grid) (r : Fin 7) : Game where
  a := fun y x => if Inside y x then 0 else a y x
  k := 0
  n := 0
  y := 0
  x := 0
  newk := r
  lines := 0
  phase := .spawn

/-- A piece comes. -/
def spawn (s : Game) (r : Fin 7) : Option Game :=
  let s := { s with k := s.newk, newk := r, n := 0, x := 3, y := 0 }
  (crash2 s.a s.x s.y s.k s.n).map fun crash => { s with phase := if crash then .gameover else .key }

/-- The piece goes there, if nothing is in the way. -/
def tryMove (s : Game) (x y : Int) (n : Fin 4) : Option Game :=
  (crash2 s.a x y s.k n).map fun crash => if crash then s else { s with x := x, y := y, n := n }

/-- The keys that move and turn the piece; a key is only one of them. -/
def moveKey (s : Game) (c : Int) : Option Game :=
  if c = 260 ∨ c = 97 ∨ c = 65 then tryMove s (s.x - 1) s.y s.n
  else if c = 259 ∨ c = 115 ∨ c = 83 then tryMove s (s.x + 1) s.y s.n
  else if c = 98 ∨ c = 66 ∨ c = 10 then tryMove s s.x s.y (s.n + 1)
  else if c = 104 ∨ c = 72 ∨ c = 257 then tryMove s s.x s.y (s.n + 3)
  else if c = 74 ∨ c = 106 then tryMove s s.x s.y (s.n + 2)
  else some s

/-- `while (!crash2(x, y + 1, k, n)) y++` -/
def dropLoop (s : Game) : Nat → Int → Option Int
  | 0, _ => none
  | fuel + 1, y =>
      (crash2 s.a s.x (y + 1) s.k s.n).bind fun crash =>
        if crash then some y else dropLoop s fuel (y + 1)

/-- `down` -/
def down (s : Game) : Option Game :=
  ((cells s.k s.n).foldlM (fun (a : Grid) c => a.set? (s.y + c.1) (s.x + c.2) (s.k + 1))
    s.a).bind fun a => (checklines (a, s.lines)).map fun r =>
      { s with a := r.1, lines := r.2, phase := .spawn }

/-- What the clock does; some keys are as good as a tick. -/
def tick (s : Game) (c : Int) (late : Bool) : Option Game :=
  if late ∨ c = 258 ∨ c = 122 ∨ c = 90 then
    (crash2 s.a s.x (s.y + 1) s.k s.n).bind fun crash =>
      if crash then down s else some { s with y := s.y + 1, phase := .key }
  else some { s with phase := .key }

/-- The program goes on to the next place where something comes from outside. -/
def step (s : Game) (i : Input) : Option Game :=
  match s.phase with
  | .spawn => spawn s i.rand
  | .key =>
      if i.c = 32 then (dropLoop s 21 s.y).bind fun y => down { s with y := y }
      else (moveKey s i.c).map fun s => { s with phase := .tick i.c }
  | .tick c => tick s c i.late
  | .gameover => some (initData s.a i.rand)

/-! ## The pieces -/

/-- The cells of the piece are inside the border. -/
def Fits (k : Fin 7) (n : Fin 4) (y x : Int) : Prop :=
  0 ≤ y ∧ ∀ c ∈ cells k n, Inside (y + c.1) (x + c.2)

instance (k : Fin 7) (n : Fin 4) (y x : Int) : Decidable (Fits k n y x) :=
  inferInstanceAs (Decidable (_ ∧ _))

/-- Up to the first cell on the border, the cells are in the array. -/
def Guarded (y x : Int) : List (Int × Int) → Prop
  | [] => True
  | c :: cs => InArray (y + c.1) (x + c.2) ∧ (¬ Inside (y + c.1) (x + c.2) ∨ Guarded y x cs)

instance decidableGuarded (y x : Int) : (cs : List (Int × Int)) → Decidable (Guarded y x cs)
  | [] => instDecidableTrue
  | c :: cs =>
      have := decidableGuarded y x cs
      inferInstanceAs (Decidable (InArray (y + c.1) (x + c.2) ∧
        (¬ Inside (y + c.1) (x + c.2) ∨ Guarded y x cs)))

/-- Where the collision test looks from a place. -/
def GuardedAround (k : Fin 7) (n : Fin 4) (y x : Int) : Prop :=
  Guarded y (x - 1) (cells k n) ∧ Guarded y (x + 1) (cells k n) ∧ Guarded (y + 1) x (cells k n) ∧
    ∀ n', Guarded y x (cells k n')

instance (k : Fin 7) (n : Fin 4) (y x : Int) : Decidable (GuardedAround k n y x) :=
  inferInstanceAs (Decidable (_ ∧ _ ∧ _ ∧ ∀ n', Guarded y x (cells k n')))

/-- A piece that reaches no further down than the last row stands in the array as it would higher
up. -/
theorem Guarded.of_rows {y y' x : Int} {cs : List (Int × Int)}
    (hrow : ∀ c ∈ cs, (0 ≤ y + c.1 ∧ y + c.1 ≤ 19) ∧ 0 ≤ y' + c.1 ∧ y' + c.1 ≤ 19)
    (h : Guarded y' x cs) : Guarded y x cs := by
  induction cs with
  | nil => exact trivial
  | cons c cs ih =>
      obtain ⟨hy, hy'⟩ := hrow c List.mem_cons_self
      have hrest := ih fun c hc => hrow c (List.mem_cons_of_mem _ hc)
      obtain ⟨⟨-, hcol⟩, hguard⟩ := h
      exact ⟨⟨⟨hy.1, by omega⟩, hcol⟩, hguard.imp (fun hout hin => hout ⟨hy', hin.2⟩) hrest⟩

theorem cells_rows : ∀ (k : Fin 7) (n : Fin 4), ∀ c ∈ cells k n, 0 ≤ c.1 ∧ c.1 ≤ 3 := by
  decide

/-- From row 15 on the floor is near. -/
theorem guarded_table : ∀ (k : Fin 7) (n : Fin 4) (j : Fin 5) (i : Fin 13),
    Fits k n (j.val + 15) (i.val - 2) → GuardedAround k n (j.val + 15) (i.val - 2) := by
  decide +kernel

theorem cells_columns : ∀ (k : Fin 7) (n : Fin 4), ∃ c ∈ cells k n, 0 ≤ c.2 ∧ c.2 ≤ 3 := by
  decide

/-- **The collision test stays inside the array**, as long as it is made around a piece inside the
border. -/
theorem guarded_moves {k : Fin 7} {n : Fin 4} {y x : Int} (h : Fits k n y x) :
    GuardedAround k n y x := by
  obtain ⟨hy, hin⟩ := h
  obtain ⟨c, hc, hcol⟩ := cells_columns k n
  have hcx := (hin c hc).2
  have hcy := (hin c hc).1
  have hrow := (cells_rows k n c hc).1
  obtain ⟨i, hi⟩ : ∃ i : Fin 13, x = i.val - 2 :=
    ⟨⟨(x + 2).toNat, by omega⟩, by rw [Int.toNat_of_nonneg (by omega)]; omega⟩
  by_cases hfloor : 15 ≤ y
  · obtain ⟨j, hj⟩ : ∃ j : Fin 5, y = j.val + 15 :=
      ⟨⟨(y - 15).toNat, by omega⟩, by rw [Int.toNat_of_nonneg (by omega)]; omega⟩
    rw [hi, hj] at hin ⊢
    exact guarded_table k n j i ⟨by omega, hin⟩
  · -- Nothing is different in row 15.
    have hfits : Fits k n ((0 : Fin 5).val + 15) (i.val - 2) := by
      refine ⟨by decide, fun c hc => ⟨?_, hi ▸ (hin c hc).2⟩⟩
      have hr := cells_rows k n c hc
      change 0 ≤ (0 : Int) + 15 + c.1 ∧ (0 : Int) + 15 + c.1 ≤ 19
      omega
    have hraise {n' : Fin 4} {e x : Int} (he : 0 ≤ e ∧ e ≤ 1)
        (hg : Guarded ((0 : Fin 5).val + 15 + e) x (cells k n')) :
        Guarded (y + e) x (cells k n') := by
      refine hg.of_rows fun c hc => ?_
      have hr := cells_rows k n' c hc
      change (0 ≤ y + e + c.1 ∧ y + e + c.1 ≤ 19) ∧ 0 ≤ (0 : Int) + 15 + e + c.1 ∧
        (0 : Int) + 15 + e + c.1 ≤ 19
      omega
    have hstay {n' : Fin 4} {x : Int} (hg : Guarded ((0 : Fin 5).val + 15) x (cells k n')) :
        Guarded y x (cells k n') := by
      simpa using hraise (e := 0) (by decide) (by simpa using hg)
    obtain ⟨hleft, hright, hdown, hturn⟩ := guarded_table k n 0 i hfits
    rw [hi]
    exact ⟨hstay hleft, hstay hright, hraise (by decide) hdown, fun n' => hstay (hturn n')⟩

theorem guarded_spawn : ∀ k : Fin 7, Guarded 0 3 (cells k 0) := by
  decide

/-! ## The collision test -/

/-- Outside the field stands what stood there before the first game. -/
def Bordered (a : Grid) : Prop := ∀ y x, ¬ Inside y x → a y x = firstGrid y x

/-- A field with the same border. -/
def SameBorder (a a' : Grid) : Prop := ∀ y x, ¬ Inside y x → a' y x = a y x

theorem Bordered.of_same {a a' : Grid} (ha : Bordered a) (h : SameBorder a a') : Bordered a' :=
  fun y x hout => (h y x hout).trans (ha y x hout)

/-- The piece is on free cells inside the field. -/
def Lies (a : Grid) (k : Fin 7) (n : Fin 4) (y x : Int) : Prop :=
  ∀ c ∈ cells k n, Inside (y + c.1) (x + c.2) ∧ a (y + c.1) (x + c.2) = 0

instance (a : Grid) (k : Fin 7) (n : Fin 4) (y x : Int) : Decidable (Lies a k n y x) :=
  inferInstanceAs (Decidable (∀ c ∈ cells k n, _))

theorem Inside.inArray {y x : Int} (h : Inside y x) : InArray y x := by
  unfold Inside InArray at *
  omega

theorem Grid.get?_eq {a : Grid} {y x : Int} (h : InArray y x) : a.get? y x = some (a y x) :=
  if_pos h

theorem Grid.set?_eq {a : Grid} {y x : Int} (h : InArray y x) (v : Nat) :
    a.set? y x v = some (a.put y x v) :=
  if_pos h

theorem crashLoop_eq {a : Grid} (ha : Bordered a) {y x : Int} {cs : List (Int × Int)}
    (h : Guarded y x cs) : crashLoop a y x cs =
      some (decide (¬ ∀ c ∈ cs, Inside (y + c.1) (x + c.2) ∧ a (y + c.1) (x + c.2) = 0)) := by
  induction cs with
  | nil => simp [crashLoop]
  | cons c cs ih =>
      obtain ⟨harr, hguard⟩ := h
      rw [crashLoop, Grid.get?_eq harr, Option.bind_some]
      by_cases hin : Inside (y + c.1) (x + c.2)
      · have hrest := ih (hguard.resolve_left (not_not_intro hin))
        by_cases hzero : a (y + c.1) (x + c.2) = 0
        · simp [hin, hzero, hrest]
        · simp [hin, hzero]
      · have hborder : a (y + c.1) (x + c.2) = 8 := (ha _ _ hin).trans (if_pos ⟨harr, hin⟩)
        simp [hin, hborder]

/-- `crash2` tells whether the piece can be there. -/
theorem crash2_eq {a : Grid} (ha : Bordered a) {k : Fin 7} {n : Fin 4} {y x : Int}
    (h : Guarded y x (cells k n)) : crash2 a x y k n = some (decide (¬ Lies a k n y x)) :=
  crashLoop_eq ha h

theorem Lies.fits {a : Grid} {k : Fin 7} {n : Fin 4} {y x : Int} (h : Lies a k n y x)
    (hy : 0 ≤ y) : Fits k n y x :=
  ⟨hy, fun c hc => (h c hc).1⟩

theorem Lies.row_le {a : Grid} {k : Fin 7} {n : Fin 4} {y x : Int} (h : Lies a k n y x) :
    y ≤ 19 := by
  obtain ⟨c, hc, -⟩ := cells_columns k n
  have hin := (h c hc).1.1
  have hrow := cells_rows k n c hc
  omega

/-! ## Full rows -/

/-- The field row by row. -/
def rows (a : Grid) : List (List Nat) := (List.range 20).map fun y : Nat => columns.map (a y)

/-- A row without a hole. -/
def full (r : List Nat) : Bool := r.all (· ≠ 0)

def emptyRow : List Nat := List.replicate 10 0

/-- A row is written from a list of columns. -/
def Grid.withRow (a : Grid) (y : Int) (xs : List Int) (v : Int → Nat) : Grid :=
  fun y' x' => if y' = y ∧ x' ∈ xs then v x' else a y' x'

theorem Grid.withRow_nil (a : Grid) (y : Int) (v : Int → Nat) : a.withRow y [] v = a := by
  funext y' x'
  exact if_neg fun h => List.not_mem_nil h.2

theorem Grid.withRow_put (a : Grid) (y x : Int) (xs : List Int) (v : Int → Nat) :
    (a.withRow y xs v).put y x (v x) = a.withRow y (xs ++ [x]) v := by
  funext y' x'
  unfold Grid.put Grid.withRow
  grind

/-- The loops over the columns of a row. -/
theorem foldlM_withRow {a : Grid} {y : Int} {v : Int → Nat} {f : Grid → Int → Option Grid}
    {xs : List Int} (done : List Int)
    (hf : ∀ done x, x ∈ xs → f (a.withRow y done v) x = some ((a.withRow y done v).put y x (v x))) :
    xs.foldlM f (a.withRow y done v) = some (a.withRow y (done ++ xs) v) := by
  induction xs generalizing done with
  | nil => rw [List.append_nil, List.foldlM_nil, Option.pure_def]
  | cons x xs ih =>
      rw [List.foldlM_cons, hf done x List.mem_cons_self, Grid.withRow_put]
      have hrest := ih (done ++ [x]) fun done x hx => hf done x (List.mem_cons_of_mem _ hx)
      rwa [List.append_assoc] at hrest

theorem inArray_column {y x : Int} (hy : 0 ≤ y ∧ y ≤ 20) (hx : x ∈ columns) : InArray y x := by
  have hcol : ∀ x ∈ columns, 0 ≤ x ∧ x ≤ 11 := by decide
  exact ⟨hy, hcol x hx⟩

theorem mem_columns {x : Int} : x ∈ columns ↔ 1 ≤ x ∧ x ≤ 10 := by
  simp only [columns, List.mem_cons, List.not_mem_nil, or_false]
  omega

theorem copyRow_eq (a : Grid) {y : Int} (hy : 1 ≤ y ∧ y ≤ 20) :
    copyRow a y = some (a.withRow y columns (a (y - 1))) := by
  have hloop : copyRow (a.withRow y [] (a (y - 1))) y =
      some (a.withRow y ([] ++ columns) (a (y - 1))) := foldlM_withRow [] ?_
  · rwa [Grid.withRow_nil] at hloop
  · intro done x hx
    have hkept : a.withRow y done (a (y - 1)) (y - 1) x = a (y - 1) x :=
      if_neg fun h => by omega
    rw [Grid.get?_eq (inArray_column (by omega) hx), Option.bind_some, hkept,
      Grid.set?_eq (inArray_column (by omega) hx)]

theorem clearTop_eq (a : Grid) : clearTop a = some (a.withRow 0 columns fun _ => 0) := by
  have hloop : clearTop (a.withRow 0 [] fun _ => 0) =
      some (a.withRow 0 ([] ++ columns) fun _ => 0) := foldlM_withRow [] ?_
  · rwa [Grid.withRow_nil] at hloop
  · intro done x hx
    rw [Grid.set?_eq (inArray_column (by decide) hx)]

/-- The rows above go down by one. -/
def shifted (a : Grid) (y1 : Nat) : Grid :=
  fun y x => if (1 ≤ y ∧ y ≤ (y1 : Int)) ∧ x ∈ columns then a (y - 1) x else a y x

theorem shiftRows_eq {y1 : Nat} (hy : y1 ≤ 20) (a : Grid) :
    shiftRows y1 a = some (shifted a y1) := by
  induction y1 generalizing a with
  | zero =>
      refine congrArg some (funext fun y => funext fun x => (if_neg fun h => ?_).symm)
      omega
  | succ y2 ih =>
      rw [shiftRows, copyRow_eq a (by omega), Option.bind_some, ih (by omega)]
      refine congrArg some (funext fun y => funext fun x => ?_)
      unfold shifted Grid.withRow
      push_cast
      by_cases hx : x ∈ columns
      · simp only [hx, and_true]
        -- The row that has just been written is not read again.
        rcases lt_trichotomy y ((y2 : Int) + 1) with h | rfl | h
        · have hle : y ≤ (y2 : Int) ↔ y ≤ y2 + 1 := by omega
          simp [h.ne, show y - 1 ≠ (y2 : Int) + 1 by omega, hle]
        · simp [show ¬ (y2 : Int) + 1 < 1 by omega]
        · simp [h.ne', show ¬ y ≤ (y2 : Int) by omega, show ¬ y ≤ (y2 : Int) + 1 by omega]
      · simp [hx]

theorem rowFull_eq (a : Grid) {y : Int} (hy : 0 ≤ y ∧ y ≤ 20) {xs : List Int}
    (hxs : ∀ x ∈ xs, x ∈ columns) : rowFull a y xs = some (full (xs.map (a y))) := by
  induction xs with
  | nil => rfl
  | cons x xs ih =>
      rw [rowFull, Grid.get?_eq (inArray_column hy (hxs x List.mem_cons_self)), Option.bind_some,
        ih fun x hx => hxs x (List.mem_cons_of_mem _ hx)]
      by_cases hzero : a y x = 0
      · simp [full, hzero]
      · simp [full, hzero]

theorem rows_length (a : Grid) : (rows a).length = 20 := by
  rw [rows, List.length_map, List.length_range]

theorem rows_get {a : Grid} {i : Nat} (hi : i < 20) :
    (rows a)[i]? = some (columns.map (a i)) := by
  rw [rows, List.getElem?_map, List.getElem?_range hi, Option.map_some]

/-- The full row is gone. -/
def removed (a : Grid) (y1 : Nat) : Grid := (shifted a y1).withRow 0 columns fun _ => 0

theorem removed_same (a : Grid) {y1 : Nat} (hy : y1 < 20) : SameBorder a (removed a y1) := by
  intro y x hout
  unfold removed Grid.withRow shifted
  unfold Inside at hout
  rw [if_neg, if_neg]
  · rintro ⟨hrow, hx⟩
    have hcol := mem_columns.mp hx
    omega
  · rintro ⟨hrow, hx⟩
    have hcol := mem_columns.mp hx
    omega

theorem rows_removed (a : Grid) {y1 : Nat} (hy : y1 < 20) :
    rows (removed a y1) = emptyRow :: (rows a).eraseIdx y1 := by
  refine List.ext_getElem? fun i => ?_
  by_cases hi : i < 20
  · rw [rows_get hi]
    cases i with
    | zero => rfl
    | succ i =>
        rw [List.getElem?_cons_succ, List.getElem?_eraseIdx]
        have hrow (x : Int) (hx : x ∈ columns) : removed a y1 ((i + 1 : Nat) : Int) x =
            if i < y1 then a i x else a ((i + 1 : Nat) : Int) x := by
          have hup : ((i + 1 : Nat) : Int) - 1 = i := by omega
          unfold removed Grid.withRow shifted
          rw [if_neg (by omega), hup]
          exact if_congr (by simp only [hx, and_true]; omega) rfl rfl
        by_cases hlt : i < y1
        · rw [if_pos hlt, rows_get (by omega)]
          exact congrArg some (List.map_congr_left fun x hx => (hrow x hx).trans (if_pos hlt))
        · rw [if_neg hlt, rows_get hi]
          exact congrArg some (List.map_congr_left fun x hx => (hrow x hx).trans (if_neg hlt))
  · rw [List.getElem?_eq_none (by rw [rows_length]; omega), List.getElem?_eq_none]
    rw [List.length_cons, List.length_eraseIdx_of_lt (by rw [rows_length]; omega), rows_length]
    omega

theorem checkLine_eq (a : Grid) (l : Nat) {y1 : Nat} (hy : y1 < 20) :
    checkLine (a, l) y1 =
      some (if full (columns.map (a y1)) then (removed a y1, l + 1) else (a, l)) := by
  rw [checkLine, rowFull_eq a (by omega) fun x hx => hx, Option.bind_some]
  split
  · rw [shiftRows_eq (by omega), Option.bind_some, clearTop_eq, Option.map_some]
    rfl
  · rfl

/-- A turn of the loop is a step of the scan of the rows. -/
theorem checkLine_settleAt (a : Grid) (l : Nat) {y1 : Nat} (hy : y1 < 20) :
    ∃ a' l', checkLine (a, l) y1 = some (a', l') ∧ SameBorder a a' ∧
      (rows a', l') = Settle.settleAt full emptyRow (rows a, l) y1 := by
  rw [checkLine_eq a l hy, Settle.settleAt, rows_get hy, Option.any_some]
  split
  · exact ⟨removed a y1, l + 1, rfl, removed_same a hy, by rw [rows_removed a hy]⟩
  · exact ⟨a, l, rfl, fun _ _ _ => rfl, rfl⟩

theorem foldlM_checkLine (ys : List Nat) (hys : ∀ y ∈ ys, y < 20) (a : Grid) (l : Nat) :
    ∃ a' l', ys.foldlM checkLine (a, l) = some (a', l') ∧ SameBorder a a' ∧
      (rows a', l') = ys.foldl (Settle.settleAt full emptyRow) (rows a, l) := by
  induction ys generalizing a l with
  | nil => exact ⟨a, l, rfl, fun _ _ _ => rfl, rfl⟩
  | cons y ys ih =>
      obtain ⟨a₁, l₁, hline, hsame, hrows⟩ := checkLine_settleAt a l (hys y List.mem_cons_self)
      obtain ⟨a₂, l₂, hrest, hsame', hrows'⟩ :=
        ih (fun y hy => hys y (List.mem_cons_of_mem _ hy)) a₁ l₁
      refine ⟨a₂, l₂, ?_, fun y x hout => (hsame' y x hout).trans (hsame y x hout), ?_⟩
      · rw [List.foldlM_cons, hline]
        exact hrest
      · rw [hrows', hrows, List.foldl_cons]

/-- The rows without the full ones, with as many empty rows on top. -/
def cleared (rs : List (List Nat)) : List (List Nat) :=
  List.replicate (rs.countP full) emptyRow ++ rs.filter (!full ·)

/-- **No full row is missed**, though the rows move while they are looked at. -/
theorem checklines_eq (a : Grid) (l : Nat) :
    ∃ a', checklines (a, l) = some (a', l + (rows a).countP full) ∧ SameBorder a a' ∧
      rows a' = cleared (rows a) := by
  obtain ⟨a', l', hloop, hsame, hrows⟩ :=
    foldlM_checkLine (List.range 20) (fun y hy => List.mem_range.mp hy) a l
  have hsettle : Settle.settle full emptyRow (rows a) l = _ := Settle.settle_eq (rows a) l
  rw [Settle.settle, rows_length, ← hrows] at hsettle
  obtain ⟨hr, rfl⟩ := Prod.mk.inj hsettle
  exact ⟨a', hloop, hsame, hr⟩

/-! ## A piece is fixed -/

local instance lawfulBEq_offset : LawfulBEq (Int × Int) := inferInstance

/-- The field with the piece added. -/
def withPiece (a : Grid) (k : Fin 7) (n : Fin 4) (y x : Int) : Grid :=
  fun y' x' => if (y' - y, x' - x) ∈ cells k n then k.val + 1 else a y' x'

theorem foldlM_set? {a : Grid} {y x : Int} {v : Nat} {cs : List (Int × Int)}
    (h : ∀ c ∈ cs, Inside (y + c.1) (x + c.2)) :
    cs.foldlM (fun (a : Grid) c => a.set? (y + c.1) (x + c.2) v) a =
      some fun y' x' => if (y' - y, x' - x) ∈ cs then v else a y' x' := by
  induction cs generalizing a with
  | nil => simp
  | cons c cs ih =>
      rw [List.foldlM_cons, Grid.set?_eq (h c List.mem_cons_self).inArray]
      refine (ih fun c hc => h c (List.mem_cons_of_mem _ hc)).trans (congrArg some ?_)
      funext y' x'
      have hcell : (y' - y, x' - x) = c ↔ y' = y + c.1 ∧ x' = x + c.2 := by
        rw [Prod.ext_iff]
        omega
      unfold Grid.put
      simp only [List.mem_cons, hcell]
      grind

theorem withPiece_same {a : Grid} {k : Fin 7} {n : Fin 4} {y x : Int}
    (h : ∀ c ∈ cells k n, Inside (y + c.1) (x + c.2)) : SameBorder a (withPiece a k n y x) := by
  intro y' x' hout
  refine if_neg fun hc => hout ?_
  have hin := h _ hc
  rwa [show y + (y' - y) = y' by omega, show x + (x' - x) = x' by omega] at hin

/-- The piece is fixed in row `y`. -/
structure Landed (s s' : Game) (y : Int) : Prop where
  /-- It comes down over free cells. -/
  free : s.y ≤ y ∧ ∀ y₁, s.y ≤ y₁ → y₁ ≤ y → Lies s.a s.k s.n y₁ s.x
  stops : crash2 s.a s.x (y + 1) s.k s.n = some true
  field : rows s'.a = cleared (rows (withPiece s.a s.k s.n y s.x))
  score : s'.lines = s.lines + (rows (withPiece s.a s.k s.n y s.x)).countP full

theorem down_eq {s : Game} (h : Lies s.a s.k s.n s.y s.x) :
    ∃ a', down s = some { s with
        a := a', lines := s.lines + (rows (withPiece s.a s.k s.n s.y s.x)).countP full,
        phase := .spawn } ∧
      SameBorder s.a a' ∧ rows a' = cleared (rows (withPiece s.a s.k s.n s.y s.x)) := by
  have hin (c) (hc : c ∈ cells s.k s.n) := (h c hc).1
  obtain ⟨a', hlines, hsame, hrows⟩ :=
    checklines_eq (withPiece s.a s.k s.n s.y s.x) s.lines
  refine ⟨a', ?_, fun y x hout => (hsame y x hout).trans (withPiece_same hin y x hout), hrows⟩
  have hset := foldlM_set? (a := s.a) (v := s.k.val + 1) hin
  rw [down, hset, Option.bind_some]
  exact congrArg (Option.map _) hlines

theorem dropLoop_eq {s : Game} (hborder : Bordered s.a) (fuel : Nat) {y : Int} (hy : 0 ≤ y)
    (hfuel : 20 ≤ y + fuel) (h : Lies s.a s.k s.n y s.x) :
    ∃ y', dropLoop s fuel y = some y' ∧
      (y ≤ y' ∧ ∀ y₁, y ≤ y₁ → y₁ ≤ y' → Lies s.a s.k s.n y₁ s.x) ∧
      crash2 s.a s.x (y' + 1) s.k s.n = some true := by
  induction fuel generalizing y with
  | zero =>
      have hlast := h.row_le
      omega
  | succ fuel ih =>
      have hcrash := crash2_eq hborder (guarded_moves (h.fits hy)).2.2.1
      rw [dropLoop, hcrash, Option.bind_some]
      by_cases hnext : Lies s.a s.k s.n (y + 1) s.x
      · obtain ⟨y', hloop, ⟨hle, hfree⟩, hstop⟩ := ih (by omega) (by omega) hnext
        rw [decide_eq_false (not_not_intro hnext), if_neg Bool.false_ne_true]
        refine ⟨y', hloop, ⟨by omega, fun y₁ hy₁ hy₁' => ?_⟩, hstop⟩
        rcases eq_or_lt_of_le hy₁ with rfl | hlt
        · exact h
        · exact hfree y₁ hlt hy₁'
      · rw [decide_eq_true hnext, if_pos rfl]
        refine ⟨y, rfl, ⟨le_refl y, fun y₁ hy₁ hy₁' => ?_⟩, ?_⟩
        · rwa [le_antisymm hy₁' hy₁]
        · rw [hcrash, decide_eq_true hnext]

/-! ## Whole games -/

/-- A piece is on its way down. -/
def Phase.falling : Phase → Bool
  | .key => true
  | .tick _ => true
  | _ => false

/-- What holds at every place where something comes from outside. -/
structure Game.Right (s : Game) : Prop where
  border : Bordered s.a
  row : 0 ≤ s.y
  lies : s.phase.falling = true → Lies s.a s.k s.n s.y s.x

/-- What a step can do to the field. -/
inductive Outcome (s s' : Game) : Prop
  | same (phase : s.phase ≠ .gameover ∧ s'.phase ≠ .spawn) (field : s'.a = s.a)
      (lines : s'.lines = s.lines)
  | fixed (phase : s.phase.falling = true ∧ s'.phase = .spawn) (y : Int) (landed : Landed s s' y)
  | again (phase : s.phase = .gameover ∧ s'.phase = .spawn)
      (field : ∀ y x, Inside y x → s'.a y x = 0) (lines : s'.lines = 0)

/-- What `step` keeps and does. -/
def StepRight (s s' : Game) : Prop := s'.Right ∧ SameBorder s.a s'.a ∧ Outcome s s'

theorem spawn_right {s : Game} (hs : s.Right) (hphase : s.phase = .spawn) (r : Fin 7) :
    ∃ s', spawn s r = some s' ∧ StepRight s s' := by
  have hcrash := crash2_eq hs.border (guarded_spawn s.newk)
  rw [spawn, hcrash, Option.map_some]
  refine ⟨_, rfl, ?_, fun _ _ _ => rfl, ?_⟩
  · refine ⟨hs.border, Int.le_refl 0, fun hfall => ?_⟩
    by_contra hlies
    simp [Phase.falling, show ¬ Lies s.a s.newk 0 0 3 from hlies] at hfall
  · refine .same ⟨by simp [hphase], ?_⟩ rfl rfl
    by_cases hlies : Lies s.a s.newk 0 0 3
    · simp [hlies]
    · simp [hlies]

theorem down_right {s : Game} (hs : s.Right) (hphase : s.phase.falling = true) {y : Int}
    (hfree : s.y ≤ y ∧ ∀ y₁, s.y ≤ y₁ → y₁ ≤ y → Lies s.a s.k s.n y₁ s.x)
    (hstop : crash2 s.a s.x (y + 1) s.k s.n = some true) :
    ∃ s', down { s with y := y } = some s' ∧ StepRight s s' := by
  have hlies : Lies s.a s.k s.n y s.x := hfree.2 y hfree.1 (le_refl y)
  obtain ⟨a', hdown, hsame, hrows⟩ := down_eq (s := { s with y := y }) hlies
  refine ⟨_, hdown, ⟨hs.border.of_same hsame, hs.row.trans hfree.1, ?_⟩, hsame, ?_⟩
  · intro hfall
    exact absurd hfall Bool.false_ne_true
  · exact .fixed ⟨hphase, rfl⟩ y ⟨hfree, hstop, hrows, rfl⟩

theorem tryMove_right {s : Game} (hs : s.Right) (hphase : s.phase = .key) {x : Int} {n : Fin 4}
    (h : Guarded s.y x (cells s.k n)) (c : Int) :
    ∃ s', tryMove s x s.y n = some s' ∧ StepRight s { s' with phase := .tick c } := by
  rw [tryMove, crash2_eq hs.border h, Option.map_some]
  refine ⟨_, rfl, ?_⟩
  by_cases hlies : Lies s.a s.k n s.y x
  · simp only [hlies, not_true_eq_false, decide_false, if_neg Bool.false_ne_true]
    refine ⟨⟨hs.border, hs.row, fun _ => hlies⟩, fun _ _ _ => rfl, ?_⟩
    exact .same ⟨by simp [hphase], by simp⟩ rfl rfl
  · simp only [hlies, not_false_eq_true, decide_true, if_true]
    refine ⟨⟨hs.border, hs.row, fun _ => hs.lies (by simp [hphase, Phase.falling])⟩,
      fun _ _ _ => rfl, ?_⟩
    exact .same ⟨by simp [hphase], by simp⟩ rfl rfl

theorem moveKey_right {s : Game} (hs : s.Right) (hphase : s.phase = .key) (c : Int) :
    ∃ s', moveKey s c = some s' ∧ StepRight s { s' with phase := .tick c } := by
  have hlies := hs.lies (by simp [hphase, Phase.falling])
  obtain ⟨hleft, hright, -, hturn⟩ := guarded_moves (hlies.fits hs.row)
  unfold moveKey
  split_ifs
  · exact tryMove_right hs hphase hleft c
  · exact tryMove_right hs hphase hright c
  · exact tryMove_right hs hphase (hturn _) c
  · exact tryMove_right hs hphase (hturn _) c
  · exact tryMove_right hs hphase (hturn _) c
  · refine ⟨s, rfl, ⟨hs.border, hs.row, fun _ => hlies⟩, fun _ _ _ => rfl, ?_⟩
    exact .same ⟨by simp [hphase], by simp⟩ rfl rfl

theorem tick_right {s : Game} (hs : s.Right) (hphase : s.phase.falling = true) (c : Int)
    (late : Bool) : ∃ s', tick s c late = some s' ∧ StepRight s s' := by
  have hlies := hs.lies hphase
  have hover : s.phase ≠ .gameover := fun h => by simp [h, Phase.falling] at hphase
  have hcrash := crash2_eq hs.border (guarded_moves (hlies.fits hs.row)).2.2.1
  unfold tick
  split
  · rw [hcrash, Option.bind_some]
    by_cases hnext : Lies s.a s.k s.n (s.y + 1) s.x
    · rw [decide_eq_false (not_not_intro hnext), if_neg Bool.false_ne_true]
      have hrow := hs.row
      refine ⟨_, rfl, ⟨hs.border, ?_, fun _ => hnext⟩, fun _ _ _ => rfl, ?_⟩
      · change 0 ≤ s.y + 1
        omega
      · exact .same ⟨hover, by simp⟩ rfl rfl
    · rw [decide_eq_true hnext] at hcrash ⊢
      rw [if_pos rfl]
      refine down_right hs hphase ⟨le_refl _, fun y₁ hy₁ hy₁' => ?_⟩ hcrash
      rwa [le_antisymm hy₁' hy₁]
  · refine ⟨_, rfl, ⟨hs.border, hs.row, fun _ => hlies⟩, fun _ _ _ => rfl, ?_⟩
    exact .same ⟨hover, by simp⟩ rfl rfl

theorem initData_right {a : Grid} (ha : Bordered a) (r : Fin 7) :
    (initData a r).Right ∧ SameBorder a (initData a r).a := by
  have hsame : SameBorder a (initData a r).a := fun y x hout => if_neg hout
  refine ⟨⟨ha.of_same hsame, Int.le_refl 0, fun hfall => ?_⟩, hsame⟩
  exact absurd hfall Bool.false_ne_true

/-- A step never leaves the array, and it is one that the rules of the game allow. -/
theorem step_right {s : Game} (hs : s.Right) (i : Input) :
    ∃ s', step s i = some s' ∧ StepRight s s' := by
  unfold step
  cases hphase : s.phase with
  | spawn => exact spawn_right hs hphase i.rand
  | key =>
      have hfall : s.phase.falling = true := by simp [hphase, Phase.falling]
      dsimp only
      split
      · obtain ⟨y, hloop, hfree, hstop⟩ :=
          dropLoop_eq hs.border 21 hs.row (by have := hs.row; omega) (hs.lies hfall)
        rw [hloop, Option.bind_some]
        exact down_right hs hfall hfree hstop
      · obtain ⟨s', hmove, hright⟩ := moveKey_right hs hphase i.c
        rw [hmove, Option.map_some]
        exact ⟨_, rfl, hright⟩
  | tick c => exact tick_right hs (by simp [hphase, Phase.falling]) c i.late
  | gameover =>
      obtain ⟨hright, hsame⟩ := initData_right hs.border i.rand
      refine ⟨_, rfl, hright, hsame, .again ⟨hphase, rfl⟩ (fun y x hin => if_pos hin) rfl⟩

/-- **A game never leaves the array**, the border stays, the piece lies on free cells until the game
is over, and the field changes only when a piece cannot go further down. -/
theorem tetris_right (r : Fin 7) (is : List Input) :
    ∃ s, exec step (initData firstGrid r) is = some s ∧ s.Right ∧
      ∀ i, ∃ s', step s i = some s' ∧ StepRight s s' := by
  have hgame (s : Game) (hs : s.Right) : ∃ s', exec step s is = some s' ∧ s'.Right := by
    induction is generalizing s with
    | nil => exact ⟨s, rfl, hs⟩
    | cons i is ih =>
        obtain ⟨s₁, hstep, hright, -⟩ := step_right hs i
        obtain ⟨s', hexec, hs'⟩ := ih s₁ hright
        exact ⟨s', by rw [exec, hstep]; exact hexec, hs'⟩
  obtain ⟨s, hexec, hs⟩ := hgame _ (initData_right (fun _ _ _ => rfl) r).1
  exact ⟨s, hexec, hs, step_right hs⟩

end Ytht.Tetris
