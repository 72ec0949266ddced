import Mathlib.Data.Finset.Card
import Mathlib.Data.Finset.Prod
import Mathlib.Data.Int.Interval
import Mathlib.Data.Set.Card
import Mathlib.Order.Bounds.Defs
import Ytht.Lib.Flood
import Ytht.Lib.Runs

/-!
# Games.Winmine

Mines in a field of 30 columns and 16 rows.  The arrays `a`, `m` and `o` hold 0 and 1, so each is
the set of the cells that are 1.

A game is won when 99 cells are closed.  That counts the mines only while none of them is open: a
key that opens as many mines as it leaves other cells closed wins the game (`winmine_right`).
-/

namespace Ytht.Winmine

open Runs Flood

/-! ## The field -/

/-- `x` and `y`. -/
abbrev Pos := Int × Int

/-- The cells that are looked at by the loops over the field. -/
@[irreducible] def field : Finset Pos :=
  (Finset.range 30 ×ˢ Finset.range 16).image fun q => ((q.1 : Int) + 1, (q.2 : Int) + 1)

/-- `dx` and `dy` around a cell. -/
def around (p : Pos) : List Pos :=
  [-1, 0, 1].flatMap fun dx => [-1, 0, 1].map fun dy => (p.1 + dx, p.2 + dy)

/-- The loops of `num_mine_beside` and `num_mark_beside`. -/
def numBeside (s : Finset Pos) (p : Pos) : Nat := (around p).countP fun q => q ≠ p ∧ q ∈ s

/-- `num_mine_beside` -/
def numMineBeside (a : Finset Pos) (p : Pos) : Nat := numBeside a p

/-- `num_mark_beside` -/
def numMarkBeside (m : Finset Pos) (p : Pos) : Nat := numBeside m p

/-! ## wininit -/

/-- `x` and `y` of a mine. -/
def drawn (r : Nat × Nat) : Pos := (((r.1 % 30 + 1 : Nat) : Int), ((r.2 % 16 + 1 : Nat) : Int))

/-- The `do` loop: a mine goes to the first cell that is free and not beside the first dig. -/
def place (p₁ : Pos) (a : Finset Pos) : List (Nat × Nat) → Option (Finset Pos × List (Nat × Nat))
  | [] => none
  | r :: rs =>
      let p := drawn r
      if p ∈ a ∨ |p.1 - p₁.1| < 2 ∧ |p.2 - p₁.2| < 2 then place p₁ a rs
      else some (insert p a, rs)

/-- `n` more mines. -/
def placeAll (p₁ : Pos) : Nat → Finset Pos → List (Nat × Nat) → Option (Finset Pos)
  | 0, a, _ => some a
  | n + 1, a, rs => (place p₁ a rs).bind fun r => placeAll p₁ n r.1 r.2

/-- `wininit`, with what `rand` gives. -/
def wininit (p₁ : Pos) (a : Finset Pos) (rs : List (Nat × Nat)) : Option (Finset Pos) :=
  placeAll p₁ 99 a rs

/-! ## Digging -/

/-- What digging changes: `o` and `gameover`. -/
structure Dug where
  o : Finset Pos
  gameover : Bool

/-- `windig` -/
def windig (a m : Finset Pos) : Nat → Dug → Pos → Option Dug
  | 0, _, _ => none
  | fuel + 1, s, p =>
      if ¬ p ∈ field then some s
      else if p ∈ s.o ∨ p ∈ m then some s
      else if p ∈ a then some ⟨insert p s.o, true⟩
      else if numMineBeside a p = 0 then
        (around p).foldlM (windig a m fuel) ⟨insert p s.o, s.gameover⟩
      else some ⟨insert p s.o, s.gameover⟩

/-- Deeper than the field has cells the recursion cannot go. -/
def depth : Nat := 481

/-- `dblclick`; the cursor is never outside the field. -/
def dblclick (a m : Finset Pos) (s : Dug) (p : Pos) : Option Dug :=
  if ¬ p ∈ field then some s
  else if ¬ p ∈ s.o then some s
  else if numMineBeside a p ≠ numMarkBeside m p then some s
  else (around p).foldlM (windig a m depth) s

/-- `dig` -/
def dig (a m : Finset Pos) (s : Dug) (p : Pos) : Option Dug :=
  if ¬ p ∈ s.o then windig a m depth s p else dblclick a m s p

/-! ## winloop -/

inductive Phase where
  | playing
  | won
  | lost
  | quit
  deriving DecidableEq

structure Game where
  a : Finset Pos
  m : Finset Pos
  o : Finset Pos
  gameover : Bool
  /-- `x` and `y` -/
  pos : Pos
  inited : Bool
  phase : Phase

/-- A key, and what `rand` gives if mines are placed. -/
structure Input where
  c : Int
  rand : List (Nat × Nat)

/-- The field is cleared, and the cursor is in the middle. -/
def start : Game where
  a := ∅
  m := ∅
  o := ∅
  gameover := false
  pos := (10, 8)
  inited := false
  phase := .playing

/-- The arrows. -/
def moveCursor (p : Pos) (c : Int) : Pos :=
  if c = 257 ∧ p.2 > 1 then (p.1, p.2 - 1)
  else if c = 258 ∧ p.2 < 16 then (p.1, p.2 + 1)
  else if c = 260 ∧ p.1 > 1 then (p.1 - 1, p.2)
  else if c = 259 ∧ p.1 < 30 then (p.1 + 1, p.2)
  else p

def isDig (c : Int) : Prop := c = 97 ∨ c = 65

instance (c : Int) : Decidable (isDig c) := inferInstanceAs (Decidable (_ ∨ _))

def isMark (c : Int) : Prop := c = 83 ∨ c = 115

instance (c : Int) : Decidable (isMark c) := inferInstanceAs (Decidable (_ ∨ _))

/-- The mines are placed before the first dig. -/
def digKey (s : Game) (i : Input) : Option Game :=
  if isDig i.c then
    (if s.inited then some s.a else wininit s.pos s.a i.rand).bind fun a =>
      (dig a s.m ⟨s.o, s.gameover⟩ s.pos).map fun r =>
        { s with a := a, o := r.o, gameover := r.gameover, inited := true }
  else some s

def markKey (s : Game) (c : Int) : Game :=
  if isMark c ∧ ¬ s.pos ∈ s.o then
    { s with m := if s.pos ∈ s.m then s.m.erase s.pos else insert s.pos s.m }
  else s

/-- `checkwin` -/
def checkwin (o : Finset Pos) : Bool := (field.filter fun p => ¬ p ∈ o).card = 99

/-- The end of a turn. -/
def finish (s : Game) : Game :=
  if checkwin s.o then { s with gameover := false, phase := .won }
  else if s.gameover then { s with gameover := false, phase := .lost }
  else s

/-- One key of a game that is not over. -/
def step (s : Game) (i : Input) : Option Game :=
  if s.phase ≠ .playing then none
  else if i.c = 3 ∨ i.c = 4 ∨ i.c = -1 then some { s with phase := .quit }
  else (digKey { s with pos := moveCursor s.pos i.c } i).map fun s => finish (markKey s i.c)

/-! ## The mines -/

/-- In the 3 by 3 cells around a cell. -/
def Near (p p₁ : Pos) : Prop := |p.1 - p₁.1| < 2 ∧ |p.2 - p₁.2| < 2

theorem mem_field {p : Pos} : p ∈ field ↔ (1 ≤ p.1 ∧ p.1 ≤ 30) ∧ 1 ≤ p.2 ∧ p.2 ≤ 16 := by
  rw [field, Finset.mem_image]
  constructor
  · rintro ⟨q, hq, rfl⟩
    rw [Finset.mem_product, Finset.mem_range, Finset.mem_range] at hq
    dsimp only
    omega
  · intro h
    refine ⟨((p.1 - 1).toNat, (p.2 - 1).toNat), ?_, Prod.ext ?_ ?_⟩
    · rw [Finset.mem_product, Finset.mem_range, Finset.mem_range]
      dsimp only
      omega
    · dsimp only
      omega
    · dsimp only
      omega

theorem field_card : field.card = 480 := by
  rw [field, Finset.card_image_of_injOn, Finset.card_product, Finset.card_range, Finset.card_range]
  rintro ⟨x, y⟩ - ⟨x', y'⟩ - h
  obtain ⟨hx, hy⟩ := Prod.mk.inj h
  exact Prod.ext (by dsimp only at hx ⊢; omega) (by dsimp only at hy ⊢; omega)

/-- What `wininit` keeps true while it places the mines. -/
structure Placing (p₁ : Pos) (a : Finset Pos) : Prop where
  inside : a ⊆ field
  apart : ∀ p ∈ a, ¬ Near p p₁

theorem place_eq {p₁ : Pos} {a : Finset Pos} (h : Placing p₁ a) {rs : List (Nat × Nat)}
    {r : Finset Pos × List (Nat × Nat)} (hr : place p₁ a rs = some r) :
    Placing p₁ r.1 ∧ r.1.card = a.card + 1 := by
  induction rs with
  | nil => contradiction
  | cons draw rs ih =>
      rw [place] at hr
      split at hr
      · exact ih hr
      · next hfree =>
          cases hr
          obtain ⟨hnew, hfar⟩ := not_or.mp hfree
          refine ⟨⟨Finset.insert_subset ?_ h.inside, ?_⟩, Finset.card_insert_of_notMem hnew⟩
          · have hx := Nat.mod_lt draw.1 (show 30 > 0 by decide)
            have hy := Nat.mod_lt draw.2 (show 16 > 0 by decide)
            rw [mem_field, drawn]
            omega
          · intro p hp
            rcases Finset.mem_insert.mp hp with rfl | hp
            · exact hfar
            · exact h.apart p hp

theorem placeAll_eq {p₁ : Pos} (n : Nat) {a a' : Finset Pos} (h : Placing p₁ a)
    {rs : List (Nat × Nat)} (hr : placeAll p₁ n a rs = some a') :
    Placing p₁ a' ∧ a'.card = a.card + n := by
  induction n generalizing a rs with
  | zero =>
      cases hr
      exact ⟨h, rfl⟩
  | succ n ih =>
      obtain ⟨r, hplace, hrest⟩ := Option.bind_eq_some_iff.mp hr
      obtain ⟨hplaced, hcard⟩ := place_eq h hplace
      obtain ⟨hall, hcards⟩ := ih hplaced hrest
      exact ⟨hall, by omega⟩

/-- Draws that are all different and all apart are all used. -/
theorem placeAll_drawn {p₁ : Pos} {rs : List (Nat × Nat)} {a : Finset Pos}
    (hnew : (rs.map drawn).Nodup) (hfree : ∀ r ∈ rs, drawn r ∉ a ∧ ¬ Near (drawn r) p₁) :
    placeAll p₁ rs.length a rs = some (a ∪ (rs.map drawn).toFinset) := by
  induction rs generalizing a with
  | nil => simp [placeAll]
  | cons r rs ih =>
      rw [List.map_cons, List.nodup_cons] at hnew
      obtain ⟨hout, hfar⟩ := hfree r List.mem_cons_self
      have hplace : place p₁ a (r :: rs) = some (insert (drawn r) a, rs) :=
        if_neg (not_or.mpr ⟨hout, hfar⟩)
      rw [List.length_cons, placeAll, hplace, Option.bind_some, ih hnew.2]
      · rw [List.map_cons, List.toFinset_cons, Finset.insert_union, Finset.union_insert]
      · intro r' hr'
        obtain ⟨hout', hfar'⟩ := hfree r' (List.mem_cons_of_mem _ hr')
        refine ⟨fun hin => ?_, hfar'⟩
        rcases Finset.mem_insert.mp hin with heq | hin
        · exact hnew.1 (heq ▸ List.mem_map_of_mem hr')
        · exact hout' hin

/-- There are 99 mines, and none is beside the first dig. -/
theorem wininit_eq {p₁ : Pos} {a : Finset Pos} {rs : List (Nat × Nat)}
    (h : wininit p₁ ∅ rs = some a) : Placing p₁ a ∧ a.card = 99 := by
  have hempty : Placing p₁ ∅ := ⟨Finset.empty_subset _, fun p hp => absurd hp (by simp)⟩
  simpa using placeAll_eq 99 hempty h

theorem Near.refl (p : Pos) : Near p p := by
  simp [Near]

/-! ## What digging opens -/

/-- The cells that can be opened. -/
def Diggable (m : Finset Pos) (p : Pos) : Prop := p ∈ field ∧ p ∉ m

instance (m : Finset Pos) : DecidablePred (Diggable m) :=
  fun p => inferInstanceAs (Decidable (p ∈ field ∧ p ∉ m))

/-- Where digging goes on from an open cell. -/
def spreads (a : Finset Pos) (p : Pos) : List Pos :=
  if p ∉ a ∧ numMineBeside a p = 0 then around p else []

/-- A mine has been opened when the flag is set. -/
def Dug.of (a o : Finset Pos) : Dug := ⟨o, decide (¬ Disjoint a o)⟩

theorem foldlM_of {a : Finset Pos} {f : Dug → Pos → Option Dug}
    {g : Finset Pos → Pos → Option (Finset Pos)}
    (h : ∀ o p, f (.of a o) p = (g o p).map (Dug.of a)) (ps : List Pos) (o : Finset Pos) :
    ps.foldlM f (.of a o) = (ps.foldlM g o).map (Dug.of a) := by
  induction ps generalizing o with
  | nil => rfl
  | cons p ps ih =>
      rw [List.foldlM_cons, List.foldlM_cons, h]
      cases g o p with
      | none => rfl
      | some o' => exact ih o'

theorem windig_eq (a m : Finset Pos) (fuel : Nat) (o : Finset Pos) (p : Pos) :
    windig a m fuel (.of a o) p =
      (flood (Diggable m) (spreads a) fuel o p).map (Dug.of a) := by
  induction fuel generalizing o p with
  | zero => rfl
  | succ fuel ih =>
      rw [windig, flood]
      by_cases hfield : p ∈ field
      · rw [if_neg (not_not_intro hfield)]
        by_cases hopen : p ∈ (Dug.of a o).o ∨ p ∈ m
        · rw [if_pos hopen, if_neg fun h => hopen.elim h.2 h.1.2]
          rfl
        · obtain ⟨hclosed, hplain⟩ := not_or.mp hopen
          have hdig : Diggable m p ∧ p ∉ o := ⟨⟨hfield, hplain⟩, hclosed⟩
          rw [if_neg hopen, if_pos hdig]
          by_cases hmine : p ∈ a
          · have hhit : ¬ Disjoint a (insert p o) := fun hdis =>
              Finset.disjoint_left.mp hdis hmine (Finset.mem_insert_self p o)
            rw [if_pos hmine, spreads, if_neg fun h => h.1 hmine, List.foldlM_nil]
            change some (Dug.mk _ true) = some (Dug.mk _ _)
            rw [decide_eq_true hhit]
            rfl
          · have hgoes : Dug.mk (insert p (Dug.of a o).o) (Dug.of a o).gameover =
                .of a (insert p o) := by
              simp [Dug.of, Finset.disjoint_insert_right, hmine]
            rw [if_neg hmine, hgoes, spreads]
            by_cases hzero : numMineBeside a p = 0
            · rw [if_pos hzero, if_pos ⟨hmine, hzero⟩, foldlM_of ih]
            · rw [if_neg hzero, if_neg fun h => hzero h.2]
              rfl
      · rw [if_pos hfield, if_neg fun h => hfield h.1.1]
        rfl

/-- The cells a dig starts with. -/
def digs (a m o : Finset Pos) (p : Pos) : List Pos :=
  if p ∉ o then [p] else if numMineBeside a p = numMarkBeside m p then around p else []

/-- The cells that digging `ps` opens. -/
abbrev Opens (a m o : Finset Pos) (ps : List Pos) (q : Pos) : Prop :=
  Spread (Diggable m) (spreads a) o ps q

theorem foldlM_windig (a m o : Finset Pos) (ps : List Pos) :
    ∃ o', ps.foldlM (windig a m depth) (.of a o) = some (.of a o') ∧
      ∀ q, q ∈ o' ↔ q ∈ o ∨ Opens a m o ps q := by
  have hfuel : (field \ o).card < depth := by
    refine Nat.lt_of_le_of_lt (Finset.card_le_card Finset.sdiff_subset) ?_
    rw [field_card, depth]
    decide
  have hcells (q : Pos) (hq : Diggable m q) : q ∈ field := hq.1
  obtain ⟨o', hflood, hall⟩ := @foldlM_flood _ _ (spreads a) _ _ _ hcells depth ps o hfuel
  refine ⟨o', ?_, hall⟩
  rw [foldlM_of (windig_eq a m depth), hflood, Option.map_some]

/-- **Digging ends**, and opens what is to be opened. -/
theorem dig_eq {a m o : Finset Pos} {p : Pos} (hp : p ∈ field) :
    ∃ o', dig a m (.of a o) p = some (.of a o') ∧
      ∀ q, q ∈ o' ↔ q ∈ o ∨ Opens a m o (digs a m o p) q := by
  obtain ⟨o', hfold, hall⟩ := foldlM_windig a m o (digs a m o p)
  refine ⟨o', ?_, hall⟩
  rw [← hfold, dig, digs]
  by_cases hopen : p ∈ (Dug.of a o).o
  · have hdug : p ∈ o := hopen
    rw [if_neg (not_not_intro hopen), if_neg (not_not_intro hdug), dblclick,
      if_neg (not_not_intro hp), if_neg (not_not_intro hopen)]
    by_cases hmarks : numMineBeside a p = numMarkBeside m p
    · rw [if_neg (not_not_intro hmarks), if_pos hmarks]
    · rw [if_pos hmarks, if_neg hmarks]
      rfl
  · have hclosed : p ∉ o := hopen
    rw [if_pos hopen, if_pos hclosed, List.foldlM_cons]
    cases windig a m depth (.of a o) p with
    | none => rfl
    | some r => rfl

/-! ## The end of a game -/

/-- A game is won when all cells but the mines are open, and lost when a mine is. -/
structure EndsRight (s : Game) : Prop where
  won : s.phase = .won ↔ field \ s.a ⊆ s.o ∧ Disjoint s.a s.o
  lost : s.phase = .lost ↔ ¬ Disjoint s.a s.o

/-- What every key keeps. -/
structure Game.Right (s : Game) : Prop where
  pos : s.pos ∈ field
  opened : s.o ⊆ field
  marked : Disjoint s.m s.o
  mines : s.a ⊆ field
  placed : s.inited = true ∧ s.a.card = 99 ∨ s.inited = false ∧ s.a = ∅ ∧ s.o = ∅
  going : s.phase = .playing ∨ s.phase = .quit →
    s.gameover = false ∧ Disjoint s.a s.o ∧ (field \ s.o).card ≠ 99

theorem checkwin_iff {o : Finset Pos} : checkwin o = true ↔ (field \ o).card = 99 := by
  rw [checkwin, decide_eq_true_iff, Finset.sdiff_eq_filter]

/-- The mines that are open are missing among the cells that are closed. -/
theorem closed_card {a o : Finset Pos} (ha : a ⊆ field) :
    (field \ o).card + (a ∩ o).card = ((field \ a) \ o).card + a.card := by
  have hsplit : field \ o = (field \ a) \ o ∪ a \ o := by
    rw [← Finset.union_sdiff_distrib, Finset.sdiff_union_of_subset ha]
  have hdisjoint : Disjoint ((field \ a) \ o) (a \ o) :=
    Finset.disjoint_of_subset_left Finset.sdiff_subset
      (Finset.disjoint_of_subset_right Finset.sdiff_subset Finset.sdiff_disjoint)
  rw [hsplit, Finset.card_union_of_disjoint hdisjoint, Nat.add_assoc,
    Finset.card_sdiff_add_card_inter]

/-- While a game goes on there is no reason to end it. -/
theorem Game.Right.endsRight {s : Game} (h : s.Right)
    (hphase : s.phase = .playing ∨ s.phase = .quit) : EndsRight s := by
  obtain ⟨-, hunhit, hcard⟩ := h.going hphase
  have hwon : s.phase ≠ .won := by rcases hphase with hp | hp <;> simp [hp]
  have hlost : s.phase ≠ .lost := by rcases hphase with hp | hp <;> simp [hp]
  refine ⟨iff_of_false hwon fun hall => ?_, iff_of_false hlost (not_not_intro hunhit)⟩
  have hsafe : ((field \ s.a) \ s.o).card = 0 := by
    rw [Finset.card_eq_zero, Finset.sdiff_eq_empty_iff_subset]
    exact hall.1
  have hcount := closed_card (o := s.o) h.mines
  rw [Finset.disjoint_iff_inter_eq_empty.mp hunhit, Finset.card_empty, hsafe] at hcount
  rcases h.placed with ⟨-, hmines⟩ | ⟨-, ha, ho⟩
  · omega
  · rw [ha, ho, Finset.sdiff_empty, field_card, Finset.card_empty] at hcount
    omega

/-- More than no mine is open, and as many other cells are closed. -/
def Confused (a o : Finset Pos) : Prop :=
  ¬ Disjoint a o ∧ ((field \ a) \ o).card = (a ∩ o).card

/-- The counting of the closed cells and the flag tell the end, but for one case. -/
theorem finish_endsRight {s : Game} (hmines : s.a ⊆ field) (hcard : s.a.card = 99)
    (hflag : s.gameover = decide (¬ Disjoint s.a s.o)) (hphase : s.phase = .playing) :
    EndsRight (finish s) ↔ ¬ Confused s.a s.o := by
  have hcount := closed_card (o := s.o) hmines
  have hwin : checkwin s.o = true ↔ ((field \ s.a) \ s.o).card = (s.a ∩ s.o).card := by
    rw [checkwin_iff]
    omega
  have hsafe : field \ s.a ⊆ s.o ↔ ((field \ s.a) \ s.o).card = 0 := by
    rw [Finset.card_eq_zero, Finset.sdiff_eq_empty_iff_subset]
  have hhit : Disjoint s.a s.o ↔ (s.a ∩ s.o).card = 0 := by
    rw [Finset.card_eq_zero, Finset.disjoint_iff_inter_eq_empty]
  unfold finish
  split
  · next hw =>
      have hequal := hwin.mp hw
      constructor
      · rintro ⟨hwon, -⟩ ⟨hmine, -⟩
        exact hmine (hwon.mp rfl).2
      · intro hclear
        have hunhit : Disjoint s.a s.o := by
          by_contra hmine
          exact hclear ⟨hmine, hequal⟩
        refine ⟨iff_of_true rfl ⟨hsafe.mpr ?_, hunhit⟩, iff_of_false ?_ (not_not_intro hunhit)⟩
        · rw [hequal, ← hhit]
          exact hunhit
        · exact fun hlost => by contradiction
  · next hw =>
      have hunequal := mt hwin.mpr hw
      refine iff_of_true ?_ fun hconfused => hunequal hconfused.2
      split
      · next hover =>
          rw [hflag, decide_eq_true_iff] at hover
          exact ⟨iff_of_false (fun hwon => by contradiction) fun hall => hover hall.2,
            iff_of_true rfl hover⟩
      · next hover =>
          rw [hflag, decide_eq_true_iff, not_not] at hover
          refine ⟨iff_of_false (by simp [hphase]) fun hall => hunequal ?_,
            iff_of_false (by simp [hphase]) (not_not_intro hover)⟩
          rw [hsafe.mp hall.1, hhit.mp hover]

/-! ## One key -/

/-- The mines that a dig hits. -/
def hits (a m o : Finset Pos) (p : Pos) : Finset Pos :=
  a.filter fun q => q ∈ digs a m o p ∧ q ∉ m ∧ q ∉ o

/-- A key that digs mines, and leaves as many other cells closed. -/
def Slips (s : Game) (i : Input) : Prop :=
  isDig i.c ∧ s.inited = true ∧ (hits s.a s.m s.o s.pos).Nonempty ∧
    {q | q ∈ field \ s.a ∧ q ∉ s.o ∧ ¬ Opens s.a s.m s.o (digs s.a s.m s.o s.pos) q}.ncard =
      (hits s.a s.m s.o s.pos).card

theorem numMineBeside_pos {a : Finset Pos} {p q : Pos} (hq : q ∈ around p) (hne : q ≠ p)
    (hmine : q ∈ a) : numMineBeside a p ≠ 0 := by
  unfold numMineBeside numBeside
  rw [Nat.ne_zero_iff_zero_lt, List.countP_pos_iff]
  exact ⟨q, hq, by simp [hne, hmine]⟩

/-- Mines are opened only where the dig starts. -/
theorem opens_mine {a m o : Finset Pos} {ps : List Pos} {q : Pos} (hmine : q ∈ a) :
    Opens a m o ps q ↔ q ∈ ps ∧ q ∈ field ∧ q ∉ m ∧ q ∉ o := by
  constructor
  · intro h
    cases h with
    | source hmem hok hnew => exact ⟨hmem, hok.1, hok.2, hnew⟩
    | @next p _ hp hmem hok hnew =>
        unfold spreads at hmem
        split at hmem
        · next hzero =>
            have hne : q ≠ p := fun heq => hzero.1 (heq ▸ hmine)
            exact absurd hzero.2 (numMineBeside_pos hmem hne hmine)
        · exact absurd hmem List.not_mem_nil
  · rintro ⟨hmem, hfield, hplain, hnew⟩
    exact .source hmem ⟨hfield, hplain⟩ hnew

/-- What is counted after a dig can be told before it. -/
theorem confused_iff {s : Game} (hs : s.Right) (hunhit : Disjoint s.a s.o) {o' : Finset Pos}
    (ho' : ∀ q, q ∈ o' ↔ q ∈ s.o ∨ Opens s.a s.m s.o (digs s.a s.m s.o s.pos) q) :
    Confused s.a o' ↔ (hits s.a s.m s.o s.pos).Nonempty ∧
      {q | q ∈ field \ s.a ∧ q ∉ s.o ∧ ¬ Opens s.a s.m s.o (digs s.a s.m s.o s.pos) q}.ncard =
        (hits s.a s.m s.o s.pos).card := by
  have hopened : s.a ∩ o' = hits s.a s.m s.o s.pos := by
    ext q
    rw [Finset.mem_inter, hits, Finset.mem_filter, ho']
    refine and_congr_right fun hmine => ?_
    rw [opens_mine hmine, or_iff_right (Finset.disjoint_left.mp hunhit hmine),
      and_iff_right (hs.mines hmine)]
  have hclosed : {q | q ∈ field \ s.a ∧ q ∉ s.o ∧
      ¬ Opens s.a s.m s.o (digs s.a s.m s.o s.pos) q} = ↑((field \ s.a) \ o') := by
    ext q
    rw [Finset.mem_coe, Finset.mem_sdiff, ho', not_or]
    rfl
  rw [Confused, hclosed, Set.ncard_coe_finset, Finset.disjoint_iff_inter_eq_empty, hopened,
    ← ne_eq, ← Finset.nonempty_iff_ne_empty]

theorem moveCursor_mem {p : Pos} (hp : p ∈ field) (c : Int) : moveCursor p c ∈ field := by
  rw [mem_field] at hp ⊢
  unfold moveCursor
  split_ifs <;> grind

theorem moveCursor_dig {c : Int} (hc : isDig c) (p : Pos) : moveCursor p c = p := by
  rcases hc with rfl | rfl <;> simp [moveCursor]

theorem markKey_dig {s : Game} {c : Int} (hc : isDig c) : markKey s c = s := by
  refine if_neg fun h => ?_
  rcases hc with rfl | rfl <;> simp [isMark] at h

/-- What a dig does, mines placed. -/
structure DigRight (s s' : Game) : Prop where
  opens : ∀ q, q ∈ s'.o ↔ q ∈ s.o ∨ Opens s'.a s.m s.o (digs s'.a s.m s.o s.pos) q
  keeps : s'.m = s.m ∧ s'.pos = s.pos

/-- What holds after a key. -/
structure StepRight (s : Game) (i : Input) (s' : Game) : Prop where
  right : s'.Right
  ends : EndsRight s' ↔ ¬ Slips s i
  digs : isDig i.c → DigRight s s'
  other : ¬ isDig i.c → s'.o = s.o

theorem finish_of_going {s : Game} (h : s.gameover = false ∧ (field \ s.o).card ≠ 99) :
    finish s = s := by
  rw [finish, if_neg (mt checkwin_iff.mp h.2), if_neg (by simp [h.1])]

theorem finish_fields (s : Game) : (finish s).a = s.a ∧ (finish s).m = s.m ∧ (finish s).o = s.o ∧
    (finish s).pos = s.pos ∧ (finish s).inited = s.inited := by
  unfold finish
  split_ifs <;> exact ⟨rfl, rfl, rfl, rfl, rfl⟩

/-- A key that does not dig. -/
theorem step_other {s : Game} (hs : s.Right) (hphase : s.phase = .playing) {i : Input}
    (hdig : ¬ isDig i.c) : ∃ s', step s i = some s' ∧ StepRight s i s' := by
  have hgoing := hs.going (.inl hphase)
  have hslip : ¬ Slips s i := fun h => hdig h.1
  rw [step, if_neg (not_not_intro hphase)]
  by_cases hquit : i.c = 3 ∨ i.c = 4 ∨ i.c = -1
  · rw [if_pos hquit]
    have hright : ({ s with phase := .quit } : Game).Right :=
      ⟨hs.pos, hs.opened, hs.marked, hs.mines, hs.placed, fun _ => hgoing⟩
    exact ⟨_, rfl, hright, iff_of_true (hright.endsRight (.inr rfl)) hslip,
      fun h => absurd h hdig, fun _ => rfl⟩
  · rw [if_neg hquit, digKey, if_neg hdig, Option.map_some]
    have hpos := moveCursor_mem hs.pos i.c
    generalize hm : markKey { s with pos := moveCursor s.pos i.c } i.c = t
    have ht : t.a = s.a ∧ t.o = s.o ∧ t.gameover = s.gameover ∧ t.inited = s.inited ∧
        t.phase = s.phase ∧ t.pos = moveCursor s.pos i.c ∧ Disjoint t.m t.o := by
      subst hm
      unfold markKey
      split
      · next hmark =>
          refine ⟨rfl, rfl, rfl, rfl, rfl, rfl, ?_⟩
          dsimp only at hmark ⊢
          split
          · exact Finset.disjoint_of_subset_left (Finset.erase_subset _ _) hs.marked
          · exact Finset.disjoint_insert_left.mpr ⟨hmark.2, hs.marked⟩
      · exact ⟨rfl, rfl, rfl, rfl, rfl, rfl, hs.marked⟩
    obtain ⟨ha, ho, hflag, hinited, hp, htpos, hmarked⟩ := ht
    have hright : t.Right := by
      refine ⟨htpos ▸ hpos, ho ▸ hs.opened, hmarked, ha ▸ hs.mines, ?_, fun _ => ?_⟩
      · rw [hinited, ha, ho]
        exact hs.placed
      · rw [hflag, ha, ho]
        exact hgoing
    have htphase : t.phase = .playing := hp.trans hphase
    have hfinish : finish t = t := by
      refine finish_of_going ?_
      rw [hflag, ho]
      exact ⟨hgoing.1, hgoing.2.2⟩
    rw [hfinish]
    exact ⟨t, rfl, hright, iff_of_true (hright.endsRight (.inl htphase)) hslip,
      fun h => absurd h hdig, fun _ => ho⟩

theorem finish_going {s : Game} (hflag : s.gameover = decide (¬ Disjoint s.a s.o))
    (h : (finish s).phase = .playing ∨ (finish s).phase = .quit) :
    (finish s).gameover = false ∧ Disjoint s.a s.o ∧ (field \ s.o).card ≠ 99 := by
  unfold finish at h ⊢
  split_ifs at h ⊢ with hw hover
  · simp at h
  · simp at h
  · have hclear : s.gameover = false := by simpa using hover
    rw [hflag, decide_eq_false_iff_not, not_not] at hclear
    exact ⟨by simpa using hover, hclear, mt checkwin_iff.mpr hw⟩

theorem isDig.not_quit {c : Int} (h : isDig c) : ¬ (c = 3 ∨ c = 4 ∨ c = -1) := by
  rcases h with rfl | rfl <;> decide

theorem step_dig_eq {s : Game} (hphase : s.phase = .playing) (hflag : s.gameover = false)
    {i : Input} (hdig : isDig i.c) {a o' : Finset Pos}
    (ha : (if s.inited then some s.a else wininit s.pos s.a i.rand) = some a)
    (hunhit : Disjoint a s.o) (hdug : dig a s.m (.of a s.o) s.pos = some (.of a o')) :
    step s i =
      some (finish ⟨a, s.m, o', decide (¬ Disjoint a o'), s.pos, true, s.phase⟩) := by
  have hflagged : (⟨s.o, s.gameover⟩ : Dug) = .of a s.o := by
    simp [Dug.of, hflag, hunhit]
  rw [step, if_neg (not_not_intro hphase), if_neg hdig.not_quit, moveCursor_dig hdig, digKey,
    if_pos hdig, ha, Option.bind_some, hflagged, hdug, Option.map_some, Option.map_some,
    markKey_dig hdig]
  rfl

/-- A key that digs, when the mines are placed or can be placed. -/
theorem step_dig {s : Game} (hs : s.Right) (hphase : s.phase = .playing) {i : Input}
    (hdig : isDig i.c) {a : Finset Pos}
    (ha : (if s.inited then some s.a else wininit s.pos s.a i.rand) = some a) :
    ∃ s', step s i = some s' ∧ StepRight s i s' := by
  obtain ⟨hflag, hunhit, -⟩ := hs.going (.inl hphase)
  have hmines : a ⊆ field ∧ a.card = 99 ∧ Disjoint a s.o ∧
      (s.inited = true ∧ a = s.a ∨ s.inited = false ∧ s.o = ∅ ∧ s.pos ∉ a) := by
    rcases hs.placed with ⟨hinited, hcard⟩ | ⟨hinited, hempty, ho⟩
    · rw [if_pos hinited] at ha
      cases ha
      exact ⟨hs.mines, hcard, hunhit, .inl ⟨hinited, rfl⟩⟩
    · rw [if_neg (by simp [hinited]), hempty] at ha
      obtain ⟨hplacing, hcard⟩ := wininit_eq ha
      rw [ho]
      exact ⟨hplacing.inside, hcard, Finset.disjoint_empty_right _,
        .inr ⟨hinited, rfl, fun hin => hplacing.apart _ hin (.refl _)⟩⟩
  obtain ⟨hfield, hcard, hclear, hplaced⟩ := hmines
  obtain ⟨o', hdug, hopens⟩ := dig_eq (a := a) (m := s.m) (o := s.o) hs.pos
  have hstep := step_dig_eq hphase hflag hdig ha hclear hdug
  obtain ⟨t, ht⟩ : ∃ t, t = Game.mk a s.m o' (decide (¬ Disjoint a o')) s.pos true s.phase :=
    ⟨_, rfl⟩
  rw [← ht] at hstep
  obtain ⟨hta, htm, hto, htpos, htinited⟩ := finish_fields t
  have hflag' : t.gameover = decide (¬ Disjoint t.a t.o) := by rw [ht]
  refine ⟨finish t, hstep, ?_, ?_, fun _ => ⟨fun q => ?_, ?_⟩, fun hother => absurd hdig hother⟩
  · have hdiggable (q : Pos) (hq : q ∈ o') : q ∈ field ∧ q ∉ s.m := by
      rcases (hopens q).mp hq with hold | hnew
      · exact ⟨hs.opened hold, Finset.disjoint_right.mp hs.marked hold⟩
      · exact hnew.entered
    have hgoing := finish_going hflag'
    rw [← hta, ← hto] at hgoing
    refine ⟨?_, ?_, ?_, ?_, ?_, hgoing⟩
    · rw [htpos, ht]
      exact hs.pos
    · rw [hto, ht]
      exact fun q hq => (hdiggable q hq).1
    · rw [htm, hto, ht]
      exact Finset.disjoint_right.mpr fun q hq => (hdiggable q hq).2
    · rw [hta, ht]
      exact hfield
    · rw [htinited, hta, ht]
      exact .inl ⟨rfl, hcard⟩
  · have hends := finish_endsRight (s := t) (ht ▸ hfield) (ht ▸ hcard) hflag' (ht ▸ hphase)
    rw [hends, ht]
    refine not_congr ?_
    rcases hplaced with ⟨hinited, rfl⟩ | ⟨hinited, ho, hfree⟩
    · have hconfused := confused_iff hs hunhit hopens
      exact hconfused.trans ⟨fun h => ⟨hdig, hinited, h⟩, fun h => h.2.2⟩
    · -- The first dig does not hit a mine.
      refine iff_of_false (fun hconfused => hconfused.1 ?_) fun h => ?_
      · refine Finset.disjoint_left.mpr fun q hmine hq => ?_
        rcases (hopens q).mp hq with hold | hnew
        · simp [ho] at hold
        · obtain ⟨hmem, -⟩ := (opens_mine hmine).mp hnew
          rw [digs, if_pos (by simp [ho]), List.mem_singleton] at hmem
          exact hfree (hmem ▸ hmine)
      · exact absurd h.2.1 (by simp [hinited])
  · rw [hto, hta]
    subst ht
    exact hopens q
  · subst ht
    exact ⟨htm, htpos⟩

/-! ## Whole games -/

theorem step_right {s s' : Game} (hs : s.Right) {i : Input} (h : step s i = some s') :
    StepRight s i s' := by
  have hphase : s.phase = .playing := by
    by_contra hover
    rw [step, if_pos hover] at h
    contradiction
  by_cases hdig : isDig i.c
  · obtain ⟨a, ha⟩ : ∃ a, (if s.inited then some s.a else wininit s.pos s.a i.rand) = some a := by
      rw [step, if_neg (not_not_intro hphase), if_neg hdig.not_quit, moveCursor_dig hdig, digKey,
        if_pos hdig] at h
      obtain ⟨r, hr, -⟩ := Option.map_eq_some_iff.mp h
      obtain ⟨a, ha, -⟩ := Option.bind_eq_some_iff.mp hr
      exact ⟨a, ha⟩
    obtain ⟨t, ht, hright⟩ := step_dig hs hphase hdig ha
    cases ht.symm.trans h
    exact hright
  · obtain ⟨t, ht, hright⟩ := step_other hs hphase hdig
    cases ht.symm.trans h
    exact hright

/-- **A dig opens the least set** that goes on where no mine is beside. -/
theorem opens_least {a m o : Finset Pos} {p : Pos} (hp : p ∈ field) (hclosed : p ∉ o)
    (hplain : p ∉ m) (hsafe : p ∉ a) :
    IsLeast {S : Set Pos | p ∈ S ∧ ∀ q ∈ S, numMineBeside a q = 0 →
        ∀ r ∈ around q, r ∈ field → r ∉ m → r ∉ o → r ∈ S}
      {q | Opens a m o (digs a m o p) q} := by
  have hdigs : digs a m o p = [p] := if_pos hclosed
  rw [hdigs]
  refine ⟨⟨.source (List.mem_singleton.mpr rfl) ⟨hp, hplain⟩ hclosed, ?_⟩, ?_⟩
  · intro q hq hzero r hr hfield hplain hnew
    have hfree : q ∉ a := fun hmine => by
      obtain ⟨hmem, -⟩ := (opens_mine hmine).mp hq
      exact hsafe (List.mem_singleton.mp hmem ▸ hmine)
    refine .next hq ?_ ⟨hfield, hplain⟩ hnew
    rwa [spreads, if_pos ⟨hfree, hzero⟩]
  · rintro S ⟨hstart, hclosed⟩ q hq
    induction hq with
    | source hmem _ _ => exact List.mem_singleton.mp hmem ▸ hstart
    | @next q r _ hmem hok hnew ih =>
        unfold spreads at hmem
        split at hmem
        · next hzero => exact hclosed q ih hzero.2 r hmem hok.1 hok.2 hnew
        · exact absurd hmem List.not_mem_nil

/-- What holds of every game, however it ends. -/
structure Sound (s : Game) : Prop where
  /-- Open cells stay open, and no marked cell is opened. -/
  stays : ∀ i s', step s i = some s' → s.o ⊆ s'.o ∧ Disjoint s.m s'.o
  opens : ∀ i s', step s i = some s' → isDig i.c → s.pos ∉ s.o → s.pos ∉ s.m → s.pos ∉ s'.a →
    IsLeast {S : Set Pos | s.pos ∈ S ∧ ∀ q ∈ S, numMineBeside s'.a q = 0 →
        ∀ r ∈ around q, r ∈ field → r ∉ s.m → r ∉ s.o → r ∈ S}
      {q | q ∈ s'.o ∧ q ∉ s.o}
  goesOn : ∀ i, s.phase = .playing →
    (isDig i.c → s.inited = false → (wininit s.pos ∅ i.rand).isSome = true) →
      (step s i).isSome = true

theorem Game.Right.sound {s : Game} (hs : s.Right) : Sound s where
  stays i s' h := by
    have hright := step_right hs h
    by_cases hdig : isDig i.c
    · obtain ⟨hopens, -⟩ := hright.digs hdig
      refine ⟨fun q hq => (hopens q).mpr (.inl hq), Finset.disjoint_right.mpr fun q hq => ?_⟩
      rcases (hopens q).mp hq with hold | hnew
      · exact Finset.disjoint_right.mp hs.marked hold
      · exact hnew.entered.2
    · rw [hright.other hdig]
      exact ⟨Finset.Subset.refl _, hs.marked⟩
  opens i s' h hdig hclosed hplain hsafe := by
    obtain ⟨hopens, -⟩ := (step_right hs h).digs hdig
    have hnew : {q | q ∈ s'.o ∧ q ∉ s.o} =
        {q | Opens s'.a s.m s.o (digs s'.a s.m s.o s.pos) q} := by
      ext q
      constructor
      · rintro ⟨hq, hout⟩
        exact ((hopens q).mp hq).resolve_left hout
      · exact fun hq => ⟨(hopens q).mpr (.inr hq), hq.not_mem⟩
    rw [hnew]
    exact opens_least hs.pos hclosed hplain hsafe
  goesOn i hphase hplaces := by
    rw [Option.isSome_iff_exists]
    by_cases hdig : isDig i.c
    · rcases hs.placed with ⟨hinited, -⟩ | ⟨hinited, hempty, -⟩
      · obtain ⟨s', hstep, -⟩ := step_dig hs hphase hdig (a := s.a) (if_pos hinited)
        exact ⟨s', hstep⟩
      · obtain ⟨a, ha⟩ := Option.isSome_iff_exists.mp (hplaces hdig hinited)
        obtain ⟨s', hstep, -⟩ := step_dig hs hphase hdig (a := a)
          (by rw [if_neg (by simp [hinited]), hempty, ha])
        exact ⟨s', hstep⟩
    · obtain ⟨s', hstep, -⟩ := step_other hs hphase hdig
      exact ⟨s', hstep⟩

theorem start_right : start.Right where
  pos := by rw [mem_field]; decide
  opened := Finset.empty_subset _
  marked := Finset.disjoint_empty_left _
  mines := Finset.empty_subset _
  placed := .inr ⟨rfl, rfl, rfl⟩
  going _ := ⟨rfl, Finset.disjoint_empty_left _, by
    change (field \ ∅).card ≠ 99
    rw [Finset.sdiff_empty, field_card]
    decide⟩

open Classical in
/-- A game ends as it should if no key slips; a key that does ends it. -/
theorem exec_endsRight {s₀ : Game} (hs₀ : s₀.Right) (hends : EndsRight s₀) {is : List Input}
    {s : Game} (h : exec step s₀ is = some s) :
    s.Right ∧ (EndsRight s ↔ exec (when (fun s i => ¬ Slips s i) step) s₀ is = some s) := by
  induction is generalizing s₀ with
  | nil =>
      cases h
      exact ⟨hs₀, iff_of_true hends rfl⟩
  | cons i is ih =>
      obtain ⟨s₁, hstep, hrest⟩ := Option.bind_eq_some_iff.mp h
      have hright := step_right hs₀ hstep
      rw [exec, when]
      by_cases hslip : Slips s₀ i
      · have hwrong : ¬ EndsRight s₁ := fun he => hright.ends.mp he hslip
        have hover : s₁.phase ≠ .playing := fun hp => hwrong (hright.right.endsRight (.inl hp))
        -- No key is read after it.
        have hlast : s = s₁ := by
          cases is with
          | nil => exact (Option.some.inj hrest).symm
          | cons i' is' =>
              rw [exec, step, if_pos hover] at hrest
              contradiction
        rw [if_neg (not_not_intro hslip), hlast]
        exact ⟨hright.right, iff_of_false hwrong fun hnone => by contradiction⟩
      · rw [if_pos hslip, hstep, Option.bind_some]
        exact ih hright.right (hright.ends.mpr hslip) hrest

open Classical in
/-- **Every game** opens what it should, and it ends as it should if and only if no key opens mines
and leaves as many other cells closed. -/
theorem winmine_right (is : List Input) (s : Game) (h : exec step start is = some s) :
    Sound s ∧ (EndsRight s ↔ exec (when (fun s i => ¬ Slips s i) step) start is = some s) := by
  obtain ⟨hright, hends⟩ := exec_endsRight start_right (start_right.endsRight (.inl rfl)) h
  exact ⟨hright.sound, hends⟩

/-! ## A game that is won on a mine -/

/-- The last six columns and three cells before them. -/
def mineDraws : List (Nat × Nat) :=
  ((List.range 6).flatMap fun i => (List.range 16).map fun j => (i + 24, j)) ++
    [(23, 0), (23, 1), (23, 2)]

def mines : Finset Pos := (mineDraws.map drawn).toFinset

theorem mem_mineDraws {r : Nat × Nat} : r ∈ mineDraws ↔
    ((24 ≤ r.1 ∧ r.1 ≤ 29) ∧ r.2 ≤ 15) ∨ r.1 = 23 ∧ r.2 ≤ 2 := by
  obtain ⟨x, y⟩ := r
  simp only [mineDraws, List.mem_append, List.mem_flatMap, List.mem_map, List.mem_range,
    Prod.mk.injEq, List.mem_cons, List.not_mem_nil, or_false]
  constructor
  · rintro (⟨i, hi, j, hj, rfl, rfl⟩ | h) <;> omega
  · rintro (h | h)
    · exact .inl ⟨x - 24, by omega, y, by omega, by omega, rfl⟩
    · exact .inr (by omega)

theorem drawn_eq {r : Nat × Nat} (h : r ∈ mineDraws) :
    drawn r = ((r.1 : Int) + 1, (r.2 : Int) + 1) := by
  rw [mem_mineDraws] at h
  rw [drawn, Nat.mod_eq_of_lt (by omega), Nat.mod_eq_of_lt (by omega)]
  rfl

theorem mem_mines {p : Pos} : p ∈ mines ↔
    ((25 ≤ p.1 ∧ p.1 ≤ 30) ∧ 1 ≤ p.2 ∧ p.2 ≤ 16) ∨ p.1 = 24 ∧ 1 ≤ p.2 ∧ p.2 ≤ 3 := by
  obtain ⟨x, y⟩ := p
  rw [mines, List.mem_toFinset, List.mem_map]
  constructor
  · rintro ⟨r, hr, hdrawn⟩
    rw [drawn_eq hr, Prod.mk.injEq] at hdrawn
    rw [mem_mineDraws] at hr
    omega
  · intro h
    have hr : (x.toNat - 1, y.toNat - 1) ∈ mineDraws := by
      rw [mem_mineDraws]
      omega
    refine ⟨_, hr, ?_⟩
    rw [drawn_eq hr, Prod.mk.injEq]
    omega

theorem mineDraws_nodup : (mineDraws.map drawn).Nodup := by
  refine List.Nodup.map_on (fun r hr r' hr' heq => ?_) (by decide +kernel)
  rw [drawn_eq hr, drawn_eq hr', Prod.mk.injEq] at heq
  exact Prod.ext (by omega) (by omega)

theorem wininit_mines : wininit (10, 8) ∅ mineDraws = some mines := by
  have hfree : ∀ r ∈ mineDraws, drawn r ∉ (∅ : Finset Pos) ∧ ¬ Near (drawn r) (10, 8) := by
    refine fun r hr => ⟨Finset.notMem_empty _, fun hnear => ?_⟩
    rw [drawn_eq hr, Near, abs_lt] at hnear
    rw [mem_mineDraws] at hr
    dsimp only at hnear
    omega
  have hall := placeAll_drawn mineDraws_nodup hfree
  rwa [Finset.empty_union] at hall

/-- All that the first dig can open is open; one cell is marked. -/
def cleared : Finset Pos := (field \ mines).erase (10, 7)

theorem mem_around {p q : Pos} : q ∈ around p ↔
    (p.1 - 1 ≤ q.1 ∧ q.1 ≤ p.1 + 1) ∧ p.2 - 1 ≤ q.2 ∧ q.2 ≤ p.2 + 1 := by
  obtain ⟨x, y⟩ := p
  obtain ⟨x', y'⟩ := q
  simp only [around, List.mem_flatMap, List.mem_map, List.mem_cons, List.not_mem_nil, or_false,
    Prod.mk.injEq, exists_eq_or_imp, exists_eq_left]
  omega

/-- No mine is near the first 22 columns, nor under the third row of the next one. -/
theorem far_from_mines {p : Pos} (hfar : p.1 ≤ 22 ∨ p.1 = 23 ∧ 5 ≤ p.2) :
    p ∉ mines ∧ numMineBeside mines p = 0 := by
  refine ⟨fun hmine => ?_, ?_⟩
  · rw [mem_mines] at hmine
    omega
  · unfold numMineBeside numBeside
    rw [List.countP_eq_zero]
    intro q hq
    rw [mem_around] at hq
    simp only [decide_eq_true_eq, mem_mines]
    omega

theorem opens_next {p q : Pos} (hp : Opens mines {(10, 7)} ∅ [(10, 8)] p)
    (hfar : p.1 ≤ 22 ∨ p.1 = 23 ∧ 5 ≤ p.2) (hq : q ∈ around p) (hfield : q ∈ field)
    (hhole : q ≠ (10, 7)) : Opens mines {(10, 7)} ∅ [(10, 8)] q := by
  refine .next hp ?_ ⟨hfield, by simpa using hhole⟩ (Finset.notMem_empty q)
  rwa [spreads, if_pos (far_from_mines hfar)]

/-- Along the row of the first dig, and from there up and down; the column of the mark is entered
from the side. -/
theorem opens_left {x y : Int} (hx : 1 ≤ x ∧ x ≤ 22) (hy : 1 ≤ y ∧ y ≤ 16)
    (hhole : ¬ (x = 10 ∧ y = 7)) : Opens mines {(10, 7)} ∅ [(10, 8)] (x, y) := by
  have hstart : Opens mines {(10, 7)} ∅ [(10, 8)] (10, 8) :=
    .source (List.mem_singleton.mpr rfl) ⟨by rw [mem_field]; decide, by decide⟩
      (Finset.notMem_empty _)
  have hgo {x y x' y' : Int} (h : Opens mines {(10, 7)} ∅ [(10, 8)] (x, y)) (hx : x ≤ 22)
      (hnear : (x - 1 ≤ x' ∧ x' ≤ x + 1) ∧ y - 1 ≤ y' ∧ y' ≤ y + 1)
      (hin : (1 ≤ x' ∧ x' ≤ 30) ∧ 1 ≤ y' ∧ y' ≤ 16) (hhole : ¬ (x' = 10 ∧ y' = 7)) :
      Opens mines {(10, 7)} ∅ [(10, 8)] (x', y') :=
    opens_next h (.inl hx) (mem_around.mpr hnear) (mem_field.mpr hin)
      (by rwa [ne_eq, Prod.mk.injEq])
  have hright (n : Nat) (hn : 10 + (n : Int) ≤ 22) :
      Opens mines {(10, 7)} ∅ [(10, 8)] (10 + (n : Int), 8) := by
    induction n with
    | zero => exact hstart
    | succ n ih => exact hgo (ih (by omega)) (by omega) (by omega) (by omega) (by omega)
  have hleft (n : Nat) (hn : 1 ≤ 10 - (n : Int)) :
      Opens mines {(10, 7)} ∅ [(10, 8)] (10 - (n : Int), 8) := by
    induction n with
    | zero => exact hstart
    | succ n ih => exact hgo (ih (by omega)) (by omega) (by omega) (by omega) (by omega)
  have hrow {x : Int} (hx : 1 ≤ x ∧ x ≤ 22) : Opens mines {(10, 7)} ∅ [(10, 8)] (x, 8) := by
    rcases le_total 10 x with h | h
    · simpa [Int.toNat_of_nonneg (show 0 ≤ x - 10 by omega)] using hright (x - 10).toNat (by omega)
    · simpa [Int.toNat_of_nonneg (show 0 ≤ 10 - x by omega)] using hleft (10 - x).toNat (by omega)
  have hdown (n : Nat) (hn : 8 + (n : Int) ≤ 16) :
      Opens mines {(10, 7)} ∅ [(10, 8)] (x, 8 + (n : Int)) := by
    induction n with
    | zero => exact hrow hx
    | succ n ih => exact hgo (ih (by omega)) (by omega) (by omega) (by omega) (by omega)
  have hup {x : Int} (hx : 1 ≤ x ∧ x ≤ 22) (hside : x ≠ 10) (n : Nat) (hn : 1 ≤ 8 - (n : Int)) :
      Opens mines {(10, 7)} ∅ [(10, 8)] (x, 8 - (n : Int)) := by
    induction n with
    | zero => exact hrow hx
    | succ n ih => exact hgo (ih (by omega)) (by omega) (by omega) (by omega) (by omega)
  rcases le_total 8 y with h | h
  · simpa [Int.toNat_of_nonneg (show 0 ≤ y - 8 by omega)] using hdown (y - 8).toNat (by omega)
  · have hcolumn {x : Int} (hx : 1 ≤ x ∧ x ≤ 22) (hside : x ≠ 10) {y : Int}
        (hy : 1 ≤ y ∧ y ≤ 8) : Opens mines {(10, 7)} ∅ [(10, 8)] (x, y) := by
      simpa [Int.toNat_of_nonneg (show 0 ≤ 8 - y by omega)] using hup hx hside (8 - y).toNat
        (by omega)
    by_cases hside : x = 10
    · rcases eq_or_lt_of_le h with rfl | hlt
      · exact hrow hx
      · exact hgo (hcolumn (show 1 ≤ (9 : Int) ∧ (9 : Int) ≤ 22 by decide) (by decide)
          (show 1 ≤ y + 1 ∧ y + 1 ≤ 8 by omega)) (by omega) (by omega) (by omega) hhole
    · exact hcolumn hx hside ⟨hy.1, h⟩

theorem opens_all {p : Pos} (hp : p ∈ cleared) : Opens mines {(10, 7)} ∅ [(10, 8)] p := by
  obtain ⟨x, y⟩ := p
  obtain ⟨hhole, hsafe⟩ := Finset.mem_erase.mp hp
  rw [Finset.mem_sdiff, mem_field, mem_mines] at hsafe
  rw [ne_eq, Prod.mk.injEq] at hhole
  dsimp only at hsafe
  have hedge {y : Int} (hy : 1 ≤ y ∧ y ≤ 16) : Opens mines {(10, 7)} ∅ [(10, 8)] (23, y) := by
    have hbefore := opens_left (x := 22) (by decide) hy (by omega)
    refine opens_next hbefore (.inl (Int.le_refl 22)) ?_ ?_ ?_
    · rw [mem_around]
      dsimp only
      omega
    · rw [mem_field]
      dsimp only
      omega
    · simp
  rcases lt_trichotomy x 23 with hx | rfl | hx
  · exact opens_left (by omega) (by omega) hhole
  · exact hedge (by omega)
  · refine opens_next (hedge (y := max y 5) (by omega)) (.inr ⟨rfl, by omega⟩) ?_ ?_ ?_
    · rw [mem_around]
      dsimp only
      omega
    · rw [mem_field]
      dsimp only
      omega
    · rwa [ne_eq, Prod.mk.injEq]

theorem opens_iff {p : Pos} :
    Opens mines {(10, 7)} ∅ (digs mines {(10, 7)} ∅ (10, 8)) p ↔ p ∈ cleared := by
  have hdigs : digs mines {(10, 7)} ∅ (10, 8) = [(10, 8)] := if_pos (Finset.notMem_empty _)
  rw [hdigs]
  refine ⟨fun h => ?_, opens_all⟩
  have hfree : p ∉ mines := fun hmine => by
    obtain ⟨hmem, -⟩ := (opens_mine hmine).mp h
    rw [List.mem_singleton.mp hmem, mem_mines] at hmine
    simp at hmine
  obtain ⟨hfield, hplain⟩ := h.entered
  exact Finset.mem_erase.mpr ⟨by simpa using hplain, Finset.mem_sdiff.mpr ⟨hfield, hfree⟩⟩

theorem mines_card : mines.card = 99 := (wininit_eq wininit_mines).2

theorem mines_subset : mines ⊆ field := (wininit_eq wininit_mines).1.inside

theorem cleared_subset : cleared ⊆ field \ mines := Finset.erase_subset _ _

theorem cleared_disjoint : Disjoint mines cleared :=
  Finset.disjoint_of_subset_right cleared_subset Finset.disjoint_sdiff

theorem hole_mem : (10, 7) ∈ field \ mines := by
  rw [Finset.mem_sdiff, mem_field, mem_mines]
  decide

/-- The mines and the marked cell. -/
theorem cleared_card : (field \ cleared).card = 100 := by
  have hhole : ((field \ mines) \ cleared).card = 1 := by
    rw [cleared, Finset.sdiff_erase_self hole_mem]
    exact Finset.card_singleton _
  have hnone : (mines ∩ cleared).card = 0 := by
    rw [Finset.disjoint_iff_inter_eq_empty.mp cleared_disjoint]
    exact Finset.card_empty
  have hcount := closed_card (o := cleared) mines_subset
  have hcard := mines_card
  omega

/-- The game after the first dig. -/
def dugGame : Game where
  a := mines
  m := {(10, 7)}
  o := cleared
  gameover := false
  pos := (10, 8)
  inited := true
  phase := .playing

/-- The game at its end. -/
def slippedGame : Game where
  a := mines
  m := {(10, 7)}
  o := insert (25, 8) cleared
  gameover := false
  pos := (25, 8)
  inited := true
  phase := .won

/-- A cell is marked, all others are cleared, and a mine is dug. -/
def slipping : List Input :=
  [⟨257, []⟩, ⟨115, []⟩, ⟨258, []⟩, ⟨97, mineDraws⟩] ++ (List.replicate 15 ⟨259, []⟩ ++ [⟨97, []⟩])

theorem step_plain {s : Game} (hphase : s.phase = .playing) {i : Input}
    (hkey : ¬ (i.c = 3 ∨ i.c = 4 ∨ i.c = -1) ∧ ¬ isDig i.c)
    (hgoing : s.gameover = false ∧ (field \ s.o).card ≠ 99) :
    step s i = some (markKey { s with pos := moveCursor s.pos i.c } i.c) := by
  rw [step, if_neg (not_not_intro hphase), if_neg hkey.1, digKey, if_neg hkey.2, Option.map_some,
    finish_of_going]
  unfold markKey
  split_ifs <;> exact hgoing

theorem exec_right (n : Nat) {s : Game} (hphase : s.phase = .playing)
    (hgoing : s.gameover = false ∧ (field \ s.o).card ≠ 99) (hx : s.pos.1 + n ≤ 30)
    (is : List Input) : exec step s (List.replicate n ⟨259, []⟩ ++ is) =
      exec step { s with pos := (s.pos.1 + n, s.pos.2) } is := by
  induction n generalizing s with
  | zero => simp
  | succ n ih =>
      have hmove : moveCursor s.pos 259 = (s.pos.1 + 1, s.pos.2) := by
        unfold moveCursor
        rw [if_neg (by omega), if_neg (by omega), if_neg (by omega), if_pos ⟨rfl, by omega⟩]
      have hmark : ¬ isMark 259 := by decide
      rw [List.replicate_succ, List.cons_append, exec,
        step_plain hphase ⟨by decide, by decide⟩ hgoing, Option.bind_some]
      change exec step (markKey { s with pos := moveCursor s.pos 259 } 259) _ = _
      rw [markKey, if_neg fun h => hmark h.1, hmove]
      rw [ih (s := { s with pos := (s.pos.1 + 1, s.pos.2) }) hphase hgoing
        (by push_cast at hx ⊢; omega)]
      push_cast
      rw [Int.add_assoc, Int.add_comm 1]

theorem cleared_unwon : (field \ cleared).card ≠ 99 := by
  rw [cleared_card]
  decide

theorem step_first :
    step ⟨∅, {(10, 7)}, ∅, false, (10, 8), false, .playing⟩ ⟨97, mineDraws⟩ = some dugGame := by
  obtain ⟨o', hdug, hopens⟩ := dig_eq (a := mines) (m := {(10, 7)}) (o := ∅) (p := (10, 8))
    (by rw [mem_field]; decide)
  have ho' : o' = cleared := by
    ext q
    rw [hopens, opens_iff]
    simp
  subst ho'
  have hclear : decide (¬ Disjoint mines cleared) = false := by simp [cleared_disjoint]
  have hstep := step_dig_eq (s := ⟨∅, {(10, 7)}, ∅, false, (10, 8), false, .playing⟩)
    (i := ⟨97, mineDraws⟩) rfl rfl (.inl rfl) wininit_mines (Finset.disjoint_empty_right _) hdug
  rw [hclear] at hstep
  exact hstep.trans (congrArg some (finish_of_going ⟨rfl, cleared_unwon⟩))

theorem step_last : step { dugGame with pos := (25, 8) } ⟨97, []⟩ = some slippedGame := by
  obtain ⟨o', hdug, hopens⟩ :=
    dig_eq (a := mines) (m := {(10, 7)}) (o := cleared) (p := (25, 8)) (by rw [mem_field]; decide)
  have hmine : (25, 8) ∈ mines := by
    rw [mem_mines]
    decide
  have hclosed : (25, 8) ∉ cleared := Finset.disjoint_left.mp cleared_disjoint hmine
  have ho' : o' = insert (25, 8) cleared := by
    ext q
    have hdigs : digs mines {(10, 7)} cleared (25, 8) = [(25, 8)] := if_pos hclosed
    rw [hopens, hdigs, Finset.mem_insert, or_comm]
    refine or_congr_left ⟨fun h => ?_, ?_⟩
    · induction h with
      | source hmem _ _ => exact List.mem_singleton.mp hmem
      | next _ hmem _ _ ih =>
          subst ih
          rw [spreads, if_neg fun h => h.1 hmine] at hmem
          exact absurd hmem List.not_mem_nil
    · rintro rfl
      exact .source (List.mem_singleton.mpr rfl) ⟨by rw [mem_field]; decide, by decide⟩ hclosed
  subst ho'
  have hwin : checkwin (insert (25, 8) cleared) = true := by
    rw [checkwin_iff, Finset.sdiff_insert, Finset.card_erase_of_mem, cleared_card]
    exact Finset.mem_sdiff.mpr ⟨mines_subset hmine, hclosed⟩
  have hstep := step_dig_eq (s := { dugGame with pos := (25, 8) }) (i := ⟨97, []⟩) rfl rfl
    (.inl rfl) (a := mines) rfl cleared_disjoint hdug
  exact hstep.trans (congrArg some (if_pos hwin))

theorem exec_slipping : exec step start slipping = some slippedGame := by
  have hgoing : start.gameover = false ∧ (field \ start.o).card ≠ 99 := by
    refine ⟨rfl, ?_⟩
    change (field \ ∅).card ≠ 99
    rw [Finset.sdiff_empty, field_card]
    decide
  have hup : step start ⟨257, []⟩ = some { start with pos := (10, 7) } :=
    step_plain rfl ⟨by decide, by decide⟩ hgoing
  have hmark : step { start with pos := (10, 7) } ⟨115, []⟩ =
      some { start with m := {(10, 7)}, pos := (10, 7) } :=
    step_plain (s := { start with pos := (10, 7) }) rfl ⟨by decide, by decide⟩ hgoing
  have hdown : step { start with m := {(10, 7)}, pos := (10, 7) } ⟨258, []⟩ =
      some { start with m := {(10, 7)}, pos := (10, 8) } :=
    step_plain (s := { start with m := {(10, 7)}, pos := (10, 7) }) rfl ⟨by decide, by decide⟩
      hgoing
  have hright := exec_right 15 (s := dugGame) rfl ⟨rfl, cleared_unwon⟩ (by decide) [⟨97, []⟩]
  rw [slipping, List.cons_append, exec, hup, Option.bind_some, List.cons_append, exec, hmark,
    Option.bind_some, List.cons_append, exec, hdown, Option.bind_some, List.cons_append, exec]
  change (step ⟨∅, {(10, 7)}, ∅, false, (10, 8), false, .playing⟩ ⟨97, mineDraws⟩).bind _ = _
  rw [step_first, Option.bind_some, List.nil_append, hright, exec]
  change (step { dugGame with pos := (25, 8) } ⟨97, []⟩).bind _ = _
  rw [step_last, Option.bind_some, exec]

open Classical in
theorem winmine_right_slipped : Sound slippedGame ∧ (EndsRight slippedGame ↔
    exec (when (fun s i => ¬ Slips s i) step) start slipping = some slippedGame) :=
  winmine_right slipping slippedGame exec_slipping

/-- **A game is won on a mine**, with a cell that is not open. -/
theorem winmine_slips :
    exec step start slipping = some slippedGame ∧ slippedGame.phase = .won ∧
      ¬ Disjoint slippedGame.a slippedGame.o ∧ ¬ field \ slippedGame.a ⊆ slippedGame.o := by
  have hmine : (25, 8) ∈ mines := by
    rw [mem_mines]
    decide
  refine ⟨exec_slipping, rfl, ?_, fun hall => ?_⟩
  · exact fun hunhit =>
      Finset.disjoint_left.mp hunhit hmine (Finset.mem_insert_self (25, 8) cleared)
  · rcases Finset.mem_insert.mp (hall hole_mem) with heq | hopen
    · exact absurd heq (by decide)
    · exact Finset.notMem_erase _ _ hopen

end Ytht.Winmine
