import Mathlib.Data.List.Basic
import Mathlib.Data.List.Forall2

/-!
# Lib.Vt

A character terminal of the VT100 kind: a grid of cells, a cursor, a pen, and the
control characters and sequences that move the one and change the other.

A program drives it with bytes.  `Plays d bytes d'` says that the bytes, begun and ended
between two sequences, take the display from `d` to `d'`; it composes over `++`, and each
sequence has one rule that names the display it leaves.
-/

namespace Vt

/-- The attributes of a character that are on or off. -/
structure Mode where
  bright : Bool
  underline : Bool
  blink : Bool
  reverse : Bool
deriving DecidableEq, Repr

/-- No attribute. -/
def Mode.plain : Mode := ⟨false, false, false, false⟩

/-- Foreground and background.  The foreground a terminal starts with is its white, 7; the
background it starts with is 0, and the black that a program asks for by name is 8. -/
structure Color where
  fg : Nat
  bg : Nat
deriving DecidableEq, Repr

/-- The colours of a terminal that was just reset. -/
def Color.plain : Color := ⟨7, 0⟩

/-- One position of the grid. -/
structure Cell where
  data : UInt8
  mode : Mode
  color : Color
deriving DecidableEq, Repr

/-- What the terminal shows, and where it writes next.  `col` is one past the last column
after a character was written there; on a `sticky` margin the cursor then still stands on
that last column. -/
@[ext] structure Display where
  lines : Nat
  columns : Nat
  sticky : Bool
  cell : Nat → Nat → Cell
  row : Nat
  col : Nat
  mode : Mode
  color : Color

namespace Display

variable (d : Display)

/-- What erasing and scrolling leave behind: a blank of the current pen. -/
def blank : Cell := ⟨32, d.mode, d.color⟩

/-- Carriage return. -/
def cr : Display := { d with col := 0 }

/-- Line feed; at the bottom the grid moves up. -/
def lf : Display :=
  if d.row + 1 < d.lines then { d with row := d.row + 1 }
  else { d with cell := fun r c => if r + 1 < d.lines then d.cell (r + 1) c else d.blank }

/-- The cursor `n` columns to the left. -/
def left (n : Nat) : Display :=
  { d with col := (if d.sticky then min d.col (d.columns - 1) else d.col) - n }

/-- The cursor `n` columns to the right. -/
def right (n : Nat) : Display := { d with col := min (d.col + n) (d.columns - 1) }

/-- The cursor `n` rows up. -/
def up (n : Nat) : Display := { d with row := d.row - n }

/-- The cursor `n` rows down. -/
def down (n : Nat) : Display := { d with row := min (d.row + n) (d.lines - 1) }

/-- The cursor to a row and a column, counted from 1. -/
def goto (r c : Nat) : Display :=
  { d with row := min (r - 1) (d.lines - 1), col := min (c - 1) (d.columns - 1) }

/-- Erase from the cursor to the end of the screen. -/
def eraseBelow : Display :=
  { d with cell := fun r c => if d.row < r ∨ d.row = r ∧ d.col ≤ c then d.blank else d.cell r c }

/-- Erase from the cursor to the end of its row. -/
def eraseLine : Display :=
  { d with cell := fun r c => if d.row = r ∧ d.col ≤ c then d.blank else d.cell r c }

/-- Open `n` rows at the cursor's; the rows below move down and off. -/
def insertLines (n : Nat) : Display :=
  { d with
    col := 0
    cell := fun r c =>
      if r < d.row then d.cell r c else if r < d.row + n then d.blank else d.cell (r - n) c }

/-- The grid moved up by `n` rows, or down. -/
def scrolled (n : Int) (r c : Nat) : Cell :=
  if 0 ≤ r + n ∧ r + n < d.lines then d.cell (r + n).toNat c else d.blank

/-- A printable character, written with the pen; past the last column it goes to the next
row. -/
def write (ch : UInt8) : Display :=
  let d := if d.col < d.columns then d else d.lf.cr
  { d with
    cell := fun r c => if r = d.row ∧ c = d.col then ⟨ch, d.mode, d.color⟩ else d.cell r c
    col := d.col + 1 }

/-- One number of a rendition. -/
def render (n : Nat) : Display :=
  match n with
  | 0 => { d with mode := .plain, color := .plain }
  | 1 => { d with mode := { d.mode with bright := true } }
  | 4 => { d with mode := { d.mode with underline := true } }
  | 5 => { d with mode := { d.mode with blink := true } }
  | 7 => { d with mode := { d.mode with reverse := true } }
  | n =>
      if 30 ≤ n ∧ n ≤ 37 then { d with color := { d.color with fg := n - 30 } }
      else if n = 40 then { d with color := { d.color with bg := 8 } }
      else if 41 ≤ n ∧ n ≤ 47 then { d with color := { d.color with bg := n - 40 } }
      else d

/-- A control sequence: its numbers and its last character.  A count of 0 is a count of 1;
a sequence that is not known here does nothing. -/
def control (args : List Nat) (ch : UInt8) : Display :=
  let n := args.headD 0
  if ch = 65 then d.up (max n 1)
  else if ch = 66 then d.down (max n 1)
  else if ch = 67 then d.right (max n 1)
  else if ch = 68 then d.left (max n 1)
  else if ch = 72 then d.goto (max n 1) (max (args.tail.headD 0) 1)
  else if ch = 74 then d.eraseBelow
  else if ch = 75 then d.eraseLine
  else if ch = 76 then d.insertLines (max n 1)
  else if ch = 109 then args.foldl render d
  else d

/-- The size of the grid, and its kind of margin. -/
def size : Nat × Nat × Bool := (d.lines, d.columns, d.sticky)

@[simp] theorem lf_size : d.lf.size = d.size := by
  unfold lf
  split <;> rfl

@[simp] theorem write_size (ch : UInt8) : (d.write ch).size = d.size := by
  unfold write
  dsimp only
  split
  · rfl
  · exact d.lf_size

theorem render_size (n : Nat) : (d.render n).size = d.size := by
  unfold render
  split <;> try rfl
  split
  · rfl
  split
  · rfl
  split <;> rfl

@[simp] theorem foldl_render_size (args : List Nat) : (args.foldl render d).size = d.size := by
  induction args generalizing d with
  | nil => rfl
  | cons n args ih => exact (ih (d.render n)).trans (d.render_size n)

theorem control_size (args : List Nat) (ch : UInt8) : (d.control args ch).size = d.size := by
  unfold control
  dsimp only
  split_ifs
  all_goals first
    | rfl
    | exact d.foldl_render_size args

end Display

/-! ## Bytes -/

/-- Where the terminal stands in a sequence; the numbers read so far, last first. -/
inductive Parser
  | ground
  | escape
  | numbers (args : List Nat)

/-- A decimal digit. -/
def IsDigit (ch : UInt8) : Prop := 48 ≤ ch.toNat ∧ ch.toNat ≤ 57

instance (ch : UInt8) : Decidable (IsDigit ch) := inferInstanceAs (Decidable (_ ∧ _))

/-- A character that takes a position of the grid. -/
def Printable (ch : UInt8) : Prop := 32 ≤ ch.toNat ∧ ch ≠ 127

instance (ch : UInt8) : Decidable (Printable ch) := inferInstanceAs (Decidable (_ ∧ _))

/-- One more digit. -/
def addDigit (n : Nat) (ch : UInt8) : Nat := 10 * n + (ch.toNat - 48)

/-- One byte. -/
def step : Display × Parser → UInt8 → Display × Parser
  | (d, .ground), ch =>
      if ch = 27 then (d, .escape)
      else if ch = 8 then (d.left 1, .ground)
      else if ch = 10 then (d.lf, .ground)
      else if ch = 13 then (d.cr, .ground)
      else if Printable ch then (d.write ch, .ground)
      else (d, .ground)
  | (d, .escape), ch => if ch = 91 then (d, .numbers [0]) else (d, .ground)
  | (d, .numbers args), ch =>
      if IsDigit ch then (d, .numbers (addDigit (args.headD 0) ch :: args.tail))
      else if ch = 59 then (d, .numbers (0 :: args))
      else (d.control args.reverse ch, .ground)

/-- Many bytes. -/
def feed (s : Display × Parser) (bytes : List UInt8) : Display × Parser := bytes.foldl step s

/-- The bytes take one display to another, between sequences. -/
def Plays (d : Display) (bytes : List UInt8) (d' : Display) : Prop :=
  feed (d, .ground) bytes = (d', .ground)

theorem feed_append (s : Display × Parser) (xs ys : List UInt8) :
    feed s (xs ++ ys) = feed (feed s xs) ys := by
  simp [feed]

theorem feed_cons (s : Display × Parser) (ch : UInt8) (bytes : List UInt8) :
    feed s (ch :: bytes) = feed (step s ch) bytes := rfl

namespace Plays

variable {d d' e : Display} {out bytes : List UInt8}

theorem step_size (s : Display × Parser) (ch : UInt8) : (step s ch).1.size = s.1.size := by
  obtain ⟨d, _ | _ | args⟩ := s
  · simp only [step]
    split_ifs
    all_goals first
      | rfl
      | exact d.lf_size
      | exact d.write_size ch
  · simp only [step]
    split_ifs <;> rfl
  · simp only [step]
    split_ifs
    · rfl
    · rfl
    · exact d.control_size _ ch

theorem feed_size (s : Display × Parser) (bytes : List UInt8) : (feed s bytes).1.size = s.1.size := by
  induction bytes generalizing s with
  | nil => rfl
  | cons ch bytes ih => exact (ih (step s ch)).trans (step_size s ch)

/-- No bytes change the size. -/
theorem size (h : Plays d bytes d') : d'.size = d.size := by
  have hsize := feed_size (d, .ground) bytes
  rwa [h] at hsize

theorem nil (d : Display) : Plays d [] d := rfl

theorem append (h : Plays d out d') (h' : Plays d' bytes e) : Plays d (out ++ bytes) e := by
  rw [Plays, feed_append, h, h']

theorem back (d : Display) : Plays d [8] (d.left 1) := rfl

theorem lf (d : Display) : Plays d [10] d.lf := rfl

theorem cr (d : Display) : Plays d [13] d.cr := rfl

theorem write {ch : UInt8} (h : Printable ch) (d : Display) : Plays d [ch] (d.write ch) := by
  have hesc : ch ≠ 27 := by rintro rfl; simp [Printable] at h
  have hbs : ch ≠ 8 := by rintro rfl; simp [Printable] at h
  have hlf : ch ≠ 10 := by rintro rfl; simp [Printable] at h
  have hcr : ch ≠ 13 := by rintro rfl; simp [Printable] at h
  simp [Plays, feed, step, h, hesc, hbs, hlf, hcr]

/-- Line feeds at the bottom. -/
theorem lfs (d : Display) (n : Nat) (hrow : d.row + 1 = d.lines) :
    ∃ cell, Plays d (List.replicate n 10) { d with cell := cell } ∧
      ∀ r < d.lines, ∀ c, cell r c = d.scrolled n r c := by
  induction n with
  | zero =>
      refine ⟨d.cell, nil d, fun r hr c => ?_⟩
      simp [Display.scrolled, hr]
  | succ n ih =>
      obtain ⟨cell, hplays, hcell⟩ := ih
      rw [List.replicate_succ']
      have hstep := hplays.append (lf _)
      simp only [Display.lf, hrow, Nat.lt_irrefl, if_false] at hstep
      refine ⟨_, hstep, fun r hr c => ?_⟩
      have hblank : Display.blank { d with cell := cell } = d.blank := rfl
      have hnext := hcell (r + 1)
      simp only [hblank, Display.scrolled] at hnext ⊢
      grind

/-- Backspaces. -/
theorem backs (d : Display) (n : Nat) (h : n ≤ d.col) (hcol : d.sticky → d.col < d.columns) :
    Plays d (List.replicate n 8) { d with col := d.col - n } := by
  induction n with
  | zero => exact nil d
  | succ n ih =>
      have hstep := (ih (by omega)).append (back _)
      have hleft : Display.left { d with col := d.col - n } 1 =
          { d with col := d.col - (n + 1) } := by
        simp only [Display.left]
        grind
      rwa [List.replicate_succ', ← hleft]

/-- Characters that fit in the row. -/
theorem writes (d : Display) {chs : List UInt8} (h : ∀ ch ∈ chs, Printable ch)
    (hfit : d.col + chs.length ≤ d.columns) :
    Plays d chs { d with
      col := d.col + chs.length
      cell := fun r c =>
        if r = d.row ∧ d.col ≤ c ∧ c < d.col + chs.length then
          ⟨chs.getD (c - d.col) 0, d.mode, d.color⟩
        else d.cell r c } := by
  induction chs generalizing d with
  | nil =>
      have hnone : ∀ c, ¬ (d.col ≤ c ∧ c < d.col + 0) := by omega
      simp only [List.length_nil, hnone, and_false, if_false]
      exact nil d
  | cons ch chs ih =>
      rw [List.length_cons] at hfit
      have hcol : d.col < d.columns := by omega
      have hfirst := write (h ch List.mem_cons_self) d
      have hrest := ih (d.write ch) (fun c hc => h c (List.mem_cons_of_mem _ hc))
        (by simp only [Display.write, hcol, if_true]; omega)
      have hall := hfirst.append hrest
      simp only [Display.write, hcol, if_true] at hall
      rw [List.singleton_append] at hall
      convert hall using 1
      ext1 <;> try rfl
      · funext r c
        by_cases hc : c = d.col
        · have hget : (ch :: chs).getD (c - d.col) 0 = ch := by
            rw [hc, Nat.sub_self, List.getD_cons_zero]
          simp only [List.length_cons, hget]
          grind
        · have hget : d.col < c → (ch :: chs).getD (c - d.col) 0 = chs.getD (c - (d.col + 1)) 0 := by
            intro hlt
            rw [show c - d.col = c - (d.col + 1) + 1 by omega, List.getD_cons_succ]
          simp only [List.length_cons, hc, and_false, if_false]
          grind
      · simp only [List.length_cons]
        omega

/-! ### Control sequences -/

/-- The digits spell the number. -/
def Spells (ds : List UInt8) (n : Nat) : Prop :=
  (∀ ch ∈ ds, IsDigit ch) ∧ ds.foldl addDigit 0 = n

theorem feed_digits (d : Display) {ds : List UInt8} (h : ∀ ch ∈ ds, IsDigit ch) (n : Nat)
    (args : List Nat) :
    feed (d, .numbers (n :: args)) ds = (d, .numbers (ds.foldl addDigit n :: args)) := by
  induction ds generalizing n with
  | nil => rfl
  | cons ch ds ih =>
      have hch := h ch List.mem_cons_self
      rw [feed_cons, step, if_pos hch]
      simpa using ih (fun c hc => h c (List.mem_cons_of_mem _ hc)) (addDigit n ch)

/-- Numbers set apart by semicolons. -/
def separated : List (List UInt8) → List UInt8
  | [] => []
  | [ds] => ds
  | ds :: rest => ds ++ 59 :: separated rest

theorem feed_separated (d : Display) {dss : List (List UInt8)} {ns : List Nat}
    (h : List.Forall₂ Spells dss ns) (hne : dss ≠ []) (args : List Nat) :
    feed (d, .numbers (0 :: args)) (separated dss) = (d, .numbers (ns.reverse ++ args)) := by
  induction h generalizing args with
  | nil => contradiction
  | @cons ds n dss ns hds hdss ih =>
      cases hdss with
      | nil => simp [separated, feed_digits d hds.1, hds.2]
      | cons hds' hdss' =>
          have hsemi : ¬ IsDigit 59 := by simp [IsDigit]
          rw [separated, feed_append, feed_digits d hds.1, hds.2, feed_cons, step, if_neg hsemi,
            if_pos rfl, ih (by simp)]
          · simp
          · simp

/-- A whole sequence: its numbers reach the display with its last character. -/
theorem sequence {dss : List (List UInt8)} {ns : List Nat} (h : List.Forall₂ Spells dss ns)
    (hne : dss ≠ []) (fin : UInt8) (hdigit : ¬ IsDigit fin) (hsemi : fin ≠ 59)
    (d : Display) : Plays d (27 :: 91 :: (separated dss ++ [fin])) (d.control ns fin) := by
  have hstart : feed (d, .ground) (27 :: 91 :: (separated dss ++ [fin])) =
      feed (d, .numbers [0]) (separated dss ++ [fin]) := rfl
  rw [Plays, hstart, feed_append, feed_separated d h hne]
  simp [feed, step, hdigit, hsemi]

/-- A sequence of one number. -/
theorem sequence₁ {ds : List UInt8} {n : Nat} (h : Spells ds n) (fin : UInt8)
    (hdigit : ¬ IsDigit fin) (hsemi : fin ≠ 59) (d : Display) :
    Plays d (27 :: 91 :: (ds ++ [fin])) (d.control [n] fin) :=
  sequence (.cons h .nil) (by simp) fin hdigit hsemi d

end Plays

end Vt
