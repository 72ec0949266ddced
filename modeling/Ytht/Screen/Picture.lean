import Ytht.Lib.Vt
import Ytht.Ythtlib.Stdio

/-!
# Screen.Picture

The screen of a session, `smth_screen.c`: a picture in memory that the program draws on, and
`refresh`, which sends the terminal as little as it can to make it show the picture.

The picture is a ring of lines (`roll`).  Each cell remembers whether it may differ from the
terminal (`changed`), and the program keeps its own account of the terminal's cursor and pen
(`tcCol`, `tcLine`, `tcMode`, `tcColor`).
-/

namespace Ytht

open Vt (Mode Color Cell)

/-- `struct screenline`; a cell is one place of `data`, `mode` and `color`. -/
structure Screenline where
  cell : Nat → Cell
  changed : Nat → Bool
  lchanged : Bool

/-- The variables of `smth_screen.c`, with `t_lines` and `t_columns` as `init_screen` takes them
over, and what was given to `ochar` and `output` since the start. -/
structure Screen where
  scrLns : Nat
  scrCols : Nat
  curLn : Nat
  curCol : Nat
  roll : Nat
  scrollcnt : Int
  tcCol : Nat
  tcLine : Nat
  tcMode : Mode
  tcColor : Color
  curMode : Mode
  curColor : Color
  defaultCurMode : Mode
  defaultCurColor : Color
  offsetln : Nat
  disableMove : Bool
  savey : Int
  savex : Int
  bigPicture : Nat → Screenline
  /-- `!currentuser || USERDEFINE(currentuser, DEF_COLOR)` -/
  defColor : Bool
  out : List UInt8

namespace Screen

variable (s : Screen)

/-- The index in `big_picture` of the line shown at row `i`. -/
def ring (i : Nat) : Nat := (i + s.roll) % s.scrLns

/-- The line shown at row `i`. -/
def line (i : Nat) : Screenline := s.bigPicture (s.ring i)

def setLine (j : Nat) (l : Screenline) : Screen :=
  { s with bigPicture := fun j' => if j' = j then l else s.bigPicture j' }

/-- A cell of a line that was just cleared. -/
def space : Cell := ⟨32, .plain, .plain⟩

/-- `init_screen` for the first time, with `scols < LINELEN`. -/
def initScreen (slns scols : Nat) (defColor : Bool) : Screen where
  scrLns := slns
  scrCols := scols
  curLn := 0
  curCol := 0
  roll := 0
  scrollcnt := 0
  tcCol := 0
  tcLine := 0
  tcMode := .plain
  tcColor := .plain
  curMode := .plain
  curColor := .plain
  defaultCurMode := .plain
  defaultCurColor := .plain
  offsetln := 0
  disableMove := false
  savey := -1
  savex := -1
  bigPicture := fun _ => ⟨fun _ => space, fun _ => true, true⟩
  defColor := defColor
  out := []

/-! ## Colours of the text -/

def setfcolor (i : Nat) (j : Bool) : Screen :=
  { s with curColor := { s.curColor with fg := i }, curMode := { s.curMode with bright := j } }

def setbcolor (i : Nat) : Screen :=
  { s with curColor := { s.curColor with bg := if i = 0 then 8 else i } }

def setdefaultfcolor (i : Nat) (j : Bool) : Screen :=
  let color := { s.defaultCurColor with fg := i }
  let mode := { s.defaultCurMode with bright := j }
  { s with defaultCurColor := color, defaultCurMode := mode, curColor := color, curMode := mode }

def setdefaultbcolor (i : Nat) : Screen :=
  let color := { s.defaultCurColor with bg := if i = 0 then 8 else i }
  { s with defaultCurColor := color, curColor := color }

/-! ## What is sent -/

def ochar (c : UInt8) : Screen := { s with out := s.out ++ [c] }

def output (bytes : List UInt8) : Screen := { s with out := s.out ++ bytes }

/-- `sprintf(ss, "\033[%d", n)` and the last character, where a count of 1 is left out. -/
def csi (n : Nat) (fin : UInt8) : List UInt8 :=
  27 :: 91 :: ((if n = 1 then [] else decimal n) ++ [fin])

/-- `do_move` -/
def doMove (destcol destline : Nat) : Screen :=
  s.output (27 :: 91 :: (decimal (destline + 1) ++ 59 :: (decimal (destcol + 1) ++ [72])))

/-- `if (tc_color % 16 != 7) tc_color = tc_color / 16 * 16 + 8`: after a new line the foreground
is taken as not known. -/
def forgetFg : Screen :=
  if s.tcColor.fg ≠ 7 then { s with tcColor := { s.tcColor with fg := 8 } } else s

/-- The cells from `lo` to `hi` of line `q` have the pen's mode and colour. -/
def penned (q lo hi : Nat) : Bool :=
  (List.range' lo (hi - lo)).all fun i =>
    ((s.bigPicture q).cell i).color == s.tcColor && ((s.bigPicture q).cell i).mode == s.tcMode

/-- Go forward by writing the cells once more. -/
def rewrite (q lo hi : Nat) : Screen :=
  (List.range' lo (hi - lo)).foldl (fun s i =>
    let c := ((s.bigPicture q).cell i).data
    s.ochar (if c = 0 then 32 else c)) s

/-- `for (i = 0; i < n; i++) ochar(Ctrl('H'))` -/
def backspaces (n : Nat) : Screen := (List.range n).foldl (fun s _ => s.ochar 8) s

/-- `rel_move` behind its first lines: the moves, best first. -/
def moveTo (wasCol wasLn newCol newLn : Nat) : Screen :=
  let q := s.ring newLn
  if newCol = 0 ∧ newLn = wasLn + 1 then
    let s := s.forgetFg
    (if wasCol ≠ 0 then s.ochar 13 else s).ochar 10
  else if newCol = 0 ∧ newLn = wasLn then s.ochar 13
  else if newCol < wasCol ∧ wasCol ≤ newCol + 5 ∧ newLn = wasLn then s.backspaces (wasCol - newCol)
  else if (newLn = wasLn ∧ wasCol < newCol ∧ newCol ≤ wasCol + 5) ∧ s.penned q wasCol newCol then
    s.rewrite q wasCol newCol
  else if newLn = wasLn ∧ wasCol < newCol then s.output (csi (newCol - wasCol) 67)
  else if newLn = wasLn ∧ newCol < wasCol then s.output (csi (wasCol - newCol) 68)
  else if (newCol = wasCol ∨ newCol = 0) ∧ wasLn < newLn then
    let s := s.forgetFg.output (csi (newLn - wasLn) 66)
    if newCol = 0 ∧ wasCol ≠ 0 then s.ochar 13 else s
  else if (newCol = wasCol ∨ newCol = 0) ∧ newLn < wasLn then
    let s := s.forgetFg.output (csi (wasLn - newLn) 65)
    if newCol = 0 ∧ wasCol ≠ 0 then s.ochar 13 else s
  else if (newLn = wasLn + 1 ∧ newCol ≤ 5) ∧ s.penned q 0 newCol then
    let s := (s.ochar 10).forgetFg
    (if wasCol ≠ 0 then s.ochar 13 else s).rewrite q 0 newCol
  else s.doMove newCol newLn

/-- `rel_move` -/
def relMove (wasCol wasLn newCol newLn : Nat) : Screen :=
  let newCol := if newCol = s.scrCols then newCol - 1 else newCol
  if s.scrLns ≤ newLn ∨ s.scrCols ≤ newCol then s
  else if wasCol = newCol ∧ wasLn = newLn then s
  else ({ s with tcCol := newCol, tcLine := newLn }).moveTo wasCol wasLn newCol newLn

/-- The numbers that `rel_changemodecolor` collects in `stack`, and `tc_color` as it is left. -/
def stack (tcMode mode : Mode) (tcColor color : Color) (defColor : Bool) : List Nat :=
  (if !tcMode.bright && mode.bright then [1] else []) ++
  (if !tcMode.underline && mode.underline then [4] else []) ++
  (if !tcMode.blink && mode.blink then [5] else []) ++
  (if !tcMode.reverse && mode.reverse then [7] else []) ++
  (if tcColor.fg ≠ color.fg ∧ defColor then [30 + color.fg] else []) ++
  (if tcColor.bg ≠ color.bg ∧ defColor then [if color.bg = 8 then 40 else 40 + color.bg] else [])

/-- The pen has an attribute or a background that is to go. -/
def mustReset (mode : Mode) (color : Color) : Bool :=
  (!mode.bright && s.tcMode.bright) || (!mode.underline && s.tcMode.underline) ||
  (!mode.blink && s.tcMode.blink) || (!mode.reverse && s.tcMode.reverse) ||
  (s.tcColor.bg != 0 && color.bg == 0)

/-- The flags of `m`, or'ed into those of `tc_mode`. -/
def joinMode (tcMode m : Mode) : Mode :=
  ⟨tcMode.bright || m.bright, tcMode.underline || m.underline, tcMode.blink || m.blink,
    tcMode.reverse || m.reverse⟩

/-- `rel_changemodecolor` -/
def relChangemodecolor (mode : Mode) (color : Color) : Screen :=
  let s :=
    if s.mustReset mode color then
      ({ s with tcMode := .plain, tcColor := .plain }).output [27, 91, 109]
    else s
  let st := stack s.tcMode mode s.tcColor color s.defColor
  let s := { s with tcMode := joinMode s.tcMode mode, tcColor := color }
  if st = [] then s else s.output (27 :: 91 :: (Vt.Plays.separated (st.map decimal) ++ [109]))

/-! ## Drawing -/

def move (y x : Nat) : Screen := { s with curLn := y, curCol := x }

/-- `clear`, with `o_clear`. -/
def clear : Screen :=
  let s :=
    { s with
      bigPicture := fun j => if j < s.scrLns then
        { cell := fun k => if k < s.scrCols then space else (s.bigPicture j).cell k
          changed := fun k => if k < s.scrCols then false else (s.bigPicture j).changed k
          lchanged := false } else s.bigPicture j
      curColor := .plain
      curMode := .plain }
  let s := if s.tcColor ≠ .plain ∨ s.tcMode ≠ .plain then s.output [27, 91, 109] else s
  let s := s.output [27, 91, 72, 27, 91, 74]
  ({ s with tcMode := .plain, tcColor := .plain, tcCol := 0, tcLine := 0 }).move 0 0

/-- The line with its cells from `lo` to `hi` set. -/
def paint (l : Screenline) (lo hi : Nat) (f : Nat → Cell) : Screenline where
  cell := fun k => if lo ≤ k ∧ k < hi then f k else l.cell k
  changed := fun k => if lo ≤ k ∧ k < hi then true else l.changed k
  lchanged := true

/-- A blank of the text's mode and colour. -/
def curBlank : Cell := ⟨32, s.curMode, s.curColor⟩

def clearWholeLine (i : Nat) : Screen :=
  s.setLine (s.ring i) (paint (s.line i) 0 s.scrCols fun _ => s.curBlank)

def clrtoeol : Screen :=
  if s.curCol < s.scrCols then
    s.setLine (s.ring s.curLn) (paint (s.line s.curLn) s.curCol s.scrCols fun _ => s.curBlank)
  else s

def clrtobot : Screen :=
  (List.range' (s.curLn + 1) (s.scrLns - (s.curLn + 1))).foldl (fun s i => s.clearWholeLine i)
    s.clrtoeol

/-- Write one character where the cursor is, in line `ln` of `big_picture`. -/
def putIn (ln : Nat) (c : UInt8) : Screen :=
  if s.curCol < s.scrCols then
    let s := s.setLine ln (paint (s.bigPicture ln) s.curCol (s.curCol + 1) fun _ =>
      ⟨c, s.curMode, s.curColor⟩)
    { s with curCol := s.curCol + 1 }
  else s

/-- `isprint2` -/
def isprint2 (c : UInt8) : Bool := 128 ≤ c || (32 ≤ c && c ≤ 126)

def outc (c : UInt8) : Screen :=
  if ¬ isprint2 c then
    if c = 10 then
      let s := { s.clrtoeol with curCol := 0 }
      if s.curLn < s.scrLns - 1 then { s with curLn := s.curLn + 1 } else s
    else s
  else s.putIn (s.ring s.curLn) c

def scroll : Screen :=
  let roll := if s.scrLns ≤ s.roll + 1 then s.roll + 1 - s.scrLns else s.roll + 1
  let s := ({ s with scrollcnt := s.scrollcnt + 1, roll := roll }).move (s.scrLns - 1) 0
  let l := s.line s.curLn
  s.setLine (s.ring s.curLn)
    { l with changed := fun k => if k < s.scrCols then true else l.changed k, lchanged := true }

def rscroll : Screen :=
  let roll := if 0 < s.roll then s.roll - 1 else s.scrLns - 1
  let s := ({ s with scrollcnt := s.scrollcnt - 1, roll := roll }).move 0 0
  let l := s.line s.curLn
  s.setLine (s.ring s.curLn)
    { l with changed := fun k => if k < s.scrCols then true else l.changed k, lchanged := true }

def noscroll : Screen :=
  { s with bigPicture := fun i => if i < s.scrLns then s.line i else s.bigPicture i, roll := 0 }

/-- `saveline` with `mode` 1: the cells that were saved come back. -/
def restoreLine (line : Nat) (saved : Nat → Cell) : Screen :=
  s.setLine (s.ring line) ⟨saved, fun _ => true, true⟩

/-! ## refresh -/

/-- The terminal catches up with `scroll` and `rscroll`. -/
def sendScroll : Screen :=
  let s :=
    if s.scrollcnt < 0 then
      { (s.relMove s.tcCol s.tcLine 0 0).output (27 :: 91 :: (decimal (-s.scrollcnt).toNat ++ [76]))
        with scrollcnt := 0 }
    else s
  if 0 < s.scrollcnt then
    let s := s.doMove 0 (s.scrLns - 1)
    let s := (List.range s.scrollcnt.toNat).foldl (fun s _ => s.ochar 10) s
    { s with scrollcnt := 0, tcCol := 0, tcLine := s.scrLns - 1 }
  else s

/-- The mode without `SCREEN_BRIGHT`. -/
def dim (m : Mode) : Mode := { m with bright := false }

/-- Where the blanks begin that end a line and look like its last cell. -/
def tailFrom (l : Screenline) (last : Cell) : Nat → Nat
  | 0 => 0
  | ii + 1 =>
      if (l.cell ii).data = 32 ∧ (l.cell ii).color.bg = last.color.bg ∧
          dim (l.cell ii).mode = dim last.mode then
        tailFrom l last ii
      else ii + 1

/-- The cells of row `i`, `n` of them from `k` on; the tail begins at `p` and `count` of its
cells changed. -/
def refreshCells (i j p count : Nat) : Nat → Nat → Screen → Screen
  | 0, _, s => s
  | n + 1, k, s =>
      let l := s.bigPicture j
      if l.changed k = false ∧ (k < p ∨ count < 5) then refreshCells i j p count n (k + 1) s
      else
        let s := if s.tcCol ≠ k then s.relMove s.tcCol s.tcLine k i else s
        let s :=
          if (l.cell k).mode ≠ s.tcMode ∨ (l.cell k).color ≠ s.tcColor then
            s.relChangemodecolor (l.cell k).mode (l.cell k).color
          else s
        if p ≤ k ∧ p + 5 ≤ s.scrCols then
          (s.setLine j { l with
            changed := fun k' => if k ≤ k' ∧ k' < s.scrCols then false else l.changed k' }).output
              [27, 91, 75]
        else
          let s := (s.ochar (l.cell k).data).setLine j
            { l with changed := fun k' => if k' = k then false else l.changed k' }
          refreshCells i j p count n (k + 1) { s with tcCol := s.tcCol + 1 }

/-- One row of `refresh`. -/
def refreshLine (i : Nat) : Screen :=
  let j := s.ring i
  let l := s.bigPicture j
  if l.lchanged then
    let s := s.setLine j { l with lchanged := false }
    let p := tailFrom l (l.cell (s.scrCols - 1)) s.scrCols
    let count := (List.range' p (s.scrCols - p)).countP l.changed
    refreshCells i j p count s.scrCols 0 (s.relMove s.tcCol s.tcLine 0 i)
  else s

/-- `refresh`, which waits when there is input (`num_in_buf() != 0`). -/
def refresh (pending : Bool) : Screen :=
  if pending then s
  else
    let s := s.sendScroll
    let s := (List.range s.scrLns).foldl (fun s i => s.refreshLine i) s
    s.relMove s.tcCol s.tcLine s.curCol s.curLn

/-- Everything is to be sent again. -/
def changeAll : Screen :=
  { s with
    bigPicture := fun j => if j < s.scrLns then
      { s.bigPicture j with
        changed := fun k => if k < s.scrCols then true else (s.bigPicture j).changed k
        lchanged := true } else s.bigPicture j }

def redoscr (pending : Bool) : Screen := (s.changeAll.doMove s.tcCol s.tcLine).refresh pending

end Screen

end Ytht
