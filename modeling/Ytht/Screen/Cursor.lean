import Mathlib.Tactic.IntervalCases
import Ytht.Screen.Picture

/-!
# Screen.Cursor

What `rel_move` and `rel_changemodecolor` do to the terminal.

Each has one theorem about all its branches, `relMove_spec` and `relChangemodecolor_spec`: the
bytes it sends take the terminal's cursor, or its pen, where it was told to, from what the program
knows of it.
-/

namespace Ytht.Screen

open Vt (Mode Color Cell Display Plays Printable)
open Vt.Plays (Spells)

/-! ## What a cell looks like -/

/-- The colour the terminal is told; without `DEF_COLOR` it is told of none. -/
def told (on : Bool) (c : Color) : Color := if on then c else .plain

/-- What the terminal has where a cell was written. -/
def written (on : Bool) (b : Cell) : Cell := ⟨b.data, b.mode, told on b.color⟩

/-- The terminal's cell `t` looks like the cell `b` of the picture: it was written there, or both
are blanks, with the same background and the same attributes up to the bright one. -/
def Alike (on : Bool) (b t : Cell) : Prop :=
  t = written on b ∨
    b.data = 32 ∧ t.data = 32 ∧ dim b.mode = dim t.mode ∧ (told on b.color).bg = t.color.bg

/-- A colour that the text can have: its foreground is known. -/
def Known (c : Color) : Prop := c.fg < 8 ∧ c.bg ≤ 8

/-- A cell that can be written. -/
structure Proper (b : Cell) : Prop where
  data : Printable b.data
  color : Known b.color

/-- The terminal's pen is the one that `tc_mode` and `tc_color` say, except for a foreground that
is taken as not known. -/
structure Penned (s : Screen) (d : Display) : Prop where
  mode : d.mode = s.tcMode
  bg : d.color.bg = (told s.defColor s.tcColor).bg
  fg : d.color.fg = (told s.defColor s.tcColor).fg ∨ s.defColor = true ∧ s.tcColor.fg = 8

theorem Proper.ne_zero {b : Cell} (h : Proper b) : b.data ≠ 0 := by
  have hdata := h.data.1
  rintro hzero
  simp [hzero] at hdata

/-! ## Sequences -/

theorem spells_nil : Spells [] 0 := ⟨by simp, rfl⟩

theorem isDigit_iff (ch : UInt8) : Vt.IsDigit ch ↔ isdigit ch = true := by
  simp [Vt.IsDigit, isdigit, UInt8.le_iff_toNat_le]

theorem spells_decimal (n : Nat) : Spells (decimal n) n := by
  have hdigits := isdigit_decimal n
  have hvalue := digitsValue_decimal n
  rw [digitsValue, List.takeWhile_eq_self_iff.mpr hdigits] at hvalue
  exact ⟨fun ch hch => (isDigit_iff ch).mpr (hdigits ch hch), hvalue⟩

theorem plays_csi (n : Nat) (fin : UInt8) (hfin : fin = 65 ∨ fin = 66 ∨ fin = 67 ∨ fin = 68)
    (d : Display) : Plays d (csi n fin) (d.control [n] fin) := by
  have hdigit : ¬ Vt.IsDigit fin := by
    obtain rfl | rfl | rfl | rfl := hfin <;> simp [Vt.IsDigit]
  have hsemi : fin ≠ 59 := by
    obtain rfl | rfl | rfl | rfl := hfin <;> simp
  rw [csi]
  by_cases h1 : n = 1
  · have hone : d.control [n] fin = d.control [0] fin := by
      obtain rfl | rfl | rfl | rfl := hfin <;> simp [Display.control, h1]
    rw [if_pos h1, hone]
    exact Plays.sequence₁ spells_nil fin hdigit hsemi d
  · rw [if_neg h1]
    exact Plays.sequence₁ (spells_decimal n) fin hdigit hsemi d

theorem plays_goto (destcol destline : Nat) (d : Display) :
    Plays d (27 :: 91 :: (decimal (destline + 1) ++ 59 :: (decimal (destcol + 1) ++ [72])))
      (d.goto (destline + 1) (destcol + 1)) := by
  have hboth := List.Forall₂.cons (spells_decimal (destline + 1))
    (.cons (spells_decimal (destcol + 1)) .nil)
  have hseq := Plays.sequence hboth (by simp) 72 (by simp [Vt.IsDigit]) (by simp) d
  simpa [Vt.Plays.separated, Display.control] using hseq

/-! ## The cursor -/

variable {s : Screen} {d : Display}

/-- `s'` is `s` after the terminal's cursor was sent to a row and a column.  Of the terminal's
cells at most some of that row were written, as the picture has them. -/
def Moved (s : Screen) (d : Display) (row col : Nat) (s' : Screen) : Prop :=
  ∃ color bytes cell,
    s' = { s with tcColor := color, out := s.out ++ bytes } ∧
    Plays d bytes { d with row := row, col := col, cell := cell } ∧
    (color = s.tcColor ∨ color = { s.tcColor with fg := 8 }) ∧
    ∀ r c, cell r c = d.cell r c ∨
      r = row ∧ c < col ∧ cell r c = written s.defColor ((s.line row).cell c)

theorem forgetFg_eq (s : Screen) : ∃ color, s.forgetFg = { s with tcColor := color } ∧
    (color = s.tcColor ∨ color = { s.tcColor with fg := 8 }) := by
  unfold forgetFg
  split
  · exact ⟨_, rfl, .inr rfl⟩
  · exact ⟨_, rfl, .inl rfl⟩

theorem foldl_ochar (s : Screen) (c : UInt8) (n : Nat) :
    (List.range n).foldl (fun s _ => s.ochar c) s =
      { s with out := s.out ++ List.replicate n c } := by
  induction n with
  | zero => simp
  | succ n ih =>
      rw [List.range_succ, List.foldl_append, ih]
      simp [ochar, List.replicate_succ']

theorem rewrite_eq (s : Screen) (q lo hi : Nat)
    (h : ∀ k, lo ≤ k → k < hi → ((s.bigPicture q).cell k).data ≠ 0) :
    s.rewrite q lo hi = { s with
      out := s.out ++ (List.range' lo (hi - lo)).map fun k => ((s.bigPicture q).cell k).data } := by
  have hgen : ∀ (ks : List Nat) (s : Screen), (∀ k ∈ ks, ((s.bigPicture q).cell k).data ≠ 0) →
      ks.foldl (fun s i => let c := ((s.bigPicture q).cell i).data
        s.ochar (if c = 0 then 32 else c)) s =
      { s with out := s.out ++ ks.map fun k => ((s.bigPicture q).cell k).data } := by
    intro ks
    induction ks with
    | nil => simp
    | cons k ks ih =>
        intro s hks
        have hrest := ih (s.ochar ((s.bigPicture q).cell k).data)
          fun i hi => hks i (List.mem_cons_of_mem _ hi)
        simp only [List.foldl_cons, hks k List.mem_cons_self, if_false, hrest]
        simp [ochar]
  refine hgen _ s fun k hk => ?_
  obtain ⟨hlo, hhi⟩ := List.mem_range'_1.mp hk
  exact h k hlo (by omega)

theorem penned_iff (s : Screen) (q lo hi : Nat) : s.penned q lo hi = true ↔
    ∀ k, lo ≤ k → k < hi → ((s.bigPicture q).cell k).color = s.tcColor ∧
      ((s.bigPicture q).cell k).mode = s.tcMode := by
  simp only [penned, List.all_eq_true, List.mem_range'_1, Bool.and_eq_true, beq_iff_eq]
  refine ⟨fun h k hlo hhi => h k ⟨hlo, by omega⟩, fun h k hk => h k hk.1 (by omega)⟩

/-- Writing cells that have the pen's mode and colour. -/
theorem plays_rewrite (hpen : Penned s d) (hcols : d.columns = s.scrCols) {q lo hi : Nat}
    (hproper : ∀ k, lo ≤ k → k < hi → Proper ((s.bigPicture q).cell k))
    (hp : s.penned q lo hi = true) (hcol : d.col = lo) (hle : lo ≤ hi) (hhi : hi ≤ s.scrCols) :
    ∃ cell, Plays d ((List.range' lo (hi - lo)).map fun k => ((s.bigPicture q).cell k).data)
        { d with col := hi, cell := cell } ∧
      ∀ r c, cell r c = d.cell r c ∨
        r = d.row ∧ c < hi ∧ cell r c = written s.defColor ((s.bigPicture q).cell c) := by
  have hprint : ∀ ch ∈ (List.range' lo (hi - lo)).map fun k => ((s.bigPicture q).cell k).data,
      Printable ch := by
    intro ch hch
    obtain ⟨k, hk, rfl⟩ := List.mem_map.mp hch
    obtain ⟨hlo, hlt⟩ := List.mem_range'_1.mp hk
    exact (hproper k hlo (by omega)).data
  have hplays := Plays.writes d hprint (by simp; omega)
  have hend : d.col + (List.range' lo (hi - lo)).length = hi := by simp; omega
  simp only [List.length_map, hend] at hplays
  refine ⟨_, hplays, fun r c => ?_⟩
  by_cases hin : r = d.row ∧ d.col ≤ c ∧ c < hi
  · right
    refine ⟨hin.1, hin.2.2, ?_⟩
    obtain ⟨hcolor, hmode⟩ := (penned_iff s q lo hi).mp hp c (by omega) hin.2.2
    have hfg := (hproper c (by omega) hin.2.2).color.1
    have hdata : ((List.range' lo (hi - lo)).map fun k => ((s.bigPicture q).cell k).data).getD
        (c - d.col) 0 = ((s.bigPicture q).cell c).data := by
      have hidx : c - d.col < hi - lo := by omega
      have hback : lo + (c - d.col) = c := by omega
      simp [List.getD_eq_getElem?_getD, hidx, hback]
    have hpencolor : d.color = told s.defColor s.tcColor := by
      have hknown : ¬ (s.defColor = true ∧ s.tcColor.fg = 8) := by
        rw [← hcolor]
        omega
      have hfgeq := hpen.fg.resolve_right hknown
      have hbgeq := hpen.bg
      cases hd : d.color with
      | mk fg bg => rw [hd] at hfgeq hbgeq; simp_all
    rw [if_pos hin, hdata, written, hcolor, hmode, hpen.mode, hpencolor]
  · left
    rw [if_neg hin]

/-- A move that writes nothing. -/
theorem Moved.of_plays {row col : Nat} {s' : Screen} {color : Color} (bytes : List UInt8)
    (hs : s' = { s with tcColor := color, out := s.out ++ bytes })
    (hplays : Plays d bytes { d with row := row, col := col })
    (hcolor : color = s.tcColor ∨ color = { s.tcColor with fg := 8 }) : Moved s d row col s' :=
  ⟨color, bytes, d.cell, hs, hplays, hcolor, fun _ _ => .inl rfl⟩

/-- Up or down, and to column 0 if the cursor is not known to be there. -/
theorem Moved.vertical {wasCol row col : Nat} {bytes : List UInt8}
    (hplays : Plays d bytes { d with row := row })
    (hat : d.col = wasCol ∨ col = 0 ∧ wasCol ≠ 0) (hcol : col = wasCol ∨ col = 0) :
    Moved s d row col
      (if col = 0 ∧ wasCol ≠ 0 then (s.forgetFg.output bytes).ochar 13
        else s.forgetFg.output bytes) := by
  obtain ⟨color, hforget, hcolor⟩ := forgetFg_eq s
  rw [hforget]
  by_cases h : col = 0 ∧ wasCol ≠ 0
  · rw [if_pos h]
    refine .of_plays (bytes ++ [13]) ?_ ?_ hcolor
    · simp [output, ochar]
    · have hcr := hplays.append (Plays.cr _)
      simpa [Display.cr, h.1] using hcr
  · rw [if_neg h]
    refine .of_plays _ rfl ?_ hcolor
    have hsame : d.col = col := by grind
    rw [← hsame]
    exact hplays

theorem lf_eq (h : d.row + 1 < d.lines) : d.lf = { d with row := d.row + 1 } := by
  simp [Display.lf, h]

/-- The moves of `rel_move`: the cursor gets there from where it is known to be, and to column 0
from any column of its row, unless it is known to be there. -/
theorem moveTo_spec (hpen : Penned s d) (hlines : d.lines = s.scrLns) (hcols : d.columns = s.scrCols)
    {wasCol wasLn row col : Nat} (hrow : row < s.scrLns) (hcol : col < s.scrCols)
    (hproper : ∀ k < s.scrCols, Proper ((s.line row).cell k)) (hline : d.row = wasLn)
    (hat : d.col = wasCol ∨ col = 0 ∧ wasCol ≠ 0)
    (hmargin : d.sticky = true → wasLn = row → col ≠ 0 → wasCol < s.scrCols) :
    Moved s d row col (s.moveTo wasCol wasLn col row) := by
  obtain ⟨color, hforget, hcolor⟩ := forgetFg_eq s
  unfold moveTo
  by_cases h1 : col = 0 ∧ row = wasLn + 1
  · have hlf : ∀ c, Display.lf { d with col := c } = { d with row := row, col := c } := by
      intro c
      rw [lf_eq (by simp only [hline]; omega)]
      simp only [h1.2, hline]
    rw [if_pos h1, hforget]
    by_cases hzero : wasCol ≠ 0
    · refine .of_plays [13, 10] (by simp [ochar, hzero]) ?_ hcolor
      have hplays := (Plays.cr d).append (Plays.lf _)
      rw [Display.cr, hlf 0] at hplays
      rwa [h1.1]
    · refine .of_plays [10] (by simp [ochar, hzero]) ?_ hcolor
      have hhere : d.col = col := by grind
      have hplays := Plays.lf d
      rwa [← hhere, ← hlf d.col]
  rw [if_neg h1]
  by_cases h2 : col = 0 ∧ row = wasLn
  · rw [if_pos h2]
    refine .of_plays _ rfl ?_ (.inl rfl)
    simpa [Display.cr, h2, hline] using Plays.cr d
  rw [if_neg h2]
  -- within the row the column is known, because it is not column 0 that is asked for
  have hsame : row = wasLn → d.col = wasCol ∧ d.row = row ∧ (d.sticky = true → wasCol < s.scrCols) := by
    grind
  by_cases h3 : col < wasCol ∧ wasCol ≤ col + 5 ∧ row = wasLn
  · obtain ⟨hwas, hhere, hfit⟩ := hsame h3.2.2
    rw [if_pos h3, backspaces, foldl_ochar]
    have hplays := Plays.backs d (wasCol - col) (by omega) (by grind)
    refine .of_plays _ rfl ?_ (.inl rfl)
    have hend : d.col - (wasCol - col) = col := by omega
    rw [hend] at hplays
    rwa [← hhere]
  rw [if_neg h3]
  by_cases h4 : (row = wasLn ∧ wasCol < col ∧ col ≤ wasCol + 5) ∧
      s.penned (s.ring row) wasCol col = true
  · obtain ⟨hwas, rfl, -⟩ := hsame h4.1.1
    have hin : ∀ k, wasCol ≤ k → k < col → Proper ((s.bigPicture (s.ring d.row)).cell k) :=
      fun k _ hk => hproper k (by omega)
    obtain ⟨cell, hplays, hcell⟩ := plays_rewrite hpen hcols hin h4.2 hwas (by omega) (by omega)
    rw [if_pos h4, rewrite_eq _ _ _ _ fun k hlo hhi => (hin k hlo hhi).ne_zero]
    refine ⟨_, _, cell, rfl, hplays, .inl rfl, ?_⟩
    grind [Screen.line]
  rw [if_neg h4]
  by_cases h5 : row = wasLn ∧ wasCol < col
  · obtain ⟨hwas, hhere, -⟩ := hsame h5.1
    rw [if_pos h5]
    refine .of_plays _ rfl ?_ (.inl rfl)
    have hplays := plays_csi (col - wasCol) 67 (by simp) d
    have hend : d.control [col - wasCol] 67 = { d with row := row, col := col } := by
      simp [Display.control, Display.right, hhere]
      omega
    rwa [← hend]
  rw [if_neg h5]
  by_cases h6 : row = wasLn ∧ col < wasCol
  · obtain ⟨hwas, hhere, hfit⟩ := hsame h6.1
    rw [if_pos h6]
    refine .of_plays _ rfl ?_ (.inl rfl)
    have hplays := plays_csi (wasCol - col) 68 (by simp) d
    have hend : d.control [wasCol - col] 68 = { d with row := row, col := col } := by
      simp [Display.control, Display.left, hhere]
      grind
    rwa [← hend]
  rw [if_neg h6]
  by_cases h7 : (col = wasCol ∨ col = 0) ∧ wasLn < row
  · rw [if_pos h7]
    refine .vertical ?_ hat h7.1
    have hplays := plays_csi (row - wasLn) 66 (by simp) d
    have hend : d.control [row - wasLn] 66 = { d with row := row } := by
      simp [Display.control, Display.down]
      omega
    rwa [← hend]
  rw [if_neg h7]
  by_cases h8 : (col = wasCol ∨ col = 0) ∧ row < wasLn
  · rw [if_pos h8]
    refine .vertical ?_ hat h8.1
    have hplays := plays_csi (wasLn - row) 65 (by simp) d
    have hend : d.control [wasLn - row] 65 = { d with row := row } := by
      simp [Display.control, Display.up]
      omega
    rwa [← hend]
  rw [if_neg h8]
  by_cases h9 : (row = wasLn + 1 ∧ col ≤ 5) ∧ s.penned (s.ring row) 0 col = true
  · have hlf : ∀ c, Display.lf { d with col := c } = { d with row := row, col := c } := by
      intro c
      rw [lf_eq (by simp only [hline]; omega)]
      simp only [h9.1.1, hline]
    have hin : ∀ k, 0 ≤ k → k < col → Proper ((s.bigPicture (s.ring row)).cell k) :=
      fun k _ hk => hproper k (by omega)
    have hpen' : Penned s { d with row := row, col := 0 } := ⟨hpen.mode, hpen.bg, hpen.fg⟩
    obtain ⟨cell, hplays, hcell⟩ :=
      plays_rewrite hpen' hcols hin h9.2 rfl (Nat.zero_le col) (by omega)
    obtain ⟨color, hforget, hcolor⟩ := forgetFg_eq (s.ochar 10)
    have hdata : ∀ k, 0 ≤ k → k < col → ((s.bigPicture (s.ring row)).cell k).data ≠ 0 :=
      fun k hlo hhi => (hin k hlo hhi).ne_zero
    rw [if_pos h9, hforget]
    dsimp only
    by_cases hzero : wasCol ≠ 0
    · rw [if_pos hzero, rewrite_eq _ (s.ring row) 0 col (by exact hdata)]
      refine ⟨color, [10] ++ [13] ++ _, cell, by simp [ochar]; rfl, ?_, hcolor, by grind [Screen.line]⟩
      have hdown := (Plays.lf d).append (Plays.cr _)
      have hlfcol := hlf d.col
      simp only [Display.cr] at hdown hlfcol
      rw [hlfcol] at hdown
      exact hdown.append hplays
    · rw [if_neg hzero, rewrite_eq _ (s.ring row) 0 col (by exact hdata)]
      refine ⟨color, [10] ++ _, cell, by simp [ochar]; rfl, ?_, hcolor, by grind [Screen.line]⟩
      have hdown := Plays.lf d
      have hlfcol : d.lf = { d with row := row, col := d.col } := hlf d.col
      have hhere : d.col = 0 := by grind
      rw [hlfcol, hhere] at hdown
      exact hdown.append hplays
  · rw [if_neg h9]
    refine .of_plays _ rfl ?_ (.inl rfl)
    have hend : d.goto (row + 1) (col + 1) = { d with row := row, col := col } := by
      simp [Display.goto]
      omega
    rw [← hend]
    exact plays_goto col row d

/-! ## The pen -/

theorem render_fg {n : Nat} (h : n < 8) (d : Display) :
    d.render (30 + n) = { d with color := { d.color with fg := n } } := by
  interval_cases n <;> rfl

theorem render_bg {n : Nat} (hpos : 0 < n) (h : n ≤ 8) (d : Display) :
    d.render (if n = 8 then 40 else 40 + n) = { d with color := { d.color with bg := n } } := by
  interval_cases n <;> rfl

theorem told_fg (on : Bool) (c : Color) : (told on c).fg = if on then c.fg else 7 := by
  cases on <;> rfl

theorem told_bg (on : Bool) (c : Color) : (told on c).bg = if on then c.bg else 0 := by
  cases on <;> rfl

/-- An attribute that is to be on, and may be on already: number `n` sets it. -/
theorem render_flag (n : Nat) (get : Mode → Bool) (set : Bool → Mode → Mode)
    (hrender : ∀ d : Display, d.render n = { d with mode := set true d.mode })
    (hset : ∀ m, set (get m) m = m) {t m : Bool} (hsub : m = false → t = false) {d : Display}
    (ht : get d.mode = t) :
    (if !t && m then [n] else []).foldl Display.render d = { d with mode := set m d.mode } := by
  have hsame := hset d.mode
  rw [ht] at hsame
  cases t <;> cases m <;> simp_all

/-- What holds when nothing has to go. -/
theorem mustReset_eq_false {mode : Mode} {color : Color} (h : s.mustReset mode color = false) :
    (mode.bright = false → s.tcMode.bright = false) ∧
      (mode.underline = false → s.tcMode.underline = false) ∧
      (mode.blink = false → s.tcMode.blink = false) ∧
      (mode.reverse = false → s.tcMode.reverse = false) ∧
      (color.bg = 0 → s.tcColor.bg = 0) := by
  simp only [mustReset] at h
  grind

/-- The numbers of `stack` change the pen to the mode and the colour, when no attribute and no
background has to go. -/
theorem render_stack (hpen : Penned s d) {mode : Mode} {color : Color} (hknown : Known color)
    (hreset : s.mustReset mode color = false) :
    (stack s.tcMode mode s.tcColor color s.defColor).foldl Display.render d =
      { d with mode := mode, color := told s.defColor color } := by
  obtain ⟨hmode, hbg, hfg⟩ := hpen
  obtain ⟨hkfg, hkbg⟩ := hknown
  obtain ⟨hbright, hline, hblink, hback, hground⟩ := mustReset_eq_false hreset
  have hflags : (if !s.tcMode.reverse && mode.reverse then [7] else []).foldl Display.render
      ((if !s.tcMode.blink && mode.blink then [5] else []).foldl Display.render
        ((if !s.tcMode.underline && mode.underline then [4] else []).foldl Display.render
          ((if !s.tcMode.bright && mode.bright then [1] else []).foldl Display.render d))) =
      { d with mode := mode } := by
    rw [render_flag 1 Mode.bright (fun b m => { m with bright := b })
        (fun _ => rfl) (fun _ => rfl) hbright (by rw [hmode]),
      render_flag 4 Mode.underline (fun b m => { m with underline := b })
        (fun _ => rfl) (fun _ => rfl) hline (by rw [hmode]),
      render_flag 5 Mode.blink (fun b m => { m with blink := b })
        (fun _ => rfl) (fun _ => rfl) hblink (by rw [hmode]),
      render_flag 7 Mode.reverse (fun b m => { m with reverse := b })
        (fun _ => rfl) (fun _ => rfl) hback (by rw [hmode])]
  have hfgs : (if s.tcColor.fg ≠ color.fg ∧ s.defColor then [30 + color.fg] else []).foldl
      Display.render { d with mode := mode } =
      { d with mode := mode, color := { d.color with fg := (told s.defColor color).fg } } := by
    rw [told_fg] at hfg ⊢
    by_cases hset : s.tcColor.fg ≠ color.fg ∧ s.defColor = true
    · rw [if_pos hset, List.foldl_cons, render_fg hkfg, if_pos hset.2]
      rfl
    · have hfgeq : d.color.fg = if s.defColor = true then color.fg else 7 := by grind
      rw [if_neg hset, ← hfgeq]
      rfl
  have hbgs : (if s.tcColor.bg ≠ color.bg ∧ s.defColor then
      [if color.bg = 8 then 40 else 40 + color.bg] else []).foldl Display.render
        { d with mode := mode, color := { d.color with fg := (told s.defColor color).fg } } =
      { d with mode := mode, color := told s.defColor color } := by
    by_cases hset : s.tcColor.bg ≠ color.bg ∧ s.defColor = true
    · have hpos : 0 < color.bg := by grind
      rw [if_pos hset, List.foldl_cons, render_bg hpos hkbg, told, if_pos hset.2]
      rfl
    · have hbgeq : d.color.bg = (told s.defColor color).bg := by
        rw [told_bg] at hbg ⊢
        grind
      rw [if_neg hset]
      simp only [List.foldl_nil, hbgeq]
  rw [stack]
  simp only [List.foldl_append]
  rw [hflags, hfgs, hbgs]

/-- `rel_changemodecolor` -/
theorem relChangemodecolor_spec (hpen : Penned s d) (mode : Mode) {color : Color}
    (hknown : Known color) : ∃ bytes,
    s.relChangemodecolor mode color =
      { s with tcMode := mode, tcColor := color, out := s.out ++ bytes } ∧
    Plays d bytes { d with mode := mode, color := told s.defColor color } := by
  have hafter : ∀ (t : Screen) (e : Display), Penned t e → t.mustReset mode color = false →
      ∃ bytes,
        (let st := stack t.tcMode mode t.tcColor color t.defColor
         let t := { t with tcMode := joinMode t.tcMode mode, tcColor := color }
         if st = [] then t else t.output (27 :: 91 :: (Plays.separated (st.map decimal) ++ [109]))) =
          { t with tcMode := mode, tcColor := color, out := t.out ++ bytes } ∧
        Plays e bytes { e with mode := mode, color := told t.defColor color } := by
    intro t e hpen hreset
    have hjoin : joinMode t.tcMode mode = mode := by
      obtain ⟨hbright, hline, hblink, hback, -⟩ := mustReset_eq_false hreset
      have hor : ∀ {t m : Bool}, (m = false → t = false) → (t || m) = m := by
        intro t m h
        cases t <;> cases m <;> simp_all
      simp only [joinMode, hor hbright, hor hline, hor hblink, hor hback]
    have hrender := render_stack hpen hknown hreset
    dsimp only
    rw [hjoin]
    by_cases hst : stack t.tcMode mode t.tcColor color t.defColor = []
    · rw [if_pos hst]
      rw [hst] at hrender
      exact ⟨[], by simp, by rw [← hrender]; exact Plays.nil e⟩
    · rw [if_neg hst]
      refine ⟨_, rfl, ?_⟩
      rw [← hrender]
      have hspell : List.Forall₂ Spells ((stack t.tcMode mode t.tcColor color t.defColor).map decimal)
          (stack t.tcMode mode t.tcColor color t.defColor) := by
        rw [List.forall₂_map_left_iff]
        exact List.forall₂_same.mpr fun n _ => spells_decimal n
      have hseq := Plays.sequence hspell (by simpa using hst) 109 (by simp [Vt.IsDigit])
        (by simp) e
      simpa [Display.control] using hseq
  unfold relChangemodecolor
  by_cases hreset : s.mustReset mode color = true
  · have hplain : Penned (({ s with tcMode := .plain, tcColor := .plain }).output [27, 91, 109])
        { d with mode := .plain, color := .plain } :=
      ⟨rfl, by simp [told_bg, output, Color.plain], .inl (by simp [told_fg, output, Color.plain])⟩
    have hplays : Plays d [27, 91, 109] { d with mode := .plain, color := .plain } :=
      Plays.sequence₁ spells_nil _ (by simp [Vt.IsDigit]) (by simp) d
    obtain ⟨bytes, hs, hrest⟩ := hafter _ _ hplain (by simp [mustReset, output, Mode.plain, Color.plain])
    rw [if_pos hreset]
    refine ⟨[27, 91, 109] ++ bytes, ?_, hplays.append hrest⟩
    rw [hs]
    simp [output]
  · rw [if_neg hreset]
    exact hafter s d hpen (by simpa using hreset)

/-- `rel_move` -/
theorem relMove_spec (hpen : Penned s d) (hlines : d.lines = s.scrLns) (hcols : d.columns = s.scrCols)
    {row col : Nat} (hrow : row < s.scrLns) (hcol : col ≤ s.scrCols) (hpos : 0 < s.scrCols)
    (hproper : ∀ k < s.scrCols, Proper ((s.line row).cell k)) (hline : d.row = s.tcLine)
    (hat : d.col = s.tcCol ∨ col = 0 ∧ s.tcCol ≠ 0)
    (hmargin : d.sticky = true → s.tcLine = row → col ≠ 0 → s.tcCol < s.scrCols) :
    Moved { s with tcCol := min col (s.scrCols - 1), tcLine := row } d row
      (min col (s.scrCols - 1)) (s.relMove s.tcCol s.tcLine col row) := by
  have hcolumn : (if col = s.scrCols then col - 1 else col) = min col (s.scrCols - 1) := by grind
  unfold relMove
  rw [hcolumn]
  dsimp only
  rw [if_neg (by omega)]
  by_cases hsame : s.tcCol = min col (s.scrCols - 1) ∧ s.tcLine = row
  · rw [if_pos hsame, ← hsame.1, ← hsame.2]
    have hhere : d.col = s.tcCol := by omega
    refine .of_plays [] (by simp) ?_ (.inl rfl)
    rw [← hline, ← hhere]
    exact Plays.nil d
  · rw [if_neg hsame]
    have hset : Penned { s with tcCol := min col (s.scrCols - 1), tcLine := row } d :=
      ⟨hpen.mode, hpen.bg, hpen.fg⟩
    have hbelow : min col (s.scrCols - 1) < s.scrCols := by omega
    exact moveTo_spec hset hlines hcols hrow hbelow hproper hline (by omega)
      fun hsticky hsame hne => hmargin hsticky hsame (by omega)

end Ytht.Screen
