import Mathlib.Data.Nat.ModEq
import Ytht.Screen.Cursor

/-!
# Screen.Refresh

`refresh` makes the terminal show the picture.

`Mirror` is what the cells that are not marked promise: the terminal, once it has scrolled, shows
them.  Each step of `refresh` keeps it, and a row that was gone through has no marked cell left.
-/

namespace Ytht.Screen

open Vt (Mode Color Cell Display Plays Printable)

variable {d₀ d : Display} {s : Screen}

/-- The terminal, which was `d₀` and is now `d`, shows every cell that is not marked. -/
structure Mirror (d₀ : Display) (s : Screen) (d : Display) : Prop where
  plays : Plays d₀ s.out d
  lines : d.lines = s.scrLns
  columns : d.columns = s.scrCols
  cols : 0 < s.scrCols
  pen : Penned s d
  proper : ∀ i < s.scrLns, ∀ k < s.scrCols, Proper ((s.line i).cell k)
  alike : ∀ i < s.scrLns, ∀ k < s.scrCols, (s.line i).changed k = false →
    Alike s.defColor ((s.line i).cell k) (d.scrolled s.scrollcnt i k)

theorem ring_inj {i i' : Nat} (hi : i < s.scrLns) (hi' : i' < s.scrLns)
    (h : s.ring i = s.ring i') : i = i' := by
  have hmod : i ≡ i' [MOD s.scrLns] := Nat.ModEq.add_right_cancel' s.roll h
  rwa [Nat.ModEq, Nat.mod_eq_of_lt hi, Nat.mod_eq_of_lt hi'] at hmod

theorem ring_lt (i : Nat) (h : 0 < s.scrLns) : s.ring i < s.scrLns := Nat.mod_lt _ h

theorem scrolled_zero {r : Nat} (h : r < d.lines) (c : Nat) : d.scrolled 0 r c = d.cell r c := by
  simp [Display.scrolled, h]

/-- When nothing is to be scrolled, the terminal's own cells count. -/
theorem Mirror.alike_cell (h : Mirror d₀ s d) (hscroll : s.scrollcnt = 0) {i k : Nat}
    (hi : i < s.scrLns) (hk : k < s.scrCols) (hck : (s.line i).changed k = false) :
    Alike s.defColor ((s.line i).cell k) (d.cell i k) := by
  have halike := h.alike i hi k hk hck
  rwa [hscroll, scrolled_zero (by rw [h.lines]; exact hi)] at halike

theorem Mirror.of_cells (hplays : Plays d₀ s.out d) (hlines : d.lines = s.scrLns)
    (hcolumns : d.columns = s.scrCols) (hcols : 0 < s.scrCols) (hpen : Penned s d)
    (hproper : ∀ i < s.scrLns, ∀ k < s.scrCols, Proper ((s.line i).cell k)) (hscroll : s.scrollcnt = 0)
    (hcell : ∀ i < s.scrLns, ∀ k < s.scrCols, (s.line i).changed k = false →
      Alike s.defColor ((s.line i).cell k) (d.cell i k)) : Mirror d₀ s d := by
  refine ⟨hplays, hlines, hcolumns, hcols, hpen, hproper, fun i hi k hk hck => ?_⟩
  rw [hscroll, scrolled_zero (by rw [hlines]; exact hi)]
  exact hcell i hi k hk hck

@[simp] theorem setLine_self (j : Nat) (l : Screenline) : (s.setLine j l).bigPicture j = l := by
  simp [setLine]

theorem setLine_of_ne {j j' : Nat} (h : j' ≠ j) (l : Screenline) :
    (s.setLine j l).bigPicture j' = s.bigPicture j' := by
  simp [setLine, h]

/-- What `refresh` leaves as it is; of the lines it may change line `j`, and not the cells. -/
def Sent (j : Nat) (s s' : Screen) : Prop :=
  ∃ bigPicture tcCol tcLine tcMode tcColor out,
    s' = { s with
      bigPicture := bigPicture, tcCol := tcCol, tcLine := tcLine, tcMode := tcMode,
      tcColor := tcColor, out := out } ∧
    (∀ j', (bigPicture j').cell = (s.bigPicture j').cell ∧
      (bigPicture j').lchanged = (s.bigPicture j').lchanged) ∧
    ∀ j' ≠ j, bigPicture j' = s.bigPicture j'

namespace Sent

variable {j : Nat} {s s' s'' : Screen}

theorem refl (j : Nat) (s : Screen) : Sent j s s :=
  ⟨_, _, _, _, _, _, rfl, fun _ => ⟨rfl, rfl⟩, fun _ _ => rfl⟩

theorem trans (h : Sent j s s') (h' : Sent j s' s'') : Sent j s s'' := by
  obtain ⟨bp, _, _, _, _, _, rfl, hcell, hne⟩ := h
  obtain ⟨bp', _, _, _, _, _, rfl, hcell', hne'⟩ := h'
  refine ⟨_, _, _, _, _, _, rfl, fun j' => ?_, fun j' hj' => (hne' j' hj').trans (hne j' hj')⟩
  exact ⟨(hcell' j').1.trans (hcell j').1, (hcell' j').2.trans (hcell j').2⟩

theorem scrLns (h : Sent j s s') : s'.scrLns = s.scrLns := by
  obtain ⟨_, _, _, _, _, _, rfl, -, -⟩ := h
  rfl

theorem scrCols (h : Sent j s s') : s'.scrCols = s.scrCols := by
  obtain ⟨_, _, _, _, _, _, rfl, -, -⟩ := h
  rfl

theorem scrollcnt (h : Sent j s s') : s'.scrollcnt = s.scrollcnt := by
  obtain ⟨_, _, _, _, _, _, rfl, -, -⟩ := h
  rfl

theorem defColor (h : Sent j s s') : s'.defColor = s.defColor := by
  obtain ⟨_, _, _, _, _, _, rfl, -, -⟩ := h
  rfl

theorem ring (h : Sent j s s') (i : Nat) : s'.ring i = s.ring i := by
  obtain ⟨_, _, _, _, _, _, rfl, -, -⟩ := h
  rfl

theorem cell (h : Sent j s s') (j' : Nat) : (s'.bigPicture j').cell = (s.bigPicture j').cell := by
  obtain ⟨_, _, _, _, _, _, rfl, hcell, -⟩ := h
  exact (hcell j').1

theorem lchanged (h : Sent j s s') (j' : Nat) :
    (s'.bigPicture j').lchanged = (s.bigPicture j').lchanged := by
  obtain ⟨_, _, _, _, _, _, rfl, hcell, -⟩ := h
  exact (hcell j').2

theorem of_ne (h : Sent j s s') {j' : Nat} (hj' : j' ≠ j) : s'.bigPicture j' = s.bigPicture j' := by
  obtain ⟨_, _, _, _, _, _, rfl, -, hne⟩ := h
  exact hne j' hj'

end Sent

/-! ## One command -/

theorem told_false (c : Color) : told false c = .plain := rfl

theorem Penned.of_color (h : Penned s d) {color : Color}
    (hcolor : color = s.tcColor ∨ color = { s.tcColor with fg := 8 }) :
    Penned { s with tcColor := color } d := by
  obtain rfl | rfl := hcolor
  · exact h
  · refine ⟨h.mode, ?_, ?_⟩
    · simpa [told_bg] using h.bg
    · have hfg := h.fg
      simp only [told_fg] at hfg ⊢
      grind

/-- Moving the cursor. -/
theorem Mirror.relMove (h : Mirror d₀ s d) (row col : Nat) (hscroll : s.scrollcnt = 0 ∨ col = 0)
    (hrow : row < s.scrLns) (hcol : col ≤ s.scrCols) (hline : d.row = s.tcLine)
    (hat : d.col = s.tcCol ∨ col = 0 ∧ s.tcCol ≠ 0)
    (hmargin : d.sticky = true → s.tcLine = row → col ≠ 0 → s.tcCol < s.scrCols) :
    ∃ d', Mirror d₀ (s.relMove s.tcCol s.tcLine col row) d' ∧ d'.row = row ∧
      d'.col = min col (s.scrCols - 1) ∧ d'.sticky = d.sticky ∧
      (s.relMove s.tcCol s.tcLine col row).tcCol = min col (s.scrCols - 1) ∧
      (s.relMove s.tcCol s.tcLine col row).tcLine = row ∧
      (s.relMove s.tcCol s.tcLine col row).bigPicture = s.bigPicture ∧
      ∀ j, Sent j s (s.relMove s.tcCol s.tcLine col row) := by
  obtain ⟨color, bytes, cell, hs, hplays, hcolor, hcell⟩ := relMove_spec h.pen h.lines h.columns hrow
    hcol h.cols (h.proper row hrow) hline hat hmargin
  refine ⟨{ d with row := row, col := min col (s.scrCols - 1), cell := cell }, ?_, rfl, rfl, rfl,
    by rw [hs], by rw [hs], by rw [hs],
    fun j => ⟨_, _, _, _, _, _, hs, fun _ => ⟨rfl, rfl⟩, fun _ _ => rfl⟩⟩
  have hpen := h.pen.of_color hcolor
  rw [hs]
  obtain hzero | hzero := hscroll
  · refine .of_cells (h.plays.append hplays) h.lines h.columns h.cols ⟨hpen.mode, hpen.bg, hpen.fg⟩
      h.proper hzero fun i hi k hk hck => ?_
    obtain hold | ⟨rfl, -, hnew⟩ := hcell i k
    · change Alike s.defColor ((s.line i).cell k) (cell i k)
      rw [hold]
      exact h.alike_cell hzero hi hk hck
    · exact .inl hnew
  · -- nothing is written on the way to column 0
    have hsame : cell = d.cell := by
      funext r c
      refine (hcell r c).resolve_right fun hbad => ?_
      omega
    subst hsame
    exact ⟨h.plays.append hplays, h.lines, h.columns, h.cols, ⟨hpen.mode, hpen.bg, hpen.fg⟩,
      h.proper, h.alike⟩

/-- Changing the pen. -/
theorem Mirror.relChangemodecolor (h : Mirror d₀ s d) (hscroll : s.scrollcnt = 0) (mode : Mode)
    {color : Color} (hknown : Known color) :
    ∃ d', Mirror d₀ (s.relChangemodecolor mode color) d' ∧ d'.row = d.row ∧ d'.col = d.col ∧
      d'.sticky = d.sticky ∧ d'.mode = mode ∧ d'.color = told s.defColor color ∧
      (s.relChangemodecolor mode color).tcCol = s.tcCol ∧
      (s.relChangemodecolor mode color).tcLine = s.tcLine ∧
      (s.relChangemodecolor mode color).bigPicture = s.bigPicture ∧
      ∀ j, Sent j s (s.relChangemodecolor mode color) := by
  obtain ⟨bytes, hs, hplays⟩ := relChangemodecolor_spec h.pen mode hknown
  refine ⟨{ d with mode := mode, color := told s.defColor color }, ?_, rfl, rfl, rfl, rfl, rfl,
    by rw [hs], by rw [hs], by rw [hs],
    fun j => ⟨_, _, _, _, _, _, hs, fun _ => ⟨rfl, rfl⟩, fun _ _ => rfl⟩⟩
  rw [hs]
  exact .of_cells (h.plays.append hplays) h.lines h.columns h.cols ⟨rfl, rfl, .inl rfl⟩ h.proper
    hscroll fun i hi k hk hck => h.alike_cell hscroll hi hk hck

theorem written_eq {b : Cell} (hmode : d.mode = b.mode) (hcolor : d.color = told s.defColor b.color) :
    (⟨b.data, d.mode, d.color⟩ : Cell) = written s.defColor b := by
  rw [hmode, hcolor, written]

theorem setLine_line {i i' : Nat} (hi : i < s.scrLns) (hi' : i' < s.scrLns) (l : Screenline) :
    (s.setLine (s.ring i) l).line i' = if i' = i then l else s.line i' := by
  change (s.setLine (s.ring i) l).bigPicture (s.ring i') = _
  by_cases h : i' = i
  · simp [h]
  · rw [if_neg h, setLine_of_ne fun hring => h (ring_inj hi' hi hring)]
    rfl

/-- A line of `big_picture` with other marks. -/
def remark (s : Screen) (j : Nat) (changed : Nat → Bool) : Screen :=
  s.setLine j { s.bigPicture j with changed := changed }

theorem remark_output_line {i i' : Nat} (hi : i < s.scrLns) (hi' : i' < s.scrLns)
    (bytes : List UInt8) (changed : Nat → Bool) :
    ((s.output bytes).remark (s.ring i) changed).line i' =
      if i' = i then { s.line i with changed := changed } else s.line i' :=
  setLine_line (s := s.output bytes) hi hi' _

/-- Sending bytes that put the terminal's cells in order, and taking marks away. -/
theorem Mirror.remark (h : Mirror d₀ s d) (hscroll : s.scrollcnt = 0) {i : Nat} (hi : i < s.scrLns)
    {bytes : List UInt8} {d' : Display} {changed : Nat → Bool} (hplays : Plays d bytes d')
    (hlines : d'.lines = d.lines) (hcolumns : d'.columns = d.columns) (hmode : d'.mode = d.mode)
    (hcolor : d'.color = d.color)
    (hrest : ∀ r c, (r = i ∧ changed c = false ∧ c < s.scrCols →
      Alike s.defColor ((s.line i).cell c) (d'.cell r c)) ∧ (r ≠ i → d'.cell r c = d.cell r c)) :
    Mirror d₀ ((s.output bytes).remark (s.ring i) changed) d' := by
  have hpen : Penned ((s.output bytes).remark (s.ring i) changed) d' :=
    ⟨hmode.trans h.pen.mode, by rw [hcolor]; exact h.pen.bg, by rw [hcolor]; exact h.pen.fg⟩
  have hline : ∀ i' < s.scrLns, ((s.output bytes).remark (s.ring i) changed).line i' =
      if i' = i then { s.line i with changed := changed } else s.line i' :=
    fun i' hi' => remark_output_line hi hi' bytes changed
  refine .of_cells (h.plays.append hplays) (hlines.trans h.lines) (hcolumns.trans h.columns) h.cols
    hpen (fun i' hi' k hk => ?_) hscroll fun i' hi' k hk hck => ?_
  · have hproper := h.proper i' hi' k hk
    rw [hline i' hi']
    split
    · next heq => rwa [heq] at hproper
    · exact hproper
  · rw [hline i' hi'] at hck ⊢
    by_cases heq : i' = i
    · rw [if_pos heq] at hck ⊢
      exact (hrest i' k).1 ⟨heq, hck, hk⟩
    · rw [if_neg heq] at hck ⊢
      rw [(hrest i' k).2 heq]
      exact h.alike_cell hscroll hi' hk hck

/-- Writing the cell under the cursor. -/
theorem Mirror.put (h : Mirror d₀ s d) (hscroll : s.scrollcnt = 0) {i k : Nat} (hi : i < s.scrLns)
    (hk : k < s.scrCols) (hrow : d.row = i) (hcol : d.col = k)
    (hmode : d.mode = ((s.line i).cell k).mode)
    (hcolor : d.color = told s.defColor ((s.line i).cell k).color) :
    Mirror d₀ ((s.ochar ((s.line i).cell k).data).remark (s.ring i)
      fun k' => if k' = k then false else (s.line i).changed k')
      (d.write ((s.line i).cell k).data) := by
  have hlt : d.col < d.columns := by rw [h.columns, hcol]; exact hk
  have hwrite : d.write ((s.line i).cell k).data = { d with
      cell := fun r c => if r = i ∧ c = k then written s.defColor ((s.line i).cell k) else d.cell r c
      col := k + 1 } := by
    simp only [Display.write, hlt, if_true]
    rw [written_eq hmode hcolor, hrow, hcol]
  rw [hwrite]
  refine h.remark hscroll hi (hwrite ▸ Plays.write (h.proper i hi k hk).data d) rfl rfl rfl rfl
    fun r c => ⟨fun hc => ?_, fun hr => if_neg fun hbad => hr hbad.1⟩
  obtain ⟨rfl, hc, hlt⟩ := hc
  by_cases heq : c = k
  · subst heq
    exact .inl (by simp)
  · simp only [heq, and_false, if_false] at hc ⊢
    exact h.alike_cell hscroll hi hlt hc

/-- Erasing the rest of the row, when it is blank and looks like the cell under the cursor. -/
theorem Mirror.eraseLine (h : Mirror d₀ s d) (hscroll : s.scrollcnt = 0) {i k : Nat}
    (hi : i < s.scrLns) (hrow : d.row = i) (hcol : d.col = k)
    (hmode : d.mode = ((s.line i).cell k).mode)
    (hcolor : d.color = told s.defColor ((s.line i).cell k).color)
    (htail : ∀ k', k ≤ k' → k' < s.scrCols → ((s.line i).cell k').data = 32 ∧
      ((s.line i).cell k').color.bg = ((s.line i).cell k).color.bg ∧
      dim ((s.line i).cell k').mode = dim ((s.line i).cell k).mode) :
    Mirror d₀ ((s.output [27, 91, 75]).remark (s.ring i)
      fun k' => if k ≤ k' ∧ k' < s.scrCols then false else (s.line i).changed k') d.eraseLine := by
  have hplays : Plays d [27, 91, 75] d.eraseLine :=
    Plays.sequence₁ spells_nil _ (by simp [Vt.IsDigit]) (by simp) d
  refine h.remark hscroll hi hplays rfl rfl rfl rfl
    fun r c => ⟨fun hc => ?_, fun hr => if_neg fun hbad => hr (hbad.1.symm.trans hrow)⟩
  obtain ⟨rfl, hc, hlt⟩ := hc
  by_cases hin : k ≤ c
  · obtain ⟨hdata, hbg, hdim⟩ := htail c hin hlt
    have hcell : d.eraseLine.cell r c = d.blank := if_pos ⟨hrow, by omega⟩
    refine .inr ⟨hdata, by rw [hcell]; rfl, ?_, ?_⟩
    · rw [hcell, hdim, Display.blank, hmode]
    · rw [hcell, Display.blank, hcolor, told_bg, told_bg, hbg]
  · have hcell : d.eraseLine.cell r c = d.cell r c := if_neg (by omega)
    rw [hcell]
    rw [if_neg (by omega)] at hc
    exact h.alike_cell hscroll hi hlt hc

/-! ## One row -/

/-- The cells from `p` on are blanks that look like the last one. -/
def Tail (s : Screen) (i p : Nat) : Prop :=
  ∀ k, p ≤ k → k < s.scrCols → ((s.line i).cell k).data = 32 ∧
    ((s.line i).cell k).color.bg = ((s.line i).cell (s.scrCols - 1)).color.bg ∧
    dim ((s.line i).cell k).mode = dim ((s.line i).cell (s.scrCols - 1)).mode

/-- In the middle of row `i`: the terminal's cursor is in it, and where the program thinks. -/
structure InRow (d₀ : Display) (i : Nat) (s : Screen) (d : Display) : Prop where
  mirror : Mirror d₀ s d
  scrollcnt : s.scrollcnt = 0
  lt : i < s.scrLns
  row : d.row = i
  tcLine : s.tcLine = i
  col : d.col = s.tcCol

/-- The cursor goes forward in the row. -/
theorem InRow.forward {i k : Nat} (h : InRow d₀ i s d) (hle : s.tcCol ≤ k) (hk : k < s.scrCols) :
    ∃ d', InRow d₀ i (if s.tcCol ≠ k then s.relMove s.tcCol s.tcLine k i else s) d' ∧
      d'.col = k ∧ d'.sticky = d.sticky ∧
      (if s.tcCol ≠ k then s.relMove s.tcCol s.tcLine k i else s).bigPicture = s.bigPicture ∧
      Sent (s.ring i) s (if s.tcCol ≠ k then s.relMove s.tcCol s.tcLine k i else s) := by
  by_cases hne : s.tcCol ≠ k
  · obtain ⟨d', hmirror, hrow, hcol, hsticky, htcCol, htcLine, hbp, hsent⟩ :=
      h.mirror.relMove i k (.inl h.scrollcnt) h.lt (Nat.le_of_lt hk) (h.row.trans h.tcLine.symm)
        (.inl h.col) fun _ _ _ => by omega
    have hk' : min k (s.scrCols - 1) = k := by omega
    have hsent' := hsent (s.ring i)
    rw [if_pos hne]
    exact ⟨d', ⟨hmirror, hsent'.scrollcnt.trans h.scrollcnt, hsent'.scrLns ▸ h.lt, hrow, htcLine,
      hcol.trans htcCol.symm⟩, hcol.trans hk', hsticky, hbp, hsent'⟩
  · rw [if_neg hne]
    exact ⟨d, h, by rw [h.col]; omega, rfl, rfl, .refl _ _⟩

/-- The pen becomes that of a cell. -/
theorem InRow.pen {i : Nat} (h : InRow d₀ i s d) (mode : Mode) {color : Color}
    (hknown : Known color) :
    ∃ d', InRow d₀ i (if mode ≠ s.tcMode ∨ color ≠ s.tcColor then s.relChangemodecolor mode color
        else s) d' ∧
      d'.col = d.col ∧ d'.sticky = d.sticky ∧ d'.mode = mode ∧ d'.color = told s.defColor color ∧
      (if mode ≠ s.tcMode ∨ color ≠ s.tcColor then s.relChangemodecolor mode color
        else s).bigPicture = s.bigPicture ∧
      Sent (s.ring i) s (if mode ≠ s.tcMode ∨ color ≠ s.tcColor then s.relChangemodecolor mode color
        else s) := by
  by_cases hne : mode ≠ s.tcMode ∨ color ≠ s.tcColor
  · obtain ⟨d', hmirror, hrow, hcol, hsticky, hmode, hcolor, htcCol, htcLine, hbp, hsent⟩ :=
      h.mirror.relChangemodecolor h.scrollcnt mode hknown
    have hsent' := hsent (s.ring i)
    rw [if_pos hne]
    exact ⟨d', ⟨hmirror, hsent'.scrollcnt.trans h.scrollcnt, hsent'.scrLns ▸ h.lt,
      hrow.trans h.row, htcLine.trans h.tcLine, hcol.trans (h.col.trans htcCol.symm)⟩, hcol, hsticky,
      hmode, hcolor, hbp, hsent'⟩
  · obtain ⟨hmode, hcolor⟩ : mode = s.tcMode ∧ color = s.tcColor := by
      simpa only [not_or, not_not] using hne
    have hpen := h.mirror.pen
    have hfg : d.color.fg = (told s.defColor s.tcColor).fg := by
      refine hpen.fg.resolve_right fun hbad => ?_
      have hlt := hknown.1
      rw [hcolor] at hlt
      omega
    rw [if_neg hne]
    refine ⟨d, h, rfl, rfl, hpen.mode.trans hmode.symm, ?_, rfl, .refl _ _⟩
    rw [hcolor]
    cases hd : d.color with
    | mk fg bg =>
        have hbg := hpen.bg
        rw [hd] at hfg hbg
        cases htold : told s.defColor s.tcColor with
        | mk fg' bg' => simp_all

theorem sent_remark (s : Screen) (j : Nat) (bytes : List UInt8) (changed : Nat → Bool) :
    Sent j s ((s.output bytes).remark j changed) := by
  refine ⟨_, _, _, _, _, _, rfl, fun j' => ?_, fun j' hj' => if_neg hj'⟩
  by_cases hj' : j' = j
  · subst hj'
    exact ⟨by simp [output], by simp [output]⟩
  · simp [output, hj']

theorem Mirror.setCursor (h : Mirror d₀ s d) (tcCol : Nat) : Mirror d₀ { s with tcCol := tcCol } d :=
  ⟨h.plays, h.lines, h.columns, h.cols, ⟨h.pen.mode, h.pen.bg, h.pen.fg⟩, h.proper, h.alike⟩

theorem Sent.setCursor {j : Nat} {s' : Screen} (h : Sent j s s') (tcCol : Nat) :
    Sent j s { s' with tcCol := tcCol } := by
  obtain ⟨_, _, _, _, _, _, rfl, hcell, hne⟩ := h
  exact ⟨_, _, _, _, _, _, rfl, hcell, hne⟩

/-- The terminal's cursor and pen are those of cell `k` of row `i`. -/
def aim (i k : Nat) (s : Screen) : Screen :=
  let c := (s.line i).cell k
  let s := if s.tcCol ≠ k then s.relMove s.tcCol s.tcLine k i else s
  if c.mode ≠ s.tcMode ∨ c.color ≠ s.tcColor then s.relChangemodecolor c.mode c.color else s

/-- The cell under the cursor is sent. -/
def sendCell (i k : Nat) (s : Screen) : Screen :=
  let t := (s.ochar ((s.line i).cell k).data).setLine (s.ring i)
    { s.line i with changed := fun k' => if k' = k then false else (s.line i).changed k' }
  { t with tcCol := t.tcCol + 1 }

/-- The rest of the row is erased. -/
def sendTail (i k : Nat) (s : Screen) : Screen :=
  (s.setLine (s.ring i) { s.line i with
    changed := fun k' => if k ≤ k' ∧ k' < s.scrCols then false else (s.line i).changed k' }).output
      [27, 91, 75]

theorem InRow.sendCell {i k : Nat} (h : InRow d₀ i s d) (hk : k < s.scrCols) (hcol : d.col = k)
    (hmode : d.mode = ((s.line i).cell k).mode)
    (hcolor : d.color = told s.defColor ((s.line i).cell k).color) :
    ∃ d', InRow d₀ i (s.sendCell i k) d' ∧ d'.sticky = d.sticky ∧
      (s.sendCell i k).tcCol = k + 1 ∧ Sent (s.ring i) s (s.sendCell i k) ∧
      (s.sendCell i k).line i =
        { s.line i with changed := fun k' => if k' = k then false else (s.line i).changed k' } := by
  have hput := h.mirror.put h.scrollcnt h.lt hk h.row hcol hmode hcolor
  have hlt : d.col < d.columns := by
    rw [h.mirror.columns]
    omega
  have hcursor : s.tcCol + 1 = k + 1 := by rw [← h.col, hcol]
  have hwrite : (d.write ((s.line i).cell k).data).row = i ∧
      (d.write ((s.line i).cell k).data).col = s.tcCol + 1 ∧
      (d.write ((s.line i).cell k).data).sticky = d.sticky := by
    simp only [Display.write, hlt, if_true]
    exact ⟨h.row, by rw [h.col], trivial⟩
  refine ⟨_, ⟨hput.setCursor (s.tcCol + 1), h.scrollcnt, h.lt, hwrite.1, h.tcLine, hwrite.2.1⟩,
    hwrite.2.2, hcursor, (sent_remark s _ [((s.line i).cell k).data] _).setCursor (s.tcCol + 1), ?_⟩
  exact (remark_output_line h.lt h.lt [((s.line i).cell k).data] _).trans (if_pos rfl)

theorem InRow.sendTail {i k : Nat} (h : InRow d₀ i s d) (hcol : d.col = k)
    (hmode : d.mode = ((s.line i).cell k).mode)
    (hcolor : d.color = told s.defColor ((s.line i).cell k).color)
    (htail : ∀ k', k ≤ k' → k' < s.scrCols → ((s.line i).cell k').data = 32 ∧
      ((s.line i).cell k').color.bg = ((s.line i).cell k).color.bg ∧
      dim ((s.line i).cell k').mode = dim ((s.line i).cell k).mode) :
    ∃ d', InRow d₀ i (s.sendTail i k) d' ∧ d'.sticky = d.sticky ∧
      (s.sendTail i k).tcCol = k ∧ Sent (s.ring i) s (s.sendTail i k) ∧
      (s.sendTail i k).line i = { s.line i with
        changed := fun k' => if k ≤ k' ∧ k' < s.scrCols then false else (s.line i).changed k' } := by
  have hmirror := h.mirror.eraseLine h.scrollcnt h.lt h.row hcol hmode hcolor htail
  refine ⟨_, ⟨hmirror, h.scrollcnt, h.lt, h.row, h.tcLine, h.col⟩, rfl, h.col.symm.trans hcol,
    sent_remark s _ [27, 91, 75] _, ?_⟩
  exact (remark_output_line h.lt h.lt [27, 91, 75] _).trans (if_pos rfl)

theorem refreshCells_succ (i p count n k : Nat) (s : Screen) :
    refreshCells i (s.ring i) p count (n + 1) k s =
      if (s.line i).changed k = false ∧ (k < p ∨ count < 5) then
        refreshCells i (s.ring i) p count n (k + 1) s
      else if p ≤ k ∧ p + 5 ≤ (s.aim i k).scrCols then
        ((s.aim i k).setLine (s.ring i) { s.line i with
          changed := fun k' => if k ≤ k' ∧ k' < (s.aim i k).scrCols then false
            else (s.line i).changed k' }).output [27, 91, 75]
      else
        let t := ((s.aim i k).ochar ((s.line i).cell k).data).setLine (s.ring i)
          { s.line i with changed := fun k' => if k' = k then false else (s.line i).changed k' }
        refreshCells i (s.ring i) p count n (k + 1) { t with tcCol := t.tcCol + 1 } := rfl

theorem InRow.aim {i k : Nat} (h : InRow d₀ i s d) (hle : s.tcCol ≤ k) (hk : k < s.scrCols) :
    ∃ d', InRow d₀ i (s.aim i k) d' ∧ d'.col = k ∧ d'.sticky = d.sticky ∧
      d'.mode = ((s.line i).cell k).mode ∧
      d'.color = told s.defColor ((s.line i).cell k).color ∧
      (s.aim i k).bigPicture = s.bigPicture ∧ Sent (s.ring i) s (s.aim i k) := by
  obtain ⟨d₁, h₁, hcol₁, hsticky₁, hbp₁, hsent₁⟩ := h.forward hle hk
  obtain ⟨d₂, h₂, hcol₂, hsticky₂, hmode₂, hcolor₂, hbp₂, hsent₂⟩ :=
    h₁.pen ((s.line i).cell k).mode (h.mirror.proper i h.lt k hk).color
  rw [hsent₁.ring] at hsent₂
  rw [hsent₁.defColor] at hcolor₂
  exact ⟨d₂, h₂, hcol₂.trans hcol₁, hsticky₂.trans hsticky₁, hmode₂, hcolor₂, hbp₂.trans hbp₁,
    hsent₁.trans hsent₂⟩

/-- The loop of `refresh` over the cells of a row: afterwards no cell of the row is marked.  `last`
is any fact that holds if the last cell was marked. -/
theorem refreshCells_spec {i p count n k : Nat} (last : Prop) (h : InRow d₀ i s d)
    (hkn : k + n = s.scrCols) (hle : s.tcCol ≤ k) (htail : s.Tail i p)
    (hcount : 5 ≤ count → p + 5 ≤ s.scrCols) (hdone : ∀ k' < k, (s.line i).changed k' = false)
    (hmarked : k < s.scrCols → (s.line i).changed (s.scrCols - 1) = true → last)
    (hlast : s.tcCol < s.scrCols ∨ last) :
    ∃ d', InRow d₀ i (refreshCells i (s.ring i) p count n k s) d' ∧ d'.sticky = d.sticky ∧
      Sent (s.ring i) s (refreshCells i (s.ring i) p count n k s) ∧
      (∀ k' < s.scrCols, ((refreshCells i (s.ring i) p count n k s).line i).changed k' = false) ∧
      ((refreshCells i (s.ring i) p count n k s).tcCol < s.scrCols ∨ last) := by
  induction n generalizing k s d with
  | zero =>
      refine ⟨d, h, rfl, .refl _ _, ?_, hlast⟩
      rw [← hkn]
      exact hdone
  | succ n ih =>
      have hk : k < s.scrCols := by omega
      rw [refreshCells_succ]
      by_cases hskip : (s.line i).changed k = false ∧ (k < p ∨ count < 5)
      · rw [if_pos hskip]
        refine ih h (by omega) (by omega) htail hcount (fun k' hk' => ?_) (fun _ => hmarked hk) hlast
        obtain hlt | rfl := Nat.lt_succ_iff_lt_or_eq.mp hk'
        · exact hdone k' hlt
        · exact hskip.1
      · rw [if_neg hskip]
        obtain ⟨d', h', hcol, hsticky, hmode, hcolor, hbp, hsent⟩ := h.aim hle hk
        generalize s.aim i k = t at *
        have hring : t.ring i = s.ring i := hsent.ring i
        have hline : t.line i = s.line i := by rw [Screen.line, hring, hbp, Screen.line]
        have hcols : t.scrCols = s.scrCols := hsent.scrCols
        rw [← hline] at hmode hcolor
        rw [← hsent.defColor] at hcolor
        by_cases herase : p ≤ k ∧ p + 5 ≤ t.scrCols
        · have htail' : ∀ k', k ≤ k' → k' < t.scrCols → ((t.line i).cell k').data = 32 ∧
              ((t.line i).cell k').color.bg = ((t.line i).cell k).color.bg ∧
              dim ((t.line i).cell k').mode = dim ((t.line i).cell k).mode := by
            intro k' hle' hlt'
            obtain ⟨hdata, hbg, hdim⟩ := htail k' (by omega) (by omega)
            obtain ⟨-, hbg', hdim'⟩ := htail k herase.1 hk
            rw [hline]
            exact ⟨hdata, hbg.trans hbg'.symm, hdim.trans hdim'.symm⟩
          obtain ⟨e, hrow, hsticky', hcursor, hsent', hline'⟩ := h'.sendTail hcol hmode hcolor htail'
          rw [if_pos herase, ← hline, ← hring]
          refine ⟨e, hrow, hsticky'.trans hsticky, (hring ▸ hsent).trans hsent', fun k' hk' => ?_,
            .inl (hcursor ▸ hk)⟩
          change ((t.sendTail i k).line i).changed k' = false
          rw [hline', hline]
          grind
        · obtain ⟨e, hrow, hsticky', hcursor, hsent', hline'⟩ :=
            h'.sendCell (by omega) hcol hmode hcolor
          rw [if_neg herase, ← hline, ← hring]
          change ∃ d', InRow d₀ i (refreshCells i (t.ring i) p count n (k + 1) (t.sendCell i k)) d' ∧ _
          have hsent'' := (hring ▸ hsent).trans hsent'
          have hcols' : (t.sendCell i k).scrCols = s.scrCols := hsent''.scrCols
          have hcells : ((t.sendCell i k).line i).cell = (s.line i).cell := by rw [hline', hline]
          have hmarks : ∀ k', ((t.sendCell i k).line i).changed k' =
              if k' = k then false else (s.line i).changed k' := by
            intro k'
            rw [hline', hline]
          have hends : (t.sendCell i k).tcCol < (t.sendCell i k).scrCols ∨ last := by
            -- past the last column: its cell was marked, or the tail would have been erased
            by_cases hend : k + 1 < s.scrCols
            · exact .inl (by omega)
            · have hlastk : s.scrCols - 1 = k := by omega
              have hmark : (s.line i).changed (s.scrCols - 1) = true := by grind
              exact .inr (hmarked hk hmark)
          have hnext := ih (k := k + 1) hrow (by omega) (by omega)
            (by simpa [Tail, hcells, hcols'] using htail) (by rwa [hcols']) (by grind) (by grind) hends
          obtain ⟨e', hrow', hsticky'', hsent₃, hdone', hlast'⟩ := hnext
          have hring' : (t.sendCell i k).ring i = t.ring i := hsent'.ring i
          rw [hring'] at hrow' hsent₃ hdone' hlast'
          rw [hcols'] at hdone' hlast'
          exact ⟨e', hrow', hsticky''.trans (hsticky'.trans hsticky), hsent''.trans hsent₃, hdone',
            hlast'⟩

/-! ## All rows -/

theorem tailFrom_spec (l : Screenline) (last : Cell) {n k : Nat} (h : tailFrom l last n ≤ k)
    (hk : k < n) : (l.cell k).data = 32 ∧ (l.cell k).color.bg = last.color.bg ∧
      dim (l.cell k).mode = dim last.mode := by
  fun_induction tailFrom l last n with
  | case1 => omega
  | case2 n hblank ih =>
      obtain hlt | rfl := Nat.lt_succ_iff_lt_or_eq.mp hk
      · exact ih h hlt
      · exact hblank
  | case3 n => omega

/-- What `refresh` leaves as it is. -/
def Refreshed (s s' : Screen) : Prop :=
  ∃ bigPicture scrollcnt tcCol tcLine tcMode tcColor out,
    s' = { s with
      bigPicture := bigPicture, scrollcnt := scrollcnt, tcCol := tcCol, tcLine := tcLine,
      tcMode := tcMode, tcColor := tcColor, out := out } ∧
    ∀ j, (bigPicture j).cell = (s.bigPicture j).cell

theorem Refreshed.refl (s : Screen) : Refreshed s s :=
  ⟨_, _, _, _, _, _, _, rfl, fun _ => rfl⟩

theorem Refreshed.trans {s s' s'' : Screen} (h : Refreshed s s') (h' : Refreshed s' s'') :
    Refreshed s s'' := by
  obtain ⟨_, _, _, _, _, _, _, rfl, hcell⟩ := h
  obtain ⟨_, _, _, _, _, _, _, rfl, hcell'⟩ := h'
  exact ⟨_, _, _, _, _, _, _, rfl, fun j => (hcell' j).trans (hcell j)⟩

theorem Sent.refreshed {j : Nat} {s s' : Screen} (h : Sent j s s') : Refreshed s s' := by
  obtain ⟨_, _, _, _, _, _, rfl, hcell, -⟩ := h
  exact ⟨_, _, _, _, _, _, _, rfl, fun j => (hcell j).1⟩

/-- The flag of a line does not count. -/
theorem Mirror.setFlag (h : Mirror d₀ s d) {i : Nat} (hi : i < s.scrLns) (lchanged : Bool) :
    Mirror d₀ (s.setLine (s.ring i) { s.line i with lchanged := lchanged }) d := by
  have hline : ∀ i' < s.scrLns,
      ((s.setLine (s.ring i) { s.line i with lchanged := lchanged }).line i').cell =
        (s.line i').cell ∧
      ((s.setLine (s.ring i) { s.line i with lchanged := lchanged }).line i').changed =
        (s.line i').changed := by
    intro i' hi'
    rw [setLine_line hi hi']
    split
    · next heq => exact ⟨by rw [heq], by rw [heq]⟩
    · exact ⟨rfl, rfl⟩
  refine ⟨h.plays, h.lines, h.columns, h.cols, ⟨h.pen.mode, h.pen.bg, h.pen.fg⟩,
    fun i' hi' k hk => ?_, fun i' hi' k hk hck => ?_⟩
  · rw [(hline i' hi').1]
    exact h.proper i' hi' k hk
  · rw [(hline i' hi').2] at hck
    rw [(hline i' hi').1]
    exact h.alike i' hi' k hk hck

/-- A row that has marked cells. -/
theorem refreshLine_spec (h : Mirror d₀ s d) (hscroll : s.scrollcnt = 0) {i : Nat}
    (hi : i < s.scrLns) (hrow : d.row = s.tcLine) (hat : d.col = s.tcCol ∨ s.tcCol ≠ 0)
    (hflag : (s.line i).lchanged = true) :
    ∃ d', InRow d₀ i (s.refreshLine i) d' ∧ d'.sticky = d.sticky ∧ Refreshed s (s.refreshLine i) ∧
      (∀ k < s.scrCols, ((s.refreshLine i).line i).changed k = false) ∧
      ((s.refreshLine i).line i).lchanged = false ∧
      (∀ i' < s.scrLns, i' ≠ i → (s.refreshLine i).line i' = s.line i') ∧
      ((s.refreshLine i).tcCol < s.scrCols ∨ (s.line i).changed (s.scrCols - 1) = true) := by
  have hclear := h.setFlag hi false
  have hline := fun i' (hi' : i' < s.scrLns) => setLine_line hi hi' { s.line i with lchanged := false }
  have hframe : Refreshed s (s.setLine (s.ring i) { s.line i with lchanged := false }) := by
    refine ⟨_, _, _, _, _, _, _, rfl, fun j => ?_⟩
    by_cases hj : j = s.ring i
    · subst hj
      simp [Screen.line]
    · simp [hj]
  obtain ⟨p, count, heq, htail, hcount⟩ : ∃ p count, s.refreshLine i =
      refreshCells i (s.ring i) p count s.scrCols 0
        ((s.setLine (s.ring i) { s.line i with lchanged := false }).relMove s.tcCol s.tcLine 0 i) ∧
      s.Tail i p ∧ (5 ≤ count → p + 5 ≤ s.scrCols) := by
    refine ⟨tailFrom (s.line i) ((s.line i).cell (s.scrCols - 1)) s.scrCols, _, if_pos hflag,
      fun k => tailFrom_spec (s.line i) _, fun hcount => ?_⟩
    have hlen := hcount.trans List.countP_le_length
    rw [List.length_range'] at hlen
    change 5 ≤ s.scrCols - tailFrom (s.line i) ((s.line i).cell (s.scrCols - 1)) s.scrCols at hlen
    omega
  obtain ⟨d₁, hmirror, hrow₁, hcol₁, hsticky₁, htcCol, htcLine, hbp, hsent⟩ :=
    hclear.relMove i 0 (.inl hscroll) hi (Nat.zero_le _) hrow (by grind [setLine])
      fun _ _ hne => absurd rfl hne
  have hsent₁ := hsent (s.ring i)
  change Mirror d₀ ((s.setLine (s.ring i) { s.line i with lchanged := false }).relMove s.tcCol
    s.tcLine 0 i) d₁ at hmirror
  change Screen.tcCol ((s.setLine (s.ring i) { s.line i with lchanged := false }).relMove s.tcCol
    s.tcLine 0 i) = _ at htcCol
  change Screen.tcLine ((s.setLine (s.ring i) { s.line i with lchanged := false }).relMove s.tcCol
    s.tcLine 0 i) = _ at htcLine
  change Screen.bigPicture ((s.setLine (s.ring i) { s.line i with lchanged := false }).relMove
    s.tcCol s.tcLine 0 i) = _ at hbp
  change Sent (s.ring i) _ ((s.setLine (s.ring i) { s.line i with lchanged := false }).relMove
    s.tcCol s.tcLine 0 i) at hsent₁
  rw [heq]
  generalize (s.setLine (s.ring i) { s.line i with lchanged := false }).relMove s.tcCol
    s.tcLine 0 i = t at *
  have hcols : t.scrCols = s.scrCols := hsent₁.scrCols
  have hring : t.ring i = s.ring i := hsent₁.ring i
  have htline : t.line i = { s.line i with lchanged := false } := by
    have hi' := hline i hi
    rw [if_pos rfl] at hi'
    rw [← hi', Screen.line, hring, hbp]
    rfl
  have hinrow : InRow d₀ i t d₁ :=
    ⟨hmirror, hsent₁.scrollcnt.trans hscroll, hsent₁.scrLns ▸ hi, hrow₁, htcLine,
      hcol₁.trans htcCol.symm⟩
  have htail' : t.Tail i p := by
    intro k hk hlt
    rw [htline, hcols]
    exact htail k hk (hcols ▸ hlt)
  obtain ⟨e, hrow₂, hsticky₂, hsent₂, hdone, hlast⟩ := refreshCells_spec (n := t.scrCols)
    (k := 0) ((s.line i).changed (s.scrCols - 1) = true) hinrow
    (Nat.zero_add _) (by omega) htail' (by rwa [hcols]) (by omega)
    (fun _ hlast => by rwa [htline, hcols] at hlast) (.inl (by have := h.cols; omega))
  rw [hring, hcols] at hrow₂ hsent₂ hdone hlast
  have hsent' := hsent₁.trans hsent₂
  have hring' : (refreshCells i (s.ring i) p count s.scrCols 0 t).ring = s.ring :=
    funext fun i' => hsent'.ring i'
  refine ⟨e, hrow₂, hsticky₂.trans hsticky₁, hframe.trans hsent'.refreshed, hdone, ?_,
    fun i' hi' hne => ?_, hlast⟩
  · rw [Screen.line, hring', hsent₂.lchanged, ← hring]
    exact congrArg Screenline.lchanged htline
  · rw [Screen.line, hring', hsent'.of_ne fun hbad => hne (ring_inj hi' hi hbad)]
    exact (hline i' hi').trans (if_neg hne)

/-- The rows before `n` are done, on the way from `s₀`. -/
structure Rows (d₀ : Display) (s₀ : Screen) (n : Nat) (s : Screen) (d : Display) : Prop where
  mirror : Mirror d₀ s d
  scrollcnt : s.scrollcnt = 0
  row : d.row = s.tcLine
  lt : s.tcLine < s.scrLns
  /-- the column is known, or the next move is to column 0 -/
  col : d.col = s.tcCol ∨
    s.tcCol ≠ 0 ∧ ∃ i, n ≤ i ∧ i < s.scrLns ∧ (s.line i).lchanged = true
  marked : ∀ i < s.scrLns, (s.line i).lchanged = false →
    ∀ k < s.scrCols, (s.line i).changed k = false
  done : ∀ i < s.scrLns, i < n → (s.line i).lchanged = false
  rest : ∀ i < s.scrLns, n ≤ i → s.line i = s₀.line i
  frame : Refreshed s₀ s
  /-- the cursor does not go up -/
  last : ∀ i < s.scrLns, i < n → (s₀.line i).lchanged = true → i ≤ s.tcLine
  /-- the cursor is past the last column of its own row only if that was marked -/
  margin : s₀.tcCol < s₀.scrCols → (s₀.line s₀.curLn).changed (s₀.scrCols - 1) = false →
    s.tcLine = s₀.curLn → s.tcCol < s.scrCols

theorem Refreshed.scrLns {s s' : Screen} (h : Refreshed s s') : s'.scrLns = s.scrLns := by
  obtain ⟨_, _, _, _, _, _, _, rfl, -⟩ := h
  rfl

theorem Refreshed.scrCols {s s' : Screen} (h : Refreshed s s') : s'.scrCols = s.scrCols := by
  obtain ⟨_, _, _, _, _, _, _, rfl, -⟩ := h
  rfl

theorem Refreshed.line {s s' : Screen} (h : Refreshed s s') (hbp : s'.bigPicture = s.bigPicture)
    (i : Nat) : s'.line i = s.line i := by
  obtain ⟨_, _, _, _, _, _, _, rfl, -⟩ := h
  exact congrFun hbp _

theorem Refreshed.cur {s s' : Screen} (h : Refreshed s s') :
    s'.curLn = s.curLn ∧ s'.curCol = s.curCol := by
  obtain ⟨_, _, _, _, _, _, _, rfl, -⟩ := h
  exact ⟨rfl, rfl⟩

theorem Rows.next {s₀ : Screen} {n : Nat} (h : Rows d₀ s₀ n s d) (hn : n < s.scrLns) :
    ∃ d', Rows d₀ s₀ (n + 1) (s.refreshLine n) d' ∧ d'.sticky = d.sticky := by
  by_cases hflag : (s.line n).lchanged = true
  · obtain ⟨d', hrow, hsticky, hframe, hdone, hflag', hrest, hlast⟩ :=
      refreshLine_spec h.mirror h.scrollcnt hn h.row (h.col.imp_right And.left) hflag
    have hlns := hframe.scrLns
    have hcols := hframe.scrCols
    refine ⟨d', ⟨hrow.mirror, hrow.scrollcnt, hrow.row.trans hrow.tcLine.symm,
      by rw [hrow.tcLine]; exact hrow.lt, .inl hrow.col,
      fun i hi hfi => ?_, fun i hi hlt => ?_, fun i hi hle => ?_, h.frame.trans hframe,
      fun i _ hlt _ => by rw [hrow.tcLine]; omega, fun hcol hmark hline => ?_⟩, hsticky⟩
    · rw [hlns] at hi
      rw [hcols]
      by_cases heq : i = n
      · rwa [heq]
      · rw [hrest i hi heq] at hfi ⊢
        exact h.marked i hi hfi
    · rw [hlns] at hi
      by_cases heq : i = n
      · rwa [heq]
      · rw [hrest i hi heq]
        exact h.done i hi (by omega)
    · rw [hlns] at hi
      rw [hrest i hi (by omega)]
      exact h.rest i hi (by omega)
    · rw [hcols]
      refine hlast.resolve_right fun hbad => ?_
      rw [h.rest n hn (le_refl n), h.frame.scrCols] at hbad
      rw [← hline, hrow.tcLine] at hmark
      rw [hmark] at hbad
      contradiction
  · have hsame : s.refreshLine n = s := if_neg hflag
    rw [hsame]
    refine ⟨d, ⟨h.mirror, h.scrollcnt, h.row, h.lt, ?_, h.marked, fun i hi hlt => ?_,
      fun i hi hle => h.rest i hi (by omega), h.frame, fun i hi hlt hfi => ?_, h.margin⟩, rfl⟩
    · refine h.col.imp_right fun hcol => ⟨hcol.1, ?_⟩
      obtain ⟨i, hle, hlt, hfi⟩ := hcol.2
      have hne : i ≠ n := by
        rintro rfl
        exact hflag hfi
      exact ⟨i, by omega, hlt, hfi⟩
    · obtain hlt | rfl := Nat.lt_succ_iff_lt_or_eq.mp hlt
      · exact h.done i hi hlt
      · simpa using hflag
    · obtain hlt | rfl := Nat.lt_succ_iff_lt_or_eq.mp hlt
      · exact h.last i hi hlt hfi
      · rw [h.rest i hi (le_refl i)] at hflag
        exact absurd hfi hflag

theorem Rows.all {s₀ : Screen} (h : Rows d₀ s₀ 0 s d) {n : Nat} (hn : n ≤ s.scrLns) :
    ∃ d', Rows d₀ s₀ n ((List.range n).foldl (fun s i => s.refreshLine i) s) d' ∧
      d'.sticky = d.sticky := by
  induction n with
  | zero => exact ⟨d, h, rfl⟩
  | succ n ih =>
      obtain ⟨d', hrows, hsticky⟩ := ih (by omega)
      have hlns : ((List.range n).foldl (fun s i => s.refreshLine i) s).scrLns = s.scrLns :=
        hrows.frame.scrLns.trans h.frame.scrLns.symm
      obtain ⟨d'', hrows', hsticky'⟩ := hrows.next (by omega)
      rw [List.range_succ, List.foldl_append]
      exact ⟨d'', hrows', hsticky'.trans hsticky⟩

/-! ## refresh -/

/-- What holds between two calls: the terminal shows every cell that is not marked, a line with
marked cells is flagged, and the program knows where the terminal's cursor is, or will send it to
column 0 first. -/
structure Sync (d₀ : Display) (s : Screen) (d : Display) : Prop where
  mirror : Mirror d₀ s d
  row : d.row = s.tcLine
  lt : s.tcLine < s.scrLns
  col : d.col = s.tcCol ∨ s.tcCol ≠ 0 ∧ ∃ i < s.scrLns, (s.line i).lchanged = true
  marked : ∀ i < s.scrLns, (s.line i).lchanged = false →
    ∀ k < s.scrCols, (s.line i).changed k = false
  roll : s.roll < s.scrLns
  cur : Known s.curColor
  default : Known s.defaultCurColor

theorem Rows.start (h : Mirror d₀ s d) (hscroll : s.scrollcnt = 0) (hrow : d.row = s.tcLine)
    (hlt : s.tcLine < s.scrLns)
    (hcol : d.col = s.tcCol ∨ s.tcCol ≠ 0 ∧ ∃ i < s.scrLns, (s.line i).lchanged = true)
    (hmarked : ∀ i < s.scrLns, (s.line i).lchanged = false →
      ∀ k < s.scrCols, (s.line i).changed k = false) : Rows d₀ s 0 s d := by
  refine ⟨h, hscroll, hrow, hlt, hcol.imp_right fun hweak => ⟨hweak.1, ?_⟩, hmarked,
    fun _ _ hbad => absurd hbad (Nat.not_lt_zero _), fun _ _ _ => rfl, .refl s,
    fun _ _ hbad => absurd hbad (Nat.not_lt_zero _), fun hcol _ _ => hcol⟩
  obtain ⟨i, hi, hflag⟩ := hweak.2
  exact ⟨i, Nat.zero_le i, hi, hflag⟩

/-- Bytes that scroll the terminal by as much as the picture was. -/
theorem Mirror.scrolled (h : Mirror d₀ s d) {bytes : List UInt8} {d' : Display}
    (hplays : Plays d bytes d') (hlines : d'.lines = d.lines) (hcolumns : d'.columns = d.columns)
    (hmode : d'.mode = d.mode) (hcolor : d'.color = d.color)
    (hcell : ∀ r < d.lines, ∀ c, d'.cell r c = d.scrolled s.scrollcnt r c) (tcCol tcLine : Nat) :
    Mirror d₀ { s with scrollcnt := 0, tcCol := tcCol, tcLine := tcLine, out := s.out ++ bytes } d' := by
  refine .of_cells (h.plays.append hplays) (hlines.trans h.lines) (hcolumns.trans h.columns) h.cols
    ⟨hmode.trans h.pen.mode, by rw [hcolor]; exact h.pen.bg, by rw [hcolor]; exact h.pen.fg⟩
    h.proper rfl fun i hi k hk hck => ?_
  rw [hcell i (by rw [h.lines]; exact hi) k]
  exact h.alike i hi k hk hck

/-- The terminal scrolls, by new lines at the bottom or by lines inserted at the top. -/
theorem Sync.sendScroll (h : Sync d₀ s d) :
    ∃ d', Rows d₀ s.sendScroll 0 s.sendScroll d' ∧ d'.sticky = d.sticky ∧
      Refreshed s s.sendScroll ∧ s.sendScroll.bigPicture = s.bigPicture ∧
      (s.tcCol < s.scrCols → s.sendScroll.tcCol < s.scrCols) := by
  have hpos : 0 < s.scrLns := by have := h.lt; omega
  have hcols := h.mirror.cols
  obtain hneg | hzero | hup := Int.lt_trichotomy s.scrollcnt 0
  · obtain ⟨d₁, hmirror, hrow, hcol, hsticky, htcCol, htcLine, hbp, hsent⟩ :=
      h.mirror.relMove 0 0 (.inr rfl) hpos (Nat.zero_le _) h.row
        (h.col.imp_right fun hweak => ⟨rfl, hweak.1⟩) fun _ _ hne => absurd rfl hne
    have hsent₀ := hsent 0
    have heq : s.sendScroll = { (s.relMove s.tcCol s.tcLine 0 0).output
        (27 :: 91 :: (decimal (-s.scrollcnt).toNat ++ [76])) with scrollcnt := 0 } := by
      unfold Screen.sendScroll
      rw [if_pos hneg]
      exact if_neg (Int.lt_irrefl 0)
    generalize s.relMove s.tcCol s.tcLine 0 0 = t at *
    have hline : ∀ i, t.line i = s.line i := fun i => by
      rw [Screen.line, hsent₀.ring, hbp, Screen.line]
    have hplays : Plays d₁ (27 :: 91 :: (decimal (-s.scrollcnt).toNat ++ [76]))
        (d₁.insertLines (-s.scrollcnt).toNat) := by
      have hseq := Plays.sequence₁ (spells_decimal (-s.scrollcnt).toNat) 76
        (by simp [Vt.IsDigit]) (by simp) d₁
      have hmax : max (-s.scrollcnt).toNat 1 = (-s.scrollcnt).toNat := by omega
      simpa [Display.control, hmax] using hseq
    have hcell : ∀ r < d₁.lines, ∀ c, (d₁.insertLines (-s.scrollcnt).toNat).cell r c =
        d₁.scrolled t.scrollcnt r c := by
      intro r hr c
      rw [hsent₀.scrollcnt]
      simp only [Display.insertLines, Display.scrolled, hrow]
      grind
    have hscrolled := hmirror.scrolled hplays rfl rfl rfl rfl hcell t.tcCol t.tcLine
    have htcCol₀ : t.tcCol = 0 := by rw [htcCol]; omega
    rw [heq]
    refine ⟨_, .start hscrolled rfl (hrow.trans htcLine.symm) ?_ (.inl htcCol₀.symm) ?_, hsticky,
      hsent₀.refreshed.trans ⟨_, _, _, _, _, _, _, rfl, fun _ => rfl⟩, hbp, fun _ => ?_⟩
    · change t.tcLine < t.scrLns
      rwa [htcLine, hsent₀.scrLns]
    · intro i hi hflag k hk
      change ((t.line i).changed k) = false
      rw [hline]
      exact h.marked i (hsent₀.scrLns ▸ hi) (hline i ▸ hflag) k (hsent₀.scrCols ▸ hk)
    · change t.tcCol < s.scrCols
      omega
  · have heq : s.sendScroll = s := by
      unfold Screen.sendScroll
      rw [if_neg (show ¬ s.scrollcnt < 0 by omega)]
      exact if_neg (by omega)
    rw [heq]
    exact ⟨d, .start h.mirror hzero h.row h.lt h.col h.marked, rfl, .refl s, rfl, id⟩
  · have heq : s.sendScroll = { s with
        scrollcnt := 0
        tcCol := 0
        tcLine := s.scrLns - 1
        out := s.out ++ ((27 :: 91 :: (decimal (s.scrLns - 1 + 1) ++ 59 :: (decimal (0 + 1) ++ [72]))) ++
          List.replicate s.scrollcnt.toNat 10) } := by
      unfold Screen.sendScroll
      rw [if_neg (show ¬ s.scrollcnt < 0 by omega)]
      dsimp only
      rw [if_pos hup, foldl_ochar]
      simp [doMove, output]
    have hgoto := plays_goto 0 (s.scrLns - 1) d
    have hrow : (d.goto (s.scrLns - 1 + 1) (0 + 1)).row = s.scrLns - 1 := by
      simp [Display.goto, h.mirror.lines]
    obtain ⟨cell, hlfs, hcell⟩ := Plays.lfs (d.goto (s.scrLns - 1 + 1) (0 + 1)) s.scrollcnt.toNat
      (by rw [hrow]; change _ = d.lines; rw [h.mirror.lines]; omega)
    have hcell' : ∀ r < d.lines, ∀ c, cell r c = d.scrolled s.scrollcnt r c := by
      intro r hr c
      rw [hcell r hr c, Int.toNat_of_nonneg (le_of_lt hup)]
      rfl
    have hscrolled := h.mirror.scrolled (hgoto.append hlfs) rfl rfl rfl rfl hcell' 0 (s.scrLns - 1)
    rw [heq]
    refine ⟨_, .start hscrolled rfl hrow ?_ (.inl ?_) h.marked, rfl,
      ⟨_, _, _, _, _, _, _, rfl, fun _ => rfl⟩, rfl, fun _ => hcols⟩
    · change s.scrLns - 1 < s.scrLns
      omega
    · change min (0 + 1 - 1) (d.columns - 1) = 0
      simp

/-- `refresh` does not end with a move to the left from past the last column of a row: the cursor
goes to column 0, or that column of its row is not to be written, or a row below it is. -/
def MarginFree (s : Screen) : Prop :=
  s.curCol = 0 ∨ s.tcCol < s.scrCols ∧ ((s.line s.curLn).changed (s.scrCols - 1) = false ∨
    ∃ i, s.curLn < i ∧ i < s.scrLns ∧ (s.line i).lchanged = true)

/-- After `refresh` no cell is marked: the terminal shows the whole picture, and its cursor is
where the program has its own. -/
structure Shown (d₀ : Display) (s : Screen) (d : Display) : Prop where
  sync : Sync d₀ s d
  scrollcnt : s.scrollcnt = 0
  unmarked : ∀ i < s.scrLns, ∀ k < s.scrCols, (s.line i).changed k = false
  cursor : s.curLn < s.scrLns → s.curCol ≤ s.scrCols →
    d.row = s.curLn ∧ d.col = min s.curCol (s.scrCols - 1)

theorem Sync.of_unmarked {t : Screen} {e : Display} (h : Sync d₀ s d) (hframe : Refreshed s t)
    (hmirror : Mirror d₀ t e) (hrow : e.row = t.tcLine) (hlt : t.tcLine < t.scrLns)
    (hcol : e.col = t.tcCol)
    (hunmarked : ∀ i < t.scrLns, ∀ k < t.scrCols, (t.line i).changed k = false) : Sync d₀ t e := by
  refine ⟨hmirror, hrow, hlt, .inl hcol, fun i hi _ => hunmarked i hi, ?_, ?_, ?_⟩ <;>
    obtain ⟨_, _, _, _, _, _, _, rfl, -⟩ := hframe
  · exact h.roll
  · exact h.cur
  · exact h.default

theorem Sync.refresh (h : Sync d₀ s d) (hmargin : d.sticky = true → s.MarginFree) :
    ∃ d', Shown d₀ (s.refresh false) d' ∧ d'.sticky = d.sticky ∧ Refreshed s (s.refresh false) := by
  obtain ⟨d₁, hrows, hsticky₁, hframe₁, hbp₁, htcCol₁⟩ := h.sendScroll
  obtain ⟨d₂, hrows₂, hsticky₂⟩ := hrows.all (le_refl _)
  have heq : s.refresh false =
      (let t := (List.range s.sendScroll.scrLns).foldl (fun s i => s.refreshLine i) s.sendScroll
       t.relMove t.tcCol t.tcLine t.curCol t.curLn) := rfl
  rw [heq]
  have hframe := hframe₁.trans hrows₂.frame
  generalize (List.range s.sendScroll.scrLns).foldl (fun s i => s.refreshLine i) s.sendScroll = t at *
  have hlns : t.scrLns = s.sendScroll.scrLns := hrows₂.frame.scrLns
  have hcol₂ : d₂.col = t.tcCol := by
    refine hrows₂.col.resolve_right fun hweak => ?_
    obtain ⟨i, hle, hlt, -⟩ := hweak.2
    omega
  have hunmarked : ∀ i < t.scrLns, ∀ k < t.scrCols, (t.line i).changed k = false :=
    fun i hi => hrows₂.marked i hi (hrows₂.done i hi (hlns ▸ hi))
  obtain ⟨hcurLn, hcurCol⟩ := hframe.cur
  dsimp only
  by_cases hin : t.curLn < t.scrLns ∧ t.curCol ≤ t.scrCols
  · have hfree : d₂.sticky = true → t.tcLine = t.curLn → t.curCol ≠ 0 → t.tcCol < t.scrCols := by
      intro hst hsame hne
      rw [hsticky₂, hsticky₁] at hst
      obtain hzero | ⟨htc, hlast | ⟨i, hlt, hi, hflag⟩⟩ := hmargin hst
      · exact absurd (hcurCol.trans hzero) hne
      · refine hrows₂.margin (by rw [hframe₁.scrCols]; exact htcCol₁ htc) ?_ ?_
        · rw [hframe₁.line hbp₁, hframe₁.cur.1, hframe₁.scrCols]
          exact hlast
        · rw [hsame, hcurLn, hframe₁.cur.1]
      · have hi' : i < t.scrLns := hframe.scrLns ▸ hi
        have hle := hrows₂.last i hi' (hlns ▸ hi') (by rw [hframe₁.line hbp₁]; exact hflag)
        omega
    obtain ⟨d₃, hmirror, hrow, hcol, hsticky₃, htcCol, htcLine, hbp, hsent⟩ :=
      hrows₂.mirror.relMove _ _ (.inl hrows₂.scrollcnt) hin.1 hin.2 hrows₂.row (.inl hcol₂) hfree
    have hsent₀ := hsent 0
    have hframe₃ := hframe.trans hsent₀.refreshed
    have hline := hsent₀.refreshed.line hbp
    generalize t.relMove t.tcCol t.tcLine t.curCol t.curLn = u at *
    have hlns' := hsent₀.scrLns
    have hcols' := hsent₀.scrCols
    have hunmarked' : ∀ i < u.scrLns, ∀ k < u.scrCols, (u.line i).changed k = false := by
      intro i hi k hk
      rw [hline]
      exact hunmarked i (hlns' ▸ hi) k (hcols' ▸ hk)
    have hcur := hframe₃.cur
    refine ⟨d₃, ⟨h.of_unmarked hframe₃ hmirror (hrow.trans htcLine.symm) ?_ (hcol.trans htcCol.symm)
      hunmarked', hsent₀.scrollcnt.trans hrows₂.scrollcnt, hunmarked', fun _ _ => ?_⟩,
      hsticky₃.trans (hsticky₂.trans hsticky₁), hframe₃⟩
    · rw [htcLine, hlns']
      exact hin.1
    · rw [hrow, hcol, hcur.1, hcur.2, hcurLn, hcurCol, hcols']
      exact ⟨rfl, rfl⟩
  · have hstay : t.relMove t.tcCol t.tcLine t.curCol t.curLn = t := by
      unfold Screen.relMove
      dsimp only
      rw [if_pos (by grind)]
    rw [hstay]
    exact ⟨d₂, ⟨h.of_unmarked hframe hrows₂.mirror hrows₂.row hrows₂.lt hcol₂ hunmarked,
      hrows₂.scrollcnt, hunmarked, fun hlt hle => absurd ⟨hlt, hle⟩ hin⟩,
      hsticky₂.trans hsticky₁, hframe⟩

end Ytht.Screen
