import Ytht.Screen.Outns
import Ytht.Screen.Refresh

/-!
# Screen.Session

What the program does with its screen between two refreshes, and the whole session.

`Follows` says that a call keeps `Sync`.  `refresh_shows` is about every session: after `refresh`
the terminal shows the picture, whatever was drawn and scrolled before.
-/

namespace Ytht.Screen

open Vt (Mode Color Cell Display Plays Printable)

variable {d₀ d : Display} {s s' s'' : Screen}

/-- A terminal that keeps up with `s` keeps up with `s'` as well. -/
def Follows (s s' : Screen) : Prop :=
  ∀ ⦃d₀ d⦄, Sync d₀ s d → ∃ d', Sync d₀ s' d'

theorem Follows.refl (s : Screen) : Follows s s := fun _ d h => ⟨d, h⟩

theorem Follows.trans (h : Follows s s') (h' : Follows s' s'') : Follows s s'' := by
  intro d₀ d hsync
  obtain ⟨d', hsync'⟩ := h hsync
  exact h' hsync'

theorem Follows.foldl {α : Type} {f : Screen → α → Screen} (h : ∀ s a, Follows s (f s a))
    (as : List α) (s : Screen) : Follows s (as.foldl f s) := by
  induction as generalizing s with
  | nil => exact .refl s
  | cons a as ih => exact (h s a).trans (ih (f s a))

/-! ## Drawing -/

/-- What neither the terminal nor the lines depend on. -/
theorem follows_cursor (s : Screen) (curLn curCol offsetln : Nat) (disableMove : Bool)
    (savey savex : Int) :
    Follows s { s with
      curLn := curLn, curCol := curCol, offsetln := offsetln, disableMove := disableMove,
      savey := savey, savex := savex } :=
  fun _ d h => ⟨d, ⟨⟨h.mirror.plays, h.mirror.lines, h.mirror.columns, h.mirror.cols,
    ⟨h.mirror.pen.mode, h.mirror.pen.bg, h.mirror.pen.fg⟩, h.mirror.proper, h.mirror.alike⟩, h.row,
    h.lt, h.col, h.marked, h.roll, h.cur, h.default⟩⟩

/-- The colours of the text. -/
theorem follows_color (s : Screen) (curMode defaultCurMode : Mode) {curColor defaultCurColor : Color}
    (hcur : Known s.curColor → Known s.defaultCurColor → Known curColor)
    (hdefault : Known s.defaultCurColor → Known defaultCurColor) :
    Follows s { s with
      curMode := curMode, curColor := curColor, defaultCurMode := defaultCurMode,
      defaultCurColor := defaultCurColor } :=
  fun _ d h => ⟨d, ⟨⟨h.mirror.plays, h.mirror.lines, h.mirror.columns, h.mirror.cols,
    ⟨h.mirror.pen.mode, h.mirror.pen.bg, h.mirror.pen.fg⟩, h.mirror.proper, h.mirror.alike⟩, h.row,
    h.lt, h.col, h.marked, h.roll, hcur h.cur h.default, hdefault h.default⟩⟩

theorem follows_setfcolor {i : Nat} (j : Bool) (hi : i < 8) : Follows s (s.setfcolor i j) :=
  follows_color s _ _ (fun h _ => ⟨hi, h.2⟩) id

theorem follows_setdefaultfcolor {i : Nat} (j : Bool) (hi : i < 8) :
    Follows s (s.setdefaultfcolor i j) :=
  follows_color s _ _ (fun _ h => ⟨hi, h.2⟩) fun h => ⟨hi, h.2⟩

/-- Black is 8; 0 is the terminal's own background. -/
theorem bcolor_le {i : Nat} (hi : i < 8) : (if i = 0 then 8 else i) ≤ 8 := by
  split <;> omega

theorem follows_setbcolor {i : Nat} (hi : i < 8) : Follows s (s.setbcolor i) :=
  follows_color s _ _ (fun h _ => ⟨h.1, bcolor_le hi⟩) id

theorem follows_setdefaultbcolor {i : Nat} (hi : i < 8) : Follows s (s.setdefaultbcolor i) :=
  follows_color s _ _ (fun _ h => ⟨h.1, bcolor_le hi⟩) fun h => ⟨h.1, bcolor_le hi⟩

theorem ring_mod (s : Screen) (i : Nat) : s.ring (i % s.scrLns) = s.ring i := by
  simp [ring]

/-- A line that is flagged, and whose unmarked cells are as before. -/
theorem follows_setLine (i : Nat) {l : Screenline} (hflag : l.lchanged = true)
    (hproper : ∀ k < s.scrCols, Known s.curColor → Proper ((s.line i).cell k) → Proper (l.cell k))
    (hmark : ∀ k < s.scrCols, l.changed k = false →
      (s.line i).changed k = false ∧ l.cell k = (s.line i).cell k) :
    Follows s (s.setLine (s.ring i) l) := by
  intro d₀ d h
  have hpos : 0 < s.scrLns := by have := h.lt; omega
  -- the row on the screen that the index stands for
  have hi : i % s.scrLns < s.scrLns := Nat.mod_lt _ hpos
  have hsame : s.line (i % s.scrLns) = s.line i := congrArg s.bigPicture (ring_mod s i)
  rw [← hsame] at hproper hmark
  rw [← ring_mod s i]
  generalize i % s.scrLns = i at *
  have hline : ∀ i' < s.scrLns, (s.setLine (s.ring i) l).line i' = if i' = i then l else s.line i' :=
    fun i' hi' => setLine_line hi hi' l
  refine ⟨d, ⟨⟨h.mirror.plays, h.mirror.lines, h.mirror.columns, h.mirror.cols,
    ⟨h.mirror.pen.mode, h.mirror.pen.bg, h.mirror.pen.fg⟩, fun i' hi' k hk => ?_,
    fun i' hi' k hk hck => ?_⟩, h.row, h.lt, h.col.imp_right fun hweak => ⟨hweak.1, i, hi, ?_⟩,
    fun i' hi' hfi k hk => ?_, h.roll, h.cur, h.default⟩⟩
  · rw [hline i' hi']
    split
    · exact hproper k hk h.cur (h.mirror.proper i hi k hk)
    · exact h.mirror.proper i' hi' k hk
  · rw [hline i' hi'] at hck ⊢
    split at hck
    · next heq =>
        obtain ⟨hold, hcell⟩ := hmark k hk hck
        rw [if_pos heq, hcell, heq]
        exact h.mirror.alike i hi k hk hold
    · next hne =>
        rw [if_neg hne]
        exact h.mirror.alike i' hi' k hk hck
  · rw [hline i hi, if_pos rfl]
    exact hflag
  · rw [hline i' hi'] at hfi ⊢
    split at hfi
    · rw [hflag] at hfi
      contradiction
    · next hne =>
        rw [if_neg hne]
        exact h.marked i' hi' hfi k hk

theorem follows_paint (i lo hi : Nat) {f : Nat → Cell}
    (hf : Known s.curColor → ∀ k, Proper (f k)) :
    Follows s (s.setLine (s.ring i) (paint (s.line i) lo hi f)) := by
  refine follows_setLine i rfl (fun k _ hcur hold => ?_) fun k _ hck => ?_
  · simp only [paint]
    split
    · exact hf hcur k
    · exact hold
  · simp only [paint] at hck ⊢
    split at hck
    · contradiction
    · next hout => exact ⟨hck, if_neg hout⟩

theorem proper_curBlank (h : Known s.curColor) : Proper s.curBlank :=
  ⟨(by decide : Printable 32), h⟩

theorem follows_clearWholeLine (i : Nat) : Follows s (s.clearWholeLine i) :=
  follows_paint i _ _ fun h _ => proper_curBlank h

theorem follows_clrtoeol : Follows s s.clrtoeol := by
  unfold clrtoeol
  split
  · exact follows_paint _ _ _ fun h _ => proper_curBlank h
  · exact .refl s

theorem follows_clrtobot : Follows s s.clrtobot :=
  follows_clrtoeol.trans (.foldl (fun _ i => follows_clearWholeLine i) _ _)

theorem follows_putIn (i : Nat) {c : UInt8} (hc : Printable c) :
    Follows s (s.putIn (s.ring i) c) := by
  unfold putIn
  split
  · exact (follows_paint i _ _ fun h _ => ⟨hc, h⟩).trans (follows_cursor _ _ _ _ _ _ _)
  · exact .refl s

theorem printable_iff (c : UInt8) : isprint2 c = true ↔ Printable c := by
  have hne : c ≠ 127 ↔ c.toNat ≠ 127 := UInt8.toNat_inj.symm.not
  simp only [isprint2, Printable, hne, Bool.or_eq_true, Bool.and_eq_true, decide_eq_true_eq,
    UInt8.le_iff_toNat_le, UInt8.reduceToNat]
  omega

theorem follows_outc (c : UInt8) : Follows s (s.outc c) := by
  unfold outc
  split
  · split
    · have hnext : Follows s { s.clrtoeol with curCol := 0 } :=
        follows_clrtoeol.trans (follows_cursor _ _ _ _ _ _ _)
      dsimp only
      split
      · exact hnext.trans (follows_cursor _ _ _ _ _ _ _)
      · exact hnext
    · exact .refl s
  · next h => exact follows_putIn _ ((printable_iff c).mp (by simpa using h))

theorem follows_restoreLine (i : Nat) {saved : Nat → Cell} (h : ∀ k, Proper (saved k)) :
    Follows s (s.restoreLine i saved) :=
  follows_setLine i rfl (fun k _ _ _ => h k) fun _ _ hck => by contradiction

/-! ## Scrolling and clearing -/

theorem scrolled_succ (d : Display) (n : Int) (r c : Nat) :
    d.scrolled n (r + 1) c = d.scrolled (n + 1) r c := by
  have hcast : ((r + 1 : Nat) : Int) + n = (r : Int) + (n + 1) := by omega
  simp only [Display.scrolled, hcast]

/-- The line that comes in is marked. -/
def markLine (s : Screen) (i : Nat) : Screen :=
  s.setLine (s.ring i) { s.line i with
    changed := fun k => if k < s.scrCols then true else (s.line i).changed k
    lchanged := true }

/-- Rows that move by one: row `i` shows what row `move i` did, and the one that comes in is
marked. -/
theorem follows_move {roll i₀ : Nat} {scrollcnt : Int} (move : Nat → Nat)
    (hroll : s.roll < s.scrLns → roll < s.scrLns ∧ i₀ < s.scrLns ∧
      ∀ i < s.scrLns, (i + roll) % s.scrLns = s.ring (move i))
    (hmove : ∀ i < s.scrLns, i ≠ i₀ → move i < s.scrLns ∧
      ∀ d : Display, ∀ c, d.scrolled scrollcnt i c = d.scrolled s.scrollcnt (move i) c) :
    Follows s (({ s with scrollcnt := scrollcnt, roll := roll }).markLine i₀) := by
  intro d₀ d h
  obtain ⟨hlt, hi₀, hring⟩ := hroll h.roll
  have hline : ∀ i < s.scrLns,
      (({ s with scrollcnt := scrollcnt, roll := roll }).markLine i₀).line i =
        if i = i₀ then { s.line (move i₀) with
          changed := fun k => if k < s.scrCols then true else (s.line (move i₀)).changed k
          lchanged := true }
        else s.line (move i) := by
    intro i hi
    have hshown : ∀ i < s.scrLns,
        ({ s with scrollcnt := scrollcnt, roll := roll } : Screen).line i = s.line (move i) :=
      fun i hi => congrArg s.bigPicture (hring i hi)
    rw [markLine, setLine_line (s := { s with scrollcnt := scrollcnt, roll := roll }) hi₀ hi,
      hshown i hi, hshown i₀ hi₀]
  have hproper : ∀ i, ∀ k < s.scrCols, Proper ((s.line i).cell k) := by
    intro i k hk
    have hsame : s.line (i % s.scrLns) = s.line i := congrArg s.bigPicture (ring_mod s i)
    rw [← hsame]
    exact h.mirror.proper _ (Nat.mod_lt _ (by omega)) k hk
  refine ⟨d, ⟨⟨h.mirror.plays, h.mirror.lines, h.mirror.columns, h.mirror.cols,
    ⟨h.mirror.pen.mode, h.mirror.pen.bg, h.mirror.pen.fg⟩, fun i hi k hk => ?_,
    fun i hi k hk hck => ?_⟩, h.row, h.lt, h.col.imp_right fun hweak => ⟨hweak.1, i₀, hi₀, ?_⟩,
    fun i hi hfi k hk => ?_, hlt, h.cur, h.default⟩⟩
  · rw [hline i hi]
    split
    · exact hproper (move i₀) k hk
    · exact hproper (move i) k hk
  · rw [hline i hi] at hck ⊢
    by_cases heq : i = i₀
    · rw [if_pos heq] at hck
      exact Bool.noConfusion ((if_pos hk).symm.trans hck)
    · obtain ⟨hmlt, hscrolled⟩ := hmove i hi heq
      rw [if_neg heq] at hck ⊢
      have halike := h.mirror.alike (move i) hmlt k hk hck
      rwa [← hscrolled] at halike
  · rw [hline i₀ hi₀, if_pos rfl]
  · rw [hline i hi] at hfi ⊢
    by_cases heq : i = i₀
    · rw [if_pos heq] at hfi
      contradiction
    · rw [if_neg heq] at hfi ⊢
      exact h.marked (move i) (hmove i hi heq).1 hfi k hk

theorem follows_scroll : Follows s s.scroll := by
  have hmoved : Follows s (({ s with
      scrollcnt := s.scrollcnt + 1
      roll := if s.scrLns ≤ s.roll + 1 then s.roll + 1 - s.scrLns else s.roll + 1 }).markLine
        (s.scrLns - 1)) := by
    refine follows_move (· + 1) (fun hroll => ⟨?_, by omega, fun i _ => ?_⟩)
      fun i hi hne => ⟨by omega, fun d c => (scrolled_succ d _ i c).symm⟩
    · split <;> omega
    · rw [ring]
      split
      · have hsum : i + 1 + s.roll = i + (s.roll + 1 - s.scrLns) + s.scrLns := by omega
        rw [hsum, Nat.add_mod_right]
      · congr 1
        omega
  exact hmoved.trans (follows_cursor _ (s.scrLns - 1) 0 _ _ _ _)

theorem follows_rscroll : Follows s s.rscroll := by
  have hmoved : Follows s (({ s with
      scrollcnt := s.scrollcnt - 1
      roll := if 0 < s.roll then s.roll - 1 else s.scrLns - 1 }).markLine 0) := by
    refine follows_move (fun i => if i = 0 then s.scrLns - 1 else i - 1)
      (fun hroll => ⟨by split <;> omega, by omega, fun i _ => ?_⟩)
      fun i hi hne => ⟨by simp only [hne, if_false]; omega, fun d c => ?_⟩
    · -- one full turn of the ring, or none
      have hturn : i + (if 0 < s.roll then s.roll - 1 else s.scrLns - 1) =
          (if i = 0 then s.scrLns - 1 else i - 1) + s.roll ∨
          i + (if 0 < s.roll then s.roll - 1 else s.scrLns - 1) + s.scrLns =
          (if i = 0 then s.scrLns - 1 else i - 1) + s.roll ∨
          i + (if 0 < s.roll then s.roll - 1 else s.scrLns - 1) =
          (if i = 0 then s.scrLns - 1 else i - 1) + s.roll + s.scrLns := by
        split <;> split <;> omega
      rw [ring]
      obtain hsum | hsum | hsum := hturn
      · rw [hsum]
      · rw [← hsum, Nat.add_mod_right]
      · rw [hsum, Nat.add_mod_right]
    · have hprev := scrolled_succ d (s.scrollcnt - 1) (i - 1) c
      rw [Nat.sub_add_cancel (by omega), Int.sub_add_cancel] at hprev
      simpa only [hne, if_false] using hprev
  exact hmoved.trans (follows_cursor _ 0 0 _ _ _ _)

theorem follows_noscroll : Follows s s.noscroll := by
  intro d₀ d h
  have hpos : 0 < s.scrLns := by have := h.lt; omega
  have hline : ∀ i < s.scrLns, s.noscroll.line i = s.line i := by
    intro i hi
    change s.noscroll.bigPicture ((i + 0) % s.scrLns) = _
    rw [Nat.add_zero, Nat.mod_eq_of_lt hi]
    exact if_pos hi
  refine ⟨d, ⟨⟨h.mirror.plays, h.mirror.lines, h.mirror.columns, h.mirror.cols,
    ⟨h.mirror.pen.mode, h.mirror.pen.bg, h.mirror.pen.fg⟩, fun i hi k hk => ?_,
    fun i hi k hk hck => ?_⟩, h.row, h.lt, h.col.imp_right fun hweak => ⟨hweak.1, ?_⟩,
    fun i hi hfi k hk => ?_, hpos, h.cur, h.default⟩⟩
  · rw [hline i hi]
    exact h.mirror.proper i hi k hk
  · rw [hline i hi] at hck ⊢
    exact h.mirror.alike i hi k hk hck
  · obtain ⟨i, hi, hflag⟩ := hweak.2
    exact ⟨i, hi, by rw [hline i hi]; exact hflag⟩
  · rw [hline i hi] at hfi ⊢
    exact h.marked i hi hfi k hk

/-- A terminal with nothing on it. -/
def wiped (d : Display) : Display :=
  { d with row := 0, col := 0, mode := .plain, color := .plain, cell := fun _ _ => space }

/-- `o_clear` sends the terminal's cursor home and erases everything with the plain pen. -/
theorem plays_clear (h : Penned s d) :
    Plays d ((if s.tcColor ≠ .plain ∨ s.tcMode ≠ .plain then [27, 91, 109] else []) ++
        ([27, 91, 72] ++ [27, 91, 74])) (wiped d) := by
  have hreset : Plays d (if s.tcColor ≠ .plain ∨ s.tcMode ≠ .plain then [27, 91, 109] else [])
      { d with mode := .plain, color := .plain } := by
    split
    · exact Plays.sequence₁ spells_nil _ (by simp [Vt.IsDigit]) (by simp) d
    · next hplain =>
        obtain ⟨hcolor, hmode⟩ : s.tcColor = .plain ∧ s.tcMode = .plain := by
          simpa only [not_or, not_not] using hplain
        have hpen : d.mode = .plain ∧ d.color = .plain := by
          refine ⟨h.mode.trans hmode, ?_⟩
          have hfg := h.fg
          have hbg := h.bg
          rw [told_fg, hcolor] at hfg
          rw [told_bg, hcolor] at hbg
          cases hd : d.color with
          | mk fg bg => 
              rw [hd] at hfg hbg
              simp [Color.plain] at hfg hbg ⊢
              exact ⟨hfg, hbg⟩
        rw [← hpen.1, ← hpen.2]
        exact Plays.nil d
  have hhome : Plays { d with mode := .plain, color := .plain } [27, 91, 72]
      { d with row := 0, col := 0, mode := .plain, color := .plain } := by
    have hseq := Plays.sequence₁ spells_nil 72 (by simp [Vt.IsDigit]) (by simp)
      { d with mode := .plain, color := .plain }
    simpa [Display.control, Display.goto] using hseq
  have herase : Plays { d with row := 0, col := 0, mode := .plain, color := .plain } [27, 91, 74]
      (wiped d) := by
    have hseq := Plays.sequence₁ spells_nil 74 (by simp [Vt.IsDigit]) (by simp)
      { d with row := 0, col := 0, mode := .plain, color := .plain }
    have hend : Display.control { d with row := 0, col := 0, mode := .plain, color := .plain } [0] 74 =
        wiped d := by
      refine Display.ext rfl rfl rfl (funext fun r => funext fun c => if_pos ?_) rfl rfl rfl rfl
      change 0 < r ∨ 0 = r ∧ 0 ≤ c
      omega
    rwa [← hend]
  exact hreset.append (hhome.append herase)

theorem clear_eq (s : Screen) : s.clear = { s with
    bigPicture := fun j => if j < s.scrLns then
      { cell := fun k => if k < s.scrCols then space else (s.bigPicture j).cell k
        changed := fun k => if k < s.scrCols then false else (s.bigPicture j).changed k
        lchanged := false } else s.bigPicture j
    curColor := .plain
    curMode := .plain
    curLn := 0
    curCol := 0
    tcMode := .plain
    tcColor := .plain
    tcCol := 0
    tcLine := 0
    out := s.out ++ ((if s.tcColor ≠ .plain ∨ s.tcMode ≠ .plain then [27, 91, 109] else []) ++
      ([27, 91, 72] ++ [27, 91, 74])) } := by
  unfold clear
  dsimp only
  split <;> simp [output, move]

theorem follows_clear : Follows s s.clear := by
  intro d₀ d h
  have hpos : 0 < s.scrLns := by have := h.lt; omega
  have hplays := h.mirror.plays.append (plays_clear h.mirror.pen)
  have hline : ∀ i, s.clear.line i =
      { cell := fun k => if k < s.scrCols then space else (s.line i).cell k
        changed := fun k => if k < s.scrCols then false else (s.line i).changed k
        lchanged := false } := by
    intro i
    rw [clear_eq]
    exact if_pos (Nat.mod_lt _ hpos)
  have hcell : ∀ i, ∀ k < s.scrCols, (s.clear.line i).cell k = space := by
    intro i k hk
    rw [hline]
    exact if_pos hk
  have hplain : Known Color.plain := by simp [Known, Color.plain]
  -- every cell of the erased terminal is the space that every cell of the picture is
  have hscrolled : ∀ r c, (wiped d).scrolled s.scrollcnt r c = space := by
    intro r c
    exact ite_self _
  have hmirror : Mirror d₀ s.clear (wiped d) := by
    refine ⟨?_, ?_, ?_, ?_, ⟨?_, ?_, .inl ?_⟩, fun i _ k hk => ?_, fun i _ k hk _ => ?_⟩
    · rw [clear_eq]
      exact hplays
    · rw [clear_eq]
      exact h.mirror.lines
    · rw [clear_eq]
      exact h.mirror.columns
    · rw [clear_eq]
      exact h.mirror.cols
    · rw [clear_eq, wiped]
    · rw [clear_eq]
      simp [wiped, told]
    · rw [clear_eq]
      simp [wiped, told]
    · rw [clear_eq] at hk
      rw [hcell i k hk]
      exact ⟨(by decide : Printable 32), hplain⟩
    · rw [clear_eq] at hk
      rw [hcell i k hk, clear_eq]
      exact .inl ((hscrolled i k).trans (by simp [written, told, space]))
  refine ⟨_, ⟨hmirror, ?_, ?_, .inl ?_, fun i _ _ k hk => ?_, ?_, ?_, ?_⟩⟩
  · rw [clear_eq, wiped]
  · rw [clear_eq]
    exact hpos
  · rw [clear_eq, wiped]
  · rw [clear_eq] at hk
    rw [hline]
    exact if_pos hk
  · rw [clear_eq]
    exact h.roll
  · rw [clear_eq]
    exact hplain
  · rw [clear_eq]
    exact h.default

/-! ## outns -/

theorem follows_setRendition (m : Int) : Follows s (s.setRendition m) := by
  unfold setRendition
  split
  · exact follows_color s _ _ (fun _ hdefault => hdefault) id
  split
  · exact follows_color s _ _ (fun h _ => h) id
  split
  · exact follows_color s _ _ (fun h _ => h) id
  split
  · exact follows_color s _ _ (fun h _ => h) id
  split
  · exact follows_color s _ _ (fun h _ => h) id
  split
  · next hfg => exact follows_color s _ _ (fun h _ => ⟨by dsimp only; omega, h.2⟩) id
  split
  · next hbg =>
      refine follows_color s _ _ (fun h _ => ⟨h.1, ?_⟩) id
      dsimp only
      split <;> omega
  · exact .refl s

theorem follows_renditions (fuel : Nat) (str : List UInt8) (s : Screen) :
    Follows s (renditions fuel str s) := by
  induction fuel generalizing str s with
  | zero => exact .refl s
  | succ fuel ih =>
      have hone : Follows s (if str.takeWhile isdigit = [] then s
          else s.setRendition (atoi (str.takeWhile isdigit))) := by
        split
        · exact .refl s
        · exact follows_setRendition _
      simp only [renditions]
      split
      · exact hone
      · exact hone.trans (ih _ _)
      · exact .refl s

theorem follows_gotoYX (body : List UInt8) (j : Nat) : Follows s (s.gotoYX body j) := by
  simp only [gotoYX]
  split
  · exact follows_cursor _ _ _ _ _ _ _
  · exact .refl s

theorem follows_moveBy (k : Int) (fin : UInt8) : Follows s (s.moveBy k fin) := by
  unfold moveBy
  split
  · exact .refl s
  · exact follows_cursor _ _ _ _ _ _ _

theorem follows_tab : Follows s s.tab :=
  .foldl (fun _ _ => follows_putIn _ (by decide)) _ _

/-- Every sequence but `\033[M` with its digits, which goes to the terminal as it is. -/
theorem follows_sequence {pending : Bool} {body : List UInt8} {fin : UInt8}
    (hfin : fin = 77 → body.all isdigit = false) (h : s.sequence pending body fin = some s') :
    Follows s s' := by
  simp only [sequence] at h
  split at h
  · split at h
    · obtain rfl := Option.some.inj h
      exact follows_gotoYX _ _
    split at h
    · obtain rfl := Option.some.inj h
      split
      · exact follows_clear
      · exact .refl s
    · contradiction
  split at h
  · obtain rfl := Option.some.inj h
    exact follows_moveBy _ _
  split at h
  · obtain rfl := Option.some.inj h
    exact follows_cursor _ _ _ _ _ _ _
  split at h
  · split at h
    · obtain rfl := Option.some.inj h
      exact follows_cursor _ _ _ _ _ _ _
    · contradiction
  split at h
  · obtain rfl := Option.some.inj h
    split
    · exact .refl s
    · exact follows_clear
  split at h
  · obtain rfl := Option.some.inj h
    split
    · exact (follows_renditions _ _ s).trans
        (follows_color _ _ _ (fun _ hdefault => hdefault) id)
    · exact follows_renditions _ _ s
  split at h
  · next hdelete =>
      obtain rfl := Option.some.inj h
      rw [hfin hdelete]
      exact .refl s
  split at h
  · obtain rfl := Option.some.inj h
    exact .refl s
  · contradiction

/-- A line flagged before a character is put in it. -/
theorem follows_flag (i : Nat) : Follows s { s with
    bigPicture := fun j => if j = s.ring i then { s.bigPicture j with lchanged := true }
      else s.bigPicture j } := by
  have hline : { s with
      bigPicture := fun j => if j = s.ring i then { s.bigPicture j with lchanged := true }
        else s.bigPicture j } = s.setLine (s.ring i) { s.line i with lchanged := true } := by
    simp only [setLine, line]
    congr 1
    funext j
    split
    · next heq => rw [heq]
    · rfl
  rw [hline]
  exact follows_setLine i rfl (fun _ _ _ h => h) fun _ _ h => ⟨h, rfl⟩

/-- The text has no `\033[M`, with digits before the `M`. -/
def Silent (str : List UInt8) : Prop :=
  ∀ ds : List UInt8, ds.all isdigit → ¬ (27 :: 91 :: (ds ++ [77])) <:+: str

theorem Silent.of_infix {str str' : List UInt8} (h : Silent str) (hstr : str' <:+: str) :
    Silent str' :=
  fun ds hds hinside => h ds hds (hinside.trans hstr)

theorem quoted_suffix (quote quoteQuote : Bool) (room : Nat) (str : List UInt8) :
    quoted quote quoteQuote room str <:+ str := by
  induction str generalizing quote quoteQuote room with
  | nil => cases room <;> simp [quoted]
  | cons c str ih =>
      cases room with
      | zero => simp [quoted]
      | succ room =>
          rw [quoted]
          split
          · exact List.suffix_rfl
          · exact (ih _ _ _).trans (List.suffix_cons c str)

theorem escape_suffix (pending : Bool) (room : Nat) (text : List UInt8) (s : Screen) :
    (s.escape pending room text).2 <:+ 91 :: text := by
  have hbehind : (text.dropWhile fun c => !(isalpha c || c = 27)) <:+ 91 :: text :=
    (List.dropWhile_suffix _).trans (List.suffix_cons 91 text)
  unfold escape
  dsimp only
  split
  · exact ((List.tail_suffix _).trans (quoted_suffix _ _ _ _)).trans (List.suffix_cons 91 text)
  split
  · exact (List.tail_suffix _).trans hbehind
  split
  · exact ((List.tail_suffix _).trans (List.tail_suffix _)).trans hbehind
  · exact List.suffix_rfl

/-- A round leaves an end of what is behind its first character. -/
theorem outnsStep_suffix (pending : Bool) (room : Nat) (c : UInt8) (str : List UInt8)
    (s : Screen) : (s.outnsStep pending room c str).2 <:+ str := by
  unfold outnsStep
  dsimp only
  split
  · exact List.suffix_rfl
  split
  · exact List.suffix_rfl
  split
  · split
    · exact escape_suffix _ _ _ _
    · exact List.suffix_rfl
  split
  · exact List.suffix_rfl
  split
  · exact List.suffix_rfl
  · exact List.suffix_rfl

theorem follows_escape {pending : Bool} {room : Nat} {text : List UInt8}
    (h : Silent (27 :: 91 :: text)) : Follows s (s.escape pending room text).1 := by
  have hstar : Follows s (s.putIn (s.ring s.curLn) 42) := follows_putIn _ (by decide)
  unfold escape
  dsimp only
  split
  · exact .refl s
  split
  · next hseq =>
      refine follows_sequence (fun hfin => ?_) hseq
      -- the text up to its first letter, which is the `M`
      have hcut := List.takeWhile_append_dropWhile (p := fun c => !(isalpha c || c = 27)) (l := text)
      generalize text.takeWhile (fun c => !(isalpha c || c = 27)) = body at *
      cases hbehind : text.dropWhile fun c => !(isalpha c || c = 27) with
      | nil =>
          rw [hbehind] at hfin
          contradiction
      | cons fin rest =>
          rw [hbehind] at hfin hcut
          obtain rfl : fin = 77 := hfin
          cases hall : body.all isdigit with
          | false => rfl
          | true => exact absurd ⟨[], rest, by simp [← hcut]⟩ (h body hall)
  split
  · exact hstar
  · exact hstar

theorem follows_outnsStep {pending : Bool} {room : Nat} {c : UInt8} {str : List UInt8}
    (h : Silent (c :: str)) : Follows s (s.outnsStep pending room c str).1 := by
  unfold outnsStep
  dsimp only
  split
  · next hprint => exact (follows_flag s.curLn).trans (follows_putIn s.curLn ((printable_iff c).mp hprint))
  split
  · exact .refl s
  split
  · next hesc =>
      split
      · exact follows_escape (hesc ▸ h)
      · exact .refl s
  split
  · exact follows_cursor _ _ _ _ _ _ _
  split
  · exact follows_tab
  · exact follows_putIn _ (by decide)

theorem follows_outns {pending : Bool} {str : List UInt8} (h : Silent str) (n : Nat) :
    Follows s (s.outns pending str n) := by
  have hloop : ∀ fuel n str, Silent str → ∀ s, Follows s (outnsLoop pending fuel n str s) := by
    intro fuel
    induction fuel with
    | zero => exact fun _ _ _ s => .refl s
    | succ fuel ih =>
        intro n str h s
        match n, str with
        | 0, _ => exact .refl s
        | n + 1, [] => exact .refl s
        | n + 1, c :: str =>
            have hrest := (outnsStep_suffix pending (n + 1) c str s).trans (List.suffix_cons c str)
            exact (follows_outnsStep h).trans (ih _ _ (h.of_infix hrest.isInfix) _)
  exact hloop _ _ _ (h.of_infix (List.takeWhile_prefix _).isInfix) s

/-! ## The whole session -/

/-- `redoscr` flags every line, and sends the cursor to where the program has it. -/
theorem follows_changeAll : Follows s (s.changeAll.doMove s.tcCol s.tcLine) := by
  intro d₀ d h
  have hpos : 0 < s.scrLns := by have := h.lt; omega
  have hcols := h.mirror.cols
  have hline : ∀ i, (s.changeAll.doMove s.tcCol s.tcLine).line i = { s.line i with
      changed := fun k => if k < s.scrCols then true else (s.line i).changed k
      lchanged := true } :=
    fun i => if_pos (Nat.mod_lt _ hpos)
  have hgoto := h.mirror.plays.append (plays_goto s.tcCol s.tcLine d)
  have hrow : (d.goto (s.tcLine + 1) (s.tcCol + 1)).row = s.tcLine := by
    have hlt := h.lt
    simp [Display.goto, h.mirror.lines]
    omega
  have hcol : (d.goto (s.tcLine + 1) (s.tcCol + 1)).col = min s.tcCol (s.scrCols - 1) := by
    simp [Display.goto, h.mirror.columns]
  have hpen : Penned (s.changeAll.doMove s.tcCol s.tcLine) (d.goto (s.tcLine + 1) (s.tcCol + 1)) :=
    ⟨h.mirror.pen.mode, h.mirror.pen.bg, h.mirror.pen.fg⟩
  refine ⟨_, ⟨⟨hgoto, h.mirror.lines, h.mirror.columns, hcols, hpen, fun i hi k hk => ?_,
    fun i hi k hk hck => ?_⟩, hrow, h.lt, ?_, fun i hi hflag => ?_, h.roll, h.cur, h.default⟩⟩
  · rw [hline]
    exact h.mirror.proper i hi k hk
  · rw [hline] at hck
    exact Bool.noConfusion ((if_pos hk).symm.trans hck)
  · by_cases htc : s.tcCol < s.scrCols
    · left
      rw [hcol]
      change _ = s.tcCol
      omega
    · right
      refine ⟨?_, 0, hpos, by rw [hline]⟩
      change s.tcCol ≠ 0
      omega
  · rw [hline] at hflag
    contradiction

/-- What the program can do with its screen. -/
inductive Call
  | setfcolor (i : Nat) (j : Bool)
  | setbcolor (i : Nat)
  | setdefaultfcolor (i : Nat) (j : Bool)
  | setdefaultbcolor (i : Nat)
  | setoffsetln (n : Nat)
  | setDisableMove (b : Bool)
  | move (y x : Nat)
  | clear
  | clearWholeLine (i : Nat)
  | clrtoeol
  | clrtobot
  | outc (c : UInt8)
  | outns (pending : Bool) (str : List UInt8) (n : Nat)
  | scroll
  | rscroll
  | noscroll
  | restoreLine (line : Nat) (saved : Nat → Cell)
  | refresh (pending : Bool)
  | redoscr (pending : Bool)

namespace Call

def run (s : Screen) : Call → Screen
  | setfcolor i j => s.setfcolor i j
  | setbcolor i => s.setbcolor i
  | setdefaultfcolor i j => s.setdefaultfcolor i j
  | setdefaultbcolor i => s.setdefaultbcolor i
  | setoffsetln n => { s with offsetln := n }
  | setDisableMove b => { s with disableMove := b }
  | move y x => s.move y x
  | clear => s.clear
  | clearWholeLine i => s.clearWholeLine i
  | clrtoeol => s.clrtoeol
  | clrtobot => s.clrtobot
  | outc c => s.outc c
  | outns pending str n => s.outns pending str n
  | scroll => s.scroll
  | rscroll => s.rscroll
  | noscroll => s.noscroll
  | restoreLine line saved => s.restoreLine line saved
  | refresh pending => s.refresh pending
  | redoscr pending => s.redoscr pending

/-- A colour is one of the eight, what `saveline` saved was drawn, a text is `Silent`, and on a
terminal whose margin is sticky `refresh` has no move to the left from behind it. -/
def Legal (sticky : Bool) (s : Screen) : Call → Prop
  | setfcolor i _ => i < 8
  | setbcolor i => i < 8
  | setdefaultfcolor i _ => i < 8
  | setdefaultbcolor i => i < 8
  | outns _ str _ => Silent str
  | restoreLine _ saved => ∀ k, Proper (saved k)
  | refresh _ => sticky = true → s.MarginFree
  | redoscr _ => sticky = true → (s.changeAll.doMove s.tcCol s.tcLine).MarginFree
  | _ => True

end Call

theorem Sync.sticky (h : Sync d₀ s d) : d.sticky = d₀.sticky :=
  congrArg (fun size => size.2.2) h.mirror.plays.size

theorem Sync.refresh_pending (h : Sync d₀ s d) (hmargin : d₀.sticky = true → s.MarginFree)
    (pending : Bool) : ∃ d', Sync d₀ (s.refresh pending) d' := by
  cases pending with
  | true => exact ⟨d, h⟩
  | false =>
      obtain ⟨d', hshown, -, -⟩ := h.refresh (h.sticky ▸ hmargin)
      exact ⟨d', hshown.sync⟩

/-- One call; `refresh` sends what is marked, and the other calls mark what they draw. -/
theorem Sync.call (h : Sync d₀ s d) {c : Call} (hc : c.Legal d₀.sticky s) :
    ∃ d', Sync d₀ (c.run s) d' := by
  cases c with
  | setfcolor i j => exact follows_setfcolor j hc h
  | setbcolor i => exact follows_setbcolor hc h
  | setdefaultfcolor i j => exact follows_setdefaultfcolor j hc h
  | setdefaultbcolor i => exact follows_setdefaultbcolor hc h
  | setoffsetln n => exact follows_cursor _ _ _ _ _ _ _ h
  | setDisableMove b => exact follows_cursor _ _ _ _ _ _ _ h
  | move y x => exact follows_cursor _ _ _ _ _ _ _ h
  | clear => exact follows_clear h
  | clearWholeLine i => exact follows_clearWholeLine i h
  | clrtoeol => exact follows_clrtoeol h
  | clrtobot => exact follows_clrtobot h
  | outc c => exact follows_outc c h
  | outns pending str n => exact follows_outns hc n h
  | scroll => exact follows_scroll h
  | rscroll => exact follows_rscroll h
  | noscroll => exact follows_noscroll h
  | restoreLine line saved => exact follows_restoreLine line hc h
  | refresh pending => exact h.refresh_pending hc pending
  | redoscr pending =>
      obtain ⟨d', hsync⟩ := follows_changeAll h
      exact hsync.refresh_pending hc pending

/-- A terminal as the program expects it at the start: of the size it was told, the cursor home and
the pen plain; it may show anything. -/
structure Fresh (slns scols : Nat) (d : Display) : Prop where
  lines : d.lines = slns
  columns : d.columns = scols
  row : d.row = 0
  col : d.col = 0
  mode : d.mode = .plain
  color : d.color = .plain

/-- The screens of a session. -/
inductive Reached (sticky : Bool) (s₀ : Screen) : Screen → Prop
  | start : Reached sticky s₀ s₀
  | call {s : Screen} {c : Call} :
      Reached sticky s₀ s → c.Legal sticky s → Reached sticky s₀ (c.run s)

theorem sync_initScreen {slns scols : Nat} {defColor : Bool} (hlns : 0 < slns) (hcols : 0 < scols)
    (h : Fresh slns scols d₀) : Sync d₀ (initScreen slns scols defColor) d₀ := by
  have hplain : Known Color.plain := by simp [Known, Color.plain]
  refine ⟨⟨Plays.nil d₀, h.lines, h.columns, hcols, ⟨h.mode, ?_, .inl ?_⟩,
    fun _ _ _ _ => ⟨(by decide : Printable 32), hplain⟩, fun _ _ _ _ hck => by contradiction⟩,
    h.row, hlns, .inl h.col, fun _ _ hflag => by contradiction, hlns, hplain, hplain⟩
  · rw [h.color]
    exact congrArg Color.bg (ite_self Color.plain).symm
  · rw [h.color]
    exact congrArg Color.fg (ite_self Color.plain).symm

theorem Reached.sync {s₀ : Screen} (h : Reached d₀.sticky s₀ s) (hsync : Sync d₀ s₀ d₀) :
    ∃ d, Sync d₀ s d := by
  induction h with
  | start => exact ⟨d₀, hsync⟩
  | call _ hc ih =>
      obtain ⟨d, hsync'⟩ := ih
      exact hsync'.call hc

/-- A terminal that was just switched on. -/
def vt100 : Display := ⟨24, 80, true, fun _ _ => space, 0, 0, .plain, .plain⟩

end Ytht.Screen
