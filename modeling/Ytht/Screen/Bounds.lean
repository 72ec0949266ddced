import Ytht.Screen.Session

/-!
# Screen.Bounds

The program's cursor, which no text can send out of the picture.

`outns` takes its sequences from what users write: the counts may be negative, and the corners are
bytes.  `cursor_inside` is about every session whose `move` calls stay inside.
-/

namespace Ytht.Screen

open Vt (Mode Color Cell)

variable {s s' s'' : Screen}

/-- The size of the picture, the cursor, and the cursor that `\033[s` saved. -/
def cursor (s : Screen) : Nat × Nat × Nat × Nat × Int × Int :=
  (s.scrLns, s.scrCols, s.curLn, s.curCol, s.savey, s.savex)

theorem cursor_ite {p : Prop} [Decidable p] (h : s.cursor = s''.cursor)
    (h' : s'.cursor = s''.cursor) : (if p then s else s').cursor = s''.cursor := by
  split
  · exact h
  · exact h'

theorem cursor_foldl {α : Type} {f : Screen → α → Screen}
    (h : ∀ s a, (f s a).cursor = s.cursor) (as : List α) (s : Screen) :
    (as.foldl f s).cursor = s.cursor := by
  induction as generalizing s with
  | nil => rfl
  | cons a as ih => exact (ih (f s a)).trans (h s a)

/-! ## refresh leaves it alone -/

@[simp] theorem ochar_cursor (s : Screen) (c : UInt8) : (s.ochar c).cursor = s.cursor := rfl

@[simp] theorem output_cursor (s : Screen) (bytes : List UInt8) :
    (s.output bytes).cursor = s.cursor := rfl

@[simp] theorem setLine_cursor (s : Screen) (j : Nat) (l : Screenline) :
    (s.setLine j l).cursor = s.cursor := rfl

@[simp] theorem doMove_cursor (s : Screen) (destcol destline : Nat) :
    (s.doMove destcol destline).cursor = s.cursor := rfl

@[simp] theorem forgetFg_cursor (s : Screen) : s.forgetFg.cursor = s.cursor := by
  unfold forgetFg
  split <;> rfl

@[simp] theorem rewrite_cursor (s : Screen) (q lo hi : Nat) :
    (s.rewrite q lo hi).cursor = s.cursor := by
  unfold rewrite
  exact cursor_foldl (fun s _ => ochar_cursor s _) _ s

@[simp] theorem backspaces_cursor (s : Screen) (n : Nat) : (s.backspaces n).cursor = s.cursor := by
  unfold backspaces
  exact cursor_foldl (fun s _ => ochar_cursor s 8) _ s

@[simp] theorem moveTo_cursor (s : Screen) (wasCol wasLn newCol newLn : Nat) :
    (s.moveTo wasCol wasLn newCol newLn).cursor = s.cursor := by
  unfold moveTo
  extract_lets q next down up below
  have hnext : next.cursor = s.cursor := forgetFg_cursor s
  have hdown : down.cursor = s.cursor := hnext
  have hup : up.cursor = s.cursor := hnext
  have hbelow : below.cursor = s.cursor := forgetFg_cursor (s.ochar 10)
  clear_value next down up below
  refine cursor_ite ?_ (cursor_ite rfl (cursor_ite (backspaces_cursor s _)
    (cursor_ite (rewrite_cursor s _ _ _) (cursor_ite rfl (cursor_ite rfl
      (cursor_ite (cursor_ite hdown hdown) (cursor_ite (cursor_ite hup hup)
        (cursor_ite ?_ rfl))))))))
  · exact (ochar_cursor _ 10).trans (cursor_ite hnext hnext)
  · exact (rewrite_cursor _ _ _ _).trans (cursor_ite hbelow hbelow)

@[simp] theorem relMove_cursor (s : Screen) (wasCol wasLn newCol newLn : Nat) :
    (s.relMove wasCol wasLn newCol newLn).cursor = s.cursor := by
  unfold relMove
  dsimp only
  generalize (if newCol = s.scrCols then newCol - 1 else newCol) = newCol
  split
  · rfl
  split
  · rfl
  · exact moveTo_cursor _ _ _ _ _

@[simp] theorem relChangemodecolor_cursor (s : Screen) (mode : Mode) (color : Color) :
    (s.relChangemodecolor mode color).cursor = s.cursor := by
  simp only [relChangemodecolor]
  split_ifs <;> rfl

@[simp] theorem sendScroll_cursor (s : Screen) : s.sendScroll.cursor = s.cursor := by
  unfold sendScroll
  extract_lets t u v w
  have hu : u.cursor = s.cursor := by
    unfold u
    split
    · exact relMove_cursor s _ _ _ _
    · rfl
  clear_value u
  split
  · exact (cursor_foldl (fun s _ => ochar_cursor s 10) _ v).trans hu
  · exact hu

theorem refreshCells_cursor (i j p count n k : Nat) (s : Screen) :
    (refreshCells i j p count n k s).cursor = s.cursor := by
  induction n generalizing k s with
  | zero => rfl
  | succ n ih =>
      unfold refreshCells
      extract_lets l t u v
      have hu : u.cursor = s.cursor := by
        unfold u t
        split_ifs <;> simp
      clear_value u
      split
      · exact ih _ s
      split
      · exact hu
      · exact (ih _ _).trans hu

@[simp] theorem refreshLine_cursor (s : Screen) (i : Nat) : (s.refreshLine i).cursor = s.cursor := by
  simp only [refreshLine]
  split
  · rw [refreshCells_cursor]
    simp
  · rfl

@[simp] theorem refresh_cursor (s : Screen) (pending : Bool) :
    (s.refresh pending).cursor = s.cursor := by
  unfold refresh
  split
  · rfl
  · dsimp only
    rw [relMove_cursor, cursor_foldl fun s i => refreshLine_cursor s i]
    simp

@[simp] theorem redoscr_cursor (s : Screen) (pending : Bool) :
    (s.redoscr pending).cursor = s.cursor :=
  (refresh_cursor _ pending).trans rfl

/-! ## Inside -/

/-- A column, or the place behind the last one. -/
structure Inside (s : Screen) : Prop where
  ln : s.curLn < s.scrLns
  col : s.curCol ≤ s.scrCols
  savey : -1 ≤ s.savey ∧ s.savey < s.scrLns
  savex : -1 ≤ s.savex ∧ s.savex ≤ s.scrCols

/-- A call that leaves the cursor inside. -/
def Stays (s s' : Screen) : Prop := Inside s → Inside s'

theorem Stays.refl (s : Screen) : Stays s s := id

theorem Stays.trans (h : Stays s s') (h' : Stays s' s'') : Stays s s'' := fun hin => h' (h hin)

theorem Stays.foldl {α : Type} {f : Screen → α → Screen} (h : ∀ s a, Stays s (f s a))
    (as : List α) (s : Screen) : Stays s (as.foldl f s) := by
  induction as generalizing s with
  | nil => exact .refl s
  | cons a as ih => exact (h s a).trans (ih (f s a))

theorem Stays.of_cursor (h : s'.cursor = s.cursor) : Stays s s' := by
  intro hin
  simp only [cursor, Prod.mk.injEq] at h
  obtain ⟨hlns, hcols, hln, hcol, hsavey, hsavex⟩ := h
  exact ⟨by rw [hln, hlns]; exact hin.ln, by rw [hcol, hcols]; exact hin.col,
    by rw [hsavey, hlns]; exact hin.savey, by rw [hsavex, hcols]; exact hin.savex⟩

theorem stays_clear : Stays s s.clear := by
  intro hin
  rw [clear_eq]
  exact ⟨Nat.zero_lt_of_lt hin.ln, Nat.zero_le _, hin.savey, hin.savex⟩

theorem stays_clrtoeol : Stays s s.clrtoeol := by
  unfold clrtoeol
  split <;> exact .of_cursor rfl

theorem stays_clearWholeLine (i : Nat) : Stays s (s.clearWholeLine i) := .of_cursor rfl

theorem stays_clrtobot : Stays s s.clrtobot :=
  stays_clrtoeol.trans (.foldl (fun _ i => stays_clearWholeLine i) _ _)

theorem stays_putIn (ln : Nat) (c : UInt8) : Stays s (s.putIn ln c) := by
  unfold putIn
  split
  · next hlt => exact fun hin => ⟨hin.ln, hlt, hin.savey, hin.savex⟩
  · exact .refl s

theorem stays_outc (c : UInt8) : Stays s (s.outc c) := by
  unfold outc
  split
  · split
    · refine stays_clrtoeol.trans fun hin => ?_
      dsimp only
      split
      · next hlt =>
          refine ⟨?_, Nat.zero_le _, hin.savey, hin.savex⟩
          dsimp only at hlt ⊢
          omega
      · exact ⟨hin.ln, Nat.zero_le _, hin.savey, hin.savex⟩
    · exact .refl s
  · exact stays_putIn _ c

/-! ## outns -/

theorem stays_renditions (fuel : Nat) (str : List UInt8) : Stays s (renditions fuel str s) := by
  have hset : ∀ (s : Screen) (m : Int), (s.setRendition m).cursor = s.cursor := by
    intro s m
    unfold setRendition
    split_ifs <;> rfl
  have hall : ∀ fuel str, ∀ s : Screen, (renditions fuel str s).cursor = s.cursor := by
    intro fuel
    induction fuel with
    | zero => exact fun _ _ => rfl
    | succ fuel ih =>
        intro str s
        have hone : (if str.takeWhile isdigit = [] then s
            else s.setRendition (atoi (str.takeWhile isdigit))).cursor = s.cursor := by
          split
          · rfl
          · exact hset s _
        simp only [renditions]
        split
        · exact hone
        · exact (ih _ _).trans hone
        · rfl
  exact .of_cursor (hall fuel str s)

theorem stays_gotoYX (body : List UInt8) (j : Nat) : Stays s (s.gotoYX body j) := by
  intro hin
  simp only [gotoYX]
  split
  · refine ⟨?_, ?_, hin.savey, hin.savex⟩ <;> dsimp only <;> omega
  · exact hin

/-- Even a negative count, which goes the other way. -/
theorem stays_moveBy (k : Int) (fin : UInt8) : Stays s (s.moveBy k fin) := by
  intro hin
  unfold moveBy
  split
  · exact hin
  · have hln := hin.ln
    refine ⟨?_, ?_, hin.savey, hin.savex⟩
    · dsimp only
      generalize (if fin = 65 then if k ≤ s.curLn then (s.curLn : Int) - k else 0
        else if fin = 66 then if s.curLn < s.scrLns - k then s.curLn + k else s.scrLns - 1
        else s.curLn) = ln
      split_ifs <;> omega
    · dsimp only
      split_ifs <;> omega

theorem stays_sequence {pending : Bool} {body : List UInt8} {fin : UInt8}
    (h : s.sequence pending body fin = some s') : Stays s s' := by
  simp only [sequence] at h
  split at h
  · split at h
    · obtain rfl := Option.some.inj h
      exact stays_gotoYX _ _
    split at h
    · obtain rfl := Option.some.inj h
      split
      · exact stays_clear
      · exact .refl s
    · contradiction
  split at h
  · obtain rfl := Option.some.inj h
    exact stays_moveBy _ _
  split at h
  · obtain rfl := Option.some.inj h
    intro hin
    have hln := hin.ln
    have hcol := hin.col
    exact ⟨hln, hcol, by dsimp only; omega, by dsimp only; omega⟩
  split at h
  · split at h
    · next hsaved =>
        obtain rfl := Option.some.inj h
        intro hin
        have hsavey := hin.savey
        have hsavex := hin.savex
        exact ⟨by dsimp only; omega, by dsimp only; omega, hin.savey, hin.savex⟩
    · contradiction
  split at h
  · obtain rfl := Option.some.inj h
    split
    · exact .refl s
    · exact stays_clear
  split at h
  · obtain rfl := Option.some.inj h
    split
    · exact (stays_renditions _ _).trans (.of_cursor rfl)
    · exact stays_renditions _ _
  split at h
  · obtain rfl := Option.some.inj h
    split
    · exact .of_cursor (refresh_cursor s pending)
    · exact .refl s
  split at h
  · obtain rfl := Option.some.inj h
    exact .refl s
  · contradiction

theorem stays_escape (pending : Bool) (room : Nat) (text : List UInt8) :
    Stays s (s.escape pending room text).1 := by
  unfold escape
  dsimp only
  split
  · exact .refl s
  split
  · next hseq => exact stays_sequence hseq
  split
  · exact stays_putIn _ 42
  · exact stays_putIn _ 42

theorem stays_outnsStep (pending : Bool) (room : Nat) (c : UInt8) (str : List UInt8) :
    Stays s (s.outnsStep pending room c str).1 := by
  unfold outnsStep
  dsimp only
  split
  · refine Stays.trans ?_ (stays_putIn _ c)
    exact .of_cursor rfl
  split
  · exact .refl s
  split
  · split
    · exact stays_escape _ _ _
    · exact .refl s
  split
  · intro hin
    have hln := hin.ln
    refine ⟨?_, Nat.zero_le _, hin.savey, hin.savex⟩
    dsimp only
    split <;> omega
  split
  · exact .foldl (fun _ _ => stays_putIn _ 32) _ _
  · exact stays_putIn _ 42

theorem stays_outns (pending : Bool) (str : List UInt8) (n : Nat) :
    Stays s (s.outns pending str n) := by
  have hloop : ∀ fuel n str, ∀ s, Stays s (outnsLoop pending fuel n str s) := by
    intro fuel
    induction fuel with
    | zero => exact fun _ _ s => .refl s
    | succ fuel ih =>
        intro n str s
        match n, str with
        | 0, _ => exact .refl s
        | n + 1, [] => exact .refl s
        | n + 1, c :: str => exact (stays_outnsStep pending (n + 1) c str).trans (ih _ _ _)
  exact hloop _ _ _ s

/-! ## The whole session -/

/-- `move` is the one call that takes the cursor where it is told. -/
def Call.Aimed (s : Screen) : Call → Prop
  | .move y x => y < s.scrLns ∧ x ≤ s.scrCols
  | _ => True

theorem stays_call {c : Call} (hc : c.Aimed s) : Stays s (c.run s) := by
  cases c with
  | move y x => exact fun hin => ⟨hc.1, hc.2, hin.savey, hin.savex⟩
  | clear => exact stays_clear
  | clearWholeLine i => exact stays_clearWholeLine i
  | clrtoeol => exact stays_clrtoeol
  | clrtobot => exact stays_clrtobot
  | outc c => exact stays_outc c
  | outns pending str n => exact stays_outns pending str n
  | scroll =>
      exact fun hin => ⟨Nat.sub_one_lt_of_lt hin.ln, Nat.zero_le _, hin.savey, hin.savex⟩
  | rscroll => exact fun hin => ⟨Nat.zero_lt_of_lt hin.ln, Nat.zero_le _, hin.savey, hin.savex⟩
  | refresh pending => exact .of_cursor (refresh_cursor s pending)
  | redoscr pending => exact .of_cursor (redoscr_cursor s pending)
  | _ => exact .of_cursor rfl

/-- The screens of a session in which any text may be drawn. -/
inductive Drawn (s₀ : Screen) : Screen → Prop
  | start : Drawn s₀ s₀
  | call {s : Screen} {c : Call} : Drawn s₀ s → c.Aimed s → Drawn s₀ (c.run s)

end Ytht.Screen
