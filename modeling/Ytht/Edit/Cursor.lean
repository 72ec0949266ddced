import Ytht.Edit.Keys
import Ytht.Lib.Runs

/-!
# Edit.Cursor

Where the cursor of the editor is: `curline` is a line of the document, `line` its
number, `col` a place in it, and `linecur` lines of the screen are above it.  Every
command keeps this but `gotoline`, when it is asked for the line behind the last one
(`cursor_run`).

`On` is what the commands keep.  They change the document in few ways, and there is
one lemma for each: `Moved` where only the cursor goes somewhere, `Split` where a line
is split in two, and `Rewrapped` where lines are filled again.
-/

namespace Ytht

open Function Runs

/-! ## The lines of a document -/

namespace LineHeap

variable {h h' : LineHeap} {l l₁ l₂ ids : List Nat} {a b : Nat}

/-- The lines from one on. -/
def walk : Nat → LineHeap → Nat → List Nat
  | 0, _, _ => []
  | fuel + 1, h, p => if p = 0 then [] else p :: walk fuel h (h.next p)

theorem Doc.walk_eq {fuel : Nat} (hd : h.Doc (l₁ ++ l₂)) (hfuel : l₂.length < fuel) :
    walk fuel h (l₂.headD 0) = l₂ := by
  induction l₂ generalizing l₁ fuel with
  | nil =>
      cases fuel with
      | zero => rfl
      | succ fuel => exact if_pos rfl
  | cons a l₂ ih =>
      cases fuel with
      | zero => contradiction
      | succ fuel =>
          have ha : a ≠ 0 := hd.ne_zero (by simp)
          rw [List.length_cons] at hfuel
          rw [List.headD_cons, walk, if_neg ha, hd.next_eq]
          rw [List.append_cons] at hd
          rw [ih hd (by omega)]

/-- There is a line behind. -/
theorem Doc.exists_next (hd : h.Doc (l₁ ++ a :: l₂)) (hnext : h.next a ≠ 0) :
    ∃ b l₃, l₂ = b :: l₃ ∧ h.next a = b := by
  rw [hd.next_eq] at hnext ⊢
  cases l₂ with
  | nil => exact absurd rfl hnext
  | cons b l₃ => exact ⟨b, l₃, rfl, rfl⟩

/-- There is a line before. -/
theorem Doc.exists_prev (hd : h.Doc (l₁ ++ a :: l₂)) (hprev : h.prev a ≠ 0) :
    ∃ b l₃, l₁ = l₃ ++ [b] ∧ h.prev a = b := by
  rw [hd.prev_eq] at hprev ⊢
  cases l₁ using List.reverseRecOn with
  | nil => exact absurd rfl hprev
  | append_singleton l₃ b => exact ⟨b, l₃, rfl, List.getLastD_concat⟩

theorem setNext_eq_self (hnext : h.next a = b) : h.setNext a b = h := by
  unfold setNext
  rw [← hnext, update_eq_self]

theorem Doc.setLine_lines (hd : h.Doc (l₁ ++ a :: l₂)) (v : TextLine) :
    (h.setLine a v).lines l₁ = h.lines l₁ ∧ (h.setLine a v).line a = v ∧
      (h.setLine a v).lines l₂ = h.lines l₂ := hd.lines_setLine rfl

theorem Doc.setText_lines (hd : h.Doc (l₁ ++ a :: l₂)) (v : List UInt8) :
    (h.setText a v).lines l₁ = h.lines l₁ ∧ (h.setText a v).line a = ⟨v, (h.line a).br⟩ ∧
      (h.setText a v).lines l₂ = h.lines l₂ := hd.lines_setLine rfl

theorem Doc.setBr_lines (hd : h.Doc (l₁ ++ a :: l₂)) (v : Bool) :
    (h.setBr a v).lines l₁ = h.lines l₁ ∧ (h.setBr a v).line a = ⟨(h.line a).text, v⟩ ∧
      (h.setBr a v).lines l₂ = h.lines l₂ := hd.lines_setLine rfl

/-- An empty line comes behind the last one. -/
theorem Doc.appendLine (hd : h.Doc (l ++ [a])) :
    (h.allocNextLine a).1.Doc (l ++ [a] ++ [h.fresh]) ∧
      (h.allocNextLine a).1.lines (l ++ [a]) = h.lines (l ++ [a]) ∧
      (h.allocNextLine a).1.line h.fresh = ⟨[], false⟩ ∧
      ((∀ x ∈ l ++ [a], h.selected x = 0) →
        ∀ x ∈ l ++ [a] ++ [h.fresh], (h.allocNextLine a).1.selected x = 0) := by
  have hnew : h.fresh ∉ l ++ [a] := fun hmem => Nat.lt_irrefl _ (hd.old _ hmem)
  refine ⟨?_, ?_, ?_, fun hselected x hx => ?_⟩
  · rw [← List.append_cons]
    exact hd.allocNextLine
  · unfold lines
    rw [allocNextLine_line]
    exact lines_update h hnew
  · rw [allocNextLine_line, update_self]
  · rw [allocNextLine_unselected (hselected a (by simp)), update_apply]
    split
    · rfl
    · next hne =>
        exact hselected x ((List.mem_append.mp hx).resolve_right fun hmem =>
          hne (List.mem_singleton.mp hmem))

/-- A line is split in two, of which the second is filled: the document that is left. -/
def Split (skips : Prop) (h : LineHeap) (l₁ : List Nat) (a : Nat) (l₂ : List Nat)
    (first second : TextLine) (h' : LineHeap) : Prop :=
  ∃ l₂', h'.Doc (l₁ ++ a :: h.fresh :: l₂') ∧ h'.lines l₁ = h.lines l₁ ∧ h'.line a = first ∧
    Rewrap skips (second :: h.lines l₂) (h'.lines (h.fresh :: l₂')) ∧
    (skips ∨ ∀ p ∈ l₁ ++ a :: h.fresh :: l₂', h'.selected p = 0)

/-- **A line is split.** -/
theorem split_spec {skips : Prop} (hd : h.Doc (l₁ ++ a :: l₂))
    (hselected : skips ∨ ∀ p ∈ l₁ ++ a :: l₂, h.selected p = 0) (first second : TextLine) :
    let h₁ := (h.allocNextLine a).1.setLine h.fresh second
    let h₂ := h₁.setLine a first
    Split skips h l₁ a l₂ first second (h₂.reflow h₂.fresh h.fresh) := by
  intro h₁ h₂
  have hold : ∀ x ∈ l₁ ++ a :: l₂, x ≠ h.fresh := fun x hx => Nat.ne_of_lt (hd.old x hx)
  have haf := hold a (by simp)
  have hd₂ : h₂.Doc (l₁ ++ a :: h.fresh :: l₂) := hd.allocNextLine.congr rfl rfl rfl rfl
  have hline : h₂.line = update (update h.line h.fresh second) a first := by
    show update (update (h.allocNextLine a).1.line h.fresh second) a first = _
    rw [allocNextLine_line, update_idem]
  obtain ⟨ha, ha', -⟩ := hd.notMem
  have hkept : ∀ l, (∀ x ∈ l, x ∈ l₁ ++ a :: l₂) → a ∉ l → h₂.lines l = h.lines l := by
    intro l hl hal
    refine List.map_congr_left fun x hx => ?_
    have hxa : x ≠ a := by
      rintro rfl
      exact hal hx
    rw [hline, update_of_ne hxa, update_of_ne (hold x (hl x hx))]
  have hsel₂ : skips ∨ ∀ p ∈ l₁ ++ a :: h.fresh :: l₂, h₂.selected p = 0 := by
    refine hselected.imp id fun hnone p hp => ?_
    show (h.allocNextLine a).1.selected p = 0
    rw [allocNextLine_unselected (hnone a (by simp)), update_apply]
    split
    · rfl
    · exact hnone p (by grind)
  have hfuel : l₂.length < h₂.fresh := by
    have hlen := hd₂.length_lt
    simp only [List.length_append, List.length_cons] at hlen
    omega
  rw [List.append_cons] at hd₂ hsel₂
  obtain ⟨l₂', hd', hfront, hfirst, hrewrap, hsel'⟩ := (reflow_spec h₂.fresh hd₂ hfuel hsel₂).behind
  refine ⟨l₂', hd', hfront.trans (hkept l₁ (by grind) ha), ?_, ?_, hsel'⟩
  · rw [hfirst, hline, update_self]
  · rw [lines_cons, hkept l₂ (by grind) ha', hline, update_of_ne haf.symm, update_self] at hrewrap
    exact hrewrap

theorem splitLine_spec {skips : Prop} (hd : h.Doc (l₁ ++ a :: l₂))
    (hselected : skips ∨ ∀ p ∈ l₁ ++ a :: l₂, h.selected p = 0) (len : Nat) (br : Bool) :
    Split skips h l₁ a l₂ ⟨(h.line a).text.take len, br⟩ ⟨(h.line a).text.drop len, (h.line a).br⟩
      (h.splitLine a len br).1 :=
  split_spec hd hselected _ _

end LineHeap

/-! ## The cursor in a document -/

namespace Edit

/-- The cursor is in a document, between the lines before and those behind. -/
structure Place (e : Edit) (l₁ l₂ : List Nat) : Prop where
  doc : e.heap.Doc (l₁ ++ e.curline :: l₂)
  first : e.firstline = l₁.headD e.curline
  line : e.line = l₁.length
  linecur : e.linecur ≤ e.line

/-- The cursor is in the document that has these lines. -/
def On (e : Edit) (ids : List Nat) : Prop :=
  ∃ l₁ l₂, ids = l₁ ++ e.curline :: l₂ ∧ e.Place l₁ l₂

/-- `col` is in the line. -/
def InLine (e : Edit) : Prop := 0 ≤ e.col ∧ e.col ≤ e.text.length

section place

variable {e : Edit} {ids l₁ l₂ : List Nat} {b : Nat}

theorem Place.on (hp : e.Place l₁ l₂) : e.On (l₁ ++ e.curline :: l₂) := ⟨l₁, l₂, rfl, hp⟩

/-- `col`, `colcur` and `position` do not matter. -/
theorem On.congr {e' : Edit} (h : e.On ids) (hheap : e'.heap = e.heap)
    (hfirst : e'.firstline = e.firstline) (hcur : e'.curline = e.curline)
    (hline : e'.line = e.line) (hlinecur : e'.linecur = e.linecur) : e'.On ids := by
  obtain ⟨l₁, l₂, hids, hp⟩ := h
  refine ⟨l₁, l₂, by rw [hids, hcur], ?_, ?_, by rw [hline, hp.line], ?_⟩
  · rw [hheap, hcur]
    exact hp.doc
  · rw [hfirst, hcur]
    exact hp.first
  · rw [hlinecur, hline]
    exact hp.linecur

theorem On.doc (h : e.On ids) : e.heap.Doc ids := by
  obtain ⟨l₁, l₂, rfl, hp⟩ := h
  exact hp.doc

theorem On.mem (h : e.On ids) : e.curline ∈ ids := by
  obtain ⟨l₁, l₂, rfl, -⟩ := h
  simp

/-- The lines are known from the first one. -/
theorem On.headD_eq (h : e.On ids) : ids.headD 0 = e.firstline := by
  obtain ⟨l₁, l₂, rfl, hp⟩ := h
  rw [hp.first, Dll.headD_append_cons]

/-- Another heap with a document around the cursor. -/
theorem Place.withHeap {h : LineHeap} {l₂' : List Nat} (hp : e.Place l₁ l₂)
    (hd : h.Doc (l₁ ++ e.curline :: l₂')) : ({ e with heap := h }).Place l₁ l₂' :=
  ⟨hd, hp.first, hp.line, hp.linecur⟩

theorem Place.toNext (hp : e.Place l₁ (b :: l₂)) :
    e.toNext.curline = b ∧ e.toNext.Place (l₁ ++ [e.curline]) l₂ := by
  have hnext : e.toNext.curline = b := hp.doc.next_cons
  refine ⟨hnext, ?_, ?_, ?_, ?_⟩
  · rw [hnext, ← List.append_cons]
    exact hp.doc
  · show e.firstline = _
    rw [hp.first, Dll.headD_append_cons]
  · show e.line + 1 = _
    rw [hp.line, List.length_append]
    rfl
  · have hle := hp.linecur
    show e.linecur + 1 ≤ e.line + 1
    omega

theorem Place.toPrev (hp : e.Place (l₁ ++ [b]) l₂) :
    e.toPrev.curline = b ∧ e.toPrev.Place l₁ (e.curline :: l₂) := by
  have hprev : e.toPrev.curline = b := hp.doc.prev_concat
  refine ⟨hprev, ?_, ?_, ?_, ?_⟩
  · rw [hprev, List.append_cons]
    exact hp.doc
  · show e.firstline = _
    rw [hp.first, hprev, Dll.headD_append_cons]
  · show e.line - 1 = _
    rw [hp.line, List.length_append, List.length_singleton]
    omega
  · have hle := hp.linecur
    show e.linecur - 1 ≤ e.line - 1
    omega

theorem On.toNext (h : e.On ids) (hnext : e.heap.next e.curline ≠ 0) : e.toNext.On ids := by
  obtain ⟨l₁, l₂, rfl, hp⟩ := h
  obtain ⟨b, l₃, rfl, -⟩ := hp.doc.exists_next hnext
  obtain ⟨hcur, hp'⟩ := hp.toNext
  exact ⟨_, _, by rw [hcur, ← List.append_cons], hp'⟩

theorem On.toPrev (h : e.On ids) (hprev : e.heap.prev e.curline ≠ 0) : e.toPrev.On ids := by
  obtain ⟨l₁, l₂, rfl, hp⟩ := h
  obtain ⟨b, l₃, rfl, -⟩ := hp.doc.exists_prev hprev
  obtain ⟨hcur, hp'⟩ := hp.toPrev
  exact ⟨_, _, by rw [hcur, ← List.append_cons], hp'⟩

end place

/-! ## Moves -/

/-- What a move of the cursor makes of a document: an empty line may come behind the
last one. -/
inductive Moved (h : LineHeap) (ids : List Nat) : LineHeap → List Nat → Prop
  | same : Moved h ids h ids
  | appended (l₁ : List Nat) (a : Nat) (hids : ids = l₁ ++ [a]) (htext : (h.line a).text ≠ []) :
      Moved h ids (h.allocNextLine a).1 (ids ++ [h.fresh])

/-- The cursor has moved, to a place in the document. -/
def Goes (e : Edit) (ids : List Nat) (e' : Edit) : Prop :=
  ∃ ids', e'.On ids' ∧ e'.InLine ∧ Moved e.heap ids e'.heap ids' ∧ e'.overwrite = e.overwrite

section moves

variable {c : EditConf} {e e' : Edit} {ids l₁ l₂ : List Nat}

theorem On.goes (h : e.On ids) (hin : e.InLine) : e.Goes ids e := ⟨ids, h, hin, Moved.same, rfl⟩

/-- Only the cursor was somewhere else before. -/
theorem Goes.of_eq {e₀ : Edit} (h : e.Goes ids e') (hheap : e.heap = e₀.heap)
    (hoverwrite : e.overwrite = e₀.overwrite) : e₀.Goes ids e' := by
  obtain ⟨ids', hon, hin, hmoved, hkept⟩ := h
  rw [hheap] at hmoved
  exact ⟨ids', hon, hin, hmoved, hkept.trans hoverwrite⟩

theorem inLine_zero (hcol : e.col = 0) : e.InLine := by
  unfold InLine
  omega

theorem On.pastEdge (h : e.On ids) (hin : e.InLine)
    (hsync : e.text = [] → e.colcur < MAXLINELEN) : e.Goes ids e.pastEdge := by
  unfold Edit.pastEdge
  by_cases hfull : e.colcur ≥ MAXLINELEN
  · rw [if_pos hfull]
    have htext : e.text ≠ [] := fun hempty => Nat.not_lt.mpr hfull (hsync hempty)
    dsimp only
    by_cases hlast : e.heap.next e.curline = 0
    · -- the cursor is in the last line
      obtain ⟨l₁, l₂, rfl, hp⟩ := h
      have ha0 : e.curline ≠ 0 := hp.doc.ne_zero (by simp)
      have hl₂ : l₂ = [] := by
        cases l₂ with
        | nil => rfl
        | cons b l₃ =>
            rw [hp.doc.next_cons] at hlast
            exact absurd hlast (hp.doc.ne_zero (by simp))
      subst hl₂
      rw [if_pos hlast, LineHeap.allocNextLine_snd]
      have hnext : (e.heap.allocNextLine e.curline).1.next e.curline = e.heap.fresh := by
        rw [LineHeap.allocNextLine_next ha0, update_self]
      rw [LineHeap.setNext_eq_self hnext]
      have hp' := hp.withHeap hp.doc.allocNextLine
      obtain ⟨hcur, hp''⟩ := hp'.toNext
      refine ⟨l₁ ++ [e.curline] ++ [e.heap.fresh], ?_, inLine_zero rfl,
        Moved.appended l₁ e.curline rfl htext, rfl⟩
      exact ⟨_, _, by rw [← hcur], hp''.doc, hp''.first, hp''.line, hp''.linecur⟩
    · rw [if_neg hlast]
      obtain ⟨l₁, l₂, hids, hp⟩ := h.toNext hlast
      exact ⟨ids, ⟨l₁, l₂, hids, hp.doc, hp.first, hp.line, hp.linecur⟩, inLine_zero rfl,
        Moved.same, rfl⟩
  · rw [if_neg hfull]
    exact h.goes hin

@[simp] theorem text_setColcur (e : Edit) : e.setColcur.text = e.text := rfl

theorem On.setColcur (h : e.On ids) : e.setColcur.On ids := h.congr rfl rfl rfl rfl rfl

theorem colcur_setColcur (h : e.text = []) : e.setColcur.colcur < MAXLINELEN := by
  show measureWidth (e.text.take e.col.toNat) < MAXLINELEN
  rw [h, List.take_nil]
  decide

theorem indb_zero (enabledbchar : Bool) (text : List UInt8) : indb enabledbchar text 0 = false := by
  unfold indb
  rw [List.take_zero, List.foldl_nil, Bool.and_false]

/-- **`KEY_LEFT`** only moves the cursor. -/
theorem On.keyLeft (fuel : Nat) (h : e.On ids) (hin : e.InLine) :
    (keyLeft c fuel e).On ids ∧ (keyLeft c fuel e).InLine ∧ (keyLeft c fuel e).heap = e.heap ∧
      (keyLeft c fuel e).overwrite = e.overwrite := by
  induction fuel generalizing e with
  | zero => exact ⟨h, hin, rfl, rfl⟩
  | succ fuel ih =>
      obtain ⟨hcol, hlen⟩ := hin
      rw [Edit.keyLeft]
      by_cases hzero : e.col ≠ 0
      · rw [if_pos hzero]
        refine ⟨h.congr rfl rfl rfl rfl rfl, ?_, rfl, rfl⟩
        dsimp only [InLine, Edit.setColcur]
        split
        · next hdb =>
            have hone : e.col - 1 ≠ 0 := by
              intro heq
              rw [heq, Int.toNat_zero, indb_zero] at hdb
              contradiction
            exact ⟨by omega, by show _ ≤ (e.text.length : Int); omega⟩
        · exact ⟨by omega, by show _ ≤ (e.text.length : Int); omega⟩
      · rw [if_neg hzero]
        by_cases hprev : e.heap.prev e.curline ≠ 0
        · rw [if_pos hprev]
          have hon := h.toPrev hprev
          have hin' : ({ e.toPrev with col := e.toPrev.text.length }).InLine :=
            ⟨Int.natCast_nonneg _, Int.le_refl _⟩
          dsimp only
          split
          · exact ih (hon.congr rfl rfl rfl rfl rfl) hin'
          · exact ⟨hon.congr rfl rfl rfl rfl rfl, hin', rfl, rfl⟩
        · rw [if_neg hprev]
          exact ⟨h, ⟨hcol, hlen⟩, rfl, rfl⟩

/-- **`KEY_RIGHT`** only moves the cursor. -/
theorem On.keyRight (fuel : Nat) (h : e.On ids) (hin : e.InLine) :
    e.Goes ids (keyRight c fuel e) := by
  induction fuel generalizing e with
  | zero => exact h.goes hin
  | succ fuel ih =>
      obtain ⟨hcol, hlen⟩ := hin
      rw [Edit.keyRight]
      by_cases hmore : e.col < e.text.length
      · rw [if_pos hmore]
        dsimp only
        have hbounds : 0 ≤ (if e.col + 1 < e.text.length ∧
              indb c.enabledbchar e.text (e.col + 1).toNat = true then e.col + 1 + 1 else e.col + 1) ∧
            (if e.col + 1 < e.text.length ∧
              indb c.enabledbchar e.text (e.col + 1).toNat = true then e.col + 1 + 1
              else e.col + 1) ≤ e.text.length := by
          split <;> omega
        generalize (if e.col + 1 < e.text.length ∧
          indb c.enabledbchar e.text (e.col + 1).toNat = true then e.col + 1 + 1 else e.col + 1)
            = col at hbounds ⊢
        have hon : ({ e with col }).On ids := h.congr rfl rfl rfl rfl rfl
        exact (On.pastEdge hon.setColcur hbounds colcur_setColcur).of_eq rfl rfl
      · rw [if_neg hmore]
        by_cases hnext : e.heap.next e.curline ≠ 0
        · rw [if_pos hnext]
          have hon : ({ e.toNext with col := 0, colcur := 0 }).On ids :=
            (h.toNext hnext).congr rfl rfl rfl rfl rfl
          have hin' : ({ e.toNext with col := 0, colcur := 0 }).InLine := inLine_zero rfl
          dsimp only
          split
          · exact (ih hon hin').of_eq rfl rfl
          · exact (hon.goes hin').of_eq rfl rfl
        · rw [if_neg hnext]
          exact h.goes ⟨hcol, hlen⟩

theorem On.pageUp (i : Nat) (h : e.On ids) :
    (pageUp i e).On ids ∧ (pageUp i e).heap = e.heap ∧ (pageUp i e).overwrite = e.overwrite := by
  induction i generalizing e with
  | zero => exact ⟨h, rfl, rfl⟩
  | succ i ih =>
      rw [Edit.pageUp]
      split
      · next hprev => exact ih (h.toPrev hprev)
      · exact ⟨h, rfl, rfl⟩

theorem On.pageDown (i : Nat) (h : e.On ids) :
    (pageDown i e).On ids ∧ (pageDown i e).heap = e.heap ∧
      (pageDown i e).overwrite = e.overwrite := by
  induction i generalizing e with
  | zero => exact ⟨h, rfl, rfl⟩
  | succ i ih =>
      rw [Edit.pageDown]
      split
      · next hnext => exact ih (h.toNext hnext)
      · exact ⟨h, rfl, rfl⟩

/-- The line the cursor came to has a place for it. -/
theorem On.finishKey {updownkey : Nat} (h : e.On ids) (hin : updownkey ≠ 1 → e.InLine) :
    e.Goes ids (e.finishKey updownkey) := by
  unfold Edit.finishKey
  by_cases hupdown : updownkey = 1
  · rw [if_pos hupdown]
    by_cases hposition : e.position = 0
    · rw [if_pos hposition]
      have hon : ({ e with col := 0, colcur := 0 }).On ids := h.congr rfl rfl rfl rfl rfl
      exact (hon.goes (inLine_zero rfl)).of_eq rfl rfl
    · rw [if_neg hposition]
      have hle := measureLine_le e.text e.position 2
      have hempty : e.text = [] → measureLine e.text e.position 2 = (0, some 0) := by
        intro htext
        unfold measureLine
        exact if_pos (Or.inl htext)
      generalize measureLine e.text e.position 2 = r at hle hempty ⊢
      have hon : ({ e with col := r.1, colcur := r.2.getD e.colcur }).On ids :=
        h.congr rfl rfl rfl rfl rfl
      refine (hon.pastEdge ⟨Int.natCast_nonneg _, Int.ofNat_le.mpr hle⟩ ?_).of_eq rfl rfl
      intro htext
      have hr := hempty htext
      subst hr
      exact Nat.succ_pos 79
  · rw [if_neg hupdown]
    have hin := hin hupdown
    split
    · have hon : ({ e with position := e.colcur }).On ids := h.congr rfl rfl rfl rfl rfl
      exact (hon.goes hin).of_eq rfl rfl
    · exact h.goes hin

/-- A key that goes up or down comes to a line of the document. -/
def Steps (e : Edit) (ids : List Nat) (r : Edit × Nat) : Prop :=
  r.1.On ids ∧ r.1.heap = e.heap ∧ r.1.overwrite = e.overwrite ∧ (r.2 ≠ 1 → r.1.InLine)

theorem Steps.finishKey {r : Edit × Nat} (h : e.Steps ids r) : e.Goes ids (r.1.finishKey r.2) := by
  obtain ⟨hon, hheap, hoverwrite, hin⟩ := h
  exact (hon.finishKey hin).of_eq hheap hoverwrite

/-- `KEY_UP` and `KEY_DOWN` may begin in the line before. -/
theorem On.behindFull {p : Prop} [Decidable p] (h : e.On ids) (hin : e.InLine)
    (hp : p → e.behindFull) :
    (if p then e.toPrev else e).On ids ∧ (if p then e.toPrev else e).heap = e.heap ∧
      (if p then e.toPrev else e).overwrite = e.overwrite ∧ (if p then e.toPrev else e).InLine := by
  by_cases hprev : p
  · rw [if_pos hprev]
    obtain ⟨hcol, -, hlink, -⟩ := hp hprev
    exact ⟨h.toPrev hlink, rfl, rfl, inLine_zero hcol⟩
  · rw [if_neg hprev]
    exact ⟨h, rfl, rfl, hin⟩

theorem On.keyUp (h : e.On ids) (hin : e.InLine) : e.Steps ids e.keyUp := by
  obtain ⟨hon, hheap, hoverwrite, hin'⟩ := h.behindFull hin (p := e.behindFull) id
  unfold Edit.keyUp
  generalize (if e.behindFull then e.toPrev else e) = e₁ at hon hheap hoverwrite hin' ⊢
  dsimp only
  split
  · next hprev => exact ⟨hon.toPrev hprev, hheap, hoverwrite, fun hne => absurd rfl hne⟩
  · exact ⟨hon, hheap, hoverwrite, fun _ => hin'⟩

theorem On.keyDown (h : e.On ids) (hin : e.InLine) : e.Steps ids e.keyDown := by
  obtain ⟨hon, hheap, hoverwrite, hin'⟩ :=
    h.behindFull hin (p := e.text ≠ [] ∧ e.behindFull) And.right
  unfold Edit.keyDown
  generalize (if e.text ≠ [] ∧ e.behindFull then e.toPrev else e) = e₁
    at hon hheap hoverwrite hin' ⊢
  dsimp only
  split
  · next hnext => exact ⟨hon.toNext hnext, hheap, hoverwrite, fun hne => absurd rfl hne⟩
  · exact ⟨hon, hheap, hoverwrite, fun _ => hin'⟩

theorem On.keyPgup (h : e.On ids) (hin : e.InLine) : e.Steps ids (e.keyPgup c) := by
  unfold Edit.keyPgup
  split
  · exact ⟨h, rfl, rfl, fun _ => hin⟩
  · obtain ⟨hon, hheap, hoverwrite⟩ := h.pageUp (c.tLines / 2)
    exact ⟨hon, hheap, hoverwrite, fun hne => absurd rfl hne⟩

theorem On.keyPgdn (h : e.On ids) (hin : e.InLine) : e.Steps ids (e.keyPgdn c) := by
  unfold Edit.keyPgdn
  split
  · exact ⟨h, rfl, rfl, fun _ => hin⟩
  · obtain ⟨hon, hheap, hoverwrite⟩ := h.pageDown (c.tLines / 2)
    exact ⟨hon, hheap, hoverwrite, fun hne => absurd rfl hne⟩

theorem On.keyEnd (h : e.On ids) : e.Goes ids e.keyEnd.1 := by
  have hon : ({ e with col := e.text.length }).On ids := h.congr rfl rfl rfl rfl rfl
  have hin : ({ e with col := e.text.length }).InLine := ⟨Int.natCast_nonneg _, Int.le_refl _⟩
  obtain ⟨ids', hon', hin', hmoved, hoverwrite⟩ := hon.setColcur.pastEdge hin colcur_setColcur
  exact ⟨ids', hon'.congr rfl rfl rfl rfl rfl, hin', hmoved, hoverwrite⟩

/-- `Ctrl('S')` goes to the first line. -/
theorem On.keyTop (h : e.On ids) : e.keyTop.On ids := by
  obtain ⟨l₁, l₂, rfl, hp⟩ := h
  have hids : l₁ ++ e.curline :: l₂ = e.keyTop.curline :: (l₁ ++ e.curline :: l₂).tail := by
    show _ = e.firstline :: _
    rw [hp.first]
    cases l₁ <;> rfl
  refine ⟨[], _, hids, ?_, rfl, rfl, Int.le_refl _⟩
  rw [List.nil_append, ← hids]
  exact hp.doc

/-- `Ctrl('T')` goes to the last line. -/
theorem On.keyBottom (h : e.On ids) : e.keyBottom.On ids ∧ e.keyBottom.InLine ∧
    e.keyBottom.heap = e.heap ∧ e.keyBottom.overwrite = e.overwrite := by
  obtain ⟨hon, hheap, hoverwrite⟩ := h.keyTop.pageDown e.heap.fresh
  have hcol : ∀ (i : Nat) (e : Edit), (Edit.pageDown i e).col = e.col := by
    intro i
    induction i with
    | zero => exact fun e => rfl
    | succ i ih =>
        intro e
        rw [Edit.pageDown]
        split
        · exact ih _
        · rfl
  exact ⟨hon, inLine_zero (hcol _ _), hheap, hoverwrite⟩

end moves

/-! ## Lines that are split -/

/-- The lines before the cursor, the line it is in, and the lines behind.  None is
selected, unless `reflow` may skip lines. -/
def Shows (skips : Prop) (e : Edit) (before : List TextLine) (cur : TextLine)
    (after : List TextLine) : Prop :=
  ∃ l₁ l₂, e.Place l₁ l₂ ∧ (skips ∨ ∀ p ∈ l₁ ++ e.curline :: l₂, e.heap.selected p = 0) ∧
    e.heap.lines l₁ = before ∧ e.heap.line e.curline = cur ∧ e.heap.lines l₂ = after

section shows

variable {skips : Prop} {c : EditConf} {e e' : Edit} {before after : List TextLine}
  {cur first second : TextLine} {ids l₁ l₂ : List Nat}

theorem Shows.line (hs : e.Shows skips before cur after) : e.heap.line e.curline = cur := by
  obtain ⟨l₁, l₂, hp, hselected, hbefore, hcur, hafter⟩ := hs
  exact hcur

theorem Shows.text (hs : e.Shows skips before cur after) : e.text = cur.text :=
  congrArg TextLine.text hs.line

theorem Shows.on (hs : e.Shows skips before cur after) : ∃ ids, e.On ids := by
  obtain ⟨l₁, l₂, hp, -⟩ := hs
  exact ⟨_, hp.on⟩

theorem Shows.congr (hs : e.Shows skips before cur after) (hheap : e'.heap = e.heap)
    (hfirst : e'.firstline = e.firstline) (hcurline : e'.curline = e.curline)
    (hline : e'.line = e.line) (hlinecur : e'.linecur = e.linecur) :
    e'.Shows skips before cur after := by
  obtain ⟨l₁, l₂, hp, hselected, hbefore, hcur, hafter⟩ := hs
  refine ⟨l₁, l₂, ?_, ?_, ?_, ?_, ?_⟩
  · refine ⟨?_, ?_, by rw [hline, hp.line], ?_⟩
    · rw [hheap, hcurline]
      exact hp.doc
    · rw [hfirst, hcurline]
      exact hp.first
    · rw [hlinecur, hline]
      exact hp.linecur
  · rw [hheap, hcurline]
    exact hselected
  · rw [hheap, hbefore]
  · rw [hheap, hcurline, hcur]
  · rw [hheap, hafter]

/-- The line of the cursor was split: the cursor is in the first half, or goes on to
the second. -/
def Halves (skips : Prop) (e : Edit) (before : List TextLine) (first second : TextLine)
    (after : List TextLine) (h' : LineHeap) : Prop :=
  h'.next e.curline = e.heap.fresh ∧ ∃ cur rest, Rewrap skips (second :: after) (cur :: rest) ∧
    ({ e with heap := h' }).Shows skips before first (cur :: rest) ∧
    ({ e with heap := h' }).toNext.Shows skips (before ++ [first]) cur rest

theorem Shows.splitLine (hs : e.Shows skips before cur after) (len : Nat) (br : Bool) :
    Halves skips e before ⟨cur.text.take len, br⟩ ⟨cur.text.drop len, cur.br⟩ after
      (e.heap.splitLine e.curline len br).1 := by
  obtain ⟨l₁, l₂, hp, hselected, rfl, rfl, rfl⟩ := hs
  have hsplit := LineHeap.splitLine_spec hp.doc hselected len br
  generalize (e.heap.splitLine e.curline len br).1 = h' at hsplit ⊢
  obtain ⟨l₂', hd, hfront, hfirst, hrewrap, hselected'⟩ := hsplit
  have hp₁ := hp.withHeap hd
  obtain ⟨hnext, hp₂⟩ := hp₁.toNext
  refine ⟨hnext, _, _, hrewrap, ⟨_, _, hp₁, hselected', hfront, hfirst, rfl⟩, _, _, hp₂, ?_, ?_, ?_,
    rfl⟩
  · rw [hnext, ← List.append_cons]
    exact hselected'
  · rw [← hfront, ← hfirst]
    exact LineHeap.lines_append h' l₁ [e.curline]
  · rw [hnext]
    rfl

/-- A cursor behind the last column is behind the line. -/
theorem eq_of_full {text : List UInt8} {n len : Nat} (hn : n ≤ len) (hlen : len ≤ text.length)
    (hwidth : measureWidth (text.take len) ≤ MAXLINELEN)
    (hfull : MAXLINELEN ≤ measureWidth (text.take n)) : n = len := by
  have hsplit : text.take len = text.take n ++ (text.take len).drop n := by
    have hparts := List.take_append_drop n (text.take len)
    rw [List.take_take, Nat.min_eq_left hn] at hparts
    exact hparts.symm
  have hbytes := add_length_le_columnFrom (measureWidth (text.take n)) ((text.take len).drop n)
  rw [hsplit, measureWidth_append] at hwidth
  rw [List.length_drop, List.length_take] at hbytes
  omega

/-- What a byte that is typed makes of the line it comes to, which holds `text` then. -/
inductive Typed (skips : Prop) (e : Edit) (before : List TextLine) (text : List UInt8) (br : Bool)
    (after : List TextLine) (e' : Edit) : Prop
  /-- The line fits. -/
  | fits (hfits : (measureLine text MAXLINELEN 0).1 = text.length)
      (hshows : e'.Shows skips before ⟨text, br⟩ after) (hcol : e'.col = e.col + 1)
  /-- The cursor is before the place where it is split. -/
  | stays (len : Nat) (cur : TextLine) (rest : List TextLine)
      (hlen : len = (measureLine text MAXLINELEN 0).1)
      (hrewrap : Rewrap skips (⟨text.drop len, br⟩ :: after) (cur :: rest))
      (hshows : e'.Shows skips before ⟨text.take len, false⟩ (cur :: rest))
      (hcol : e'.col = e.col + 1) (hplace : e.col + 1 ≤ len)
  /-- The cursor goes to the next line. -/
  | goes (len : Nat) (cur : TextLine) (rest : List TextLine)
      (hlen : len = (measureLine text MAXLINELEN 0).1)
      (hrewrap : Rewrap skips (⟨text.drop len, br⟩ :: after) (cur :: rest))
      (hshows : e'.Shows skips (before ++ [⟨text.take len, false⟩]) cur rest)
      (hcol : e'.col = e.col + 1 - len) (hplace : len ≤ e.col + 1)

/-- The line of the cursor is another one. -/
theorem Shows.setLine (hs : e.Shows skips before cur after) (line : TextLine) :
    ({ e with heap := e.heap.setLine e.curline line }).Shows skips before line after := by
  obtain ⟨l₁, l₂, hp, hselected, hbefore, -, hafter⟩ := hs
  obtain ⟨hfront, hself, hback⟩ := hp.doc.setLine_lines line
  exact ⟨l₁, l₂, hp.withHeap (hp.doc.congr rfl rfl rfl rfl), hselected, hfront.trans hbefore, hself,
    hback.trans hafter⟩

theorem Shows.setText (hs : e.Shows skips before cur after) (text : List UInt8) :
    ({ e with heap := e.heap.setText e.curline text }).Shows skips before ⟨text, cur.br⟩ after := by
  rw [← hs.line]
  exact hs.setLine _

/-- The line is broken: the cursor stays in it, or goes to the next line. -/
theorem Shows.breakLine {text : List UInt8} {br : Bool} {len : Nat}
    (hs : e.Shows skips before ⟨text, br⟩ after) (hlen : len ≤ text.length)
    (hwidth : measureWidth (text.take len) ≤ MAXLINELEN) (hcol : 0 ≤ e.col)
    (hcolcur : e.colcur = measureWidth (text.take e.col.toNat)) :
    ∃ cur rest, Rewrap skips (⟨text.drop len, br⟩ :: after) (cur :: rest) ∧
      ((e.breakLine len).Shows skips before ⟨text.take len, false⟩ (cur :: rest) ∧
          (e.breakLine len).col = e.col ∧ e.col ≤ len ∨
        (e.breakLine len).Shows skips (before ++ [⟨text.take len, false⟩]) cur rest ∧
          (e.breakLine len).col = e.col - len ∧ len ≤ e.col) := by
  obtain ⟨-, cur, rest, hrewrap, hstays, hgoes⟩ := hs.splitLine len false
  refine ⟨cur, rest, hrewrap, ?_⟩
  unfold Edit.breakLine
  dsimp only
  by_cases hbehind : e.col > len ∨ e.colcur ≥ MAXLINELEN
  · rw [if_pos hbehind]
    refine Or.inr ⟨hgoes.congr rfl rfl rfl rfl rfl, rfl, ?_⟩
    by_contra hlt
    have hfull := hbehind.resolve_left (by omega)
    rw [hcolcur] at hfull
    have heq := eq_of_full (by omega) hlen hwidth hfull
    omega
  · rw [if_neg hbehind]
    rw [not_or] at hbehind
    exact Or.inl ⟨hstays, rfl, Int.not_lt.mp hbehind.1⟩

/-- **Typing.** -/
theorem Shows.insertChar (hs : e.Shows skips before cur after) (hin : e.InLine) (ch : UInt8) :
    Typed skips e before (cur.text.take e.col.toNat ++
      ch :: cur.text.drop (if e.overwrite then e.col.toNat + 1 else e.col.toNat)) cur.br after
      (e.insertChar ch) := by
  obtain ⟨hzero, hend⟩ := hin
  rw [← hs.text]
  unfold Edit.insertChar
  dsimp only
  generalize e.text.take e.col.toNat ++
    ch :: e.text.drop (if e.overwrite then e.col.toNat + 1 else e.col.toNat) = text
  have hset := hs.setText text
  generalize he₁ : ({ e with heap := e.heap.setText e.curline text, col := e.col + 1 }).setColcur = e₁
  have hs₁ : e₁.Shows skips before ⟨text, cur.br⟩ after := by
    rw [← he₁]
    exact hset.congr rfl rfl rfl rfl rfl
  have hcol : e₁.col = e.col + 1 := by
    rw [← he₁]
    rfl
  have hcolcur : e₁.colcur = measureWidth (text.take e₁.col.toNat) := by
    have htext : e₁.text = text := hs₁.text
    rw [← htext, ← he₁]
    rfl
  split
  · next hfits => exact Typed.fits hfits.1 (hs₁.congr rfl rfl rfl rfl rfl) hcol
  · obtain ⟨cur', rest, hrewrap, hwhere⟩ := hs₁.breakLine (measureLine_le text MAXLINELEN 0)
      (width_take_measureLine text) (by omega) hcolcur
    rw [hcol] at hwhere
    cases hwhere with
    | inl hstays =>
        obtain ⟨hshows, hcol', hplace⟩ := hstays
        exact Typed.stays _ cur' rest rfl hrewrap (hshows.congr rfl rfl rfl rfl rfl) hcol' hplace
    | inr hgoes =>
        obtain ⟨hshows, hcol', hplace⟩ := hgoes
        exact Typed.goes _ cur' rest rfl hrewrap (hshows.congr rfl rfl rfl rfl rfl) hcol' hplace

theorem Shows.inLine (hs : e.Shows skips before cur after) (hzero : 0 ≤ e.col)
    (hend : e.col ≤ cur.text.length) : e.InLine := by
  unfold InLine
  rw [hs.text]
  exact ⟨hzero, hend⟩

theorem Shows.col_le (hs : e.Shows skips before cur after) (hin : e.InLine) :
    0 ≤ e.col ∧ e.col ≤ cur.text.length := by
  rw [← hs.text]
  exact hin

/-- The first line is no shorter when lines are filled. -/
theorem length_le_of_rewrap {rest : List TextLine}
    (hrewrap : Rewrap skips (first :: after) (cur :: rest)) :
    first.text.length ≤ cur.text.length := by
  obtain ⟨ln, rest', hlines, hbegins⟩ := hrewrap.head first after rfl
  rw [(List.cons.inj hlines).1]
  exact hbegins.length_le

/-- The cursor is in the document, in the line. -/
def Ok (e : Edit) : Prop := (∃ ids, e.On ids) ∧ e.InLine

theorem Typed.ok {text : List UInt8} {br : Bool} (ht : Typed skips e before text br after e')
    (hcol : 0 ≤ e.col) (hend : e.col + 1 ≤ text.length) : e'.Ok := by
  cases ht with
  | fits hfits hshows hcol' =>
      exact ⟨hshows.on, hshows.inLine (by omega) (by rw [hcol']; exact hend)⟩
  | stays len cur rest hlen hrewrap hshows hcol' hplace =>
      refine ⟨hshows.on, hshows.inLine (by omega) ?_⟩
      rw [hcol', List.length_take]
      omega
  | goes len cur rest hlen hrewrap hshows hcol' hplace =>
      have hle := length_le_of_rewrap hrewrap
      rw [List.length_drop] at hle
      exact ⟨hshows.on, hshows.inLine (by omega) (by omega)⟩

/-- **Enter.** -/
theorem Shows.keyEnter (hs : e.Shows skips before cur after) :
    ∃ cur' rest,
      Rewrap skips (⟨cur.text.drop e.col.toNat, cur.br⟩ :: after) (cur' :: rest) ∧
        e.keyEnter.Shows skips (before ++ [⟨cur.text.take e.col.toNat, true⟩]) cur' rest := by
  obtain ⟨hnext, cur', rest, hrewrap, -, hgoes⟩ := hs.splitLine e.col.toNat true
  exact ⟨cur', rest, hrewrap, hgoes.congr rfl rfl hnext.symm rfl rfl⟩

/-- The lines from the one of the cursor on are filled. -/
theorem Shows.reflow (hs : e.Shows skips before cur after) :
    ∃ cur' rest, Rewrap skips (cur :: after) (cur' :: rest) ∧
      ({ e with heap := e.heap.reflow e.heap.fresh e.curline }).Shows skips before cur' rest := by
  obtain ⟨l₁, l₂, hp, hselected, rfl, rfl, rfl⟩ := hs
  have hfuel : l₂.length < e.heap.fresh := by
    have hlen := hp.doc.length_lt
    simp only [List.length_append, List.length_cons] at hlen
    omega
  obtain ⟨l₂', hd, hfront, hrewrap, hselected'⟩ := LineHeap.reflow_spec _ hp.doc hfuel hselected
  exact ⟨_, _, hrewrap, l₁, l₂', hp.withHeap hd, hselected', hfront, rfl, rfl⟩

/-- What `Ctrl('K')` leaves. -/
theorem Shows.keyDeleteToEol (hs : e.Shows skips before cur after) :
    ∃ cur' rest, Rewrap skips (⟨cur.text.take e.col.toNat, cur.br⟩ :: after) (cur' :: rest) ∧
      e.keyDeleteToEol.Shows skips before cur' rest := by
  obtain ⟨cur', rest, hrewrap, hshows⟩ := (hs.setText (cur.text.take e.col.toNat)).reflow
  rw [← hs.text] at hshows
  exact ⟨cur', rest, hrewrap, hshows⟩

/-! ## Deleting -/

/-- The lines from the one of the cursor on, without the character at `col`. -/
def deleteAt (enabledbchar : Bool) (col : Nat) : List TextLine → List TextLine
  | [] => []
  | cur :: after =>
      if col < cur.text.length then
        let n := if col + 1 < cur.text.length ∧ indb enabledbchar cur.text (col + 1) then 2 else 1
        ⟨cur.text.take col ++ cur.text.drop (col + n), cur.br⟩ :: after
      else if cur.br then ⟨cur.text, false⟩ :: after
      else
        cur ::
          match after with
          | [] => []
          | next :: rest =>
              let n := if indb enabledbchar next.text 1 ∧ next.text.length > 1 then 2 else 1
              (if next.text = [] then ⟨[], false⟩ else ⟨next.text.drop n, next.br⟩) :: rest

/-- The line behind the one of the cursor gets another text. -/
theorem Shows.setNextLine {next : TextLine} {rest : List TextLine}
    (hs : e.Shows skips before cur (next :: rest)) (line : TextLine) :
    e.heap.next e.curline ≠ 0 ∧ e.heap.line (e.heap.next e.curline) = next ∧
      ({ e with heap := e.heap.setLine (e.heap.next e.curline) line }).Shows skips before cur
        (line :: rest) := by
  obtain ⟨l₁, l₂, hp, hselected, rfl, rfl, hafter⟩ := hs
  obtain ⟨b, l₃, rfl, hb, hrest⟩ := List.map_eq_cons_iff.mp hafter
  have hnext := hp.doc.next_cons
  have hdb := hp.doc
  rw [List.append_cons] at hdb
  obtain ⟨hfront, hself, hback⟩ := hdb.setLine_lines line
  rw [LineHeap.lines_append, LineHeap.lines_append] at hfront
  obtain ⟨hfront, hcur⟩ := List.append_inj' hfront rfl
  rw [hnext]
  refine ⟨hp.doc.ne_zero (by simp), hb, l₁, b :: l₃, hp.withHeap (hp.doc.congr rfl rfl rfl rfl),
    hselected, hfront, (List.cons.inj hcur).1, ?_⟩
  rw [← hrest]
  exact congrArg₂ _ hself hback

/-- The character at the cursor is taken out. -/
theorem Shows.delChar (hs : e.Shows skips before cur after) (hin : e.InLine) :
    ∃ cur' rest, deleteAt c.enabledbchar e.col.toNat (cur :: after) = cur' :: rest ∧
      e.col ≤ cur'.text.length ∧
      ({ e with heap := e.delChar c }).Shows skips before cur' rest := by
  obtain ⟨hzero, hend⟩ := hs.col_le hin
  unfold deleteAt Edit.delChar
  dsimp only
  rw [hs.text, hs.line]
  by_cases hinside : e.col < cur.text.length
  · have hinside' : e.col.toNat < cur.text.length := by omega
    rw [if_pos hinside, if_pos hinside']
    have hkept : ∀ n, e.col ≤ (cur.text.take e.col.toNat ++
        cur.text.drop (e.col.toNat + n)).length := by
      intro n
      rw [List.length_append, List.length_take]
      omega
    refine ⟨_, _, rfl, hkept _, ?_⟩
    by_cases hpair : e.col.toNat + 1 < cur.text.length ∧
        indb c.enabledbchar cur.text (e.col.toNat + 1) = true
    · have hpair' : e.col + 1 < cur.text.length := by omega
      rw [if_pos hpair, if_pos ⟨hpair', hpair.2⟩]
      exact hs.setText _
    · rw [if_neg hpair, if_neg]
      · exact hs.setText _
      · rintro ⟨hpair', hdb⟩
        exact hpair ⟨by omega, hdb⟩
  · have hinside' : ¬e.col.toNat < cur.text.length := by omega
    rw [if_neg hinside, if_neg hinside']
    cases hbr : cur.br with
    | true =>
        rw [if_pos rfl, if_pos rfl, ← hs.text]
        refine ⟨_, _, rfl, ?_, hs.setLine _⟩
        rwa [hs.text]
    | false =>
        rw [if_neg Bool.false_ne_true, if_neg Bool.false_ne_true]
        refine ⟨_, _, rfl, hend, ?_⟩
        cases after with
        | nil =>
            obtain ⟨l₁, l₂, hp, -, -, -, hafter⟩ := id hs
            obtain rfl := List.map_eq_nil_iff.mp hafter
            have hnext : e.heap.next e.curline = 0 := hp.doc.next_eq
            rw [if_neg (not_not.mpr hnext)]
            exact hs
        | cons next rest =>
            dsimp only
            obtain ⟨hnext, hline, -⟩ := hs.setNextLine next
            rw [if_pos hnext, hline]
            by_cases htext : next.text = []
            · rw [if_neg (not_not.mpr htext), if_pos htext]
              have hempty : e.heap.setBr (e.heap.next e.curline) false =
                  e.heap.setLine (e.heap.next e.curline) ⟨[], false⟩ := by
                rw [← htext, ← hline]
                rfl
              rw [hempty]
              exact (hs.setNextLine _).2.2
            · rw [if_pos htext, if_neg htext]
              have hset : ∀ text, e.heap.setText (e.heap.next e.curline) text =
                  e.heap.setLine (e.heap.next e.curline) ⟨text, next.br⟩ := by
                intro text
                rw [← hline]
                rfl
              rw [hset, hset]
              split
              · exact (hs.setNextLine _).2.2
              · exact (hs.setNextLine _).2.2

/-- **`KEY_DEL`.** -/
theorem Shows.keyDel (hs : e.Shows skips before cur after) (hin : e.InLine) :
    ∃ cur' rest, Rewrap skips (deleteAt c.enabledbchar e.col.toNat (cur :: after)) (cur' :: rest) ∧
      e.col ≤ cur'.text.length ∧ (e.keyDel c).Shows skips before cur' rest := by
  obtain ⟨cur₁, rest₁, hdelete, hend, hshows⟩ := hs.delChar (c := c) hin
  obtain ⟨cur', rest, hrewrap, hshows'⟩ := hshows.reflow
  have hle := length_le_of_rewrap hrewrap
  rw [hdelete]
  exact ⟨cur', rest, hrewrap, by omega, hshows'⟩

end shows

end Edit

end Ytht
