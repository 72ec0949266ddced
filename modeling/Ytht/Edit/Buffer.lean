import Mathlib.Data.List.Infix
import Mathlib.Data.List.Perm.Subperm
import Ytht.Edit.Measure
import Ytht.Lib.Dll

/-!
# Edit.Buffer

The lines of the editor in memory, and how a line is put in (`allocNextLine`) and the
lines that are not ended are filled again (`reflow`).

`Doc` says which lines are linked to a document.  `reflow_spec` says what `reflow`
makes of one: another document, whose lines are those of before, wrapped in another
way (`Rewrap`).  That a text is not changed by this, and fits, is shown of `Rewrap`.
-/

namespace Ytht

open Function

/-! ## Lines in memory -/

/-- What a line holds: the `len` bytes of `text`, and whether a newline ends it. -/
structure TextLine where
  text : List UInt8
  br : Bool
  deriving DecidableEq

/-- `struct textLine` at each address; `NULL` is 0.  `malloc` gives an address that
was never used, and `live` are those that were not freed. -/
structure LineHeap where
  prev : Nat → Nat
  next : Nat → Nat
  line : Nat → TextLine
  selected : Nat → Nat
  live : Nat → Bool
  fresh : Nat

namespace LineHeap

variable (h : LineHeap)

def setPrev (p v : Nat) : LineHeap := { h with prev := update h.prev p v }

/-- `if (p) p->prev = v`. -/
def linkBack (p v : Nat) : LineHeap := if p ≠ 0 then h.setPrev p v else h

def setNext (p v : Nat) : LineHeap := { h with next := update h.next p v }

def setLine (p : Nat) (v : TextLine) : LineHeap := { h with line := update h.line p v }

def setText (p : Nat) (v : List UInt8) : LineHeap := h.setLine p { h.line p with text := v }

def setBr (p : Nat) (v : Bool) : LineHeap := h.setLine p { h.line p with br := v }

def setSelected (p v : Nat) : LineHeap := { h with selected := update h.selected p v }

def free (p : Nat) : LineHeap := { h with live := update h.live p false }

/-- `allocNextLine`, and the new line. -/
def allocNextLine (ln : Nat) : LineHeap × Nat :=
  let newln := h.fresh
  let h := { h with fresh := h.fresh + 1, live := update h.live newln true }
  let h := h.setPrev newln ln
  let h :=
    if ln ≠ 0 then
      let h := h.setNext newln (h.next ln)
      let h := h.setNext ln newln
      let h := h.linkBack (h.next newln) newln
      h.setSelected newln (if h.selected ln ≠ 0 then 2 else 0)
    else (h.setSelected newln 0).setNext newln 0
  (h.setLine newln ⟨[], false⟩, newln)

/-- `keepSelect`: the mark of the first selected line goes to a neighbour. -/
def keepSelect (ln : Nat) : LineHeap :=
  if h.selected ln ≠ 1 then h
  else if h.prev ln ≠ 0 ∧ h.selected (h.prev ln) ≠ 0 then h.setSelected (h.prev ln) 1
  else if h.next ln ≠ 0 ∧ h.selected (h.next ln) ≠ 0 then h.setSelected (h.next ln) 1
  else h

/-- `*ln = *nextln`. -/
def copyLine (ln nextln : Nat) : LineHeap :=
  { h with
    prev := update h.prev ln (h.prev nextln)
    next := update h.next ln (h.next nextln)
    line := update h.line ln (h.line nextln)
    selected := update h.selected ln (h.selected nextln) }

/-- The part of `reflow` for an empty line: it becomes the next line. -/
def takeOver (ln nextln : Nat) : LineHeap :=
  let h := h.setPrev nextln (h.prev ln)
  let h := h.linkBack (h.next nextln) ln
  let h := h.keepSelect ln
  let h := h.copyLine ln nextln
  h.free nextln

/-- The part of `reflow` for a next line of which nothing is left. -/
def unlinkNext (ln nextln : Nat) : LineHeap :=
  let h := h.setNext ln (h.next nextln)
  let h := h.linkBack (h.next nextln) ln
  let h := if (h.line nextln).br then h.setBr ln true else h
  let h := h.keepSelect nextln
  h.free nextln

/-- How many bytes `reflow` takes from the next line. -/
def grabbed (ln nextln : Nat) : Int :=
  let len : Int := min (MAXLINELEN - (h.line ln).text.length) (h.line nextln).text.length
  if len ≠ 0 then
    (measureLine ((h.line ln).text ++ (h.line nextln).text.take len.toNat) MAXLINELEN 0).1 -
      (h.line ln).text.length
  else len

/-- The first `len` bytes of the next line come to a line. -/
def moveBytes (ln nextln len : Nat) : LineHeap :=
  let h' := h.setText ln ((h.line ln).text ++ (h.line nextln).text.take len)
  h'.setText nextln ((h'.line nextln).text.drop len)

/-- `reflow`, for at most so many times of its loop. -/
def reflow : Nat → LineHeap → Nat → LineHeap
  | 0, h, _ => h
  | fuel + 1, h, ln =>
      if ln = 0 ∨ h.next ln = 0 ∨ (h.line ln).br then h
      else
        let nextln := h.next ln
        if (h.selected ln ≠ 0 ∧ h.selected nextln = 0) ∨ (h.selected ln = 0 ∧ h.selected nextln ≠ 0) then
          reflow fuel h nextln
        else if (h.line ln).text = [] then reflow fuel (h.takeOver ln nextln) ln
        else
          let len := h.grabbed ln nextln
          if (h.line nextln).text ≠ [] ∧ len ≤ 0 then h
          else
            let h := h.moveBytes ln nextln len.toNat
            if (h.line nextln).text = [] ∧ measureWidth (h.line ln).text < MAXLINELEN then
              let h := h.unlinkNext ln nextln
              if (h.line ln).br then h else reflow fuel h (h.next ln)
            else reflow fuel h nextln

/-! ## Documents -/

/-- The lines at these addresses are a document. -/
structure Doc (ids : List Nat) : Prop where
  linked : Dll.Linked h.prev h.next 0 ids 0
  nodup : (0 :: ids).Nodup
  live : ∀ p ∈ ids, h.live p = true
  old : ∀ p ∈ ids, p < h.fresh
  fresh : 0 < h.fresh

/-- What the lines at these addresses hold. -/
def lines (ids : List Nat) : List TextLine := ids.map h.line

end LineHeap

/-! ## Wrapping -/

/-- The bytes of a line, with its newline. -/
def TextLine.bytes (ln : TextLine) : List UInt8 := ln.text ++ if ln.br then [10] else []

/-- The text of a document. -/
def textOf (lines : List TextLine) : List UInt8 := lines.flatMap TextLine.bytes

/-- A line fits in a line of the screen. -/
structure TextLine.Fits (ln : TextLine) : Prop where
  width : measureWidth ln.text ≤ MAXLINELEN
  noNewline : ∀ ch ∈ ln.text, isNewline ch = false

/-- No line but the last is empty, unless a newline ends it. -/
def Solid : List TextLine → Prop
  | [] => True
  | ln :: lines => (ln.br = false → lines ≠ [] → ln.text ≠ []) ∧ Solid lines

/-- What `reflow` may make of lines, from the first one on.  It skips a line where
some are selected. -/
inductive Rewrap (skips : Prop) : List TextLine → List TextLine → Prop
  | stop (lines : List TextLine)
      (hstop : ∀ ln next rest, lines = ln :: next :: rest → ln.br = false →
        ln.text ≠ [] ∧ next.text ≠ []) :
      Rewrap skips lines lines
  | skip {lines lines' : List TextLine} (ln : TextLine) (hskips : skips)
      (hrest : Rewrap skips lines lines') : Rewrap skips (ln :: lines) (ln :: lines')
  | takeOver {lines lines' : List TextLine} (hrest : Rewrap skips lines lines') (hne : lines ≠ []) :
      Rewrap skips (⟨[], false⟩ :: lines) lines'
  | grab {lines lines' : List TextLine} {text taken left : List UInt8} {br : Bool} (hne : text ≠ [])
      (hfits : text ++ taken = text ∨ measureWidth (text ++ taken) ≤ MAXLINELEN)
      (hrest : Rewrap skips (⟨left, br⟩ :: lines) lines') :
      Rewrap skips (⟨text, false⟩ :: ⟨taken ++ left, br⟩ :: lines) (⟨text ++ taken, false⟩ :: lines')
  | merge {lines lines' : List TextLine} {text taken : List UInt8} (hne : text ≠ [])
      (hfits : measureWidth (text ++ taken) ≤ MAXLINELEN) (hrest : Rewrap skips lines lines') :
      Rewrap skips (⟨text, false⟩ :: ⟨taken, false⟩ :: lines) (⟨text ++ taken, false⟩ :: lines')
  | join {text taken : List UInt8} (lines : List TextLine)
      (hfits : measureWidth (text ++ taken) ≤ MAXLINELEN) :
      Rewrap skips (⟨text, false⟩ :: ⟨taken, true⟩ :: lines) (⟨text ++ taken, true⟩ :: lines)

section rewrap

variable {skips : Prop} {lines lines' : List TextLine}

@[simp] theorem textOf_cons (ln : TextLine) (lines : List TextLine) :
    textOf (ln :: lines) = ln.bytes ++ textOf lines := rfl

theorem textOf_append (l l' : List TextLine) : textOf (l ++ l') = textOf l ++ textOf l' :=
  List.flatMap_append

/-- **Wrapping changes no byte** of the text. -/
theorem Rewrap.textOf_eq (h : Rewrap skips lines lines') : textOf lines' = textOf lines := by
  induction h with
  | stop lines hstop => rfl
  | skip ln hskips hrest ih => rw [textOf_cons, textOf_cons, ih]
  | takeOver hrest hne ih =>
      rw [textOf_cons, ih]
      rfl
  | grab hne hfits hrest ih =>
      rw [textOf_cons, ih]
      simp [TextLine.bytes]
  | merge hne hfits hrest ih =>
      rw [textOf_cons, ih]
      simp [TextLine.bytes]
  | join lines hfits => simp [TextLine.bytes]

/-- **Wrapped lines fit.** -/
theorem Rewrap.fits (h : Rewrap skips lines lines') (hfits : ∀ ln ∈ lines, ln.Fits) :
    ∀ ln ∈ lines', ln.Fits := by
  have hjoin : ∀ {text taken left : List UInt8} {br br' br'' : Bool},
      measureWidth (text ++ taken) ≤ MAXLINELEN → TextLine.Fits ⟨text, br⟩ →
        TextLine.Fits ⟨taken ++ left, br'⟩ → TextLine.Fits ⟨text ++ taken, br''⟩ := by
    intro text taken left br br' br'' hwidth htext htaken
    refine ⟨hwidth, fun ch hch => ?_⟩
    cases List.mem_append.mp hch with
    | inl hch => exact htext.noNewline ch hch
    | inr hch => exact htaken.noNewline ch (List.mem_append_left left hch)
  induction h with
  | stop lines hstop => exact hfits
  | skip ln hskips hrest ih =>
      rw [List.forall_mem_cons] at hfits ⊢
      exact ⟨hfits.1, ih hfits.2⟩
  | takeOver hrest hne ih => exact ih fun ln hln => hfits ln (List.mem_cons_of_mem _ hln)
  | @grab lines lines' text taken left br hne hgrab hrest ih =>
      rw [List.forall_mem_cons, List.forall_mem_cons] at hfits
      obtain ⟨hfirst, hnext, hlines⟩ := hfits
      have hwidth : measureWidth (text ++ taken) ≤ MAXLINELEN := by
        cases hgrab with
        | inl hsame =>
            rw [hsame]
            exact hfirst.width
        | inr hle => exact hle
      rw [List.forall_mem_cons]
      refine ⟨hjoin hwidth hfirst hnext, ih ?_⟩
      rw [List.forall_mem_cons]
      refine ⟨⟨?_, fun ch hch => hnext.noNewline ch (List.mem_append_right taken hch)⟩, hlines⟩
      exact Nat.le_trans (measureWidth_suffix_le taken left) hnext.width
  | @merge lines lines' text taken hne hwidth hrest ih =>
      rw [List.forall_mem_cons, List.forall_mem_cons] at hfits
      obtain ⟨hfirst, hnext, hlines⟩ := hfits
      rw [← List.append_nil taken] at hnext
      rw [List.forall_mem_cons]
      exact ⟨hjoin hwidth hfirst hnext, ih hlines⟩
  | @join text taken lines hwidth =>
      rw [List.forall_mem_cons, List.forall_mem_cons] at hfits
      obtain ⟨hfirst, hnext, hlines⟩ := hfits
      rw [← List.append_nil taken] at hnext
      rw [List.forall_mem_cons]
      exact ⟨hjoin hwidth hfirst hnext, hlines⟩

theorem Solid.tail (h : Solid lines) : Solid lines.tail := by
  cases lines with
  | nil => trivial
  | cons ln lines => exact h.2

/-- No empty lines are left, when none is skipped.  Behind a line that is not ended
there may have been one. -/
theorem Rewrap.solid (h : Rewrap False lines lines')
    (hsolid : Solid lines.tail ∨ (∀ ln ∈ lines.head?, ln.br = false) ∧ Solid lines.tail.tail) :
    Solid lines' := by
  induction h with
  | stop lines hstop =>
      cases lines with
      | nil => trivial
      | cons ln rest =>
          cases rest with
          | nil => exact ⟨fun _ hne => absurd rfl hne, trivial⟩
          | cons next rest =>
              refine ⟨fun hbr _ => (hstop ln next rest rfl hbr).1, ?_⟩
              cases hsolid with
              | inl hrest => exact hrest
              | inr hrest =>
                  exact ⟨fun _ _ => (hstop ln next rest rfl (hrest.1 ln rfl)).2, hrest.2⟩
  | skip ln hskips hrest ih => contradiction
  | takeOver hrest hne ih => exact ih (Or.inl (hsolid.elim Solid.tail And.right))
  | grab hne hfits hrest ih =>
      refine ⟨fun _ _ => List.append_ne_nil_of_left_ne_nil hne _, ih (Or.inl ?_)⟩
      exact hsolid.elim Solid.tail And.right
  | merge hne hfits hrest ih =>
      refine ⟨fun _ _ => List.append_ne_nil_of_left_ne_nil hne _, ih (Or.inl ?_)⟩
      exact (hsolid.elim Solid.tail And.right).tail
  | join lines hfits => exact ⟨fun hbr => Bool.noConfusion hbr, hsolid.elim Solid.tail And.right⟩

/-- The first line grows. -/
theorem Rewrap.head (h : Rewrap skips lines lines') (ln : TextLine) (rest : List TextLine)
    (hlines : lines = ln :: rest) :
    ∃ ln' rest', lines' = ln' :: rest' ∧ ln.text <+: ln'.text := by
  induction h generalizing ln rest with
  | stop lines hstop => exact ⟨ln, rest, hlines, List.prefix_rfl⟩
  | skip ln' hskips hrest ih =>
      obtain ⟨rfl, -⟩ := List.cons.inj hlines
      exact ⟨_, _, rfl, List.prefix_rfl⟩
  | @takeOver lines lines' hrest hne ih =>
      obtain ⟨rfl, -⟩ := List.cons.inj hlines
      obtain ⟨b, lines, rfl⟩ := List.exists_cons_of_ne_nil hne
      obtain ⟨ln', rest', hlines', -⟩ := ih b lines rfl
      exact ⟨ln', rest', hlines', List.nil_prefix⟩
  | grab hne hfits hrest ih =>
      obtain ⟨rfl, -⟩ := List.cons.inj hlines
      exact ⟨_, _, rfl, List.prefix_append _ _⟩
  | merge hne hfits hrest ih =>
      obtain ⟨rfl, -⟩ := List.cons.inj hlines
      exact ⟨_, _, rfl, List.prefix_append _ _⟩
  | join lines hfits =>
      obtain ⟨rfl, -⟩ := List.cons.inj hlines
      exact ⟨_, _, rfl, List.prefix_append _ _⟩

end rewrap

/-! ## What is linked -/

namespace LineHeap

section doc

variable {h h' : LineHeap} {l l₁ l₂ : List Nat} {a b n p : Nat}

theorem lines_append (h : LineHeap) (l l' : List Nat) :
    h.lines (l ++ l') = h.lines l ++ h.lines l' := List.map_append

theorem lines_cons (h : LineHeap) (p : Nat) (l : List Nat) :
    h.lines (p :: l) = h.line p :: h.lines l := rfl

/-- A line that is not among them may change. -/
theorem lines_update {v : TextLine} (h : LineHeap) (hp : p ∉ l) :
    l.map (update h.line p v) = h.lines l := by
  refine List.map_congr_left fun x hx => update_of_ne ?_ v h.line
  rintro rfl
  exact hp hx

namespace Doc

theorem ne_zero (hd : h.Doc l) (hp : p ∈ l) : p ≠ 0 := by
  rintro rfl
  exact (List.nodup_cons.mp hd.nodup).1 hp

theorem next_eq (hd : h.Doc (l₁ ++ a :: l₂)) : h.next a = l₂.headD 0 := hd.linked.next_eq

theorem prev_eq (hd : h.Doc (l₁ ++ a :: l₂)) : h.prev a = l₁.getLastD 0 := hd.linked.prev_eq

theorem next_cons (hd : h.Doc (l₁ ++ a :: b :: l₂)) : h.next a = b := hd.next_eq

theorem prev_concat (hd : h.Doc (l₁ ++ [b] ++ a :: l₂)) : h.prev a = b := by
  rw [hd.prev_eq, List.getLastD_concat]

/-- A cell, those before and those behind are apart. -/
theorem notMem (hd : h.Doc (l₁ ++ a :: l₂)) :
    a ∉ l₁ ∧ a ∉ l₂ ∧ ∀ x ∈ l₁, x ∉ l₂ := by
  have hnodup := (List.nodup_cons.mp hd.nodup).2
  rw [List.nodup_append, List.nodup_cons] at hnodup
  obtain ⟨-, ⟨ha, -⟩, hapart⟩ := hnodup
  refine ⟨fun hmem => ?_, ha, fun x hx hmem => ?_⟩
  · exact hapart a hmem a List.mem_cons_self rfl
  · exact hapart x hx x (List.mem_cons_of_mem a hmem) rfl

/-- A document has fewer lines than addresses were given. -/
theorem length_lt (hd : h.Doc l) : l.length < h.fresh := by
  have hsub : (0 :: l) ⊆ List.range h.fresh := by
    intro x hx
    rw [List.mem_range]
    cases List.mem_cons.mp hx with
    | inl hzero =>
        rw [hzero]
        exact hd.fresh
    | inr hmem => exact hd.old x hmem
  have hlen := (List.subperm_of_subset hd.nodup hsub).length_le
  rw [List.length_cons, List.length_range] at hlen
  omega

/-- The same links, in memory that is in use. -/
theorem congr (hd : h.Doc l) (hprev : h'.prev = h.prev) (hnext : h'.next = h.next)
    (hlive : h'.live = h.live) (hfresh : h'.fresh = h.fresh) : h'.Doc l where
  linked := by
    rw [hprev, hnext]
    exact hd.linked
  nodup := hd.nodup
  live := by
    rw [hlive]
    exact hd.live
  old := by
    rw [hfresh]
    exact hd.old
  fresh := by
    rw [hfresh]
    exact hd.fresh

/-- A line is left out, and its neighbours are linked. -/
theorem dropLine (hd : h.Doc (l₁ ++ b :: l₂)) (hprev : ∀ x ∈ l₁ ++ l₂.tail, h'.prev x = h.prev x)
    (hnext : ∀ x ∈ l₁.dropLast ++ l₂, h'.next x = h.next x)
    (hlast : ∀ x ∈ l₁.getLast?, h'.next x = l₂.headD 0)
    (hfirst : ∀ x ∈ l₂.head?, h'.prev x = l₁.getLastD 0)
    (hlive : ∀ x ∈ l₁ ++ l₂, h'.live x = h.live x) (hfresh : h'.fresh = h.fresh) :
    h'.Doc (l₁ ++ l₂) := by
  have hsub : (l₁ ++ l₂).Sublist (l₁ ++ b :: l₂) :=
    List.Sublist.append_left (List.sublist_cons_self b l₂) l₁
  have hlinked := hd.linked
  rw [List.append_cons] at hlinked
  refine ⟨hlinked.remove hprev hnext hlast hfirst, hd.nodup.sublist (hsub.cons_cons 0),
    fun x hx => ?_, fun x hx => ?_, ?_⟩
  · rw [hlive x hx]
    exact hd.live x (hsub.subset hx)
  · rw [hfresh]
    exact hd.old x (hsub.subset hx)
  · rw [hfresh]
    exact hd.fresh

/-- A line does not lead on to itself or to one before it. -/
theorem next_notMem (hd : h.Doc (l₁ ++ a :: l₂)) :
    h.next a ∉ l₁ ∧ h.next a ≠ a ∧ h.next a ∉ l₂.tail := by
  rw [hd.next_eq]
  cases l₂ with
  | nil =>
      have hzero := (List.nodup_cons.mp hd.nodup).1
      simp only [List.headD_nil, List.tail_nil]
      grind
  | cons b l₂ =>
      have ha := hd.notMem
      rw [List.append_cons] at hd
      have hb := hd.notMem
      simp only [List.headD_cons, List.tail_cons]
      grind

/-- The line behind another is left out. -/
theorem dropNext (hd : h.Doc (l₁ ++ a :: b :: l₂))
    (hprev : ∀ x, x ≠ b →
      h'.prev x = if x = a then h.prev a else if h.next b ≠ 0 ∧ x = h.next b then a else h.prev x)
    (hnext : ∀ x, x ≠ b → h'.next x = if x = a then h.next b else h.next x)
    (hlive : ∀ x, x ≠ b → h'.live x = h.live x) (hfresh : h'.fresh = h.fresh) :
    h'.Doc (l₁ ++ a :: l₂) := by
  obtain ⟨ha, ha', hapart⟩ := hd.notMem
  have hd' := hd
  rw [List.append_cons] at hd' ⊢
  obtain ⟨hb1, hbb, hb2⟩ := hd'.next_notMem
  have hb := hd'.next_eq
  have hba : h.next b ≠ a := fun heq => hb1 (by simp [heq])
  obtain ⟨hb', hb'', -⟩ := hd'.notMem
  have hne : ∀ x ∈ l₁ ++ [a] ++ l₂, x ≠ b := by
    rintro x hx rfl
    cases List.mem_append.mp hx with
    | inl hx => exact hb' hx
    | inr hx => exact hb'' hx
  refine hd'.dropLine ?_ ?_ ?_ ?_ ?_ hfresh
  · intro x hx
    rw [hprev x (hne x (List.mem_append.mpr ((List.mem_append.mp hx).imp id List.mem_of_mem_tail)))]
    grind
  · intro x hx
    rw [List.dropLast_concat] at hx
    have hmem := List.mem_append.mpr ((List.mem_append.mp hx).imp (List.mem_append_left [a]) id)
    rw [hnext x (hne x hmem), if_neg]
    rintro rfl
    cases List.mem_append.mp hx with
    | inl hx => exact ha hx
    | inr hx => exact ha' (List.mem_cons_of_mem b hx)
  · intro x hx
    rw [List.getLast?_concat] at hx
    cases hx
    rw [hnext a (hne a (by simp)), if_pos rfl, hb]
  · intro x hx
    rw [List.getLastD_concat]
    obtain ⟨l₃, rfl⟩ := List.head?_eq_some_iff.mp hx
    have hxa : x ≠ a := by
      rintro rfl
      exact hba hb
    have hzero : h.next b ≠ 0 := by
      rw [hb]
      exact hd.ne_zero (by simp)
    rw [hprev x (hne x (by simp)), if_neg hxa, if_pos ⟨hzero, hb.symm⟩]
  · exact fun x hx => hlive x (hne x hx)

end Doc

/-! ## Marks and links -/

@[simp] theorem linkBack_next (h : LineHeap) (p v : Nat) : (h.linkBack p v).next = h.next := by
  unfold linkBack
  split <;> rfl

@[simp] theorem linkBack_line (h : LineHeap) (p v : Nat) : (h.linkBack p v).line = h.line := by
  unfold linkBack
  split <;> rfl

@[simp] theorem linkBack_live (h : LineHeap) (p v : Nat) : (h.linkBack p v).live = h.live := by
  unfold linkBack
  split <;> rfl

@[simp] theorem linkBack_fresh (h : LineHeap) (p v : Nat) : (h.linkBack p v).fresh = h.fresh := by
  unfold linkBack
  split <;> rfl

@[simp] theorem linkBack_selected (h : LineHeap) (p v : Nat) :
    (h.linkBack p v).selected = h.selected := by
  unfold linkBack
  split <;> rfl

theorem linkBack_prev (h : LineHeap) (p v x : Nat) :
    (h.linkBack p v).prev x = if p ≠ 0 ∧ x = p then v else h.prev x := by
  unfold linkBack setPrev
  by_cases hp : p ≠ 0 <;> simp [hp, update_apply]

@[simp] theorem keepSelect_prev (h : LineHeap) (p : Nat) : (h.keepSelect p).prev = h.prev := by
  unfold keepSelect
  split_ifs <;> rfl

@[simp] theorem keepSelect_next (h : LineHeap) (p : Nat) : (h.keepSelect p).next = h.next := by
  unfold keepSelect
  split_ifs <;> rfl

@[simp] theorem keepSelect_line (h : LineHeap) (p : Nat) : (h.keepSelect p).line = h.line := by
  unfold keepSelect
  split_ifs <;> rfl

@[simp] theorem keepSelect_live (h : LineHeap) (p : Nat) : (h.keepSelect p).live = h.live := by
  unfold keepSelect
  split_ifs <;> rfl

@[simp] theorem keepSelect_fresh (h : LineHeap) (p : Nat) : (h.keepSelect p).fresh = h.fresh := by
  unfold keepSelect
  split_ifs <;> rfl

theorem keepSelect_unselected (hp : h.selected p = 0) : h.keepSelect p = h := by
  unfold keepSelect
  rw [if_pos (by omega)]

/-! ## One line less, one line more -/

theorem takeOver_next (h : LineHeap) (a b : Nat) :
    (h.takeOver a b).next = update h.next a (h.next b) := by
  simp [takeOver, copyLine, free, setPrev]

theorem takeOver_line (h : LineHeap) (a b : Nat) :
    (h.takeOver a b).line = update h.line a (h.line b) := by
  simp [takeOver, copyLine, free, setPrev]

theorem takeOver_live (h : LineHeap) (a b : Nat) :
    (h.takeOver a b).live = update h.live b false := by
  simp [takeOver, copyLine, free, setPrev]

theorem takeOver_fresh (h : LineHeap) (a b : Nat) : (h.takeOver a b).fresh = h.fresh := by
  simp [takeOver, copyLine, free, setPrev]

theorem takeOver_prev (h : LineHeap) (hb : h.next b ≠ b) (x : Nat) :
    (h.takeOver a b).prev x =
      if x = a then h.prev a else if h.next b ≠ 0 ∧ x = h.next b then a
      else if x = b then h.prev a else h.prev x := by
  simp only [takeOver, copyLine, free, keepSelect_prev, keepSelect_next, linkBack_next,
    update_apply, linkBack_prev, setPrev]
  grind

/-- An empty line takes over what the next one holds. -/
theorem Doc.takeOver (hd : h.Doc (l₁ ++ a :: b :: l₂)) : (h.takeOver a b).Doc (l₁ ++ a :: l₂) := by
  refine hd.dropNext ?_ ?_ ?_ (takeOver_fresh h a b)
  · intro x hx
    have hd' := hd
    rw [List.append_cons] at hd'
    rw [takeOver_prev h hd'.next_notMem.2.1, if_neg hx]
  · intro x hx
    rw [takeOver_next, update_apply]
  · intro x hx
    rw [takeOver_live, update_of_ne hx]

theorem takeOver_selected (ha : h.selected a = 0) :
    (h.takeOver a b).selected = update h.selected a (h.selected b) := by
  have hkeep : ((h.setPrev b (h.prev a)).linkBack ((h.setPrev b (h.prev a)).next b) a).selected a
      = 0 := by
    rw [linkBack_selected]
    exact ha
  unfold takeOver
  dsimp only
  rw [keepSelect_unselected hkeep]
  simp [free, copyLine, setPrev]

theorem unlinkNext_next (h : LineHeap) (a b : Nat) :
    (h.unlinkNext a b).next = update h.next a (h.next b) := by
  unfold unlinkNext
  dsimp only
  split <;> simp [free, setNext, setBr, setLine]

theorem unlinkNext_prev (h : LineHeap) (hab : b ≠ a) (x : Nat) :
    (h.unlinkNext a b).prev x = if h.next b ≠ 0 ∧ x = h.next b then a else h.prev x := by
  unfold unlinkNext
  dsimp only
  split <;> simp [free, setNext, setBr, setLine, linkBack_prev, update_of_ne hab]

theorem unlinkNext_line (h : LineHeap) (a b : Nat) :
    (h.unlinkNext a b).line =
      if (h.line b).br then update h.line a ⟨(h.line a).text, true⟩ else h.line := by
  unfold unlinkNext
  dsimp only
  simp only [linkBack_line, setNext]
  split <;> simp [free, setBr, setLine]

theorem unlinkNext_live (h : LineHeap) (a b : Nat) :
    (h.unlinkNext a b).live = update h.live b false := by
  unfold unlinkNext
  dsimp only
  split <;> simp [free, setNext, setBr, setLine]

theorem unlinkNext_fresh (h : LineHeap) (a b : Nat) : (h.unlinkNext a b).fresh = h.fresh := by
  unfold unlinkNext
  dsimp only
  split <;> simp [free, setNext, setBr, setLine]

theorem unlinkNext_selected (hb : h.selected b = 0) :
    (h.unlinkNext a b).selected = h.selected := by
  unfold unlinkNext
  dsimp only
  rw [keepSelect_unselected]
  · split <;> simp [free, setNext, setBr, setLine]
  · split <;> simp [setNext, setBr, setLine, hb]

/-- A line of which nothing is left goes. -/
theorem Doc.unlinkNext (hd : h.Doc (l₁ ++ a :: b :: l₂)) :
    (h.unlinkNext a b).Doc (l₁ ++ a :: l₂) := by
  have hab : b ≠ a := by
    rintro rfl
    exact hd.notMem.2.1 List.mem_cons_self
  refine hd.dropNext ?_ ?_ ?_ (unlinkNext_fresh h a b)
  · intro x hx
    have hd' := hd
    rw [List.append_cons] at hd'
    have hne := hd'.next_notMem.1
    rw [unlinkNext_prev h hab]
    grind
  · intro x hx
    rw [unlinkNext_next, update_apply]
  · intro x hx
    rw [unlinkNext_live, update_of_ne hx]

theorem allocNextLine_next (ha : a ≠ 0) :
    (h.allocNextLine a).1.next = update (update h.next h.fresh (h.next a)) a h.fresh := by
  unfold allocNextLine
  dsimp only
  rw [if_pos ha]
  simp [setNext, setSelected, setLine, setPrev]

theorem allocNextLine_prev (ha : a ≠ 0) (haf : a ≠ h.fresh) (x : Nat) :
    (h.allocNextLine a).1.prev x =
      if h.next a ≠ 0 ∧ x = h.next a then h.fresh else if x = h.fresh then a else h.prev x := by
  unfold allocNextLine
  dsimp only
  rw [if_pos ha]
  simp [setNext, setSelected, setLine, setPrev, linkBack_prev, update_apply, haf.symm]

theorem allocNextLine_line (h : LineHeap) (a : Nat) :
    (h.allocNextLine a).1.line = update h.line h.fresh ⟨[], false⟩ := by
  unfold allocNextLine
  dsimp only
  split <;> simp [setNext, setSelected, setLine, setPrev]

theorem allocNextLine_live (h : LineHeap) (a : Nat) :
    (h.allocNextLine a).1.live = update h.live h.fresh true := by
  unfold allocNextLine
  dsimp only
  split <;> simp [setNext, setSelected, setLine, setPrev]

theorem allocNextLine_fresh (h : LineHeap) (a : Nat) :
    (h.allocNextLine a).1.fresh = h.fresh + 1 := by
  unfold allocNextLine
  dsimp only
  split <;> simp [setNext, setSelected, setLine, setPrev]

/-- A new line is selected when the one before it is. -/
theorem allocNextLine_unselected (ha : h.selected a = 0) :
    (h.allocNextLine a).1.selected = update h.selected h.fresh 0 := by
  unfold allocNextLine
  dsimp only
  split <;> simp [setNext, setSelected, setLine, setPrev, ha]

theorem allocNextLine_snd (h : LineHeap) (a : Nat) : (h.allocNextLine a).2 = h.fresh := rfl

/-- **A new line** behind another. -/
theorem Doc.allocNextLine (hd : h.Doc (l₁ ++ a :: l₂)) :
    (h.allocNextLine a).1.Doc (l₁ ++ a :: h.fresh :: l₂) := by
  have ha0 : a ≠ 0 := hd.ne_zero (by simp)
  have hold : ∀ x ∈ l₁ ++ a :: l₂, x ≠ h.fresh := fun x hx => Nat.ne_of_lt (hd.old x hx)
  have haf := hold a (by simp)
  have hnext := hd.next_eq
  obtain ⟨ha, ha', hapart⟩ := hd.notMem
  have hperm : (l₁ ++ a :: h.fresh :: l₂).Perm (h.fresh :: (l₁ ++ a :: l₂)) := by
    rw [List.append_cons, List.append_cons l₁ a l₂]
    exact List.perm_middle
  have hsplit : ∀ x ∈ l₁ ++ a :: h.fresh :: l₂, x = h.fresh ∨ x ∈ l₁ ++ a :: l₂ := by
    intro x hx
    exact List.mem_cons.mp (hperm.subset hx)
  have hfreshnot : h.fresh ∉ l₁ ++ a :: l₂ := fun hx => hold h.fresh hx rfl
  obtain ⟨hna, hnself, hnb⟩ := hd.next_notMem
  refine ⟨hd.linked.insert ?_ ?_ ?_ ?_ ?_ ?_, ?_, fun x hx => ?_, fun x hx => ?_, ?_⟩
  · intro x hx
    have hsub := List.Sublist.append_left ((List.tail_sublist l₂).cons_cons a) l₁
    have hne : x ≠ h.fresh := hold x (hsub.subset hx)
    have hnext' : x ≠ h.next a := by grind
    rw [allocNextLine_prev ha0 haf, if_neg (fun hboth => hnext' hboth.2), if_neg hne]
  · intro x hx
    have hne : x ≠ h.fresh := hold x (by grind)
    have hxa : x ≠ a := by grind
    rw [allocNextLine_next ha0, update_of_ne hxa, update_of_ne hne]
  · rw [allocNextLine_next ha0, update_self]
  · have hfar : h.fresh ≠ h.next a := by
      rw [hnext]
      cases l₂ with
      | nil => exact Nat.ne_of_gt hd.fresh
      | cons b l₂ => exact (hold b (by simp)).symm
    rw [allocNextLine_prev ha0 haf, if_neg (fun hboth => hfar hboth.2), if_pos rfl]
  · rw [allocNextLine_next ha0, update_of_ne haf.symm, update_self, hnext]
  · intro x hx
    obtain ⟨l₃, rfl⟩ := List.head?_eq_some_iff.mp hx
    have hx0 : x ≠ 0 := hd.ne_zero (by simp)
    rw [allocNextLine_prev ha0 haf, if_pos]
    rw [hnext]
    exact ⟨hx0, rfl⟩
  · have hnodup := (List.nodup_cons.mp hd.nodup)
    refine ((hperm.cons 0).nodup_iff).mpr ?_
    refine List.nodup_cons.mpr ⟨?_, List.nodup_cons.mpr ⟨hfreshnot, hnodup.2⟩⟩
    rw [List.mem_cons, not_or]
    exact ⟨Nat.ne_of_lt hd.fresh, hnodup.1⟩
  · rw [allocNextLine_live]
    cases hsplit x hx with
    | inl heq => rw [heq, update_self]
    | inr hmem =>
        rw [update_of_ne (hold x hmem)]
        exact hd.live x hmem
  · rw [allocNextLine_fresh]
    cases hsplit x hx with
    | inl heq => omega
    | inr hmem => exact Nat.lt_succ_of_lt (hd.old x hmem)
  · rw [allocNextLine_fresh]
    exact Nat.succ_pos _

/-! ## `reflow` -/

/-- What is taken from the next line fits. -/
theorem grabbed_fits (h : LineHeap) (a b : Nat) (hpos : 0 < h.grabbed a b) :
    measureWidth ((h.line a).text ++ (h.line b).text.take (h.grabbed a b).toNat) ≤ MAXLINELEN := by
  unfold grabbed at hpos ⊢
  dsimp only at hpos ⊢
  generalize min ((MAXLINELEN : Int) - (h.line a).text.length) (h.line b).text.length = k at hpos ⊢
  by_cases hk : k ≠ 0
  · rw [if_pos hk] at hpos ⊢
    generalize htext : (h.line a).text ++ (h.line b).text.take k.toNat = text at hpos ⊢
    have hle := measureLine_le text MAXLINELEN 0
    have hwidth := width_take_measureLine text
    generalize (measureLine text MAXLINELEN 0).1 = m at hpos hle hwidth ⊢
    have hlen : text.length ≤ (h.line a).text.length + k.toNat := by
      rw [← htext, List.length_append, List.length_take]
      omega
    have htake : (h.line a).text ++
        (h.line b).text.take ((m : Int) - (h.line a).text.length).toNat = text.take m := by
      have hall : (h.line a).text.take m = (h.line a).text := List.take_of_length_le (by omega)
      have hcount : ((m : Int) - (h.line a).text.length).toNat =
          min (m - (h.line a).text.length) k.toNat := by omega
      rw [← htext, List.take_append, hall, List.take_take, hcount]
    rw [htake]
    exact hwidth
  · rw [if_neg hk] at hpos
    omega

/-- What `reflow` leaves of a document, whose lines before the first one stay. -/
def Rewrapped (skips : Prop) (h : LineHeap) (l₁ : List Nat) (a : Nat) (l₂ : List Nat)
    (h' : LineHeap) : Prop :=
  ∃ l₂', h'.Doc (l₁ ++ a :: l₂') ∧ h'.lines l₁ = h.lines l₁ ∧
    Rewrap skips (h.lines (a :: l₂)) (h'.lines (a :: l₂')) ∧
    (skips ∨ ∀ p ∈ l₁ ++ a :: l₂', h'.selected p = 0)

variable {skips : Prop}

theorem Rewrapped.stop (hd : h.Doc (l₁ ++ a :: l₂))
    (hselected : skips ∨ ∀ p ∈ l₁ ++ a :: l₂, h.selected p = 0)
    (hstop : ∀ b l₃, l₂ = b :: l₃ → (h.line a).br = false →
      (h.line a).text ≠ [] ∧ (h.line b).text ≠ []) :
    Rewrapped skips h l₁ a l₂ h := by
  refine ⟨l₂, hd, rfl, Rewrap.stop _ ?_, hselected⟩
  intro ln next rest hlines hbr
  obtain ⟨rfl, hrest⟩ := List.cons.inj hlines
  obtain ⟨b, l₃, rfl, rfl, -⟩ := List.map_eq_cons_iff.mp hrest
  exact hstop b l₃ rfl hbr

/-- `reflow` goes on behind a line. -/
theorem Rewrapped.behind {h₁ : LineHeap} (hrest : Rewrapped skips h₁ (l₁ ++ [a]) b l₂ h') :
    ∃ l₂', h'.Doc (l₁ ++ a :: b :: l₂') ∧ h'.lines l₁ = h₁.lines l₁ ∧ h'.line a = h₁.line a ∧
      Rewrap skips (h₁.lines (b :: l₂)) (h'.lines (b :: l₂')) ∧
      (skips ∨ ∀ p ∈ l₁ ++ a :: b :: l₂', h'.selected p = 0) := by
  obtain ⟨l₂', hd, hlines, hrewrap, hselected⟩ := hrest
  rw [lines_append, lines_append] at hlines
  obtain ⟨hfront, hline⟩ := List.append_inj' hlines rfl
  rw [← List.append_cons] at hd hselected
  exact ⟨l₂', hd, hfront, (List.cons.inj hline).1, hrewrap, hselected⟩

theorem Rewrapped.skip (hskips : skips) (hrest : Rewrapped skips h (l₁ ++ [a]) b l₂ h') :
    Rewrapped skips h l₁ a (b :: l₂) h' := by
  obtain ⟨l₂', hd, hlines, hline, hrewrap, hselected⟩ := hrest.behind
  refine ⟨b :: l₂', hd, hlines, ?_, hselected⟩
  rw [lines_cons h' a, lines_cons h a, hline]
  exact Rewrap.skip _ hskips hrewrap

/-- A line of the document, and those before and behind it. -/
theorem Doc.lines_setLine (hd : h.Doc (l₁ ++ a :: l₂)) {v : TextLine}
    (hline : h'.line = update h.line a v) :
    h'.lines l₁ = h.lines l₁ ∧ h'.line a = v ∧ h'.lines l₂ = h.lines l₂ := by
  obtain ⟨ha, ha', -⟩ := hd.notMem
  unfold lines
  rw [hline]
  exact ⟨lines_update h ha, update_self .., lines_update h ha'⟩

theorem Rewrapped.takeOver (hd : h.Doc (l₁ ++ a :: b :: l₂)) (hline : h.line a = ⟨[], false⟩)
    (hrest : Rewrapped skips (h.takeOver a b) l₁ a l₂ h') : Rewrapped skips h l₁ a (b :: l₂) h' := by
  obtain ⟨l₂', hd', hlines, hrewrap, hselected⟩ := hrest
  obtain ⟨hfront, hself, hback⟩ := hd.lines_setLine (takeOver_line h a b)
  refine ⟨l₂', hd', hlines.trans hfront, ?_, hselected⟩
  have hback : (h.takeOver a b).lines l₂ = h.lines l₂ := (List.cons.inj hback).2
  rw [lines_cons, hself, hback] at hrewrap
  rw [lines_cons h a, hline]
  exact Rewrap.takeOver hrewrap (List.cons_ne_nil _ _)

theorem moveBytes_line (h : LineHeap) (hab : b ≠ a) (len : Nat) :
    (h.moveBytes a b len).line =
      update (update h.line a ⟨(h.line a).text ++ (h.line b).text.take len, (h.line a).br⟩) b
        ⟨(h.line b).text.drop len, (h.line b).br⟩ := by
  simp only [moveBytes, setText, setLine, update_of_ne hab]

/-- The lines after bytes were moved. -/
theorem Doc.lines_moveBytes (hd : h.Doc (l₁ ++ a :: b :: l₂)) (len : Nat) :
    (h.moveBytes a b len).lines l₁ = h.lines l₁ ∧
      (h.moveBytes a b len).line a = ⟨(h.line a).text ++ (h.line b).text.take len, (h.line a).br⟩ ∧
      (h.moveBytes a b len).line b = ⟨(h.line b).text.drop len, (h.line b).br⟩ ∧
      (h.moveBytes a b len).lines l₂ = h.lines l₂ := by
  have hdb := hd
  rw [List.append_cons] at hdb
  have hab : b ≠ a := fun heq => hdb.notMem.1 (by simp [heq])
  have hline := moveBytes_line h hab len
  obtain ⟨ha, ha', -⟩ := hd.notMem
  obtain ⟨hb, hb', -⟩ := hdb.notMem
  refine ⟨?_, ?_, ?_, ?_⟩
  · refine List.map_congr_left fun x hx => ?_
    rw [hline, update_of_ne, update_of_ne]
    · rintro rfl
      exact ha hx
    · rintro rfl
      exact hb (List.mem_append_left _ hx)
  · rw [hline, update_of_ne hab.symm, update_self]
  · rw [hline, update_self]
  · refine List.map_congr_left fun x hx => ?_
    rw [hline, update_of_ne, update_of_ne]
    · rintro rfl
      exact ha' (List.mem_cons_of_mem b hx)
    · rintro rfl
      exact hb' hx

theorem Doc.moveBytes (hd : h.Doc l) (a b len : Nat) : (h.moveBytes a b len).Doc l :=
  hd.congr rfl rfl rfl rfl

/-- A line and the next one, of which some bytes are taken. -/
theorem lines_taken (h : LineHeap) (len : Nat) (hbr : (h.line a).br = false) :
    h.lines (a :: b :: l) = ⟨(h.line a).text, false⟩ ::
      ⟨(h.line b).text.take len ++ (h.line b).text.drop len, (h.line b).br⟩ :: h.lines l := by
  rw [lines_cons, lines_cons, List.take_append_drop, ← hbr]

/-- The next line loses its first bytes, and `reflow` goes on with it. -/
theorem Rewrapped.grab {len : Nat} (hd : h.Doc (l₁ ++ a :: b :: l₂)) (hbr : (h.line a).br = false)
    (hne : (h.line a).text ≠ [])
    (hfits : (h.line b).text.take len = [] ∨
      measureWidth ((h.line a).text ++ (h.line b).text.take len) ≤ MAXLINELEN)
    (hrest : Rewrapped skips (h.moveBytes a b len) (l₁ ++ [a]) b l₂ h') :
    Rewrapped skips h l₁ a (b :: l₂) h' := by
  obtain ⟨hfront, hline, hnext, hback⟩ := hd.lines_moveBytes len
  obtain ⟨l₂', hd', hlines, hline', hrewrap, hselected⟩ := hrest.behind
  refine ⟨b :: l₂', hd', hlines.trans hfront, ?_, hselected⟩
  rw [lines_cons, hnext, hback] at hrewrap
  rw [lines_cons h' a, hline', hline, hbr, lines_taken h len hbr]
  refine Rewrap.grab hne (hfits.imp (fun hnil => ?_) id) hrewrap
  rw [hnil, List.append_nil]

/-- The lines when nothing is left of the next one. -/
theorem Doc.lines_unlinkNext {len : Nat} (hd : h.Doc (l₁ ++ a :: b :: l₂))
    (hbr : (h.line a).br = false) (hleft : (h.line b).text.drop len = []) :
    ((h.moveBytes a b len).unlinkNext a b).lines l₁ = h.lines l₁ ∧
      ((h.moveBytes a b len).unlinkNext a b).line a =
        ⟨(h.line a).text ++ (h.line b).text, (h.line b).br⟩ ∧
      ((h.moveBytes a b len).unlinkNext a b).lines l₂ = h.lines l₂ := by
  obtain ⟨hfront, hline, hnext, hback⟩ := hd.lines_moveBytes len
  have htake : (h.line b).text.take len = (h.line b).text :=
    List.take_of_length_le (List.drop_eq_nil_iff.mp hleft)
  rw [htake, hbr] at hline
  have hunlink := unlinkNext_line (h.moveBytes a b len) a b
  rw [hnext, hline] at hunlink
  cases hend : (h.line b).br with
  | false =>
      rw [hend, if_neg Bool.false_ne_true] at hunlink
      unfold lines at *
      rw [hunlink]
      exact ⟨hfront, hline, hback⟩
  | true =>
      rw [hend, if_pos rfl] at hunlink
      have hset := (hd.moveBytes a b len).lines_setLine hunlink
      exact ⟨hset.1.trans hfront, hset.2.1, (List.cons.inj hset.2.2).2.trans hback⟩

/-- Nothing is left of the next line, which a newline ends. -/
theorem Rewrapped.join {len : Nat} (hd : h.Doc (l₁ ++ a :: b :: l₂)) (hbr : (h.line a).br = false)
    (hleft : (h.line b).text.drop len = []) (hend : (h.line b).br = true)
    (hfits : measureWidth ((h.line a).text ++ (h.line b).text) ≤ MAXLINELEN)
    (hselected : skips ∨ ∀ p ∈ l₁ ++ a :: l₂, ((h.moveBytes a b len).unlinkNext a b).selected p = 0) :
    Rewrapped skips h l₁ a (b :: l₂) ((h.moveBytes a b len).unlinkNext a b) := by
  obtain ⟨hfront, hline, hback⟩ := hd.lines_unlinkNext hbr hleft
  refine ⟨l₂, (hd.moveBytes a b len).unlinkNext, hfront, ?_, hselected⟩
  rw [lines_cons ((h.moveBytes a b len).unlinkNext a b) a, hline, hback, hend, lines_cons h a,
    lines_cons h b]
  have hla : h.line a = ⟨(h.line a).text, false⟩ := by rw [← hbr]
  have hlb : h.line b = ⟨(h.line b).text, true⟩ := by rw [← hend]
  have hjoin := @Rewrap.join skips (h.line a).text (h.line b).text (h.lines l₂) hfits
  rwa [← hla, ← hlb] at hjoin

/-- Nothing is left of the next line, and `reflow` goes on behind it. -/
theorem Rewrapped.merge {len : Nat} (hd : h.Doc (l₁ ++ a :: b :: l₂)) (hbr : (h.line a).br = false)
    (hne : (h.line a).text ≠ []) (hleft : (h.line b).text.drop len = [])
    (hend : (h.line b).br = false)
    (hfits : measureWidth ((h.line a).text ++ (h.line b).text) ≤ MAXLINELEN)
    (hrest : ∃ l₂', h'.Doc (l₁ ++ a :: l₂') ∧
      h'.lines l₁ = ((h.moveBytes a b len).unlinkNext a b).lines l₁ ∧
      h'.line a = ((h.moveBytes a b len).unlinkNext a b).line a ∧
      Rewrap skips (((h.moveBytes a b len).unlinkNext a b).lines l₂) (h'.lines l₂') ∧
      (skips ∨ ∀ p ∈ l₁ ++ a :: l₂', h'.selected p = 0)) :
    Rewrapped skips h l₁ a (b :: l₂) h' := by
  obtain ⟨hfront, hline, hback⟩ := hd.lines_unlinkNext hbr hleft
  obtain ⟨l₂', hd', hlines, hline', hrewrap, hselected⟩ := hrest
  refine ⟨l₂', hd', hlines.trans hfront, ?_, hselected⟩
  rw [hback] at hrewrap
  rw [lines_cons h' a, hline', hline, hend, lines_cons h a, lines_cons h b]
  have hla : h.line a = ⟨(h.line a).text, false⟩ := by rw [← hbr]
  have hlb : h.line b = ⟨(h.line b).text, false⟩ := by rw [← hend]
  have hmerge := Rewrap.merge hne hfits hrewrap
  rwa [← hla, ← hlb] at hmerge

theorem reflow_null (fuel : Nat) (h : LineHeap) : reflow fuel h 0 = h := by
  cases fuel with
  | zero => rfl
  | succ fuel =>
      rw [reflow]
      exact if_pos (Or.inl rfl)

theorem mem_of_unlinked (hp : p ∈ l₁ ++ a :: l₂) : p ∈ l₁ ++ a :: b :: l₂ := by
  rw [List.mem_append, List.mem_cons] at hp ⊢
  exact hp.imp id (Or.imp id (List.mem_cons_of_mem b))

/-- Nothing is left of the next line. -/
theorem Rewrapped.emptied {fuel len : Nat} (hd : h.Doc (l₁ ++ a :: b :: l₂))
    (hbr : (h.line a).br = false) (hne : (h.line a).text ≠ [])
    (hleft : (h.line b).text.drop len = [])
    (hfits : measureWidth ((h.line a).text ++ (h.line b).text) ≤ MAXLINELEN)
    (hselected : skips ∨ ∀ p ∈ l₁ ++ a :: b :: l₂, h.selected p = 0)
    (hbehind : ∀ c l₃, l₂ = c :: l₃ →
      ((h.moveBytes a b len).unlinkNext a b).Doc (l₁ ++ [a] ++ c :: l₃) →
      (skips ∨ ∀ p ∈ l₁ ++ [a] ++ c :: l₃,
        ((h.moveBytes a b len).unlinkNext a b).selected p = 0) →
      Rewrapped skips ((h.moveBytes a b len).unlinkNext a b) (l₁ ++ [a]) c l₃
        (reflow fuel ((h.moveBytes a b len).unlinkNext a b) c)) :
    Rewrapped skips h l₁ a (b :: l₂)
      (if (((h.moveBytes a b len).unlinkNext a b).line a).br
        then (h.moveBytes a b len).unlinkNext a b
        else reflow fuel ((h.moveBytes a b len).unlinkNext a b)
          (((h.moveBytes a b len).unlinkNext a b).next a)) := by
  have hdrop := (hd.moveBytes a b len).unlinkNext
  have hsel : skips ∨ ∀ p ∈ l₁ ++ a :: l₂,
      ((h.moveBytes a b len).unlinkNext a b).selected p = 0 := by
    refine hselected.imp id fun hnone p hp => ?_
    have hb : (h.moveBytes a b len).selected b = 0 := hnone b (by simp)
    rw [unlinkNext_selected hb]
    exact hnone p (mem_of_unlinked hp)
  rw [(hd.lines_unlinkNext hbr hleft).2.1]
  cases hend : (h.line b).br with
  | true =>
      rw [if_pos rfl]
      exact Rewrapped.join hd hbr hleft hend hfits hsel
  | false =>
      rw [if_neg Bool.false_ne_true]
      refine Rewrapped.merge hd hbr hne hleft hend hfits ?_
      cases l₂ with
      | nil =>
          rw [hdrop.next_eq, List.headD_nil, reflow_null]
          refine ⟨[], hdrop, rfl, rfl, Rewrap.stop _ ?_, hsel⟩
          intro ln next rest hlines
          contradiction
      | cons c l₃ =>
          rw [hdrop.next_cons]
          rw [List.append_cons] at hdrop hsel
          obtain ⟨l₃', hd', hrest⟩ := (hbehind c l₃ rfl hdrop hsel).behind
          exact ⟨c :: l₃', hd', hrest⟩

/-- **`reflow` wraps the lines** from the first one on. -/
theorem reflow_spec (fuel : Nat) (hd : h.Doc (l₁ ++ a :: l₂)) (hfuel : l₂.length < fuel)
    (hselected : skips ∨ ∀ p ∈ l₁ ++ a :: l₂, h.selected p = 0) :
    Rewrapped skips h l₁ a l₂ (reflow fuel h a) := by
  induction fuel generalizing h l₁ a l₂ with
  | zero => contradiction
  | succ fuel ih =>
      have ha0 : a ≠ 0 := hd.ne_zero (by simp)
      rw [reflow]
      by_cases hstop : a = 0 ∨ h.next a = 0 ∨ (h.line a).br
      · rw [if_pos hstop]
        refine Rewrapped.stop hd hselected fun b l₃ hl₂ hbr => ?_
        exfalso
        subst hl₂
        obtain hzero | hlast | hend := hstop
        · exact ha0 hzero
        · rw [hd.next_cons] at hlast
          exact hd.ne_zero (by simp) hlast
        · rw [hbr] at hend
          contradiction
      rw [if_neg hstop]
      rw [not_or, not_or, Bool.not_eq_true] at hstop
      obtain ⟨-, hmore, hbr⟩ := hstop
      cases l₂ with
      | nil => exact absurd hd.next_eq hmore
      | cons b l₃ =>
          rw [hd.next_cons]
          rw [List.length_cons] at hfuel
          have hdb := hd
          rw [List.append_cons] at hdb
          dsimp only
          by_cases hmixed : (h.selected a ≠ 0 ∧ h.selected b = 0) ∨
              (h.selected a = 0 ∧ h.selected b ≠ 0)
          · -- only one of the two lines is selected
            rw [if_pos hmixed]
            have hskips : skips := by
              refine hselected.resolve_right fun hnone => ?_
              have ha := hnone a (by simp)
              have hb := hnone b (by simp)
              omega
            exact Rewrapped.skip hskips (ih hdb (by omega) (Or.inl hskips))
          rw [if_neg hmixed]
          by_cases hempty : (h.line a).text = []
          · -- an empty line becomes the next one
            rw [if_pos hempty]
            refine Rewrapped.takeOver hd ?_ (ih hd.takeOver (by omega) ?_)
            · rw [← hempty, ← hbr]
            · refine hselected.imp id fun hnone p hp => ?_
              rw [takeOver_selected (hnone a (by simp)), update_apply]
              split
              · exact hnone b (by simp)
              · exact hnone p (mem_of_unlinked hp)
          rw [if_neg hempty]
          by_cases hfull : (h.line b).text ≠ [] ∧ h.grabbed a b ≤ 0
          · rw [if_pos hfull]
            refine Rewrapped.stop hd hselected fun b' l₃' hl₂ _ => ⟨hempty, ?_⟩
            rw [← (List.cons.inj hl₂).1]
            exact hfull.1
          rw [if_neg hfull]
          generalize hlen : (h.grabbed a b).toNat = len
          obtain ⟨hfront, hline, hnext, hback⟩ := hd.lines_moveBytes len
          have hfits : (h.line b).text.take len = [] ∨
              measureWidth ((h.line a).text ++ (h.line b).text.take len) ≤ MAXLINELEN := by
            by_cases hnil : (h.line b).text = []
            · rw [hnil, List.take_nil]
              exact Or.inl rfl
            · rw [← hlen]
              exact Or.inr (h.grabbed_fits a b (by grind))
          by_cases hgone : ((h.moveBytes a b len).line b).text = [] ∧
              measureWidth ((h.moveBytes a b len).line a).text < MAXLINELEN
          · -- nothing is left of the next line
            rw [if_pos hgone]
            rw [hnext, hline] at hgone
            obtain ⟨hleft, hwidth⟩ := hgone
            have hall : (h.line b).text.take len = (h.line b).text :=
              List.take_of_length_le (List.drop_eq_nil_iff.mp hleft)
            rw [hall] at hwidth
            refine Rewrapped.emptied hd hbr hempty hleft (Nat.le_of_lt hwidth) hselected ?_
            intro c l₄ hl₃ hdrop hsel
            rw [hl₃, List.length_cons] at hfuel
            exact ih hdrop (by omega) hsel
          · -- `reflow` goes on with what is left of it
            rw [if_neg hgone]
            refine Rewrapped.grab hd hbr hempty hfits (ih ?_ (by omega) ?_)
            · rw [List.append_cons] at hd
              exact hd.moveBytes a b len
            · rwa [← List.append_cons]

end doc

end LineHeap

end Ytht
