import Ytht.Edit.Cursor

/-!
# Edit.Article

An article is read into the editor (`parseEdit`) and written back (`saveEdit`).

`readLoop` is what `parseEdit` makes of a file, without addresses (`parseLoop_reads`).
What is written back is the file without its carriage returns if and only if none of
its lines is taken for an origin line (`saveEdit_parseEdit_iff`).  Origin lines are
left out, and one of them comes back behind a newline that the file did not have.
-/

namespace Ytht

open Function

/-! ## Origin lines -/

/-- `MY_BBS_NAME`, `MY_BBS_DOMAIN`, and whether `uinfo.mode` is `EDIT`. -/
structure OriginConf where
  name : List UInt8
  domain : List UInt8
  editing : Bool

def editOrigin (o : OriginConf) (text : List UInt8) : Bool :=
  let str := [58, 0xa3, 0xae] ++ o.name ++ [32] ++ o.domain
  -- `" http://"`
  let str1 := [58, 0xa3, 0xae] ++ o.name ++ [32, 104, 116, 116, 112, 58, 47, 47] ++ o.domain
  -- `"[FROM:"`
  let tag := [91, 70, 82, 79, 77, 58]
  o.editing &&
    ((text.head? != some 58 && (strnstr text str).isSome && (strnstr text tag).isSome) ||
      (text.head? != some 58 && (strnstr text str1).isSome && (strnstr text (32 :: tag)).isSome))

theorem editOrigin_nil (o : OriginConf) : editOrigin o [] = false := by
  have hnone : ∀ ch needle, strnstr [] (ch :: needle) = none := fun ch needle =>
    strnstr_nil (List.cons_ne_nil ch needle)
  unfold editOrigin
  simp [hnone]

/-! ## Reading and writing -/

/-- The lines that `parseEdit` has made, the one it is at, and `savedOriginLine`. -/
structure Parse where
  heap : LineHeap
  ln : Nat
  savedOriginLine : List UInt8

namespace Parse

/-- `parseEdit` at a newline. -/
def newline (o : OriginConf) (p : Parse) : Parse :=
  let text := (p.heap.line p.ln).text
  if editOrigin o text then
    { p with
      heap := p.heap.setLine p.ln ⟨[], false⟩
      savedOriginLine := strsncpy text (min (text.length + 1) 250) }
  else
    let (h, newln) := (p.heap.setBr p.ln true).allocNextLine p.ln
    { p with heap := h, ln := newln }

/-- `parseEdit` at the bytes of a line. -/
def piece (p : Parse) (bytes : List UInt8) : Parse :=
  let (h, ln) :=
    if (p.heap.line p.ln).text ≠ [] then p.heap.allocNextLine p.ln else (p.heap, p.ln)
  { p with heap := h.setText ln bytes, ln }

end Parse

/-- The loop of `parseEdit`; every time it reads something. -/
def parseLoop (o : OriginConf) : Nat → Parse → List UInt8 → Parse
  | 0, p, _ => p
  | _, p, [] => p
  | fuel + 1, p, ch :: ptr =>
      if ch = 13 then parseLoop o fuel p ptr
      else if ch = 10 then parseLoop o fuel (p.newline o) ptr
      else
        let len := (measureLine (ch :: ptr) MAXLINELEN 0).1
        parseLoop o fuel (p.piece ((ch :: ptr).take len)) ((ch :: ptr).drop len)

/-- `while (ln->next)`. -/
def LineHeap.lastLine : Nat → LineHeap → Nat → Nat
  | 0, _, ln => ln
  | fuel + 1, h, ln => if h.next ln ≠ 0 then lastLine fuel h (h.next ln) else ln

/-- `parseEdit`, and `savedOriginLine`. -/
def parseEdit (o : OriginConf) (edit : Edit) (savedOriginLine p0 : List UInt8) :
    Edit × List UInt8 :=
  let ln := edit.heap.lastLine edit.heap.fresh edit.firstline
  let p := parseLoop o p0.length ⟨edit.heap, ln, savedOriginLine⟩ p0
  ({ edit with heap := p.heap }, p.savedOriginLine)

/-- The loop of `saveEdit`: what is written, and whether a newline ended the last
line. -/
def saveLoop : Nat → LineHeap → (ln : Nat) → (br : Bool) → List UInt8 × Bool
  | 0, _, _, br => ([], br)
  | fuel + 1, h, ln, br =>
      if ln = 0 then ([], br)
      else
        let (rest, br) := saveLoop fuel h (h.next ln) (h.line ln).br
        ((h.line ln).text ++ (if (h.line ln).br then [10] else []) ++ rest, br)

def saveEdit (edit : Edit) (savedOriginLine : List UInt8) : List UInt8 :=
  let (out, br) := saveLoop edit.heap.fresh edit.heap edit.firstline false
  if savedOriginLine ≠ [] then out ++ (if br then [] else [10]) ++ savedOriginLine ++ [10] else out

/-- `editor` opens a file. -/
def openEdit (o : OriginConf) (file : List UInt8) : Edit × List UInt8 :=
  parseEdit o Edit.initEdit [] file

/-! ## Without addresses -/

/-- The lines that were read, the bytes of the one that is read, and
`savedOriginLine`. -/
structure Page where
  lines : List TextLine
  text : List UInt8
  saved : List UInt8

namespace Page

def newline (o : OriginConf) (q : Page) : Page :=
  if editOrigin o q.text then
    ⟨q.lines, [], strsncpy q.text (min (q.text.length + 1) 250)⟩
  else ⟨q.lines ++ [⟨q.text, true⟩], [], q.saved⟩

def piece (q : Page) (bytes : List UInt8) : Page :=
  ⟨if q.text ≠ [] then q.lines ++ [⟨q.text, false⟩] else q.lines, bytes, q.saved⟩

end Page

/-- What `parseLoop` reads. -/
def readLoop (o : OriginConf) : Nat → Page → List UInt8 → Page
  | 0, q, _ => q
  | _, q, [] => q
  | fuel + 1, q, ch :: ptr =>
      if ch = 13 then readLoop o fuel q ptr
      else if ch = 10 then readLoop o fuel (q.newline o) ptr
      else
        let len := (measureLine (ch :: ptr) MAXLINELEN 0).1
        readLoop o fuel (q.piece ((ch :: ptr).take len)) ((ch :: ptr).drop len)

/-- The lines in memory are those of the page, and none is selected. -/
def Parse.Reads (p : Parse) (firstline : Nat) (q : Page) : Prop :=
  ∃ l, p.heap.Doc (l ++ [p.ln]) ∧ (l ++ [p.ln]).headD 0 = firstline ∧ p.heap.lines l = q.lines ∧
    p.heap.line p.ln = ⟨q.text, false⟩ ∧ (∀ x ∈ l ++ [p.ln], p.heap.selected x = 0) ∧
    p.savedOriginLine = q.saved

section reads

variable {o : OriginConf} {p : Parse} {q : Page} {firstline : Nat}

theorem Parse.Reads.newline (hr : p.Reads firstline q) :
    (p.newline o).Reads firstline (q.newline o) := by
  obtain ⟨l, hd, hfirst, hlines, hline, hselected, hsaved⟩ := hr
  unfold Parse.newline Page.newline
  rw [hline]
  dsimp only
  split
  · obtain ⟨hfront, hself, -⟩ := hd.setLine_lines ⟨[], false⟩
    exact ⟨l, hd.congr rfl rfl rfl rfl, hfirst, hfront.trans hlines, hself, hselected, rfl⟩
  · obtain ⟨hfront, hself, -⟩ := hd.setBr_lines true
    have hd' : (p.heap.setBr p.ln true).Doc (l ++ [p.ln]) := hd.congr rfl rfl rfl rfl
    obtain ⟨hd'', hkept, hnew, hselected'⟩ := hd'.appendLine
    refine ⟨l ++ [p.ln], hd'', ?_, ?_, hnew, hselected' hselected, hsaved⟩
    · rw [Dll.headD_append_cons] at hfirst
      rw [Dll.headD_append_cons, Dll.headD_append_cons, hfirst]
    · rw [hkept, LineHeap.lines_append, hfront, hlines, LineHeap.lines_cons, hself, hline]
      rfl

theorem Parse.Reads.piece (hr : p.Reads firstline q) (bytes : List UInt8) :
    (p.piece bytes).Reads firstline (q.piece bytes) := by
  obtain ⟨l, hd, hfirst, hlines, hline, hselected, hsaved⟩ := hr
  unfold Parse.piece Page.piece
  rw [hline]
  dsimp only
  split
  · obtain ⟨hd', hkept, hnew, hselected'⟩ := hd.appendLine
    rw [LineHeap.allocNextLine_snd]
    obtain ⟨hfront, hself, -⟩ := hd'.setText_lines bytes
    refine ⟨l ++ [p.ln], hd'.congr rfl rfl rfl rfl, ?_, ?_, ?_, hselected' hselected, hsaved⟩
    · rw [Dll.headD_append_cons] at hfirst
      rw [Dll.headD_append_cons, Dll.headD_append_cons, hfirst]
    · rw [hfront, hkept, LineHeap.lines_append, hlines, LineHeap.lines_cons, hline]
      rfl
    · rw [hself, hnew]
  · obtain ⟨hfront, hself, -⟩ := hd.setText_lines bytes
    refine ⟨l, hd.congr rfl rfl rfl rfl, hfirst, hfront.trans hlines, ?_, hselected, hsaved⟩
    rw [hself, hline]

/-- **`parseEdit` reads** the same lines without addresses. -/
theorem parseLoop_reads (fuel : Nat) (hr : p.Reads firstline q) (ptr : List UInt8) :
    (parseLoop o fuel p ptr).Reads firstline (readLoop o fuel q ptr) := by
  induction fuel generalizing p q ptr with
  | zero => exact hr
  | succ fuel ih =>
      cases ptr with
      | nil => exact hr
      | cons ch ptr =>
          rw [parseLoop, readLoop]
          split
          · exact ih hr ptr
          · split
            · exact ih hr.newline ptr
            · exact ih (hr.piece _) _

/-- The page `editor` begins with. -/
def Page.empty : Page := ⟨[], [], []⟩

/-- A new editor has one empty line. -/
theorem initEdit_reads :
    (Parse.mk Edit.initEdit.heap Edit.initEdit.firstline []).Reads Edit.initEdit.firstline
      Page.empty := by
  refine ⟨[], ⟨?_, ?_, ?_, ?_, ?_⟩, rfl, rfl, rfl, ?_, rfl⟩
  · exact ⟨rfl, rfl, trivial⟩
  · decide
  · decide
  · decide
  · decide
  · decide

theorem openEdit_eq (o : OriginConf) (file : List UInt8) :
    ∃ p : Parse, openEdit o file = ({ Edit.initEdit with heap := p.heap }, p.savedOriginLine) ∧
      p.Reads Edit.initEdit.firstline (readLoop o file.length Page.empty file) :=
  ⟨_, rfl, parseLoop_reads file.length initEdit_reads file⟩

/-! ## Writing back -/

theorem saveLoop_eq {h : LineHeap} {l₁ l₂ : List Nat} {fuel : Nat} (hd : h.Doc (l₁ ++ l₂))
    (hfuel : l₂.length < fuel) (br : Bool) :
    saveLoop fuel h (l₂.headD 0) br =
      (textOf (h.lines l₂), ((h.lines l₂).getLast?.map TextLine.br).getD br) := by
  induction l₂ generalizing l₁ fuel br with
  | nil =>
      cases fuel with
      | zero => rfl
      | succ fuel => exact if_pos rfl
  | cons a l₂ ih =>
      cases fuel with
      | zero => contradiction
      | succ fuel =>
          have ha : a ≠ 0 := hd.ne_zero (by simp)
          rw [List.length_cons] at hfuel
          rw [List.headD_cons, saveLoop, if_neg ha, hd.next_eq]
          rw [List.append_cons] at hd
          rw [ih hd (by omega), LineHeap.lines_cons, List.getLast?_cons]
          cases h.lines l₂ <;> rfl

/-- **What is written back**: the lines, and the saved origin line. -/
theorem saveEdit_openEdit (o : OriginConf) (file : List UInt8) :
    saveEdit (openEdit o file).1 (openEdit o file).2 =
      let q := readLoop o file.length Page.empty file
      textOf q.lines ++ q.text ++ if q.saved ≠ [] then 10 :: q.saved ++ [10] else [] := by
  obtain ⟨p, hopen, l, hd, hfirst, hlines, hline, hselected, hsaved⟩ := openEdit_eq o file
  have hsave := @saveLoop_eq _ [] (l ++ [p.ln]) _ hd hd.length_lt false
  rw [hfirst, LineHeap.lines_append, hlines, LineHeap.lines_cons, hline, textOf_append,
    List.getLast?_append_of_ne_nil _ (List.cons_ne_nil _ _)] at hsave
  unfold saveEdit
  rw [hopen]
  dsimp only
  rw [hsave, hsaved]
  generalize readLoop o file.length Page.empty file = q
  have htext : textOf (q.lines) ++ textOf (⟨q.text, false⟩ :: p.heap.lines []) =
      textOf q.lines ++ q.text := by
    rw [textOf_cons]
    simp [TextLine.bytes, LineHeap.lines, textOf]
  rw [htext]
  split
  · simp [LineHeap.lines]
  · rw [List.append_nil]

end reads

/-! ## Origin lines go -/

/-- The display lines of a file that a newline ends; `line` is what was read of the
one before the rest of the file. -/
def endedLines : Nat → (line file : List UInt8) → List (List UInt8)
  | 0, _, _ => []
  | _, _, [] => []
  | fuel + 1, line, ch :: ptr =>
      if ch = 13 then endedLines fuel line ptr
      else if ch = 10 then line :: endedLines fuel [] ptr
      else
        let len := (measureLine (ch :: ptr) MAXLINELEN 0).1
        endedLines fuel ((ch :: ptr).take len) ((ch :: ptr).drop len)

/-- The file without its carriage returns. -/
def withoutCr (file : List UInt8) : List UInt8 := file.filter (· ≠ 13)

/-- The text of a page. -/
def Page.out (q : Page) : List UInt8 := textOf q.lines ++ q.text

section ended

variable {o : OriginConf} {q : Page}

theorem Page.out_piece (q : Page) (bytes : List UInt8) : (q.piece bytes).out = q.out ++ bytes := by
  unfold Page.piece Page.out
  dsimp only
  split
  · rw [textOf_append]
    simp [TextLine.bytes, textOf]
  · next htext => rw [not_not.mp htext, List.append_nil]

theorem Page.out_newline (horigin : editOrigin o q.text = false) :
    (q.newline o).out = q.out ++ [10] ∧ (q.newline o).saved = q.saved := by
  unfold Page.newline Page.out
  rw [horigin, if_neg Bool.false_ne_true, textOf_append]
  simp [TextLine.bytes, textOf]

/-- An origin line goes. -/
theorem Page.out_origin (horigin : editOrigin o q.text = true) :
    q.out = (q.newline o).out ++ q.text ∧
      (q.newline o).saved = strsncpy q.text (min (q.text.length + 1) 250) := by
  unfold Page.newline Page.out
  rw [horigin, if_pos rfl]
  simp

theorem Page.text_newline (q : Page) : (q.newline o).text = [] := by
  unfold Page.newline
  split <;> rfl

/-- What `parseEdit` takes as a line has no newline in it. -/
theorem piece_bytes {ch : UInt8} {ptr : List UInt8} (hcr : ch ≠ 13) (hnl : ch ≠ 10) :
    0 < (measureLine (ch :: ptr) MAXLINELEN 0).1 ∧
      10 ∉ (ch :: ptr).take (measureLine (ch :: ptr) MAXLINELEN 0).1 ∧
      withoutCr (ch :: ptr) = (ch :: ptr).take (measureLine (ch :: ptr) MAXLINELEN 0).1 ++
        withoutCr ((ch :: ptr).drop (measureLine (ch :: ptr) MAXLINELEN 0).1) := by
  have hclean := measureLine_noNewline (ch :: ptr) MAXLINELEN 0
  have hch : isNewline ch = false := by
    unfold isNewline
    simp [hcr, hnl]
  refine ⟨measureLine_pos hch, fun hmem => ?_, ?_⟩
  · have hnewline := hclean 10 hmem
    contradiction
  · have hsplit := List.take_append_drop (measureLine (ch :: ptr) MAXLINELEN 0).1 (ch :: ptr)
    unfold withoutCr
    conv_lhs => rw [← hsplit, List.filter_append]
    congr 1
    rw [List.filter_eq_self]
    intro c hc
    have hnewline := hclean c hc
    unfold isNewline at hnewline
    simp only [Bool.or_eq_false_iff, beq_eq_false_iff_ne] at hnewline
    simp [hnewline.2]

/-- Without origin lines, the file is read as it is. -/
theorem readLoop_plain (fuel : Nat) (ptr : List UInt8) (hfuel : ptr.length ≤ fuel)
    (hplain : ∀ line ∈ endedLines fuel q.text ptr, editOrigin o line = false) :
    (readLoop o fuel q ptr).out = q.out ++ withoutCr ptr ∧
      (readLoop o fuel q ptr).saved = q.saved := by
  induction fuel generalizing q ptr with
  | zero =>
      rw [List.length_eq_zero_iff.mp (Nat.le_zero.mp hfuel)]
      exact ⟨(List.append_nil _).symm, rfl⟩
  | succ fuel ih =>
      cases ptr with
      | nil => exact ⟨(List.append_nil _).symm, rfl⟩
      | cons ch ptr =>
          rw [List.length_cons] at hfuel
          rw [endedLines] at hplain
          rw [readLoop]
          by_cases hcr : ch = 13
          · rw [if_pos hcr] at hplain ⊢
            subst hcr
            exact ih ptr (by omega) hplain
          rw [if_neg hcr] at hplain ⊢
          by_cases hnl : ch = 10
          · rw [if_pos hnl] at hplain ⊢
            subst hnl
            rw [List.forall_mem_cons] at hplain
            obtain ⟨hout, hsaved⟩ := Page.out_newline hplain.1
            have hrest := ih (q := q.newline o) ptr (by omega)
              (by rw [Page.text_newline]; exact hplain.2)
            rw [hout, hsaved, List.append_assoc] at hrest
            exact hrest
          rw [if_neg hnl] at hplain ⊢
          obtain ⟨hpos, -, hfilter⟩ := @piece_bytes ch ptr hcr hnl
          rw [hfilter]
          generalize (measureLine (ch :: ptr) MAXLINELEN 0).1 = len at hpos hplain ⊢
          have hdrop : ((ch :: ptr).drop len).length ≤ fuel := by
            rw [List.length_drop, List.length_cons]
            omega
          have hrest := ih (q := q.piece ((ch :: ptr).take len)) _ hdrop hplain
          rw [Page.out_piece, List.append_assoc] at hrest
          exact hrest

/-- What the origin lines of a file take from it, and leave in `savedOriginLine`. -/
structure Lost (q q' : Page) (file : List UInt8) (origins : List (List UInt8)) : Prop where
  newlines : q'.out.count 10 + origins.length = q.out.count 10 + (withoutCr file).count 10
  bytes : q'.out.length + origins.length + origins.flatten.length =
    q.out.length + (withoutCr file).length
  saved : origins = [] ∧ q'.saved = q.saved ∨ origins ≠ [] ∧ 10 ∉ q'.saved ∧
    q'.saved.length + origins.length ≤ origins.flatten.length + 1

theorem Lost.newline {q' : Page} {ptr : List UInt8} {origins : List (List UInt8)}
    (hplain : editOrigin o q.text = false) (h : Lost (q.newline o) q' ptr origins) :
    Lost q q' (10 :: ptr) origins := by
  obtain ⟨hout, hsaved⟩ := Page.out_newline hplain
  obtain ⟨hnewlines, hbytes, hrest⟩ := h
  have hfile : withoutCr (10 :: ptr) = 10 :: withoutCr ptr := rfl
  rw [hout, List.count_append, List.count_singleton_self] at hnewlines
  rw [hout, List.length_append, List.length_singleton] at hbytes
  rw [hsaved] at hrest
  refine ⟨?_, ?_, hrest⟩
  · rw [hfile, List.count_cons_self]
    omega
  · rw [hfile, List.length_cons]
    omega

theorem Lost.origin {q' : Page} {ptr : List UInt8} {origins : List (List UInt8)}
    (horigin : editOrigin o q.text = true) (hclean : 10 ∉ q.text)
    (h : Lost (q.newline o) q' ptr origins) : Lost q q' (10 :: ptr) (q.text :: origins) := by
  obtain ⟨hout, hsaved⟩ := Page.out_origin horigin
  obtain ⟨hnewlines, hbytes, hrest⟩ := h
  have hfile : withoutCr (10 :: ptr) = 10 :: withoutCr ptr := rfl
  have hsub : (strsncpy q.text (min (q.text.length + 1) 250)).Sublist q.text :=
    (List.takeWhile_sublist _).trans (List.take_sublist _ _)
  have hne : q.text ≠ [] := by
    intro hempty
    rw [hempty, editOrigin_nil] at horigin
    contradiction
  have hlen := List.length_pos_iff.mpr hne
  refine ⟨?_, ?_, Or.inr ⟨List.cons_ne_nil _ _, ?_⟩⟩
  · rw [hfile, hout, List.count_append, List.count_eq_zero_of_not_mem hclean, List.count_cons_self,
      List.length_cons]
    omega
  · rw [hfile, hout, List.length_append, List.length_cons, List.length_cons, List.flatten_cons,
      List.length_append]
    omega
  · rw [List.flatten_cons, List.length_append, List.length_cons]
    cases hrest with
    | inl hnone =>
        obtain ⟨rfl, hkept⟩ := hnone
        have hle := hsub.length_le
        rw [hkept, hsaved]
        exact ⟨fun hmem => hclean (hsub.subset hmem), by simpa using hle⟩
    | inr hsome => exact ⟨hsome.2.1, by omega⟩

theorem Lost.piece {q' : Page} {ch : UInt8} {ptr : List UInt8} {origins : List (List UInt8)}
    (hcr : ch ≠ 13) (hnl : ch ≠ 10)
    (h : Lost (q.piece ((ch :: ptr).take (measureLine (ch :: ptr) MAXLINELEN 0).1)) q'
      ((ch :: ptr).drop (measureLine (ch :: ptr) MAXLINELEN 0).1) origins) :
    Lost q q' (ch :: ptr) origins := by
  obtain ⟨-, -, hfilter⟩ := @piece_bytes ch ptr hcr hnl
  obtain ⟨hnewlines, hbytes, hrest⟩ := h
  rw [Page.out_piece, List.count_append] at hnewlines
  rw [Page.out_piece, List.length_append] at hbytes
  refine ⟨?_, ?_, hrest⟩
  · rw [hfilter, List.count_append]
    omega
  · rw [hfilter, List.length_append]
    omega

/-- **Origin lines are lost**, with their newlines. -/
theorem readLoop_lost (fuel : Nat) (ptr : List UInt8) (hfuel : ptr.length ≤ fuel)
    (hclean : 10 ∉ q.text) :
    Lost q (readLoop o fuel q ptr) ptr ((endedLines fuel q.text ptr).filter (editOrigin o)) := by
  induction fuel generalizing q ptr with
  | zero =>
      rw [List.length_eq_zero_iff.mp (Nat.le_zero.mp hfuel)]
      exact ⟨rfl, rfl, Or.inl ⟨rfl, rfl⟩⟩
  | succ fuel ih =>
      cases ptr with
      | nil => exact ⟨rfl, rfl, Or.inl ⟨rfl, rfl⟩⟩
      | cons ch ptr =>
          rw [List.length_cons] at hfuel
          rw [endedLines, readLoop]
          by_cases hcr : ch = 13
          · rw [if_pos hcr, if_pos hcr]
            subst hcr
            have hrest := ih ptr (by omega) hclean
            exact ⟨hrest.newlines, hrest.bytes, hrest.saved⟩
          rw [if_neg hcr, if_neg hcr]
          by_cases hnl : ch = 10
          · rw [if_pos hnl, if_pos hnl]
            subst hnl
            have hempty := Page.text_newline (o := o) q
            have hrest := ih (q := q.newline o) ptr (by omega) (by rw [hempty]; exact List.not_mem_nil)
            rw [hempty] at hrest
            cases horigin : editOrigin o q.text with
            | true =>
                rw [List.filter_cons_of_pos horigin]
                exact hrest.origin horigin hclean
            | false =>
                rw [List.filter_cons_of_neg (by rw [horigin]; exact Bool.false_ne_true)]
                exact hrest.newline horigin
          rw [if_neg hnl, if_neg hnl]
          obtain ⟨hpos, hclean', -⟩ := @piece_bytes ch ptr hcr hnl
          refine Lost.piece hcr hnl (ih _ ?_ hclean')
          rw [List.length_drop, List.length_cons]
          omega

/-- The saved line cannot stand for what was lost: it comes back with two newlines, and
of two origin lines one is gone. -/
theorem Lost.origins_eq_nil {q' : Page} {file : List UInt8} {origins : List (List UInt8)}
    (h : Lost Page.empty q' file origins)
    (hsame : q'.out ++ (if q'.saved ≠ [] then 10 :: q'.saved ++ [10] else []) = withoutCr file) :
    origins = [] := by
  obtain ⟨hnewlines, hbytes, hsaved⟩ := h
  cases hsaved with
  | inl hnone => exact hnone.1
  | inr hsome =>
      exfalso
      obtain ⟨hne, hclean, hshort⟩ := hsome
      have hpos := List.length_pos_iff.mpr hne
      have hcount := congrArg (List.count 10) hsame
      have hlength := congrArg List.length hsame
      have hnil : Page.empty.out.count 10 = 0 := rfl
      have hnil' : Page.empty.out.length = 0 := rfl
      rw [List.count_append] at hcount
      rw [List.length_append] at hlength
      by_cases hkept : q'.saved ≠ []
      · rw [if_pos hkept, List.cons_append, List.count_cons_self, List.count_append,
          List.count_eq_zero_of_not_mem hclean, List.count_singleton_self] at hcount
        rw [if_pos hkept, List.cons_append, List.length_cons, List.length_append,
          List.length_singleton] at hlength
        omega
      · rw [if_neg hkept, List.count_nil] at hcount
        omega

/-- **Opening and saving keeps an article** if and only if none of its lines is taken
for an origin line. -/
theorem saveEdit_parseEdit_iff (o : OriginConf) (file : List UInt8) :
    saveEdit (openEdit o file).1 (openEdit o file).2 = withoutCr file ↔
      ∀ line ∈ endedLines file.length [] file, editOrigin o line = false := by
  rw [saveEdit_openEdit]
  constructor
  · intro hsame
    have hlost := @readLoop_lost o Page.empty file.length file (Nat.le_refl _) List.not_mem_nil
    have hempty := hlost.origins_eq_nil hsame
    intro line hline
    rw [List.filter_eq_nil_iff] at hempty
    exact Bool.eq_false_iff.mpr (hempty line hline)
  · intro hplain
    obtain ⟨hout, hsaved⟩ := @readLoop_plain o Page.empty file.length file (Nat.le_refl _) hplain
    have hnone : Page.empty.saved = [] := rfl
    dsimp only
    rw [hsaved, hnone, if_neg (not_not.mpr rfl), List.append_nil]
    exact hout

/-- `YTHT` at `ytht.net`, and a user who edits an article. -/
def ythtEditing : OriginConf := ⟨[89, 84, 72, 84], [121, 116, 104, 116, 46, 110, 101, 116], true⟩

/-- An article of one line, which tells its origin. -/
def originArticle : List UInt8 :=
  [42, 58, 0xa3, 0xae] ++ ythtEditing.name ++ [32] ++ ythtEditing.domain ++
    [91, 70, 82, 79, 77, 58, 93, 10]

/-- A line is added: the origin comes back behind a newline. -/
theorem saveEdit_originArticle :
    saveEdit (openEdit ythtEditing originArticle).1 (openEdit ythtEditing originArticle).2 =
        10 :: originArticle ∧
      saveEdit (openEdit ythtEditing originArticle).1 (openEdit ythtEditing originArticle).2 ≠
        withoutCr originArticle := by
  decide +kernel

end ended

end Ytht
