import Ytht.Edit.Commands

/-!
# Edit.Text

What the keys do to the text of a document, in insert mode and with nothing selected:
a byte is put in at the cursor or a character is taken out there, however the lines
are wrapped again (`text_run`).
-/

namespace Ytht

open Function Runs

/-! ## Lines that fit -/

/-- All lines fit, and none is empty without need. -/
def Good (lines : List TextLine) : Prop := (∀ ln ∈ lines, ln.Fits) ∧ Solid lines

section good

variable {before after rest : List TextLine} {cur cur' : TextLine} {text text' : List UInt8}
  {br br' : Bool}

theorem solid_append :
    Solid (before ++ cur :: after) ↔
      (∀ ln ∈ before, ln.br = false → ln.text ≠ []) ∧ Solid (cur :: after) := by
  induction before with
  | nil => simp
  | cons ln before ih =>
      have hne : before ++ cur :: after ≠ [] :=
        List.append_ne_nil_of_right_ne_nil before (List.cons_ne_nil cur after)
      rw [List.cons_append, Solid, ih, List.forall_mem_cons, and_assoc]
      exact and_congr_left' ⟨fun h hbr => h hbr hne, fun h hbr _ => h hbr⟩

theorem Good.replace (hg : Good (before ++ cur :: after)) (hg' : Good (cur' :: rest)) :
    Good (before ++ cur' :: rest) := by
  obtain ⟨hfits, hsolid⟩ := hg
  rw [List.forall_mem_append] at hfits
  refine ⟨?_, solid_append.mpr ⟨(solid_append.mp hsolid).1, hg'.2⟩⟩
  rw [List.forall_mem_append]
  exact ⟨hfits.1, hg'.1⟩

theorem Good.back (hg : Good (before ++ cur :: after)) : Good (cur :: after) := by
  obtain ⟨hfits, hsolid⟩ := hg
  rw [List.forall_mem_append] at hfits
  exact ⟨hfits.2, (solid_append.mp hsolid).2⟩

theorem Good.cons (hfits : cur.Fits) (hsolid : cur.br = false → after ≠ [] → cur.text ≠ [])
    (hg : Good after) : Good (cur :: after) := by
  refine ⟨?_, hsolid, hg.2⟩
  rw [List.forall_mem_cons]
  exact ⟨hfits, hg.1⟩

theorem TextLine.Fits.part (hfits : TextLine.Fits ⟨text, br⟩) (hsub : text' ⊆ text)
    (hwidth : measureWidth text' ≤ measureWidth text) : TextLine.Fits ⟨text', br'⟩ :=
  ⟨Nat.le_trans hwidth hfits.width, fun ch hch => hfits.noNewline ch (hsub hch)⟩

end good

theorem TextLine.bytes_ended {ln : TextLine} (h : ln.br = true) : ln.bytes = ln.text ++ [10] := by
  rw [TextLine.bytes, if_pos h]

theorem TextLine.bytes_open {ln : TextLine} (h : ln.br = false) : ln.bytes = ln.text := by
  rw [TextLine.bytes, h, if_neg Bool.false_ne_true, List.append_nil]

/-! ## The text and the cursor in it -/

/-- How many bytes the character at a place of a line has, where a pair has two. -/
def charSize (enabledbchar : Bool) (text : List UInt8) (n : Nat) : Nat :=
  if n + 1 < text.length ∧ indb enabledbchar text (n + 1) then 2 else 1

theorem charSize_pos {enabledbchar : Bool} {text : List UInt8} {n : Nat} :
    0 < charSize enabledbchar text n := by
  unfold charSize
  split <;> omega

/-- How many bytes the character at `col` of the first line has: it can be a newline,
or stand in the next line. -/
def charAt (enabledbchar : Bool) : Nat → List TextLine → Nat
  | _, [] => 0
  | col, cur :: after =>
      if col < cur.text.length then charSize enabledbchar cur.text col
      else if cur.br then 1
      else charAt enabledbchar 0 after

/-- How far `KEY_LEFT` goes in a line. -/
def sizeLeft (enabledbchar : Bool) (text : List UInt8) (n : Nat) : Nat :=
  if indb enabledbchar text (n - 1) then 2 else 1

theorem sizeLeft_pos {enabledbchar : Bool} {text : List UInt8} {n : Nat} :
    0 < sizeLeft enabledbchar text n := by
  unfold sizeLeft
  split <;> omega

/-- How many bytes `KEY_LEFT` goes back, in the line or to the line before. -/
def charBefore (enabledbchar : Bool) (before : List TextLine) (text : List UInt8) (col : Nat) :
    Nat :=
  if col ≠ 0 then sizeLeft enabledbchar text col
  else
    match before.getLast? with
    | none => 0
    | some ln => if ln.br then 1 else sizeLeft enabledbchar ln.text ln.text.length

namespace Edit

variable (c : EditConf) (e : Edit)

/-- The text of the document. -/
def content : List UInt8 := textOf (e.heap.lines e.document)

/-- The lines before the cursor. -/
def linesBefore : List TextLine := e.heap.lines (e.document.takeWhile (· ≠ e.curline))

/-- The line of the cursor and those behind. -/
def linesFrom : List TextLine := e.heap.lines (e.document.dropWhile (· ≠ e.curline))

/-- The place of the cursor in the text. -/
def offset : Nat := (textOf e.linesBefore).length + e.col.toNat

/-- The bytes of the character at the cursor. -/
def sizeAt : Nat := charAt c.enabledbchar e.col.toNat e.linesFrom

/-- The bytes of the character before the cursor, as far as it is before it. -/
def sizeBefore : Nat := charBefore c.enabledbchar e.linesBefore e.text e.col.toNat

/-- The cursor is between the bytes of a pair. -/
def InPair : Prop := e.col < e.text.length ∧ indb c.enabledbchar e.text e.col.toNat

/-- At a place of the text, some bytes are replaced, and the cursor is behind them. -/
def Edited (e e' : Edit) (place size : Nat) (bytes : List UInt8) : Prop :=
  e'.content = e.content.take place ++ bytes ++ e.content.drop (place + size) ∧
    e'.offset = place + bytes.length

/-- Insert mode with nothing selected, and lines that fit. -/
def Typing (e : Edit) : Prop :=
  ∃ ids, e.On ids ∧ e.InLine ∧ e.overwrite = false ∧ (∀ p ∈ ids, e.heap.selected p = 0) ∧
    Good (e.heap.lines ids)

section text

variable {c : EditConf} {e e' : Edit} {before after rest : List TextLine} {cur cur' : TextLine}

/-- The text is known from the lines around the cursor. -/
theorem Shows.content_eq {skips : Prop} (hs : e.Shows skips before cur after) :
    e.content = textOf before ++ textOf (cur :: after) ∧ e.linesBefore = before ∧
      e.offset = (textOf before).length + e.col.toNat ∧ e.linesFrom = cur :: after := by
  obtain ⟨l₁, l₂, hp, -, rfl, rfl, rfl⟩ := hs
  obtain ⟨hself, -, -⟩ := hp.doc.notMem
  have hfront : ∀ x ∈ l₁, decide (x ≠ e.curline) = true := by
    intro x hx
    rw [decide_eq_true_eq]
    rintro rfl
    exact hself hx
  have hbefore : e.document.takeWhile (· ≠ e.curline) = l₁ := by
    rw [hp.on.document_eq, List.takeWhile_append_of_pos hfront]
    simp
  have hafter : e.document.dropWhile (· ≠ e.curline) = e.curline :: l₂ := by
    rw [hp.on.document_eq, List.dropWhile_append_of_pos hfront]
    simp
  refine ⟨?_, ?_, ?_, ?_⟩
  · unfold content
    rw [hp.on.document_eq, LineHeap.lines_append, textOf_append]
    rfl
  · unfold linesBefore
    rw [hbefore]
  · unfold offset linesBefore
    rw [hbefore]
  · unfold linesFrom
    rw [hafter]
    rfl

theorem Typing.shows (ht : e.Typing) :
    ∃ before cur after, e.Shows False before cur after ∧ e.InLine ∧ e.overwrite = false ∧
      Good (before ++ cur :: after) := by
  obtain ⟨ids, ⟨l₁, l₂, rfl, hp⟩, hin, hinsert, hselected, hgood⟩ := ht
  rw [LineHeap.lines_append] at hgood
  exact ⟨_, _, _, ⟨l₁, l₂, hp, Or.inr hselected, rfl, rfl, rfl⟩, hin, hinsert, hgood⟩

theorem Shows.typing (hs : e.Shows False before cur after) (hin : e.InLine)
    (hinsert : e.overwrite = false) (hgood : Good (before ++ cur :: after)) : e.Typing := by
  obtain ⟨l₁, l₂, hp, hselected, rfl, rfl, rfl⟩ := hs
  refine ⟨_, hp.on, hin, hinsert, hselected.resolve_left not_false, ?_⟩
  rwa [LineHeap.lines_append]

/-- A text is cut in a line. -/
theorem cut_textOf {n : Nat} (hn : n ≤ cur.text.length) :
    (textOf (cur :: after)).take n = cur.text.take n ∧
      (textOf (cur :: after)).drop n =
        cur.text.drop n ++ ((if cur.br then [10] else []) ++ textOf after) := by
  rw [textOf_cons, TextLine.bytes, List.append_assoc]
  exact ⟨List.take_append_of_le_length hn, List.drop_append_of_le_length hn⟩

/-- The text is another one from the line of the cursor on. -/
theorem Edited.of_shows {skips : Prop} {place size : Nat} {bytes : List UInt8}
    (hs : e.Shows skips before cur after)
    (hs' : e'.content = textOf before ++ (textOf (cur :: after)).take place ++ bytes ++
      (textOf (cur :: after)).drop (place + size))
    (hoffset : e'.offset = (textOf before).length + place + bytes.length) :
    e.Edited e' ((textOf before).length + place) size bytes := by
  obtain ⟨hcontent, -, -, -⟩ := hs.content_eq
  refine ⟨?_, hoffset⟩
  rw [hs', hcontent, List.take_length_add_append, Nat.add_assoc, List.drop_length_add_append]

/-- `e'` has the same text, and the cursor at the same place. -/
theorem Edited.congr {e₀ e₁ : Edit} {place size : Nat} {bytes : List UInt8}
    (h : e.Edited e' place size bytes) (hcontent : e₀.content = e.content)
    (hcontent' : e₁.content = e'.content) (hoffset' : e₁.offset = e'.offset) :
    e₀.Edited e₁ place size bytes := by
  obtain ⟨htext, hplace⟩ := h
  refine ⟨?_, hoffset'.trans hplace⟩
  rw [hcontent', hcontent, htext]

/-! ## Typing -/

/-- The text after a byte that was typed. -/
theorem Typed.content_eq {text : List UInt8} {br : Bool}
    (ht : Typed False e before text br after e') (hcol : 0 ≤ e.col) :
    e'.content = textOf before ++ textOf (⟨text, br⟩ :: after) ∧
      e'.offset = (textOf before).length + e.col.toNat + 1 := by
  have hparts : ∀ len, textOf (⟨text.take len, false⟩ :: ⟨text.drop len, br⟩ :: after) =
      textOf (⟨text, br⟩ :: after) := by
    intro len
    simp only [textOf_cons, TextLine.bytes, Bool.false_eq_true, if_false, List.append_nil,
      ← List.append_assoc, List.take_append_drop]
  cases ht with
  | fits hfits hshows hcol' =>
      obtain ⟨hcontent, -, hoffset, -⟩ := hshows.content_eq
      exact ⟨hcontent, by omega⟩
  | stays len cur rest hlen hrewrap hshows hcol' hplace =>
      obtain ⟨hcontent, -, hoffset, -⟩ := hshows.content_eq
      refine ⟨?_, by omega⟩
      rw [hcontent, textOf_cons, hrewrap.textOf_eq, ← textOf_cons, hparts]
  | goes len cur rest hlen hrewrap hshows hcol' hplace =>
      obtain ⟨hcontent, -, hoffset, -⟩ := hshows.content_eq
      have hle := measureLine_le text MAXLINELEN 0
      refine ⟨?_, ?_⟩
      · rw [hcontent, hrewrap.textOf_eq, textOf_append, List.append_assoc, ← hparts len]
        simp [textOf]
      · rw [hoffset, textOf_append, List.length_append, hcol']
        simp [textOf, TextLine.bytes]
        omega

/-- The lines fit after a byte that was typed. -/
theorem Typed.typing {text : List UInt8} {br : Bool}
    (ht : Typed False e before text br after e') (hcol : 0 ≤ e.col)
    (hend : e.col + 1 ≤ text.length) (hinsert : e'.overwrite = false)
    (hgood : Good (before ++ cur :: after))
    (hclean : ∀ ch ∈ text, isNewline ch = false)
    (hdrop : measureWidth (text.drop (measureLine text MAXLINELEN 0).1) ≤ MAXLINELEN) :
    e'.Typing := by
  have hin := (ht.ok hcol hend).2
  have hback := hgood.back
  have hafter : Good after := by
    obtain ⟨hfits, hsolid⟩ := hback
    exact ⟨fun ln hln => hfits ln (List.mem_cons_of_mem cur hln), hsolid.2⟩
  have hfirst : ∀ br', TextLine.Fits ⟨text.take (measureLine text MAXLINELEN 0).1, br'⟩ :=
    fun br' => ⟨width_take_measureLine text, fun ch hch => hclean ch (List.mem_of_mem_take hch)⟩
  have hpos : text.take (measureLine text MAXLINELEN 0).1 ≠ [] := by
    cases text with
    | nil =>
        rw [List.length_nil] at hend
        omega
    | cons ch rest =>
        have hlen := @measureLine_pos ch rest (hclean ch List.mem_cons_self)
        intro hempty
        rw [List.take_eq_nil_iff] at hempty
        have hzero := hempty.resolve_right (List.cons_ne_nil ch rest)
        omega
  have hsecond : ∀ ln ∈ (⟨text.drop (measureLine text MAXLINELEN 0).1, br⟩ : TextLine) :: after,
      ln.Fits := by
    rw [List.forall_mem_cons]
    exact ⟨⟨hdrop, fun ch hch => hclean ch (List.mem_of_mem_drop hch)⟩, hafter.1⟩
  cases ht with
  | fits hfits hshows hcol' =>
      rw [hfits, List.take_length] at hfirst hpos
      exact hshows.typing hin hinsert
        (hgood.replace (Good.cons (hfirst br) (fun _ _ => hpos) hafter))
  | stays len cur' rest hlen hrewrap hshows hcol' hplace =>
      subst hlen
      have hrest : Good (cur' :: rest) :=
        ⟨hrewrap.fits hsecond, hrewrap.solid (Or.inl hafter.2)⟩
      exact hshows.typing hin hinsert
        (hgood.replace (Good.cons (hfirst false) (fun _ _ => hpos) hrest))
  | goes len cur' rest hlen hrewrap hshows hcol' hplace =>
      subst hlen
      have hrest : Good (cur' :: rest) :=
        ⟨hrewrap.fits hsecond, hrewrap.solid (Or.inl hafter.2)⟩
      refine hshows.typing hin hinsert ?_
      rw [← List.append_cons]
      exact hgood.replace (Good.cons (hfirst false) (fun _ _ => hpos) hrest)

theorem overwrite_insertChar (e : Edit) (ch : UInt8) :
    (e.insertChar ch).overwrite = e.overwrite := by
  unfold Edit.insertChar Edit.breakLine
  dsimp only
  split_ifs <;> rfl

/-- **Typing** puts in a byte. -/
theorem Typing.insertChar (ht : e.Typing) {ch : UInt8} (hch : isNewline ch = false) :
    (e.insertChar ch).Typing ∧ e.Edited (e.insertChar ch) e.offset 0 [ch] := by
  obtain ⟨before, cur, after, hs, hin, hinsert, hgood⟩ := ht.shows
  obtain ⟨hcol, hend⟩ := hs.col_le hin
  have htyped := hs.insertChar hin ch
  rw [hinsert, if_neg Bool.false_ne_true] at htyped
  have hcut : cur.text.take e.col.toNat ++ cur.text.drop e.col.toNat = cur.text :=
    List.take_append_drop _ _
  have hfits := (hgood.1 cur (by simp))
  have hclean : ∀ c ∈ cur.text.take e.col.toNat ++ ch :: cur.text.drop e.col.toNat,
      isNewline c = false := by
    intro c hc
    rw [List.mem_append, List.mem_cons] at hc
    obtain hc | rfl | hc := hc
    · exact hfits.noNewline c (List.mem_of_mem_take hc)
    · exact hch
    · exact hfits.noNewline c (List.mem_of_mem_drop hc)
  have hwidth : measureWidth (cur.text.take e.col.toNat ++ cur.text.drop e.col.toNat)
      ≤ MAXLINELEN := by
    rw [hcut]
    exact hfits.width
  refine ⟨htyped.typing hcol ?_ ?_ hgood hclean (width_drop_insert hwidth hclean), ?_⟩
  · rw [List.length_append, List.length_take, List.length_cons]
    omega
  · rw [overwrite_insertChar, hinsert]
  · obtain ⟨hcontent, hoffset⟩ := htyped.content_eq hcol
    obtain ⟨-, -, hplace, -⟩ := hs.content_eq
    rw [hplace]
    refine Edited.of_shows hs ?_ (by simpa using hoffset)
    have hn : e.col.toNat ≤ cur.text.length := by omega
    obtain ⟨htake, hdrop⟩ := @cut_textOf after cur _ hn
    rw [hcontent, Nat.add_zero, htake, hdrop]
    simp [TextLine.bytes]

/-- The line of the cursor and those behind are wrapped in another way. -/
theorem Shows.rewrapped {lines : List TextLine} (hs : e.Shows False before cur' rest)
    (hin : e.InLine) (hinsert : e.overwrite = false) (hgood : Good (before ++ cur :: after))
    (hrewrap : Rewrap False lines (cur' :: rest)) (hfits : ∀ ln ∈ lines, ln.Fits)
    (hsolid : Solid lines.tail ∨ (∀ ln ∈ lines.head?, ln.br = false) ∧ Solid lines.tail.tail) :
    e.Typing :=
  hs.typing hin hinsert (hgood.replace ⟨hrewrap.fits hfits, hrewrap.solid hsolid⟩)

/-- **Enter** puts in a newline. -/
theorem Typing.keyEnter (ht : e.Typing) :
    e.keyEnter.Typing ∧ e.Edited e.keyEnter e.offset 0 [10] := by
  obtain ⟨before, cur, after, hs, hin, hinsert, hgood⟩ := ht.shows
  obtain ⟨hcol, hend⟩ := hs.col_le hin
  obtain ⟨cur', rest, hrewrap, hs'⟩ := hs.keyEnter
  have hback := hgood.back
  have hfits := hback.1 cur List.mem_cons_self
  have hfirst : Good (before ++ [⟨cur.text.take e.col.toNat, true⟩] ++ cur :: after) := by
    rw [← List.append_cons]
    refine hgood.replace (Good.cons ?_ (fun hbr => Bool.noConfusion hbr) hback)
    exact hfits.part (List.take_subset _ _) (measureWidth_take_le _ _)
  refine ⟨hs'.rewrapped (inLine_zero rfl) hinsert hfirst hrewrap ?_ (Or.inl hback.2.2), ?_⟩
  · rw [List.forall_mem_cons]
    exact ⟨hfits.part (List.drop_subset _ _) (measureWidth_drop_le _ _),
      fun ln hln => hback.1 ln (List.mem_cons_of_mem cur hln)⟩
  · obtain ⟨-, -, hplace, -⟩ := hs.content_eq
    obtain ⟨hcontent, -, hoffset, -⟩ := hs'.content_eq
    rw [hplace]
    have hn : e.col.toNat ≤ cur.text.length := by omega
    obtain ⟨htake, hdrop⟩ := @cut_textOf after cur _ hn
    refine Edited.of_shows hs ?_ ?_
    · rw [hcontent, hrewrap.textOf_eq, textOf_append, Nat.add_zero, htake, hdrop]
      simp [textOf, TextLine.bytes]
    · have hzero : e.keyEnter.col.toNat = 0 := rfl
      rw [hoffset, textOf_append, List.length_append, hzero, Nat.add_zero, Nat.add_assoc]
      congr 1
      simp [textOf, TextLine.bytes, Nat.min_eq_left hn]

/-! ## Deleting -/

theorem charSize_le {enabledbchar : Bool} {text : List UInt8} {n : Nat} (hn : n < text.length) :
    n + charSize enabledbchar text n ≤ text.length := by
  unfold charSize
  split <;> omega

/-- **A character is taken out** of the text. -/
theorem textOf_deleteAt {enabledbchar : Bool} {col : Nat} (hcol : col ≤ cur.text.length)
    (hsolid : Solid (cur :: after)) :
    textOf (deleteAt enabledbchar col (cur :: after)) = (textOf (cur :: after)).take col ++
      (textOf (cur :: after)).drop (col + charAt enabledbchar col (cur :: after)) := by
  rw [(cut_textOf hcol).1, charAt]
  unfold deleteAt
  dsimp only
  by_cases hinside : col < cur.text.length
  · rw [if_pos hinside, if_pos hinside, (cut_textOf (charSize_le hinside)).2]
    simp [TextLine.bytes, charSize]
  have hall : col = cur.text.length := by omega
  subst hall
  rw [if_neg hinside, if_neg hinside, List.take_length]
  cases hbr : cur.br with
  | true =>
      rw [if_pos rfl, if_pos rfl, textOf_cons, textOf_cons, TextLine.bytes_ended hbr,
        TextLine.bytes_open rfl, List.append_assoc, List.drop_length_add_append]
      rfl
  | false =>
      rw [if_neg Bool.false_ne_true, if_neg Bool.false_ne_true, textOf_cons, textOf_cons,
        TextLine.bytes_open hbr, List.drop_length_add_append]
      congr 1
      cases after with
      | nil => rfl
      | cons next rest =>
          dsimp only
          rw [charAt]
          by_cases htext : next.text = []
          · have hempty : ¬0 < next.text.length := by
              rw [htext]
              exact Nat.lt_irrefl 0
            rw [if_pos htext, if_neg hempty, textOf_cons, textOf_cons, TextLine.bytes_open rfl]
            cases hnext : next.br with
            | true =>
                rw [if_pos rfl, TextLine.bytes_ended hnext, htext]
                rfl
            | false =>
                have hrest : rest = [] := by
                  by_contra hne
                  exact hsolid.2.1 hnext hne htext
                rw [if_neg Bool.false_ne_true, TextLine.bytes_open hnext, htext, hrest]
                rfl
          · have hpos := List.length_pos_iff.mpr htext
            rw [if_neg htext, if_pos hpos]
            have hsize : (if indb enabledbchar next.text 1 ∧ next.text.length > 1 then 2 else 1) =
                charSize enabledbchar next.text 0 := by
              unfold charSize
              simp only [Nat.zero_add, and_comm, gt_iff_lt]
            have hle := @charSize_le enabledbchar next.text 0 hpos
            rw [Nat.zero_add] at hle
            rw [hsize, (cut_textOf hle).2]
            simp [TextLine.bytes]

/-- The lines that are left fit; the line behind that of the cursor may be empty. -/
theorem deleteAt_good {enabledbchar : Bool} {col : Nat} (hgood : Good (cur :: after)) :
    (∀ ln ∈ deleteAt enabledbchar col (cur :: after), ln.Fits) ∧
      (Solid (deleteAt enabledbchar col (cur :: after)).tail ∨
        (∀ ln ∈ (deleteAt enabledbchar col (cur :: after)).head?, ln.br = false) ∧
          Solid (deleteAt enabledbchar col (cur :: after)).tail.tail) := by
  obtain ⟨hfits, -, hsolid⟩ := hgood
  rw [List.forall_mem_cons] at hfits
  obtain ⟨hcur, hafter⟩ := hfits
  unfold deleteAt
  dsimp only
  split
  · refine ⟨?_, Or.inl hsolid⟩
    rw [List.forall_mem_cons]
    refine ⟨hcur.part ?_ (measureWidth_cut_le _ _ _), hafter⟩
    exact List.append_subset.mpr ⟨List.take_subset _ _, List.drop_subset _ _⟩
  · split
    · refine ⟨?_, Or.inl hsolid⟩
      rw [List.forall_mem_cons]
      exact ⟨hcur.part (List.Subset.refl _) (Nat.le_refl _), hafter⟩
    · next hbr =>
        have hopen : ∀ ln ∈ some cur, ln.br = false := by
          rintro ln hln
          cases hln
          exact Bool.eq_false_iff.mpr hbr
        cases after with
        | nil => exact ⟨List.forall_mem_cons.mpr ⟨hcur, hafter⟩, Or.inl trivial⟩
        | cons next rest =>
            rw [List.forall_mem_cons] at hafter
            refine ⟨?_, Or.inr ⟨hopen, hsolid.2⟩⟩
            rw [List.forall_mem_cons, List.forall_mem_cons]
            refine ⟨hcur, ?_, hafter.2⟩
            split
            · exact hafter.1.part (List.nil_subset _) (Nat.zero_le _)
            · exact hafter.1.part (List.drop_subset _ _) (measureWidth_drop_le _ _)

/-- **`KEY_DEL`** takes out the character at the cursor. -/
theorem Typing.keyDel (ht : e.Typing) :
    (e.keyDel c).Typing ∧ e.Edited (e.keyDel c) e.offset (e.sizeAt c) [] := by
  obtain ⟨before, cur, after, hs, hin, hinsert, hgood⟩ := ht.shows
  obtain ⟨hcol, hend⟩ := hs.col_le hin
  obtain ⟨cur', rest, hrewrap, hend', hs'⟩ := hs.keyDel (c := c) hin
  have hback := hgood.back
  obtain ⟨hfits, hsolid⟩ := @deleteAt_good after cur c.enabledbchar e.col.toNat hback
  refine ⟨hs'.rewrapped (hs'.inLine hcol hend') hinsert hgood hrewrap hfits hsolid, ?_⟩
  obtain ⟨-, -, hplace, hfrom⟩ := hs.content_eq
  obtain ⟨hcontent, -, hoffset, -⟩ := hs'.content_eq
  unfold sizeAt
  rw [hplace, hfrom]
  refine Edited.of_shows hs ?_ hoffset
  have hn : e.col.toNat ≤ cur.text.length := by omega
  rw [hcontent, hrewrap.textOf_eq, textOf_deleteAt hn hback.2, List.append_nil, List.append_assoc]

/-! ## Backspace -/

/-- What is to the left is a character, or the first byte of one. -/
theorem sizeLeft_spec {enabledbchar : Bool} {text : List UInt8} {n : Nat} (hpos : 0 < n)
    (hn : n ≤ text.length) :
    0 < sizeLeft enabledbchar text n ∧ sizeLeft enabledbchar text n ≤ n ∧
      sizeLeft enabledbchar text n ≤
        charSize enabledbchar text (n - sizeLeft enabledbchar text n) ∧
      (¬(n < text.length ∧ indb enabledbchar text n) →
        charSize enabledbchar text (n - sizeLeft enabledbchar text n) =
          sizeLeft enabledbchar text n) := by
  unfold sizeLeft charSize
  by_cases hdb : indb enabledbchar text (n - 1) = true
  · have hne : n - 1 ≠ 0 := by
      intro hzero
      rw [hzero, indb_zero] at hdb
      contradiction
    have hplace : n - 2 + 1 = n - 1 := by omega
    rw [if_pos hdb, hplace, if_pos ⟨by omega, hdb⟩]
    exact ⟨Nat.succ_pos 1, by omega, Nat.le_refl 2, fun _ => rfl⟩
  · have hplace : n - 1 + 1 = n := by omega
    rw [if_neg hdb, hplace]
    refine ⟨Nat.one_pos, hpos, ?_, fun hpair => if_neg hpair⟩
    split <;> omega

theorem keyLeft_inside (fuel : Nat) (hcol : 0 < e.col) :
    keyLeft c (fuel + 1) e =
      ({ e with col := (e.col.toNat - sizeLeft c.enabledbchar e.text e.col.toNat : Nat) }).setColcur := by
  have hne : e.col ≠ 0 := by omega
  have hprev : (e.col - 1).toNat = e.col.toNat - 1 := by omega
  rw [Edit.keyLeft, if_pos hne]
  dsimp only
  rw [hprev]
  congr 2
  unfold sizeLeft
  split
  · next hdb =>
      have hone : e.col.toNat - 1 ≠ 0 := by
        intro hzero
        rw [hzero, indb_zero] at hdb
        contradiction
      omega
  · omega

theorem Shows.setColcur {skips : Prop} (hs : e.Shows skips before cur after) :
    e.setColcur.Shows skips before cur after := hs.congr rfl rfl rfl rfl rfl

/-- The cursor goes to the line before. -/
theorem Shows.toPrev {skips : Prop} {ln : TextLine}
    (hs : e.Shows skips (before ++ [ln]) cur after) :
    e.heap.prev e.curline ≠ 0 ∧ e.toPrev.Shows skips before ln (cur :: after) := by
  obtain ⟨l₁, l₂, hp, hselected, hbefore, rfl, rfl⟩ := hs
  obtain ⟨l₃, l₄, rfl, rfl, hlast⟩ := List.map_eq_append_iff.mp hbefore
  obtain ⟨b, rfl, rfl⟩ := List.map_eq_singleton_iff.mp hlast
  have hprev := hp.doc.prev_concat
  obtain ⟨hcur, hp'⟩ := hp.toPrev
  refine ⟨?_, l₃, e.curline :: l₂, hp', ?_, rfl, by rw [hcur]; rfl, rfl⟩
  · rw [hprev]
    exact hp.doc.ne_zero (by simp)
  · rw [hcur, List.append_cons]
    exact hselected

/-- `KEY_LEFT` goes to the character before the cursor. -/
structure LeftOf (c : EditConf) (e e' : Edit) : Prop where
  offset : e'.offset + e.sizeBefore c = e.offset
  pos : 0 < e.sizeBefore c
  size : e.sizeBefore c ≤ e'.sizeAt c
  whole : ¬e.InPair c → e'.sizeAt c = e.sizeBefore c

/-- `KEY_LEFT` in a line, from place `n` of it. -/
theorem LeftOf.inside {skips : Prop} {n : Nat} (hs : e'.Shows skips before cur after)
    (hpos : 0 < n) (hn : n ≤ cur.text.length)
    (hcol : e'.col = (n - sizeLeft c.enabledbchar cur.text n : Nat))
    (hoffset : e.offset = (textOf before).length + n)
    (hsize : e.sizeBefore c = sizeLeft c.enabledbchar cur.text n)
    (hpair : ¬e.InPair c → ¬(n < cur.text.length ∧ indb c.enabledbchar cur.text n)) :
    LeftOf c e e' := by
  obtain ⟨hleft, hle, hchar, hwhole⟩ := @sizeLeft_spec c.enabledbchar cur.text n hpos hn
  obtain ⟨-, -, hplace, hfrom⟩ := hs.content_eq
  have hat : e'.sizeAt c =
      charSize c.enabledbchar cur.text (n - sizeLeft c.enabledbchar cur.text n) := by
    unfold sizeAt
    rw [hfrom, hcol, charAt]
    exact if_pos (by omega)
  refine ⟨?_, ?_, ?_, fun hnot => ?_⟩
  · rw [hplace, hsize, hoffset, hcol]
    omega
  · rwa [hsize]
  · rwa [hsize, hat]
  · rw [hsize, hat]
    exact hwhole (hpair hnot)

theorem Shows.keyLeft {skips : Prop} (fuel : Nat) (hs : e.Shows skips before cur after)
    (hin : e.InLine) (hsolid : Solid (before ++ cur :: after))
    (hmove : ¬(e.col = 0 ∧ e.heap.prev e.curline = 0)) :
    LeftOf c e (keyLeft c (fuel + 2) e) := by
  obtain ⟨hcol, hend⟩ := hs.col_le hin
  obtain ⟨-, hbefore, hoffset, -⟩ := hs.content_eq
  have hsize : e.sizeBefore c = charBefore c.enabledbchar before cur.text e.col.toNat := by
    unfold sizeBefore
    rw [hbefore, hs.text]
  unfold charBefore at hsize
  by_cases hzero : e.col = 0
  · have hnat : e.col.toNat = 0 := by omega
    rw [hnat, if_neg (not_not.mpr rfl)] at hsize
    rw [hnat, Nat.add_zero] at hoffset
    rw [Edit.keyLeft, if_neg (not_not.mpr hzero)]
    cases before using List.reverseRecOn with
    | nil =>
        obtain ⟨l₁, l₂, hp, -, hnone, -⟩ := hs
        obtain rfl := List.map_eq_nil_iff.mp hnone
        exact absurd ⟨hzero, hp.doc.prev_eq⟩ hmove
    | append_singleton before ln =>
        rw [List.getLast?_concat] at hsize
        obtain ⟨hprev, hs₁⟩ := hs.toPrev
        rw [if_pos hprev]
        dsimp only
        have hs₂ : ({ e.toPrev with col := e.toPrev.text.length }).Shows skips before ln
            (cur :: after) := hs₁.congr rfl rfl rfl rfl rfl
        have hpart : (textOf (before ++ [ln])).length = (textOf before).length + ln.bytes.length := by
          rw [textOf_append, List.length_append]
          simp [textOf]
        rw [hs₁.line]
        dsimp only at hsize
        rw [hs₁.text] at hs₂ ⊢
        cases hbr : ln.br with
        | true =>
            -- a newline is before the cursor
            rw [if_neg (by decide)]
            rw [hbr, if_pos rfl] at hsize
            rw [hpart, TextLine.bytes_ended hbr, List.length_append, List.length_singleton] at hoffset
            obtain ⟨-, -, hplace, hfrom⟩ := hs₂.setColcur.content_eq
            have hat : ({ e.toPrev with col := ln.text.length }).setColcur.sizeAt c = 1 := by
              unfold sizeAt
              rw [hfrom, charAt]
              show (if ln.text.length < ln.text.length then _ else if ln.br then 1 else _) = 1
              rw [if_neg (Nat.lt_irrefl _), hbr, if_pos rfl]
            have hnat' : ({ e.toPrev with col := ln.text.length }).setColcur.col.toNat =
                ln.text.length := rfl
            refine ⟨?_, by omega, Nat.le_of_eq (hsize.trans hat.symm), fun _ => hat.trans hsize.symm⟩
            rw [hplace, hnat', hsize, hoffset, Nat.add_assoc]
        | false =>
            have hlen : 0 < ln.text.length := by
              rw [← List.append_cons] at hsolid
              exact List.length_pos_iff.mpr
                ((solid_append.mp hsolid).2.1 hbr (List.cons_ne_nil cur after))
            rw [if_pos rfl]
            rw [hbr, if_neg Bool.false_ne_true] at hsize
            rw [hpart, TextLine.bytes_open hbr] at hoffset
            have hpos : 0 < ({ e.toPrev with col := ln.text.length }).col := Int.natCast_pos.mpr hlen
            rw [keyLeft_inside fuel hpos]
            have htext : ({ e.toPrev with col := ln.text.length }).text = ln.text := hs₂.text
            rw [htext]
            refine LeftOf.inside (hs₂.congr rfl rfl rfl rfl rfl) hlen (Nat.le_refl _) rfl hoffset hsize ?_
            exact fun _ hboth => Nat.lt_irrefl _ hboth.1
  · have hpos : 0 < e.col := by omega
    have hne : e.col.toNat ≠ 0 := by omega
    rw [if_pos hne] at hsize
    rw [keyLeft_inside (fuel + 1) hpos, hs.text]
    refine LeftOf.inside (hs.congr rfl rfl rfl rfl rfl) (by omega) (by omega) rfl hoffset hsize ?_
    rintro hnot ⟨hlt, hdb⟩
    refine hnot ⟨?_, ?_⟩
    · rw [hs.text]
      omega
    · rwa [hs.text]

/-! ## Moves -/

/-- A move keeps the text. -/
theorem Typing.goes (ht : e.Typing) (hgo : ∀ ids, e.On ids → e.InLine → e.Goes ids e') :
    e'.Typing ∧ e'.content = e.content := by
  obtain ⟨ids, hon, hin, hinsert, hselected, hgood⟩ := ht
  obtain ⟨ids', hon', hin', hmoved, hkept⟩ := hgo ids hon hin
  unfold content
  rw [hon'.document_eq, hon.document_eq]
  rw [hinsert] at hkept
  generalize hheap : e'.heap = h' at hmoved
  cases hmoved with
  | same =>
      rw [← hheap] at hselected hgood ⊢
      exact ⟨⟨ids, hon', hin', hkept, hselected, hgood⟩, rfl⟩
  | appended l₁ a hids htext =>
      subst hids
      obtain ⟨-, hlines, hnew, hselected'⟩ := hon.doc.appendLine
      have hall : (e.heap.allocNextLine a).1.lines (l₁ ++ [a] ++ [e.heap.fresh]) =
          e.heap.lines (l₁ ++ [a]) ++ [⟨[], false⟩] := by
        rw [LineHeap.lines_append, hlines, LineHeap.lines_cons, hnew]
        rfl
      obtain ⟨hfits, hsolid⟩ := hgood
      rw [LineHeap.lines_append] at hsolid
      obtain ⟨hfront, -⟩ := solid_append.mp hsolid
      refine ⟨⟨_, hon', hin', hkept, ?_, ?_⟩, ?_⟩
      · rw [hheap]
        exact hselected' hselected
      · rw [hheap, hall]
        refine ⟨?_, solid_append.mpr ⟨?_, ?_, trivial⟩⟩
        · rw [List.forall_mem_append, List.forall_mem_singleton]
          exact ⟨hfits, Nat.zero_le _, fun _ hch => absurd hch List.not_mem_nil⟩
        · rw [LineHeap.lines_append, List.forall_mem_append]
          refine ⟨hfront, fun ln hln _ => ?_⟩
          rw [List.mem_singleton.mp hln]
          exact htext
        · exact fun _ hne => absurd rfl hne
      · rw [hall, textOf_append]
        exact List.append_nil _

theorem Typing.finishKey (ht : e.Typing) :
    (e.finishKey 0).Typing ∧ (e.finishKey 0).content = e.content ∧
      (e.finishKey 0).offset = e.offset := by
  obtain ⟨htyping, hcontent⟩ := ht.goes fun ids hon hin => hon.finishKey fun _ => hin
  exact ⟨htyping, hcontent, rfl⟩

theorem Typing.redraw (ht : e.Typing) : (e.redraw c).Typing := by
  obtain ⟨ids, hon, hin, hinsert, hselected, hgood⟩ := ht
  have hon' := hon.redraw (c := c)
  obtain ⟨n, hn⟩ := redraw_eq c e
  rw [hn] at hon' ⊢
  exact ⟨ids, hon', hin, hinsert, hselected, hgood⟩

end text

/-- The keys that only move the cursor. -/
def EditKey.isMove : EditKey → Bool
  | .left | .right | .up | .down | .pgup | .pgdn | .home | .lineEnd | .top | .bottom => true
  | _ => false

section keys

variable {c : EditConf} {e e' : Edit} {ids : List Nat}

/-- A move that makes no line. -/
theorem On.goesTo (hon : e'.On ids) (hin : e'.InLine) (hheap : e'.heap = e.heap)
    (hkept : e'.overwrite = e.overwrite) : e.Goes ids e' := by
  refine ⟨ids, hon, hin, ?_, hkept⟩
  rw [hheap]
  exact Moved.same

/-- **Moving the cursor** keeps the text. -/
theorem Typing.move (ht : e.Typing) {k : EditKey} (hk : k.isMove = true) :
    (e.doEditKey c k).Typing ∧ (e.doEditKey c k).content = e.content := by
  have hfinish : ∀ e' : Edit, (e'.Typing ∧ e'.content = e.content) →
      (e'.finishKey 0).Typing ∧ (e'.finishKey 0).content = e.content := by
    intro e' hmoved
    obtain ⟨htyping, hcontent, -⟩ := hmoved.1.finishKey
    exact ⟨htyping, hcontent.trans hmoved.2⟩
  unfold Edit.doEditKey
  cases k with
  | left =>
      refine hfinish _ (ht.goes fun ids hon hin => ?_)
      obtain ⟨hon', hin', hheap, hkept⟩ := hon.keyLeft (c := c) e.heap.fresh hin
      exact hon'.goesTo hin' hheap hkept
  | right => exact hfinish _ (ht.goes fun ids hon hin => hon.keyRight e.heap.fresh hin)
  | up => exact ht.goes fun ids hon hin => (hon.keyUp hin).finishKey
  | down => exact ht.goes fun ids hon hin => (hon.keyDown hin).finishKey
  | pgup => exact ht.goes fun ids hon hin => (hon.keyPgup hin).finishKey
  | pgdn => exact ht.goes fun ids hon hin => (hon.keyPgdn hin).finishKey
  | home =>
      refine hfinish _ (ht.goes fun ids hon hin => ?_)
      have hon' : ({ e with col := 0, colcur := 0 }).On ids := hon.congr rfl rfl rfl rfl rfl
      exact hon'.goesTo (inLine_zero rfl) rfl rfl
  | lineEnd => exact ht.goes fun ids hon hin => hon.keyEnd
  | top =>
      exact hfinish _ (ht.goes fun ids hon hin => hon.keyTop.goesTo (inLine_zero rfl) rfl rfl)
  | bottom =>
      refine hfinish _ (ht.goes fun ids hon hin => ?_)
      obtain ⟨hon', hin', hheap, hkept⟩ := hon.keyBottom
      exact hon'.goesTo hin' hheap hkept
  | enter | backspace | delete | deleteLine | deleteToEol | insert | select | other => contradiction

/-- The character before the cursor, which the key takes out. -/
def Erased (c : EditConf) (e e' : Edit) : Prop :=
  ∃ n, e.sizeBefore c ≤ n ∧ (¬e.InPair c → n = e.sizeBefore c) ∧
    e.Edited e' (e.offset - e.sizeBefore c) n []

/-- Nothing is before the cursor only at the beginning of the text. -/
theorem sizeBefore_pos (ht : e.Typing) (hpos : 0 < e.offset) : 0 < e.sizeBefore c := by
  obtain ⟨before, cur, after, hs, hin, -, -⟩ := ht.shows
  obtain ⟨-, hbefore, hoffset, -⟩ := hs.content_eq
  unfold sizeBefore charBefore
  rw [hbefore]
  split
  · exact sizeLeft_pos
  · next hcol =>
      split
      · next hnone =>
          rw [List.getLast?_eq_none_iff.mp hnone] at hoffset
          have hzero : (textOf []).length = 0 := rfl
          omega
      · split
        · exact Nat.one_pos
        · exact sizeLeft_pos

/-- **Backspace** takes out the character before the cursor. -/
theorem Typing.backspace (ht : e.Typing) :
    (e.doEditKey c .backspace).Typing ∧ e.Erased c (e.doEditKey c .backspace) := by
  unfold Edit.doEditKey
  dsimp only
  obtain ⟨before, cur, after, hs, hin, -, hgood⟩ := ht.shows
  by_cases hstart : e.col = 0 ∧ e.heap.prev e.curline = 0
  · -- nothing is before the cursor
    rw [if_pos hstart]
    have hnone : before = [] := by
      cases before using List.reverseRecOn with
      | nil => rfl
      | append_singleton before ln => exact absurd hstart.2 hs.toPrev.1
    subst hnone
    obtain ⟨-, hbefore, hoffset, -⟩ := hs.content_eq
    have hsize : e.sizeBefore c = 0 := by
      unfold sizeBefore
      rw [hbefore, hstart.1]
      rfl
    have hzero : e.offset = 0 := by
      rw [hoffset, hstart.1]
      rfl
    refine ⟨ht, 0, Nat.le_of_eq hsize, fun _ => hsize.symm, ?_, ?_⟩
    · rw [hzero, hsize]
      rfl
    · rw [hzero, hsize]
      exact hzero
  · rw [if_neg hstart]
    obtain ⟨fuel, hfuel⟩ : ∃ fuel, e.heap.fresh = fuel + 2 := by
      obtain ⟨l₁, l₂, hp, -⟩ := hs
      have hlen := hp.doc.length_lt
      rw [List.length_append, List.length_cons] at hlen
      exact ⟨e.heap.fresh - 2, by omega⟩
    have hleft := hs.keyLeft (c := c) fuel hin hgood.2 hstart
    rw [← hfuel] at hleft
    obtain ⟨hmoved, hkept⟩ := ht.goes fun ids hon hin => by
      obtain ⟨hon', hin', hheap, hkept⟩ := hon.keyLeft (c := c) e.heap.fresh hin
      exact hon'.goesTo hin' hheap hkept
    generalize Edit.keyLeft c e.heap.fresh e = e₁ at hleft hmoved hkept ⊢
    obtain ⟨hmoved₂, hcontent₂, hoffset₂⟩ := hmoved.finishKey
    have hsize₂ : (e₁.finishKey 0).sizeAt c = e₁.sizeAt c := rfl
    obtain ⟨htyping, hedited⟩ := hmoved₂.keyDel (c := c)
    obtain ⟨htyping', hcontent', hoffset'⟩ := htyping.finishKey
    refine ⟨htyping', e₁.sizeAt c, hleft.size, hleft.whole, ?_⟩
    have hplace : e.offset - e.sizeBefore c = (e₁.finishKey 0).offset := by
      have hsum := hleft.offset
      omega
    rw [hplace, ← hsize₂]
    exact hedited.congr (hkept.symm.trans hcontent₂.symm) hcontent' hoffset'

/-! ## Sessions -/

/-- The keys of the text: typing, Enter, Backspace, Delete, and those that move the
cursor. -/
def typingKey : EditCmd → Bool
  | .type ch => !isNewline ch
  | .key k => k.isMove || k == .enter || k == .backspace || k == .delete
  | _ => false

theorem Typing.step {cmd : EditCmd} (ht : e.Typing) (hcmd : typingKey cmd = true)
    (hstep : Edit.step c e cmd = some e') : e'.Typing := by
  have hdrawn := ht.redraw (c := c)
  cases hstep
  cases cmd with
  | type ch =>
      unfold typingKey at hcmd
      rw [Bool.not_eq_true'] at hcmd
      exact (hdrawn.insertChar hcmd).1
  | key k =>
      have hmove : k.isMove = true → ((e.redraw c).doEditKey c k).Typing := fun hk =>
        (hdrawn.move hk).1
      cases k with
      | enter => exact hdrawn.keyEnter.1.finishKey.1
      | backspace => exact hdrawn.backspace.1
      | delete => exact hdrawn.keyDel.1.finishKey.1
      | left | right | up | down | pgup | pgdn | home | lineEnd | top | bottom => exact hmove rfl
      | deleteLine | deleteToEol | insert | select | other => contradiction
  | clearSelect | deleteSelect | searchStr | searchNextStr | gotoline => contradiction

/-- What the keys do to the text, where the cursor is. -/
structure TextKept (c : EditConf) (e : Edit) : Prop where
  type : ∀ ch, isNewline ch = false → ∀ e', Edit.step c e (.type ch) = some e' →
    e.Edited e' e.offset 0 [ch]
  enter : ∀ e', Edit.step c e (.key .enter) = some e' → e.Edited e' e.offset 0 [10]
  delete : ∀ e', Edit.step c e (.key .delete) = some e' → e.Edited e' e.offset (e.sizeAt c) []
  sizeAt : e.offset < e.content.length → 0 < e.sizeAt c
  backspace : ∀ e', Edit.step c e (.key .backspace) = some e' → e.Erased c e'
  sizeBefore : 0 < e.offset → 0 < e.sizeBefore c
  move : ∀ k, EditKey.isMove k = true → ∀ e', Edit.step c e (.key k) = some e' →
    e'.content = e.content
  rewrap : ∀ p ∈ e.document,
    ({ e with heap := e.heap.reflow e.heap.fresh p }).content = e.content
  width : ∀ ln ∈ e.heap.lines e.document,
    ln.text.length ≤ MAXLINELEN ∧ measureWidth ln.text ≤ MAXLINELEN

theorem charAt_pos {enabledbchar : Bool} {col : Nat} {cur : TextLine} {after : List TextLine}
    (hsolid : Solid (cur :: after)) (hcol : col ≤ cur.text.length)
    (hlt : col < (textOf (cur :: after)).length) : 0 < charAt enabledbchar col (cur :: after) := by
  rw [charAt]
  split
  · exact charSize_pos
  · split
    · exact Nat.one_pos
    · next hend hbr =>
        rw [textOf_cons, TextLine.bytes_open (Bool.eq_false_iff.mpr hbr), List.length_append] at hlt
        cases after with
        | nil =>
            have hzero : (textOf []).length = 0 := rfl
            omega
        | cons next rest =>
            rw [charAt]
            split
            · exact charSize_pos
            · split
              · exact Nat.one_pos
              · next hempty hopen =>
                  have htext : next.text = [] :=
                    List.length_eq_zero_iff.mp (Nat.eq_zero_of_not_pos hempty)
                  have hopen' := Bool.eq_false_iff.mpr hopen
                  have hrest : rest = [] := by
                    by_contra hne
                    exact hsolid.2.1 hopen' hne htext
                  rw [hrest, textOf_cons, TextLine.bytes_open hopen', htext] at hlt
                  have hzero : ([] ++ textOf []).length = 0 := rfl
                  omega

/-- A character is at the cursor, unless it is at the end of the text. -/
theorem Typing.sizeAt_pos (ht : e.Typing) (hlt : e.offset < e.content.length) :
    0 < e.sizeAt c := by
  obtain ⟨before, cur, after, hs, hin, -, hgood⟩ := ht.shows
  obtain ⟨hcol, hend⟩ := hs.col_le hin
  obtain ⟨hcontent, -, hoffset, hfrom⟩ := hs.content_eq
  rw [hcontent, hoffset, List.length_append] at hlt
  unfold sizeAt
  rw [hfrom]
  exact charAt_pos hgood.back.2 (by omega) (by omega)

/-- `reflow` changes no byte of the text. -/
theorem On.content_reflow (hon : e.On ids) {p : Nat} (hp : p ∈ ids) :
    ({ e with heap := e.heap.reflow e.heap.fresh p }).content = e.content := by
  obtain ⟨l₁, l₂, rfl⟩ := List.append_of_mem hp
  have hfuel : l₂.length < e.heap.fresh := by
    have hlen := hon.doc.length_lt
    rw [List.length_append, List.length_cons] at hlen
    omega
  obtain ⟨l₂', hd, hfront, hrewrap, -⟩ :=
    LineHeap.reflow_spec e.heap.fresh hon.doc hfuel (Or.inl trivial : True ∨ _)
  have hfirst : (l₁ ++ p :: l₂').headD 0 = e.firstline := by
    rw [← hon.headD_eq, Dll.headD_append_cons, Dll.headD_append_cons]
  have hdocument : ({ e with heap := e.heap.reflow e.heap.fresh p }).document = l₁ ++ p :: l₂' := by
    have hwalk := @LineHeap.Doc.walk_eq _ [] (l₁ ++ p :: l₂') _ hd hd.length_lt
    rwa [hfirst] at hwalk
  unfold content
  rw [hdocument, hon.document_eq]
  show textOf ((e.heap.reflow e.heap.fresh p).lines (l₁ ++ p :: l₂')) = _
  rw [LineHeap.lines_append, LineHeap.lines_append, textOf_append, textOf_append, hfront,
    hrewrap.textOf_eq]

/-- **The keys change the text** where the cursor is. -/
theorem Typing.textKept (ht : e.Typing) : TextKept c e := by
  have hdrawn := ht.redraw (c := c)
  obtain ⟨n, hn⟩ := redraw_eq c e
  rw [hn] at hdrawn
  have hafter {cmd : EditCmd} {e' : Edit} (hstep : Edit.step c e cmd = some e') :
      e' = Edit.doCmd c { e with linecur := n } cmd := by
    rw [Edit.step, hn] at hstep
    exact (Option.some.inj hstep).symm
  refine ⟨?_, ?_, ?_, ht.sizeAt_pos, ?_, sizeBefore_pos ht, ?_, ?_, ?_⟩
  · intro ch hch e' hstep
    rw [hafter hstep]
    exact (hdrawn.insertChar hch).2.congr rfl rfl rfl
  · intro e' hstep
    rw [hafter hstep]
    exact hdrawn.keyEnter.2.congr rfl rfl rfl
  · intro e' hstep
    rw [hafter hstep]
    exact hdrawn.keyDel.2.congr rfl rfl rfl
  · intro e' hstep
    rw [hafter hstep]
    obtain ⟨-, size, hle, hwhole, hedited⟩ := hdrawn.backspace (c := c)
    exact ⟨size, hle, hwhole, hedited.congr rfl rfl rfl⟩
  · intro k hk e' hstep
    rw [hafter hstep]
    exact (hdrawn.move hk).2
  · intro p hp
    obtain ⟨ids, hon, -⟩ := ht
    rw [hon.document_eq] at hp
    exact hon.content_reflow hp
  · intro ln hln
    obtain ⟨ids, hon, -, -, -, hfits, -⟩ := ht
    rw [hon.document_eq] at hln
    have hwidth := (hfits ln hln).width
    exact ⟨Nat.le_trans (length_le_measureWidth ln.text) hwidth, hwidth⟩

/-! ## Files that were read -/

/-- The lines of a page fit, and only the last may be empty. -/
def GoodPage (q : Page) : Prop :=
  (∀ ln ∈ q.lines, ln.Fits ∧ (ln.br = false → ln.text ≠ [])) ∧ TextLine.Fits ⟨q.text, false⟩

theorem readLoop_good {o : OriginConf} (fuel : Nat) {q : Page} (hq : GoodPage q)
    (ptr : List UInt8) : GoodPage (readLoop o fuel q ptr) := by
  have hempty : TextLine.Fits ⟨[], false⟩ := ⟨Nat.zero_le _, fun _ hch => absurd hch List.not_mem_nil⟩
  induction fuel generalizing q ptr with
  | zero => exact hq
  | succ fuel ih =>
      cases ptr with
      | nil => exact hq
      | cons ch ptr =>
          obtain ⟨hlines, htext⟩ := id hq
          rw [readLoop]
          split
          · exact ih hq ptr
          · split
            · refine ih ?_ ptr
              unfold Page.newline
              split
              · exact ⟨hlines, hempty⟩
              · refine ⟨?_, hempty⟩
                rw [List.forall_mem_append, List.forall_mem_singleton]
                exact ⟨hlines, htext.part (List.Subset.refl _) (Nat.le_refl _),
                  fun hbr => Bool.noConfusion hbr⟩
            · refine ih ⟨?_, width_take_measureLine _, measureLine_noNewline _ _ _⟩ _
              unfold Page.piece
              dsimp only
              split
              · next hne =>
                  rw [List.forall_mem_append, List.forall_mem_singleton]
                  exact ⟨hlines, htext, fun _ => hne⟩
              · exact hlines

theorem openEdit_typing (o : OriginConf) (file : List UInt8) : (openEdit o file).1.Typing := by
  obtain ⟨hlines, htext⟩ := @readLoop_good o file.length Page.empty
    ⟨fun _ hln => absurd hln List.not_mem_nil, Nat.zero_le _,
      fun _ hch => absurd hch List.not_mem_nil⟩ file
  obtain ⟨ids, hon, hin, hinsert, hselected, hread⟩ := openEdit_spec o file
  refine ⟨ids, hon, hin, hinsert, hselected, ?_⟩
  rw [hread]
  refine ⟨?_, solid_append.mpr ⟨fun ln hln => (hlines ln hln).2, ?_, trivial⟩⟩
  · rw [List.forall_mem_append, List.forall_mem_singleton]
    exact ⟨fun ln hln => (hlines ln hln).1, htext⟩
  · exact fun _ hne => absurd rfl hne

end keys

end Edit

end Ytht
