import Ytht.Nju09.Ubb

/-!
# Nju09.Bbsedit

Editing an article on the web: the form holds what `ansi2ubb` makes of its lines, and what comes
back is stored by `ubb2ansi`.

A text that reads as a tag becomes an escape sequence on the way.
-/

namespace Ytht.Ubb

open Feed Marks

/-! ## Editing without a change -/

/-- The text of an article without attachments. -/
structure ArticleText where
  bytes : List UInt8
  nz : 0 ∉ bytes
  short : ∀ line ∈ bytes.splitOn 10, line.length < 499

/-- What the form holds: `ansi2ubb` on the lines that `fgets` reads. -/
def formText (text : ArticleText) : List UInt8 :=
  decode (through ansi2ubb .start (fgetsLines 499 499 text.bytes)).1

/-- What is stored when the form comes back as it is. -/
def storedText (text : ArticleText) : List UInt8 := ubb2ansi (formText text)

/-- The characters of a text that are in no escape sequence, with their fonts. -/
def shownIn (bf : Bbsfont) : List (List UInt8 ⊕ UInt8) → List (UInt8 × Bbsfont)
  | [] => []
  | .inl codes :: ps => shownIn (ansifont codes bf) ps
  | .inr c :: ps => (c, bf) :: shownIn bf ps

/-- What readers see. -/
def shown (s : List UInt8) : List (UInt8 × Bbsfont) := shownIn .plain (escapes.scan () s)

/-! ## Texts that come back -/

/-- An escape sequence or a character outside them. -/
abbrev Item := List UInt8 ⊕ UInt8

/-- Whether the tags are on behind an escape sequence. -/
def modeAfter (on : Bool) (codes : List UInt8) : Bool :=
  if on then (strtoks [59] codes).all (atoi · ≠ 999) else codes = ascii "998"

/-- The items of a text, each with whether the tags are on in front of it. -/
def modes : Bool → List Item → List (Bool × Item)
  | _, [] => []
  | on, .inl codes :: ps => (on, .inl codes) :: modes (modeAfter on codes) ps
  | on, .inr c :: ps => (on, .inr c) :: modes on ps

/-- A sequence for which there is no tag, while the tags are on. -/
def silent : Bool × Item → Bool
  | (true, .inl codes) => codes ≠ [] && (strtoks [59] codes).all (!tagged ·)
  | _ => false

/-- The items of a text without the silent ones. -/
def kept (on : Bool) (ps : List Item) : List (Bool × Item) :=
  (modes on ps).filter (!silent ·)

/-- No character of the text begins a tag. -/
def tagless : List (Bool × Item) → Bool
  | [] => true
  | (_, .inl _) :: ps => tagless ps
  | (on, .inr c) :: ps => readTag on (c :: escapes.write (ps.map Prod.snd)) = none && tagless ps

/-- The codes of a sequence are written as the tables have them, and those behind 999 have no
tags. -/
def WellWritten (codes : List UInt8) : Prop :=
  (strtoks [59] codes = [] → codes = []) ∧
    (∀ tmp ∈ strtoks [59] codes, Spelt tmp) ∧
    (strtoks [59] codes).Pairwise fun tmp tmp' => atoi tmp = 999 → tagged tmp' = false

instance (codes : List UInt8) : Decidable (WellWritten codes) :=
  inferInstanceAs (Decidable (_ ∧ (∀ tmp ∈ strtoks [59] codes, ∀ row ∈ ubb2.drop ubbBeginOther,
    atoi tmp = atoi row.ansi → tmp = row.ansi) ∧ _))

/-- Nothing in the text is mistaken for a tag or an escape sequence on its way. -/
structure Tame (on : Bool) (ps : List Item) : Prop where
  wellWritten : ∀ codes, (true, .inl codes) ∈ modes on ps → WellWritten codes
  apart : escapes.scan () (escapes.write ((kept on ps).map Prod.snd)) = (kept on ps).map Prod.snd
  tagless : tagless (kept on ps) = true

/-! ## Item by item -/

/-- `useubb`, `highlight` and `underline` behind an item. -/
def nextState (u : Ubbstate) : Item → Ubbstate
  | .inl codes =>
      if !u.useubb then if codes = ascii "998" then { u with useubb := true } else u
      else (putSequence u codes).2
  | .inr _ => u

/-- The words for the items of a text, each with the state in front of it. -/
def translate {β : Type} (f : Ubbstate → Item → List β) (u : Ubbstate) (ps : List Item) :
    List β × Ubbstate := through (fun u p => (f u p, nextState u p)) u ps

theorem translate_cons {β : Type} (f : Ubbstate → Item → List β) (u : Ubbstate) (p : Item)
    (ps : List Item) : translate f u (p :: ps) =
      (f u p ++ (translate f (nextState u p) ps).1, (translate f (nextState u p) ps).2) := rfl

/-- What `ansi2ubb` writes for an item. -/
def formBytes (u : Ubbstate) : Item → List UInt8
  | .inl codes =>
      if !u.useubb then if codes = ascii "998" then ascii "[ubb on]" else esc codes
      else (putSequence u codes).1.flatten
  | .inr c => encode [c]

theorem translate_plain {w : List UInt8} (h : ∀ c ∈ w, c ≠ 60 ∧ c ≠ 62 ∧ c ≠ 38) (u : Ubbstate)
    (ps : List Item) : translate formBytes u (w.map .inr ++ ps) =
      fputs w (translate formBytes u ps) := by
  induction w with
  | nil => rfl
  | cons c w ih =>
      rw [List.forall_mem_cons] at h
      rw [List.map_cons, List.cons_append, translate_cons, nextState, ih h.2, formBytes,
        encode_plain (by simpa using h.1)]
      rfl

/-- `ansi2ubb` writes the items of a text one by one. -/
theorem ansi2ubb_eq (u : Ubbstate) (s : List UInt8) :
    ansi2ubb u s = translate formBytes u (escapes.scan () s) := by
  fun_induction ansi2ubb u s with
  | case1 u =>
      rw [Reader.scan]
      rfl
  | case2 u s ih =>
      rw [scan_notEsc (by decide), translate_cons, ih]
      rfl
  | case3 u s hlt ih =>
      rw [scan_notEsc (by decide), translate_cons, ih]
      rfl
  | case4 u s hlt hgt ih =>
      rw [scan_notEsc (by decide), translate_cons, ih]
      rfl
  | case5 u s hcodes _ _ _ ih =>
      have hread : escapes.reads () (27 :: s) = none := hcodes
      rw [Reader.scan_char hread, translate_cons, ih]
      rfl
  | case6 u s hoff _ _ _ hcodes ih =>
      rw [(scan_esc hcodes).1, translate_cons, ih, formBytes, nextState, if_pos hoff, if_pos rfl,
        if_pos hoff, if_pos rfl]
      rfl
  | case7 u s codes hcodes hoff h998 _ _ _ ih =>
      obtain ⟨hscan, hs, hcode⟩ := scan_esc hcodes
      have hplain := esc_tail_plain hcode
      rw [hscan, translate_cons, formBytes, nextState, if_pos hoff, if_neg h998, if_pos hoff,
        if_neg h998, ih]
      -- the characters behind the ESC are written one by one
      have hchars : escapes.scan () s =
          (esc codes).tail.map .inr ++ escapes.scan () (s.drop (codes.length + 2)) := by
        conv_lhs => rw [hs]
        refine Reader.scan_chars ?_ _
        intro c hc t
        exact if_neg (by simpa using (hplain c hc).1)
      rw [hchars, translate_plain fun c hc => (hplain c hc).2]
      rfl
  | case8 u s codes hcodes hon out u' hput _ _ _ ih =>
      rw [(scan_esc hcodes).1, translate_cons, formBytes, nextState, if_neg hon, if_neg hon, hput,
        ih]
      rfl
  | case9 u ch s hlt hgt hamp hesc ih =>
      rw [scan_notEsc hesc, translate_cons, ih, formBytes, encode_singleton, if_neg hlt, if_neg hgt,
        if_neg hamp]
      rfl

theorem newline_notMem_esc (u : Unit) (codes : List UInt8) (h : escapes.allowed u codes) :
    10 ∉ escapes.word codes := by
  intro hmem
  simp only [escapes, esc, List.mem_cons, List.mem_append, List.not_mem_nil, or_false] at hmem
  rcases hmem with h27 | h91 | hcode | h109
  · contradiction
  · contradiction
  · exact absurd (h.2 10 hcode) (by decide)
  · contradiction

/-- What one line of a text is does not depend on the lines around it. -/
theorem scan_line (line rest : List UInt8) : escapes.scan () (line ++ 10 :: rest) =
    escapes.scan () (line ++ [10]) ++ escapes.scan () rest := by
  rw [Reader.scan_append_char newline_notMem_esc, Reader.scan_append_char newline_notMem_esc,
    List.append_assoc, Reader.scan]
  rfl

/-- The form of a text is written item by item, whatever the lines are. -/
theorem through_ansi2ubb {s : List UInt8} (h : ∀ line ∈ s.splitOn 10, line.length < 499)
    (u : Ubbstate) : through ansi2ubb u (fgetsLines 499 499 s) =
      translate formBytes u (escapes.scan () s) := by
  induction hn : s.length using Nat.strong_induction_on generalizing s u with
  | _ n ih =>
    by_cases hmem : 10 ∈ s
    · obtain ⟨line, rest, rfl, hline⟩ := List.eq_append_cons_of_mem hmem
      rw [List.splitOn_append_cons_self_of_not_mem hline, List.forall_mem_cons] at h
      have hrest : rest.length < n := by
        rw [List.length_append, List.length_cons] at hn
        omega
      rw [fgetsLines_line h.1 hline, through_cons, ansi2ubb_eq, ih rest.length hrest h.2 _ rfl,
        scan_line line rest]
      exact (through_append _ _).symm
    · rw [List.splitOn_eq_singleton hmem, List.forall_mem_singleton] at h
      cases s with
      | nil =>
          rw [Reader.scan]
          rfl
      | cons c s =>
          rw [fgetsLines_last h hmem (List.cons_ne_nil c s), through_cons, ansi2ubb_eq,
            through_nil, List.append_nil]

/-! ## Modes -/

theorem putSequence_nil_iff (u : Ubbstate) (codes : List UInt8) :
    (putSequence u codes).1 = [] ↔ silent (true, .inl codes) = true := by
  rw [putSequence_eq, silent, Bool.and_eq_true, decide_eq_true_eq]
  split_ifs with h
  · exact iff_of_false (putReset_ne_nil u) fun hsilent => hsilent.1 h
  · rw [through_nil_iff, and_iff_right h]

theorem useubb_putSequence {u : Ubbstate} (codes : List UInt8) (hon : u.useubb = true) :
    (putSequence u codes).2.useubb = modeAfter true codes := by
  rw [putSequence_eq, modeAfter, if_pos rfl]
  split_ifs with h
  · subst h
    exact hon
  · rw [useubb_through, hon, Bool.true_and]

/-- The mode behind an item. -/
def modeBehind (on : Bool) : Item → Bool
  | .inl codes => modeAfter on codes
  | .inr _ => on

theorem modes_cons (on : Bool) (p : Item) (ps : List Item) :
    modes on (p :: ps) = (on, p) :: modes (modeBehind on p) ps := by
  cases p <;> rfl

theorem useubb_nextState (u : Ubbstate) (p : Item) :
    (nextState u p).useubb = modeBehind u.useubb p := by
  cases p with
  | inr c => rfl
  | inl codes =>
      rw [nextState, modeBehind]
      cases hon : u.useubb with
      | false =>
          simp only [Bool.not_false, if_true, modeAfter, Bool.false_eq_true, if_false]
          split_ifs with h
          · simp [h]
          · simp [h, hon]
      | true =>
          simp only [Bool.not_true, Bool.false_eq_true, if_false]
          exact useubb_putSequence codes hon

/-! ## The form and what is stored, piece by piece -/

/-- What the form holds for an item, in tags and characters. -/
def formPieces (u : Ubbstate) : Item → List (Ubb2Ansi ⊕ UInt8)
  | .inl codes =>
      if !u.useubb then if codes = ascii "998" then [.inl endNoubb] else (esc codes).map .inr
      else (putSequence u codes).1.map fun str => .inl (rowOf str)
  | .inr c => [.inr c]

/-- What is stored for an item, in sequences and characters. -/
def storedPieces (u : Ubbstate) : Item → List Item
  | .inl codes =>
      if !u.useubb then [.inl codes]
      else (putSequence u codes).1.map fun str => .inl (codesOf (rowOf str))
  | .inr c => [.inr c]

/-- The sequences among the items are ones. -/
def Scanned (ps : List Item) : Prop := ∀ codes, .inl codes ∈ ps → escapes.allowed () codes

theorem scanned_scan (s : List UInt8) : Scanned (escapes.scan () s) := by
  intro codes hmem
  obtain ⟨_, hallowed⟩ := (escapes.write_scan () s).2.allowed hmem
  exact hallowed

theorem Scanned.tail {p : Item} {ps : List Item} (h : Scanned (p :: ps)) : Scanned ps :=
  fun codes hmem => h codes (List.mem_cons_of_mem p hmem)

theorem tag_plain : ∀ row ∈ ubb, ∀ c ∈ tag row, c ≠ 60 ∧ c ≠ 62 ∧ c ≠ 38 := by decide +kernel

/-- Tags are written as they are. -/
theorem write_tags {strs : List (List UInt8)} (h : ∀ str ∈ strs, IsTag str) :
    encode (tags.write (strs.map fun str => .inl (rowOf str))) = strs.flatten := by
  induction strs with
  | nil => rfl
  | cons str strs ih =>
      rw [List.forall_mem_cons] at h
      obtain ⟨⟨hrow, htag⟩, hstrs⟩ := h
      have hword : tags.word (rowOf str) = str := htag
      rw [List.map_cons, Reader.write_mark, encode_append, ih hstrs, hword, List.flatten_cons,
        encode_plain (htag ▸ tag_plain (rowOf str) hrow)]

theorem formBytes_eq (u : Ubbstate) {p : Item} (hp : Scanned [p]) :
    formBytes u p = encode (tags.write (formPieces u p)) := by
  cases p with
  | inr c => rfl
  | inl codes =>
      have hcodes := hp codes List.mem_cons_self
      rw [formBytes, formPieces]
      split_ifs with hoff h998
      · rfl
      · rw [Reader.write_chars, encode_plain]
        intro c hc
        rcases List.mem_cons.mp hc with rfl | htail
        · decide
        · exact (esc_tail_plain hcodes.2 c htail).2
      · exact (write_tags (isTag_putSequence u codes)).symm

/-- The form of a text in tags and characters. -/
theorem translate_formBytes {ps : List Item} (hps : Scanned ps) (u : Ubbstate) :
    (translate formBytes u ps).1 = encode (tags.write (translate formPieces u ps).1) := by
  induction ps generalizing u with
  | nil => rfl
  | cons p ps ih =>
      have hp : Scanned [p] := by
        intro codes hmem
        exact hps codes (List.mem_singleton.mp hmem ▸ List.mem_cons_self)
      rw [translate_cons, translate_cons, Reader.write_append, encode_append, formBytes_eq u hp,
        ih hps.tail]

theorem formText_eq (text : ArticleText) : formText text =
    tags.write (translate formPieces .start (escapes.scan () text.bytes)).1 := by
  rw [formText, through_ansi2ubb text.short, translate_formBytes (scanned_scan text.bytes),
    decode_encode]

theorem flatMap_ansi {strs : List (List UInt8)} (h : ∀ str ∈ strs, IsTag str) :
    (strs.map fun str => .inl (rowOf str)).flatMap (Sum.elim Ubb2Ansi.ansi fun c => [c]) =
      escapes.write (strs.map fun str => .inl (codesOf (rowOf str))) := by
  induction strs with
  | nil => rfl
  | cons str strs ih =>
      rw [List.forall_mem_cons] at h
      rw [List.map_cons, List.map_cons, List.flatMap_cons, Reader.write_mark, ih h.2]
      exact congrArg (· ++ _) (ansi_eq _ h.1.1)

/-- The sequences of the tags are those of the stored pieces. -/
theorem write_storedPieces {ps : List Item} (u : Ubbstate) :
    (translate formPieces u ps).1.flatMap (Sum.elim Ubb2Ansi.ansi fun c => [c]) =
      escapes.write (translate storedPieces u ps).1 := by
  induction ps generalizing u with
  | nil => rfl
  | cons p ps ih =>
      rw [translate_cons, translate_cons, List.flatMap_append, Reader.write_append, ih]
      congr 1
      cases p with
      | inr c => rfl
      | inl codes =>
          rw [formPieces, storedPieces]
          split_ifs with hoff h998
          · rw [h998]
            rfl
          · rw [List.flatMap_map, Reader.write_mark, Reader.write_nil, List.append_nil]
            exact List.flatMap_singleton' _
          · exact flatMap_ansi (isTag_putSequence u codes)

/-! ## No mark is made by accident -/

theorem kept_cons (on : Bool) (p : Item) (ps : List Item) : kept on (p :: ps) =
    if silent (on, p) then kept (modeBehind on p) ps else (on, p) :: kept (modeBehind on p) ps := by
  rw [kept, modes_cons, List.filter_cons]
  cases silent (on, p) <;> rfl

/-- While the tags are on, a sequence has tags unless it is silent. -/
theorem putSequence_cons {u : Ubbstate} {codes : List UInt8}
    (h : silent (true, .inl codes) = false) : ∃ str strs, (putSequence u codes).1 = str :: strs := by
  cases hout : (putSequence u codes).1 with
  | nil =>
      rw [(putSequence_nil_iff u codes).mp hout] at h
      contradiction
  | cons str strs => exact ⟨str, strs, rfl⟩

/-- Up to the first letter of a mark the pieces read like the items that are kept. -/
theorem takeWhile_translate {σ μ : Type} (r : Reader σ μ UInt8) {p : UInt8 → Bool}
    {f : Ubbstate → Item → List (μ ⊕ UInt8)} {g : List UInt8 → μ} (h27 : p 27 = false)
    (hword : ∀ m, ∃ d t, r.word m = d :: t ∧ p d = false)
    (hchar : ∀ u c, f u (.inr c) = [.inr c])
    (hon : ∀ u codes, u.useubb = true →
      f u (.inl codes) = (putSequence u codes).1.map fun str => .inl (g str))
    (hoff : ∀ u codes, u.useubb = false → ∃ d t, r.write (f u (.inl codes)) = d :: t ∧ p d = false)
    (u : Ubbstate) (ps : List Item) : (r.write (translate f u ps).1).takeWhile p =
      (escapes.write ((kept u.useubb ps).map Prod.snd)).takeWhile p := by
  induction ps generalizing u with
  | nil => rfl
  | cons q ps ih =>
      rw [translate_cons, kept_cons, Reader.write_append, ← useubb_nextState]
      cases q with
      | inr c =>
          have hnot : silent (u.useubb, .inr c) = false := by cases u.useubb <;> rfl
          rw [hchar, hnot, if_neg Bool.false_ne_true, List.map_cons, Reader.write_char,
            Reader.write_char, Reader.write_nil, List.singleton_append, List.takeWhile_cons,
            List.takeWhile_cons, ih]
      | inl codes =>
          by_cases hsilent : silent (u.useubb, .inl codes) = true
          · have huse : u.useubb = true := by
              cases huse : u.useubb with
              | true => rfl
              | false =>
                  rw [huse] at hsilent
                  contradiction
            rw [if_pos hsilent]
            rw [huse] at hsilent
            rw [hon u codes huse, (putSequence_nil_iff u codes).mpr hsilent, List.map_nil,
              Reader.write_nil, List.nil_append, ih]
          · -- both texts end here
            have hfirst : ∃ d t, r.write (f u (.inl codes)) = d :: t ∧ p d = false := by
              cases huse : u.useubb with
              | false => exact hoff u codes huse
              | true =>
                  rw [huse, Bool.not_eq_true] at hsilent
                  obtain ⟨str, strs, hout⟩ := putSequence_cons (u := u) hsilent
                  obtain ⟨d, t, hd, hp⟩ := hword (g str)
                  rw [hon u codes huse, hout, List.map_cons, Reader.write_mark, hd]
                  exact ⟨d, _, rfl, hp⟩
            obtain ⟨d, t, hwrite, hd⟩ := hfirst
            have hesc : escapes.word codes = 27 :: (esc codes).tail := rfl
            rw [if_neg hsilent, hwrite, List.map_cons, Reader.write_mark, hesc, List.cons_append,
              List.cons_append, List.takeWhile_cons, List.takeWhile_cons, hd, h27]
            rfl

/-- The letters that begin a tag or a sequence. -/
def begins (c : UInt8) : Bool := c == 91 || c == 27

theorem takeWhile_formPieces (u : Ubbstate) (ps : List Item) :
    (tags.write (translate formPieces u ps).1).takeWhile (!begins ·) =
      (escapes.write ((kept u.useubb ps).map Prod.snd)).takeWhile (!begins ·) := by
  refine takeWhile_translate tags (g := rowOf) rfl (fun row => ⟨91, _, rfl, rfl⟩) (fun _ _ => rfl)
    ?_ ?_ u ps
  · intro u codes hon
    rw [formPieces, hon]
    rfl
  · intro u codes hoff
    rw [formPieces, hoff]
    simp only [Bool.not_false, if_true]
    split_ifs
    · exact ⟨91, _, rfl, rfl⟩
    · exact ⟨27, _, rfl, rfl⟩

theorem takeWhile_storedPieces (u : Ubbstate) (ps : List Item) :
    (escapes.write (translate storedPieces u ps).1).takeWhile (· != 27) =
      (escapes.write ((kept u.useubb ps).map Prod.snd)).takeWhile (· != 27) := by
  refine takeWhile_translate escapes (g := fun str => codesOf (rowOf str)) rfl
    (fun codes => ⟨27, _, rfl, rfl⟩) (fun _ _ => rfl) ?_ ?_ u ps
  · intro u codes hon
    rw [storedPieces, hon]
    rfl
  · intro u codes hoff
    rw [storedPieces, hoff]
    exact ⟨27, _, rfl, rfl⟩

/-! ## The form is read as it was written -/

theorem known_tail : ∀ row ∈ ubb, ∀ c ∈ (tag row).tail, (!begins c) = true := by decide +kernel

theorem next_tags (on : Bool) (row : Ubb2Ansi) : tags.next on row = decide (row ≠ beginNoubb) := rfl

theorem noubb_iff : ∀ row ∈ ubb, row = beginNoubb ↔ numbers (codesOf row) = [999] := by
  decide +kernel

/-- A tag turns the tags off when its code is 999. -/
theorem tagOf_noubb {n : Int} {str : List UInt8} (h : TagOf n str) :
    rowOf str = beginNoubb ↔ n = 999 := by
  rw [noubb_iff _ h.1.1, h.2, List.cons.injEq, eq_self, and_true]

theorem putCode_noubb (u : Ubbstate) {tmp : List UInt8} (h : atoi tmp = 999) :
    (putCode u tmp).1 ≠ [] := by simp [putCode, h]

theorem readTag_of_ne {c : UInt8} (hc : c ≠ 91) (on : Bool) (s : List UInt8) :
    tags.reads on (c :: s) = none := if_neg (by simpa using hc)

/-- Tags that leave the mode are read as they were written. -/
theorem clean_tags {strs : List (List UInt8)}
    (h : ∀ str ∈ strs, IsTag str ∧ rowOf str ≠ beginNoubb) {ps : List (Ubb2Ansi ⊕ UInt8)}
    (hps : tags.Clean true ps) : tags.Clean true ((strs.map fun str => .inl (rowOf str)) ++ ps) := by
  induction strs with
  | nil => exact hps
  | cons str strs ih =>
      rw [List.forall_mem_cons] at h
      obtain ⟨⟨htag, hne⟩, hstrs⟩ := h
      have hnext : tags.next true (rowOf str) = true := decide_eq_true hne
      exact ⟨htag.1, hnext ▸ ih hstrs⟩

theorem putReset_mode (u : Ubbstate) :
    ∀ str ∈ (putReset u).1, IsTag str ∧ rowOf str ≠ beginNoubb := by
  intro str hstr
  obtain ⟨htag, hcodes⟩ := putReset_tags u str hstr
  refine ⟨htag, ?_⟩
  rw [Ne, noubb_iff _ htag.1, hcodes]
  decide

/-- The tags of a sequence are read as they were written. -/
theorem clean_through {toks : List (List UInt8)}
    (h : toks.Pairwise fun tmp tmp' => atoi tmp = 999 → tagged tmp' = false) (u : Ubbstate)
    {ps : List (Ubb2Ansi ⊕ UInt8)} (hps : tags.Clean (toks.all (atoi · ≠ 999)) ps) :
    tags.Clean true (((through putCode u toks).1.map fun str => .inl (rowOf str)) ++ ps) := by
  induction toks generalizing u with
  | nil => exact hps
  | cons tmp toks ih =>
      rw [List.pairwise_cons] at h
      rw [List.all_cons] at hps
      rw [through_cons, List.map_append, List.append_assoc]
      by_cases h999 : atoi tmp = 999
      · -- the tag for 999 is the last one
        have hnil : ∀ u, (through putCode u toks).1 = [] := by
          intro u
          rw [through_nil_iff, List.all_eq_true]
          intro tmp' htmp'
          rw [h.1 tmp' htmp' h999]
          rfl
        obtain ⟨str, hout, htag⟩ | ⟨h0, -⟩ | ⟨hout, -⟩ := putCode_cases u tmp
        · have hnext : tags.next true (rowOf str) = false :=
            decide_eq_false (not_not.mpr ((tagOf_noubb htag).mpr h999))
          rw [decide_eq_false (not_not.mpr h999), Bool.false_and] at hps
          rw [hout, hnil]
          exact ⟨htag.1.1, hnext ▸ hps⟩
        · omega
        · exact absurd hout (putCode_noubb u h999)
      · rw [decide_eq_true h999, Bool.true_and] at hps
        refine clean_tags ?_ (ih h.2 _ hps)
        obtain ⟨str, hout, htag⟩ | ⟨-, hout⟩ | ⟨hout, -⟩ := putCode_cases u tmp
        · rw [hout, List.forall_mem_singleton]
          exact ⟨htag.1, mt (tagOf_noubb htag).mp h999⟩
        · rw [hout]
          exact putReset_mode u
        · rw [hout]
          simp

theorem clean_putSequence {codes : List UInt8} (h : WellWritten codes) (u : Ubbstate)
    {ps : List (Ubb2Ansi ⊕ UInt8)} (hps : tags.Clean (modeAfter true codes) ps) :
    tags.Clean true (((putSequence u codes).1.map fun str => .inl (rowOf str)) ++ ps) := by
  rw [modeAfter, if_pos rfl] at hps
  rw [putSequence_eq]
  split_ifs with hnil
  · subst hnil
    exact clean_tags (putReset_mode u) hps
  · exact clean_through h.2.2 u hps

/-- While the tags are off a sequence is text. -/
theorem clean_off {codes : List UInt8} (h : ∀ c ∈ codes, isCode c = true)
    {ps : List (Ubb2Ansi ⊕ UInt8)} (hps : tags.Clean false ps) :
    tags.Clean false ((esc codes).map .inr ++ ps) := by
  have hplain : ∀ c ∈ codes ++ [109], c ≠ 91 ∧ c ≠ 117 := by
    intro c hc
    rcases List.mem_append.mp hc with hcode | hm
    · obtain ⟨-, hhi⟩ := isCode_range (h c hcode)
      constructor <;> rintro rfl <;> exact absurd hhi (by decide)
    · rw [List.mem_singleton.mp hm]
      decide
  have hrest : tags.Clean false ((codes ++ [109]).map .inr ++ ps) :=
    Reader.Clean.chars (fun c hc => readTag_of_ne (hplain c hc).1 false) hps
  refine ⟨readTag_of_ne (by decide) false _, ?_, hrest⟩
  rw [Option.eq_none_iff_forall_ne_some]
  intro row hrow
  obtain ⟨hknown, hbegin⟩ := (tags.reads_iff _ _ row).mp hrow
  obtain rfl : row = endNoubb := hknown
  have hword : tags.word endNoubb = 91 :: 117 :: (tag endNoubb).drop 2 := rfl
  rw [hword, List.cons_prefix_cons] at hbegin
  cases hcodes : codes ++ [109] with
  | nil => simp at hcodes
  | cons c s =>
      have hlist : ((codes ++ [109]).map (Sum.inr : UInt8 → Ubb2Ansi ⊕ UInt8)).append ps =
          .inr c :: (s.map .inr ++ ps) := by
        rw [hcodes]
        rfl
      rw [hlist, Reader.write_char, List.cons_prefix_cons] at hbegin
      exact (hplain c (hcodes ▸ List.mem_cons_self)).2 hbegin.2.1.symm

/-- **What `ubb2ansi` reads in the form is what `ansi2ubb` wrote into it.** -/
theorem clean_formPieces {ps : List Item} (hps : Scanned ps) (u : Ubbstate)
    (hwell : ∀ codes, (true, .inl codes) ∈ modes u.useubb ps → WellWritten codes)
    (hless : tagless (kept u.useubb ps) = true) :
    tags.Clean u.useubb (translate formPieces u ps).1 := by
  induction ps generalizing u with
  | nil => trivial
  | cons p ps ih =>
      rw [modes_cons] at hwell
      rw [kept_cons] at hless
      rw [translate_cons]
      have hrest : tagless (kept (modeBehind u.useubb p) ps) = true →
          tags.Clean (modeBehind u.useubb p) (translate formPieces (nextState u p) ps).1 := by
        intro h
        rw [← useubb_nextState] at h ⊢
        refine ih hps.tail _ (fun codes hmem => hwell codes (List.mem_cons_of_mem _ ?_)) h
        rwa [← useubb_nextState]
      cases p with
      | inr c =>
          have hnot : silent (u.useubb, .inr c) = false := by cases u.useubb <;> rfl
          rw [hnot, if_neg Bool.false_ne_true, tagless, Bool.and_eq_true, decide_eq_true_eq] at hless
          refine ⟨?_, hrest hless.2⟩
          rw [← hless.1]
          refine Reader.reads_congr (r := tags) (p := (!begins ·)) ?_ ?_
          · exact fun row hknown => known_tail row (known_mem hknown)
          · exact takeWhile_formPieces u ps
      | inl codes =>
          have hless' : tagless (kept (modeBehind u.useubb (.inl codes)) ps) = true := by
            split_ifs at hless
            · exact hless
            · exact hless
          cases hon : u.useubb with
          | true =>
              rw [formPieces, hon]
              rw [hon] at hrest hless' hwell
              exact clean_putSequence (hwell codes List.mem_cons_self) u (hrest hless')
          | false =>
              rw [hon] at hrest hless'
              rw [formPieces, hon]
              simp only [Bool.not_false, if_true]
              split_ifs with h998
              · have hmode : modeBehind false (.inl codes) = true := by
                  simp [modeBehind, modeAfter, h998]
                rw [hmode] at hrest hless'
                exact ⟨rfl, hrest hless'⟩
              · have hmode : modeBehind false (.inl codes) = false := by
                  simp [modeBehind, modeAfter, h998]
                rw [hmode] at hrest hless'
                exact clean_off (hps codes List.mem_cons_self).2 (hrest hless')

/-- A sequence has no ESC behind the first. -/
theorem esc_tail (codes : List UInt8) (h : escapes.allowed () codes) :
    ∀ c ∈ (escapes.word codes).tail, (c != 27) = true := by
  intro c hc
  rw [bne_iff_ne]
  exact (esc_tail_plain h.2 c hc).1

theorem clean_sequences {strs : List (List UInt8)} (h : ∀ str ∈ strs, IsTag str) {ps : List Item}
    (hps : escapes.Clean () ps) :
    escapes.Clean () ((strs.map fun str => .inl (codesOf (rowOf str))) ++ ps) := by
  induction strs with
  | nil => exact hps
  | cons str strs ih =>
      rw [List.forall_mem_cons] at h
      exact ⟨allowed_rows _ h.1.1, ih h.2⟩

/-- What is stored is read as the sequences and characters that it was written from. -/
theorem clean_storedPieces {ps : List Item} (hps : Scanned ps) (u : Ubbstate)
    (hapart : escapes.Clean () ((kept u.useubb ps).map Prod.snd)) :
    escapes.Clean () (translate storedPieces u ps).1 := by
  induction ps generalizing u with
  | nil => trivial
  | cons p ps ih =>
      rw [kept_cons, ← useubb_nextState] at hapart
      rw [translate_cons]
      cases p with
      | inr c =>
          have hnot : silent (u.useubb, .inr c) = false := by cases u.useubb <;> rfl
          rw [hnot, if_neg Bool.false_ne_true] at hapart
          refine ⟨?_, ih hps.tail _ hapart.2⟩
          rw [← hapart.1]
          exact Reader.reads_congr (fun codes h => esc_tail codes h) (takeWhile_storedPieces u ps)
      | inl codes =>
          have hrest : escapes.Clean () (translate storedPieces (nextState u (.inl codes)) ps).1 := by
            refine ih hps.tail _ ?_
            split_ifs at hapart
            · exact hapart
            · exact hapart.2
          rw [storedPieces]
          split_ifs with hoff
          · exact ⟨hps codes List.mem_cons_self, hrest⟩
          · exact clean_sequences (isTag_putSequence u codes) hrest

/-! ## Fonts -/

/-- The tags of a sequence make the font that the sequence makes. -/
theorem fontOf_putSequence {codes : List UInt8} (hallowed : escapes.allowed () codes)
    (h : WellWritten codes) (u : Ubbstate) (bf : Bbsfont) :
    fontOf (putSequence u codes).1 bf = ansifont codes bf := by
  rw [putSequence_eq]
  split_ifs with hnil
  · subst hnil
    rw [fontOf_reset]
    rfl
  · have hne : strtoks [59] codes ≠ [] := mt h.1 hnil
    have hnumbers : numbers codes ≠ [] := by
      rw [numbers, strtoks_eq hallowed.2]
      simpa using hne
    rw [fontOf_through h.2.1, ansifont_eq hallowed, if_neg hnumbers, numbers,
      strtoks_eq hallowed.2]

theorem shownIn_sequences (strs : List (List UInt8)) (bf : Bbsfont) (ps : List Item) :
    shownIn bf ((strs.map fun str => .inl (codesOf (rowOf str))) ++ ps) =
      shownIn (fontOf strs bf) ps := by
  induction strs generalizing bf with
  | nil => rfl
  | cons str strs ih => exact ih _

/-- What is stored shows the characters of the text in their fonts. -/
theorem shownIn_storedPieces {ps : List Item} (hps : Scanned ps) (u : Ubbstate)
    (hwell : ∀ codes, (true, .inl codes) ∈ modes u.useubb ps → WellWritten codes) (bf : Bbsfont) :
    shownIn bf (translate storedPieces u ps).1 = shownIn bf ps := by
  induction ps generalizing u bf with
  | nil => rfl
  | cons p ps ih =>
      rw [modes_cons, ← useubb_nextState] at hwell
      have hrest := ih hps.tail (nextState u p) fun codes hmem =>
        hwell codes (List.mem_cons_of_mem _ hmem)
      rw [translate_cons]
      cases p with
      | inr c => exact congrArg ((c, bf) :: ·) (hrest bf)
      | inl codes =>
          rw [storedPieces]
          split_ifs with hoff
          · exact hrest _
          · rw [Bool.not_eq_true, Bool.not_eq_false'] at hoff
            rw [hoff] at hwell
            rw [shownIn_sequences, fontOf_putSequence (hps codes List.mem_cons_self)
              (hwell codes List.mem_cons_self), hrest]
            rfl

/-- **Editing a text in which nothing is mistaken keeps what readers see.** -/
theorem edit_keeps (text : ArticleText) (h : Tame true (escapes.scan () text.bytes)) :
    shown (storedText text) = shown text.bytes := by
  have hps := scanned_scan text.bytes
  have hapart := Reader.scan_write_iff.mp h.apart
  have hform : tags.scan true (formText text) =
      (translate formPieces .start (escapes.scan () text.bytes)).1 := by
    rw [formText_eq]
    exact Reader.scan_write (clean_formPieces hps .start h.wellWritten h.tagless)
  have hstored : escapes.scan () (storedText text) =
      (translate storedPieces .start (escapes.scan () text.bytes)).1 := by
    rw [storedText, ubb2ansi, ubb2ansiLoop_eq, hform, write_storedPieces]
    exact Reader.scan_write (clean_storedPieces hps .start hapart)
  rw [shown, hstored, shownIn_storedPieces hps .start h.wellWritten, shown]

/-- The article `a<b`, coloured, and `[bold]` with the tags off. -/
def coloured : List UInt8 :=
  esc (ascii "1;31") ++ ascii "a<b" ++ esc [] ++ [10] ++ esc (ascii "999") ++ ascii "[bold]" ++
    esc (ascii "998") ++ esc (ascii "4")

theorem edit_keeps_coloured : ∃ text : ArticleText, text.bytes = coloured ∧
    shown (storedText text) = shown text.bytes := by
  have hmodes : modes true (escapes.scan () coloured) =
      [(true, .inl (ascii "1;31")), (true, .inr 97), (true, .inr 60), (true, .inr 98),
        (true, .inl []), (true, .inr 10), (true, .inl (ascii "999")), (false, .inr 91),
        (false, .inr 98), (false, .inr 111), (false, .inr 108), (false, .inr 100),
        (false, .inr 93), (false, .inl (ascii "998")), (true, .inl (ascii "4"))] := by
    decide +kernel
  have hwell : ∀ codes ∈ [ascii "1;31", [], ascii "999", ascii "4"], WellWritten codes := by
    decide +kernel
  refine ⟨⟨coloured, by decide +kernel, by decide +kernel⟩, rfl, edit_keeps _ ⟨?_, ?_, ?_⟩⟩
  · intro codes hmem
    rw [hmodes] at hmem
    refine hwell codes ?_
    simpa using hmem
  · decide +kernel
  · decide +kernel

/-- Editing the text changes what readers see. -/
def Changes (s : List UInt8) : Prop :=
  ∃ text : ArticleText, text.bytes = s ∧ shown (storedText text) ≠ shown text.bytes

theorem changes_of {s : List UInt8}
    (h : 0 ∉ s ∧ (∀ line ∈ s.splitOn 10, line.length < 499) ∧
      shown (ubb2ansi (decode (through ansi2ubb .start (fgetsLines 499 499 s)).1)) ≠ shown s) :
    Changes s := ⟨⟨s, h.1, h.2.1⟩, rfl, h.2.2⟩

/-- A text that reads as a tag becomes one, the tags behind `[ubb off]` become text, codes that
are not written as the tables have them are lost, and so may be what stands around them. -/
theorem edit_changes : Changes (ascii "[bold]x") ∧ Changes (esc (ascii "999;31") ++ ascii "x") ∧
    Changes (esc (ascii "0101") ++ ascii "x") ∧
    Changes (esc (ascii "1") ++ esc (ascii ";") ++ ascii "x") ∧
    Changes (27 :: (esc (ascii "5") ++ ascii "[1mx")) := by
  refine ⟨changes_of ?_, changes_of ?_, changes_of ?_, changes_of ?_, changes_of ?_⟩
  all_goals decide +kernel

end Ytht.Ubb
