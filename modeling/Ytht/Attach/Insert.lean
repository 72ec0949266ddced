import Mathlib.Data.List.Basic
import Ytht.Attach.Conn
import Ytht.Ythtlib.Stdio
import Ytht.Ythtlib.Strop

/-!
# Attach.Insert

`insertattachments` and `insertattachments_byfile`: an article is written from a text,
where a line `#attach name` is replaced by the uploaded file of that name, and the
other uploaded files go to the end.

The two read the name from the line in different ways, and put the newlines in other
places when the text begins with such a line.  `insertattachments_agree` says for which
texts and uploads they write the same article.
-/

namespace Ytht

open Bytes

/-! ## The article -/

/-- What is in an article: a byte of the text, or an attachment. -/
inductive Piece
  | text (ch : UInt8)
  | attachment (attachname mf : List UInt8)
  deriving DecidableEq

/-- The bytes of the file. -/
def Piece.bytes : Piece → List UInt8
  | text ch => [ch]
  | attachment attachname mf => block attachname mf

/-- A file in the directory `PATHUSERATTACH "/%s"` of the user. -/
structure Upload where
  name : List UInt8
  content : List UInt8
  deriving DecidableEq

def Upload.piece (u : Upload) : Piece := .attachment u.name u.content

/-- What the two functions work on. -/
structure Draft where
  article : List Piece
  /-- The directory of the user, in the order of `scandir`. -/
  uploads : List Upload
  retv : Bool
  deriving DecidableEq

namespace Draft

/-- `fputs`. -/
def fputs (d : Draft) (s : List UInt8) : Draft :=
  { d with article := d.article ++ s.map .text }

/-- `appendbinaryattach`, and `retv` after it: the file of the name, or every file. -/
def appendbinaryattach (d : Draft) : Option (List UInt8) → Draft
  | some attachname =>
      match d.uploads.find? (·.name == attachname) with
      | none => d
      | some u =>
          { article := d.article ++ [u.piece]
            uploads := d.uploads.eraseP (·.name == attachname)
            retv := true }
  | none =>
      { article := d.article ++ d.uploads.map Upload.piece
        uploads := []
        retv := d.retv || !d.uploads.isEmpty }

end Draft

/-! ## insertattachments -/

/-- `"#attach "` -/
def attachMark : List UInt8 := ascii "#attach "

/-- `!strncmp(ptr, "#attach ", 8)` -/
def isAttachLine (ptr : List UInt8) : Bool := ptr.take 8 == attachMark

/-- What `insertattachments` has in `ptr1` when it has read an `#attach` line; `none` when
`strrchr` finds nothing, which it does not check. -/
def attachName (ptr : List UInt8) : Option (List UInt8) :=
  (strrchr ((cutAt 47 (cutAt 10 (cutAt 13 ptr))).drop 7) 32).map
    fun ptr1 => ptr1.dropWhile fun ch => ch == 32 || ch == 9

/-- The loop of `insertattachments`; `first` is `ptr == content`. -/
def insertLoop : Bool → Draft → List (List UInt8) → Option Draft
  | _, d, [] => some d
  | first, d, ptr :: rest =>
      if !isAttachLine ptr then
        insertLoop false (if first then d.fputs ptr else (d.fputs [10]).fputs ptr) rest
      else
        match attachName ptr with
        | none => none
        | some [] => insertLoop false d rest
        | some ptr1 => insertLoop false (d.appendbinaryattach (some ptr1)) rest

/-- `insertattachments`; `none` is a fault. -/
def insertattachments (content : List UInt8) (uploads : List Upload) : Option Draft :=
  (insertLoop true ⟨[], uploads, false⟩ (content.splitOn 10)).map (·.appendbinaryattach none)

/-! ## insertattachments_byfile -/

/-- The strings that `fgets(ptr, 256, fpr)` reads until it returns `NULL`; in the string
that is being read there is still room. -/
def fgetsAll : Nat → List UInt8 → List (List UInt8)
  | _, [] => []
  | room, ch :: file =>
      if ch = 10 ∨ room ≤ 1 then [ch] :: fgetsAll 255 file
      else
        match fgetsAll (room - 1) file with
        | [] => [[ch]]
        | ptr :: rest => (ch :: ptr) :: rest

/-- The name that `insertattachments_byfile` reads from an `#attach` line, if any. -/
def attachNameByfile (ptr : List UInt8) : Option (Option (List UInt8)) :=
  (strrtrim (cutAt 47 ptr)).map fun ptr1 => (strrchr ptr1 32).map List.tail

/-- The loops of `insertattachments_byfile`: in the one for the rest of a long line,
`inside` is true.  It returns `savebr` too. -/
def byfileLoop : Bool → Bool → Draft → List (List UInt8) → Option (Draft × Bool)
  | savebr, _, d, [] => some (d, savebr)
  | savebr, inside, d, ptr :: rest =>
      if inside || !isAttachLine ptr then
        let d := if savebr then d.fputs [10] else d
        if 10 ∈ ptr then byfileLoop true false (d.fputs (cutAt 10 ptr)) rest
        else byfileLoop false true (d.fputs ptr) rest
      else
        match attachNameByfile ptr with
        | none => none
        | some none => byfileLoop savebr false d rest
        | some (some ptr1) => byfileLoop savebr false (d.appendbinaryattach (some ptr1)) rest

/-- `insertattachments_byfile`; `none` is a fault. -/
def insertattachmentsByfile (file : List UInt8) (uploads : List Upload) : Option Draft :=
  (byfileLoop false false ⟨[], uploads, false⟩ (fgetsAll 255 file)).map fun (d, savebr) =>
    (if savebr then d.fputs [10] else d).appendbinaryattach none

/-! ## Texts and places -/

/-- The texts that are stored. -/
structure Text where
  lines : List (List UInt8)
  ne_nil : lines ≠ []
  short : ∀ l ∈ lines, l.length < 255
  clean : ∀ l ∈ lines, 0 ∉ l ∧ 13 ∉ l ∧ 10 ∉ l

def Text.content (t : Text) : List UInt8 := t.lines.flatMap (· ++ [10])

/-- The name that `insertattachments` reads from a line. -/
def pickName (l : List UInt8) : Option (List UInt8) := (attachName l).filter (· ≠ [])

/-- The name that `insertattachments_byfile` reads from a line. -/
def pickNameByfile (l : List UInt8) : Option (List UInt8) := (attachNameByfile (l ++ [10])).join

/-- Where the uploaded files of a text go. -/
structure Places where
  /-- before the first line of text -/
  lead : List Upload
  /-- behind each line of text -/
  body : List (List UInt8 × List Upload)
  /-- at the end -/
  rest : List Upload
  deriving DecidableEq

/-- The places for some lines, when the names on `#attach` lines are read with `pick`. -/
def places (pick : List UInt8 → Option (List UInt8)) : List Upload → List (List UInt8) → Places
  | uploads, [] => ⟨[], [], uploads⟩
  | uploads, l :: ls =>
      if isAttachLine l then
        match pick l with
        | none => places pick uploads ls
        | some name =>
            let below := places pick (uploads.eraseP (·.name == name)) ls
            { below with lead := (uploads.find? (·.name == name)).toList ++ below.lead }
      else
        let below := places pick uploads ls
        ⟨[], (l, below.lead) :: below.body, below.rest⟩

/-- A newline of the article. -/
def nl : Piece := .text 10

def attached (us : List Upload) : List Piece := us.map Upload.piece

/-- The lines of text, each with what is behind it and a newline. -/
def closed (body : List (List UInt8 × List Upload)) : List Piece :=
  body.flatMap fun p => p.1.map .text ++ attached p.2 ++ [nl]

/-! ## The two functions on a text -/

theorem fgetsAll_eq (room : Nat) (file : List UInt8) :
    fgetsAll room file = fgetsLines 255 room file := by
  induction file generalizing room with
  | nil => rfl
  | cons ch file ih =>
      rw [fgetsAll, ih, ih]
      rfl

theorem isAttachLine_iff (l : List UInt8) : isAttachLine l = true ↔ ∃ s, l = attachMark ++ s := by
  rw [isAttachLine, beq_iff_eq]
  constructor
  · intro h
    exact ⟨l.drop 8, by rw [← h, List.take_append_drop]⟩
  · rintro ⟨s, rfl⟩
    rfl

/-- A newline behind the line makes no mark of it. -/
theorem isAttachLine_newline (l : List UInt8) : isAttachLine (l ++ [10]) = isAttachLine l := by
  rw [Bool.eq_iff_iff, isAttachLine_iff, isAttachLine_iff]
  constructor
  · rintro ⟨s, hs⟩
    cases s using List.reverseRecOn with
    | nil => exact absurd (congrArg List.getLast? hs) (by rw [List.getLast?_concat]; decide)
    | append_singleton s ch =>
        rw [← List.append_assoc] at hs
        exact ⟨s, (List.append_inj' hs rfl).1⟩
  · rintro ⟨s, rfl⟩
    exact ⟨s ++ [10], List.append_assoc ..⟩

theorem cutAt_attachMark {ch : UInt8} (hch : ch ∉ attachMark) (s : List UInt8) :
    cutAt ch (attachMark ++ s) = attachMark ++ cutAt ch s := by
  rw [cutAt, List.takeWhile_append_of_pos, cutAt]
  intro x hx
  rw [bne_iff_ne]
  rintro rfl
  exact hch hx

/-- `strrchr` finds the blank of the mark. -/
theorem attachName_ne_none {l : List UInt8} (h : isAttachLine l = true) : attachName l ≠ none := by
  obtain ⟨s, rfl⟩ := (isAttachLine_iff l).mp h
  have hmem : (32 : UInt8) ∈ (cutAt 47 (cutAt 10 (cutAt 13 (attachMark ++ s)))).drop 7 := by
    rw [cutAt_attachMark (by decide), cutAt_attachMark (by decide), cutAt_attachMark (by decide)]
    exact List.mem_cons_self
  rw [attachName, strrchr, if_pos hmem]
  exact Option.some_ne_none _

theorem attachNameByfile_ne_none {l : List UInt8} (h : l.length ≤ 255) :
    attachNameByfile l ≠ none := by
  have hcut : (cutAt 47 l).length ≤ l.length := (List.takeWhile_prefix _).length_le
  rw [attachNameByfile, strrtrim_of_le (by omega)]
  exact Option.some_ne_none _

theorem insertLoop_attach {l : List UInt8} (h : isAttachLine l = true) (first : Bool) (d : Draft)
    (rest : List (List UInt8)) : insertLoop first d (l :: rest) =
      insertLoop false (match pickName l with
        | none => d
        | some name => d.appendbinaryattach (some name)) rest := by
  rw [insertLoop, h, Bool.not_true, if_neg Bool.false_ne_true, pickName]
  cases hname : attachName l with
  | none => exact absurd hname (attachName_ne_none h)
  | some name => cases name <;> rfl

theorem insertLoop_text {l : List UInt8} (h : isAttachLine l = false) (first : Bool) (d : Draft)
    (rest : List (List UInt8)) : insertLoop first d (l :: rest) =
      insertLoop false (if first then d.fputs l else (d.fputs [10]).fputs l) rest := by
  rw [insertLoop, h, Bool.not_false, if_pos rfl]

theorem closed_cons (p : List UInt8 × List Upload) (body : List (List UInt8 × List Upload)) :
    closed (p :: body) = p.1.map .text ++ attached p.2 ++ nl :: closed body := by
  rw [closed, List.flatMap_cons, List.append_assoc _ [nl]]
  rfl

/-- What a call for one file adds to the article, and what it leaves in the directory. -/
theorem Draft.appendbinaryattach_some (d : Draft) (name : List UInt8) :
    (d.appendbinaryattach (some name)).article =
        d.article ++ attached (d.uploads.find? (·.name == name)).toList ∧
      (d.appendbinaryattach (some name)).uploads = d.uploads.eraseP (·.name == name) := by
  cases hfind : d.uploads.find? (·.name == name) with
  | none =>
      simp only [appendbinaryattach, hfind, Option.toList_none, attached, List.map_nil,
        List.append_nil, true_and]
      rw [List.eraseP_of_forall_not]
      simpa using List.find?_eq_none.mp hfind
  | some u => simp [appendbinaryattach, hfind, attached]

/-- `insertattachments` behind the first line. -/
theorem insertLoop_lines (ls : List (List UInt8)) (d : Draft) :
    ∃ d', insertLoop false d (ls ++ [[]]) = some d' ∧
      d'.article = d.article ++ attached (places pickName d.uploads ls).lead ++
        nl :: closed (places pickName d.uploads ls).body ∧
      d'.uploads = (places pickName d.uploads ls).rest := by
  induction ls generalizing d with
  | nil =>
      refine ⟨(d.fputs [10]).fputs [], rfl, ?_, rfl⟩
      simp [Draft.fputs, places, attached, closed, nl]
  | cons l ls ih =>
      rw [List.cons_append]
      cases hl : isAttachLine l with
      | true =>
          rw [insertLoop_attach hl, places, if_pos hl]
          cases hpick : pickName l with
          | none => exact ih d
          | some name =>
              obtain ⟨d', hd', harticle, huploads⟩ := ih (d.appendbinaryattach (some name))
              obtain ⟨hadd, hleft⟩ := d.appendbinaryattach_some name
              refine ⟨d', hd', ?_, ?_⟩
              · rw [harticle, hadd, hleft]
                simp only [attached, List.map_append, List.append_assoc]
              · rw [huploads, hleft]
      | false =>
          rw [insertLoop_text hl, places, hl, if_neg Bool.false_ne_true, if_neg Bool.false_ne_true]
          obtain ⟨d', hd', harticle, huploads⟩ := ih ((d.fputs [10]).fputs l)
          refine ⟨d', hd', ?_, huploads⟩
          rw [harticle, closed_cons]
          simp [Draft.fputs, attached, nl]

theorem byfileLoop_attach {l : List UInt8} (h : isAttachLine l = true) (hshort : l.length < 255)
    (savebr : Bool) (d : Draft) (rest : List (List UInt8)) :
    byfileLoop savebr false d ((l ++ [10]) :: rest) =
      byfileLoop savebr false (match pickNameByfile l with
        | none => d
        | some name => d.appendbinaryattach (some name)) rest := by
  have hlength : (l ++ [10]).length ≤ 255 := by
    rw [List.length_append, List.length_singleton]
    omega
  rw [byfileLoop, isAttachLine_newline, h, pickNameByfile]
  cases hname : attachNameByfile (l ++ [10]) with
  | none => exact absurd hname (attachNameByfile_ne_none hlength)
  | some name => cases name <;> rfl

theorem byfileLoop_text {l : List UInt8} (h : isAttachLine l = false) (hl : 10 ∉ l)
    (savebr : Bool) (d : Draft) (rest : List (List UInt8)) :
    byfileLoop savebr false d ((l ++ [10]) :: rest) =
      byfileLoop true false ((if savebr then d.fputs [10] else d).fputs l) rest := by
  have hmem : (10 : UInt8) ∈ l ++ [10] := List.mem_append_right _ (List.mem_singleton.mpr rfl)
  rw [byfileLoop, isAttachLine_newline, h]
  simp only [Bool.not_false, Bool.or_true, if_pos, if_pos hmem, cutAt_append_cons hl]

/-- `insertattachments_byfile` from any line. -/
theorem byfileLoop_lines {ls : List (List UInt8)} (hshort : ∀ l ∈ ls, l.length < 255)
    (hclean : ∀ l ∈ ls, 10 ∉ l) (savebr : Bool) (d : Draft) :
    ∃ d' savebr', byfileLoop savebr false d (ls.map (· ++ [10])) = some (d', savebr') ∧
      (if savebr' then d'.fputs [10] else d').article =
        d.article ++ attached (places pickNameByfile d.uploads ls).lead ++
          (if savebr then [nl] else []) ++ closed (places pickNameByfile d.uploads ls).body ∧
      d'.uploads = (places pickNameByfile d.uploads ls).rest := by
  induction ls generalizing savebr d with
  | nil =>
      refine ⟨d, savebr, rfl, ?_, rfl⟩
      cases savebr <;> simp [Draft.fputs, places, attached, closed, nl]
  | cons l ls ih =>
      have hl := hclean l List.mem_cons_self
      have ih := ih (fun l' hl' => hshort l' (List.mem_cons_of_mem _ hl'))
        fun l' hl' => hclean l' (List.mem_cons_of_mem _ hl')
      rw [List.map_cons]
      cases hline : isAttachLine l with
      | true =>
          rw [byfileLoop_attach hline (hshort l List.mem_cons_self), places, if_pos hline]
          cases hpick : pickNameByfile l with
          | none => exact ih savebr d
          | some name =>
              obtain ⟨d', savebr', hd', harticle, huploads⟩ :=
                ih savebr (d.appendbinaryattach (some name))
              obtain ⟨hadd, hleft⟩ := d.appendbinaryattach_some name
              refine ⟨d', savebr', hd', ?_, ?_⟩
              · rw [harticle, hadd, hleft]
                simp only [attached, List.map_append, List.append_assoc]
              · rw [huploads, hleft]
      | false =>
          rw [byfileLoop_text hline hl, places, hline, if_neg Bool.false_ne_true]
          obtain ⟨d', savebr', hd', harticle, huploads⟩ :=
            ih true ((if savebr then d.fputs [10] else d).fputs l)
          have hsame : ((if savebr then d.fputs [10] else d).fputs l).uploads = d.uploads := by
            cases savebr <;> rfl
          rw [hsame] at harticle huploads
          refine ⟨d', savebr', hd', ?_, huploads⟩
          rw [harticle, closed_cons]
          cases savebr <;> simp [Draft.fputs, attached, nl]

/-! ## One article -/

/-- The articles differ in the newline before the attachments at the end. -/
def OneNewline (a b : List Piece) : Prop :=
  ∃ body us, a = body ++ nl :: attached us ∧ b = body ++ attached us

/-- The same article, up to one trailing newline. -/
def SameArticle (a b : List Piece) : Prop := a = b ∨ OneNewline a b ∨ OneNewline b a

/-- The files at the end are counted with the last line of text. -/
def withRest : List (List UInt8 × List Upload) → List Upload → List (List UInt8 × List Upload)
  | [], _ => []
  | [p], rest => [(p.1, p.2 ++ rest)]
  | p :: q :: ps, rest => p :: withRest (q :: ps) rest

/-- The files at the beginning are counted with the first line of text, and those at the
end stand for themselves. -/
def Places.fromFirst (l : Places) : List (List UInt8 × List Upload) :=
  match l.body with
  | [] => [([], l.lead ++ l.rest)]
  | p :: ps => (p.1, l.lead ++ p.2) :: (ps ++ [([], l.rest)])

/-- The names that are read put the same files in the same places.  When the text begins
with an `#attach` line, `insertattachments` has one newline more, before the first line
of text: then that has to be the trailing one, as all lines of text are empty. -/
def SamePlaces (ls : List (List UInt8)) (uploads : List Upload) : Prop :=
  let byName := places pickName uploads ls
  let byFile := places pickNameByfile uploads ls
  if isAttachLine (ls.headD []) then
    withRest (([], byName.lead) :: byName.body) byName.rest = byFile.fromFirst
  else byName = byFile

instance (ls : List (List UInt8)) (uploads : List Upload) : Decidable (SamePlaces ls uploads) :=
  inferInstanceAs (Decidable (if isAttachLine (ls.headD []) then _ = _ else _ = _))

/-- A line of text with what is behind it, up to the newline. -/
def segment (p : List UInt8 × List Upload) : List Piece := p.1.map .text ++ attached p.2

/-- The segments with newlines between them. -/
def joined (segs : List (List UInt8 × List Upload)) : List Piece :=
  [nl].intercalate (segs.map segment)

theorem nl_notMem_attached (us : List Upload) : nl ∉ attached us := by
  intro h
  obtain ⟨u, -, hu⟩ := List.mem_map.mp h
  cases hu

theorem nl_notMem_segment {p : List UInt8 × List Upload} (h : 10 ∉ p.1) : nl ∉ segment p := by
  rintro hnl
  rcases List.mem_append.mp hnl with htext | hatt
  · obtain ⟨ch, hch, heq⟩ := List.mem_map.mp htext
    cases heq
    exact h hch
  · exact nl_notMem_attached _ hatt

theorem attached_injective {us vs : List Upload} (h : attached us = attached vs) : us = vs := by
  refine List.map_injective_iff.mpr ?_ h
  rintro ⟨n, mf⟩ ⟨n', mf'⟩ heq
  cases heq
  rfl

theorem segment_injective {p q : List UInt8 × List Upload} (h : segment p = segment q) : p = q := by
  obtain ⟨s, us⟩ := p
  obtain ⟨t, vs⟩ := q
  induction s generalizing t with
  | nil =>
      cases t with
      | nil =>
          have hus : us = vs := attached_injective h
          rw [hus]
      | cons ch t =>
          cases us with
          | nil => cases h
          | cons u us => cases (List.cons.inj h).1
  | cons ch s ih =>
      cases t with
      | nil =>
          cases vs with
          | nil => cases h
          | cons v vs => cases (List.cons.inj h).1
      | cons ch' t =>
          obtain ⟨hch, htail⟩ := List.cons.inj h
          cases hch
          cases ih t htail
          rfl

/-- The lines of text can be read off the article. -/
theorem splitOn_joined {segs : List (List UInt8 × List Upload)} (hne : segs ≠ [])
    (h : ∀ p ∈ segs, 10 ∉ p.1) : (joined segs).splitOn nl = segs.map segment := by
  refine List.splitOn_intercalate nl ?_ (by simpa using hne)
  intro l hl
  obtain ⟨p, hp, rfl⟩ := List.mem_map.mp hl
  exact nl_notMem_segment (h p hp)

theorem joined_injective {ps qs : List (List UInt8 × List Upload)} (hps : ps ≠ []) (hqs : qs ≠ [])
    (hp : ∀ p ∈ ps, 10 ∉ p.1) (hq : ∀ q ∈ qs, 10 ∉ q.1) (h : joined ps = joined qs) : ps = qs := by
  have hmap := congrArg (List.splitOn nl) h
  rw [splitOn_joined hps hp, splitOn_joined hqs hq] at hmap
  exact List.map_injective_iff.mpr (fun _ _ => segment_injective) hmap

theorem joined_cons {segs : List (List UInt8 × List Upload)} (hne : segs ≠ [])
    (p : List UInt8 × List Upload) : joined (p :: segs) = segment p ++ nl :: joined segs := by
  rw [joined, List.map_cons, List.intercalate_cons_of_ne_nil (by simpa using hne),
    List.append_assoc]
  rfl

theorem closed_attached (body : List (List UInt8 × List Upload)) (us : List Upload) :
    closed body ++ attached us = joined (body ++ [([], us)]) := by
  induction body with
  | nil => simp [closed, joined, segment]
  | cons p body ih =>
      rw [closed_cons, List.cons_append, joined_cons (by simp), ← ih]
      simp [segment]

theorem joined_attached {segs : List (List UInt8 × List Upload)} (hne : segs ≠ [])
    (us : List Upload) : joined segs ++ attached us = joined (withRest segs us) := by
  fun_induction withRest segs us with
  | case1 => contradiction
  | case2 p => simp [joined, segment, attached]
  | case3 p q ps us ih =>
      have hrest : withRest (q :: ps) us ≠ [] := by
        cases ps <;> exact List.cons_ne_nil _ _
      rw [joined_cons (List.cons_ne_nil _ _), List.append_assoc, List.cons_append,
        ih (List.cons_ne_nil _ _), joined_cons hrest]

theorem joined_concat {segs : List (List UInt8 × List Upload)} (hne : segs ≠ [])
    (us : List Upload) : joined (segs ++ [([], us)]) = joined segs ++ nl :: attached us := by
  induction segs with
  | nil => contradiction
  | cons p segs ih =>
      cases segs with
      | nil => simp [joined, segment, List.intercalate_cons_cons]
      | cons q segs =>
          rw [List.cons_append, joined_cons (by simp), ih (List.cons_ne_nil _ _),
            joined_cons (List.cons_ne_nil _ _), List.append_assoc, List.cons_append]

/-- Without its last newline the article is the other one. -/
theorem oneNewline_joined {segs : List (List UInt8 × List Upload)} (hne : segs ≠ [])
    (us : List Upload) (b : List Piece) :
    OneNewline (joined (segs ++ [([], us)])) b ↔ b = joined (withRest segs us) := by
  rw [joined_concat hne, ← joined_attached hne]
  constructor
  · rintro ⟨body, vs, ha, rfl⟩
    have hsplit := congrArg (List.splitOn nl) ha
    rw [List.splitOn_append_cons_self, List.splitOn_append_cons_self,
      List.splitOn_eq_singleton (nl_notMem_attached _),
      List.splitOn_eq_singleton (nl_notMem_attached _)] at hsplit
    obtain ⟨hbody, hlast⟩ := List.append_inj' hsplit rfl
    have hjoin : [nl].intercalate (body.splitOn nl) = body := List.intercalate_splitOn nl
    rw [← hjoin, ← hbody, List.intercalate_splitOn, (List.cons.inj hlast).1]
  · rintro rfl
    exact ⟨_, _, rfl, rfl⟩

/-! ## Agreement -/

theorem places_body (pick : List UInt8 → Option (List UInt8)) (uploads : List Upload)
    (ls : List (List UInt8)) :
    (places pick uploads ls).body.map Prod.fst = ls.filter (!isAttachLine ·) := by
  fun_induction places pick uploads ls with
  | case1 => rfl
  | case2 uploads l ls hline hpick ih => simpa [hline] using ih
  | case3 uploads l ls hline name hpick below ih => simpa [hline] using ih
  | case4 uploads l ls hline below ih => simpa [hline] using ih

theorem places_clean (pick : List UInt8 → Option (List UInt8)) (uploads : List Upload)
    {ls : List (List UInt8)} (h : ∀ l ∈ ls, 10 ∉ l) :
    ∀ p ∈ (places pick uploads ls).body, 10 ∉ p.1 := by
  intro p hp
  have hmem : p.1 ∈ (places pick uploads ls).body.map Prod.fst := List.mem_map_of_mem hp
  rw [places_body] at hmem
  exact h p.1 (List.mem_filter.mp hmem).1

theorem count_attached (us : List Upload) : (attached us).count nl = 0 :=
  List.count_eq_zero.mpr (nl_notMem_attached us)

/-- There are as many newlines as lines of text. -/
theorem count_closed {body : List (List UInt8 × List Upload)} (h : ∀ p ∈ body, 10 ∉ p.1) :
    (closed body).count nl = body.length := by
  induction body with
  | nil => rfl
  | cons p body ih =>
      have hp : (segment p).count nl = 0 :=
        List.count_eq_zero.mpr (nl_notMem_segment (h p List.mem_cons_self))
      have ih := ih fun q hq => h q (List.mem_cons_of_mem _ hq)
      rw [closed_cons, ← segment, List.count_append, hp, List.count_cons_self, ih,
        List.length_cons, Nat.zero_add]

theorem OneNewline.count {a b : List Piece} (h : OneNewline a b) :
    a.count nl = b.count nl + 1 := by
  obtain ⟨body, us, rfl, rfl⟩ := h
  rw [List.count_append, List.count_append, List.count_cons_self, Nat.add_assoc]

/-- `insertattachments` on a text. -/
theorem insertattachments_content (t : Text) (uploads : List Upload) :
    ∃ d, insertattachments t.content uploads = some d ∧ d.uploads = [] ∧
      d.article = (if isAttachLine (t.lines.headD []) then
        attached (places pickName uploads t.lines).lead ++ [nl] else []) ++
          closed (places pickName uploads t.lines).body ++
          attached (places pickName uploads t.lines).rest := by
  obtain ⟨ls, hne, -, hclean⟩ := t
  cases ls with
  | nil => contradiction
  | cons l ls =>
      have hsplit := splitOn_content fun l' hl' => (hclean l' hl').2.2
      simp only [insertattachments, Text.content, hsplit]
      by_cases hl : isAttachLine ((l :: ls).headD []) = true
      · rw [if_pos hl]
        rw [List.headD_cons] at hl
        obtain ⟨d, hd, harticle, huploads⟩ := insertLoop_lines (l :: ls) ⟨[], uploads, false⟩
        rw [List.cons_append, insertLoop_attach hl] at hd
        rw [List.cons_append, insertLoop_attach hl, hd]
        refine ⟨_, rfl, rfl, ?_⟩
        simp only [Draft.appendbinaryattach, harticle, huploads]
        simp [attached]
      · rw [if_neg hl]
        rw [List.headD_cons] at hl
        obtain ⟨d, hd, harticle, huploads⟩ :=
          insertLoop_lines ls (Draft.fputs ⟨[], uploads, false⟩ l)
        rw [List.cons_append, insertLoop_text (Bool.eq_false_iff.mpr hl), if_pos rfl, hd]
        refine ⟨_, rfl, rfl, ?_⟩
        have hplaces : places pickName uploads (l :: ls) =
            ⟨[], (l, (places pickName uploads ls).lead) :: (places pickName uploads ls).body,
              (places pickName uploads ls).rest⟩ := by
          rw [places, if_neg hl]
        simp only [Draft.appendbinaryattach, harticle, huploads, hplaces, closed_cons]
        simp [attached, Draft.fputs]

/-- `insertattachments_byfile` on a file with the text. -/
theorem insertattachmentsByfile_content (t : Text) (uploads : List Upload) :
    ∃ d, insertattachmentsByfile t.content uploads = some d ∧ d.uploads = [] ∧
      d.article = attached (places pickNameByfile uploads t.lines).lead ++
        closed (places pickNameByfile uploads t.lines).body ++
        attached (places pickNameByfile uploads t.lines).rest := by
  have hclean : ∀ l ∈ t.lines, 10 ∉ l := fun l hl => (t.clean l hl).2.2
  obtain ⟨d, savebr, hd, harticle, huploads⟩ :=
    byfileLoop_lines t.short hclean false ⟨[], uploads, false⟩
  rw [insertattachmentsByfile, Text.content, fgetsAll_eq, fgetsLines_content t.short hclean, hd]
  refine ⟨_, rfl, rfl, ?_⟩
  have hsame : (if savebr then d.fputs [10] else d).uploads = d.uploads := by
    cases savebr <;> rfl
  simp only [Draft.appendbinaryattach, harticle, hsame, huploads]
  simp [attached]

/-- Both functions store the text, without a fault, in the same article and with the same
uploaded files. -/
def StoredAlike (t : Text) (uploads : List Upload) : Prop :=
  ∃ d₁ d₂, insertattachments t.content uploads = some d₁ ∧
    insertattachmentsByfile t.content uploads = some d₂ ∧
    SameArticle d₁.article d₂.article ∧ d₁.uploads = d₂.uploads

theorem withRest_clean {segs : List (List UInt8 × List Upload)} (h : ∀ p ∈ segs, 10 ∉ p.1)
    (us : List Upload) : ∀ p ∈ withRest segs us, 10 ∉ p.1 := by
  fun_induction withRest segs us with
  | case1 => simp
  | case2 p us => simpa using h
  | case3 p q ps us ih =>
      rw [List.forall_mem_cons] at h ⊢
      exact ⟨h.1, ih h.2⟩

/-- Attachments followed by a segment are attachments only if the line is empty. -/
theorem attached_segment {us vs : List Upload} {p : List UInt8 × List Upload}
    (h : attached us ++ segment p = attached vs) : p.1 = [] := by
  cases hp : p.1 with
  | nil => rfl
  | cons ch s =>
      have hmem : Piece.text ch ∈ attached vs := by
        rw [← h, segment, hp]
        simp
      obtain ⟨u, -, hu⟩ := List.mem_map.mp hmem
      cases hu

theorem segment_lead {p : List UInt8 × List Upload} (hp : p.1 = []) (us : List Upload) :
    attached us ++ segment p = segment (p.1, us ++ p.2) := by
  simp [segment, hp, attached]

/-- The article of `insertattachments_byfile`, when it begins with attachments, is cut
at its newlines. -/
theorem eq_joined_iff {segs : List (List UInt8 × List Upload)} {lead : List Upload}
    (l : Places) (hlength : segs.length = l.body.length) (hsegs : ∀ p ∈ segs, 10 ∉ p.1)
    (hbody : ∀ p ∈ l.body, 10 ∉ p.1) (rest : List Upload) :
    attached l.lead ++ closed l.body ++ attached l.rest =
        joined (withRest (([], lead) :: segs) rest) ↔
      withRest (([], lead) :: segs) rest = l.fromFirst := by
  rw [List.append_assoc, closed_attached, Places.fromFirst]
  cases hl : l.body with
  | nil =>
      rw [hl] at hlength
      cases List.length_eq_zero_iff.mp hlength
      have hone : attached l.lead ++ joined ([] ++ [([], l.rest)]) =
          joined [([], l.lead ++ l.rest)] := by
        simp [joined, segment, attached]
      rw [hone]
      refine ⟨fun h => ?_, fun h => ?_⟩
      · exact (joined_injective (by simp) (by simp [withRest]) (by simp) (by simp [withRest]) h).symm
      · dsimp only at h
        rw [h]
  | cons p ps =>
      rw [hl] at hlength hbody
      rw [List.forall_mem_cons] at hbody
      have hps : ∀ q ∈ ps ++ [([], l.rest)], 10 ∉ q.1 := by
        intro q hq
        rcases List.mem_append.mp hq with hq | hq
        · exact hbody.2 q hq
        · rw [List.mem_singleton.mp hq]
          exact List.not_mem_nil
      cases segs with
      | nil => cases hlength
      | cons q segs =>
          rw [List.cons_append, joined_cons (by simp), withRest,
            joined_cons (by cases segs <;> exact List.cons_ne_nil _ _), ← List.append_assoc]
          have hne : withRest (q :: segs) rest ≠ [] := by
            cases segs <;> exact List.cons_ne_nil _ _
          have hclean := withRest_clean hsegs rest
          refine ⟨fun h => ?_, fun h => ?_⟩
          · have hsplit := congrArg (List.splitOn nl) h
            have hfirst : nl ∉ attached l.lead ++ segment p := by
              rw [List.mem_append, not_or]
              exact ⟨nl_notMem_attached _, nl_notMem_segment hbody.1⟩
            rw [List.splitOn_append_cons_self_of_not_mem hfirst,
              List.splitOn_append_cons_self_of_not_mem (nl_notMem_segment List.not_mem_nil),
              splitOn_joined (by simp) hps, splitOn_joined hne hclean] at hsplit
            obtain ⟨hhead, htail⟩ := List.cons.inj hsplit
            have hp : p.1 = [] := attached_segment hhead
            rw [segment_lead hp] at hhead
            have hps : ps ++ [([], l.rest)] = withRest (q :: segs) rest :=
              List.map_injective_iff.mpr (fun _ _ => segment_injective) htail
            dsimp only
            rw [segment_injective hhead, hps]
          · obtain ⟨hhead, htail⟩ := List.cons.inj h
            have hp : p.1 = [] := (Prod.mk.inj hhead).1.symm
            rw [segment_lead hp, ← hhead, htail]

/-- The articles when the text begins with an `#attach` line. -/
theorem sameArticle_attach {l₁ l₂ : Places} (hlength : l₁.body.length = l₂.body.length)
    (h₁ : ∀ p ∈ l₁.body, 10 ∉ p.1) (h₂ : ∀ p ∈ l₂.body, 10 ∉ p.1) :
    SameArticle (attached l₁.lead ++ [nl] ++ closed l₁.body ++ attached l₁.rest)
        (attached l₂.lead ++ closed l₂.body ++ attached l₂.rest) ↔
      withRest (([], l₁.lead) :: l₁.body) l₁.rest = l₂.fromFirst := by
  have hjoined : attached l₁.lead ++ [nl] ++ closed l₁.body ++ attached l₁.rest =
      joined ((([], l₁.lead) :: l₁.body) ++ [([], l₁.rest)]) := by
    rw [List.append_assoc _ (closed l₁.body), closed_attached, List.cons_append,
      joined_cons (by simp), List.append_assoc]
    rfl
  -- there is one newline more in the first article
  have hcount : (attached l₁.lead ++ [nl] ++ closed l₁.body ++ attached l₁.rest).count nl =
      (attached l₂.lead ++ closed l₂.body ++ attached l₂.rest).count nl + 1 := by
    simp only [List.count_append, count_attached, count_closed h₁, count_closed h₂, hlength,
      List.count_singleton_self]
    omega
  rw [← eq_joined_iff l₂ hlength h₁ h₂, ← oneNewline_joined (List.cons_ne_nil _ _), ← hjoined]
  constructor
  · rintro (heq | hone | hone)
    · rw [heq] at hcount
      omega
    · exact hone
    · rw [hone.count] at hcount
      omega
  · exact fun hone => Or.inr (Or.inl hone)

/-- The articles when the text begins with another line. -/
theorem sameArticle_text {l₁ l₂ : Places} (hlength : l₁.body.length = l₂.body.length)
    (h₁ : ∀ p ∈ l₁.body, 10 ∉ p.1) (h₂ : ∀ p ∈ l₂.body, 10 ∉ p.1) (hlead : l₁.lead = l₂.lead) :
    SameArticle (closed l₁.body ++ attached l₁.rest) (closed l₂.body ++ attached l₂.rest) ↔
      l₁ = l₂ := by
  have hcount : (closed l₁.body ++ attached l₁.rest).count nl =
      (closed l₂.body ++ attached l₂.rest).count nl := by
    simp only [List.count_append, count_attached, count_closed h₁, count_closed h₂, hlength]
  have hclean : ∀ l : Places, (∀ p ∈ l.body, 10 ∉ p.1) →
      ∀ p ∈ l.body ++ [([], l.rest)], 10 ∉ p.1 := by
    intro l hl p hp
    rcases List.mem_append.mp hp with hp | hp
    · exact hl p hp
    · rw [List.mem_singleton.mp hp]
      exact List.not_mem_nil
  constructor
  · rintro (heq | hone | hone)
    · rw [closed_attached, closed_attached] at heq
      have hsegs := joined_injective (by simp) (by simp) (hclean l₁ h₁) (hclean l₂ h₂) heq
      obtain ⟨hbody, hrest⟩ := List.append_inj' hsegs rfl
      obtain ⟨lead₁, body₁, rest₁⟩ := l₁
      cases hlead
      cases hbody
      cases hrest
      rfl
    · rw [hone.count] at hcount
      omega
    · rw [hone.count] at hcount
      omega
  · rintro rfl
    exact Or.inl rfl

/-- The two functions store a text alike exactly when the names that they read put the
same files in the same places. -/
theorem storedAlike_iff (t : Text) (uploads : List Upload) :
    StoredAlike t uploads ↔ SamePlaces t.lines uploads := by
  obtain ⟨d₁, hd₁, hnone₁, ha⟩ := insertattachments_content t uploads
  obtain ⟨d₂, hd₂, hnone₂, hb⟩ := insertattachmentsByfile_content t uploads
  have hclean : ∀ l ∈ t.lines, 10 ∉ l := fun l hl => (t.clean l hl).2.2
  have h₁ := places_clean pickName uploads hclean
  have h₂ := places_clean pickNameByfile uploads hclean
  have hlength : (places pickName uploads t.lines).body.length =
      (places pickNameByfile uploads t.lines).body.length := by
    rw [← List.length_map Prod.fst, places_body, ← places_body pickNameByfile uploads,
      List.length_map]
  have hstored : StoredAlike t uploads ↔ SameArticle d₁.article d₂.article := by
    constructor
    · rintro ⟨e₁, e₂, he₁, he₂, hsame, -⟩
      rw [hd₁] at he₁
      rw [hd₂] at he₂
      cases he₁
      cases he₂
      exact hsame
    · intro hsame
      exact ⟨d₁, d₂, hd₁, hd₂, hsame, by rw [hnone₁, hnone₂]⟩
  refine hstored.trans ?_
  rw [SamePlaces, ha, hb]
  by_cases hl : isAttachLine (t.lines.headD []) = true
  · rw [if_pos hl, if_pos hl]
    exact sameArticle_attach hlength h₁ h₂
  · rw [if_neg hl, if_neg hl]
    have hlead : ∀ pick, (places pick uploads t.lines).lead = [] := by
      intro pick
      cases hlines : t.lines with
      | nil => exact absurd hlines t.ne_nil
      | cons l ls =>
          rw [hlines, List.headD_cons] at hl
          rw [places, if_neg hl]
    rw [hlead pickNameByfile]
    exact sameArticle_text hlength h₁ h₂ ((hlead _).trans (hlead _).symm)

/-- A text that begins with an `#attach` line. -/
def attachFirst : Text where
  lines := [ascii "#attach a", ascii "hello"]
  ne_nil := by decide
  short := by decide
  clean := by decide

/-- A text with a blank behind the name of the file. -/
def attachBlank : Text where
  lines := [ascii "hello", ascii "#attach a "]
  ne_nil := by decide
  short := by decide
  clean := by decide

end Ytht
