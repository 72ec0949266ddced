import Ytht.Attach.Append
import Ytht.Lib.Feed
import Ytht.Lib.Marks
import Ytht.Ythtlib.Stdio
import Ytht.Ythtlib.Strlib

/-!
# Nju09.Ubb

The two translators of `BBSLIB.c` between escape sequences and tags, `ansi2ubb` and `ubb2ansi`,
and the fonts that the escape sequences stand for (`ansifont`).

Each translator has a table of its own; `tagOf_ubb2` says that they are inverse to each other.
-/

namespace Ytht.Ubb

open Feed Marks

/-! ## Tables -/

/-- An escape sequence. -/
def esc (codes : List UInt8) : List UInt8 := 27 :: 91 :: (codes ++ [109])

/-- `struct UBB2ANSI`. -/
structure Ubb2Ansi where
  ubb : List UInt8
  ansi : List UInt8
  deriving DecidableEq

/-- `ubb[UBB_BEGIN_NOUBB]`. -/
def beginNoubb : Ubb2Ansi := ⟨ascii "ubb off", esc (ascii "999")⟩

/-- `ubb[UBB_END_NOUBB]`. -/
def endNoubb : Ubb2Ansi := ⟨ascii "ubb on", esc (ascii "998")⟩

def ubb : List Ubb2Ansi :=
  ([("color=white", "30"), ("color=red", "31"), ("color=green", "32"), ("color=yellow", "33"),
    ("color=blue", "34"), ("color=purple", "35"), ("color=cyan", "36"), ("color=black", "37"),
    ("bcolor=white", "40"), ("bcolor=red", "41"), ("bcolor=green", "42"), ("bcolor=yellow", "43"),
    ("bcolor=blue", "44"), ("bcolor=purple", "45"), ("bcolor=cyan", "46"), ("bcolor=black", "47"),
    ("/color", ""), ("highlight", "1"), ("normal", "2"), ("bold", "101"), ("/bold", "102"),
    ("italic", "111"), ("/italic", "112"), ("underline", "4"), ("/underline", "")].map fun row =>
      ⟨ascii row.1, esc (ascii row.2)⟩) ++ [beginNoubb, endNoubb]

/-- `struct ANSI2HTML_UBB`, without the fields for pages. -/
structure Ansi2Ubb where
  ansi : List UInt8
  ubb : List UInt8

def ubb2 : List Ansi2Ubb :=
  [("30", "[color=white]"), ("31", "[color=red]"), ("32", "[color=green]"),
    ("33", "[color=yellow]"), ("34", "[color=blue]"), ("35", "[color=purple]"),
    ("36", "[color=cyan]"), ("37", "[color=black]"), ("40", "[bcolor=white]"),
    ("41", "[bcolor=red]"), ("42", "[bcolor=green]"), ("43", "[bcolor=yellow]"),
    ("44", "[bcolor=blue]"), ("45", "[bcolor=purple]"), ("46", "[bcolor=cyan]"),
    ("47", "[bcolor=black]"), ("101", "[bold]"), ("102", "[/bold]"), ("111", "[italic]"),
    ("112", "[/italic]"), ("4", "[underline]")].map fun row => ⟨ascii row.1, ascii row.2⟩

/-- `UBB_BEGIN_OTHER`. -/
def ubbBeginOther : Nat := 16

/-- `UBB_BEGIN_UNDERLINE`. -/
def ubbBeginUnderline : Nat := 20

/-! ## Escape sequences -/

/-- The characters of `"0123456789;"`. -/
def isCode (ch : UInt8) : Bool := isdigit ch || ch == 59

/-- The codes of an escape sequence, in the text behind its ESC: at most 22 characters are
looked at. -/
def escCodes (s : List UInt8) : Option (List UInt8) :=
  let codes := (s.tail.take 22).takeWhile isCode
  if s.head? = some 91 ∧ s.tail[codes.length]? = some 109 then some codes else none

/-- What `strtok` finds, call after call. -/
def strtoks (delims buf : List UInt8) : List (List UInt8) :=
  (buf.splitOnP delims.contains).filter (· ≠ [])

/-! ## From escape sequences to tags -/

/-- The globals `useubb`, `highlight` and `underline`. -/
structure Ubbstate where
  useubb : Bool
  highlight : Bool
  underline : Bool
  deriving DecidableEq

/-- What every form and `ubb2ansi` begin with. -/
def Ubbstate.start : Ubbstate := ⟨true, false, false⟩

/-- The tags for code 0 and for a sequence without codes. -/
def putReset (u : Ubbstate) : List (List UInt8) × Ubbstate :=
  ((if u.underline then [ascii "[/underline]"] else []) ++ [ascii "[/color]"],
    { u with highlight := false, underline := false })

/-- The loop over `ubb2` from `UBB_BEGIN_OTHER` on. -/
def putOther (u : Ubbstate) (tmp : List UInt8) : List (List UInt8) × Ubbstate :=
  let c := ubbBeginOther +
    (ubb2.drop ubbBeginOther).findIdx fun row => row.ansi.take 8 = tmp.take 8
  ((ubb2[c]?.map Ansi2Ubb.ubb).toList,
    { u with underline := u.underline || c == ubbBeginUnderline })

/-- The tags for one code. -/
def putCode (u : Ubbstate) (tmp : List UInt8) : List (List UInt8) × Ubbstate :=
  let n := atoi tmp
  if n = 999 then ([ascii "[ubb off]"], { u with useubb := false })
  else if n = 0 then putReset u
  else if n = 1 then ([ascii "[highlight]"], { u with highlight := true })
  else if n = 2 then ([ascii "[normal]"], { u with highlight := false })
  else if 30 ≤ n ∧ n ≤ 37 then ((ubb2[(n - 30).toNat]?.map Ansi2Ubb.ubb).toList, u)
  else if 40 ≤ n ∧ n ≤ 47 then ((ubb2[(n - 32).toNat]?.map Ansi2Ubb.ubb).toList, u)
  else putOther u tmp

/-- The tags for an escape sequence. -/
def putSequence (u : Ubbstate) (ansibuf : List UInt8) : List (List UInt8) × Ubbstate :=
  let (out, u) := if ansibuf = [] then putReset u else ([], u)
  let (rest, u) := through putCode u (strtoks [59] ansibuf)
  (out ++ rest, u)

/-- `fputs`, before the rest is written. -/
def fputs (out : List UInt8) (rest : List UInt8 × Ubbstate) : List UInt8 × Ubbstate :=
  (out ++ rest.1, rest.2)

/-- `ansi2ubb` -/
def ansi2ubb (u : Ubbstate) : List UInt8 → List UInt8 × Ubbstate
  | [] => ([], u)
  | ch :: s =>
      if ch = 60 then fputs (ascii "&lt;") (ansi2ubb u s)
      else if ch = 62 then fputs (ascii "&gt;") (ansi2ubb u s)
      else if ch = 38 then fputs (ascii "&amp;") (ansi2ubb u s)
      else if ch = 27 then
        match escCodes s with
        | none => fputs [ch] (ansi2ubb u s)
        | some ansibuf =>
          if !u.useubb then
            if ansibuf = ascii "998" then
              fputs (ascii "[ubb on]")
                (ansi2ubb { u with useubb := true } (s.drop (ansibuf.length + 2)))
            else fputs [ch] (ansi2ubb u s)
          else
            let (out, u) := putSequence u ansibuf
            fputs out.flatten (ansi2ubb u (s.drop (ansibuf.length + 2)))
      else fputs [ch] (ansi2ubb u s)
termination_by s => s.length
decreasing_by all_goals simp only [List.length_drop, List.length_cons]; omega

/-! ## From tags to escape sequences -/

/-- What is between a `[` and the next `]`, when it is at most 60 characters long. -/
def ubbtag (s : List UInt8) : Option (List UInt8) :=
  let tag := (s.take 60).takeWhile (· != 93)
  if s[tag.length]? = some 93 then some tag else none

/-- The row of a tag: when the tags are off only `ubb on` is one. -/
def findTag (useubb : Bool) (tag : List UInt8) : Option Ubb2Ansi :=
  if !useubb then if tag = endNoubb.ubb then some endNoubb else none
  else ubb.find? fun row => row.ubb.take 32 = tag.take 32

/-- The loop of `ubb2ansi`. -/
def ubb2ansiLoop (useubb : Bool) : List UInt8 → List UInt8
  | [] => []
  | ch :: s =>
      if ch ≠ 91 then ch :: ubb2ansiLoop useubb s
      else
        match ubbtag s with
        | none => ch :: ubb2ansiLoop useubb s
        | some tag =>
          match findTag useubb tag with
          | none => ch :: ubb2ansiLoop useubb s
          | some row =>
            row.ansi ++ ubb2ansiLoop (row ≠ beginNoubb) (s.drop (tag.length + 1))
termination_by s => s.length
decreasing_by all_goals simp only [List.length_drop, List.length_cons]; omega

/-- `ubb2ansi`: what it writes into the file. -/
def ubb2ansi (s : List UInt8) : List UInt8 := ubb2ansiLoop true s

/-! ## Fonts -/

/-- `struct bbsfont`. -/
structure Bbsfont where
  color : Int
  bgcolor : Int
  underline : Bool
  bold : Bool
  italic : Bool
  hilight : Bool
  deriving DecidableEq

/-- `bzero(bf, sizeof (*bf)); bf->color = 7;` -/
def Bbsfont.plain : Bbsfont := ⟨7, 0, false, false, false, false⟩

/-- The branches of `ansifont`. -/
def fontCode (bf : Bbsfont) (n : Int) : Bbsfont :=
  if n = 0 then .plain
  else if 29 < n ∧ n < 38 then { bf with color := n - 30 }
  else if 39 < n ∧ n < 48 then { bf with bgcolor := n - 40 }
  else if n = 1 then { bf with hilight := true }
  else if n = 2 then { bf with hilight := false }
  else if n = 101 then { bf with bold := true }
  else if n = 102 then { bf with bold := false }
  else if n = 111 then { bf with italic := true }
  else if n = 112 then { bf with italic := false }
  else if n = 4 then { bf with underline := true }
  else bf

/-- `ansifont` -/
def ansifont (ansi : List UInt8) (bf : Bbsfont) : Bbsfont :=
  match strtoks [59, 109] (strsncpy ansi (min (ansi.length + 1) 30)) with
  | [] => .plain
  | ptrs => ptrs.foldl (fun bf ptr => fontCode bf (atoi ptr)) bf

/-! ## Reading escape sequences -/

theorem esc_prefix_iff (codes s : List UInt8) :
    esc codes <+: 27 :: s ↔ s.head? = some 91 ∧ codes ++ [109] <+: s.tail := by
  cases s with
  | nil => simp [esc]
  | cons c s => simp [esc, eq_comm]

/-- A word with an end that is not in it is the longest of its letters. -/
theorem takeWhile_eq_iff {p : UInt8 → Bool} {x : UInt8} (hx : p x = false) {n : Nat}
    {w s : List UInt8} :
    (s.take n).takeWhile p = w ∧ s[w.length]? = some x ↔
      (w.length ≤ n ∧ ∀ c ∈ w, p c = true) ∧ w ++ [x] <+: s := by
  constructor
  · rintro ⟨rfl, hend⟩
    have hpre : (s.take n).takeWhile p <+: s :=
      (List.takeWhile_prefix p).trans (List.take_prefix n s)
    obtain ⟨t, ht⟩ := hpre
    refine ⟨⟨(List.takeWhile_prefix p).length_le.trans (List.length_take_le n s), ?_⟩, ?_⟩
    · exact fun c hc => List.mem_takeWhile_imp hc
    · generalize (s.take n).takeWhile p = w at ht hend
      subst ht
      rw [List.getElem?_append_right le_rfl, Nat.sub_self] at hend
      cases t with
      | nil => contradiction
      | cons y t =>
          obtain rfl := Option.some.inj hend
          exact ⟨t, by simp⟩
  · rintro ⟨⟨hlen, hall⟩, t, rfl⟩
    have hstop : ∀ k, ((x :: t).take k).takeWhile p = [] := by
      intro k
      cases k with
      | zero => rfl
      | succ k => rw [List.take_succ_cons, List.takeWhile_cons, hx, if_neg Bool.false_ne_true]
    constructor
    · rw [List.append_assoc, List.singleton_append, List.take_append, List.take_of_length_le hlen,
        List.takeWhile_append_of_pos hall, hstop, List.append_nil]
    · simp

/-- The scan finds the codes of the sequence that the text begins with. -/
theorem escCodes_iff (s codes : List UInt8) : escCodes s = some codes ↔
    (codes.length ≤ 22 ∧ ∀ c ∈ codes, isCode c = true) ∧ esc codes <+: 27 :: s := by
  rw [esc_prefix_iff, and_left_comm, ← takeWhile_eq_iff (p := isCode) (x := 109) rfl, escCodes]
  constructor
  · intro h
    split_ifs at h with hfound
    obtain rfl := Option.some.inj h
    exact ⟨hfound.1, rfl, hfound.2⟩
  · rintro ⟨hhead, rfl, hend⟩
    rw [if_pos ⟨hhead, hend⟩]

theorem readEsc_iff (s codes : List UInt8) :
    (if s.head? = some 27 then escCodes s.tail else none) = some codes ↔
      (codes.length ≤ 22 ∧ ∀ c ∈ codes, isCode c = true) ∧ esc codes <+: s := by
  cases s with
  | nil => simp [esc]
  | cons c s =>
      by_cases hc : c = 27
      · subst hc
        exact escCodes_iff s codes
      · have hne : (c :: s).head? ≠ some 27 := by simpa using hc
        rw [if_neg hne]
        simp [esc, Ne.symm hc]

theorem esc_ne_nil (codes : List UInt8) : esc codes ≠ [] := by simp [esc]

/-- The escape sequences of a text, as `hsprintf` and `ansi2ubb` find them. -/
def escapes : Reader Unit (List UInt8) UInt8 where
  word := esc
  allowed _ codes := codes.length ≤ 22 ∧ ∀ c ∈ codes, isCode c = true
  next u _ := u
  reads _ s := if s.head? = some 27 then escCodes s.tail else none
  reads_iff _ := readEsc_iff
  word_ne_nil := esc_ne_nil

theorem isCode_range {c : UInt8} (h : isCode c = true) : 48 ≤ c ∧ c ≤ 59 := by
  simp only [isCode, isdigit, Bool.or_eq_true, Bool.and_eq_true, decide_eq_true_eq, beq_iff_eq] at h
  rcases h with ⟨hlo, hhi⟩ | rfl
  · exact ⟨hlo, UInt8.le_trans hhi (by decide)⟩
  · decide

/-- Behind its ESC a sequence is plain text. -/
theorem esc_tail_plain {codes : List UInt8} (h : ∀ c ∈ codes, isCode c = true) :
    ∀ c ∈ (esc codes).tail, c ≠ 27 ∧ c ≠ 60 ∧ c ≠ 62 ∧ c ≠ 38 := by
  intro c hc
  simp only [esc, List.tail_cons, List.mem_cons, List.mem_append, List.not_mem_nil, or_false] at hc
  rcases hc with rfl | hc | rfl
  · decide
  · obtain ⟨hlo, hhi⟩ := isCode_range (h c hc)
    refine ⟨?_, ?_, ?_, ?_⟩ <;> rintro rfl <;> revert hlo hhi <;> decide
  · decide

theorem scan_notEsc {ch : UInt8} (hch : ch ≠ 27) (s : List UInt8) :
    escapes.scan () (ch :: s) = .inr ch :: escapes.scan () s :=
  Reader.scan_char (if_neg (by simpa using hch))

theorem scan_esc {codes s : List UInt8} (h : escCodes s = some codes) :
    escapes.scan () (27 :: s) = .inl codes :: escapes.scan () (s.drop (codes.length + 2)) ∧
      s = (esc codes).tail ++ s.drop (codes.length + 2) ∧ ∀ c ∈ codes, isCode c = true := by
  obtain ⟨hallowed, t, ht⟩ := (escCodes_iff s codes).mp h
  have hs : s = (esc codes).tail ++ t := (List.cons.inj ht).2.symm
  have hdrop : s.drop (codes.length + 2) = t := by
    rw [hs]
    exact List.drop_left' (by simp [esc])
  rw [hdrop, ← ht]
  exact ⟨Reader.scan_mark (r := escapes) hallowed t, hs, hallowed.2⟩

/-! ## Reading tags -/

/-- A tag. -/
def tag (row : Ubb2Ansi) : List UInt8 := 91 :: (row.ubb ++ [93])

theorem tag_ne_nil (row : Ubb2Ansi) : tag row ≠ [] := by simp [tag]

theorem ubb_short : ∀ row ∈ ubb, row.ubb.length < 32 ∧ ∀ c ∈ row.ubb, (c != 93) = true := by
  decide +kernel

theorem ubbtag_iff (s name : List UInt8) : ubbtag s = some name ↔
    (name.length ≤ 60 ∧ ∀ c ∈ name, (c != 93) = true) ∧ name ++ [93] <+: s := by
  rw [← takeWhile_eq_iff (p := (· != 93)) (x := 93) rfl, ubbtag]
  constructor
  · intro h
    split_ifs at h with hend
    obtain rfl := Option.some.inj h
    exact ⟨rfl, hend⟩
  · rintro ⟨rfl, hend⟩
    rw [if_pos hend]

/-- The rows that `ubb2ansi` looks for. -/
def Known (useubb : Bool) (row : Ubb2Ansi) : Prop := if useubb then row ∈ ubb else row = endNoubb

instance (useubb : Bool) (row : Ubb2Ansi) : Decidable (Known useubb row) :=
  inferInstanceAs (Decidable (if useubb then row ∈ ubb else row = endNoubb))

theorem ubb_names : ∀ row ∈ ubb, ∀ row' ∈ ubb, row.ubb = row'.ubb → row = row' := by
  decide +kernel

theorem endNoubb_mem : endNoubb ∈ ubb :=
  List.mem_append_right _ (List.mem_cons_of_mem _ List.mem_cons_self)

theorem known_mem {useubb : Bool} {row : Ubb2Ansi} (h : Known useubb row) : row ∈ ubb := by
  unfold Known at h
  split at h
  · exact h
  · subst h
    exact endNoubb_mem

theorem findTag_iff (useubb : Bool) (name : List UInt8) (row : Ubb2Ansi) :
    findTag useubb name = some row ↔ Known useubb row ∧ row.ubb = name := by
  have htake : ∀ row ∈ ubb, row.ubb.take 32 = name.take 32 ↔ row.ubb = name := by
    intro row hrow
    have hlen := (ubb_short row hrow).1
    constructor
    · intro h
      rw [List.take_of_length_le hlen.le] at h
      have hname : name.length ≤ 32 := by
        have := congrArg List.length h
        rw [List.length_take] at this
        omega
      rwa [List.take_of_length_le hname] at h
    · rintro rfl
      rfl
  cases useubb with
  | false =>
      simp only [findTag, Known, Bool.not_false, if_true, Bool.false_eq_true, if_false]
      split_ifs with h
      · subst h
        constructor
        · rintro ⟨⟩
          exact ⟨rfl, rfl⟩
        · rintro ⟨rfl, -⟩
          rfl
      · refine iff_of_false (by simp) ?_
        rintro ⟨rfl, rfl⟩
        exact h rfl
  | true =>
      simp only [findTag, Known, Bool.not_true, Bool.false_eq_true, if_false, if_true]
      constructor
      · intro h
        have hmem := List.mem_of_find?_eq_some h
        have hfound := List.find?_some h
        rw [decide_eq_true_eq] at hfound
        exact ⟨hmem, (htake row hmem).mp hfound⟩
      · rintro ⟨hmem, rfl⟩
        cases hfind : ubb.find? fun row' => decide (row'.ubb.take 32 = row.ubb.take 32) with
        | none =>
            have hnone := List.find?_eq_none.mp hfind row hmem
            simp at hnone
        | some row' =>
            have hmem' := List.mem_of_find?_eq_some hfind
            have hfound := List.find?_some hfind
            rw [decide_eq_true_eq] at hfound
            rw [ubb_names row' hmem' row hmem ((htake row' hmem').mp hfound)]

/-- The tag that the text begins with. -/
def readTag (useubb : Bool) (s : List UInt8) : Option Ubb2Ansi :=
  if s.head? = some 91 then (ubbtag s.tail).bind (findTag useubb) else none

theorem readTag_iff (useubb : Bool) (s : List UInt8) (row : Ubb2Ansi) :
    readTag useubb s = some row ↔ Known useubb row ∧ tag row <+: s := by
  cases s with
  | nil => simp [readTag, tag]
  | cons c s =>
      by_cases hc : c = 91
      · subst hc
        rw [readTag, List.head?_cons, if_pos rfl, List.tail_cons, Option.bind_eq_some_iff, tag,
          List.cons_prefix_cons]
        simp only [ubbtag_iff, findTag_iff, true_and]
        constructor
        · rintro ⟨name, ⟨-, hbegin⟩, hknown, rfl⟩
          exact ⟨hknown, hbegin⟩
        · rintro ⟨hknown, hbegin⟩
          obtain ⟨hlen, hall⟩ := ubb_short row (known_mem hknown)
          exact ⟨row.ubb, ⟨⟨by omega, hall⟩, hbegin⟩, hknown, rfl⟩
      · have hne : (c :: s).head? ≠ some 91 := by simpa using hc
        rw [readTag, if_neg hne]
        simp [tag, Ne.symm hc]

/-- The tags of a text, as `ubb2ansi` finds them. -/
def tags : Reader Bool Ubb2Ansi UInt8 where
  word := tag
  allowed := Known
  next _ row := row ≠ beginNoubb
  reads := readTag
  reads_iff := readTag_iff
  word_ne_nil := tag_ne_nil

theorem read_cons {useubb : Bool} {ch : UInt8} (hch : ch = 91) (s : List UInt8) :
    tags.reads useubb (ch :: s) = (ubbtag s).bind (findTag useubb) := if_pos (by simp [hch])

/-- The loop writes a sequence for each tag. -/
theorem ubb2ansiLoop_eq (useubb : Bool) (s : List UInt8) :
    ubb2ansiLoop useubb s = (tags.scan useubb s).flatMap (Sum.elim Ubb2Ansi.ansi fun c => [c]) := by
  fun_induction ubb2ansiLoop useubb s with
  | case1 useubb => rw [Reader.scan, List.flatMap_nil]
  | case2 useubb ch s hch ih =>
      have hread : tags.reads useubb (ch :: s) = none := if_neg (by simpa using hch)
      rw [Reader.scan_char hread, ih]
      rfl
  | case3 useubb ch s hch hname ih =>
      have hread : tags.reads useubb (ch :: s) = none := by
        rw [read_cons (not_not.mp hch), hname, Option.bind_none]
      rw [Reader.scan_char hread, ih]
      rfl
  | case4 useubb ch s hch name hname hrow ih =>
      have hread : tags.reads useubb (ch :: s) = none := by
        rw [read_cons (not_not.mp hch), hname, Option.bind_some, hrow]
      rw [Reader.scan_char hread, ih]
      rfl
  | case5 useubb ch s hch name hname row hrow ih =>
      obtain ⟨hknown, rfl⟩ := (findTag_iff useubb name row).mp hrow
      obtain ⟨-, t, rfl⟩ := (ubbtag_iff s row.ubb).mp hname
      have hdrop : (row.ubb ++ [93] ++ t).drop (row.ubb.length + 1) = t :=
        List.drop_left' (by simp)
      have htext : ch :: (row.ubb ++ [93] ++ t) = tags.word row ++ t := by
        rw [not_not.mp hch]
        rfl
      rw [hdrop] at ih ⊢
      rw [htext, Reader.scan_mark (r := tags) hknown, ih]
      rfl

/-! ## Reading entities -/

/-- The entities that `ansi2ubb` writes. -/
inductive Entity
  | lt | gt | amp
  deriving DecidableEq

def Entity.char : Entity → UInt8
  | .lt => 60
  | .gt => 62
  | .amp => 38

def Entity.word : Entity → List UInt8
  | .lt => ascii "&lt;"
  | .gt => ascii "&gt;"
  | .amp => ascii "&amp;"

def readEntity (s : List UInt8) : Option Entity :=
  [Entity.lt, .gt, .amp].find? fun e => e.word.isPrefixOf s

theorem readEntity_iff (s : List UInt8) (e : Entity) : readEntity s = some e ↔ e.word <+: s := by
  have happart : ∀ e e' : Entity, e.word <+: s → e'.word <+: s → e = e' := by
    intro e e' he he'
    have hcase := List.prefix_or_prefix_of_prefix he he'
    revert hcase
    cases e <;> cases e' <;> decide
  constructor
  · intro h
    have hfound := List.find?_some h
    rwa [List.isPrefixOf_iff_prefix] at hfound
  · intro h
    cases hfind : readEntity s with
    | none =>
        have hnone := List.find?_eq_none.mp hfind e (by cases e <;> decide)
        exact absurd (List.isPrefixOf_iff_prefix.mpr h) hnone
    | some e' =>
        have hfound := List.find?_some hfind
        rw [List.isPrefixOf_iff_prefix] at hfound
        rw [happart e' e hfound h]

theorem readEntity_allowed (s : List UInt8) (e : Entity) :
    readEntity s = some e ↔ True ∧ e.word <+: s := by
  rw [true_and, readEntity_iff]

theorem entity_ne_nil (e : Entity) : e.word ≠ [] := by cases e <;> decide

/-- The entities of a page. -/
def entities : Reader Unit Entity UInt8 where
  word := Entity.word
  allowed _ _ := True
  next u _ := u
  reads _ := readEntity
  reads_iff _ := readEntity_allowed
  word_ne_nil := entity_ne_nil

/-- The text that a browser makes of what is in a form. -/
def decode (s : List UInt8) : List UInt8 := (entities.scan () s).map (Sum.elim Entity.char id)

/-- How a character is written into the form. -/
def entityOf (c : UInt8) : Entity ⊕ UInt8 :=
  if c = 60 then .inl .lt else if c = 62 then .inl .gt else if c = 38 then .inl .amp else .inr c

/-- How a text is written into the form. -/
def encode (s : List UInt8) : List UInt8 := entities.write (s.map entityOf)

theorem encode_append (s t : List UInt8) : encode (s ++ t) = encode s ++ encode t := by
  rw [encode, List.map_append, Reader.write_append]
  rfl

theorem encode_singleton (c : UInt8) : encode [c] =
    if c = 60 then ascii "&lt;" else if c = 62 then ascii "&gt;"
    else if c = 38 then ascii "&amp;" else [c] := by
  unfold encode entityOf
  simp only [List.map_cons, List.map_nil]
  split_ifs <;> rfl

theorem encode_plain {s : List UInt8} (h : ∀ c ∈ s, c ≠ 60 ∧ c ≠ 62 ∧ c ≠ 38) : encode s = s := by
  have hplain : s.map entityOf = s.map .inr := by
    refine List.map_congr_left fun c hc => ?_
    obtain ⟨hlt, hgt, hamp⟩ := h c hc
    rw [entityOf, if_neg hlt, if_neg hgt, if_neg hamp]
  rw [encode, hplain, Reader.write_chars]

/-- Nothing is lost between `ansi2ubb` and the browser. -/
theorem decode_encode (s : List UInt8) : decode (encode s) = s := by
  have hclean : entities.Clean () (s.map entityOf) := by
    induction s with
    | nil => trivial
    | cons c s ih =>
        rw [List.map_cons, entityOf]
        split_ifs with hlt hgt hamp
        · exact ⟨trivial, ih⟩
        · exact ⟨trivial, ih⟩
        · exact ⟨trivial, ih⟩
        · refine ⟨?_, ih⟩
          rw [Option.eq_none_iff_forall_ne_some]
          intro e he
          have hpre := (entities.reads_iff _ _ e).mp he
          cases e <;> simp [entities, Entity.word, ascii, Ne.symm hamp] at hpre
  rw [decode, encode, Reader.scan_write hclean, List.map_map]
  conv_rhs => rw [← List.map_id s]
  refine List.map_congr_left fun c _ => ?_
  rw [Function.comp_apply, entityOf]
  split_ifs with hlt hgt hamp
  · exact hlt.symm
  · exact hgt.symm
  · exact hamp.symm
  · rfl

/-! ## The tags of a sequence -/

/-- The row of a tag. -/
def rowOf (str : List UInt8) : Ubb2Ansi := (ubb.find? fun row => tag row = str).getD beginNoubb

/-- The codes of the sequence of a row. -/
def codesOf (row : Ubb2Ansi) : List UInt8 := (row.ansi.drop 2).dropLast

theorem ansi_eq : ∀ row ∈ ubb, row.ansi = esc (codesOf row) := by decide +kernel

/-- The string is the tag of its row. -/
def IsTag (str : List UInt8) : Prop := rowOf str ∈ ubb ∧ tag (rowOf str) = str

instance (str : List UInt8) : Decidable (IsTag str) :=
  inferInstanceAs (Decidable (rowOf str ∈ ubb ∧ tag (rowOf str) = str))

/-- The numbers of the codes, as `ansifont` finds them. -/
def numbers (codes : List UInt8) : List Int := (strtoks [59, 109] codes).map atoi

/-- A tag whose sequence has the one code `n`. -/
def TagOf (n : Int) (str : List UInt8) : Prop := IsTag str ∧ numbers (codesOf (rowOf str)) = [n]

instance (n : Int) (str : List UInt8) : Decidable (TagOf n str) :=
  inferInstanceAs (Decidable (IsTag str ∧ numbers (codesOf (rowOf str)) = [n]))

theorem tagOf_const : TagOf 999 (ascii "[ubb off]") ∧ TagOf 1 (ascii "[highlight]") ∧
    TagOf 2 (ascii "[normal]") := by decide +kernel

/-- **The tables are inverse to each other.** -/
theorem tagOf_ubb2 : ∀ row ∈ ubb2, TagOf (atoi row.ansi) row.ubb := by decide +kernel

theorem ubb2_colors : ∀ k : Nat, k < 8 →
    ubb2[k]?.map (atoi ·.ansi) = some (30 + k : Int) ∧
      ubb2[8 + k]?.map (atoi ·.ansi) = some (40 + k : Int) := by decide +kernel

theorem ubb2_short : ∀ row ∈ ubb2, row.ansi.length < 8 := by decide

theorem ubb2_other :
    (ubb2.drop ubbBeginOther).map (atoi ·.ansi) = [101, 102, 111, 112, 4] := by decide +kernel

/-- The loop over the other rows finds the row of the code as it is written. -/
theorem putOther_cases (u : Ubbstate) (tmp : List UInt8) :
    (∃ row ∈ ubb2.drop ubbBeginOther, tmp = row.ansi ∧ (putOther u tmp).1 = [row.ubb]) ∨
      ((putOther u tmp).1 = [] ∧ ∀ row ∈ ubb2.drop ubbBeginOther, tmp ≠ row.ansi) := by
  unfold putOther
  simp only
  rw [← List.getElem?_drop]
  cases hrow : (ubb2.drop ubbBeginOther)[(ubb2.drop ubbBeginOther).findIdx fun row =>
      decide (row.ansi.take 8 = tmp.take 8)]? with
  | none =>
      right
      refine ⟨rfl, ?_⟩
      rintro row hmem rfl
      rw [List.getElem?_eq_none_iff, ← not_lt, List.findIdx_lt_length] at hrow
      exact hrow ⟨row, hmem, by simp⟩
  | some row =>
      left
      have hmem := List.mem_of_getElem? hrow
      have hlen := ubb2_short row (List.mem_of_mem_drop hmem)
      have hfound := List.findIdx_of_getElem?_eq_some hrow
      rw [decide_eq_true_eq, List.take_of_length_le hlen.le] at hfound
      refine ⟨row, hmem, ?_, rfl⟩
      have hshort : tmp.length ≤ 8 := by
        have := congrArg List.length hfound
        rw [List.length_take] at this
        omega
      rw [hfound, List.take_of_length_le hshort]

/-- A code that is in none of the branches of `ansifont` does nothing. -/
theorem fontCode_other {n : Int} (h0 : n ≠ 0) (h1 : n ≠ 1) (h2 : n ≠ 2) (h3 : ¬ (30 ≤ n ∧ n ≤ 37))
    (h4 : ¬ (40 ≤ n ∧ n ≤ 47)) (h : ∀ row ∈ ubb2.drop ubbBeginOther, n ≠ atoi row.ansi)
    (bf : Bbsfont) : fontCode bf n = bf := by
  have hother : n ∉ (ubb2.drop ubbBeginOther).map (atoi ·.ansi) := by
    rw [List.mem_map]
    rintro ⟨row, hmem, hn⟩
    exact h row hmem hn.symm
  simp only [ubb2_other, List.mem_cons, List.not_mem_nil, or_false, not_or] at hother
  obtain ⟨h101, h102, h111, h112, h4'⟩ := hother
  rw [fontCode, if_neg h0, if_neg (by omega), if_neg (by omega), if_neg h1, if_neg h2, if_neg h101,
    if_neg h102, if_neg h111, if_neg h112, if_neg h4']

/-- The code is written as the table has it. -/
def Spelt (tmp : List UInt8) : Prop :=
  ∀ row ∈ ubb2.drop ubbBeginOther, atoi tmp = atoi row.ansi → tmp = row.ansi

/-- What `ansi2ubb` does with a code: it writes the tag of the code, the tags of code 0, or
nothing. -/
theorem putCode_cases (u : Ubbstate) (tmp : List UInt8) :
    (∃ str, (putCode u tmp).1 = [str] ∧ TagOf (atoi tmp) str) ∨
      (atoi tmp = 0 ∧ putCode u tmp = putReset u) ∨
        ((putCode u tmp).1 = [] ∧ (Spelt tmp → ∀ bf, fontCode bf (atoi tmp) = bf)) := by
  obtain ⟨hoff, hhigh, hnormal⟩ := tagOf_const
  have hcolor : ∀ (k : Nat) (row : Ansi2Ubb), ubb2[k]? = some row → atoi row.ansi = atoi tmp →
      ∃ str, (ubb2[k]?.map Ansi2Ubb.ubb).toList = [str] ∧ TagOf (atoi tmp) str := by
    intro k row hrow hn
    refine ⟨row.ubb, by rw [hrow]; rfl, ?_⟩
    rw [← hn]
    exact tagOf_ubb2 row (List.mem_of_getElem? hrow)
  unfold putCode
  simp only
  split_ifs with h999 h0 h1 h2 h3 h4
  · exact .inl ⟨_, rfl, h999 ▸ hoff⟩
  · exact .inr (.inl ⟨h0, rfl⟩)
  · exact .inl ⟨_, rfl, h1 ▸ hhigh⟩
  · exact .inl ⟨_, rfl, h2 ▸ hnormal⟩
  · obtain ⟨row, hrow, hn⟩ := Option.map_eq_some_iff.mp
      (ubb2_colors (atoi tmp - 30).toNat (by omega)).1
    exact .inl (hcolor _ row hrow (by omega))
  · obtain ⟨row, hrow, hn⟩ := Option.map_eq_some_iff.mp
      (ubb2_colors (atoi tmp - 40).toNat (by omega)).2
    have hk : 8 + (atoi tmp - 40).toNat = (atoi tmp - 32).toNat := by omega
    rw [hk] at hrow
    exact .inl (hcolor _ row hrow (by omega))
  · obtain ⟨row, hmem, rfl, hout⟩ | ⟨hout, hnone⟩ := putOther_cases u tmp
    · exact .inl ⟨_, hout, tagOf_ubb2 row (List.mem_of_mem_drop hmem)⟩
    · refine .inr (.inr ⟨hout, fun hspelt bf => ?_⟩)
      exact fontCode_other h0 h1 h2 h3 h4 (fun row hmem hn => hnone row hmem (hspelt row hmem hn)) bf

/-- The tags of code 0, whose sequences have no codes. -/
theorem putReset_tags (u : Ubbstate) :
    ∀ str ∈ (putReset u).1, IsTag str ∧ codesOf (rowOf str) = [] := by
  have hrows : ∀ str ∈ [ascii "[/underline]", ascii "[/color]"],
      IsTag str ∧ codesOf (rowOf str) = [] := by decide +kernel
  intro str hstr
  refine hrows str ?_
  have hmem : (u.underline = true ∧ str = ascii "[/underline]") ∨ str = ascii "[/color]" := by
    simpa [putReset] using hstr
  simpa using hmem.imp_left And.right

theorem putReset_ne_nil (u : Ubbstate) : (putReset u).1 ≠ [] := by simp [putReset]

/-- There is a tag for the code. -/
def tagged (tmp : List UInt8) : Bool := (putCode .start tmp).1 ≠ []

theorem putCode_nil_iff (u : Ubbstate) (tmp : List UInt8) :
    (putCode u tmp).1 = [] ↔ tagged tmp = false := by
  unfold tagged putCode putReset putOther
  simp only
  split_ifs <;> simp

theorem useubb_putCode (u : Ubbstate) (tmp : List UInt8) :
    (putCode u tmp).2.useubb = (u.useubb && atoi tmp ≠ 999) := by
  unfold putCode putReset putOther
  simp only
  split_ifs with h <;> simp [h]

theorem isTag_putCode (u : Ubbstate) (tmp : List UInt8) :
    ∀ str ∈ (putCode u tmp).1, IsTag str := by
  obtain ⟨str, hout, htag⟩ | ⟨-, hout⟩ | ⟨hout, -⟩ := putCode_cases u tmp
  · rw [hout, List.forall_mem_singleton]
    exact htag.1
  · rw [hout]
    exact fun str hstr => (putReset_tags u str hstr).1
  · rw [hout]
    simp

section Sequence

variable (u : Ubbstate) (codes : List UInt8)

theorem isTag_through (toks : List (List UInt8)) :
    ∀ str ∈ (through putCode u toks).1, IsTag str := by
  induction toks generalizing u with
  | nil => simp
  | cons tmp toks ih =>
      rw [through_cons, List.forall_mem_append]
      exact ⟨isTag_putCode u tmp, ih _⟩

theorem through_nil_iff (toks : List (List UInt8)) :
    (through putCode u toks).1 = [] ↔ toks.all (!tagged ·) = true := by
  induction toks generalizing u with
  | nil => simp
  | cons tmp toks ih =>
      rw [through_cons, List.append_eq_nil_iff, putCode_nil_iff, ih, List.all_cons,
        Bool.and_eq_true, Bool.not_eq_true']

theorem useubb_through (toks : List (List UInt8)) : (through putCode u toks).2.useubb =
    (u.useubb && toks.all (atoi · ≠ 999)) := by
  induction toks generalizing u with
  | nil => simp
  | cons tmp toks ih => rw [through_cons, ih, useubb_putCode, List.all_cons, Bool.and_assoc]

/-- A sequence without codes is reset, any other is written code by code. -/
theorem putSequence_eq : putSequence u codes =
    if codes = [] then putReset u else through putCode u (strtoks [59] codes) := by
  unfold putSequence
  split_ifs with h
  · subst h
    simp [strtoks]
  · rfl

theorem isTag_putSequence : ∀ str ∈ (putSequence u codes).1, IsTag str := by
  rw [putSequence_eq]
  split_ifs
  · exact fun str hstr => (putReset_tags u str hstr).1
  · exact isTag_through u _

end Sequence

/-! ## The fonts of a sequence -/

theorem strtoks_eq {codes : List UInt8} (h : ∀ c ∈ codes, isCode c = true) :
    strtoks [59, 109] codes = strtoks [59] codes := by
  have hsplit : codes.splitOnP ([59, 109].contains ·) = codes.splitOnP ([59].contains ·) := by
    induction codes with
    | nil => rfl
    | cons c codes ih =>
        rw [List.forall_mem_cons] at h
        have hc : [59, 109].contains c = [59].contains c := by
          have hne : c ≠ 109 := by
            rintro rfl
            exact absurd h.1 (by decide)
          simp [hne]
        rw [List.splitOnP_cons_eq_if_modifyHead, List.splitOnP_cons_eq_if_modifyHead, hc, ih h.2]
  unfold strtoks
  rw [hsplit]

/-- `ansifont` takes the codes of a sequence one by one. -/
theorem ansifont_eq {codes : List UInt8} (h : escapes.allowed () codes) (bf : Bbsfont) :
    ansifont codes bf = if numbers codes = [] then .plain else (numbers codes).foldl fontCode bf := by
  have hbuf : strsncpy codes (min (codes.length + 1) 30) = codes := by
    refine strsncpy_eq_self ?_ ?_
    · intro h0
      exact absurd (h.2 0 h0) (by decide)
    · have := h.1
      omega
  rw [ansifont, hbuf, numbers]
  cases strtoks [59, 109] codes with
  | nil => rfl
  | cons ptr ptrs => simp [List.foldl_map]

/-- The font behind some tags. -/
def fontOf (strs : List (List UInt8)) (bf : Bbsfont) : Bbsfont :=
  strs.foldl (fun bf str => ansifont (codesOf (rowOf str)) bf) bf

theorem fontOf_append (strs strs' : List (List UInt8)) (bf : Bbsfont) :
    fontOf (strs ++ strs') bf = fontOf strs' (fontOf strs bf) := List.foldl_append

theorem fontOf_singleton (str : List UInt8) (bf : Bbsfont) :
    fontOf [str] bf = ansifont (codesOf (rowOf str)) bf := rfl

theorem fontOf_plain {strs : List (List UInt8)} (h : ∀ str ∈ strs, codesOf (rowOf str) = [])
    (bf : Bbsfont) : fontOf strs bf = if strs = [] then bf else .plain := by
  induction strs generalizing bf with
  | nil => rfl
  | cons str strs ih =>
      rw [List.forall_mem_cons] at h
      have hfirst : fontOf (str :: strs) bf = fontOf strs .plain := by
        rw [fontOf, List.foldl_cons, h.1]
        rfl
      rw [hfirst, ih h.2, ite_self, if_neg (List.cons_ne_nil _ _)]

theorem fontOf_reset (u : Ubbstate) (bf : Bbsfont) : fontOf (putReset u).1 bf = .plain := by
  rw [fontOf_plain fun str hstr => (putReset_tags u str hstr).2, if_neg (putReset_ne_nil u)]

theorem allowed_rows : ∀ row ∈ ubb,
    (codesOf row).length ≤ 22 ∧ ∀ c ∈ codesOf row, isCode c = true := by decide +kernel

theorem fontOf_putCode {tmp : List UInt8} (h : Spelt tmp) (u : Ubbstate) (bf : Bbsfont) :
    fontOf (putCode u tmp).1 bf = fontCode bf (atoi tmp) := by
  obtain ⟨str, hout, htag⟩ | ⟨h0, hout⟩ | ⟨hout, hfont⟩ := putCode_cases u tmp
  · have hallowed : escapes.allowed () (codesOf (rowOf str)) := allowed_rows _ htag.1.1
    rw [hout, fontOf_singleton, ansifont_eq hallowed, htag.2, if_neg (List.cons_ne_nil _ _)]
    rfl
  · rw [hout, fontOf_reset, h0]
    rfl
  · rw [hout, hfont h bf]
    rfl

theorem fontOf_through {toks : List (List UInt8)} (h : ∀ tmp ∈ toks, Spelt tmp) (u : Ubbstate)
    (bf : Bbsfont) : fontOf (through putCode u toks).1 bf = (toks.map atoi).foldl fontCode bf := by
  induction toks generalizing u bf with
  | nil => rfl
  | cons tmp toks ih =>
      rw [List.forall_mem_cons] at h
      rw [through_cons, fontOf_append, fontOf_putCode h.1, ih h.2]
      rfl

end Ytht.Ubb
