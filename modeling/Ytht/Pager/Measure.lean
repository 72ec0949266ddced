import Ytht.Attach.Append
import Ytht.Screen.Picture

/-!
# Pager.Measure

How the pager cuts a text into lines, `measure_line` of `more.c`: at the end of a line of the text,
or where the screen ends, at the last place where a line may be broken.

An attachment takes two lines, which begin at the same place: one to name it, which is given the
length 0, and one for its link, which passes over it.  A last line, of no text, is for the links of
the article.
-/

namespace Ytht.Pager

open Screen (isprint2)

/-- `enum LINE_CODE` -/
inductive LineCode
  | normal
  | normalNocf
  | quota
  | quotaNocf
  | attachmentBinary
  | attachmentBase64
  | attachmentBinaryLink
  | attachmentBase64Link
  | articleLink
deriving DecidableEq, Repr

/-- The variables of the loop of `measure_line`. -/
structure Scan where
  w : Nat
  inEsc : Bool
  eschtml : Bool
  db : Bool
  lastspace : Int
  asciiart : Bool
  escQuote : Bool
  escQuoteQuote : Bool

/-- As they are declared. -/
def Scan.start : Scan := ⟨0, false, false, false, 0, false, false, false⟩

/-- `strchr(set, c) != NULL`, also for the NUL that ends the set. -/
def strchr (set : List UInt8) (c : UInt8) : Bool := c = 0 || set.contains c

/-- Where a line is broken before the character at `i`, which no longer fits: `*l` and `*s`. -/
def breakAt (p0 : List UInt8) (i : Nat) (c : UInt8) (v : Scan) : Nat × Nat :=
  let l :=
    if v.db then i - 1
    else if c = 32 then i
    else if 0 < v.lastspace then v.lastspace.toNat + 1
    else i
  (l, if p0[l]? = some 10 then l + 1 else l)

/-- A character of an escape sequence. -/
def scanEsc (c : UInt8) (v : Scan) : Scan :=
  if v.eschtml then
    let escQuote := if c = 39 ∧ ¬ v.escQuoteQuote then !v.escQuote else v.escQuote
    let escQuoteQuote := if c = 34 ∧ ¬ escQuote then !v.escQuoteQuote else v.escQuoteQuote
    { v with
      escQuote := escQuote
      escQuoteQuote := escQuoteQuote
      inEsc := !(c = 62 && !escQuote && !escQuoteQuote) }
  else if strchr (ascii "suHMfL@PABCDJK") c then { v with asciiart := true }
  else if ¬ strchr (ascii "[0123456789;,") c then { v with inEsc := false }
  else v

/-- A character that takes a column. -/
def scanText (i : Nat) (c : UInt8) (v : Scan) : Scan :=
  if v.db then { v with db := false, lastspace := i, w := v.w + 1 }
  else if 128 ≤ c then { v with db := true, w := v.w + 1 }
  else if strchr (ascii " >)]\x7d,;'") c then { v with lastspace := i, w := v.w + 1 }
  else { v with w := v.w + 1 }

/-- One character that neither ends the line nor is behind its end; `rest` is the text from it. -/
def scanChar (i : Nat) (c : UInt8) (rest : List UInt8) (v : Scan) : Scan :=
  if v.asciiart then v
  else if c = 9 then { v with db := false, w := (v.w + 8) / 8 * 8, lastspace := i }
  else if c = 27 then
    { v with
      db := false
      inEsc := !(3 ≤ rest.length && rest[1]? == some 60)
      escQuote := false
      escQuoteQuote := false
      lastspace := i - 1
      eschtml := 4 ≤ rest.length && rest[1]? == some 91 && rest[2]? == some 60 }
  else if v.inEsc then scanEsc c v
  else if isprint2 c then scanText i c v
  else v

/-- The character is one that takes a column. -/
def isText (c : UInt8) (v : Scan) : Bool :=
  !v.asciiart && c != 9 && c != 27 && !v.inEsc && isprint2 c

/-- The loop of `measure_line`, from the character at `i`: `*l` and `*s`. -/
def scanLine (columns : Nat) (p0 : List UInt8) : Nat → List UInt8 → Scan → Nat × Nat
  | i, [], _ => (i, i)
  | i, c :: rest, v =>
      if c = 10 then (i, i + 1)
      else if isText c v ∧ columns ≤ v.w then breakAt p0 i c v
      else scanLine columns p0 (i + 1) rest (scanChar i c (c :: rest) v)

/-- The text behind the first `\n`, `none` where there is none. -/
def nextLine (p : List UInt8) : Option (List UInt8) :=
  match p.dropWhile (· ≠ 10) with
  | [] => none
  | _ :: rest => some rest

/-- How the search for the end of a uuencoded file comes out. -/
inductive Uuend
  /-- `p`, by what is left behind it; `NULL` counts as the end. -/
  | found (left : Nat)
  /-- `memchr` is called with `NULL`. -/
  | crash
deriving DecidableEq, Repr

/-- The loop over the lines behind `begin 644`. -/
def uuend : Nat → List UInt8 → Uuend
  | 0, _ => .found 0
  | fuel + 1, p =>
      match nextLine p with
      | none => .found 0
      | some p =>
          if 3 < p.length ∧ ascii "end" <+: p then
            match nextLine p with
            | none => .crash
            | some p => .found p.length
          else uuend fuel p

/-- The type of a line before it is looked at as an attachment. -/
def lineType (p0 : List UInt8) (l s : Nat) (oldty : LineCode) : LineCode :=
  let quota := 2 ≤ l ∧ ascii ": " <+: p0
  if 0 < s ∧ p0[s - 1]? = some 10 then
    match oldty with
    | .normalNocf => .normal
    | .quotaNocf => .quota
    | _ => if quota then .quota else .normal
  else
    match oldty with
    | .normalNocf => .normalNocf
    | .quotaNocf => .quotaNocf
    | _ => if quota then .quotaNocf else .normalNocf

/-- `*l`, `*s` and `*ty`. -/
structure Measure where
  len : Nat
  s : Nat
  ty : LineCode
deriving DecidableEq, Repr

/-- How `measure_line` ends. -/
inductive Measured
  | line (m : Measure)
  /-- It returns -1. -/
  | ended
  | crash
deriving DecidableEq, Repr

/-- `begin 644`, the line of `m`. -/
def measureBase64 (p0 : List UInt8) (oldty : LineCode) (m : Measure) : Measured :=
  if ascii "begin 644 " <+: p0 ∧ 10 < p0.length then
    match uuend p0.length p0 with
    | .crash => .crash
    | .found left =>
        if oldty = .attachmentBase64 then
          .line { m with s := p0.length - left, ty := .attachmentBase64Link }
        else .line { m with s := 0, ty := .attachmentBase64 }
  else .line m

/-- `beginbinaryattach`, the line of `m`. -/
def measureBinary (p0 : List UInt8) (oldty : LineCode) (m : Measure) : Measure :=
  if (ascii "beginbinaryattach " <+: p0 ∧ 19 < p0.length) ∧
      (m.s + 5 ≤ p0.length ∧ p0[m.s]? = some 0) then
    if oldty = .attachmentBinary then
      let s := m.s + 5 + min (ntohl (p0.drop (m.s + 1))) (p0.length - m.s - 5)
      { m with
        s := if p0[s]? = some 10 then s + 1 else s
        ty := .attachmentBinaryLink }
    else { m with s := 0, ty := .attachmentBinary }
  else m

/-- A line that may begin an attachment. -/
def measureAttach (p0 : List UInt8) (oldty : LineCode) (m : Measure) : Measured :=
  match measureBase64 p0 oldty m with
  | .line m => if m.ty = .normal then .line (measureBinary p0 oldty m) else .line m
  | r => r

/-- The line that the loop finds. -/
def textLine (columns : Nat) (p0 : List UInt8) (oldty : LineCode) : Measure :=
  let cut := scanLine columns p0 0 p0 .start
  ⟨cut.1, cut.2, lineType p0 cut.1 cut.2 oldty⟩

/-- `measure_line`, on the `size` characters of `p0`. -/
def measureLine (columns : Nat) (p0 : List UInt8) (oldty : LineCode) : Measured :=
  if p0 = [] then
    if oldty ≠ .articleLink then .line ⟨0, 0, .articleLink⟩ else .ended
  else
    let m := textLine columns p0 oldty
    if m.s = p0.length then .line m
    else if oldty ≠ .quotaNocf ∧ oldty ≠ .normalNocf ∧ m.ty = .normal then
      measureAttach p0 oldty m
    else .line m

/-! ## Where a line is cut -/

theorem drop_cons {p0 rest : List UInt8} {i : Nat} {c : UInt8} (h : p0.drop i = c :: rest) :
    p0[i]? = some c ∧ i < p0.length ∧ p0.drop (i + 1) = rest := by
  have hget : p0[i]? = some c := by
    rw [← List.head?_drop, h, List.head?_cons]
  refine ⟨hget, (List.getElem?_eq_some_iff.mp hget).1, ?_⟩
  rw [← List.drop_drop, h, List.drop_one, List.tail_cons]

/-- What the loop keeps, in front of the character at `i`. -/
structure Scanned (p0 : List UInt8) (i : Nat) (v : Scan) : Prop where
  le : i ≤ p0.length
  space : 0 < v.lastspace → v.lastspace < i
  zero : i = 0 → v.w = 0
  half : v.db = true → 1 ≤ i ∧ (v.w ≤ 1 ∨ 2 ≤ i)
  line : ∀ k < i, p0[k]? ≠ some 10

theorem scanEsc_eq (c : UInt8) (v : Scan) :
    (scanEsc c v).w = v.w ∧ (scanEsc c v).db = v.db ∧ (scanEsc c v).lastspace = v.lastspace := by
  unfold scanEsc
  split_ifs <;> exact ⟨rfl, rfl, rfl⟩

theorem scanText_eq (i : Nat) (c : UInt8) (v : Scan) :
    (scanText i c v).w = v.w + 1 ∧ (scanText i c v).inEsc = v.inEsc ∧
      (scanText i c v).asciiart = v.asciiart ∧
      (scanText i c v).db = (!v.db && 128 ≤ c) ∧
      ((scanText i c v).lastspace = v.lastspace ∨
        (scanText i c v).lastspace = i ∧ (scanText i c v).db = false) := by
  unfold scanText
  split_ifs <;> simp_all

/-- What a character can do to the variables. -/
theorem scanChar_cases (i : Nat) (c : UInt8) (rest : List UInt8) (v : Scan) :
    ((scanChar i c rest v).lastspace = v.lastspace ∨
        (scanChar i c rest v).lastspace = i ∧ (scanChar i c rest v).db = false ∨
        c = 27 ∧ (scanChar i c rest v).lastspace = i - 1) ∧
      ((scanChar i c rest v).db = true →
        v.db = true ∧ (scanChar i c rest v).w = v.w ∨ (scanChar i c rest v).w = v.w + 1) ∧
      ((scanChar i c rest v).asciiart = false → (scanChar i c rest v).db = true → c ≠ 27) := by
  unfold scanChar
  split
  · next hart =>
      exact ⟨.inl rfl, fun h => .inl ⟨h, rfl⟩, fun hart' _ => absurd (hart.symm.trans hart') (by simp)⟩
  split
  · exact ⟨.inr (.inl ⟨rfl, rfl⟩), fun h => by contradiction, fun _ h => by contradiction⟩
  split
  · next hesc =>
      exact ⟨.inr (.inr ⟨hesc, rfl⟩), fun h => by contradiction, fun _ h => by contradiction⟩
  · next hesc =>
      split
      · obtain ⟨hw, hdb, hspace⟩ := scanEsc_eq c v
        exact ⟨.inl hspace, fun h => .inl ⟨hdb ▸ h, hw⟩, fun _ _ => hesc⟩
      split
      · obtain ⟨hw, -, -, -, hspace⟩ := scanText_eq i c v
        exact ⟨hspace.imp_right .inl, fun _ => .inr hw, fun _ _ => hesc⟩
      · exact ⟨.inl rfl, fun h => .inl ⟨h, rfl⟩, fun _ _ => hesc⟩

theorem Scanned.next {p0 rest : List UInt8} {i : Nat} {c : UInt8} {v : Scan} (h : Scanned p0 i v)
    (hrest : p0.drop i = c :: rest) (hc : c ≠ 10) :
    Scanned p0 (i + 1) (scanChar i c (c :: rest) v) := by
  obtain ⟨hget, hlt, -⟩ := drop_cons hrest
  obtain ⟨hspace, hdb, -⟩ := scanChar_cases i c (c :: rest) v
  refine ⟨hlt, fun hpos => ?_, by simp, fun h' => ⟨by omega, ?_⟩, fun k hk => ?_⟩
  · have hold := h.space
    omega
  · have hzero := h.zero
    obtain ⟨hold, hw⟩ | hw := hdb h'
    · have hhalf := h.half hold
      omega
    · omega
  · obtain hk | rfl : k < i ∨ k = i := by omega
    · exact h.line k hk
    · rw [hget]
      simpa using hc

/-- What `scanLine` leaves in `*l` and `*s`. -/
structure Cut (p0 : List UInt8) (cut : Nat × Nat) : Prop where
  le : cut.2 ≤ p0.length
  /-- The line passes over its newline, and no other character is left out. -/
  newline : cut.2 = cut.1 ∨ cut.2 = cut.1 + 1 ∧ p0[cut.1]? = some 10
  line : ∀ k < cut.1, p0[k]? ≠ some 10
  pos : p0 ≠ [] → 0 < cut.2

theorem cut_breakAt {p0 : List UInt8} {i : Nat} {v : Scan} {columns : Nat} (h : Scanned p0 i v)
    (hi : i < p0.length) (hcols : 2 ≤ columns) (hw : columns ≤ v.w) (c : UInt8) :
    Cut p0 (breakAt p0 i c v) := by
  have hspace := h.space
  have hzero := h.zero
  have hhalf := h.half
  have hl : 0 < (breakAt p0 i c v).1 ∧ (breakAt p0 i c v).1 ≤ i := by
    unfold breakAt
    dsimp only
    split_ifs <;> grind
  have hs : (breakAt p0 i c v).2 =
      if p0[(breakAt p0 i c v).1]? = some 10 then (breakAt p0 i c v).1 + 1
      else (breakAt p0 i c v).1 := rfl
  refine ⟨?_, ?_, fun k hk => h.line k (by omega), fun _ => ?_⟩
  · rw [hs]
    split <;> omega
  · rw [hs]
    split
    · next hnl => exact .inr ⟨rfl, hnl⟩
    · exact .inl rfl
  · rw [hs]
    split <;> omega

theorem cut_scanLine {columns : Nat} (hcols : 2 ≤ columns) {p0 rest : List UInt8} {i : Nat}
    {v : Scan} (h : Scanned p0 i v) (hrest : p0.drop i = rest) :
    Cut p0 (scanLine columns p0 i rest v) := by
  induction rest generalizing i v with
  | nil =>
      have hlen : p0.length ≤ i := List.drop_eq_nil_iff.mp hrest
      have hle := h.le
      exact ⟨hle, .inl rfl, h.line, fun hne => by
        have hpos := List.length_pos_iff.mpr hne
        simp only [scanLine]
        omega⟩
  | cons c rest ih =>
      obtain ⟨hget, hlt, hnext⟩ := drop_cons hrest
      rw [scanLine]
      split
      · next hnl => exact ⟨hlt, .inr ⟨rfl, hnl ▸ hget⟩, h.line, fun _ => Nat.succ_pos i⟩
      split
      · next hfull => exact cut_breakAt h hlt hcols hfull.2 c
      · next hnl _ => exact ih (h.next hrest hnl) hnext

theorem scanned_start (p0 : List UInt8) : Scanned p0 0 .start :=
  ⟨Nat.zero_le _, fun h => by contradiction, fun _ => rfl, fun h => by contradiction,
    fun k hk => absurd hk (Nat.not_lt_zero k)⟩

/-! ## What fits -/

/-- The bytes end in the first half of a two-byte character. -/
def half (bytes : List UInt8) : Bool :=
  bytes.foldl (fun db c => if c = 9 then false else if isprint2 c then !db && 128 ≤ c else db) false

/-- The first `l` characters fit in the columns and are whole; without escape sequences. -/
def Fits (columns : Nat) (p0 : List UInt8) (l : Nat) : Prop :=
  27 ∉ p0.take l →
    (p0.take l).countP isprint2 ≤ columns ∧
      ∀ c, p0[l]? = some c → isprint2 c → (∀ c ∈ p0.take l, isprint2 c ∨ c = 9) →
        half (p0.take l) = false

/-- What the loop keeps of the width, in front of the character at `i`. -/
structure Fitted (columns : Nat) (p0 : List UInt8) (i : Nat) (v : Scan) : Prop where
  here : 27 ∉ p0.take i → v.inEsc = false ∧ v.asciiart = false ∧ v.db = half (p0.take i) ∧
    (p0.take i).countP isprint2 ≤ v.w ∧ (p0.take i).countP isprint2 ≤ columns
  last : 0 < v.lastspace → Fits columns p0 (v.lastspace.toNat + 1)
  db : v.asciiart = false → v.db = true → 1 ≤ i ∧ p0[i - 1]? ≠ some 27

theorem take_succ_of_get {p0 : List UInt8} {i : Nat} {c : UInt8} (h : p0[i]? = some c) :
    p0.take (i + 1) = p0.take i ++ [c] := by
  rw [List.take_add_one, h]
  rfl

theorem half_append (bytes : List UInt8) (c : UInt8) :
    half (bytes ++ [c]) =
      if c = 9 then false else if isprint2 c then !half bytes && 128 ≤ c else half bytes := by
  simp [half]

/-- Without escape sequences, the first `i` characters fit. -/
theorem Fitted.fits {columns : Nat} {p0 : List UInt8} {i : Nat} {v : Scan}
    (h : Fitted columns p0 i v) (hdb : v.db = false) : Fits columns p0 i := by
  intro hesc
  obtain ⟨-, -, hhalf, -, hcols⟩ := h.here hesc
  exact ⟨hcols, fun _ _ _ _ => hhalf.symm.trans hdb⟩

theorem Fitted.next {columns : Nat} {p0 rest : List UInt8} {i : Nat} {c : UInt8} {v : Scan}
    (h : Fitted columns p0 i v) (hrest : p0.drop i = c :: rest)
    (hroom : isText c v = true → v.w < columns) :
    Fitted columns p0 (i + 1) (scanChar i c (c :: rest) v) := by
  obtain ⟨hget, -, -⟩ := drop_cons hrest
  have htake := take_succ_of_get hget
  have hhere : 27 ∉ p0.take (i + 1) →
      (scanChar i c (c :: rest) v).inEsc = false ∧ (scanChar i c (c :: rest) v).asciiart = false ∧
        (scanChar i c (c :: rest) v).db = half (p0.take (i + 1)) ∧
        (p0.take (i + 1)).countP isprint2 ≤ (scanChar i c (c :: rest) v).w ∧
        (p0.take (i + 1)).countP isprint2 ≤ columns := by
    intro hesc
    rw [htake, List.mem_append, List.mem_singleton, not_or] at hesc
    obtain ⟨hin, hart, hdb, hw, hcols⟩ := h.here hesc.1
    have hne : c ≠ 27 := fun heq => hesc.2 heq.symm
    rw [htake, half_append, List.countP_append, List.countP_singleton, scanChar, if_neg (by simp [hart]),
      ← hdb]
    by_cases htab : c = 9
    · subst htab
      have hnot : isprint2 9 = false := by decide
      simp only [if_true, hin, hart, hnot, true_and, Bool.false_eq_true, if_false]
      omega
    · rw [if_neg htab, if_neg hne, if_neg (by simp [hin]), if_neg htab]
      by_cases hprint : isprint2 c = true
      · obtain ⟨hw', hin', hart', hdb', -⟩ := scanText_eq i c v
        have hlt := hroom (by simp [isText, hart, hin, htab, hne, hprint])
        rw [if_pos hprint, if_pos hprint, if_pos hprint, hw', hin', hart', hdb']
        exact ⟨hin, hart, rfl, by omega, by omega⟩
      · rw [if_neg hprint, if_neg hprint, if_neg hprint]
        exact ⟨hin, hart, rfl, hw, hcols⟩
  obtain ⟨hspace, -, hne⟩ := scanChar_cases i c (c :: rest) v
  refine ⟨hhere, fun hpos => ?_, fun hart hdb => ⟨Nat.succ_pos i, ?_⟩⟩
  · obtain heq | ⟨heq, hdb⟩ | ⟨hesc, heq⟩ := hspace
    · rw [heq] at hpos ⊢
      exact h.last hpos
    · rw [heq, Int.toNat_natCast]
      intro hno
      obtain ⟨-, -, hhalf, -, hcols⟩ := hhere hno
      exact ⟨hcols, fun _ _ _ _ => hhalf.symm.trans hdb⟩
    · -- the sequence begins the next line
      rw [heq, show ((i : Int) - 1).toNat + 1 = i by omega]
      intro hno
      refine ⟨(h.here hno).2.2.2.2, fun c' hc' hprint => ?_⟩
      rw [hget, Option.some.injEq] at hc'
      rw [← hc', hesc] at hprint
      exact absurd hprint (by decide)
  · rw [Nat.add_sub_cancel, hget]
    simpa using hne hart hdb

theorem fits_breakAt {columns : Nat} {p0 : List UInt8} {i : Nat} {c : UInt8} {v : Scan}
    (h : Fitted columns p0 i v) (hc : isText c v = true) (hle : 1 ≤ i → i - 1 < p0.length) :
    Fits columns p0 (breakAt p0 i c v).1 := by
  have hart : v.asciiart = false := by
    simp only [isText] at hc
    grind
  unfold breakAt
  dsimp only
  split
  · next hdb =>
      obtain ⟨hi, hlast⟩ := h.db hart hdb
      intro hesc
      have hlt : i - 1 < p0.length := hle hi
      have hget : p0[i - 1]? = some p0[i - 1] := List.getElem?_eq_getElem hlt
      have htake := take_succ_of_get hget
      rw [Nat.sub_add_cancel hi] at htake
      obtain ⟨-, -, hhalf, -, hcols⟩ := h.here (by
        rw [htake, List.mem_append, List.mem_singleton, not_or]
        exact ⟨hesc, fun heq => hlast (by rw [hget, heq])⟩)
      rw [htake, List.countP_append] at hcols
      refine ⟨by omega, fun c' hc' hprint _ => ?_⟩
      rw [hget, Option.some.injEq] at hc'
      rw [hdb, htake, half_append, hc'] at hhalf
      have hne : c' ≠ 9 := by
        rintro rfl
        exact absurd hprint (by decide)
      rw [if_neg hne, if_pos hprint] at hhalf
      grind
  · next hdb =>
      have hhere := h.fits (by simpa using hdb)
      split
      · exact hhere
      split
      · next hpos => exact h.last hpos
      · exact hhere

/-- The line ends with the text, or with a newline. -/
theorem Fitted.stop {columns : Nat} {p0 : List UInt8} {i : Nat} {v : Scan}
    (h : Fitted columns p0 i v) (hend : ∀ c, p0[i]? = some c → c = 10) : Fits columns p0 i := by
  intro hesc
  refine ⟨(h.here hesc).2.2.2.2, fun c hc hprint => ?_⟩
  rw [hend c hc] at hprint
  exact absurd hprint (by decide)

theorem fits_scanLine {columns : Nat} {p0 rest : List UInt8} {i : Nat} {v : Scan}
    (h : Fitted columns p0 i v) (hrest : p0.drop i = rest) :
    Fits columns p0 (scanLine columns p0 i rest v).1 := by
  induction rest generalizing i v with
  | nil =>
      refine h.stop fun c hc => ?_
      have hlen : p0.length ≤ i := List.drop_eq_nil_iff.mp hrest
      rw [List.getElem?_eq_none hlen] at hc
      contradiction
  | cons c rest ih =>
      obtain ⟨hget, hlt, hnext⟩ := drop_cons hrest
      rw [scanLine]
      split
      · next hnl =>
          refine h.stop fun c' hc' => ?_
          rw [hget, Option.some.injEq] at hc'
          exact hc'.symm.trans hnl
      split
      · next hfull => exact fits_breakAt h hfull.1 fun _ => by omega
      · next hroom =>
          refine ih (h.next hrest fun htext => ?_) hnext
          by_contra hfull
          exact hroom ⟨htext, by omega⟩

theorem fitted_start (columns : Nat) (p0 : List UInt8) : Fitted columns p0 0 .start :=
  ⟨fun _ => ⟨rfl, rfl, rfl, Nat.le_refl _, Nat.zero_le _⟩, fun h => by contradiction,
    fun _ h => by contradiction⟩

/-! ## measure_line -/

/-- The types of a line of text. -/
def LineCode.IsText (ty : LineCode) : Prop :=
  ty = .normal ∨ ty = .normalNocf ∨ ty = .quota ∨ ty = .quotaNocf

/-- The types of the line that names an attachment. -/
def LineCode.IsName (ty : LineCode) : Prop := ty = .attachmentBase64 ∨ ty = .attachmentBinary

/-- The types of the line that links to one. -/
def LineCode.IsLink (ty : LineCode) : Prop :=
  ty = .attachmentBase64Link ∨ ty = .attachmentBinaryLink

/-- The lines that `measure_line` finds in `p0`. -/
inductive Measures (columns : Nat) (p0 : List UInt8) : Measure → Prop
  | articles (h : p0 = []) : Measures columns p0 ⟨0, 0, .articleLink⟩
  | text (h : p0 ≠ []) {ty : LineCode} (hty : ty.IsText) :
      Measures columns p0 ⟨(scanLine columns p0 0 p0 .start).1, (scanLine columns p0 0 p0 .start).2, ty⟩
  | name (h : p0 ≠ []) {ty : LineCode} (hty : ty.IsName) :
      Measures columns p0 ⟨(scanLine columns p0 0 p0 .start).1, 0, ty⟩
  | link (h : p0 ≠ []) {ty : LineCode} (hty : ty.IsLink) {s : Nat} (hpos : 0 < s)
      (hle : s ≤ p0.length) :
      Measures columns p0 ⟨(scanLine columns p0 0 p0 .start).1, s, ty⟩

theorem not_isName {ty : LineCode} (h : LineCode.IsText ty ∨ ty = .articleLink ∨ LineCode.IsLink ty) :
    ¬ LineCode.IsName ty := by
  simp only [LineCode.IsText, LineCode.IsLink, LineCode.IsName] at h ⊢
  grind

theorem isText_lineType (p0 : List UInt8) (l s : Nat) (oldty : LineCode) :
    (lineType p0 l s oldty).IsText := by
  unfold lineType LineCode.IsText
  cases oldty <;> dsimp only <;> split_ifs <;> simp

theorem length_nextLine {p rest : List UInt8} (h : nextLine p = some rest) :
    rest.length < p.length := by
  unfold nextLine at h
  have hle := (List.dropWhile_suffix (l := p) (fun c => c ≠ 10)).length_le
  split at h
  · contradiction
  · next heq =>
      obtain rfl := Option.some.inj h
      rw [heq, List.length_cons] at hle
      omega

theorem uuend_lt {fuel : Nat} {p : List UInt8} {left : Nat} (h : uuend fuel p = .found left)
    (hp : 0 < p.length) : left < p.length := by
  induction fuel generalizing p with
  | zero =>
      obtain rfl := Uuend.found.inj h
      exact hp
  | succ fuel ih =>
      rw [uuend] at h
      split at h
      · obtain rfl := Uuend.found.inj h
        exact hp
      · next rest hnext =>
          have hlt := length_nextLine hnext
          split at h
          · split at h
            · contradiction
            · next rest' hnext' =>
                obtain rfl := Uuend.found.inj h
                have hlt' := length_nextLine hnext'
                omega
          · obtain hrest | hrest := Nat.eq_zero_or_pos rest.length
            · cases fuel with
              | zero =>
                  obtain rfl := Uuend.found.inj h
                  exact hp
              | succ fuel =>
                  rw [List.length_eq_zero_iff.mp hrest] at h
                  obtain rfl := Uuend.found.inj h
                  exact hp
            · exact Nat.lt_trans (ih h hrest) hlt

theorem measureBase64_cases {p0 : List UInt8} {oldty : LineCode} {m m' : Measure}
    (h : measureBase64 p0 oldty m = .line m') :
    m' = m ∨ ∃ left < p0.length, ascii "begin 644 " <+: p0 ∧
      (oldty = .attachmentBase64 ∧
          m' = { m with s := p0.length - left, ty := .attachmentBase64Link } ∨
        oldty ≠ .attachmentBase64 ∧ m' = { m with s := 0, ty := .attachmentBase64 }) := by
  unfold measureBase64 at h
  split at h
  · next hbegin =>
      split at h
      · contradiction
      · next left hend =>
          have hleft := uuend_lt hend (by omega)
          refine .inr ⟨left, hleft, hbegin.1, ?_⟩
          split at h
          · next hty => exact .inl ⟨hty, (Measured.line.inj h).symm⟩
          · next hty => exact .inr ⟨hty, (Measured.line.inj h).symm⟩
  · exact .inl (Measured.line.inj h).symm

theorem measureBinary_cases (p0 : List UInt8) (oldty : LineCode) (m : Measure) :
    measureBinary p0 oldty m = m ∨
      ascii "beginbinaryattach " <+: p0 ∧
        (oldty = .attachmentBinary ∧ (∃ s, 0 < s ∧ s ≤ p0.length ∧
            measureBinary p0 oldty m = { m with s := s, ty := .attachmentBinaryLink }) ∨
          oldty ≠ .attachmentBinary ∧
            measureBinary p0 oldty m = { m with s := 0, ty := .attachmentBinary }) := by
  by_cases hbegin : (ascii "beginbinaryattach " <+: p0 ∧ 19 < p0.length) ∧
      (m.s + 5 ≤ p0.length ∧ p0[m.s]? = some 0)
  · refine .inr ⟨hbegin.1.1, ?_⟩
    by_cases hty : oldty = .attachmentBinary
    · refine .inl ⟨hty, ?_⟩
      rw [measureBinary, if_pos hbegin, if_pos hty]
      refine ⟨_, ?_, ?_, rfl⟩
      · split <;> omega
      · split
        · next hnl =>
            have hlt := (List.getElem?_eq_some_iff.mp hnl).1
            omega
        · omega
    · refine .inr ⟨hty, ?_⟩
      rw [measureBinary, if_pos hbegin, if_neg hty]
  · exact .inl (if_neg hbegin)

/-- What the line that names an attachment begins with. -/
def opening : LineCode → List UInt8
  | .attachmentBase64 => ascii "begin 644 "
  | _ => ascii "beginbinaryattach "

theorem eq_of_opening {ty ty' : LineCode} {p0 : List UInt8} (hty : LineCode.IsName ty)
    (hty' : LineCode.IsName ty') (h : opening ty <+: p0) (h' : opening ty' <+: p0) : ty = ty' := by
  have hor := List.prefix_or_prefix_of_prefix h h'
  obtain rfl | rfl := hty <;> obtain rfl | rfl := hty'
  · rfl
  · exact absurd hor (by decide)
  · exact absurd hor (by decide)
  · rfl

theorem measureAttach_cases {p0 : List UInt8} {oldty : LineCode} {m m' : Measure}
    (h : measureAttach p0 oldty m = .line m') :
    m' = m ∨
      (∃ ty s, LineCode.IsLink ty ∧ 0 < s ∧ s ≤ p0.length ∧ m' = { m with s := s, ty := ty }) ∨
      ∃ ty, LineCode.IsName ty ∧ ty ≠ oldty ∧ opening ty <+: p0 ∧
        m' = { m with s := 0, ty := ty } := by
  unfold measureAttach at h
  split at h
  · next m₁ hbase =>
      obtain rfl | ⟨left, hleft, hbegin, ⟨-, rfl⟩ | ⟨hty, rfl⟩⟩ := measureBase64_cases hbase
      · split at h
        · obtain rfl := Measured.line.inj h
          obtain hsame | ⟨hbegin, ⟨-, s, hpos, hle, hs⟩ | ⟨hty, hs⟩⟩ :=
            measureBinary_cases p0 oldty m₁
          · exact .inl hsame
          · exact .inr (.inl ⟨_, s, .inr rfl, hpos, hle, hs⟩)
          · exact .inr (.inr ⟨_, .inr rfl, hty.symm, hbegin, hs⟩)
        · exact .inl (Measured.line.inj h).symm
      · obtain rfl := Measured.line.inj h
        exact .inr (.inl ⟨_, _, .inl rfl, by omega, by omega, rfl⟩)
      · obtain rfl := Measured.line.inj h
        exact .inr (.inr ⟨_, .inl rfl, hty.symm, hbegin, rfl⟩)
  · next hcrash =>
      rw [h] at hcrash
      exact absurd rfl (hcrash m')

/-- Every line is of one of the four kinds. -/
theorem measures_measureLine {columns : Nat} {p0 : List UInt8} {oldty : LineCode} {m : Measure}
    (h : measureLine columns p0 oldty = .line m) : Measures columns p0 m := by
  have htext : p0 ≠ [] → Measures columns p0 (textLine columns p0 oldty) :=
    fun hp => .text hp (isText_lineType _ _ _ _)
  unfold measureLine at h
  split at h
  · next hp =>
      split at h
      · obtain rfl := Measured.line.inj h
        exact .articles hp
      · contradiction
  · next hp =>
      dsimp only at h
      split at h
      · obtain rfl := Measured.line.inj h
        exact htext hp
      split at h
      · obtain rfl | ⟨ty, s, hty, hpos, hle, rfl⟩ | ⟨ty, hty, -, -, rfl⟩ := measureAttach_cases h
        · exact htext hp
        · exact .link hp hty hpos hle
        · exact .name hp hty
      · obtain rfl := Measured.line.inj h
        exact htext hp

theorem Measures.le {columns : Nat} (hcols : 2 ≤ columns) {p0 : List UInt8} {m : Measure}
    (h : Measures columns p0 m) : m.s ≤ p0.length := by
  cases h with
  | articles => exact Nat.zero_le _
  | text => exact (cut_scanLine hcols (scanned_start p0) rfl).le
  | name => exact Nat.zero_le _
  | link _ _ _ hle => exact hle

/-- A line that takes no text is the last one, or names an attachment. -/
theorem Measures.zero {columns : Nat} (hcols : 2 ≤ columns) {p0 : List UInt8} {m : Measure}
    (h : Measures columns p0 m) (hs : m.s = 0) :
    p0 = [] ∧ m.ty = .articleLink ∨ p0 ≠ [] ∧ LineCode.IsName m.ty := by
  cases h with
  | articles hp => exact .inl ⟨hp, rfl⟩
  | text hp =>
      have hpos := (cut_scanLine hcols (scanned_start p0) rfl).pos hp
      exact absurd hs (Nat.ne_of_gt hpos)
  | name hp hty => exact .inr ⟨hp, hty⟩
  | link _ _ hpos => exact absurd hs (Nat.ne_of_gt hpos)

theorem Measures.cut {columns : Nat} (hcols : 2 ≤ columns) {p0 : List UInt8} {m : Measure}
    (h : Measures columns p0 m) (hty : LineCode.IsText m.ty) : Cut p0 (m.len, m.s) := by
  cases h with
  | articles => simp [LineCode.IsText] at hty
  | text => exact cut_scanLine hcols (scanned_start p0) rfl
  | name _ hname => exact absurd hname (not_isName (.inl hty))
  | link _ hlink =>
      simp only [LineCode.IsText, LineCode.IsLink] at hty hlink
      grind

theorem Measures.len {columns : Nat} {p0 : List UInt8} {m : Measure} (h : Measures columns p0 m) :
    m.len = (scanLine columns p0 0 p0 .start).1 := by
  cases h with
  | articles hp => rw [hp]; rfl
  | text => rfl
  | name => rfl
  | link => rfl

/-- -1 is for the end behind the last line. -/
theorem measureLine_ended {columns : Nat} {p0 : List UInt8} {oldty : LineCode}
    (h : measureLine columns p0 oldty = .ended) : p0 = [] ∧ oldty = .articleLink := by
  unfold measureLine at h
  split at h
  · next hp =>
      split at h
      · contradiction
      · next hty => exact ⟨hp, not_not.mp hty⟩
  · dsimp only at h
    unfold measureAttach measureBase64 at h
    split_ifs at h
    all_goals grind

/-- Only the search behind `begin 644` can go wrong. -/
theorem measureLine_crash {columns : Nat} {p0 : List UInt8} {oldty : LineCode}
    (h : measureLine columns p0 oldty = .crash) : ascii "begin 644 " <+: p0 := by
  by_contra hno
  have hattach : ∀ m, measureAttach p0 oldty m ≠ .crash := by
    intro m
    rw [measureAttach, measureBase64, if_neg fun hbegin => hno hbegin.1]
    dsimp only
    split <;> exact Measured.noConfusion
  unfold measureLine at h
  split at h
  · split at h <;> contradiction
  · dsimp only at h
    split_ifs at h
    exact hattach _ h

/-- The type of the line before counts only where that one was broken. -/
theorem textLine_congr {columns : Nat} {p0 : List UInt8} {oldty oldty' : LineCode}
    (h : oldty ≠ .quotaNocf ∧ oldty ≠ .normalNocf) (h' : oldty' ≠ .quotaNocf ∧ oldty' ≠ .normalNocf) :
    textLine columns p0 oldty = textLine columns p0 oldty' := by
  have hty : ∀ l s, lineType p0 l s oldty = lineType p0 l s oldty' := by
    intro l s
    cases oldty <;> cases oldty' <;> first | rfl | simp at h h'
  simp only [textLine, hty]

theorem pos_textLine {columns : Nat} (hcols : 2 ≤ columns) {p0 : List UInt8} (hp : p0 ≠ [])
    (oldty : LineCode) : 0 < (textLine columns p0 oldty).s :=
  (cut_scanLine hcols (scanned_start p0) rfl).pos hp

/-- Where a line names an attachment. -/
theorem opening_of_isName {columns : Nat} {p0 : List UInt8} {oldty : LineCode} {m : Measure}
    (h : measureLine columns p0 oldty = .line m) (hty : LineCode.IsName m.ty) :
    (p0 ≠ [] ∧ (textLine columns p0 oldty).s ≠ p0.length ∧
      (oldty ≠ .quotaNocf ∧ oldty ≠ .normalNocf ∧ (textLine columns p0 oldty).ty = .normal)) ∧
      opening m.ty <+: p0 := by
  have htext : m ≠ textLine columns p0 oldty := by
    rintro rfl
    exact not_isName (.inl (isText_lineType _ _ _ _)) hty
  unfold measureLine at h
  split at h
  · split at h
    · obtain rfl := Measured.line.inj h
      exact absurd hty (not_isName (.inr (.inl rfl)))
    · contradiction
  · next hp =>
      dsimp only at h
      split at h
      · exact absurd (Measured.line.inj h).symm htext
      · next hall =>
          split at h
          · next hconds =>
              obtain hsame | ⟨ty, s, hlink, -, -, rfl⟩ | ⟨ty, -, -, hopen, rfl⟩ :=
                measureAttach_cases h
              · exact absurd hsame htext
              · exact absurd hty (not_isName (.inr (.inr hlink)))
              · exact ⟨⟨hp, hall, hconds⟩, hopen⟩
          · exact absurd (Measured.line.inj h).symm htext

/-- The line that names an attachment is followed by one that passes over it. -/
theorem pos_of_isName {columns : Nat} (hcols : 2 ≤ columns) {p0 : List UInt8} {oldty : LineCode}
    {m m' : Measure} (h : measureLine columns p0 oldty = .line m) (hty : LineCode.IsName m.ty)
    (h' : measureLine columns p0 m.ty = .line m') : 0 < m'.s := by
  obtain ⟨⟨hp, hall, hquota, hnormal, htext⟩, hopen⟩ := opening_of_isName h hty
  have hnot : m.ty ≠ .quotaNocf ∧ m.ty ≠ .normalNocf := by
    obtain heq | heq := hty <;> simp [heq]
  rw [textLine_congr ⟨hquota, hnormal⟩ hnot] at hall htext
  simp only [measureLine, hp, if_false, hall, hnot.1, hnot.2, htext, ne_eq, not_false_eq_true,
    and_self, if_true] at h'
  obtain rfl | ⟨ty, s, -, hpos, -, rfl⟩ | ⟨ty, hty', hne, hopen', -⟩ := measureAttach_cases h'
  · exact pos_textLine hcols hp m.ty
  · exact hpos
  · exact absurd (eq_of_opening hty' hty hopen' hopen) hne

end Ytht.Pager
