import Mathlib.Data.List.Basic
import Ytht.Lib.Feed
import Ytht.Lib.Gbk

/-!
# Nju09.Hsprintf

How `hsprintf` of `BBSLIB.c` puts text without ESC on a web page.

The byte behind a lead byte is copied as it is, whatever it is, when the call has
written something already (`hsprintf_copiesTag`).  `page_escaped_iff` says for
which texts no `<` or `>` is copied that way.
-/

namespace Ytht

open Feed Gbk

/-! ## Text and page -/

/-- The contents of a string without ESC. -/
structure PlainText where
  bytes : List UInt8
  nz : 0 ∉ bytes
  noEsc : 27 ∉ bytes

/-- A byte of the page.  `made` tells a byte of a tag or an entity that `hsprintf`
makes from a byte of the text. -/
structure PageByte where
  byte : UInt8
  made : Bool
  deriving DecidableEq

/-- `s[len++] = c`. -/
def copied (c : UInt8) : List PageByte := [⟨c, false⟩]

/-- `strnncpy(s, &len, tag, ..)`. -/
def markup (tag : String) : List PageByte :=
  tag.toList.map fun c => ⟨UInt8.ofNat c.toNat, true⟩

/-- The page without what `hsprintf` made. -/
def userText (page : List PageByte) : List UInt8 :=
  (page.filter fun b => !b.made).map PageByte.byte

/-- `withinMath`. -/
inductive WithinMath where
  | no
  | span
  | div
  deriving DecidableEq

/-- `usingMath`, `withinMath`, `quote_quote` and the static `dbchar`. -/
structure Webstate where
  usingMath : Bool
  withinMath : WithinMath
  quoteQuote : Bool
  dbchar : Bool
  deriving DecidableEq

/-! ## One call -/

/-- `specchar`. -/
def specchar (c : UInt8) : Bool := [92, 36, 34, 38, 60, 62, 32, 10, 13, 27].contains c

/-- `case '\\'`: what is written, `withinMath` after it, and whether the next byte is
skipped. -/
def putBackslash (w : Webstate) (next : Option UInt8) : List PageByte × WithinMath × Bool :=
  if w.usingMath && w.withinMath = .no && next = some 91 then
    (markup "<div class=math>", .div, true)
  else if w.usingMath && w.withinMath = .div && next = some 93 then (markup "</div>", .no, true)
  else if w.usingMath && next = some 36 then (copied 36, w.withinMath, true)
  else if w.quoteQuote then (markup "\\" ++ copied 92, w.withinMath, false)
  else (copied 92, w.withinMath, false)

/-- `case '$'`. -/
def putDollar (w : Webstate) : List PageByte × WithinMath :=
  if w.usingMath && w.withinMath = .no then (markup "<span class=math>", .span)
  else if w.usingMath && w.withinMath = .span then (markup "</span>", .no)
  else (copied 36, w.withinMath)

/-- The other cases, which leave `withinMath`. -/
def putOther (w : Webstate) (last : Option UInt8) (c : UInt8) : List PageByte :=
  if c = 34 then if w.quoteQuote then markup "\\" ++ copied c else copied c
  else if c = 38 then markup "&amp;"
  else if c = 60 then markup "&lt;"
  else if c = 62 then markup "&gt;"
  else if c = 32 then if last ≠ some 32 then copied c else markup "&nbsp;"
  else if c = 13 then []
  else if c = 10 then
    if w.withinMath ≠ .no then copied 32
    else if w.quoteQuote then markup " \\" ++ copied c ++ markup "<br>"
    else copied c ++ markup "<br>"
  else copied c

/-- The `switch` of `hsprintf`. -/
def hsprintfSwitch (w : Webstate) (last next : Option UInt8) (c : UInt8) :
    List PageByte × WithinMath × Bool :=
  if c = 92 then putBackslash w next
  else if c = 36 then ((putDollar w).1, (putDollar w).2, false)
  else (putOther w last c, w.withinMath, false)

/-- What is written for a byte.  `lastdb` says that it is the second of a pair, and
`len` how much the call has written. -/
def hsprintfChar (w : Webstate) (lastdb : Bool) (last next : Option UInt8) (len : Nat)
    (c : UInt8) : List PageByte × WithinMath × Bool :=
  if !specchar c || (lastdb && len ≠ 0 && c ≠ 10) then (copied c, w.withinMath, false)
  else hsprintfSwitch w last next c

/-- The loop of `hsprintf`, with the byte before and whether the next byte is
skipped. -/
def hsprintfLoop (w : Webstate) (last : Option UInt8) (skip : Bool) (len : Nat) :
    List UInt8 → List PageByte × Webstate
  | [] => ([], w)
  | c :: s =>
      if skip then hsprintfLoop w (some c) false len s
      else
        let (out, withinMath, skip) := hsprintfChar w w.dbchar last s.head? len c
        let w := { w with dbchar := !w.dbchar && highBit c, withinMath := withinMath }
        let (rest, w) := hsprintfLoop w (some c) skip (len + out.length) s
        (out ++ rest, w)

/-- `hsprintf(s, s0)`. -/
def hsprintf (w : Webstate) (s0 : PlainText) : List PageByte × Webstate :=
  hsprintfLoop w none false 0 s0.bytes

/-- `hsprintf(NULL, NULL)`. -/
def hsprintfReset (w : Webstate) : Webstate :=
  { w with usingMath := false, withinMath := .no, dbchar := false }

/-! ## A page -/

/-- The first `n` bytes of a text. -/
def PlainText.take (n : Nat) (s : PlainText) : PlainText :=
  ⟨s.bytes.take n, fun h => s.nz (List.mem_of_mem_take h), fun h => s.noEsc (List.mem_of_mem_take h)⟩

/-- `hprintf`, whose text is cut by `vsnprintf`. -/
def hprintf (w : Webstate) (text : PlainText) : List PageByte × Webstate :=
  hsprintf w (text.take 1022)

/-- `fqhprintf`. -/
def fqhprintf (w : Webstate) (str : PlainText) : List PageByte × Webstate := hsprintf w str

/-- What the pages do: start over, turn formulas on and off, turn quoting on and
off, and write text. -/
inductive WebOp where
  | reset
  | mathOn
  | mathOff
  | quote (on : Bool)
  | hsprintf (s0 : PlainText)
  | hprintf (text : PlainText)
  | fqhprintf (str : PlainText)

def webStep (w : Webstate) : WebOp → List PageByte × Webstate
  | .reset => ([], hsprintfReset w)
  | .mathOn => ([], { w with usingMath := true, withinMath := .no })
  | .mathOff => ([], { w with usingMath := false })
  | .quote on => ([], { w with quoteQuote := on })
  | .hsprintf s0 => hsprintf w s0
  | .hprintf text => hprintf w text
  | .fqhprintf str => fqhprintf w str

/-- The page after the reset call. -/
def page (w : Webstate) (ops : List WebOp) : List PageByte :=
  (through webStep (hsprintfReset w) ops).1

/-- No `<` or `>` of the text stands alone in what is left without the tags and
entities. -/
def Escaped (page : List PageByte) : Prop :=
  ∀ c ∈ standAlone (userText page), c ≠ 60 ∧ c ≠ 62

/-! ## The condition -/

def isAngle (c : UInt8) : Bool := c = 60 || c = 62

/-- Whether a byte opens a pair, when bytes are paired as the calls do it. -/
def pairUp (db : Bool) (c : UInt8) : Bool := !db && highBit c

/-- Some `<` or `>` is right behind a byte of the same call that opens a pair. -/
def angleBehindLead (db inside : Bool) : List UInt8 → Bool
  | [] => false
  | c :: s => (inside && db && isAngle c) || angleBehindLead (pairUp db c) true s

/-- The text that an operation writes. -/
def WebOp.text : WebOp → List UInt8
  | .hsprintf s0 => s0.bytes
  | .hprintf text => (text.take 1022).bytes
  | .fqhprintf str => str.bytes
  | _ => []

/-- No call has a `<` or `>` right behind a byte that opens a pair. -/
def NoAngleBehindLead (db : Bool) : List WebOp → Prop
  | [] => True
  | .reset :: ops => NoAngleBehindLead false ops
  | op :: ops =>
      angleBehindLead db false op.text = false ∧
        NoAngleBehindLead (op.text.foldl pairUp db) ops

/-! ## Angles of the text on the page -/

/-- Some `<` or `>` of the text is on the page as it is. -/
def hasAngle (page : List PageByte) : Bool := page.any fun b => !b.made && isAngle b.byte

@[simp] theorem hasAngle_nil : hasAngle [] = false := rfl

@[simp] theorem hasAngle_append (p q : List PageByte) :
    hasAngle (p ++ q) = (hasAngle p || hasAngle q) := List.any_append

@[simp] theorem hasAngle_markup (tag : String) : hasAngle (markup tag) = false := by
  simp [hasAngle, markup]

@[simp] theorem hasAngle_copied (c : UInt8) : hasAngle (copied c) = isAngle c := by
  simp [hasAngle, copied]

/-- An angle is a character of its own, whatever stands before it. -/
theorem escaped_iff (p : List PageByte) : Escaped p ↔ hasAngle p = false := by
  have hmem : ∀ c : UInt8, c < 0x40 → (c ∈ standAlone (userText p) ↔ ⟨c, false⟩ ∈ p) := by
    intro c hc
    rw [mem_standAlone_iff hc, userText, List.mem_map]
    constructor
    · intro ⟨b, hb, hbc⟩
      obtain ⟨hin, hmade⟩ := List.mem_filter.mp hb
      obtain ⟨byte, made⟩ := b
      simp only [Bool.not_eq_true'] at hmade
      rwa [← hbc, ← hmade]
    · intro hin
      exact ⟨_, List.mem_filter.mpr ⟨hin, rfl⟩, rfl⟩
  constructor
  · intro h
    rw [hasAngle, List.any_eq_false]
    intro b hb hangle
    obtain ⟨byte, made⟩ := b
    simp only [isAngle, Bool.and_eq_true, Bool.not_eq_true', Bool.or_eq_true,
      decide_eq_true_eq] at hangle
    obtain ⟨rfl, rfl | rfl⟩ := hangle
    · exact (h 60 ((hmem 60 (by decide)).mpr hb)).1 rfl
    · exact (h 62 ((hmem 62 (by decide)).mpr hb)).2 rfl
  · intro h c hc
    rw [hasAngle, List.any_eq_false] at h
    constructor
    · intro h60
      subst h60
      exact h _ ((hmem 60 (by decide)).mp hc) rfl
    · intro h62
      subst h62
      exact h _ ((hmem 62 (by decide)).mp hc) rfl

theorem hasAngle_putBackslash (w : Webstate) (next : Option UInt8) :
    hasAngle (putBackslash w next).1 = false := by
  have h36 : isAngle 36 = false := rfl
  have h92 : isAngle 92 = false := rfl
  unfold putBackslash
  split_ifs <;> simp [h36, h92]

theorem hasAngle_putDollar (w : Webstate) : hasAngle (putDollar w).1 = false := by
  have h36 : isAngle 36 = false := rfl
  unfold putDollar
  split_ifs <;> simp [h36]

theorem hasAngle_putOther (w : Webstate) (last : Option UInt8) (c : UInt8) :
    hasAngle (putOther w last c) = false := by
  have h32 : isAngle 32 = false := rfl
  by_cases hangle : isAngle c = true
  · -- an angle is written as an entity
    simp only [isAngle, Bool.or_eq_true, decide_eq_true_eq] at hangle
    rcases hangle with rfl | rfl <;> simp [putOther]
  · rw [Bool.not_eq_true] at hangle
    simp only [putOther, apply_ite hasAngle]
    simp [h32, hangle]

/-- The `switch` copies no angle. -/
theorem hasAngle_hsprintfSwitch (w : Webstate) (last next : Option UInt8) (c : UInt8) :
    hasAngle (hsprintfSwitch w last next c).1 = false := by
  unfold hsprintfSwitch
  split_ifs
  · exact hasAngle_putBackslash w next
  · exact hasAngle_putDollar w
  · exact hasAngle_putOther w last c

/-- Only the byte behind a backslash is skipped. -/
theorem hsprintfSwitch_skip {w : Webstate} {last next : Option UInt8} {c : UInt8}
    (h : (hsprintfSwitch w last next c).2.2 = true) :
    c = 92 ∧ (next = some 91 ∨ next = some 93 ∨ next = some 36) := by
  unfold hsprintfSwitch putBackslash at h
  split_ifs at h <;> simp_all

/-! ## The loop -/

theorem specchar_of_isAngle {c : UInt8} (h : isAngle c) : specchar c = true ∧ c ≠ 10 := by
  simp only [isAngle, Bool.or_eq_true, decide_eq_true_eq] at h
  cases h with
  | inl h =>
      subst h
      decide
  | inr h =>
      subst h
      decide

theorem not_highBit_of_specchar {c : UInt8} (h : specchar c) : highBit c = false := by
  have hall : ([92, 36, 34, 38, 60, 62, 32, 10, 13, 27] : List UInt8).all (fun d => !highBit d) :=
    rfl
  have hc := List.all_eq_true.mp hall c (List.contains_iff_mem.mp h)
  rwa [Bool.not_eq_true'] at hc

/-- A byte is copied as it is when it is an angle behind a lead byte. -/
theorem hasAngle_hsprintfChar {lastdb inside : Bool} {len : Nat}
    (hinside : lastdb → (inside ↔ len ≠ 0)) (w : Webstate) (last next : Option UInt8) (c : UInt8) :
    hasAngle (hsprintfChar w lastdb last next len c).1 = (inside && lastdb && isAngle c) := by
  unfold hsprintfChar
  by_cases hangle : isAngle c
  · obtain ⟨hspec, h10⟩ := specchar_of_isAngle hangle
    by_cases hdb : lastdb
    · by_cases hlen : len = 0
      · have hin : inside = false := by simpa [hlen] using hinside hdb
        simp [hlen, hspec, hin, hasAngle_hsprintfSwitch]
      · have hin : inside = true := (hinside hdb).mpr hlen
        simp [hlen, hdb, h10, hangle, hin]
    · simp [hdb, hspec, hasAngle_hsprintfSwitch]
  · split
    · simp [hangle]
    · simp [hasAngle_hsprintfSwitch, hangle]

theorem hsprintfChar_of_highBit {w : Webstate} {lastdb : Bool} {last next : Option UInt8}
    {len : Nat} {c : UInt8} (h : highBit c) :
    hsprintfChar w lastdb last next len c = (copied c, w.withinMath, false) := by
  have hspec : specchar c = false := by
    by_contra hspec
    rw [Bool.not_eq_false] at hspec
    rw [not_highBit_of_specchar hspec] at h
    contradiction
  simp [hsprintfChar, hspec]

/-- What the skip of the loop knows: the byte to skip is `[`, `]` or `$`, outside a
pair. -/
def SkipOk (db : Bool) (skip : Bool) (s : List UInt8) : Prop :=
  skip = true → db = false ∧ (s.head? = some 91 ∨ s.head? = some 93 ∨ s.head? = some 36)

theorem SkipOk.cons {db : Bool} {c : UInt8} {s : List UInt8} (h : SkipOk db true (c :: s)) :
    db = false ∧ isAngle c = false ∧ highBit c = false := by
  obtain ⟨hdb, hc⟩ := h rfl
  simp only [List.head?_cons, Option.some.injEq] at hc
  refine ⟨hdb, ?_⟩
  obtain rfl | rfl | rfl := hc <;> decide

theorem skipOk_hsprintfChar (w : Webstate) (lastdb : Bool) (last : Option UInt8) (len : Nat)
    (c : UInt8) (s : List UInt8) :
    SkipOk (pairUp lastdb c) (hsprintfChar w lastdb last s.head? len c).2.2 s := by
  intro hskip
  unfold hsprintfChar at hskip
  split at hskip
  · contradiction
  · obtain ⟨rfl, hnext⟩ := hsprintfSwitch_skip hskip
    have hhigh : highBit 92 = false := rfl
    exact ⟨by simp [pairUp, hhigh], hnext⟩

/-- **The loop copies just the angles behind a lead byte, and pairs the bytes up.** -/
theorem hsprintfLoop_spec {w : Webstate} {last : Option UInt8} {skip inside : Bool} {len : Nat}
    {s : List UInt8} (hinside : w.dbchar → (inside ↔ len ≠ 0)) (hskip : SkipOk w.dbchar skip s) :
    hasAngle (hsprintfLoop w last skip len s).1 = angleBehindLead w.dbchar inside s ∧
      (hsprintfLoop w last skip len s).2.dbchar = s.foldl pairUp w.dbchar := by
  induction s generalizing w last skip inside len with
  | nil => exact ⟨rfl, rfl⟩
  | cons c s ih =>
      rw [angleBehindLead, List.foldl_cons]
      cases skip with
      | true =>
          obtain ⟨hdb, hangle, hhigh⟩ := hskip.cons
          have hpair : pairUp w.dbchar c = w.dbchar := by simp [pairUp, hdb, hhigh]
          rw [hpair, hangle, Bool.and_false, Bool.false_or]
          exact ih (by simp [hdb]) (by simp [SkipOk])
      | false =>
          have hangle := hasAngle_hsprintfChar hinside w last s.head? c
          have hskip' := skipOk_hsprintfChar w w.dbchar last len c s
          have hwritten : pairUp w.dbchar c →
              (true ↔ len + (hsprintfChar w w.dbchar last s.head? len c).1.length ≠ 0) := by
            intro hpair
            have hhigh : highBit c := by
              simp only [pairUp, Bool.and_eq_true] at hpair
              exact hpair.2
            simp [hsprintfChar_of_highBit hhigh, copied]
          generalize hchar : hsprintfChar w w.dbchar last s.head? len c = r at *
          obtain ⟨out, withinMath, skip⟩ := r
          obtain ⟨hrest, hdb⟩ := @ih
            { w with dbchar := pairUp w.dbchar c, withinMath := withinMath } (some c) skip true
            (len + out.length) hwritten hskip'
          simp only [hsprintfLoop, hchar, Bool.false_eq_true, if_false, hasAngle_append]
          rw [hangle]
          exact ⟨congrArg _ hrest, hdb⟩

/-- One call. -/
theorem hsprintf_spec (w : Webstate) (s0 : PlainText) :
    hasAngle (hsprintf w s0).1 = angleBehindLead w.dbchar false s0.bytes ∧
      (hsprintf w s0).2.dbchar = s0.bytes.foldl pairUp w.dbchar :=
  hsprintfLoop_spec (by simp) (by simp [SkipOk])

/-- One operation of a page. -/
theorem webStep_spec (w : Webstate) (op : WebOp) :
    hasAngle (webStep w op).1 = angleBehindLead w.dbchar false op.text ∧
      (op ≠ .reset → (webStep w op).2.dbchar = op.text.foldl pairUp w.dbchar) := by
  cases op with
  | reset => exact ⟨rfl, fun h => absurd rfl h⟩
  | mathOn => exact ⟨rfl, fun _ => rfl⟩
  | mathOff => exact ⟨rfl, fun _ => rfl⟩
  | quote on => exact ⟨rfl, fun _ => rfl⟩
  | hsprintf s0 => exact ⟨(hsprintf_spec w s0).1, fun _ => (hsprintf_spec w s0).2⟩
  | hprintf text =>
      exact ⟨(hsprintf_spec w (text.take 1022)).1, fun _ => (hsprintf_spec w (text.take 1022)).2⟩
  | fqhprintf str => exact ⟨(hsprintf_spec w str).1, fun _ => (hsprintf_spec w str).2⟩

/-! ## Whole pages -/

theorem noAngleBehindLead_cons (w : Webstate) (op : WebOp) (ops : List WebOp) :
    NoAngleBehindLead w.dbchar (op :: ops) ↔
      angleBehindLead w.dbchar false op.text = false ∧
        NoAngleBehindLead (webStep w op).2.dbchar ops := by
  by_cases hreset : op = .reset
  · subst hreset
    simp [NoAngleBehindLead, angleBehindLead, WebOp.text, webStep, hsprintfReset]
  · rw [(webStep_spec w op).2 hreset, NoAngleBehindLead]
    exact hreset

theorem hasAngle_through (w : Webstate) (ops : List WebOp) :
    hasAngle (through webStep w ops).1 = false ↔ NoAngleBehindLead w.dbchar ops := by
  induction ops generalizing w with
  | nil => simp [NoAngleBehindLead]
  | cons op ops ih =>
      rw [through_cons, hasAngle_append, Bool.or_eq_false_iff, ih, (webStep_spec w op).1,
        noAngleBehindLead_cons]

/-- **The text's `<` and `>` are all escaped exactly when no call has one right
behind a byte that opens a pair**, whatever is done between the calls. -/
theorem page_escaped_iff (w : Webstate) (ops : List WebOp) :
    Escaped (page w ops) ↔ NoAngleBehindLead false ops := by
  rw [escaped_iff, page, hasAngle_through]
  rfl

/-- A byte 0xB0 and a tag behind it: the tag is on the page as it is. -/
theorem hsprintf_copiesTag :
    ¬ ∀ (w : Webstate) (ops : List WebOp), Escaped (page w ops) := by
  intro h
  have hpage := h ⟨false, .no, false, false⟩
    [.hsprintf ⟨[0xB0, 60, 98, 62], by decide, by decide⟩] 60 (by decide)
  exact hpage.1 rfl

end Ytht
