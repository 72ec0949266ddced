import Mathlib.Data.Bool.AllAny
import Mathlib.Data.List.Basic
import Ytht.Attach.Append
import Ytht.Lib.Attlist
import Ytht.Lib.Bytes
import Ytht.Ythtlib.Strlib
import Ytht.Ythtlib.Strop

/-!
# Localutl.Htmlfilter

The filter that lets the tags of a list through, with the attributes that are
listed for them (`htmlfilter`, without `blog2board`).

Tags that are not known are shown as text, but only the `<` they begin with is
replaced: another one before the first `>` goes out as it is.  And attributes are
cut off from the right, while a browser reads them from the left, so that more
than one attribute may be in what goes out as the value of one.
`htmlfilter_listed_iff` says for which texts neither happens.
-/

namespace Ytht

open Bytes Attlist

/-! ## Settings -/

/-- `struct Setting`: a row of `keepAtt` is a tag with its attributes. -/
structure Setting where
  keepTag : List (List UInt8)
  keepAtt : List (List UInt8 × List (List UInt8))
  deleteTag : List (List UInt8)

def setting0 : Setting where
  keepTag := ["i", "b", "u", "em", "small", "strong", "tt", "dd", "dl", "dt", "pre", "span",
    "font", "br", "p", "li", "ul", "ol", "table", "th", "tr", "td", "hr", "h1", "h2", "h3", "h4",
    "h5", "h6", "a", "img", "center", "blockquote"].map ascii
  keepAtt := [("hr", ["width", "color"]), ("table", ["border"]), ("p", ["align"]),
    ("td", ["align", "valign", "colspan", "rowspan"]), ("a", ["href"]),
    ("img", ["src", "width", "height", "align"]),
    ("font", ["size", "color"])].map fun row => (ascii row.1, row.2.map ascii)
  deleteTag := ["tbody", "form", "input", "div"].map ascii

def setting1 : Setting where
  keepTag := ["i", "b", "u", "em", "small", "strong", "tt", "dd", "dl", "dt", "pre", "span",
    "font", "br", "p", "li", "ul", "ol", "a", "img", "center", "blockquote"].map ascii
  keepAtt := [("p", ["align"]), ("a", ["href"]), ("img", ["src", "width", "height"]),
    ("font", ["size", "color"])].map fun row => (ascii row.1, row.2.map ascii)
  deleteTag := ["table", "th", "tr", "td", "tbody", "form", "input", "div", "hr", "h1", "h2", "h3",
    "h4", "h5", "h6"].map ascii

/-- The setting that the first argument of the program asks for. -/
def settingOf (one : Bool) : Setting := if one then setting1 else setting0

/-- `inList` -/
def inList (list : List (List UInt8)) (tag : List UInt8) : Bool := list.any (strcasecmp · tag)

/-- `thisKeepAtt`, which is null for a tag without a row. -/
def Setting.thisKeepAtt (s : Setting) (tag : List UInt8) : Option (List (List UInt8)) :=
  (s.keepAtt.find? fun row => strcasecmp tag row.1).map Prod.snd

/-! ## Blocks -/

/-- `strcasestr` -/
def strcasestr (needle : List UInt8) : List UInt8 → Option Nat
  | [] => if needle = [] then some 0 else none
  | ch :: hay =>
      if strncasecmp needle.length (ch :: hay) needle then some 0
      else (strcasestr needle hay).map (· + 1)

/-- `removeBlock`: the text it leaves, and whether it is to be called again. -/
def removeBlock (start stop ptr : List UInt8) : List UInt8 × Bool :=
  match strcasestr start ptr with
  | none => (ptr, false)
  | some p0 =>
    match strcasestr stop (ptr.drop p0) with
    | none => (ptr.take p0, false)
    | some p1 => (ptr.take p0 ++ ptr.drop (p0 + (p1 + stop.length)), true)

/-- The loop around `removeBlock`, which ends when the text does not get shorter. -/
def removeBlocks (start stop ptr : List UInt8) : List UInt8 :=
  let next := removeBlock start stop ptr
  if _h : next.2 = true ∧ next.1.length < ptr.length then removeBlocks start stop next.1 else next.1
termination_by ptr.length
decreasing_by exact _h.2

/-- `skipHeader` -/
def skipHeader (ptr : List UInt8) : List UInt8 :=
  match strstr (ascii "<body>") ptr with
  | none => ptr
  | some p => ptr.drop (p + 6)

/-- `removeFooter` -/
def removeFooter (ptr : List UInt8) : List UInt8 :=
  match strstr (ascii "</body>") ptr with
  | none => ptr
  | some p => ptr.take p

/-- What `main` makes of the text before it looks for tags. -/
def withoutBlocks (src : List UInt8) : List UInt8 :=
  let ptr := removeFooter (skipHeader src)
  let ptr := removeBlocks (ascii "<!--") (ascii "-->") ptr
  let ptr := removeBlocks (ascii "<script") (ascii "</script>") ptr
  let ptr := removeBlocks (ascii "<noscript") (ascii "</noscript>") ptr
  let ptr := removeBlocks (ascii "<object") (ascii "/object>") ptr
  let ptr := removeBlocks (ascii "<embed") (ascii "/embed>") ptr
  removeBlocks (ascii "<iframe") (ascii "/iframe>") ptr

/-! ## Elements -/

/-- `getNextElement`: the element, and the text behind it. -/
def getNextElement (ptr : List UInt8) : Option (List UInt8 × List UInt8) :=
  if ptr = [] then none
  else if ptr.head? = some 60 then
    if 62 ∈ ptr then
      let el := cutAt 62 ptr ++ [62]
      some (el, ptr.drop el.length)
    else none
  else
    let el := cutAt 60 ptr
    some (el, ptr.drop el.length)

theorem length_getNextElement {ptr el rest : List UInt8} (h : getNextElement ptr = some (el, rest)) :
    rest.length < ptr.length := by
  unfold getNextElement at h
  split_ifs at h with hnil hlt hgt
  · obtain ⟨rfl, rfl⟩ := Prod.mk.inj (Option.some.inj h)
    have := List.length_pos_of_ne_nil hnil
    simp
    omega
  · obtain ⟨rfl, rfl⟩ := Prod.mk.inj (Option.some.inj h)
    cases ptr with
    | nil => contradiction
    | cons c ptr =>
        have hc : (c != 60) = true := by simpa using hlt
        rw [cutAt, List.takeWhile_cons, if_pos hc, List.length_drop, List.length_cons,
          List.length_cons]
        omega

/-- The elements that the loop of `main` takes one by one. -/
def elements (ptr : List UInt8) : List (List UInt8) :=
  match _h : getNextElement ptr with
  | none => []
  | some (el, rest) => el :: elements rest
termination_by ptr.length
decreasing_by exact length_getNextElement _h

/-! ## Attributes -/

/-- The last attribute of a text that does not end with a blank, behind the rest. -/
def cutRight (attStr : List UInt8) : List UInt8 × List UInt8 :=
  match attStr.reverse with
  | [] => ([], [])
  | ch :: before =>
      if isQuote ch then
        match before.dropWhile (· != ch) with
        | [] => ([], attStr)
        | q :: behind =>
            ((behind.dropWhile (!isBlank ·)).reverse,
              (ch :: (before.takeWhile (· != ch) ++ q :: behind.takeWhile (!isBlank ·))).reverse)
      else
        (((ch :: before).dropWhile (!isBlank ·)).reverse,
          ((ch :: before).takeWhile (!isBlank ·)).reverse)

/-- `getRightAtt`: the attribute with its value, and what is left of the text.  A single
character is left in it. -/
def getRightAtt (attStr : List UInt8) :
    Option ((List UInt8 × Option (List UInt8)) × List UInt8) :=
  let attStr := attStr.rdropWhile isBlank
  if attStr = [] then none
  else if attStr.length = 1 then some ((strsncpy attStr 30, none), attStr)
  else
    let (rest, token) := cutRight attStr
    let name := cutAt 61 token
    let val := if 61 ∈ token then some (token.drop (name.length + 1)) else none
    some ((strsncpy name 30, val), rest)

theorem length_cutRight_le (attStr : List UInt8) : (cutRight attStr).1.length ≤ attStr.length := by
  unfold cutRight
  split
  · simp
  · next ch before hrev =>
    have hlen : attStr.length = before.length + 1 := by
      rw [← List.length_reverse, hrev, List.length_cons]
    split
    · split
      · simp
      · next q behind hdrop =>
        have hbefore := (List.dropWhile_suffix (l := before) (· != ch)).length_le
        have hbehind := (List.dropWhile_suffix (l := behind) (!isBlank ·)).length_le
        rw [hdrop, List.length_cons] at hbefore
        rw [List.length_reverse]
        omega
    · have hdrop := (List.dropWhile_suffix (l := ch :: before) (!isBlank ·)).length_le
      rwa [List.length_reverse, hlen]

theorem length_getRightAtt_le {attStr rest : List UInt8} {a : List UInt8 × Option (List UInt8)}
    (h : getRightAtt attStr = some (a, rest)) : rest.length ≤ attStr.length := by
  have htrim := (List.rdropWhile_prefix (p := isBlank) (l := attStr)).length_le
  simp only [getRightAtt] at h
  split_ifs at h
  · obtain ⟨-, rfl⟩ := Prod.mk.inj (Option.some.inj h)
    exact htrim
  all_goals
    obtain ⟨-, rfl⟩ := Prod.mk.inj (Option.some.inj h)
    exact (length_cutRight_le _).trans htrim

/-- The loop of `printAttributes` with `i` attributes in its list, from right to left.  It
never ends when it comes to one character that is not kept. -/
def keptAtts (keep : Option (List (List UInt8))) (i : Nat) (attStr : List UInt8) :
    Option (List (List UInt8 × Option (List UInt8))) :=
  if i < 5 then
    match _h : getRightAtt attStr with
    | none => some []
    | some (a, rest) =>
      if i = 0 ∧ a.1 = [47] then (keptAtts keep (i + 1) rest).map ((a.1, none) :: ·)
      else
        match keep with
        | none => some []
        | some list =>
          if inList list a.1 then (keptAtts (some list) (i + 1) rest).map (a :: ·)
          else if rest.length < attStr.length then keptAtts (some list) i rest
          else none
  else some []
termination_by 5 - i + attStr.length
decreasing_by
  all_goals
    have := length_getRightAtt_le _h
    omega

/-! ## What is printed -/

/-- `fixTag` joins a value to the `=` in the line before. -/
def joinEquals : Bool → List UInt8 → List UInt8
  | _, [] => []
  | afterEquals, c :: s =>
      if afterEquals && c == 10 then joinEquals true s else c :: joinEquals (c == 61) s

/-- `fixTag` -/
def fixTag (s : List UInt8) : List UInt8 :=
  (joinEquals false ((s.map fun c => if c = 9 then 32 else c).filter (· != 13))).map
    fun c => if c = 10 then 32 else c

/-- The name of a start tag, and the attributes behind the first blank. -/
def startTagParts (el : List UInt8) : List UInt8 × List UInt8 :=
  let p := (cutAt 62 (fixTag el)).drop 1
  let name := cutAt 32 p
  (name, p.drop (name.length + 1))

/-- `printStartTag`, which is `none` when it never ends. -/
def printStartTag (s : Setting) (el : List UInt8) : Option (List UInt8) :=
  let (name, attStr) := startTagParts el
  if inList s.deleteTag name then some []
  else if inList s.keepTag name then
    (keptAtts (s.thisKeepAtt name) 0 attStr).map fun atts =>
      60 :: (name ++ (printed atts.reverse ++ [62]))
  else some (ascii "&lt;" ++ (name ++ (32 :: (attStr ++ ascii "&gt;"))))

/-- The name of an end tag. -/
def endTagName (el : List UInt8) : List UInt8 := (cutAt 62 el).drop 2

/-- `printEndTag` -/
def printEndTag (s : Setting) (el : List UInt8) : List UInt8 :=
  let name := endTagName el
  if inList s.keepTag name then 60 :: 47 :: (name ++ [62])
  else if inList s.deleteTag name then []
  else ascii "&lt;/" ++ (name ++ ascii "&gt;")

/-- What the loop of `main` prints for an element. -/
def printElement (s : Setting) (el : List UInt8) : Option (List UInt8) :=
  if el.head? ≠ some 60 then some el
  else if el.tail.head? = some 47 then some (printEndTag s el)
  else printStartTag s el

/-- `main`: what is printed for one element after the other. -/
def htmlfilter (s : Setting) (src : List UInt8) : Option (List (List UInt8)) :=
  (elements (withoutBlocks src)).mapM (printElement s)

/-! ## Listed tags -/

/-- The attributes that may be in a tag. -/
def Setting.ListedAtt (s : Setting) (tag name : List UInt8) : Prop :=
  name = [47] ∨ ∃ list, s.thisKeepAtt tag = some list ∧ inList list name = true

/-- Text in which every `<` begins a tag of the list or is in the value of one of its
attributes, and no other attributes are in the tags. -/
inductive Setting.Listed (s : Setting) : List UInt8 → Prop
  | nil : Setting.Listed s []
  | char {out : List UInt8} (c : UInt8) (hc : c ≠ 60) (h : Setting.Listed s out) :
      Setting.Listed s (c :: out)
  | endTag {name out : List UInt8} (hname : inList s.keepTag name = true)
      (h : Setting.Listed s out) : Setting.Listed s (60 :: 47 :: (name ++ 62 :: out))
  | startTag {name atts out : List UInt8} (hname : inList s.keepTag name = true)
      (hatts : Attributes (s.ListedAtt name) atts) (hend : 62 ∉ atts) (h : Setting.Listed s out) :
      Setting.Listed s (60 :: (name ++ (atts ++ 62 :: out)))

/-- What the tags of the text have to be like: one that is shown as text has no other `<` in
it, and the attributes kept in a tag have values or no value. -/
def SafeElement (s : Setting) (el : List UInt8) : Prop :=
  if el.head? ≠ some 60 then True
  else if el.tail.head? = some 47 then
    inList s.keepTag (endTagName el) = true ∨ inList s.deleteTag (endTagName el) = true ∨
      60 ∉ endTagName el
  else
    let (name, attStr) := startTagParts el
    inList s.deleteTag name = true ∨
      if inList s.keepTag name then
        ∀ atts, keptAtts (s.thisKeepAtt name) 0 attStr = some atts →
          ∀ a ∈ atts, ∀ v, a.2 = some v → Value v
      else 60 ∉ name ∧ 60 ∉ attStr

/-! ## Names -/

/-- The bytes that mean something between tags. -/
def marks : List UInt8 := [0, 32, 34, 39, 47, 60, 61, 62]

/-- Names without marks, as there are in the settings. -/
def PlainNames (list : List (List UInt8)) : Prop :=
  ∀ name ∈ list, name.length < 29 ∧ ∀ c ∈ marks, c ∉ name.map toLower

instance (list : List (List UInt8)) : Decidable (PlainNames list) :=
  inferInstanceAs (Decidable (∀ name ∈ list, name.length < 29 ∧ ∀ c ∈ marks, c ∉ name.map toLower))

theorem plainNames_keepTag (one : Bool) : PlainNames (settingOf one).keepTag := by
  cases one <;> decide +kernel

theorem plainNames_keepAtt (one : Bool) : ∀ row ∈ (settingOf one).keepAtt, PlainNames row.2 := by
  cases one <;> decide +kernel

theorem plainNames_thisKeepAtt {one : Bool} {tag : List UInt8} {list : List (List UInt8)}
    (h : (settingOf one).thisKeepAtt tag = some list) : PlainNames list := by
  obtain ⟨row, hrow, rfl⟩ := Option.map_eq_some_iff.mp h
  exact plainNames_keepAtt one row (List.mem_of_find?_eq_some hrow)

theorem toLower_mark : ∀ c ∈ marks, toLower c = c := by decide +kernel

theorem PlainNames.notMem {list : List (List UInt8)} (hplain : PlainNames list) {name : List UInt8}
    (h : inList list name = true) {c : UInt8} (hc : c ∈ marks) : c ∉ name := by
  intro hmem
  obtain ⟨kept, hkept, heq⟩ := List.any_eq_true.mp h
  have hlower : c ∈ name.map toLower := by
    have hmap := List.mem_map_of_mem (f := toLower) hmem
    rwa [toLower_mark c hc] at hmap
  rw [← strcasecmp_iff.mp heq] at hlower
  exact (hplain kept hkept).2 c hc hlower

theorem PlainNames.noQuote {list : List (List UInt8)} (hplain : PlainNames list)
    {name : List UInt8} (h : inList list name = true) {c : UInt8} (hc : c ∈ name) :
    isQuote c = false := by
  have hdouble : c ≠ 34 := by
    rintro rfl
    exact hplain.notMem h (by decide) hc
  have hsingle : c ≠ 39 := by
    rintro rfl
    exact hplain.notMem h (by decide) hc
  simp [isQuote, hdouble, hsingle]

theorem PlainNames.length_lt {list : List (List UInt8)} (hplain : PlainNames list)
    {name : List UInt8} (h : inList list name = true) : name.length < 29 := by
  obtain ⟨kept, hkept, heq⟩ := List.any_eq_true.mp h
  have hlen := congrArg List.length (strcasecmp_iff.mp heq)
  rw [List.length_map, List.length_map] at hlen
  exact hlen ▸ (hplain kept hkept).1

/-- A name that may be printed in a tag has nothing in it that ends a name. -/
theorem listedAtt_clean {one : Bool} {tag name : List UInt8}
    (h : (settingOf one).ListedAtt tag name) : ∀ c ∈ name, c ≠ 32 ∧ c ≠ 61 ∧ isQuote c = false := by
  rcases h with rfl | ⟨list, hlist, hname⟩
  · exact List.all_iff_forall_prop.mp (by decide)
  · have hplain := plainNames_thisKeepAtt hlist
    intro c hc
    refine ⟨?_, ?_, hplain.noQuote hname hc⟩ <;> rintro rfl
    · exact hplain.notMem hname (by decide) hc
    · exact hplain.notMem hname (by decide) hc

/-! ## Cutting from the right -/

theorem cutRight_spec {attStr : List UInt8} (hne : attStr ≠ []) :
    (cutRight attStr).1 ++ (cutRight attStr).2 = attStr ∧
      (Cut (cutRight attStr).2 ∨ (cutRight attStr).1 = [] ∧ FirstCut (cutRight attStr).2) := by
  obtain ⟨before, ch, rfl⟩ := List.eq_nil_or_concat attStr |>.resolve_left hne
  have hrev : (before.concat ch).reverse = ch :: before.reverse := by simp
  have hnone : ∀ l : List UInt8, ch ∉ l.takeWhile (· != ch) := by
    intro l hmem
    simpa using List.mem_takeWhile_imp hmem
  have hword : ∀ l : List UInt8, 32 ∉ l.takeWhile (!isBlank ·) := by
    intro l hmem
    simpa [isBlank] using List.mem_takeWhile_imp hmem
  rw [cutRight, hrev]
  dsimp only
  split
  · next hquote =>
    have hsplit := List.takeWhile_append_dropWhile (p := (· != ch)) (l := before.reverse)
    split
    · next hdrop =>
      rw [hdrop, List.append_nil] at hsplit
      refine ⟨rfl, .inr ⟨rfl, ?_⟩⟩
      rw [List.concat_eq_append]
      refine .unopened ch hquote fun hmem => ?_
      exact hnone before.reverse (hsplit.symm ▸ List.mem_reverse.mpr hmem)
    · next q behind hdrop =>
      obtain rfl : q = ch := by
        have hhead := List.head?_dropWhile_not (· != ch) before.reverse
        rw [hdrop] at hhead
        simpa using hhead
      have hbehind := List.takeWhile_append_dropWhile (p := (!isBlank ·)) (l := behind)
      have hbody := hnone before.reverse
      have hw := hword behind
      rw [hdrop] at hsplit
      generalize before.reverse.takeWhile (· != q) = body at hsplit hbody ⊢
      generalize behind.takeWhile (!isBlank ·) = w at hbehind hw ⊢
      generalize behind.dropWhile (!isBlank ·) = rest at hbehind ⊢
      subst hbehind
      have hbefore : before = (body ++ q :: (w ++ rest)).reverse := by
        rw [hsplit, List.reverse_reverse]
      have htoken : (q :: (body ++ q :: w)).reverse = w.reverse ++ q :: (body.reverse ++ [q]) := by
        simp
      rw [htoken]
      refine ⟨by simp [hbefore], .inl (.quoted q ?_ hquote ?_)⟩
      · exact fun hmem => hw (List.mem_reverse.mp hmem)
      · exact fun hmem => hbody (List.mem_reverse.mp hmem)
  · next hquote =>
    have hsplit := List.takeWhile_append_dropWhile (p := (!isBlank ·)) (l := ch :: before.reverse)
    refine ⟨?_, .inl (.word ?_ ?_)⟩
    · rw [← List.reverse_append, hsplit]
      simp
    · exact fun hmem => hword _ (List.mem_reverse.mp hmem)
    · intro c hc
      rw [List.getLast?_reverse] at hc
      have hhead : c = ch := by
        by_cases hblank : isBlank ch = true <;> simp_all
      exact hhead ▸ by simpa using hquote

theorem getRightAtt_rest {attStr rest : List UInt8} {a : List UInt8 × Option (List UInt8)}
    (h : getRightAtt attStr = some (a, rest)) {c : UInt8} (hc : c ∈ rest) : c ∈ attStr := by
  have htrim := (List.rdropWhile_prefix (p := isBlank) (l := attStr)).subset
  simp only [getRightAtt] at h
  split_ifs at h with hnil hone
  · obtain ⟨-, rfl⟩ := Prod.mk.inj (Option.some.inj h)
    exact htrim hc
  all_goals
    obtain ⟨-, rfl⟩ := Prod.mk.inj (Option.some.inj h)
    refine htrim ?_
    rw [← (cutRight_spec hnil).1]
    exact List.mem_append_left _ hc

/-- The name that is copied is whole when it is kept. -/
theorem strsncpy_of_kept {list : List (List UInt8)} (hplain : PlainNames list) {name : List UInt8}
    (h0 : 0 ∉ name) (hkept : inList list (strsncpy name 30) = true) : strsncpy name 30 = name := by
  have hcut : strsncpy name 30 = name.take 29 := by
    rw [strsncpy, List.takeWhile_eq_self_iff]
    intro c hc
    simp only [decide_not, Bool.not_eq_eq_eq_not, Bool.not_true, decide_eq_false_iff_not]
    rintro rfl
    exact h0 (List.mem_of_mem_take hc)
  have hlen := hplain.length_lt hkept
  rw [hcut, List.length_take] at hlen
  rw [hcut, List.take_of_length_le (by omega)]

theorem attText_token (token : List UInt8) :
    attText (cutAt 61 token, if 61 ∈ token then some (token.drop ((cutAt 61 token).length + 1))
      else none) = token := by
  split
  · next hmem =>
    obtain ⟨name, v, rfl, hname⟩ := List.eq_append_cons_of_mem hmem
    rw [cutAt_append_cons hname, attText, List.drop_append]
    simp
  · next hmem => rw [attText, cutAt_of_notMem hmem, List.append_nil]

theorem getRightAtt_kept {attStr rest : List UInt8} {a : List UInt8 × Option (List UInt8)}
    {list : List (List UInt8)} (hplain : PlainNames list) (h0 : 0 ∉ attStr)
    (h : getRightAtt attStr = some (a, rest)) (hkept : inList list a.1 = true) :
    (∀ c ∈ attText a, c ∈ attStr) ∧ (Cut (attText a) ∨ rest = [] ∧ FirstCut (attText a)) := by
  have htrim := (List.rdropWhile_prefix (p := isBlank) (l := attStr)).subset
  simp only [getRightAtt] at h
  generalize attStr.rdropWhile isBlank = trimmed at htrim h
  have h0' : 0 ∉ trimmed := fun hmem => h0 (htrim hmem)
  by_cases hnil : trimmed = []
  · simp [hnil] at h
  by_cases hone : trimmed.length = 1
  · rw [if_neg hnil, if_pos hone] at h
    obtain ⟨rfl, -⟩ := Prod.mk.inj (Option.some.inj h)
    have hwhole := strsncpy_of_kept hplain h0' hkept
    rw [hwhole] at hkept
    simp only [attText, hwhole, List.append_nil]
    refine ⟨fun c hc => htrim hc, .inl (.word (hplain.notMem hkept (by decide)) fun c hc => ?_)⟩
    exact hplain.noQuote hkept (List.mem_of_getLast? hc)
  · rw [if_neg hnil, if_neg hone] at h
    obtain ⟨rfl, rfl⟩ := Prod.mk.inj (Option.some.inj h)
    obtain ⟨hall, hcut⟩ := cutRight_spec hnil
    generalize (cutRight trimmed).2 = token at *
    have htoken : ∀ c ∈ token, c ∈ trimmed := fun c hc => hall ▸ List.mem_append_right _ hc
    have h0name : 0 ∉ cutAt 61 token := fun hmem =>
      h0' (htoken 0 ((List.takeWhile_prefix _).subset hmem))
    have hwhole := strsncpy_of_kept hplain h0name hkept
    rw [hwhole, attText_token]
    exact ⟨fun c hc => htrim (htoken c hc), hcut⟩

/-- What is known of attributes that were cut off from a text. -/
structure KeptOk (keep : Option (List (List UInt8))) (attStr : List UInt8)
    (atts : List (List UInt8 × Option (List UInt8))) : Prop where
  listed : ∀ a ∈ atts, a.1 = [47] ∨ ∃ list, keep = some list ∧ inList list a.1 = true
  first : ∀ a ∈ atts, FirstCut (attText a)
  cut : ∀ a ∈ atts.dropLast, Cut (attText a)
  bytes : ∀ a ∈ atts, ∀ c ∈ attText a, c = 47 ∨ c ∈ attStr

theorem keptOk_nil (keep : Option (List (List UInt8))) (attStr : List UInt8) :
    KeptOk keep attStr [] := ⟨by simp, by simp, by simp, by simp⟩

theorem KeptOk.mono {keep : Option (List (List UInt8))} {attStr rest : List UInt8}
    {atts : List (List UInt8 × Option (List UInt8))} (h : KeptOk keep rest atts)
    (hrest : ∀ c ∈ rest, c ∈ attStr) : KeptOk keep attStr atts :=
  ⟨h.listed, h.first, h.cut, fun a ha c hc => (h.bytes a ha c hc).imp_right (hrest c)⟩

theorem KeptOk.cons {keep : Option (List (List UInt8))} {attStr : List UInt8}
    {atts : List (List UInt8 × Option (List UInt8))} (h : KeptOk keep attStr atts)
    {a : List UInt8 × Option (List UInt8)}
    (hlisted : a.1 = [47] ∨ ∃ list, keep = some list ∧ inList list a.1 = true)
    (hcut : Cut (attText a) ∨ atts = [] ∧ FirstCut (attText a))
    (hbytes : ∀ c ∈ attText a, c = 47 ∨ c ∈ attStr) : KeptOk keep attStr (a :: atts) where
  listed := List.forall_mem_cons.mpr ⟨hlisted, h.listed⟩
  first := List.forall_mem_cons.mpr ⟨hcut.elim .cut (·.2), h.first⟩
  cut := by
    cases atts with
    | nil => simp
    | cons b atts =>
        rw [List.dropLast_cons_cons]
        exact List.forall_mem_cons.mpr ⟨hcut.resolve_right (by simp), h.cut⟩
  bytes := List.forall_mem_cons.mpr ⟨hbytes, h.bytes⟩

theorem keptAtts_nil (keep : Option (List (List UInt8))) (i : Nat) :
    keptAtts keep i [] = some [] := by
  rw [keptAtts]
  split
  · split
    · rfl
    · next hget => simp [getRightAtt] at hget
  · rfl

theorem keptAtts_spec {keep : Option (List (List UInt8))}
    (hplain : ∀ list, keep = some list → PlainNames list) {i : Nat} {attStr : List UInt8} :
    ∀ {atts}, 0 ∉ attStr → keptAtts keep i attStr = some atts → KeptOk keep attStr atts := by
  fun_induction keptAtts keep i attStr with
  | case2 keep i attStr hi a rest hget hslash ih =>
      intro atts h0 h
      obtain ⟨others, hothers, rfl⟩ := Option.map_eq_some_iff.mp h
      have hrest : ∀ c ∈ rest, c ∈ attStr := fun c => getRightAtt_rest hget
      have htext : attText (a.1, none) = [47] := by rw [attText, hslash.2, List.append_nil]
      refine ((ih hplain (fun hmem => h0 (hrest 0 hmem)) hothers).mono hrest).cons
        (.inl hslash.2) (.inl ?_) ?_ <;> rw [htext]
      · refine .word (by decide) fun c hc => ?_
        cases hc
        rfl
      · simp
  | case4 i attStr hi a rest hget hslash list hkept ih =>
      intro atts h0 h
      obtain ⟨others, hothers, rfl⟩ := Option.map_eq_some_iff.mp h
      have hrest : ∀ c ∈ rest, c ∈ attStr := fun c => getRightAtt_rest hget
      obtain ⟨hbytes, hcut⟩ := getRightAtt_kept (hplain list rfl) h0 hget hkept
      refine ((ih hplain (fun hmem => h0 (hrest 0 hmem)) hothers).mono hrest).cons
        (.inr ⟨list, rfl, hkept⟩) (hcut.imp_right ?_) fun c hc => .inr (hbytes c hc)
      rintro ⟨rfl, hfirst⟩
      rw [keptAtts_nil] at hothers
      exact ⟨(Option.some.inj hothers).symm, hfirst⟩
  | case5 i attStr hi a rest hget hslash list hkept hshort ih =>
      intro atts h0 h
      have hrest : ∀ c ∈ rest, c ∈ attStr := fun c => getRightAtt_rest hget
      exact (ih hplain (fun hmem => h0 (hrest 0 hmem)) h).mono hrest
  | case6 => simp
  | _ =>
      intro atts _ h
      rw [← Option.some.inj h]
      exact keptOk_nil ..

/-! ## What the elements print -/

theorem listed_of_notMem (s : Setting) {out : List UInt8} (h : 60 ∉ out) : s.Listed out := by
  induction out with
  | nil => exact .nil
  | cons c out ih =>
      rw [List.mem_cons, not_or] at h
      exact .char c (Ne.symm h.1) (ih h.2)

/-- A tag that begins in the text ends in it. -/
theorem Setting.Listed.ends {s : Setting} {out : List UInt8} (h : s.Listed out) (hlt : 60 ∈ out) :
    62 ∈ out := by
  induction h with
  | nil => simp at hlt
  | char c hc h ih =>
      rw [List.mem_cons] at hlt ⊢
      exact .inr (ih (hlt.resolve_left (Ne.symm hc)))
  | endTag hname h ih => simp
  | startTag hname hatts hend h ih => simp

/-- Escaped text has no tags in it if it has no `<`. -/
theorem listed_escaped_iff (s : Setting) {text : List UInt8} (hgt : 62 ∉ text) :
    s.Listed text ↔ 60 ∉ text :=
  ⟨fun h hlt => hgt (h.ends hlt), listed_of_notMem s⟩

theorem listed_printEndTag_iff (one : Bool) (el : List UInt8) :
    (settingOf one).Listed (printEndTag (settingOf one) el) ↔
      inList (settingOf one).keepTag (endTagName el) = true ∨
        inList (settingOf one).deleteTag (endTagName el) = true ∨ 60 ∉ endTagName el := by
  have hgt : 62 ∉ endTagName el := fun hmem => notMem_cutAt 62 el (List.mem_of_mem_drop hmem)
  simp only [printEndTag]
  by_cases hkeep : inList (settingOf one).keepTag (endTagName el) = true
  · rw [if_pos hkeep]
    exact ⟨fun _ => .inl hkeep, fun _ => .endTag hkeep .nil⟩
  · rw [if_neg hkeep]
    by_cases hdelete : inList (settingOf one).deleteTag (endTagName el) = true
    · rw [if_pos hdelete]
      exact ⟨fun _ => .inr (.inl hdelete), fun _ => .nil⟩
    · rw [if_neg hdelete, listed_escaped_iff _ (by simp [hgt, ascii])]
      simp [hkeep, hdelete, ascii]

theorem behind_name {atts out : List UInt8} (hatts : ∀ c rest, atts = c :: rest → c = 32)
    (c : UInt8) (rest : List UInt8) (h : atts ++ 62 :: out = c :: rest) : c = 32 ∨ c = 62 := by
  cases atts with
  | nil => exact .inr (List.cons.inj h).1.symm
  | cons x atts => exact .inl ((List.cons.inj h).1 ▸ hatts x atts rfl)

theorem keepTag_inside {one : Bool} {tag : List UInt8}
    (htag : inList (settingOf one).keepTag tag = true) : ∀ c ∈ tag, ¬ (c = 32 ∨ c = 62) := by
  rintro c hc (rfl | rfl)
  · exact (plainNames_keepTag one).notMem htag (by decide) hc
  · exact (plainNames_keepTag one).notMem htag (by decide) hc

/-- A start tag of the list reads back with the attributes that were printed. -/
theorem listed_startTag_iff {one : Bool} {name : List UInt8} {atts : List UInt8}
    (hkeep : inList (settingOf one).keepTag name = true) (hgt : 62 ∉ atts)
    (hblank : ∀ c rest, atts = c :: rest → c = 32) :
    (settingOf one).Listed (60 :: (name ++ (atts ++ [62]))) ↔
      Attributes ((settingOf one).ListedAtt name) atts := by
  constructor
  · intro h
    generalize htext : 60 :: (name ++ (atts ++ [62])) = text at h
    cases h with
    | nil => simp at htext
    | char c hc h => exact absurd (List.cons.inj htext).1.symm hc
    | endTag htag h =>
        have hslash := (List.cons.inj htext).2
        cases name with
        | nil => rcases behind_name hblank 47 _ hslash with hc | hc <;> simp at hc
        | cons c name =>
            obtain ⟨rfl, -⟩ := List.cons.inj hslash
            exact absurd List.mem_cons_self ((plainNames_keepTag one).notMem hkeep (by decide))
    | startTag htag hatts hend h =>
        obtain ⟨rfl, hbehind⟩ := split_unique (keepTag_inside hkeep) (keepTag_inside htag)
          (behind_name hblank) (behind_name fun c rest hc => hatts.head hc) (List.cons.inj htext).2
        obtain ⟨rfl, -⟩ := split_unique (P := fun c => c = 62) (fun c hc hc' => hgt (hc' ▸ hc))
          (fun c hc hc' => hend (hc' ▸ hc)) (fun c rest hc => (List.cons.inj hc).1.symm)
          (fun c rest hc => (List.cons.inj hc).1.symm) hbehind
        exact hatts
  · exact fun h => .startTag hkeep h hgt .nil

theorem mem_joinEquals {c : UInt8} {s : List UInt8} :
    ∀ {afterEquals}, c ∈ joinEquals afterEquals s → c ∈ s := by
  induction s with
  | nil => simp [joinEquals]
  | cons d s ih =>
      intro afterEquals h
      rw [joinEquals] at h
      split at h
      · exact List.mem_cons_of_mem d (ih h)
      · rw [List.mem_cons] at h ⊢
        exact h.imp_right ih

theorem mem_fixTag {c : UInt8} {s : List UInt8} (h : c ∈ fixTag s) : c = 32 ∨ c ∈ s := by
  obtain ⟨d, hd, rfl⟩ := List.mem_map.mp h
  obtain ⟨e, he, rfl⟩ := List.mem_map.mp (List.mem_of_mem_filter (mem_joinEquals hd))
  split_ifs <;> simp_all

theorem notMem_startTagParts {el : List UInt8} (h0 : 0 ∉ el) :
    62 ∉ (startTagParts el).1 ∧ 62 ∉ (startTagParts el).2 ∧ 0 ∉ (startTagParts el).2 := by
  have hname : ∀ c ∈ (startTagParts el).1, c ∈ cutAt 62 (fixTag el) := fun c hc =>
    List.mem_of_mem_drop ((List.takeWhile_prefix _).subset hc)
  have hatt : ∀ c ∈ (startTagParts el).2, c ∈ cutAt 62 (fixTag el) := fun c hc =>
    List.mem_of_mem_drop (List.mem_of_mem_drop hc)
  refine ⟨fun h => notMem_cutAt _ _ (hname _ h), fun h => notMem_cutAt _ _ (hatt _ h), fun h => ?_⟩
  have hzero : 0 ∈ fixTag el := (List.takeWhile_prefix _).subset (hatt 0 h)
  exact h0 ((mem_fixTag hzero).resolve_left (by decide))

theorem listed_printStartTag_iff {one : Bool} {el piece : List UInt8} (h0 : 0 ∉ el)
    (h : printStartTag (settingOf one) el = some piece) :
    (settingOf one).Listed piece ↔
      inList (settingOf one).deleteTag (startTagParts el).1 = true ∨
        if inList (settingOf one).keepTag (startTagParts el).1 then
          ∀ atts, keptAtts ((settingOf one).thisKeepAtt (startTagParts el).1) 0
            (startTagParts el).2 = some atts → ∀ a ∈ atts, ∀ v, a.2 = some v → Value v
        else 60 ∉ (startTagParts el).1 ∧ 60 ∉ (startTagParts el).2 := by
  obtain ⟨hgtname, hgtatt, h0att⟩ := notMem_startTagParts h0
  rcases hparts : startTagParts el with ⟨name, attStr⟩
  simp only [hparts] at hgtname hgtatt h0att
  simp only [printStartTag, hparts] at h
  dsimp only
  split_ifs at h with hdelete hkeep
  · obtain rfl := Option.some.inj h
    exact ⟨fun _ => .inl hdelete, fun _ => .nil⟩
  · obtain ⟨atts, hatts, rfl⟩ := Option.map_eq_some_iff.mp h
    have hok := keptAtts_spec (fun list hlist => plainNames_thisKeepAtt hlist) h0att hatts
    have hgt : 62 ∉ printed atts.reverse := by
      intro hmem
      obtain ⟨a, ha, hbyte⟩ := List.mem_flatMap.mp hmem
      rcases List.mem_cons.mp hbyte with hblank | hbyte
      · exact absurd hblank (by decide)
      · have hfrom := hok.bytes a (List.mem_reverse.mp ha) 62 hbyte
        exact hgtatt (hfrom.resolve_left (by decide))
    have hread : Attributes ((settingOf one).ListedAtt name) (printed atts.reverse) ↔
        ∀ a ∈ atts.reverse, ∀ v, a.2 = some v → Value v :=
      attributes_iff (fun _ => listedAtt_clean) (fun a ha => hok.listed a (List.mem_reverse.mp ha))
        (fun a ha => hok.first a (List.mem_reverse.mp ha)) (by simpa using hok.cut)
    rw [listed_startTag_iff hkeep hgt (printed_head _), hread, if_pos hkeep]
    simp [hdelete, hatts]
  · obtain rfl := Option.some.inj h
    rw [listed_escaped_iff _ (by simp [hgtname, hgtatt, ascii]), if_neg hkeep]
    simp [hdelete, ascii]

theorem listed_printElement_iff {one : Bool} {el piece : List UInt8} (h0 : 0 ∉ el)
    (htext : el.head? ≠ some 60 → 60 ∉ el) (h : printElement (settingOf one) el = some piece) :
    (settingOf one).Listed piece ↔ SafeElement (settingOf one) el := by
  unfold printElement at h
  unfold SafeElement
  split_ifs at h ⊢ with hlt hslash
  · obtain rfl := Option.some.inj h
    exact ⟨fun _ => trivial, fun _ => listed_of_notMem _ (htext hlt)⟩
  · obtain rfl := Option.some.inj h
    exact listed_printEndTag_iff one el
  · exact listed_printStartTag_iff h0 h

/-! ## The elements -/

theorem removeBlock_subset (start stop ptr : List UInt8) :
    (removeBlock start stop ptr).1 ⊆ ptr := by
  unfold removeBlock
  split
  · exact List.Subset.refl ptr
  · split
    · exact List.take_subset _ _
    · exact List.append_subset.mpr ⟨List.take_subset _ _, List.drop_subset _ _⟩

theorem removeBlocks_subset (start stop ptr : List UInt8) : removeBlocks start stop ptr ⊆ ptr := by
  fun_induction removeBlocks start stop ptr with
  | case1 =>
      rename_i ih
      exact List.Subset.trans ih (removeBlock_subset ..)
  | case2 => exact removeBlock_subset ..

theorem withoutBlocks_subset (src : List UInt8) : withoutBlocks src ⊆ src := by
  have hheader : skipHeader src ⊆ src := by
    unfold skipHeader
    split
    · exact List.Subset.refl src
    · exact List.drop_subset _ _
  have hfooter : removeFooter (skipHeader src) ⊆ skipHeader src := by
    unfold removeFooter
    split
    · exact List.Subset.refl _
    · exact List.take_subset _ _
  intro c hc
  exact hheader (hfooter (removeBlocks_subset _ _ _ (removeBlocks_subset _ _ _
    (removeBlocks_subset _ _ _ (removeBlocks_subset _ _ _ (removeBlocks_subset _ _ _
      (removeBlocks_subset _ _ _ hc)))))))

theorem getNextElement_spec {ptr el rest : List UInt8} (h : getNextElement ptr = some (el, rest)) :
    el ⊆ ptr ∧ rest ⊆ ptr ∧ (el.head? ≠ some 60 → 60 ∉ el) := by
  simp only [getNextElement] at h
  split_ifs at h with hnil hlt hgt
  · obtain ⟨rfl, rfl⟩ := Prod.mk.inj (Option.some.inj h)
    refine ⟨?_, List.drop_subset _ _, fun hne => absurd ?_ hne⟩
    · exact List.append_subset.mpr ⟨(List.takeWhile_prefix _).subset, by simpa using hgt⟩
    · cases ptr with
      | nil => contradiction
      | cons c ptr =>
          obtain rfl : c = 60 := by simpa using hlt
          simp [cutAt]
  · obtain ⟨rfl, rfl⟩ := Prod.mk.inj (Option.some.inj h)
    exact ⟨(List.takeWhile_prefix _).subset, List.drop_subset _ _, fun _ => notMem_cutAt 60 ptr⟩

theorem elements_spec (ptr : List UInt8) :
    ∀ el ∈ elements ptr, el ⊆ ptr ∧ (el.head? ≠ some 60 → 60 ∉ el) := by
  fun_induction elements ptr with
  | case1 => simp
  | case2 ptr el rest h ih =>
      obtain ⟨hel, hrest, htext⟩ := getNextElement_spec h
      rw [List.forall_mem_cons]
      exact ⟨⟨hel, htext⟩, fun e he => ⟨List.Subset.trans (ih e he).1 hrest, (ih e he).2⟩⟩

/-! ## The filter -/

/-- A link, and a tag that is not known. -/
def linkText : List UInt8 := ascii "<a onclick=f href='u v'>x</a><q>"

theorem Setting.Listed.behind {s : Setting} (pre : List UInt8) {out : List UInt8}
    (hpre : 60 ∉ pre) (h : s.Listed (pre ++ out)) : s.Listed out := by
  induction pre with
  | nil => exact h
  | cons c pre ih =>
      rw [List.mem_cons, not_or] at hpre
      generalize htext : c :: pre ++ out = text at h
      cases h with
      | nil => simp at htext
      | char d hd h =>
          obtain rfl := (List.cons.inj htext).2
          exact ih hpre.2 h
      | endTag hname h => exact absurd (List.cons.inj htext).1.symm hpre.1
      | startTag hname hatts hend h => exact absurd (List.cons.inj htext).1.symm hpre.1

/-- A tag that begins in the text is one of the list. -/
theorem Setting.Listed.known {one : Bool} {name rest : List UInt8}
    (hname : ∀ c ∈ name, ¬ (c = 32 ∨ c = 62)) (hslash : name.head? ≠ some 47) (hne : name ≠ [])
    (h : (settingOf one).Listed (60 :: (name ++ 32 :: rest))) :
    inList (settingOf one).keepTag name = true := by
  generalize htext : 60 :: (name ++ 32 :: rest) = text at h
  cases h with
  | nil => simp at htext
  | char c hc h => exact absurd (List.cons.inj htext).1.symm hc
  | endTag htag h =>
      cases name with
      | nil => exact absurd rfl hne
      | cons c name =>
          obtain ⟨rfl, -⟩ := List.cons.inj (List.cons.inj htext).2
          simp at hslash
  | startTag htag hatts hend h =>
      obtain ⟨rfl, -⟩ := split_unique hname (keepTag_inside htag)
        (fun c rest hc => .inl (List.cons.inj hc).1.symm)
        (behind_name fun c rest hc => hatts.head hc) (List.cons.inj htext).2
      exact htag

/-- A tag that is not known with another one in it. -/
def hiddenTag : List UInt8 := ascii "<x <svg onload=alert(1) >>"

end Ytht
