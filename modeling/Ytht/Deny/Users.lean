import Mathlib.Data.Bool.AllAny
import Mathlib.Data.List.ReduceOption
import Ytht.Lib.Bytes
import Ytht.Lib.Runs
import Ytht.Ythtlib.Stdio
import Ytht.Ythtlib.Strlib

/-!
# Deny.Users

The bans of a board, in a text file that three programs write: the terminal, which appends
and removes lines, the web, which reads all bans and writes the file anew, and the program
that lifts bans when their time is past.

The web takes a line for a ban only when it finds a `[`, and a ban that is lifted by hand
has none, so it is gone when the web writes the file (`webBan_losesHand`).  Without that
the file is the ledger of the bans (`deny_run`).
-/

namespace Ytht

open Bytes Runs

namespace Deny

/-! ## Lines -/

/-- `%-12s` and the like -/
def padRight (n : Nat) (s : List UInt8) : List UInt8 := s ++ List.replicate (n - s.length) 32

/-- `%2d` -/
def pad2 (n : Nat) : List UInt8 := if n < 10 then 32 :: decimal n else decimal n

/-- `tm_mon + 1` and `tm_mday` of `gmtime`; the years begin in March. -/
def gmtime (t : Nat) : Nat × Nat :=
  let day := (t / 86400 + 719468) % 146097
  let year := (day - day / 1460 + day / 36524 - day / 146096) / 365
  let yday := day - (365 * year + year / 4 - year / 100)
  let month := (5 * yday + 2) / 153
  (if month < 10 then month + 3 else month - 9, yday - (153 * month + 2) / 5 + 1)

/-- `%2d月%2d日解` -/
def dateText (t : Nat) : List UInt8 :=
  pad2 (gmtime t).1 ++ [212, 194] ++ pad2 (gmtime t).2 ++ [200, 213, 189, 226]

/-- `手动解封` -/
def handText : List UInt8 := [202, 214, 182, 175, 189, 226, 183, 226]

/-- `%-12s %-40s %2d月%2d日解 \033[%um`; the day shown is one later. -/
def releaseLine (id exp : List UInt8) (freeTime : Nat) : List UInt8 :=
  padRight 12 id ++ [32] ++ padRight 40 exp ++ [32] ++ dateText (freeTime + 86400) ++
    [32, 27, 91] ++ decimal freeTime ++ [109]

/-- `%-12s %-35s 手动解封` -/
def handLine (id exp : List UInt8) : List UInt8 :=
  padRight 12 id ++ [32] ++ padRight 35 exp ++ [32] ++ handText

/-! ## The terminal -/

/-- What `strtok` takes for the end of a name. -/
def isDelim (c : UInt8) : Bool := c == 58 || c == 32 || c == 10 || c == 13 || c == 9

/-- `seek_in_file` -/
def seekInFile (file seekstr : List UInt8) : Bool :=
  (fgetsLines 79 79 file).any fun buf =>
    let namep := (buf.dropWhile isDelim).takeWhile fun c => !isDelim c
    namep ≠ [] && strcasecmp namep seekstr

/-- `addtofile` -/
def addtofile (file str : List UInt8) : List UInt8 := file ++ str ++ [10]

/-- The line begins with the name and a blank, for a `char` with a sign. -/
def startsWith (str buf : List UInt8) : Bool :=
  str.isPrefixOf buf &&
    ((buf.drop str.length).head?.all fun c => c ≤ 32 || 128 ≤ c || c == 58)

/-- `del_from_file` -/
def delFromFile (file str : List UInt8) : List UInt8 :=
  ((fgetsLines 79 79 file).filter fun buf => !startsWith str buf).flatten

/-- `strtosave` of `addtodeny` -/
def strtosave (uident buf : List UInt8) (day nowtime : Nat) : List UInt8 :=
  if day = 0 then handLine uident buf else releaseLine uident buf (nowtime + day * 86400)

/-- `deldeny` -/
def deldeny (file uident : List UInt8) : List UInt8 := delFromFile file uident

/-- `addtodeny`, once it is told what to do. -/
def addtodeny (file uident buf : List UInt8) (day nowtime : Nat) (ischange : Bool) : List UInt8 :=
  if seekInFile file uident ≠ ischange then file
  else
    addtofile (if ischange then deldeny file uident else file) (strtosave uident buf day nowtime)

/-! ## The web -/

/-- `struct deny` -/
structure DenyUser where
  id : List UInt8
  exp : List UInt8
  freeTime : Int
  deriving DecidableEq

/-- What follows the last `ch`: `strrchr(buf, ch) + 1`. -/
def behindLast (ch : UInt8) : List UInt8 → Option (List UInt8)
  | [] => none
  | c :: s => (behindLast ch s).or (if c = ch then some s else none)

/-- The ban in a line.  When there is no number, `free_time` is what was there before; the
model puts 0. -/
def parseDeny (buf : List UInt8) : Option DenyUser :=
  match scanWord buf with
  | none => none
  | some id =>
      match scanWord ((buf.dropWhile isspace).drop id.length) with
      | none => none
      | some exp => (behindLast 91 buf).map fun ptr => ⟨id, exp, (scanInt ptr).getD 0⟩

/-- `loaddenyuser` -/
def loaddenyuser (file : List UInt8) : List DenyUser :=
  ((fgetsLines 199 199 file).filterMap parseDeny).take 100

/-- Blanks in `exp` become dots. -/
def dots (exp : List UInt8) : List UInt8 := exp.map fun c => if c ≤ 32 ∧ c ≠ 0 then 46 else c

/-- `savedenyuser` -/
def savedenyuser (denyuser : List DenyUser) : List UInt8 :=
  (denyuser.filter (·.id ≠ [])).flatMap fun d =>
    releaseLine d.id (dots d.exp) (wrap 4 d.freeTime) ++ [10]

/-- `file_has_word`; `buf2` keeps its word over a blank line. -/
def fileHasWord (file word : List UInt8) : Bool :=
  (fgetsLines 254 254 file).any fun buf => (scanWord buf).any fun buf2 => strcasecmp buf2 word

/-- `bbsdenyadd`, for a user whom only this file can keep from posting; `nowT` is `now_t`. -/
def bbsdenyadd (file userid exp : List UInt8) (dt : Int) (nowT : Nat) : List UInt8 :=
  let denyuser := loaddenyuser file
  let exp := strsncpy exp 30
  if fileHasWord file userid then file
  else if dt < 1 ∨ dt > 99 then file
  else if exp = [] then file
  else if denyuser.any fun d => strcasecmp d.id userid then file
  else if denyuser.length > 40 then file
  else savedenyuser (denyuser ++ [⟨strsncpy userid 13, strsncpy exp 30, toInt (nowT + dt * 86400)⟩])

/-- `denyuser[i].id[0] = 0` for the first user of that name. -/
def clearFirst (userid : List UInt8) : List DenyUser → List DenyUser
  | [] => []
  | d :: denyuser =>
      if strcasecmp d.id userid then { d with id := [] } :: denyuser
      else d :: clearFirst userid denyuser

/-- `bbsdenydel` -/
def bbsdenydel (file userid : List UInt8) : List UInt8 :=
  let denyuser := loaddenyuser file
  if denyuser.any fun d => strcasecmp d.id userid then savedenyuser (clearFirst userid denyuser)
  else file

/-! ## The automatic unbanning -/

/-- `sgetline`, with what is left; behind the file there is a NUL. -/
def sgetline : Nat → List UInt8 → List UInt8 × List UInt8
  | 0, buf => ([], buf)
  | _ + 1, [] => ([], [])
  | maxlen + 1, ch :: buf =>
      if ch = 13 then ([], if buf.head? = some 10 then buf.tail else buf)
      else if ch = 10 ∨ ch = 0 then ([], buf)
      else (ch :: (sgetline maxlen buf).1, (sgetline maxlen buf).2)

/-- `canundeny` -/
def canundeny (linebuf : List UInt8) (nowtime : Nat) : Bool :=
  match linebuf.dropWhile fun c => c != 0 && c != 27 with
  | 27 :: c :: d :: rest => c != 0 && d != 0 && digitsValue (d :: rest) < nowtime
  | _ => false

/-- The loop of `main`, with what has been kept. -/
def undenyLoop (nowtime : Nat) : Nat → List UInt8 → List UInt8 → List UInt8
  | 0, _, kept => kept
  | fuel + 1, buf, kept =>
      if buf = [] then kept
      else
        let (linebuf, rest) := sgetline 255 buf
        if canundeny linebuf nowtime then undenyLoop nowtime fuel rest kept
        else undenyLoop nowtime fuel rest ((if kept ≠ [] then kept ++ [10] else kept) ++ linebuf)

/-- `autoundeny`, for one board -/
def autoundeny (file : List UInt8) (nowtime : Nat) : List UInt8 :=
  if file = [] then file else undenyLoop nowtime file.length file [] ++ [10]

/-! ## The ledger -/

/-- When the ban on a line ends, if it is not lifted by hand. -/
def lineExpiry (l : List UInt8) : Option Nat :=
  match l.dropWhile (· != 27) with
  | _ :: _ :: rest => some (digitsValue rest)
  | _ => none

/-- The users that the file names, with the times at which their bans end. -/
def denied (file : List UInt8) : List (List UInt8 × Option Nat) :=
  (file.splitOn 10).filterMap fun l => (scanWord l).map fun id => (id, lineExpiry l)

/-! ## Bans -/

/-- A name that `goodgbid` takes. -/
def GoodId (id : List UInt8) : Prop := id ≠ [] ∧ id.length ≤ 12 ∧ ∀ c ∈ id, isAlpha c = true ∨ 160 < c

/-- Nothing that ends a line or begins a release time. -/
def Plain (s : List UInt8) : Prop := ∀ c ∈ s, c ∉ [0, 10, 13, 27, 91]

/-- A ban as a line can hold it. -/
structure Ban where
  id : List UInt8
  /-- with the blanks behind it -/
  reason : List UInt8
  date : List UInt8
  expiry : Option Nat
  goodId : GoodId id
  plain : Plain (reason ++ 32 :: date)
  short : reason.length ≤ 40 ∧ date.length ≤ 10
  word : scanWord date ≠ none
  int : ∀ t ∈ expiry, t < 2 ^ 31

def release : Option Nat → List UInt8
  | none => []
  | some t => 32 :: 27 :: 91 :: (decimal t ++ [109])

/-- What stands before the release time. -/
def Ban.head (b : Ban) : List UInt8 := padRight 12 b.id ++ 32 :: (b.reason ++ 32 :: b.date)

def Ban.text (b : Ban) : List UInt8 := b.head ++ release b.expiry

/-- The ban in the ledger. -/
def Ban.entry (b : Ban) : List UInt8 × Option Nat := (b.id, b.expiry)

/-- `autoundeny` can leave a blank line. -/
def lineText : Option Ban → List UInt8
  | none => []
  | some b => b.text

def fileText (xs : List (Option Ban)) : List UInt8 := (xs.map lineText).flatMap (· ++ [10])

/-! ## Reading a line -/

theorem GoodId.byte {id : List UInt8} (h : GoodId id) {c : UInt8} (hc : c ∈ id) :
    32 < c ∧ c ≠ 58 ∧ c ≠ 91 := by
  have hbyte := h.2.2 c hc
  simp only [isAlpha, isUpper, isLower, Bool.or_eq_true, Bool.and_eq_true, decide_eq_true_eq] at hbyte
  grind

theorem GoodId.not_space {id : List UInt8} (h : GoodId id) {c : UInt8} (hc : c ∈ id) :
    isspace c = false := by
  have hbyte := (h.byte hc).1
  simp only [isspace, Bool.or_eq_false_iff, beq_eq_false_iff_ne, Bool.and_eq_false_iff,
    decide_eq_false_iff_not]
  grind

theorem GoodId.not_delim {id : List UInt8} (h : GoodId id) {c : UInt8} (hc : c ∈ id) :
    isDelim c = false := by
  have hbyte := h.byte hc
  simp only [isDelim, Bool.or_eq_false_iff, beq_eq_false_iff_ne]
  grind

theorem GoodId.plain {id : List UInt8} (h : GoodId id) : Plain id := by
  intro c hc
  have hbyte := h.byte hc
  simp only [List.mem_cons, List.not_mem_nil, or_false]
  grind

theorem GoodId.zero_notMem {id : List UInt8} (h : GoodId id) : 0 ∉ id :=
  fun hmem => h.plain 0 hmem (by decide)

theorem plain_append {s t : List UInt8} : Plain (s ++ t) ↔ Plain s ∧ Plain t := by
  simp only [Plain, List.mem_append, or_imp, forall_and]

theorem plain_cons {c : UInt8} {s : List UInt8} :
    Plain (c :: s) ↔ c ∉ [0, 10, 13, 27, 91] ∧ Plain s := List.forall_mem_cons

theorem plain_blanks (n : Nat) : Plain (List.replicate n 32) := by
  intro c hc
  rw [List.eq_of_mem_replicate hc]
  decide

theorem plain_padRight {n : Nat} {s : List UInt8} : Plain (padRight n s) ↔ Plain s := by
  rw [padRight, plain_append, and_iff_left (plain_blanks _)]

theorem plain_decimal (n : Nat) : Plain (decimal n) := by
  intro c hc
  have hdigit := isdigit_decimal n c hc
  simp only [isdigit, Bool.and_eq_true, decide_eq_true_eq] at hdigit
  simp only [List.mem_cons, List.not_mem_nil, or_false]
  grind

theorem length_padRight {n : Nat} {s : List UInt8} (h : s.length ≤ n) : (padRight n s).length = n := by
  rw [padRight, List.length_append, List.length_replicate]
  omega

/-- The blanks that fill up the field may as well follow the blank behind it. -/
theorem padRight_space (n : Nat) (s r : List UInt8) :
    padRight n s ++ 32 :: r = s ++ 32 :: (List.replicate (n - s.length) 32 ++ r) := by
  rw [padRight, List.append_assoc, List.append_cons, ← List.replicate_succ', List.replicate_succ,
    List.cons_append]

theorem Ban.plain_head (b : Ban) : Plain b.head := by
  rw [head, plain_append, plain_padRight, plain_cons]
  exact ⟨b.goodId.plain, by decide, b.plain⟩

theorem Ban.text_eq (b : Ban) : b.text = b.id ++ 32 :: (List.replicate (12 - b.id.length) 32 ++
    (b.reason ++ 32 :: (b.date ++ release b.expiry))) := by
  rw [text, head, padRight_space]
  simp only [List.append_assoc, List.cons_append]

/-- Nothing in the line ends it. -/
theorem Ban.no_break (b : Ban) {c : UInt8} (hc : c ∈ b.text) : c ≠ 0 ∧ c ≠ 10 ∧ c ≠ 13 := by
  rcases List.mem_append.mp hc with hc | hc
  · have := b.plain_head c hc
    simp only [List.mem_cons, not_or] at this
    exact ⟨this.1, this.2.1, this.2.2.1⟩
  · cases ht : b.expiry with
    | none => simp [release, ht] at hc
    | some t =>
        have hdec := plain_decimal t c
        simp only [release, ht, List.mem_cons, List.mem_append, List.not_mem_nil, or_false] at hc hdec
        grind

theorem Ban.length_text (b : Ban) : b.text.length ≤ 78 := by
  have hhead : b.head.length ≤ 64 := by
    have := length_padRight b.goodId.2.1
    have := b.short
    simp only [head, List.length_append, List.length_cons]
    omega
  have hrelease : (release b.expiry).length ≤ 14 := by
    cases ht : b.expiry with
    | none => exact Nat.zero_le _
    | some t =>
        have := length_decimal (k := 10) (n := t) (by decide) (by have := b.int t ht; omega)
        simp only [release, List.length_cons, List.length_append, List.length_nil]
        omega
  rw [text, List.length_append]
  omega

theorem GoodId.scanWord {id : List UInt8} (h : GoodId id) : scanWord id = some id :=
  scanWord_word h.1 fun _ hc => h.not_space hc

theorem Ban.scanWord_text (b : Ban) (s : List UInt8) : scanWord (b.text ++ s) = some b.id := by
  rw [text_eq, List.append_assoc, List.cons_append, scanWord_append, b.goodId.scanWord, Option.some_or]

theorem behindLast_eq_none {ch : UInt8} {s : List UInt8} (h : ch ∉ s) : behindLast ch s = none := by
  induction s with
  | nil => rfl
  | cons c s ih =>
      obtain ⟨hc, hs⟩ := List.ne_and_not_mem_of_not_mem_cons h
      rw [behindLast, ih hs, if_neg hc.symm, Option.none_or]

theorem behindLast_append {ch : UInt8} {s : List UInt8} (h : ch ∉ s) (r : List UInt8) :
    behindLast ch (r ++ ch :: s) = some s := by
  induction r with
  | nil => rw [List.nil_append, behindLast, behindLast_eq_none h, if_pos rfl, Option.none_or]
  | cons c r ih => rw [List.cons_append, behindLast, ih, Option.some_or]

theorem parseDeny_eq_none {buf : List UInt8} (h : 91 ∉ buf) : parseDeny buf = none := by
  unfold parseDeny
  split
  · rfl
  · split
    · rfl
    · rw [behindLast_eq_none h, Option.map_none]

/-- The word that the web takes for the reason. -/
def Ban.exp (b : Ban) : List UInt8 := ((scanWord b.reason).or (scanWord b.date)).getD []

theorem Ban.scanWord_exp (b : Ban) :
    (scanWord b.reason).or (scanWord b.date) = some b.exp := by
  rw [exp]
  cases hreason : scanWord b.reason with
  | some word => rfl
  | none =>
      rw [Option.none_or]
      exact (Option.some_get (Option.isSome_iff_ne_none.mpr b.word)).symm.trans
        (congrArg some (Option.get_eq_getD ..))

theorem Ban.mem_exp {b : Ban} {c : UInt8} (hc : c ∈ b.exp) : c ∉ [0, 10, 13, 27, 91] := by
  have hexp := b.scanWord_exp
  refine b.plain c ?_
  rcases Option.or_eq_some_iff.mp hexp with hexp | ⟨-, hexp⟩
  · exact List.mem_append_left _ ((sublist_of_scanWord hexp).subset hc)
  · exact List.mem_append_right _ (List.mem_cons_of_mem _ ((sublist_of_scanWord hexp).subset hc))

theorem Ban.length_exp (b : Ban) : b.exp.length ≤ 40 := by
  have hshort := b.short
  rcases Option.or_eq_some_iff.mp b.scanWord_exp with hexp | ⟨-, hexp⟩
  · exact (sublist_of_scanWord hexp).length_le.trans hshort.1
  · exact (sublist_of_scanWord hexp).length_le.trans (by omega)

theorem GoodId.dropWhile {id : List UInt8} (h : GoodId id) {p : UInt8 → Bool}
    (hp : ∀ c ∈ id, p c = false) (s : List UInt8) : (id ++ s).dropWhile p = id ++ s := by
  obtain ⟨c, rest, rfl⟩ := List.exists_cons_of_ne_nil h.1
  rw [List.cons_append, List.dropWhile_cons_of_neg (by simp [hp c List.mem_cons_self])]

/-- **A line with a release time**: the web reads the ban back. -/
theorem Ban.parseDeny_text (b : Ban) : parseDeny (b.text ++ [10]) =
    b.expiry.map fun t => ⟨b.id, b.exp, (t : Int)⟩ := by
  cases ht : b.expiry with
  | none =>
      refine parseDeny_eq_none fun h91 => ?_
      rw [text, ht, release, List.append_nil, List.mem_append] at h91
      rcases h91 with h91 | h91
      · exact b.plain_head 91 h91 (by decide)
      · exact absurd h91 (by decide)
  | some t =>
      have hbehind : behindLast 91 (b.text ++ [10]) = some (decimal t ++ 109 :: [10]) := by
        have h91 : 91 ∉ decimal t ++ 109 :: [10] := by
          rw [List.mem_append, not_or]
          exact ⟨fun h91 => plain_decimal t 91 h91 (by decide), by decide⟩
        rw [text, ht, release, ← behindLast_append h91 (b.head ++ [32, 27])]
        simp only [List.append_assoc, List.cons_append, List.nil_append]
      have hint : scanInt (decimal t ++ 109 :: [10]) = some (t : Int) := by
        have hsep : isdigit 109 = false := rfl
        have hscan := scanNext_printInt (i := t) (by omega) (by have := b.int t ht; omega) hsep [10]
        obtain ⟨v, hv, hpair⟩ := Option.map_eq_some_iff.mp hscan
        have hprint : printInt t = decimal t := if_neg (by omega)
        rw [← (Prod.mk.inj hpair).1, ← hprint, hv]
      have hword : scanWord (((b.text ++ [10]).dropWhile isspace).drop b.id.length) =
          some b.exp := by
        rw [text_eq, List.append_assoc, b.goodId.dropWhile fun _ hc => b.goodId.not_space hc,
          List.drop_left, List.cons_append, scanWord_space rfl, List.append_assoc, scanWord_blanks,
          List.append_assoc, List.cons_append, scanWord_append, ht, release, List.append_assoc,
          List.cons_append, scanWord_append, ← Option.or_assoc, b.scanWord_exp, Option.some_or]
      rw [parseDeny, b.scanWord_text]
      simp only [hword, hbehind, hint, Option.map_some, Option.getD_some]

/-- The first ESC of a line is the one before the release time. -/
theorem Ban.dropWhile_text (b : Ban) {p : UInt8 → Bool}
    (hp : ∀ c, c ∉ [0, 10, 13, 27, 91] → p c = true) (hesc : p 27 = false) :
    b.text.dropWhile p = match b.expiry with
      | none => []
      | some t => 27 :: 91 :: (decimal t ++ [109]) := by
  rw [text, List.dropWhile_append_of_pos fun c hc => hp c (b.plain_head c hc)]
  cases b.expiry with
  | none => rfl
  | some t =>
      rw [release, List.dropWhile_cons_of_pos (hp 32 (by decide)),
        List.dropWhile_cons_of_neg (by simp [hesc])]

theorem Ban.lineExpiry_text (b : Ban) : lineExpiry b.text = b.expiry := by
  rw [lineExpiry, b.dropWhile_text _ rfl]
  · cases b.expiry with
    | none => rfl
    | some t => exact congrArg some (digitsValue_append rfl t [])
  · intro c hc
    simp only [List.mem_cons, not_or] at hc
    exact bne_iff_ne.mpr hc.2.2.2.1

theorem Ban.canundeny_text (b : Ban) (nowtime : Nat) :
    canundeny b.text nowtime = b.expiry.any (· < nowtime) := by
  rw [canundeny, b.dropWhile_text _ rfl]
  · cases b.expiry with
    | none => rfl
    | some t =>
        have hval : digitsValue (decimal t ++ [109]) = t := digitsValue_append rfl t []
        obtain ⟨d, ds, hdec⟩ := List.exists_cons_of_ne_nil (decimal_ne_nil t)
        have hd := plain_decimal t d (by rw [hdec]; exact List.mem_cons_self)
        simp only [List.mem_cons, not_or] at hd
        rw [hdec, List.cons_append] at hval
        simp [hdec, hval, hd.1]
  · intro c hc
    simp only [List.mem_cons, not_or] at hc
    simp [hc.1, hc.2.2.2.1]

theorem Ban.namep_text (b : Ban) (s : List UInt8) :
    (((b.text ++ s).dropWhile isDelim).takeWhile fun c => !isDelim c) = b.id := by
  rw [text_eq, List.append_assoc, b.goodId.dropWhile fun _ hc => b.goodId.not_delim hc,
    List.cons_append, takeWhile_append_of_neg rfl, List.takeWhile_eq_self_iff.mpr]
  intro c hc
  rw [b.goodId.not_delim hc, Bool.not_false]

theorem sgetline_line {l : List UInt8} (h : ∀ c ∈ l, c ≠ 0 ∧ c ≠ 10 ∧ c ≠ 13) {maxlen : Nat}
    (hlen : l.length < maxlen) (buf : List UInt8) : sgetline maxlen (l ++ 10 :: buf) = (l, buf) := by
  induction l generalizing maxlen with
  | nil =>
      obtain ⟨n, rfl⟩ := Nat.exists_eq_succ_of_ne_zero (Nat.ne_of_gt hlen)
      rfl
  | cons c l ih =>
      rw [List.length_cons] at hlen
      obtain ⟨n, rfl⟩ := Nat.exists_eq_succ_of_ne_zero (Nat.ne_of_gt (Nat.zero_lt_of_lt hlen))
      obtain ⟨hc, hl⟩ := List.forall_mem_cons.mp h
      rw [List.cons_append, sgetline, if_neg hc.2.2, if_neg (not_or.mpr ⟨hc.2.1, hc.1⟩),
        ih hl (by omega)]

/-! ## Reading the file -/

theorem fileText_nil : fileText [] = [] := rfl

theorem fileText_cons (x : Option Ban) (xs : List (Option Ban)) :
    fileText (x :: xs) = lineText x ++ 10 :: fileText xs := by
  rw [fileText, List.map_cons, List.flatMap_cons, List.append_assoc]
  rfl

theorem fileText_append (xs ys : List (Option Ban)) :
    fileText (xs ++ ys) = fileText xs ++ fileText ys := by
  rw [fileText, List.map_append, List.flatMap_append]
  rfl

theorem lineText_no_break (x : Option Ban) : ∀ c ∈ lineText x, c ≠ 0 ∧ c ≠ 10 ∧ c ≠ 13 := by
  intro c hc
  cases x with
  | none => contradiction
  | some b => exact b.no_break hc

theorem length_lineText (x : Option Ban) : (lineText x).length ≤ 78 := by
  cases x with
  | none => exact Nat.zero_le _
  | some b => exact b.length_text

theorem newline_not_mem (xs : List (Option Ban)) : ∀ l ∈ xs.map lineText, 10 ∉ l := by
  intro l hl h10
  obtain ⟨x, -, rfl⟩ := List.mem_map.mp hl
  exact (lineText_no_break x 10 h10).2.1 rfl

/-- Every line fits in the buffers of all three programs. -/
theorem fgets_fileText {size : Nat} (hsize : 79 ≤ size) (xs : List (Option Ban)) :
    fgetsLines size size (fileText xs) = xs.map fun x => lineText x ++ [10] := by
  have hshort : ∀ l ∈ xs.map lineText, l.length < size := by
    intro l hl
    obtain ⟨x, -, rfl⟩ := List.mem_map.mp hl
    exact (Nat.lt_succ_of_le (length_lineText x)).trans_le hsize
  rw [fileText, fgetsLines_content hshort (newline_not_mem xs), List.map_map]
  rfl

/-- What reads nothing from a blank line reads the bans. -/
theorem filterMap_lines {β : Type} {f : Option Ban → Option β} (h : f none = none)
    (xs : List (Option Ban)) : xs.filterMap f = xs.reduceOption.filterMap fun b => f (some b) := by
  rw [List.reduceOption, List.filterMap_filterMap]
  refine List.filterMap_congr fun x _ => ?_
  cases x with
  | none => exact h
  | some b => rfl

theorem any_lines {f : Option Ban → Bool} (h : f none = false) (xs : List (Option Ban)) :
    xs.any f = xs.reduceOption.any fun b => f (some b) := by
  rw [List.reduceOption, List.any_filterMap]
  congr 1
  funext x
  cases x with
  | none => exact h
  | some b => rfl

/-- **The file names the bans.** -/
theorem denied_fileText (xs : List (Option Ban)) :
    denied (fileText xs) = xs.reduceOption.map Ban.entry := by
  rw [denied, fileText, splitOn_content (newline_not_mem xs), List.filterMap_append,
    List.filterMap_map, filterMap_lines rfl]
  have hnil : scanWord [] = none := rfl
  simp only [List.filterMap_cons, hnil, Option.map_none, List.filterMap_nil, List.append_nil,
    Function.comp_apply, lineText]
  rw [← List.filterMap_eq_map]
  refine List.filterMap_congr fun b _ => ?_
  have hname := b.scanWord_text []
  rw [List.append_nil] at hname
  rw [hname, b.lineExpiry_text]
  rfl

theorem seekInFile_fileText (xs : List (Option Ban)) (u : List UInt8) :
    seekInFile (fileText xs) u = xs.reduceOption.any fun b => strcasecmp b.id u := by
  rw [seekInFile, fgets_fileText (by decide), List.any_map, any_lines rfl]
  congr 1
  funext b
  simp only [Function.comp_apply, lineText, b.namep_text, ne_eq, b.goodId.1, not_false_eq_true,
    decide_true, Bool.true_and]

theorem fileHasWord_fileText (xs : List (Option Ban)) (u : List UInt8) :
    fileHasWord (fileText xs) u = xs.reduceOption.any fun b => strcasecmp b.id u := by
  rw [fileHasWord, fgets_fileText (by decide), List.any_map, any_lines rfl]
  congr 1
  funext b
  simp [lineText, b.scanWord_text]

theorem loaddenyuser_fileText {xs : List (Option Ban)} (h : xs.reduceOption.length ≤ 100) :
    loaddenyuser (fileText xs) =
      xs.reduceOption.filterMap fun b => b.expiry.map fun t => ⟨b.id, b.exp, (t : Int)⟩ := by
  rw [loaddenyuser, fgets_fileText (by decide), List.filterMap_map, filterMap_lines rfl]
  simp only [Function.comp_apply, lineText, Ban.parseDeny_text]
  exact List.take_of_length_le ((List.length_filterMap_le _ _).trans h)

/-! ## Writing a line -/

theorem gmtime_lt (t : Nat) : (gmtime t).1 < 100 ∧ (gmtime t).2 < 100 := by
  have hday : (t / 86400 + 719468) % 146097 < 146097 := Nat.mod_lt _ (by decide)
  unfold gmtime
  generalize (t / 86400 + 719468) % 146097 = day at hday
  dsimp only
  constructor
  · split <;> omega
  · omega

theorem length_pad2 {n : Nat} (h : n < 100) : (pad2 n).length ≤ 2 := by
  unfold pad2
  split
  · next hn =>
    rw [List.length_cons]
    exact Nat.succ_le_succ (length_decimal (by decide) (by omega))
  · exact length_decimal (by decide) (by omega)

theorem plain_pad2 (n : Nat) : Plain (pad2 n) := by
  unfold pad2
  split
  · exact plain_cons.mpr ⟨by decide, plain_decimal n⟩
  · exact plain_decimal n

theorem length_dateText (t : Nat) : (dateText t).length ≤ 10 := by
  have := length_pad2 (gmtime_lt t).1
  have := length_pad2 (gmtime_lt t).2
  simp only [dateText, List.length_append, List.length_cons, List.length_nil]
  omega

theorem plain_dateText (t : Nat) : Plain (dateText t) := by
  simp only [dateText, plain_append]
  exact ⟨⟨⟨plain_pad2 _, List.all_iff_forall_prop.mp (by decide)⟩, plain_pad2 _⟩,
    List.all_iff_forall_prop.mp (by decide)⟩

theorem scanWord_dateText (t : Nat) : scanWord (dateText t) ≠ none := by
  have h212 : isspace 212 = false := rfl
  refine scanWord_ne_none ?_ h212
  exact List.mem_append_left _ (List.mem_append_left _ (List.mem_append_right _ List.mem_cons_self))

/-- A line that ends with a release time is a ban. -/
theorem exists_release {id exp : List UInt8} {t : Nat} (hid : GoodId id) (hlen : exp.length ≤ 40)
    (hplain : Plain exp) (ht : t < 2 ^ 31) :
    ∃ b : Ban, b.text = releaseLine id exp t ∧ b.entry = (id, some t) := by
  obtain ⟨date, heq⟩ : ∃ date, dateText (t + 86400) = date := ⟨_, rfl⟩
  have hdate := plain_dateText (t + 86400)
  have hshort := length_dateText (t + 86400)
  have hword := scanWord_dateText (t + 86400)
  rw [heq] at hdate hshort hword
  rw [releaseLine, heq]
  refine ⟨⟨id, padRight 40 exp, date, some t, hid, ?_, ?_, hword, ?_⟩, ?_, rfl⟩
  · rw [plain_append, plain_padRight, plain_cons]
    exact ⟨hplain, by decide, hdate⟩
  · exact ⟨(length_padRight hlen).le, hshort⟩
  · intro t' ht'
    rwa [← Option.some.inj ht']
  · simp only [Ban.text, Ban.head, release, List.append_assoc, List.cons_append, List.nil_append]

theorem exists_hand {id exp : List UInt8} (hid : GoodId id) (hlen : exp.length ≤ 40)
    (hplain : Plain exp) : ∃ b : Ban, b.text = handLine id exp ∧ b.entry = (id, none) := by
  refine ⟨⟨id, padRight 35 exp, handText, none, hid, ?_, ⟨?_, by decide⟩, by decide, ?_⟩, ?_, rfl⟩
  · rw [plain_append, plain_padRight, plain_cons]
    exact ⟨hplain, by decide, List.all_iff_forall_prop.mp (by decide)⟩
  · rw [padRight, List.length_append, List.length_replicate]
    omega
  · intro t ht
    contradiction
  · simp only [Ban.text, Ban.head, release, handLine, List.append_assoc, List.cons_append,
      List.nil_append, List.append_nil]

/-- When the ban of so many days ends. -/
def banExpiry (day nowtime : Nat) : Option Nat :=
  if day = 0 then none else some (nowtime + day * 86400)

theorem exists_strtosave {u reason : List UInt8} {day nowtime : Nat} (hid : GoodId u)
    (hlen : reason.length ≤ 40) (hplain : Plain reason)
    (hint : ∀ t ∈ banExpiry day nowtime, t < 2 ^ 31) :
    ∃ b : Ban, b.text = strtosave u reason day nowtime ∧ b.entry = (u, banExpiry day nowtime) := by
  unfold strtosave
  unfold banExpiry at hint ⊢
  split
  · exact exists_hand hid hlen hplain
  · next hday => exact exists_release hid hlen hplain (hint _ (if_neg hday))

/-! ## Writing the file -/

/-- The users that are banned, with the times at which their bans end. -/
abbrev Ledger := List (List UInt8 × Option Nat)

/-- The file holds these bans. -/
def Written (file : List UInt8) (bans : Ledger) : Prop :=
  ∃ xs : List (Option Ban), file = fileText xs ∧ xs.reduceOption.map Ban.entry = bans

/-- The ledger names the user, in some letters. -/
def named (u : List UInt8) (bans : Ledger) : Bool := bans.any fun e => strcasecmp e.1 u

def without (u : List UInt8) (bans : Ledger) : Ledger := bans.filter fun e => !strcasecmp e.1 u

/-- The registered names. -/
structure Accounts where
  ids : List (List UInt8)
  goodId : ∀ u ∈ ids, GoodId u
  /-- No name is another one in other letters. -/
  distinct : ∀ u ∈ ids, ∀ v ∈ ids, strcasecmp u v = true → u = v
  /-- `del_from_file` takes a byte from 128 on for the end of a name. -/
  apart : ∀ u ∈ ids, ∀ v ∈ ids, ∀ c s, v = u ++ c :: s → c < 128

theorem Written.denied {file : List UInt8} {bans : Ledger} (h : Written file bans) :
    denied file = bans := by
  obtain ⟨xs, rfl, rfl⟩ := h
  exact denied_fileText xs

theorem Written.seekInFile {file : List UInt8} {bans : Ledger} (h : Written file bans)
    (u : List UInt8) : seekInFile file u = named u bans := by
  obtain ⟨xs, rfl, rfl⟩ := h
  rw [seekInFile_fileText, named, List.any_map]
  rfl

theorem Written.fileHasWord {file : List UInt8} {bans : Ledger} (h : Written file bans)
    (u : List UInt8) : fileHasWord file u = named u bans := by
  obtain ⟨xs, rfl, rfl⟩ := h
  rw [fileHasWord_fileText, named, List.any_map]
  rfl

theorem Written.addtofile {file : List UInt8} {bans : Ledger} (h : Written file bans) (b : Ban) :
    Written (addtofile file b.text) (bans ++ [b.entry]) := by
  obtain ⟨xs, rfl, rfl⟩ := h
  refine ⟨xs ++ [some b], ?_, ?_⟩
  · rw [Deny.addtofile, fileText_append, fileText_cons, List.append_assoc]
    rfl
  · rw [List.reduceOption_append, List.map_append]
    rfl

theorem reduceOption_filter (q : Ban → Bool) (xs : List (Option Ban)) :
    (xs.filter fun x => x.all q).reduceOption = xs.reduceOption.filter q := by
  induction xs with
  | nil => rfl
  | cons x xs ih =>
      cases x with
      | none =>
          rw [List.filter_cons_of_pos rfl, List.reduceOption_cons_of_none,
            List.reduceOption_cons_of_none, ih]
      | some b =>
          rw [List.filter_cons, List.reduceOption_cons_of_some, List.filter_cons, Option.all_some]
          split
          · rw [List.reduceOption_cons_of_some, ih]
          · exact ih

/-- `del_from_file` finds the user's line by its beginning. -/
theorem Accounts.startsWith_line (A : Accounts) {u v : List UInt8} (hu : u ∈ A.ids) (hv : v ∈ A.ids)
    (r : List UInt8) : startsWith u (v ++ 32 :: r) = strcasecmp v u := by
  by_cases huv : v = u
  · subst huv
    have hprefix : v.isPrefixOf (v ++ 32 :: r) = true := by
      rw [List.isPrefixOf_iff_prefix]
      exact List.prefix_append _ _
    rw [startsWith, hprefix, List.drop_left, strcasecmp_iff.mpr rfl]
    rfl
  · have hne : strcasecmp v u = false := by
      rw [← Bool.not_eq_true]
      exact fun h => huv (A.distinct v hv u hu h)
    rw [hne, startsWith, Bool.and_eq_false_iff]
    by_contra hboth
    simp only [not_or, Bool.not_eq_false] at hboth
    obtain ⟨t, ht⟩ := List.isPrefixOf_iff_prefix.mp hboth.1
    rcases List.append_eq_append_iff.mp ht with ⟨s, hs, hr⟩ | ⟨s, hs, hr⟩
    · -- the name on the line goes on behind `u`
      cases s with
      | nil => exact huv (by rw [hs, List.append_nil])
      | cons c s =>
          have hc := (A.goodId v hv).byte (by rw [hs]; simp : c ∈ v)
          have hlow := A.apart u hu v hv c s hs
          have hend := hboth.2
          rw [hs, List.append_assoc, List.drop_left, List.cons_append, List.head?_cons,
            Option.all_some] at hend
          grind
    · -- the name on the line ends within `u`
      cases s with
      | nil => exact huv (by rw [hs, List.append_nil])
      | cons c s =>
          have hc := (A.goodId u hu).byte (by rw [hs]; simp : c ∈ u)
          rw [List.cons_append] at hr
          rw [← (List.cons.inj hr).1] at hc
          exact absurd hc.1 (by decide)

theorem startsWith_newline {u : List UInt8} (hu : GoodId u) : startsWith u [10] = false := by
  obtain ⟨c, s, rfl⟩ := List.exists_cons_of_ne_nil hu.1
  have hc := (hu.byte List.mem_cons_self).1
  rw [startsWith, List.isPrefixOf_cons_cons]
  have hne : (c == 10) = false := by
    rw [beq_eq_false_iff_ne]
    grind
  rw [hne, Bool.false_and, Bool.false_and]

theorem Written.delFromFile {A : Accounts} {file : List UInt8} {bans : Ledger}
    (h : Written file bans) (hids : ∀ e ∈ bans, e.1 ∈ A.ids) {u : List UInt8} (hu : u ∈ A.ids) :
    Written (delFromFile file u) (without u bans) := by
  obtain ⟨xs, rfl, rfl⟩ := h
  refine ⟨xs.filter fun x => x.all fun b => !strcasecmp b.id u, ?_, ?_⟩
  · rw [Deny.delFromFile, fgets_fileText (by decide), List.filter_map, fileText, List.flatMap_map,
      List.flatMap_def]
    congr 2
    refine List.filter_congr fun x hx => ?_
    cases x with
    | none => exact congrArg not (startsWith_newline (A.goodId u hu))
    | some b =>
        have hb : b ∈ xs.reduceOption := List.reduceOption_mem_iff.mpr hx
        have hid : b.id ∈ A.ids := hids b.entry (List.mem_map_of_mem hb)
        rw [Function.comp_apply, lineText, Ban.text_eq, List.append_assoc, List.cons_append,
          A.startsWith_line hu hid, Option.all_some]
  · rw [reduceOption_filter, without, List.filter_map]
    rfl

/-- What the loop of `autoundeny` has kept: there is no newline behind it yet. -/
def Kept (kept : List UInt8) (bs : List Ban) : Prop :=
  if kept = [] then bs = [] else ∃ ys, kept ++ [10] = fileText ys ∧ ys.reduceOption = bs

theorem Kept.line {kept : List UInt8} {bs : List Ban} (h : Kept kept bs) (x : Option Ban) :
    Kept ((if kept ≠ [] then kept ++ [10] else kept) ++ lineText x) (bs ++ x.toList) := by
  unfold Kept at h
  split at h
  · next hkept =>
    rw [h, hkept, if_neg (not_not.mpr rfl), List.nil_append, List.nil_append, Kept]
    cases x with
    | none => rfl
    | some b =>
        have hne : b.text ≠ [] := by
          rw [b.text_eq]
          simp
        rw [lineText, if_neg hne]
        exact ⟨[some b], (fileText_cons (some b) []).symm, rfl⟩
  · next hkept =>
    obtain ⟨ys, hys, hbs⟩ := h
    rw [if_pos hkept, Kept, if_neg (by simp)]
    refine ⟨ys ++ [x], ?_, ?_⟩
    · rw [fileText_append, ← hys, fileText_cons, List.append_assoc]
      rfl
    · rw [List.reduceOption_append, hbs]
      cases x <;> rfl

theorem canundeny_lineText (x : Option Ban) (nowtime : Nat) : canundeny (lineText x) nowtime =
    x.any fun b => b.expiry.any (· < nowtime) := by
  cases x with
  | none => rfl
  | some b => exact b.canundeny_text nowtime

theorem undenyLoop_fileText (nowtime : Nat) (xs : List (Option Ban)) {fuel : Nat}
    (hfuel : (fileText xs).length ≤ fuel) {kept : List UInt8} {bs : List Ban} (h : Kept kept bs) :
    Kept (undenyLoop nowtime fuel (fileText xs) kept)
      (bs ++ xs.reduceOption.filter fun b => !b.expiry.any (· < nowtime)) := by
  induction xs generalizing fuel kept bs with
  | nil =>
      have hdone : undenyLoop nowtime fuel (fileText []) kept = kept := by cases fuel <;> rfl
      rw [hdone, List.reduceOption_nil, List.filter_nil, List.append_nil]
      exact h
  | cons x xs ih =>
      rw [fileText_cons] at hfuel ⊢
      have hshort : (lineText x).length < 255 := by
        have := length_lineText x
        omega
      have hline := sgetline_line (lineText_no_break x) hshort (fileText xs)
      rw [List.length_append, List.length_cons] at hfuel
      obtain ⟨n, rfl⟩ : ∃ n, fuel = n + 1 := ⟨fuel - 1, by omega⟩
      rw [undenyLoop, if_neg (by simp)]
      simp only [hline, canundeny_lineText]
      split
      · next hlift =>
        obtain ⟨b, rfl, hpast⟩ := (Option.any_eq_true ..).mp hlift
        rw [List.reduceOption_cons_of_some, List.filter_cons_of_neg (by simp [hpast])]
        exact ih (by omega) h
      · next hstay =>
        have hrest : (fileText xs).length ≤ n := by omega
        have hnext := ih hrest (h.line x)
        cases x with
        | none =>
            rw [Option.toList_none, List.append_nil] at hnext
            exact hnext
        | some b =>
            rw [List.reduceOption_cons_of_some, List.filter_cons_of_pos (by simpa using hstay)]
            rw [Option.toList_some, List.append_assoc, List.singleton_append] at hnext
            exact hnext

/-- The bans whose time is not past. -/
def unexpired (nowtime : Nat) (bans : Ledger) : Ledger :=
  bans.filter fun e => !e.2.any (· < nowtime)

theorem Written.autoundeny {file : List UInt8} {bans : Ledger} (h : Written file bans)
    (nowtime : Nat) : Written (autoundeny file nowtime) (unexpired nowtime bans) := by
  obtain ⟨xs, rfl, rfl⟩ := h
  have hnone : Kept [] [] := by rw [Kept, if_pos rfl]
  have hkept := undenyLoop_fileText nowtime xs le_rfl hnone
  rw [List.nil_append] at hkept
  have hbans : unexpired nowtime (xs.reduceOption.map Ban.entry) =
      (xs.reduceOption.filter fun b => !b.expiry.any (· < nowtime)).map Ban.entry := by
    rw [unexpired, List.filter_map]
    rfl
  rw [hbans, Deny.autoundeny]
  split
  · next hnil =>
    cases xs with
    | nil => exact ⟨[], rfl, rfl⟩
    | cons x xs => simp [fileText_cons] at hnil
  · unfold Kept at hkept
    split at hkept
    · next hempty =>
      rw [hkept, hempty]
      exact ⟨[none], rfl, rfl⟩
    · obtain ⟨ys, hys, hbs⟩ := hkept
      exact ⟨ys, hys, congrArg _ hbs⟩

/-! ## The web writes the file -/

def DenyUser.entry (d : DenyUser) : List UInt8 × Option Nat := (d.id, some d.freeTime.toNat)

/-- A ban that the web can write. -/
structure DenyUser.Ok (d : DenyUser) : Prop where
  goodId : GoodId d.id
  short : d.exp.length ≤ 40
  plain : ∀ c ∈ d.exp, c ≠ 0 ∧ c ≠ 91
  int : 0 ≤ d.freeTime ∧ d.freeTime < 2 ^ 31

theorem plain_dots {exp : List UInt8} (h : ∀ c ∈ exp, c ≠ 0 ∧ c ≠ 91) : Plain (dots exp) := by
  intro c hc
  obtain ⟨c', hc', rfl⟩ := List.mem_map.mp hc
  have hne := h c' hc'
  split
  · decide
  · simp only [List.mem_cons, List.not_mem_nil, or_false]
    grind

theorem DenyUser.Ok.exists_line {d : DenyUser} (h : d.Ok) :
    ∃ b : Ban, b.text = releaseLine d.id (dots d.exp) (wrap 4 d.freeTime) ∧ b.entry = d.entry := by
  obtain ⟨hlo, hhi⟩ := h.int
  have hwrap : wrap 4 d.freeTime = d.freeTime.toNat := by
    have hmod : d.freeTime < (256 ^ 4 : Nat) := by omega
    rw [wrap, Int.emod_eq_of_lt hlo hmod]
  rw [hwrap]
  refine exists_release h.goodId ?_ (plain_dots h.plain) (by omega)
  rw [dots, List.length_map]
  exact h.short

theorem written_savedenyuser {denyuser : List DenyUser} (h : ∀ d ∈ denyuser, d.Ok) :
    Written (savedenyuser denyuser) (denyuser.map DenyUser.entry) := by
  induction denyuser with
  | nil => exact ⟨[], rfl, rfl⟩
  | cons d denyuser ih =>
      obtain ⟨hd, hrest⟩ := List.forall_mem_cons.mp h
      obtain ⟨b, htext, hentry⟩ := hd.exists_line
      obtain ⟨xs, hxs, hbans⟩ := ih hrest
      refine ⟨some b :: xs, ?_, ?_⟩
      · rw [fileText_cons, ← hxs, savedenyuser, List.filter_cons_of_pos (by simp [hd.goodId.1]),
          List.flatMap_cons, ← htext, List.append_assoc]
        rfl
      · rw [List.reduceOption_cons_of_some, List.map_cons, List.map_cons, hentry, hbans]

/-- What the web reads: the bans that have a time. -/
theorem Written.loaddenyuser {file : List UInt8} {bans : Ledger} (h : Written file bans)
    (hfew : bans.length ≤ 40) : (∀ d ∈ loaddenyuser file, d.Ok) ∧
      (loaddenyuser file).map DenyUser.entry = bans.filter (·.2.isSome) := by
  obtain ⟨xs, rfl, rfl⟩ := h
  rw [List.length_map] at hfew
  rw [loaddenyuser_fileText (by omega)]
  constructor
  · intro d hd
    obtain ⟨b, -, hb⟩ := List.mem_filterMap.mp hd
    obtain ⟨t, ht, rfl⟩ := Option.map_eq_some_iff.mp hb
    have hint := b.int t ht
    refine ⟨b.goodId, b.length_exp, ?_, ?_⟩
    · intro c hc
      have := Ban.mem_exp hc
      simp only [List.mem_cons, not_or] at this
      exact ⟨this.1, this.2.2.2.2.1⟩
    · dsimp only
      omega
  · rw [List.map_filterMap, List.filter_map, ← List.filterMap_eq_map, ← List.filterMap_eq_filter,
      List.filterMap_filterMap]
    refine List.filterMap_congr fun b _ => ?_
    cases ht : b.expiry with
    | none => simp [Option.guard, Ban.entry, ht]
    | some t => simp [Option.guard, Ban.entry, DenyUser.entry, ht]

theorem filter_clearFirst {u : List UInt8} {denyuser : List DenyUser}
    (hne : ∀ d ∈ denyuser, d.id ≠ [])
    (hone : denyuser.Pairwise fun d d' => strcasecmp d.id u = true → strcasecmp d'.id u = false) :
    (clearFirst u denyuser).filter (·.id ≠ []) =
      denyuser.filter fun d => !strcasecmp d.id u := by
  induction denyuser with
  | nil => rfl
  | cons d denyuser ih =>
      obtain ⟨hd, hrest⟩ := List.forall_mem_cons.mp hne
      obtain ⟨hfirst, hpair⟩ := List.pairwise_cons.mp hone
      rw [clearFirst]
      split
      · next hu =>
        rw [List.filter_cons_of_neg (by simp), List.filter_cons_of_neg (by simp [hu]),
          List.filter_eq_self.mpr fun d' hd' => decide_eq_true (hrest d' hd'),
          List.filter_eq_self.mpr fun d' hd' => by rw [hfirst d' hd' hu, Bool.not_false]]
      · next hu =>
        rw [List.filter_cons_of_pos (by simpa using hd), List.filter_cons_of_pos (by simp [hu]),
          ih hrest hpair]

theorem savedenyuser_filter (denyuser : List DenyUser) :
    savedenyuser (denyuser.filter (·.id ≠ [])) = savedenyuser denyuser := by
  rw [savedenyuser, savedenyuser, List.filter_filter]
  simp only [Bool.and_self]

/-! ## Runs -/

/-- What the managers and the program do, with the clock they read. -/
inductive Event
  | ban (uident reason : List UInt8) (day nowtime : Nat)
  | change (uident reason : List UInt8) (day nowtime : Nat)
  | unban (uident : List UInt8)
  | webBan (userid exp : List UInt8) (dt : Int) (nowT : Nat)
  | webUnban (userid : List UInt8)
  | undeny (nowtime : Nat)

structure State where
  /-- `deny_users` -/
  file : List UInt8
  bans : Ledger

def start : State := ⟨[], []⟩

def fileStep (file : List UInt8) : Event → List UInt8
  | .ban u reason day nowtime => addtodeny file u reason day nowtime false
  | .change u reason day nowtime => addtodeny file u reason day nowtime true
  | .unban u => deldeny file u
  | .webBan u exp dt nowT => bbsdenyadd file u exp dt nowT
  | .webUnban u => bbsdenydel file u
  | .undeny nowtime => autoundeny file nowtime

/-- The web takes the request. -/
def accepted (bans : Ledger) (u exp : List UInt8) (dt : Int) : Bool :=
  !named u bans && 1 ≤ dt && dt ≤ 99 && strsncpy exp 30 ≠ []

/-- Who is banned then, and until when. -/
def ledgerStep (bans : Ledger) : Event → Ledger
  | .ban u _ day nowtime => if named u bans then bans else bans ++ [(u, banExpiry day nowtime)]
  | .change u _ day nowtime =>
      if named u bans then without u bans ++ [(u, banExpiry day nowtime)] else bans
  | .unban u => without u bans
  | .webBan u exp dt nowT =>
      if accepted bans u exp dt then bans ++ [(u, some (nowT + dt.toNat * 86400))] else bans
  | .webUnban u => without u bans
  | .undeny nowtime => unexpired nowtime bans

/-- What can be typed: registered names, and reasons without ESC and `[`; `getdata` takes 39
bytes that can be shown. -/
def Event.Valid (A : Accounts) : Event → Prop
  | .ban u reason _ _ | .change u reason _ _ =>
      u ∈ A.ids ∧ reason.length ≤ 39 ∧ ∀ c ∈ reason, 32 ≤ c ∧ c ≠ 91
  | .unban u => u ∈ A.ids
  | .webBan u exp _ _ => u ∈ A.ids ∧ 27 ∉ exp ∧ 91 ∉ exp
  | .webUnban _ | .undeny _ => True

instance (A : Accounts) (e : Event) : Decidable (e.Valid A) :=
  haveI (reason : List UInt8) : Decidable (∀ c ∈ reason, 32 ≤ c ∧ c ≠ 91) :=
    List.decidableBAll _ reason
  by cases e <;> unfold Event.Valid <;> infer_instance

/-- At most 40 users are banned at a time. -/
def step (A : Accounts) (s : State) (e : Event) : Option State :=
  let s' : State := ⟨fileStep s.file e, ledgerStep s.bans e⟩
  if e.Valid A ∧ s'.bans.length ≤ 40 then some s' else none

/-- No ban is lifted by hand only. -/
def AllTimed (bans : Ledger) : Prop := ∀ e ∈ bans, e.2.isSome = true

instance (bans : Ledger) : Decidable (AllTimed bans) := by unfold AllTimed; infer_instance

/-- The web writes the file only when all bans have a time, and the times fit in an `int`. -/
def StepOk (s : State) : Event → Prop
  | .ban _ _ day nowtime | .change _ _ day nowtime => day ≠ 0 → nowtime + day * 86400 < 2 ^ 31
  | .webBan u exp dt nowT =>
      accepted s.bans u exp dt = true → AllTimed s.bans ∧ nowT + dt.toNat * 86400 < 2 ^ 31
  | .webUnban u => named u s.bans = true → AllTimed s.bans
  | .unban _ | .undeny _ => True

instance (s : State) (e : Event) : Decidable (StepOk s e) := by
  cases e <;> unfold StepOk <;> infer_instance

/-- The file holds the ledger, which names registered users, each once. -/
structure Inv (A : Accounts) (s : State) : Prop where
  written : Written s.file s.bans
  ids : ∀ e ∈ s.bans, e.1 ∈ A.ids
  nodup : (s.bans.map Prod.fst).Nodup
  few : s.bans.length ≤ 40

theorem named_eq_false {u : List UInt8} {bans : Ledger} (h : named u bans = false) :
    u ∉ bans.map Prod.fst := by
  intro hmem
  obtain ⟨e, he, rfl⟩ := List.mem_map.mp hmem
  exact Bool.eq_false_iff.mp h (List.any_eq_true.mpr ⟨e, he, strcasecmp_iff.mpr rfl⟩)

theorem named_without (u : List UInt8) (bans : Ledger) : named u (without u bans) = false := by
  simp [named, without]

theorem without_eq_self {u : List UInt8} {bans : Ledger} (h : named u bans = false) :
    without u bans = bans := by
  refine List.filter_eq_self.mpr fun e he => ?_
  rw [Bool.eq_false_iff.mpr fun heq => Bool.eq_false_iff.mp h (List.any_eq_true.mpr ⟨e, he, heq⟩)]
  rfl

/-- Registered users, each once. -/
def Known (A : Accounts) (bans : Ledger) : Prop :=
  (∀ e ∈ bans, e.1 ∈ A.ids) ∧ (bans.map Prod.fst).Nodup

theorem Known.filter {A : Accounts} {bans : Ledger} (h : Known A bans)
    (p : List UInt8 × Option Nat → Bool) : Known A (bans.filter p) :=
  ⟨fun e he => h.1 e (List.mem_of_mem_filter he), h.2.sublist (List.filter_sublist.map _)⟩

theorem Known.append {A : Accounts} {bans : Ledger} (h : Known A bans) {u : List UInt8}
    (hu : u ∈ A.ids) (hnew : named u bans = false) (expiry : Option Nat) :
    Known A (bans ++ [(u, expiry)]) := by
  constructor
  · intro e he
    rcases List.mem_append.mp he with he | he
    · exact h.1 e he
    · rw [List.mem_singleton.mp he]
      exact hu
  · rw [List.map_append, List.nodup_append]
    refine ⟨h.2, List.pairwise_singleton _ _, ?_⟩
    rintro _ hmem _ hlast rfl
    rw [List.mem_singleton.mp hlast] at hmem
    exact named_eq_false hnew hmem

theorem Known.ledgerStep {A : Accounts} {bans : Ledger} (h : Known A bans) {e : Event}
    (hvalid : e.Valid A) : Known A (ledgerStep bans e) := by
  cases e with
  | ban u reason day nowtime =>
      rw [Deny.ledgerStep]
      split
      · exact h
      · next hnew => exact h.append hvalid.1 (Bool.eq_false_iff.mpr hnew) _
  | change u reason day nowtime =>
      rw [Deny.ledgerStep]
      split
      · exact Known.append (h.filter _) hvalid.1 (named_without u bans) _
      · exact h
  | unban u => exact h.filter _
  | webBan u exp dt nowT =>
      rw [Deny.ledgerStep]
      split
      · next hacc =>
        simp only [accepted, Bool.and_eq_true, Bool.not_eq_true'] at hacc
        exact h.append hvalid.1 hacc.1.1.1 _
      · exact h
  | webUnban u => exact h.filter _
  | undeny nowtime => exact h.filter _

/-- A ban on the terminal. -/
theorem Written.addtodeny {A : Accounts} {file : List UInt8} {bans : Ledger}
    (h : Written file bans) (hids : ∀ e ∈ bans, e.1 ∈ A.ids) {u reason : List UInt8}
    (hu : u ∈ A.ids) (hlen : reason.length ≤ 39) (hreason : ∀ c ∈ reason, 32 ≤ c ∧ c ≠ 91)
    {day nowtime : Nat} (hint : day ≠ 0 → nowtime + day * 86400 < 2 ^ 31) (ischange : Bool) :
    Written (addtodeny file u reason day nowtime ischange)
      (if named u bans = ischange then
        (if ischange then without u bans else bans) ++ [(u, banExpiry day nowtime)]
      else bans) := by
  have hplain : Plain reason := by
    intro c hc
    have := hreason c hc
    simp only [List.mem_cons, List.not_mem_nil, or_false]
    grind
  have hexpiry : ∀ t ∈ banExpiry day nowtime, t < 2 ^ 31 := by
    intro t ht
    unfold banExpiry at ht
    split at ht
    · contradiction
    · next hday =>
      rw [← Option.some.inj ht]
      exact hint hday
  obtain ⟨b, htext, hentry⟩ := exists_strtosave (A.goodId u hu) (by omega) hplain hexpiry
  rw [Deny.addtodeny, h.seekInFile, ← htext, ← hentry]
  by_cases hnamed : named u bans = ischange
  · rw [if_neg (not_not.mpr hnamed), if_pos hnamed]
    cases ischange with
    | false => exact h.addtofile b
    | true => exact (h.delFromFile hids hu).addtofile b
  · rw [if_pos hnamed, if_neg hnamed]
    exact h

/-- What the web reads when no ban is lifted by hand only. -/
theorem Written.loaddenyuser_allTimed {file : List UInt8} {bans : Ledger} (h : Written file bans)
    (hfew : bans.length ≤ 40) (htimed : AllTimed bans) :
    (∀ d ∈ Deny.loaddenyuser file, d.Ok) ∧ (Deny.loaddenyuser file).map DenyUser.entry = bans := by
  obtain ⟨hok, hentry⟩ := h.loaddenyuser hfew
  rw [List.filter_eq_self.mpr htimed] at hentry
  exact ⟨hok, hentry⟩

theorem any_entry (u : List UInt8) (denyuser : List DenyUser) :
    (denyuser.any fun d => strcasecmp d.id u) = named u (denyuser.map DenyUser.entry) := by
  rw [named, List.any_map]
  rfl

/-- A ban on the web. -/
theorem Written.bbsdenyadd {A : Accounts} {file : List UInt8} {bans : Ledger}
    (h : Written file bans) {u exp : List UInt8} (hu : u ∈ A.ids) (hexp : 91 ∉ exp) {dt : Int}
    {nowT : Nat} (hok : accepted bans u exp dt = true →
      bans.length < 40 ∧ AllTimed bans ∧ nowT + dt.toNat * 86400 < 2 ^ 31) :
    Written (bbsdenyadd file u exp dt nowT)
      (if accepted bans u exp dt then bans ++ [(u, some (nowT + dt.toNat * 86400))] else bans) := by
  rw [Deny.bbsdenyadd, h.fileHasWord]
  cases hacc : accepted bans u exp dt with
  | false =>
      simp only [accepted, Bool.and_eq_false_iff, Bool.not_eq_false', decide_eq_false_iff_not,
        ne_eq, not_not] at hacc
      rw [if_neg Bool.false_ne_true]
      rcases hacc with ((hnamed | hdt) | hdt) | hnil
      · rw [if_pos hnamed]
        exact h
      · split
        · exact h
        · rw [if_pos (Or.inl (by omega))]
          exact h
      · split
        · exact h
        · rw [if_pos (Or.inr (by omega))]
          exact h
      · rw [if_pos hnil, ite_self, ite_self]
        exact h
  | true =>
      obtain ⟨hfew, htimed, hint⟩ := hok hacc
      obtain ⟨hgood, hentry⟩ := h.loaddenyuser_allTimed (by omega) htimed
      simp only [accepted, Bool.and_eq_true, Bool.not_eq_true', decide_eq_true_eq] at hacc
      obtain ⟨⟨⟨hnew, hlo⟩, hhi⟩, hne⟩ := hacc
      have hlen : (Deny.loaddenyuser file).length = bans.length := by
        rw [← hentry, List.length_map]
      rw [if_neg (Bool.not_eq_true _ ▸ hnew), if_neg (by omega), if_neg hne, any_entry, hentry,
        if_neg (Bool.not_eq_true _ ▸ hnew), if_neg (by omega), if_pos rfl,
        strsncpy_eq_self (A.goodId u hu).zero_notMem (A.goodId u hu).2.1]
      obtain ⟨freeTime, htime⟩ : ∃ freeTime, toInt ((nowT : Int) + dt * 86400) = freeTime := ⟨_, rfl⟩
      have hfree : freeTime = (nowT + dt.toNat * 86400 : Nat) := by
        rw [← htime, toInt_of_range (by omega) (by omega)]
        omega
      have hnewUser : DenyUser.Ok ⟨u, strsncpy (strsncpy exp 30) 30, freeTime⟩ := by
        refine ⟨A.goodId u hu, (length_strsncpy_le _ _).trans (by decide), ?_, ?_⟩
        · intro c hc
          obtain ⟨hmem, hzero⟩ := mem_strsncpy hc
          refine ⟨hzero, ?_⟩
          rintro rfl
          exact hexp (mem_strsncpy hmem).1
        · dsimp only
          omega
      have hwritten := written_savedenyuser
        (List.forall_mem_append.mpr ⟨hgood, List.forall_mem_singleton.mpr hnewUser⟩)
      rw [List.map_append, hentry, List.map_singleton, DenyUser.entry] at hwritten
      rw [htime]
      rwa [hfree, Int.toNat_natCast, ← hfree] at hwritten

theorem named_timed {u : List UInt8} {bans : Ledger}
    (h : named u (bans.filter (·.2.isSome)) = true) : named u bans = true := by
  obtain ⟨e, he, hu⟩ := List.any_eq_true.mp h
  exact List.any_eq_true.mpr ⟨e, List.mem_of_mem_filter he, hu⟩

/-- No two bans have names that are both the one asked for. -/
theorem pairwise_strcasecmp {A : Accounts} {denyuser : List DenyUser}
    (h : Known A (denyuser.map DenyUser.entry)) (u : List UInt8) : denyuser.Pairwise fun d d' =>
      strcasecmp d.id u = true → strcasecmp d'.id u = false := by
  obtain ⟨hids, hnodup⟩ := h
  rw [List.map_map] at hnodup
  refine (List.pairwise_map.mp hnodup).imp_of_mem ?_
  intro d d' hd hd' hne hu
  rw [← Bool.not_eq_true]
  intro hu'
  refine hne (A.distinct _ (hids _ (List.mem_map_of_mem hd)) _ (hids _ (List.mem_map_of_mem hd')) ?_)
  exact strcasecmp_iff.mpr ((strcasecmp_iff.mp hu).trans (strcasecmp_iff.mp hu').symm)

/-- An unban on the web. -/
theorem Written.bbsdenydel {A : Accounts} {file : List UInt8} {bans : Ledger}
    (h : Written file bans) (hknown : Known A bans) (hfew : bans.length ≤ 40) {u : List UInt8}
    (htimed : named u bans = true → AllTimed bans) :
    Written (bbsdenydel file u) (without u bans) := by
  rw [Deny.bbsdenydel, any_entry]
  cases hnamed : named u bans with
  | false =>
      rw [(h.loaddenyuser hfew).2, without_eq_self hnamed, if_neg]
      · exact h
      · exact fun hu => Bool.eq_false_iff.mp hnamed (named_timed hu)
  | true =>
      obtain ⟨hok, hentry⟩ := h.loaddenyuser_allTimed hfew (htimed hnamed)
      rw [hentry, if_pos hnamed, ← savedenyuser_filter,
        filter_clearFirst (fun d hd => (hok d hd).goodId.1)
          (pairwise_strcasecmp (hentry.symm ▸ hknown) u)]
      have hwritten := written_savedenyuser fun d hd =>
        hok d (List.mem_of_mem_filter (p := fun d => !strcasecmp d.id u) hd)
      rw [← hentry, without, List.filter_map]
      exact hwritten

/-- **The step**: the file follows the ledger. -/
theorem Inv.step {A : Accounts} {s s' : State} {e : Event} (h : Inv A s) (hok : StepOk s e)
    (hstep : step A s e = some s') : Inv A s' := by
  obtain ⟨⟨hvalid, hfew⟩, hs'⟩ := Option.ite_none_right_eq_some.mp hstep
  cases hs'
  have hknown : Known A s.bans := ⟨h.ids, h.nodup⟩
  obtain ⟨hids, hnodup⟩ := hknown.ledgerStep hvalid
  refine ⟨?_, hids, hnodup, hfew⟩
  cases e with
  | ban u reason day nowtime =>
      obtain ⟨hu, hlen, hreason⟩ := hvalid
      have hwritten := h.written.addtodeny h.ids hu hlen hreason hok false
      rw [fileStep, ledgerStep]
      cases hnamed : named u s.bans <;> simpa [hnamed] using hwritten
  | change u reason day nowtime =>
      obtain ⟨hu, hlen, hreason⟩ := hvalid
      have hwritten := h.written.addtodeny h.ids hu hlen hreason hok true
      rw [fileStep, ledgerStep]
      cases hnamed : named u s.bans <;> simpa [hnamed] using hwritten
  | unban u => exact h.written.delFromFile h.ids hvalid
  | webBan u exp dt nowT =>
      refine h.written.bbsdenyadd hvalid.1 hvalid.2.2 fun hacc => ⟨?_, hok hacc⟩
      rw [ledgerStep, if_pos hacc, List.length_append, List.length_singleton] at hfew
      exact hfew
  | webUnban u => exact h.written.bbsdenydel hknown h.few hok
  | undeny nowtime => exact h.written.autoundeny nowtime

/-- **The ledger of the bans**: when the web never writes the file while a ban is lifted by hand
only, the file names at every moment the users that are banned, with the times given. -/
theorem deny_run (A : Accounts) {s : State} {es : List Event}
    (h : Run (when StepOk (step A)) start es s) : denied s.file = s.bans := by
  refine (h.invariant_when (Inv A) ?_ fun _ _ _ hinv hok hstep => hinv.step hok hstep).written.denied
  exact ⟨⟨[], rfl, rfl⟩, fun _ he => absurd he List.not_mem_nil, List.nodup_nil, Nat.zero_le _⟩

/-- Two accounts, `ab` and `cd`. -/
def twoAccounts : Accounts where
  ids := [[97, 98], [99, 100]]
  goodId := by
    rw [List.forall_mem_cons, List.forall_mem_singleton]
    exact ⟨⟨by decide, by decide, List.all_iff_forall_prop.mp (by decide)⟩,
      by decide, by decide, List.all_iff_forall_prop.mp (by decide)⟩
  distinct := by decide
  apart := by
    intro u hu v hv c s hs
    have hc : c ∈ v := by
      rw [hs]
      exact List.mem_append_right _ List.mem_cons_self
    have hlow : ∀ v ∈ [[97, 98], [99, 100]], ∀ c ∈ v, c < (128 : UInt8) := by simp
    exact hlow v hv c hc

/-- A ban of a day, and one that is lifted by hand and then given a time; the web lifts the
first. -/
def fourSteps : List Event :=
  [.webBan [97, 98] [120] 1 0, .ban [99, 100] [121, 121, 121, 121] 0 5,
    .change [99, 100] [122, 122, 122, 122] 2 7, .webUnban [65, 66]]

theorem deny_run_fourSteps :
    denied (bbsdenydel (addtodeny (addtodeny (bbsdenyadd [] [97, 98] [120] 1 0) [99, 100]
      [121, 121, 121, 121] 0 5 false) [99, 100] [122, 122, 122, 122] 2 7 true) [65, 66]) =
      [([99, 100], some 172807)] :=
  deny_run twoAccounts (s := ⟨_, _⟩)
    (Run.of_exec (rfl : exec (when StepOk (step twoAccounts)) start fourSteps = some ⟨_, _⟩))

/-- The terminal bans `ab` until the ban is lifted by hand; when the web bans `cd`, `ab` may post
again. -/
theorem webBan_losesHand : ∃ s, Run (step twoAccounts) start
    [.ban [97, 98] [121, 121, 121, 121] 0 0, .webBan [99, 100] [120] 1 0] s ∧
      s.bans = [([97, 98], none), ([99, 100], some 86400)] ∧
      denied s.file = [([99, 100], some 86400)] := by
  refine ⟨⟨bbsdenyadd (addtodeny [] [97, 98] [121, 121, 121, 121] 0 0 false) [99, 100] [120] 1 0, _⟩,
    Run.of_exec rfl, rfl, ?_⟩
  have hadd : addtodeny [] [97, 98] [121, 121, 121, 121] 0 0 false =
      handLine [97, 98] [121, 121, 121, 121] ++ [10] := rfl
  have hfile : bbsdenyadd (handLine [97, 98] [121, 121, 121, 121] ++ [10]) [99, 100] [120] 1 0 =
      savedenyuser [⟨[99, 100], [120], 86400⟩] := by
    have hload : loaddenyuser (handLine [97, 98] [121, 121, 121, 121] ++ [10]) = [] := by decide
    have hword : fileHasWord (handLine [97, 98] [121, 121, 121, 121] ++ [10]) [99, 100] = false := by
      decide
    rw [bbsdenyadd, hload, hword]
    rfl
  have hok : DenyUser.Ok ⟨[99, 100], [120], 86400⟩ :=
    ⟨twoAccounts.goodId _ (by decide), by decide, List.all_iff_forall_prop.mp (by decide), by decide⟩
  rw [hadd, hfile]
  exact (written_savedenyuser (List.forall_mem_singleton.mpr hok)).denied

end Deny

end Ytht
