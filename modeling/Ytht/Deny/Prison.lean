import Ytht.Deny.Users

/-!
# Deny.Prison

The list of the users in prison.  `setinprison` writes a line for each with the time of the
release at its end, and `autounprison` reads the list again, keeps in place what is to stay and
announces the releases.

A user who is to be released by hand is written with the time 0, which is past, so the next run
releases that user too.  Whoever has a term serves it to its end, and `unprison_keeps_iff` says
that a run does its work exactly when nobody in the list is to be released by hand.
-/

namespace Ytht

open Bytes

namespace Deny

/-! ## Lines that end with a time -/

/-- Nothing that ends a line or begins a time. -/
def Clear (s : List UInt8) : Prop := ∀ c ∈ s, c ∉ [0, 10, 13, 27]

/-- A user, a text that fills its field and a time -/
structure Term where
  uident : List UInt8
  width : Nat
  text : List UInt8
  time : Nat
  goodId : GoodId uident
  fits : text.length ≤ width ∧ width ≤ 42
  clear : Clear text
  inTime : time < 2 ^ 63

/-- `%-12s %-40s \033[%ldm`, with the width of the text. -/
def Term.line (t : Term) : List UInt8 :=
  padRight 12 t.uident ++ [32] ++ padRight t.width t.text ++ [32, 27, 91] ++ decimal t.time ++ [109]

theorem Plain.clear {s : List UInt8} (h : Plain s) : Clear s := by
  intro c hc
  have := h c hc
  simp only [List.mem_cons, List.not_mem_nil, or_false, not_or] at this ⊢
  exact ⟨this.1, this.2.1, this.2.2.1, this.2.2.2.1⟩

theorem clear_append {s t : List UInt8} : Clear (s ++ t) ↔ Clear s ∧ Clear t := by
  simp only [Clear, List.mem_append, or_imp, forall_and]

theorem clear_padRight {n : Nat} {s : List UInt8} : Clear (padRight n s) ↔ Clear s := by
  rw [padRight, clear_append, and_iff_left (plain_blanks _).clear]

/-- What stands before the time. -/
def Term.head (t : Term) : List UInt8 :=
  padRight 12 t.uident ++ 32 :: (padRight t.width t.text ++ [32])

theorem Term.line_eq (t : Term) : t.line = t.head ++ 27 :: 91 :: (decimal t.time ++ [109]) := by
  simp only [line, head, List.append_assoc, List.cons_append, List.nil_append]

theorem Term.line_eq_id (t : Term) : t.line = t.uident ++ 32 ::
    (List.replicate (12 - t.uident.length) 32 ++
      (padRight t.width t.text ++ 32 :: 27 :: 91 :: (decimal t.time ++ [109]))) := by
  rw [line_eq, head, List.append_assoc, List.cons_append, padRight_space]
  simp only [List.append_assoc, List.cons_append, List.nil_append]

theorem Term.clear_head (t : Term) : Clear t.head := by
  have hblank : Clear [32] := (plain_blanks 1).clear
  rw [head, clear_append, clear_padRight, ← List.singleton_append, clear_append, clear_append,
    clear_padRight]
  exact ⟨t.goodId.plain.clear, hblank, t.clear, hblank⟩

/-- Nothing in the line ends it. -/
theorem Term.no_break (t : Term) : ∀ c ∈ t.line, c ≠ 0 ∧ c ≠ 10 ∧ c ≠ 13 := by
  intro c hc
  rw [line_eq, List.mem_append] at hc
  rcases hc with hc | hc
  · have := t.clear_head c hc
    simp only [List.mem_cons, not_or] at this
    exact ⟨this.1, this.2.1, this.2.2.1⟩
  · have hdec := plain_decimal t.time c
    simp only [List.mem_cons, List.mem_append, List.not_mem_nil, or_false] at hc hdec
    grind

theorem Term.length_line (t : Term) : t.line.length ≤ 78 := by
  have hid := length_padRight t.goodId.2.1
  have htext := length_padRight t.fits.1
  have htime := length_decimal (k := 19) (n := t.time) (by decide) (t.inTime.trans (by decide))
  have hwidth := t.fits.2
  simp only [line, List.length_append, List.length_cons, List.length_nil]
  omega

theorem Term.line_ne_nil (t : Term) : t.line ≠ [] := by
  rw [line_eq]
  simp

/-- The line up to the time. -/
theorem Term.dropWhile_line (t : Term) {p : UInt8 → Bool} (hp : ∀ c, c ∉ [0, 10, 13, 27] → p c = true)
    (hesc : p 27 = false) : t.line.dropWhile p = 27 :: 91 :: (decimal t.time ++ [109]) := by
  rw [line_eq, List.dropWhile_append_of_pos fun c hc => hp c (t.clear_head c hc),
    List.dropWhile_cons_of_neg (by simp [hesc])]

theorem Term.canundeny_line (t : Term) (nowtime : Nat) :
    canundeny t.line nowtime = decide (t.time < nowtime) := by
  have hval : digitsValue (decimal t.time ++ [109]) = t.time := digitsValue_append rfl t.time []
  obtain ⟨d, ds, hdec⟩ := List.exists_cons_of_ne_nil (decimal_ne_nil t.time)
  have hd := plain_decimal t.time d (by rw [hdec]; exact List.mem_cons_self)
  simp only [List.mem_cons, not_or] at hd
  rw [hdec, List.cons_append] at hval
  rw [canundeny, t.dropWhile_line _ rfl, hdec, List.cons_append]
  · simp [hval, hd.1]
  · intro c hc
    simp only [List.mem_cons, not_or] at hc
    simp [hc.1, hc.2.2.2.1]

theorem Term.namep_line (t : Term) (s : List UInt8) :
    (((t.line ++ s).dropWhile isDelim).takeWhile fun c => !isDelim c) = t.uident := by
  rw [line_eq_id, List.append_assoc, t.goodId.dropWhile fun _ hc => t.goodId.not_delim hc,
    List.cons_append, takeWhile_append_of_neg rfl, List.takeWhile_eq_self_iff.mpr]
  intro c hc
  rw [t.goodId.not_delim hc, Bool.not_false]

/-! ## Lists of lines -/

/-- The entries of a list: its lines. -/
def entries (file : List UInt8) : List (List UInt8) := (file.splitOn 10).filter (· ≠ [])

/-- The file that holds these lines. -/
def listing (ts : List Term) : List UInt8 := (ts.map Term.line).flatMap (· ++ [10])

theorem newline_notMem (ts : List Term) : ∀ l ∈ ts.map Term.line, 10 ∉ l := by
  intro l hl h10
  obtain ⟨t, -, rfl⟩ := List.mem_map.mp hl
  exact (t.no_break 10 h10).2.1 rfl

theorem filter_lines (ts : List Term) : (ts.map Term.line).filter (· ≠ []) = ts.map Term.line := by
  refine List.filter_eq_self.mpr fun l hl => ?_
  obtain ⟨t, -, rfl⟩ := List.mem_map.mp hl
  exact decide_eq_true t.line_ne_nil

theorem entries_listing (ts : List Term) : entries (listing ts) = ts.map Term.line := by
  rw [entries, listing, splitOn_content (newline_notMem ts), List.filter_append, filter_lines]
  exact List.append_nil _

theorem fgets_listing {size : Nat} (hsize : 79 ≤ size) (ts : List Term) :
    fgetsLines size size (listing ts) = ts.map fun t => t.line ++ [10] := by
  have hshort : ∀ l ∈ ts.map Term.line, l.length < size := by
    intro l hl
    obtain ⟨t, -, rfl⟩ := List.mem_map.mp hl
    exact (Nat.lt_succ_of_le t.length_line).trans_le hsize
  rw [listing, fgetsLines_content hshort (newline_notMem ts), List.map_map]
  rfl

theorem seekInFile_listing (ts : List Term) (u : List UInt8) :
    seekInFile (listing ts) u = ts.any fun t => strcasecmp t.uident u := by
  rw [seekInFile, fgets_listing (by decide), List.any_map]
  congr 1
  funext t
  simp only [Function.comp_apply, t.namep_line, ne_eq, t.goodId.1, not_false_eq_true, decide_true,
    Bool.true_and]

theorem listing_cons (t : Term) (ts : List Term) :
    listing (t :: ts) = t.line ++ 10 :: listing ts := by
  rw [listing, List.map_cons, List.flatMap_cons, List.append_assoc]
  rfl

theorem addtofile_listing (ts : List Term) (t : Term) :
    addtofile (listing ts) t.line = listing (ts ++ [t]) := by
  rw [addtofile, listing, listing, List.map_append, List.flatMap_append, List.append_assoc,
    List.map_singleton, List.flatMap_singleton]

/-! ## Additions -/

section Additions

variable {α : Type} (term : α → Term)

/-- Who is in a list: nobody twice, in whatever letters. -/
def enlist (xs : List α) (x : α) : List α :=
  if xs.any fun y => strcasecmp (term y).uident (term x).uident then xs else xs ++ [x]

theorem addition_listing (xs : List α) (x : α) :
    (if seekInFile (listing (xs.map term)) (term x).uident then listing (xs.map term)
      else addtofile (listing (xs.map term)) (term x).line) = listing ((enlist term xs x).map term) := by
  rw [enlist, seekInFile_listing, List.any_map]
  simp only [Function.comp_def]
  split
  · rfl
  · rw [addtofile_listing, List.map_append, List.map_singleton]

/-- **The file that additions make** holds the lines of all who were entered. -/
theorem foldl_listing {add : List UInt8 → α → List UInt8}
    (hadd : ∀ file x, add file x =
      if seekInFile file (term x).uident then file else addtofile file (term x).line)
    (orders xs : List α) :
    orders.foldl add (listing (xs.map term)) = listing ((orders.foldl (enlist term) xs).map term) := by
  induction orders generalizing xs with
  | nil => rfl
  | cons x orders ih => rw [List.foldl_cons, hadd, addition_listing, ih, List.foldl_cons]

/-- No two names are the same in other letters. -/
def NobodyTwice (xs : List α) : Prop :=
  xs.Pairwise fun x y => ¬ strcasecmp (term x).uident (term y).uident = true

theorem nobodyTwice_foldl {xs : List α} (h : NobodyTwice term xs) (orders : List α) :
    NobodyTwice term (orders.foldl (enlist term) xs) := by
  induction orders generalizing xs with
  | nil => exact h
  | cons x orders ih =>
      rw [List.foldl_cons]
      refine ih ?_
      unfold enlist
      split
      · exact h
      · next hnew =>
        refine List.pairwise_append.mpr ⟨h, List.pairwise_singleton _ _, fun y hy z hz hsame => ?_⟩
        rw [List.mem_singleton.mp hz] at hsame
        exact hnew (List.any_eq_true.mpr ⟨y, hy, hsame⟩)

end Additions

/-! ## Entering prison -/

/-- What `setinprison` is told about a user: a reason of at least two words, and for how many days,
of which three digits can be typed. -/
structure Sentence where
  uident : List UInt8
  buf : List UInt8
  day : Nat
  nowtime : Nat
  goodId : GoodId uident
  reason : 4 ≤ buf.length ∧ buf.length ≤ 27 ∧ Clear buf
  days : day < 1000
  inTime : nowtime + (day + 1) * 86400 < 2 ^ 63

/-- One day later than the release. -/
def Sentence.daytime (s : Sentence) : Nat := s.nowtime + (s.day + 1) * 86400

/-- `，手动出狱` -/
def handRelease : List UInt8 := [163, 172, 202, 214, 182, 175, 179, 246, 211, 252]

/-- `%-28s，%2d月%2d日解` or `%-28s，手动出狱` -/
def Sentence.tmpbuf (s : Sentence) : List UInt8 :=
  if 0 < s.day then padRight 28 s.buf ++ [163, 172] ++ dateText s.daytime
  else padRight 28 s.buf ++ handRelease

/-- The time that is written: 0 for a user who is to be released by hand. -/
def Sentence.time (s : Sentence) : Nat := if 0 < s.day then s.daytime - 86400 else 0

theorem Sentence.length_tmpbuf (s : Sentence) : s.tmpbuf.length ≤ 40 := by
  have hbuf := length_padRight (n := 28) (s.reason.2.1.trans (by decide))
  have hdate := length_dateText s.daytime
  have hhand : handRelease.length = 10 := rfl
  unfold tmpbuf
  split <;> simp only [List.length_append, List.length_cons, List.length_nil] <;> omega

theorem Sentence.clear_tmpbuf (s : Sentence) : Clear s.tmpbuf := by
  have hcomma : Plain [163, 172] := List.all_iff_forall_prop.mp (by decide)
  have hhand : Plain handRelease := List.all_iff_forall_prop.mp (by decide)
  unfold tmpbuf
  split
  · rw [clear_append, clear_append, clear_padRight]
    exact ⟨⟨s.reason.2.2, hcomma.clear⟩, (plain_dateText _).clear⟩
  · rw [clear_append, clear_padRight]
    exact ⟨s.reason.2.2, hhand.clear⟩

theorem Sentence.time_lt (s : Sentence) : s.time < 2 ^ 63 := by
  have := s.inTime
  unfold time daytime
  split <;> omega

/-- What is written of a sentence. -/
def Sentence.term (s : Sentence) : Term where
  uident := s.uident
  width := 40
  text := s.tmpbuf
  time := s.time
  goodId := s.goodId
  fits := ⟨s.length_tmpbuf, by decide⟩
  clear := s.clear_tmpbuf
  inTime := s.time_lt

/-- `is_inprison` -/
def isInprison (file uident : List UInt8) : Bool := seekInFile file uident

/-- `setinprison`, when it is told to add a user. -/
def setinprison (file : List UInt8) (s : Sentence) : List UInt8 :=
  if isInprison file s.uident then file else addtofile file s.term.line

/-- Who is in prison: nobody twice. -/
def imprison (inmates : List Sentence) (s : Sentence) : List Sentence :=
  enlist Sentence.term inmates s

/-! ## The automatic release -/

/-- A mail, which is also reported. -/
structure Message where
  repbuf : List UInt8
  msgbuf : List UInt8
  uident : List UInt8
  deriving DecidableEq

/-- ` 出狱` -/
def releasedText : List UInt8 := [32, 179, 246, 211, 252]

/-- `出狱原因：刑满释放!` -/
def servedText : List UInt8 :=
  [179, 246, 211, 252, 212, 173, 210, 242, 163, 186, 208, 204, 194, 250, 202, 205, 183, 197, 33]

/-- The mail that tells a user of the release. -/
def releaseMessage (uident : List UInt8) : Message := ⟨uident ++ releasedText, servedText, uident⟩

/-- `showunprisonmessage`: the user is what stands before the first blank. -/
def showunprisonmessage (linebuf : List UInt8) : Message :=
  releaseMessage ((linebuf.take 12).takeWhile fun c => c ≠ 0 ∧ c ≠ 32)

/-- `canunprison`, word for word `canundeny` -/
def canunprison (linebuf : List UInt8) (nowtime : Nat) : Bool := canundeny linebuf nowtime

/-- The loop of `main`, with what has been kept: the file that is left, without the newline behind
it, and the mails. -/
def unprisonLoop (nowtime : Nat) :
    Nat → List UInt8 → List UInt8 → List UInt8 × List Message
  | 0, _, kept => (kept, [])
  | fuel + 1, buf, kept =>
      if buf = [] then (kept, [])
      else
        let (linebuf, rest) := sgetline 255 buf
        if canunprison linebuf nowtime then
          let (kept, mails) := unprisonLoop nowtime fuel rest kept
          (kept, showunprisonmessage linebuf :: mails)
        else unprisonLoop nowtime fuel rest ((if kept ≠ [] then kept ++ [10] else kept) ++ linebuf)

/-- `main`: the file that is left and the mails -/
def autounprison (file : List UInt8) (nowtime : Nat) : List UInt8 × List Message :=
  if file = [] then (file, [])
  else
    let (kept, mails) := unprisonLoop nowtime file.length file []
    (kept ++ [10], mails)

/-! ## What a run does -/

theorem showunprisonmessage_line (t : Term) :
    showunprisonmessage t.line = releaseMessage t.uident := by
  have hlen := length_padRight t.goodId.2.1
  have hname : ∀ c ∈ t.uident, decide (c ≠ 0 ∧ c ≠ 32) = true := by
    intro c hc
    have hbyte := (t.goodId.byte hc).1
    grind
  rw [showunprisonmessage, Term.line_eq, Term.head, List.append_assoc, List.take_left' hlen, padRight,
    List.takeWhile_append_of_pos hname, List.takeWhile_replicate]
  exact congrArg releaseMessage (List.append_nil _)

/-- What has been kept of some lines: there is no newline behind it yet. -/
def Left (kept : List UInt8) (ts : List Term) : Prop :=
  if kept = [] then ts = [] else kept ++ [10] = listing ts

theorem Left.line {kept : List UInt8} {ts : List Term} (h : Left kept ts) (t : Term) :
    Left ((if kept ≠ [] then kept ++ [10] else kept) ++ t.line) (ts ++ [t]) := by
  unfold Left at h
  split at h
  · next hkept =>
    rw [h, hkept, if_neg (not_not.mpr rfl), List.nil_append, List.nil_append, Left,
      if_neg t.line_ne_nil, listing_cons]
    rfl
  · next hkept =>
    rw [if_pos hkept, Left, if_neg (by simp), h, ← addtofile_listing, addtofile]

theorem unprisonLoop_listing (nowtime : Nat) (ts : List Term) {fuel : Nat}
    (hfuel : (listing ts).length ≤ fuel) {kept : List UInt8} {ks : List Term} (h : Left kept ks) :
    Left (unprisonLoop nowtime fuel (listing ts) kept).1
        (ks ++ ts.filter fun t => nowtime ≤ t.time) ∧
      (unprisonLoop nowtime fuel (listing ts) kept).2 =
        (ts.filter fun t => t.time < nowtime).map fun t => releaseMessage t.uident := by
  induction ts generalizing fuel kept ks with
  | nil =>
      have hdone : unprisonLoop nowtime fuel (listing []) kept = (kept, []) := by cases fuel <;> rfl
      rw [hdone, List.filter_nil, List.append_nil]
      exact ⟨h, rfl⟩
  | cons t ts ih =>
      rw [listing_cons] at hfuel ⊢
      have hline := sgetline_line t.no_break (Nat.lt_of_le_of_lt t.length_line (by decide : 78 < 255))
        (listing ts)
      rw [List.length_append, List.length_cons] at hfuel
      obtain ⟨n, rfl⟩ : ∃ n, fuel = n + 1 := ⟨fuel - 1, by omega⟩
      have hrest : (listing ts).length ≤ n := by omega
      rw [unprisonLoop, if_neg (by simp)]
      simp only [hline, canunprison, t.canundeny_line, decide_eq_true_eq, showunprisonmessage_line]
      split
      · next hpast =>
        obtain ⟨hkept, hmails⟩ := ih hrest h
        rw [List.filter_cons_of_neg (by simpa using hpast),
          List.filter_cons_of_pos (by simpa using hpast),
          List.map_cons]
        exact ⟨hkept, congrArg _ hmails⟩
      · next hstay =>
        obtain ⟨hkept, hmails⟩ := ih hrest (h.line t)
        rw [List.filter_cons_of_pos (by simpa using hstay),
          List.filter_cons_of_neg (by simpa using hstay)]
        rw [List.append_assoc, List.singleton_append] at hkept
        exact ⟨hkept, hmails⟩

/-- **A run** keeps the lines whose time has not passed and announces the others. -/
theorem autounprison_listing (nowtime : Nat) (ts : List Term) :
    entries (autounprison (listing ts) nowtime).1 =
        (ts.filter fun t => nowtime ≤ t.time).map Term.line ∧
      (autounprison (listing ts) nowtime).2 =
        (ts.filter fun t => t.time < nowtime).map fun t => releaseMessage t.uident := by
  have hnone : Left [] [] := by rw [Left, if_pos rfl]
  obtain ⟨hkept, hmails⟩ := unprisonLoop_listing nowtime ts le_rfl hnone
  rw [List.nil_append] at hkept
  unfold autounprison
  split
  · next hnil =>
    cases ts with
    | nil => exact ⟨rfl, rfl⟩
    | cons t ts => simp [listing_cons] at hnil
  · refine ⟨?_, hmails⟩
    unfold Left at hkept
    split at hkept
    · next hempty =>
      dsimp only
      rw [hempty, hkept]
      rfl
    · dsimp only
      rw [hkept, entries_listing]

/-- The sentence is not served yet; one that is to be ended by hand never is. -/
def Sentence.stays (s : Sentence) (nowtime : Nat) : Bool := s.day = 0 || nowtime ≤ s.time

/-- A run leaves the lines of those who are to stay and announces the release of the others. -/
def ReleasesServed (file : List UInt8) (inmates : List Sentence) (nowtime : Nat) : Prop :=
  entries (autounprison file nowtime).1 =
      (inmates.filter fun s => s.stays nowtime).map (fun s => s.term.line) ∧
    (autounprison file nowtime).2 =
      (inmates.filter fun s => !s.stays nowtime).map fun s => releaseMessage s.uident

theorem Sentence.stays_eq {s : Sentence} {nowtime : Nat} (h : nowtime = 0 ∨ s.day ≠ 0) :
    s.stays nowtime = decide (nowtime ≤ s.time) := by
  rcases h with rfl | hday
  · simp [stays]
  · rw [stays, decide_eq_false hday, Bool.false_or]

/-- A filter that keeps as many as a weaker one keeps the same. -/
theorem of_length_filter {α : Type} {p q : α → Bool} (hpq : ∀ x, p x = true → q x = true)
    {l : List α} (h : (l.filter q).length = (l.filter p).length) {x : α} (hx : x ∈ l)
    (hq : q x = true) : p x = true := by
  have hsub : (l.filter p).Sublist (l.filter q) := List.monotone_filter_right l hpq
  have heq := hsub.eq_of_length h.symm
  have hmem : x ∈ l.filter p := by
    rw [heq]
    exact List.mem_filter.mpr ⟨hx, hq⟩
  exact (List.mem_filter.mp hmem).2

theorem unprison_keeps_iff (orders : List Sentence) (nowtime : Nat) :
    ReleasesServed (orders.foldl setinprison []) (orders.foldl imprison []) nowtime ↔
      nowtime = 0 ∨ ∀ s ∈ orders.foldl imprison [], s.day ≠ 0 := by
  have hfile : orders.foldl setinprison [] = listing ((orders.foldl imprison []).map Sentence.term) :=
    foldl_listing Sentence.term (fun _ _ => rfl) orders []
  generalize orders.foldl imprison [] = inmates at hfile ⊢
  obtain ⟨hlines, hmails⟩ := autounprison_listing nowtime (inmates.map Sentence.term)
  rw [List.filter_map, List.map_map] at hlines hmails
  rw [ReleasesServed, hfile, hlines, hmails]
  constructor
  · rintro ⟨-, hreleased⟩
    refine or_iff_not_imp_left.mpr fun hclock s hs hday => ?_
    have hlen := congrArg List.length hreleased
    rw [List.length_map, List.length_map] at hlen
    have hweak : ∀ s : Sentence, (!s.stays nowtime) = true → decide (s.term.time < nowtime) = true := by
      intro s hs
      simp only [Sentence.stays, Bool.not_eq_true', Bool.or_eq_false_iff, decide_eq_false_iff_not] at hs
      exact decide_eq_true (Nat.lt_of_not_le hs.2)
    have hzero : s.time = 0 := if_neg (by omega)
    have hout := of_length_filter hweak hlen hs
      (decide_eq_true (show s.time < nowtime by omega))
    simp [Sentence.stays, hday] at hout
  · intro hcond
    have hstays : ∀ s ∈ inmates, s.stays nowtime = decide (nowtime ≤ s.time) := fun s hs =>
      Sentence.stays_eq (hcond.imp_right fun h => h s hs)
    constructor
    · rw [List.filter_congr hstays]
      rfl
    · have hgone : ∀ s ∈ inmates, (!s.stays nowtime) = decide (s.time < nowtime) := by
        intro s hs
        rw [hstays s hs, ← decide_not]
        exact decide_eq_decide.mpr Nat.not_le
      rw [List.filter_congr hgone]
      rfl

theorem goodId_letters {id : List UInt8} (hne : id ≠ []) (hlen : id.length ≤ 12)
    (h : id.all isAlpha = true) : GoodId id :=
  ⟨hne, hlen, fun c hc => Or.inl (List.all_eq_true.mp h c hc)⟩

theorem reason_test : 4 ≤ [(116 : UInt8), 101, 115, 116].length ∧
    [(116 : UInt8), 101, 115, 116].length ≤ 27 ∧ Clear [116, 101, 115, 116] :=
  ⟨Nat.le_refl 4, by decide, by simp [Clear]⟩

theorem goodId_abc : GoodId [97, 98, 99] :=
  goodId_letters (List.cons_ne_nil _ _) (by decide) rfl

theorem inTime_byHand : 1000000000 + (0 + 1) * 86400 < 2 ^ 63 := by decide

/-- `abc`, in prison for `test` until the staff says otherwise -/
def byHand : Sentence where
  uident := [97, 98, 99]
  buf := [116, 101, 115, 116]
  day := 0
  nowtime := 1000000000
  goodId := goodId_abc
  reason := reason_test
  days := Nat.zero_lt_succ 999
  inTime := inTime_byHand

/-- One second later `abc` is free. -/
theorem unprison_frees_hand : ¬ ReleasesServed ([byHand].foldl setinprison [])
    ([byHand].foldl imprison []) 1000000001 := by
  intro ⟨_, hmails⟩
  have hfile : [byHand].foldl setinprison [] = listing [byHand.term] :=
    foldl_listing Sentence.term (fun _ _ => rfl) [byHand] []
  rw [hfile, (autounprison_listing 1000000001 [byHand.term]).2] at hmails
  exact absurd (congrArg List.length hmails) (by decide)

end Deny

end Ytht
