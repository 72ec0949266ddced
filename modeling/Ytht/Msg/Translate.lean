import Mathlib.Data.List.Basic
import Ytht.Lib.Bytes
import Ytht.Msg.Msgbox

/-!
# Msg.Translate

How a message is laid out for the screen (`translate_msg`): a line that says who
sent it and when, and the text in rows of at most 80 columns, each with the
colours set in front of it and filled up with blanks.

`checkmsgbuf` lets at most twelve lines of less than 80 bytes through, so the
rows of such a text are its lines, and the whole fits into the buffer of the
callers.  The rows of any other text hold whole characters too
(`Typeset.layout`), only their number is not bounded.
-/

namespace Ytht

open Bytes

/-! ## The check of the web form -/

/-- The loop of `checkmsgbuf` behind `n` bytes of a line. -/
def checkmsgbufLoop : Nat → Nat → List UInt8 → Int
  | n, line, [] => if 80 ≤ n then -1 else if 11 < line then -2 else 0
  | n, line, c :: msg =>
      if c == 10 then
        if 80 ≤ n then -1 else checkmsgbufLoop 0 (line + 1) msg
      else checkmsgbufLoop (n + 1) line msg

/-- `checkmsgbuf`. -/
def checkmsgbuf (msg : List UInt8) : Int := checkmsgbufLoop 0 0 msg

/-! ## The title -/

/-- What a site has: its name `MY_BBS_ID`, and `ctime` in its time zone. -/
structure MsgSite where
  bbsId : List UInt8
  ctime : UInt64 → List UInt8
  bbsId_oneLine : 10 ∉ bbsId
  ctime_oneLine : ∀ time, 10 ∉ (ctime time).take 16

/-- The bytes that `%s` takes at `head->id`, which are those behind it too when it has no
end of its own. -/
def Msghead.idStr (head : Msghead) : List UInt8 := cString (head.bytes.drop 10)

/-- Blanks. -/
def blanks (n : Nat) : List UInt8 := List.replicate n 32

/-- `%-14.14s` and `%-16.16s`. -/
def leftField (n : Nat) (s : List UInt8) : List UInt8 := s.take n ++ blanks (n - s.length)

/-- `%16.16s`. -/
def rightField (n : Nat) (s : List UInt8) : List UInt8 := blanks (n - s.length) ++ s.take n

/-- A colour code. -/
def colour (params : List UInt8) : List UInt8 := 27 :: 91 :: (params ++ [109])

/-- The name of the operators. -/
def operators : List UInt8 := [213, 190, 179, 164]

/-- `uid` of `translate_msg`, with the cut of `snprintf`. -/
def msgUid (site : MsgSite) (head : Msghead) (addSite : Bool) : List UInt8 :=
  if head.mode = 0 then
    if addSite then (operators ++ 64 :: site.bbsId).take 79 else operators
  else if addSite then (head.idStr ++ 64 :: site.bbsId).take 79 else leftField 14 head.idStr

/-- The end of the title. -/
def titleEnd (n : Nat) : List UInt8 := colour [51, 55] ++ (blanks n ++ (colour [] ++ [10]))

/-- The title of a message. -/
def msgTitle (site : MsgSite) (head : Msghead) (addSite : Bool) : List UInt8 :=
  let uid := msgUid site head addSite
  let time := leftField 16 (site.ctime head.time)
  if head.mode = 2 then
    if head.sent = 0 then
      colour [49, 59, 52, 52] ++ (colour [51, 54] ++ (uid ++ (colour [51, 51] ++
        ([32, 32, 40] ++ (time ++ (41 :: titleEnd 46))))))
    else
      colour [48, 59, 49, 59, 51, 50] ++ ([61, 62] ++ (colour [51, 55] ++ (uid ++
        (colour [51, 51] ++ (40 :: (time ++ (41 :: titleEnd 46)))))))
  else if head.mode = 5 then
    if head.sent = 0 then
      colour [49, 59, 52, 53] ++ (colour [51, 54] ++ (uid ++ (colour [51, 51] ++
        ([32, 32, 40] ++ (time ++ (41 :: titleEnd 46))))))
    else
      colour [48, 59, 49, 59, 52, 53, 59, 51, 50] ++ ([61, 62] ++ (colour [51, 55] ++ (uid ++
        (colour [51, 51] ++ (40 :: (time ++ (41 :: titleEnd 46)))))))
  else if head.mode = 0 then
    colour [52, 52] ++ (colour [51, 51] ++ (uid ++ ([211, 218, 32] ++
      (rightField 16 (site.ctime head.time) ++ ([32, 202, 177, 185, 227, 178, 165] ++
        titleEnd 50)))))
  else if head.mode = 1 then
    if head.sent = 0 then
      colour [52, 52] ++ (colour [51, 54] ++ (leftField 14 head.idStr ++ (40 :: (time ++
        ([41, 32, 209, 251, 199, 235, 196, 227] ++ titleEnd 43)))))
    else
      colour [52, 52] ++ (colour [51, 55] ++ ([196, 227, 40] ++ (time ++
        ([41, 32, 209, 251, 199, 235] ++ (leftField 14 head.idStr ++ titleEnd 43)))))
  else
    colour [52, 53] ++ (colour [51, 54] ++ (uid ++ (colour [51, 51] ++ ([32, 32, 40] ++
      (colour [51, 54] ++ (time ++ (colour [51, 51] ++ (41 :: titleEnd 46))))))))

/-- `attstr`, the colours of the text. -/
def attStr (head : Msghead) : List UInt8 :=
  if head.mode = 2 then
    if head.sent = 0 then colour [52, 52, 59, 51, 55, 59, 49] else colour [51, 54, 59, 49]
  else if head.mode = 5 then
    if head.sent = 0 then colour [52, 53, 59, 51, 55, 59, 49]
    else colour [52, 53, 59, 51, 54, 59, 49]
  else if head.mode = 0 then colour [52, 52] ++ colour [49, 59, 51, 55]
  else if head.mode = 1 then
    if head.sent = 0 then colour [52, 52] ++ colour [49, 59, 51, 55]
    else colour [52, 52] ++ colour [49, 59, 51, 54]
  else colour [52, 53] ++ colour [49, 59, 51, 55]

/-! ## The rows -/

/-- The variables of the loop over the text.  `j` is set between the two bytes of a
character. -/
structure MsgRows where
  j : Bool
  pos : Nat
  ret : Nat
  dest : List UInt8
  deriving DecidableEq

/-- The row is filled up and the next one begun. -/
def MsgRows.nextRow (attstr : List UInt8) (rows : MsgRows) : MsgRows :=
  { rows with
    pos := 0
    ret := rows.ret + 1
    dest := rows.dest ++ (blanks (79 - rows.pos) ++ (colour [] ++ (10 :: attstr))) }

/-- A byte is written. -/
def MsgRows.put (c : UInt8) (rows : MsgRows) : MsgRows :=
  { rows with pos := rows.pos + 1, dest := rows.dest ++ [c] }

/-- The loop's body. -/
def translateByte (attstr : List UInt8) (rows : MsgRows) (c : UInt8) : MsgRows :=
  let j := !rows.j && 128 ≤ c
  let full := (!j && 80 ≤ rows.pos) || (j && 79 ≤ rows.pos) || c == 10
  let rows := { rows with j }
  let rows := if full then rows.nextRow attstr else rows
  if c == 10 || c == 13 then rows else rows.put c

/-- `translate_msg`: what it leaves in `dest`, and what it returns. -/
def translateMsg (site : MsgSite) (src : List UInt8) (head : Msghead) (addSite : Bool) :
    List UInt8 × Nat :=
  let rows := src.foldl (translateByte (attStr head))
    { j := false, pos := 0, ret := 0, dest := msgTitle site head addSite ++ attStr head }
  (rows.dest ++ (blanks (80 - rows.pos) ++ (colour [] ++ [10])), rows.ret + 2)

/-! ## Characters -/

/-- The characters of a text.  A byte from 128 on makes one character with the byte
behind it, unless that ends the line or is dropped. -/
def characters : List UInt8 → List (List UInt8)
  | [] => []
  | [a] => [[a]]
  | a :: b :: src =>
      if 128 ≤ a then
        if b = 10 ∨ b = 13 then [a] :: [b] :: characters src else [a, b] :: characters src
      else [a] :: characters (b :: src)

/-- A character that is written. -/
def isWritten (ch : List UInt8) : Bool := ch ≠ [10] && ch ≠ [13]

theorem isWritten_single {c : UInt8} (hnl : c ≠ 10) (hcr : c ≠ 13) : isWritten [c] = true := by
  simp [isWritten, hnl, hcr]

theorem isWritten_pair (a b : UInt8) : isWritten [a, b] = true := by simp [isWritten]

theorem ne_of_lead {a : UInt8} (ha : 128 ≤ a) : a ≠ 10 ∧ a ≠ 13 :=
  ⟨fun h => absurd ha (by rw [h]; decide), fun h => absurd ha (by rw [h]; decide)⟩

theorem flatten_filter_characters (src : List UInt8) :
    ((characters src).filter isWritten).flatten = src.filter (fun c => c ≠ 10 && c ≠ 13) := by
  induction src using characters.induct with
  | case1 => rfl
  | case2 a => by_cases hnl : a = 10 <;> by_cases hcr : a = 13 <;> simp [characters, isWritten, *]
  | case3 a b src ha hb ih =>
      obtain ⟨hnl, hcr⟩ := ne_of_lead ha
      rcases hb with rfl | rfl <;> simp [characters, isWritten, ha, hnl, hcr, ih]
  | case4 a b src ha hb ih =>
      obtain ⟨hnl, hcr⟩ := ne_of_lead ha
      rw [not_or] at hb
      simp [characters, isWritten_pair, ha, hb, hnl, hcr, ih]
  | case5 a b src ha ih =>
      rw [characters, if_neg ha]
      by_cases hnl : a = 10 <;> by_cases hcr : a = 13 <;>
        simp [isWritten, hnl, hcr, ih, List.filter_cons]

/-! ## Layouts -/

/-- Characters in rows: what is done, and the row that is being written.  A row ends at a
newline, or when the next character may not fit. -/
inductive Laid : List (List UInt8) → List (List (List UInt8)) → List (List UInt8) → Prop
  | start : Laid [] [] []
  | write {chars done cur} (ch : List UInt8) (hch : isWritten ch = true)
      (h : Laid chars done cur) : Laid (chars ++ [ch]) done (cur ++ [ch])
  | dropped {chars done cur} (h : Laid chars done cur) : Laid (chars ++ [[13]]) done cur
  | newline {chars done cur} (h : Laid chars done cur) :
      Laid (chars ++ [[10]]) (done ++ [cur]) []
  | full {chars done cur} (h : Laid chars done cur) (hfull : 79 ≤ cur.flatten.length) :
      Laid chars (done ++ [cur]) []

/-- The characters stay in their order. -/
theorem Laid.flatten {chars cur : List (List UInt8)} {done : List (List (List UInt8))}
    (h : Laid chars done cur) : (done ++ [cur]).flatten = chars.filter isWritten := by
  induction h with
  | start => rfl
  | write ch hch h ih =>
      rw [List.filter_append, ← ih]
      simp [hch]
  | dropped h ih => simp_all [isWritten]
  | newline h ih => simp_all [isWritten]
  | full h hfull ih => simp_all

/-- A row of the screen. -/
def screenRow (attstr : List UInt8) (width : Nat) (text : List (List UInt8)) : List UInt8 :=
  attstr ++ (text.flatten ++ (blanks (width - text.flatten.length) ++ (colour [] ++ [10])))

/-- The loop has read `chars`, has written `done` as whole rows, and `cur` in the row where
it is. -/
structure Typeset (title attstr : List UInt8) (chars : List (List UInt8))
    (done : List (List (List UInt8))) (cur : List (List UInt8)) (rows : MsgRows) : Prop where
  laid : Laid chars done cur
  dest : rows.dest = title ++ (done.flatMap (screenRow attstr 79) ++ (attstr ++ cur.flatten))
  pos : rows.pos = cur.flatten.length
  ret : rows.ret = done.length
  width : rows.pos ≤ 80
  widths : ∀ row ∈ done, row.flatten.length ≤ 80

section Typeset

variable {title attstr : List UInt8} {chars cur : List (List UInt8)}
  {done : List (List (List UInt8))} {rows : MsgRows}

theorem Typeset.nextRow {chars' : List (List UInt8)}
    (h : Typeset title attstr chars done cur rows) (hlaid : Laid chars' (done ++ [cur]) []) :
    Typeset title attstr chars' (done ++ [cur]) [] (rows.nextRow attstr) where
  laid := hlaid
  dest := by simp [MsgRows.nextRow, h.dest, h.pos, screenRow, List.append_assoc]
  pos := rfl
  ret := by simp [MsgRows.nextRow, h.ret]
  width := Nat.zero_le _
  widths := by
    simp only [List.forall_mem_append, List.forall_mem_singleton]
    exact ⟨h.widths, h.pos ▸ h.width⟩

theorem Typeset.setJ (h : Typeset title attstr chars done cur rows) (j : Bool) :
    Typeset title attstr chars done cur { rows with j } :=
  ⟨h.laid, h.dest, h.pos, h.ret, h.width, h.widths⟩

/-- A whole character is written. -/
theorem Typeset.write (h : Typeset title attstr chars done cur rows) {ch : List UInt8}
    (hch : isWritten ch = true) {rows' : MsgRows} (hdest : rows'.dest = rows.dest ++ ch)
    (hpos : rows'.pos = rows.pos + ch.length) (hret : rows'.ret = rows.ret)
    (hwidth : rows'.pos ≤ 80) :
    Typeset title attstr (chars ++ [ch]) done (cur ++ [ch]) rows' where
  laid := h.laid.write ch hch
  dest := by simp [hdest, h.dest, List.append_assoc]
  pos := by simp [hpos, h.pos]
  ret := hret.trans h.ret
  width := hwidth
  widths := h.widths

/-- A row that is full is ended. -/
theorem Typeset.makeRoom (h : Typeset title attstr chars done cur rows) {full : Bool}
    (hfull : full = true → 79 ≤ rows.pos) :
    ∃ done' cur', Typeset title attstr chars done' cur'
      (if full then rows.nextRow attstr else rows) := by
  cases full with
  | false => exact ⟨done, cur, h⟩
  | true => exact ⟨done ++ [cur], [], h.nextRow (h.laid.full (h.pos ▸ hfull rfl))⟩

theorem Typeset.newline (h : Typeset title attstr chars done cur rows) :
    Typeset title attstr (chars ++ [[10]]) (done ++ [cur]) [] (translateByte attstr rows 10) ∧
      (translateByte attstr rows 10).j = false := by
  have hstep : translateByte attstr rows 10 = { rows with j := false }.nextRow attstr := by
    simp [translateByte]
  rw [hstep]
  exact ⟨(h.setJ false).nextRow h.laid.newline, rfl⟩

theorem Typeset.dropped (h : Typeset title attstr chars done cur rows) :
    ∃ done' cur', Typeset title attstr (chars ++ [[13]]) done' cur'
      (translateByte attstr rows 13) ∧ (translateByte attstr rows 13).j = false := by
  have hstep : translateByte attstr rows 13 =
      if decide (80 ≤ rows.pos) then { rows with j := false }.nextRow attstr
      else { rows with j := false } := by
    simp [translateByte]
  have hfull : decide (80 ≤ rows.pos) = true → 79 ≤ { rows with j := false }.pos := by
    simp only [decide_eq_true_eq]
    omega
  obtain ⟨done', cur', h'⟩ := (h.setJ false).makeRoom hfull
  rw [hstep]
  exact ⟨done', cur', { h' with laid := h'.laid.dropped }, by split <;> rfl⟩

/-- Before a byte of a character there is room for the whole of it. -/
theorem Typeset.room (h : Typeset title attstr chars done cur rows) {c : UInt8} (hnl : c ≠ 10)
    (hcr : c ≠ 13) {j : Bool} (hj : j = (!rows.j && decide (128 ≤ c))) :
    ∃ done' cur' rows', Typeset title attstr chars done' cur' rows' ∧
      translateByte attstr rows c = rows'.put c ∧ rows'.j = j ∧
      rows'.pos < if j then 79 else 80 := by
  have hwidth := h.width
  have hfull : ((!j && decide (80 ≤ rows.pos)) || (j && decide (79 ≤ rows.pos))) = true →
      79 ≤ { rows with j }.pos := by
    cases j
    · simp only [Bool.not_false, Bool.true_and, Bool.false_and, Bool.or_false, decide_eq_true_eq]
      omega
    · simp
  obtain ⟨done', cur', h'⟩ := (h.setJ j).makeRoom hfull
  refine ⟨done', cur', _, h', ?_, by split <;> rfl, ?_⟩
  · simp [translateByte, hnl, hcr, hj]
  · split
    · cases j <;> exact Nat.zero_lt_succ _
    · next hroom => cases j <;> simpa using hroom

/-- One byte that is a character. -/
theorem Typeset.single (h : Typeset title attstr chars done cur rows) {c : UInt8} (hnl : c ≠ 10)
    (hcr : c ≠ 13) {j : Bool} (hj : j = (!rows.j && decide (128 ≤ c))) :
    ∃ done' cur', Typeset title attstr (chars ++ [[c]]) done' cur' (translateByte attstr rows c) ∧
      (translateByte attstr rows c).j = j := by
  obtain ⟨done', cur', rows', h', hstep, hj', hroom⟩ := h.room hnl hcr hj
  have hpos : rows'.pos < 80 := Nat.lt_of_lt_of_le hroom (by split <;> decide)
  rw [hstep]
  exact ⟨done', _, h'.write (isWritten_single hnl hcr) rfl rfl rfl hpos, hj'⟩

/-- Two bytes that are one. -/
theorem Typeset.pair (h : Typeset title attstr chars done cur rows) {a b : UInt8}
    (hj : rows.j = false) (ha : 128 ≤ a) (hnl : b ≠ 10) (hcr : b ≠ 13) :
    ∃ done' cur', Typeset title attstr (chars ++ [[a, b]]) done' cur'
      (translateByte attstr (translateByte attstr rows a) b) ∧
      (translateByte attstr (translateByte attstr rows a) b).j = false := by
  obtain ⟨done', cur', rows', h', hstep, hj', hroom⟩ :=
    h.room (j := true) (ne_of_lead ha).1 (ne_of_lead ha).2 (by simp [hj, ha])
  rw [if_pos rfl] at hroom
  have htrail : translateByte attstr (rows'.put a) b = { rows'.put a with j := false }.put b := by
    have hfull : ¬ 80 ≤ rows'.pos + 1 := by omega
    simp [translateByte, MsgRows.put, hj', hnl, hcr, hfull]
  rw [hstep, htrail]
  refine ⟨done', _, h'.write (isWritten_pair a b) ?_ ?_ rfl ?_, rfl⟩
  · simp [MsgRows.put]
  · simp [MsgRows.put]
  · simp only [MsgRows.put]
    omega

/-- The rows of any text. -/
theorem Typeset.layout (src : List UInt8) :
    ∀ {chars done cur rows}, Typeset title attstr chars done cur rows → rows.j = false →
      ∃ done' cur', Typeset title attstr (chars ++ characters src) done' cur'
        (src.foldl (translateByte attstr) rows) := by
  induction src using characters.induct with
  | case1 => exact fun {_ done cur _} h _ => ⟨done, cur, by simpa [characters] using h⟩
  | case2 a =>
      intro chars done cur rows h hj
      rw [List.foldl_cons, List.foldl_nil, characters]
      by_cases hnl : a = 10
      · subst hnl
        exact ⟨_, _, h.newline.1⟩
      by_cases hcr : a = 13
      · subst hcr
        obtain ⟨done', cur', h', -⟩ := h.dropped
        exact ⟨done', cur', h'⟩
      obtain ⟨done', cur', h', -⟩ := h.single hnl hcr rfl
      exact ⟨done', cur', h'⟩
  | case3 a b src ha hb ih =>
      intro chars done cur rows h hj
      obtain ⟨done₁, cur₁, h₁, -⟩ := h.single (ne_of_lead ha).1 (ne_of_lead ha).2 rfl
      rw [List.foldl_cons, List.foldl_cons, characters, if_pos ha, if_pos hb]
      rcases hb with rfl | rfl
      · obtain ⟨h₂, hj₂⟩ := h₁.newline
        simpa using ih h₂ hj₂
      · obtain ⟨done₂, cur₂, h₂, hj₂⟩ := h₁.dropped
        simpa using ih h₂ hj₂
  | case4 a b src ha hb ih =>
      intro chars done cur rows h hj
      rw [not_or] at hb
      obtain ⟨done₁, cur₁, h₁, hj₁⟩ := h.pair hj ha hb.1 hb.2
      rw [List.foldl_cons, List.foldl_cons, characters, if_pos ha, if_neg (not_or.mpr hb)]
      simpa using ih h₁ hj₁
  | case5 a b src ha ih =>
      intro chars done cur rows h hj
      rw [List.foldl_cons, characters, if_neg ha]
      by_cases hnl : a = 10
      · subst hnl
        simpa using ih h.newline.1 h.newline.2
      by_cases hcr : a = 13
      · subst hcr
        obtain ⟨done₁, cur₁, h₁, hj₁⟩ := h.dropped
        simpa using ih h₁ hj₁
      obtain ⟨done₁, cur₁, h₁, hj₁⟩ := h.single (j := false) hnl hcr (by simp [ha])
      simpa using ih h₁ hj₁

end Typeset

/-! ## Sizes -/

@[simp] theorem length_blanks (n : Nat) : (blanks n).length = n := List.length_replicate

theorem length_leftField (n : Nat) (s : List UInt8) : (leftField n s).length = n := by
  simp only [leftField, blanks, List.length_append, List.length_replicate, List.length_take]
  omega

theorem length_rightField (n : Nat) (s : List UInt8) : (rightField n s).length = n := by
  simp only [rightField, blanks, List.length_append, List.length_replicate, List.length_take]
  omega

theorem length_msgUid_le (site : MsgSite) (head : Msghead) (addSite : Bool) :
    (msgUid site head addSite).length ≤ 79 := by
  unfold msgUid
  split_ifs
  · exact List.length_take_le ..
  · decide
  · exact List.length_take_le ..
  · simp [length_leftField]

theorem length_msgTitle_le (site : MsgSite) (head : Msghead) (addSite : Bool) :
    (msgTitle site head addSite).length ≤ 200 := by
  have huid := length_msgUid_le site head addSite
  unfold msgTitle
  split_ifs <;> simp [titleEnd, colour, length_leftField, length_rightField] <;> omega

theorem length_attStr_le (head : Msghead) : (attStr head).length ≤ 12 := by
  unfold attStr
  split_ifs <;> simp [colour]

theorem check_lt {msg : List UInt8} :
    ∀ {n line}, checkmsgbufLoop n line msg = 0 → n < 80 ∧ line ≤ 11 := by
  induction msg with
  | nil => grind [checkmsgbufLoop]
  | cons c msg ih => grind [checkmsgbufLoop]

/-- A line of less than 80 bytes stays in its row. -/
theorem translateByte_inRow (attstr : List UInt8) {rows : MsgRows} {c : UInt8} (hnl : c ≠ 10)
    (hpos : rows.pos < 79) :
    (translateByte attstr rows c).dest.length + rows.pos =
      rows.dest.length + (translateByte attstr rows c).pos ∧
    (translateByte attstr rows c).pos ≤ rows.pos + 1 := by
  have hroom : ¬ 79 ≤ rows.pos := by omega
  have hmore : ¬ 80 ≤ rows.pos := by omega
  by_cases hcr : c = 13
  · simp [translateByte, hroom, hmore, hcr]
  · simp [translateByte, MsgRows.put, hnl, hroom, hmore, hcr]
    omega

theorem translateByte_newRow (attstr : List UInt8) {rows : MsgRows} (hpos : rows.pos ≤ 79) :
    (translateByte attstr rows 10).dest.length + rows.pos =
      rows.dest.length + (83 + attstr.length) ∧ (translateByte attstr rows 10).pos = 0 := by
  simp [translateByte, MsgRows.nextRow, colour]
  omega

theorem length_rows (attstr : List UInt8) {src : List UInt8} :
    ∀ {n line} {rows : MsgRows}, checkmsgbufLoop n line src = 0 → rows.pos ≤ n →
      ∃ k, line + k ≤ 11 ∧ (src.foldl (translateByte attstr) rows).pos ≤ 79 ∧
        (src.foldl (translateByte attstr) rows).dest.length + rows.pos =
          rows.dest.length + (src.foldl (translateByte attstr) rows).pos +
            k * (83 + attstr.length) := by
  induction src with
  | nil =>
      intro n line rows h hpos
      have hlt := check_lt h
      exact ⟨0, by omega, by simp only [List.foldl_nil]; omega, by simp⟩
  | cons c src ih =>
      intro n line rows h hpos
      have hlt := check_lt h
      rw [List.foldl_cons]
      by_cases hnl : c = 10
      · subst hnl
        have hrest : checkmsgbufLoop 0 (line + 1) src = 0 := by
          simpa [checkmsgbufLoop, hlt.1.not_ge] using h
        have hfull : rows.pos ≤ 79 := by omega
        obtain ⟨hstep, hzero⟩ := translateByte_newRow attstr hfull
        obtain ⟨k, hk, hend, hlen⟩ := ih hrest (le_of_eq hzero)
        refine ⟨k + 1, by omega, hend, ?_⟩
        rw [Nat.succ_mul]
        omega
      · have hrest : checkmsgbufLoop (n + 1) line src = 0 := by
          simpa [checkmsgbufLoop, hnl] using h
        have hstay : rows.pos < 79 := by
          have := (check_lt hrest).1
          omega
        obtain ⟨hstep, hle⟩ := translateByte_inRow attstr hnl hstay
        obtain ⟨k, hk, hend, hlen⟩ := ih hrest (Nat.le_trans hle (Nat.succ_le_succ hpos))
        exact ⟨k, hk, hend, by omega⟩

/-! ## Newlines -/

theorem count_blanks (n : Nat) : (blanks n).count 10 = 0 := by simp [blanks, List.count_replicate]

theorem count_of_take {s : List UInt8} (h : 10 ∉ s) (n : Nat) : (s.take n).count 10 = 0 :=
  List.count_eq_zero.mpr fun hmem => h (List.mem_of_mem_take hmem)

theorem count_time (site : MsgSite) (time : UInt64) : ((site.ctime time).take 16).count 10 = 0 :=
  List.count_eq_zero.mpr (site.ctime_oneLine time)

theorem count_msgUid (site : MsgSite) {head : Msghead} (hid : 10 ∉ head.idStr) (addSite : Bool) :
    (msgUid site head addSite).count 10 = 0 := by
  have hsite := site.bbsId_oneLine
  unfold msgUid
  split_ifs
  · exact count_of_take (by simp [operators, hsite]) 79
  · decide
  · exact count_of_take (by simp [hid, hsite]) 79
  · simp [leftField, count_of_take hid, count_blanks]

theorem count_colour (params : List UInt8) : (colour params).count 10 = params.count 10 := by
  simp [colour]

theorem count_titleEnd (n : Nat) : (titleEnd n).count 10 = 1 := by
  simp [titleEnd, count_colour, count_blanks]

theorem count_msgTitle (site : MsgSite) {head : Msghead} (hid : 10 ∉ head.idStr) (addSite : Bool) :
    (msgTitle site head addSite).count 10 = 1 := by
  have huid := count_msgUid site hid addSite
  have htime := count_time site head.time
  have hsender := count_of_take hid 14
  unfold msgTitle
  split_ifs <;>
    simp [count_titleEnd, count_colour, leftField, rightField, count_blanks, huid, htime, hsender]

theorem count_attStr (head : Msghead) : (attStr head).count 10 = 0 := by
  unfold attStr
  split_ifs <;> decide

theorem count_screenRows {attstr : List UInt8} (hatt : attstr.count 10 = 0) (width : Nat)
    (rows : List (List (List UInt8))) (hrows : 10 ∉ rows.flatten.flatten) :
    (rows.flatMap (screenRow attstr width)).count 10 = rows.length := by
  induction rows with
  | nil => rfl
  | cons row rows ih =>
      rw [List.flatten_cons, List.flatten_append, List.mem_append, not_or] at hrows
      rw [List.flatMap_cons, List.count_append, ih hrows.2, List.length_cons]
      simp [screenRow, colour, hatt, List.count_eq_zero.mpr hrows.1, count_blanks]
      omega

/-! ## The screen of a message -/

/-- A message that `checkmsgbuf` lets through, from a user in whose id there is no newline.
It fits into `2 * MAX_MSG_SIZE` bytes with its end, the newlines in it are counted, no row
has more than 80 columns, and the rows hold the characters of the text whole and in their
order, less what ends a line. -/
theorem translateMsg_layout (site : MsgSite) {src : List UInt8} (hsrc : checkmsgbuf src = 0)
    {head : Msghead} (hid : 10 ∉ head.idStr) (addSite : Bool) :
    (translateMsg site src head addSite).1.length + 1 < 2 * maxMsgSize ∧
    (translateMsg site src head addSite).2 = (translateMsg site src head addSite).1.count 10 ∧
    ∃ rows last, (translateMsg site src head addSite).1 = msgTitle site head addSite ++
        (rows.flatMap (screenRow (attStr head) 79) ++ screenRow (attStr head) 80 last) ∧
      Laid (characters src) rows last ∧ (∀ row ∈ rows ++ [last], row.flatten.length ≤ 80) ∧
      (rows ++ [last]).flatten.flatten = src.filter (fun c => c ≠ 10 && c ≠ 13) := by
  have hstart : Typeset (msgTitle site head addSite) (attStr head) [] [] []
      { j := false, pos := 0, ret := 0, dest := msgTitle site head addSite ++ attStr head } :=
    ⟨.start, by simp, rfl, rfl, by simp, by simp⟩
  obtain ⟨rows, last, h⟩ := hstart.layout src rfl
  obtain ⟨k, hk, hend, hlen⟩ := length_rows (attStr head) hsrc (le_of_eq hstart.pos)
  rw [List.nil_append] at h
  have hout : (translateMsg site src head addSite).1 = msgTitle site head addSite ++
      (rows.flatMap (screenRow (attStr head) 79) ++ screenRow (attStr head) 80 last) := by
    simp [translateMsg, h.dest, h.pos, screenRow, List.append_assoc]
  have hbytes : (rows ++ [last]).flatten.flatten = src.filter (fun c => c ≠ 10 && c ≠ 13) := by
    rw [h.laid.flatten, flatten_filter_characters]
  have hnone : 10 ∉ (rows ++ [last]).flatten.flatten := by
    rw [hbytes]
    simp
  rw [List.flatten_append, List.flatten_append, List.mem_append, not_or] at hnone
  refine ⟨?_, ?_, rows, last, hout, h.laid, ?_, hbytes⟩
  · have htitle := length_msgTitle_le site head addSite
    have hatt := length_attStr_le head
    have hall : k * (83 + (attStr head).length) ≤ 11 * 95 := Nat.mul_le_mul (by omega) (by omega)
    simp only [List.length_append] at hlen
    simp only [translateMsg, List.length_append, length_blanks, colour, List.length_cons,
      List.length_nil, maxMsgSize]
    omega
  · have hrows := count_screenRows (count_attStr head) 79 rows hnone.1
    have hlast := count_screenRows (count_attStr head) 80 [last] hnone.2
    rw [List.flatMap_singleton] at hlast
    rw [hout, List.count_append, List.count_append, count_msgTitle site hid, hrows, hlast]
    simp only [translateMsg, h.ret, List.length_singleton]
    omega
  · simp only [List.forall_mem_append, List.forall_mem_singleton]
    exact ⟨h.widths, h.pos ▸ h.width⟩

/-- A site at the first hour of all times. -/
def epochSite : MsgSite where
  bbsId := [89, 84, 72, 84]
  ctime := fun _ => [84, 104, 117, 32, 74, 97, 110, 32, 32, 49, 32, 48, 48, 58, 48, 48, 58, 48, 48,
    32, 49, 57, 55, 48, 10]
  bbsId_oneLine := by decide
  ctime_oneLine := fun _ => by decide

/-- A message from `Ann`. -/
def annsHead : Msghead :=
  ⟨0, 7, 0, 2, ⟨#[65, 110, 110, 0, 0, 0, 0, 0, 0, 0, 0, 0, 0, 0], rfl⟩, 0, 0, 0⟩

/-- Two characters of two bytes in a line, and two of one in the next. -/
def annsText : List UInt8 := [196, 227, 186, 195, 10, 79, 75]

theorem translateMsg_layout_twoLines :
    checkmsgbuf annsText = 0 ∧ 10 ∉ annsHead.idStr ∧
    (translateMsg epochSite annsText annsHead true).1.count 10 = 3 ∧
    ∃ rows last, Laid [[196, 227], [186, 195], [10], [79], [75]] rows last ∧
      (rows ++ [last]).flatten.flatten = [196, 227, 186, 195, 79, 75] := by
  have hsrc : checkmsgbuf annsText = 0 := by decide
  have hid : 10 ∉ annsHead.idStr := by decide +kernel
  obtain ⟨-, hcount, rows, last, -, hlaid, -, hbytes⟩ :=
    translateMsg_layout epochSite hsrc hid true
  exact ⟨hsrc, hid, hcount.symm.trans (by decide +kernel), rows, last, hlaid, hbytes⟩

end Ytht
