import Mathlib.Data.List.Basic
import Ytht.Lib.Bytes
import Ytht.Lib.File
import Ytht.Lib.Runs

/-!
# Msg.Msgbox

The message box of `msg.c`: all messages in `msgindex` and `msgcontent`, the
received ones again in `msgindex2`, whose first four bytes count those that have
been handed out.

`load_msghead` takes the number of messages from the size of the file without
asking whether there is a counter in it, so an empty `msgindex2` seems to hold
messages (`emptyIndex_listsMessages`).  `msgbox_run` is about the runs in which
none is left behind, and in which positions and counts are those of an `int`.
-/

namespace Ytht

open Bytes File Runs

/-! ## Heads -/

/-- `MAX_MSG_SIZE`. -/
def maxMsgSize : Nat := 1024

/-- `struct msghead`. -/
structure Msghead where
  pos : Int
  len : Int
  sent : UInt8
  mode : UInt8
  id : Vector UInt8 14
  time : UInt64
  frompid : UInt32
  topid : UInt32
  deriving DecidableEq

/-- `sizeof (struct msghead)`, with a `time_t` of eight bytes. -/
def sizeofMsghead : Nat := 40

/-- The head in memory. -/
def Msghead.bytes (head : Msghead) : List UInt8 :=
  leBytes 4 (wrap 4 head.pos) ++ (leBytes 4 (wrap 4 head.len) ++ (head.sent :: head.mode ::
    (head.id.toList ++ (leBytes 8 head.time.toNat ++ (leBytes 4 head.frompid.toNat ++
      leBytes 4 head.topid.toNat)))))

/-- The head that some memory holds. -/
def Msghead.ofBytes (mem : List UInt8) : Msghead :=
  let atLen := mem.drop 4
  let atSent := atLen.drop 4
  let atId := atSent.drop 2
  let atTime := atId.drop 14
  let atFrompid := atTime.drop 8
  let atTopid := atFrompid.drop 4
  { pos := signed 4 (leNat (mem.take 4))
    len := signed 4 (leNat (atLen.take 4))
    sent := atSent.getD 0 0
    mode := atSent.getD 1 0
    id := Vector.ofFn fun i => atId.getD i 0
    time := UInt64.ofNat (leNat (atTime.take 8))
    frompid := UInt32.ofNat (leNat (atFrompid.take 4))
    topid := UInt32.ofNat (leNat (atTopid.take 4)) }

/-! ## The files -/

/-- The files in the user's home.  A file that is not there is `none`. -/
structure Msgbox where
  msgindex : Option (List UInt8)
  msgindex2 : Option (List UInt8)
  msgcontent : Option (List UInt8)
  deriving DecidableEq

/-- A box in which nothing has been done. -/
def Msgbox.empty : Msgbox := ⟨none, none, none⟩

/-- `(buf.st_size - 4) / sizeof (struct msghead)`, computed in `size_t` and kept in an
`int`. -/
def headCount (stSize : Nat) : Int := toInt (((stSize : Int) - 4) % 2 ^ 64 / sizeofMsghead)

/-- `read(fd, &ret, 4)` at the start of a file. -/
def readCounter (file : List UInt8) : Int := signed 4 (leNat (readAt file 0 4))

/-- What `save_msgtext` does with an index: a counter when it is empty, and the head
behind the heads that are there. -/
def appendMsghead (file : List UInt8) (head : Msghead) : List UInt8 :=
  let count := if file.length ≤ 0 then 0 else headCount file.length
  let offset := if file.length ≤ 0 then 4 else 0
  let file := if file.length ≤ 0 then writeAt file 0 (leBytes 4 0) else file
  writeAt file (seek offset (count * sizeofMsghead + 4)) head.bytes

/-- `save_msgtext`. -/
def saveMsgtext (head : Msghead) (msgbuf : List UInt8) (box : Msgbox) : Msgbox :=
  let index := box.msgindex.getD []
  let content := box.msgcontent.getD []
  let size := toInt content.length
  let i := toInt (msgbuf.length + 1)
  let i := if i ≥ maxMsgSize then (maxMsgSize : Int) - 1 else i
  let head := { head with pos := size, len := i }
  { msgindex := some (appendMsghead index head)
    msgcontent := some (writeAt content (seek 0 size) ((msgbuf ++ [0]).take i.toNat))
    msgindex2 :=
      if head.sent = 0 then some (appendMsghead (box.msgindex2.getD []) head)
      else box.msgindex2 }

/-- `get_unreadcount`. -/
def getUnreadcount (box : Msgbox) : Int :=
  match box.msgindex2 with
  | none => 0
  | some file =>
      let count := headCount file.length
      if file.length ≤ 0 then 0
      else
        let ret := readCounter file
        if ret ≥ count then 0 else count - ret

/-- `get_unreadmsg`, when it is not disturbed. -/
def getUnreadmsg (box : Msgbox) : Msgbox × Int :=
  let file := box.msgindex2.getD []
  let count := headCount file.length
  if file.length ≤ 0 then ({ box with msgindex2 := some file }, -1)
  else
    let ret := readCounter file
    if ret ≥ count then ({ box with msgindex2 := some file }, -1)
    else
      ({ box with msgindex2 := some (writeAt file 0 (leBytes 4 (wrap 4 (ret + 1)))) }, ret)

/-- The index with a number. -/
def Msgbox.index (box : Msgbox) (id : Nat) : Option (List UInt8) :=
  if id = 0 then box.msgindex else if id = 1 then box.msgindex2 else none

/-- `load_msghead`: what it returns, and `*head`. -/
def loadMsghead (id : Nat) (box : Msgbox) (head : Msghead) (index : Int) : Int × Msghead :=
  match box.index id with
  | none => (-1, head)
  | some file =>
      let count := headCount file.length
      if index < 0 ∨ index ≥ count then (-1, head)
      else
        let mem := readAt file (seek 0 (index * sizeofMsghead + 4)) sizeofMsghead
        (0, Msghead.ofBytes (mem ++ head.bytes.drop mem.length))

/-- The string at the start of some memory. -/
def cString (mem : List UInt8) : List UInt8 := mem.takeWhile (· ≠ 0)

/-- `load_msgtext`: what it returns, and the string in the buffer, which held
`msgbuf` before. -/
def loadMsgtext (box : Msgbox) (head : Msghead) (msgbuf : List UInt8) : Int × List UInt8 :=
  match box.msgcontent with
  | none => (-1, [])
  | some content =>
      let i := if head.len ≥ maxMsgSize then (maxMsgSize : Int) - 1 else head.len
      let mem := readAt content (seek 0 head.pos) i.toNat
      let kept := ((0 :: msgbuf.tail).drop mem.length).take (i.toNat - mem.length)
      (0, cString (mem ++ kept ++ [0]))

/-! ## Sessions -/

/-- The contents of a string. -/
structure Msgtext where
  bytes : List UInt8
  nz : 0 ∉ bytes

inductive MsgOp where
  | save (head : Msghead) (text : Msgtext)
  | getUnreadmsg
  | getUnreadcount

/-- The box, the messages saved so far, and what the calls of `get_unreadmsg` gave. -/
structure MsgSession where
  box : Msgbox
  saved : List (Msghead × Msgtext)
  returned : List Int

/-- A session with an empty box. -/
def MsgSession.start : MsgSession := ⟨Msgbox.empty, [], []⟩

def msgStep (s : MsgSession) : MsgOp → Option MsgSession
  | .save head text =>
      some { s with box := saveMsgtext head text.bytes s.box, saved := s.saved ++ [(head, text)] }
  | .getUnreadmsg =>
      let (box, ret) := getUnreadmsg s.box
      some { s with box := box, returned := s.returned ++ [ret] }
  | .getUnreadcount => some s

/-- The received messages among some. -/
def received (msgs : List (Msghead × Msgtext)) : List (Msghead × Msgtext) :=
  msgs.filter fun m => m.1.sent = 0

/-- The messages handed out by some calls. -/
def handedOut (returned : List Int) : List Int := returned.filter (0 ≤ ·)

/-- How many messages have been handed out. -/
def MsgSession.handed (s : MsgSession) : Nat := (handedOut s.returned).length

/-- A head without what `save_msgtext` puts in it. -/
def Msghead.unplaced (head : Msghead) : Msghead := { head with pos := 0, len := 0 }

/-- The head with a number in an index leads to a message: the head that was saved,
and the text, cut to `MAX_MSG_SIZE - 1` bytes, whatever was in the buffers. -/
def LeadsTo (box : Msgbox) (id : Nat) (index : Int) (msg : Msghead × Msgtext) : Prop :=
  ∀ (head : Msghead) (msgbuf : List UInt8),
    (loadMsghead id box head index).1 = 0 ∧
      (loadMsghead id box head index).2.unplaced = msg.1.unplaced ∧
      loadMsgtext box (loadMsghead id box head index).2 msgbuf =
        (0, msg.2.bytes.take (maxMsgSize - 1))

/-- What the box should be to its user. -/
structure MsgSession.Faithful (s : MsgSession) : Prop where
  /-- The `k`-th message is read back with index 0. -/
  all : ∀ (k : Nat) (hk : k < s.saved.length), LeadsTo s.box 0 k s.saved[k]
  /-- Index 1 holds the received messages ... -/
  incoming : ∀ (k : Nat) (hk : k < (received s.saved).length),
    LeadsTo s.box 1 k (received s.saved)[k]
  /-- ... and no other. -/
  noOther : ∀ (index : Int) (head : Msghead), index < 0 ∨ (received s.saved).length ≤ index →
    (loadMsghead 1 s.box head index).1 = -1
  /-- What has been handed out is 0, 1, 2, ... -/
  inOrder : handedOut s.returned = (List.range s.handed).map Int.ofNat
  /-- The others are unread. -/
  unread : getUnreadcount s.box = (received s.saved).length - s.handed
  /-- The next one is handed out next, and -1 when there is none. -/
  next : (getUnreadmsg s.box).2 =
    if s.handed < (received s.saved).length then (s.handed : Int) else -1

/-- The steps that keep the box: a message is saved while the texts and the heads are
counted by an `int`, and one is asked for when some have been received. -/
def KeepsBox (s : MsgSession) : MsgOp → Prop
  | .save _ text =>
      text.bytes.length + 1 < 2 ^ 31 ∧ (s.box.msgcontent.getD []).length < 2 ^ 31 ∧
        s.saved.length + 1 < 2 ^ 31
  | .getUnreadmsg => received s.saved ≠ []
  | .getUnreadcount => True

instance (s : MsgSession) (op : MsgOp) : Decidable (KeepsBox s op) := by
  cases op with
  | save _ text =>
      exact inferInstanceAs (Decidable (text.bytes.length + 1 < 2 ^ 31 ∧
        (s.box.msgcontent.getD []).length < 2 ^ 31 ∧ s.saved.length + 1 < 2 ^ 31))
  | getUnreadmsg =>
      exact inferInstanceAs (Decidable (received s.saved ≠ []))
  | getUnreadcount => exact inferInstanceAs (Decidable True)

/-! ## Where the messages are -/

/-- The bytes that are kept of a text. -/
def stored (text : Msgtext) : List UInt8 := (text.bytes ++ [0]).take (maxMsgSize - 1)

/-- The messages, with the heads that `save_msgtext` makes of them when the first
text goes to a position. -/
def placed (pos : Nat) : List (Msghead × Msgtext) → List (Msghead × Msgtext)
  | [] => []
  | (head, text) :: msgs =>
      ({ head with pos := pos, len := (stored text).length }, text) ::
        placed (pos + (stored text).length) msgs

/-- A counter and some heads. -/
def indexBytes (counter : Nat) (heads : List Msghead) : List UInt8 :=
  leBytes 4 counter ++ heads.flatMap Msghead.bytes

/-- An index that `save_msgtext` has made for some messages. -/
def indexFile (counter : Nat) (msgs : List (Msghead × Msgtext)) : List UInt8 :=
  if msgs = [] then [] else indexBytes counter (msgs.map Prod.fst)

/-- The contents of `msgcontent`. -/
def contents (msgs : List (Msghead × Msgtext)) : List UInt8 := msgs.flatMap fun m => stored m.2

theorem length_msghead_bytes (head : Msghead) : head.bytes.length = sizeofMsghead := by
  simp [Msghead.bytes, sizeofMsghead]

theorem ofFn_getD_toList {n : Nat} (v : Vector UInt8 n) (rest : List UInt8) :
    (Vector.ofFn fun i : Fin n => (v.toList ++ rest).getD i 0) = v := by
  ext i hi
  simp [List.getD_eq_getElem?_getD, List.getElem?_append_left]

/-- A head is read back from memory, when its position and length are `int`s. -/
theorem ofBytes_bytes {head : Msghead} (hpos : 0 ≤ head.pos ∧ head.pos < 2 ^ 31)
    (hlen : 0 ≤ head.len ∧ head.len < 2 ^ 31) : Msghead.ofBytes head.bytes = head := by
  obtain ⟨pos, len, sent, mode, id, time, frompid, topid⟩ := head
  simp only at hpos hlen
  have hword : ∀ (k n : Nat) (rest : List UInt8),
      (leBytes k n ++ rest).take k = leBytes k n ∧ (leBytes k n ++ rest).drop k = rest :=
    fun k n rest => ⟨List.take_left' (length_leBytes k n), List.drop_left' (length_leBytes k n)⟩
  have hid : ∀ rest, (id.toList ++ rest).drop 14 = rest := fun rest => List.drop_left' (by simp)
  have htime : time.toNat < 256 ^ 8 := time.toNat_lt
  have hfrompid : frompid.toNat < 256 ^ 4 := frompid.toNat_lt
  have htopid : topid.toNat < 256 ^ 4 := topid.toNat_lt
  have hlast := (hword 4 topid.toNat []).1
  rw [List.append_nil] at hlast
  simp only [Msghead.bytes, Msghead.ofBytes, hword, hid, hlast, leNat_leBytes, List.drop_succ_cons,
    List.drop_zero, List.getD_cons_zero, List.getD_cons_succ, ofFn_getD_toList]
  rw [Nat.mod_eq_of_lt (wrap_lt 4 pos), Nat.mod_eq_of_lt (wrap_lt 4 len),
    Nat.mod_eq_of_lt htime, Nat.mod_eq_of_lt hfrompid, Nat.mod_eq_of_lt htopid,
    signed_wrap (by omega) (by omega), signed_wrap (by omega) (by omega), UInt64.ofNat_toNat,
    UInt32.ofNat_toNat, UInt32.ofNat_toNat]

theorem length_stored (text : Msgtext) :
    (stored text).length = min (maxMsgSize - 1) (text.bytes.length + 1) := by
  simp [stored]

theorem contents_append (msgs : List (Msghead × Msgtext)) (m : Msghead × Msgtext) :
    contents (msgs ++ [m]) = contents msgs ++ stored m.2 := by
  simp [contents]

theorem placed_append (pos : Nat) (msgs : List (Msghead × Msgtext)) (head : Msghead)
    (text : Msgtext) :
    placed pos (msgs ++ [(head, text)]) =
      placed pos msgs ++
        [({ head with pos := (pos + (contents msgs).length : Nat), len := (stored text).length },
          text)] := by
  induction msgs generalizing pos with
  | nil => rfl
  | cons m msgs ih =>
      obtain ⟨h, t⟩ := m
      simp only [List.cons_append, placed, ih, contents, List.flatMap_cons, List.length_append,
        Nat.add_assoc]

theorem length_placed (pos : Nat) (msgs : List (Msghead × Msgtext)) :
    (placed pos msgs).length = msgs.length := by
  induction msgs generalizing pos with
  | nil => rfl
  | cons m msgs ih => rw [placed, List.length_cons, ih, List.length_cons]

/-- What is kept of the messages when their heads are placed. -/
theorem placed_map (pos : Nat) (msgs : List (Msghead × Msgtext)) :
    (placed pos msgs).map (fun m => (m.1.unplaced, m.2)) =
      msgs.map fun m => (m.1.unplaced, m.2) := by
  induction msgs generalizing pos with
  | nil => rfl
  | cons m msgs ih =>
      rw [placed, List.map_cons, ih, List.map_cons]
      rfl

/-- Placing a head does not change which messages are received ones. -/
theorem received_placed_map (pos : Nat) (msgs : List (Msghead × Msgtext)) :
    (received (placed pos msgs)).map (fun m => (m.1.unplaced, m.2)) =
      (received msgs).map fun m => (m.1.unplaced, m.2) := by
  have hreceived : ∀ ms : List (Msghead × Msgtext),
      (received ms).map (fun m => (m.1.unplaced, m.2)) =
        received (ms.map fun m => (m.1.unplaced, m.2)) := by
    intro ms
    rw [received, received, List.filter_map]
    rfl
  rw [hreceived, placed_map, ← hreceived]

/-- A placed head gives the place of its text. -/
theorem placed_spec {pos : Nat} {msgs : List (Msghead × Msgtext)} {m : Msghead × Msgtext}
    (h : m ∈ placed pos msgs) :
    ∃ before after, contents msgs = before ++ stored m.2 ++ after ∧
      m.1.pos = (pos + before.length : Nat) ∧ m.1.len = (stored m.2).length := by
  induction msgs generalizing pos with
  | nil => contradiction
  | cons x msgs ih =>
      cases List.mem_cons.mp h with
      | inl heq =>
          subst heq
          exact ⟨[], contents msgs, by simp [contents], by simp, rfl⟩
      | inr hmem =>
          obtain ⟨before, after, hcontents, hpos, hlen⟩ := ih hmem
          refine ⟨stored x.2 ++ before, after, ?_, ?_, hlen⟩
          · simp [contents] at hcontents ⊢
            exact hcontents
          · rw [hpos, List.length_append, Nat.add_assoc]

/-! ## The index files -/

theorem headCount_eq {n : Nat} (h : n < 2 ^ 31) : headCount (n * sizeofMsghead + 4) = n := by
  have hdiv : (((n * sizeofMsghead + 4 : Nat) : Int) - 4) % 2 ^ 64 / sizeofMsghead = n := by
    unfold sizeofMsghead
    omega
  rw [headCount, hdiv, toInt_of_range (by omega) (by omega)]

variable {counter : Nat} {heads : List Msghead}

theorem length_indexBytes :
    (indexBytes counter heads).length = heads.length * sizeofMsghead + 4 := by
  rw [indexBytes, List.length_append, length_leBytes,
    length_flatMap_records length_msghead_bytes, Nat.add_comm]

theorem headCount_indexBytes (h : heads.length < 2 ^ 31) :
    headCount (indexBytes counter heads).length = heads.length := by
  rw [length_indexBytes, headCount_eq h]

theorem indexBytes_ne_nil : indexBytes counter heads ≠ [] := by
  intro hnil
  have hlen := @length_indexBytes counter heads
  rw [hnil, List.length_nil] at hlen
  omega

theorem not_length_indexBytes_le_zero : ¬ (indexBytes counter heads).length ≤ 0 := by
  rw [length_indexBytes]
  omega

theorem readCounter_indexBytes (h : counter < 2 ^ 31) :
    readCounter (indexBytes counter heads) = counter := by
  rw [readCounter, indexBytes, readAt_front (length_leBytes 4 counter), leNat_leBytes]
  rw [Nat.mod_eq_of_lt (by omega), signed, if_pos (by omega)]

/-- Handing out a message changes the counter. -/
theorem writeAt_counter (h : counter < 2 ^ 31) :
    writeAt (indexBytes counter heads) 0 (leBytes 4 (wrap 4 ((counter : Int) + 1))) =
      indexBytes (counter + 1) heads := by
  have hwrap : wrap 4 ((counter : Int) + 1) = counter + 1 := by
    unfold wrap
    omega
  rw [hwrap, indexBytes, indexBytes, writeAt_front (by simp)]

/-- A head goes behind the heads that are there. -/
theorem writeAt_heads (head : Msghead) :
    writeAt (indexBytes counter heads) (heads.length * sizeofMsghead + 4) head.bytes =
      indexBytes counter (heads ++ [head]) := by
  rw [writeAt_end length_indexBytes.symm, indexBytes, indexBytes]
  simp

/-- The offset of the head to come. -/
theorem seek_heads (old n : Nat) :
    seek old ((n : Int) * sizeofMsghead + 4) = n * sizeofMsghead + 4 :=
  seek_natCast old (n * sizeofMsghead + 4)

variable {msgs : List (Msghead × Msgtext)}

theorem indexFile_ne_nil (h : msgs ≠ []) :
    indexFile counter msgs = indexBytes counter (msgs.map Prod.fst) := if_neg h

theorem appendMsghead_indexFile (hzero : msgs = [] → counter = 0) (hlen : msgs.length < 2 ^ 31)
    (m : Msghead × Msgtext) :
    appendMsghead (indexFile counter msgs) m.1 = indexFile counter (msgs ++ [m]) := by
  rw [@indexFile_ne_nil counter (msgs ++ [m]) (by simp)]
  by_cases h : msgs = []
  · subst h
    rw [hzero rfl]
    rfl
  · have hcount := @headCount_indexBytes counter (msgs.map Prod.fst) (by simpa using hlen)
    rw [indexFile_ne_nil h]
    simp only [appendMsghead, not_length_indexBytes_le_zero, if_false]
    rw [hcount, seek_heads, writeAt_heads, List.map_append]
    rfl

/-! ## Reading back -/

theorem eq_some_of_getD {file : Option (List UInt8)} {bytes : List UInt8}
    (h : file.getD [] = bytes) (hne : bytes ≠ []) : file = some bytes := by
  cases file with
  | none => exact absurd h.symm hne
  | some f => exact congrArg some h

/-- An index with messages is there. -/
theorem eq_some_indexBytes {file : Option (List UInt8)} (h : file.getD [] = indexFile counter msgs)
    (hne : msgs ≠ []) : file = some (indexBytes counter (msgs.map Prod.fst)) := by
  rw [indexFile_ne_nil hne] at h
  exact eq_some_of_getD h indexBytes_ne_nil

variable {box : Msgbox} {id : Nat}

/-- The head at an index of the file. -/
theorem loadMsghead_eq (hfile : (box.index id).getD [] = indexFile counter msgs)
    (hlen : msgs.length < 2 ^ 31) {k : Nat} {m : Msghead × Msgtext} (hk : msgs[k]? = some m)
    (hpos : 0 ≤ m.1.pos ∧ m.1.pos < 2 ^ 31) (hsize : 0 ≤ m.1.len ∧ m.1.len < 2 ^ 31)
    (head : Msghead) : loadMsghead id box head k = (0, m.1) := by
  obtain ⟨hlt, -⟩ := List.getElem?_eq_some_iff.mp hk
  have hne : msgs ≠ [] := List.ne_nil_of_length_pos (Nat.zero_lt_of_lt hlt)
  have hread : readAt (indexBytes counter (msgs.map Prod.fst))
      (seek 0 ((k : Int) * sizeofMsghead + 4)) sizeofMsghead = m.1.bytes := by
    have hfour : 4 = (leBytes 4 counter).length := (length_leBytes 4 counter).symm
    rw [seek_heads, hfour]
    exact readAt_record length_msghead_bytes _ (by rw [List.getElem?_map, hk]; rfl)
  have hcount := @headCount_indexBytes counter (msgs.map Prod.fst) (by simpa using hlen)
  rw [List.length_map] at hcount
  have hinside : ¬ ((k : Int) < 0 ∨ (k : Int) ≥ msgs.length) := by omega
  simp only [loadMsghead, eq_some_indexBytes hfile hne, hcount, hinside, if_false, hread,
    length_msghead_bytes]
  rw [← length_msghead_bytes head, List.drop_length, List.append_nil, ofBytes_bytes hpos hsize]

/-- There is no other head, unless the file is there and empty. -/
theorem loadMsghead_outside (hfile : (box.index id).getD [] = indexFile counter msgs)
    (hempty : msgs = [] → box.index id = none) (hlen : msgs.length < 2 ^ 31) {index : Int}
    (hindex : index < 0 ∨ msgs.length ≤ index) (head : Msghead) :
    (loadMsghead id box head index).1 = -1 := by
  by_cases hne : msgs = []
  · simp only [loadMsghead, hempty hne]
  · have hcount := @headCount_indexBytes counter (msgs.map Prod.fst) (by simpa using hlen)
    rw [List.length_map] at hcount
    have houtside : index < 0 ∨ index ≥ msgs.length := by omega
    simp only [loadMsghead, eq_some_indexBytes hfile hne, hcount, houtside, if_true]

theorem cString_append {text : List UInt8} (h : 0 ∉ text) (rest : List UInt8) :
    cString (text ++ 0 :: rest) = text := by
  induction text with
  | nil => rfl
  | cons c text ih =>
      simp only [List.mem_cons, not_or] at h
      have hc : c ≠ 0 := fun hc => h.1 hc.symm
      have ih := ih h.2
      simp only [cString] at ih ⊢
      rw [List.cons_append, List.takeWhile_cons_of_pos (by simpa using hc), ih]

/-- What is kept of a text, with the NUL that `load_msgtext` adds. -/
theorem cString_stored (text : Msgtext) :
    cString (stored text ++ [0]) = text.bytes.take (maxMsgSize - 1) := by
  by_cases h : maxMsgSize - 1 ≤ text.bytes.length
  · rw [stored, List.take_append_of_le_length h]
    exact cString_append (fun hmem => text.nz (List.mem_of_mem_take hmem)) []
  · have hwhole : stored text = text.bytes ++ [0] := by
      rw [stored, List.take_of_length_le]
      simp only [List.length_append, List.length_singleton]
      omega
    rw [hwhole, List.append_assoc, List.take_of_length_le (by omega)]
    exact cString_append text.nz [0]

/-- The text that a placed head leads to. -/
theorem loadMsgtext_eq (hcontent : box.msgcontent.getD [] = contents msgs)
    {m : Msghead × Msgtext} (hm : m ∈ placed 0 msgs) (msgbuf : List UInt8) :
    loadMsgtext box m.1 msgbuf = (0, m.2.bytes.take (maxMsgSize - 1)) := by
  obtain ⟨before, after, hsplit, hpos, hlen⟩ := placed_spec hm
  have hlength := length_stored m.2
  have hne : contents msgs ≠ [] := by
    intro hnil
    have hall := congrArg List.length hsplit
    rw [hnil] at hall
    simp only [List.length_append, List.length_nil] at hall
    simp only [maxMsgSize] at hlength
    omega
  have hread : readAt (contents msgs) (seek 0 m.1.pos) m.1.len.toNat = stored m.2 := by
    rw [hpos, seek_natCast, Nat.zero_add, hlen, Int.toNat_natCast, hsplit]
    exact readAt_append rfl rfl after
  have hsmall : ¬ m.1.len ≥ (maxMsgSize : Int) := by
    rw [hlen]
    simp only [maxMsgSize] at hlength ⊢
    omega
  have hi : m.1.len.toNat = (stored m.2).length := by rw [hlen, Int.toNat_natCast]
  simp only [loadMsgtext, eq_some_of_getD hcontent hne, hsmall, if_false, hread]
  rw [hi, Nat.sub_self, List.take_zero, List.append_nil, cString_stored]

/-! ## The invariant -/

/-- The files hold the messages that were saved, and the counter those that were
handed out. -/
structure MsgSession.Inv (s : MsgSession) : Prop where
  index : s.box.msgindex.getD [] = indexFile 0 (placed 0 s.saved)
  index2 : s.box.msgindex2.getD [] = indexFile s.handed (received (placed 0 s.saved))
  content : s.box.msgcontent.getD [] = contents s.saved
  notEmpty : received s.saved = [] → s.box.msgindex2 = none
  handed_le : s.handed ≤ (received s.saved).length
  inOrder : handedOut s.returned = (List.range s.handed).map Int.ofNat
  count : s.saved.length < 2 ^ 31
  positions : ∀ m ∈ placed 0 s.saved, m.1.pos < 2 ^ 31

theorem MsgSession.start_inv : MsgSession.start.Inv where
  index := rfl
  index2 := rfl
  content := rfl
  notEmpty _ := rfl
  handed_le := Nat.le_refl 0
  inOrder := rfl
  count := by decide
  positions _ h := absurd h List.not_mem_nil

variable {s s' : MsgSession}

theorem length_received_placed (pos : Nat) (msgs : List (Msghead × Msgtext)) :
    (received (placed pos msgs)).length = (received msgs).length := by
  have h := congrArg List.length (received_placed_map pos msgs)
  rwa [List.length_map, List.length_map] at h

theorem length_received_le (msgs : List (Msghead × Msgtext)) :
    (received msgs).length ≤ msgs.length := List.length_filter_le _ msgs

theorem received_placed_eq_nil {msgs : List (Msghead × Msgtext)}
    (h : received (placed 0 msgs) = []) : received msgs = [] := by
  rw [← List.length_eq_zero_iff, ← length_received_placed 0, h, List.length_nil]

/-- What `save_msgtext` does to the files. -/
theorem saveMsgtext_eq {head : Msghead} {text : Msgtext} {box : Msgbox}
    (htext : text.bytes.length + 1 < 2 ^ 31) (hsize : (box.msgcontent.getD []).length < 2 ^ 31) :
    saveMsgtext head text.bytes box =
      let placedHead : Msghead :=
        { head with pos := (box.msgcontent.getD []).length, len := (stored text).length }
      { msgindex := some (appendMsghead (box.msgindex.getD []) placedHead)
        msgcontent := some (box.msgcontent.getD [] ++ stored text)
        msgindex2 :=
          if head.sent = 0 then some (appendMsghead (box.msgindex2.getD []) placedHead)
          else box.msgindex2 } := by
  have hlength := length_stored text
  have hi : (if toInt (text.bytes.length + 1) ≥ maxMsgSize then (maxMsgSize : Int) - 1
      else toInt (text.bytes.length + 1)) = (stored text).length := by
    rw [toInt_of_range (by omega) (by omega)]
    unfold maxMsgSize at *
    by_cases hlong : (text.bytes.length : Int) + 1 ≥ (1024 : Nat)
    · rw [if_pos hlong]
      omega
    · rw [if_neg hlong]
      omega
  have htake : (text.bytes ++ [0]).take (stored text).length = stored text := by
    rw [hlength, stored, List.take_eq_take_iff]
    simp
  simp only [saveMsgtext, hi, toInt_of_range (Int.natCast_nonneg _) (Int.ofNat_lt.mpr hsize),
    Int.toNat_natCast, htake, seek_natCast, writeAt_end]

theorem received_append (msgs : List (Msghead × Msgtext)) (m : Msghead × Msgtext) :
    received (msgs ++ [m]) = if m.1.sent = 0 then received msgs ++ [m] else received msgs := by
  by_cases h : m.1.sent = 0
  · simp [received, List.filter_append, h]
  · simp [received, List.filter_append, h]

theorem save_inv (h : s.Inv) {head : Msghead} {text : Msgtext}
    (hok : KeepsBox s (.save head text)) (hstep : msgStep s (.save head text) = some s') :
    s'.Inv := by
  obtain ⟨htext, hsize, hcount⟩ := hok
  cases hstep
  have hplaced := placed_append 0 s.saved head text
  rw [Nat.zero_add, ← h.content] at hplaced
  have hhanded := h.handed_le
  have hlen2 := length_received_placed 0 s.saved
  have hall : (placed 0 s.saved).length < 2 ^ 31 := by
    rw [length_placed]
    exact h.count
  have hin : (received (placed 0 s.saved)).length < 2 ^ 31 :=
    Nat.lt_of_le_of_lt (length_received_le _) hall
  have hsaved := received_append s.saved (head, text)
  rw [saveMsgtext_eq htext hsize]
  have hpos : ({ head with pos := (s.box.msgcontent.getD []).length, len := (stored text).length } :
      Msghead).pos < 2 ^ 31 := Int.ofNat_lt.mpr hsize
  have hsent : ({ head with pos := (s.box.msgcontent.getD []).length, len := (stored text).length } :
      Msghead).sent = head.sent := rfl
  simp only
  generalize ({ head with pos := (s.box.msgcontent.getD []).length, len := (stored text).length } :
    Msghead) = placedHead at *
  constructor
  case index =>
    rw [Option.getD_some, h.index, hplaced]
    exact appendMsghead_indexFile (fun _ => rfl) hall (placedHead, text)
  case index2 =>
    rw [hplaced, received_append]
    simp only [hsent]
    by_cases hrec : head.sent = 0
    · have hzero : received (placed 0 s.saved) = [] → s.handed = 0 := by
        intro hnil
        rw [hnil, List.length_nil] at hlen2
        omega
      rw [if_pos hrec, if_pos hrec, Option.getD_some, h.index2]
      exact appendMsghead_indexFile hzero hin (placedHead, text)
    · rw [if_neg hrec, if_neg hrec]
      exact h.index2
  case content => rw [Option.getD_some, contents_append, h.content]
  case notEmpty =>
    intro hnil
    simp only [hsaved] at hnil
    by_cases hrec : head.sent = 0
    · rw [if_pos hrec] at hnil
      simp at hnil
    · rw [if_neg hrec] at hnil
      simp only [hrec, if_false]
      exact h.notEmpty hnil
  case handed_le =>
    simp only [hsaved]
    split
    · rw [List.length_append]
      exact Nat.le_add_right_of_le hhanded
    · exact hhanded
  case inOrder => exact h.inOrder
  case count =>
    rw [List.length_append]
    exact hcount
  case positions =>
    intro m hm
    simp only [hplaced, List.mem_append, List.mem_singleton] at hm
    cases hm with
    | inl hm => exact h.positions m hm
    | inr hm =>
        subst hm
        exact hpos

section Calls

variable {box : Msgbox} {msgs : List (Msghead × Msgtext)} {counter : Nat}

/-- What `get_unreadmsg` does to the index. -/
theorem getUnreadmsg_eq (hfile : box.msgindex2.getD [] = indexFile counter msgs) (hne : msgs ≠ [])
    (hlen : msgs.length < 2 ^ 31) (hcounter : counter ≤ msgs.length) :
    getUnreadmsg box =
      if counter < msgs.length then
        ({ box with msgindex2 := some (indexFile (counter + 1) msgs) }, (counter : Int))
      else ({ box with msgindex2 := some (indexFile counter msgs) }, -1) := by
  have hread := @readCounter_indexBytes counter (msgs.map Prod.fst) (by omega)
  have hcount := @headCount_indexBytes counter (msgs.map Prod.fst) (by simpa using hlen)
  rw [List.length_map] at hcount
  rw [indexFile_ne_nil hne] at hfile
  rw [indexFile_ne_nil hne, indexFile_ne_nil hne]
  simp only [getUnreadmsg, hfile, not_length_indexBytes_le_zero, if_false, hread, hcount]
  by_cases hlt : counter < msgs.length
  · rw [if_neg (by omega), if_pos hlt, writeAt_counter (by omega)]
  · rw [if_pos (by omega), if_neg hlt]

/-- What `get_unreadcount` returns. -/
theorem getUnreadcount_eq (hfile : box.msgindex2.getD [] = indexFile counter msgs)
    (hlen : msgs.length < 2 ^ 31) (hcounter : counter ≤ msgs.length) :
    getUnreadcount box = msgs.length - counter := by
  by_cases hne : msgs = []
  · have hzero : (msgs.length : Int) - counter = 0 := by
      rw [hne, List.length_nil] at hcounter ⊢
      omega
    have hempty : box.msgindex2.getD [] = [] := by
      rw [hfile, hne]
      rfl
    rw [hzero]
    unfold getUnreadcount
    cases hnone : box.msgindex2 with
    | none => rfl
    | some file =>
        rw [hnone, Option.getD_some] at hempty
        subst hempty
        rfl
  · have hread := @readCounter_indexBytes counter (msgs.map Prod.fst) (by omega)
    have hcount := @headCount_indexBytes counter (msgs.map Prod.fst) (by simpa using hlen)
    rw [List.length_map] at hcount
    simp only [getUnreadcount, eq_some_indexBytes hfile hne, not_length_indexBytes_le_zero,
      if_false, hread, hcount]
    split <;> omega

end Calls

theorem getUnreadmsg_empty {box : Msgbox} (hfile : box.msgindex2.getD [] = []) :
    getUnreadmsg box = ({ box with msgindex2 := some [] }, -1) := by
  simp [getUnreadmsg, hfile]

theorem handedOut_append_natCast (returned : List Int) (n : Nat) :
    handedOut (returned ++ [(n : Int)]) = handedOut returned ++ [(n : Int)] := by
  simp [handedOut, List.filter_append]

theorem handedOut_append_minus_one (returned : List Int) :
    handedOut (returned ++ [-1]) = handedOut returned := by
  simp [handedOut, List.filter_append]

theorem getUnreadmsg_inv (h : s.Inv) (hok : KeepsBox s .getUnreadmsg)
    (hstep : msgStep s .getUnreadmsg = some s') : s'.Inv := by
  have hlen2 := length_received_placed 0 s.saved
  have hne : received (placed 0 s.saved) ≠ [] := fun hnil => hok (received_placed_eq_nil hnil)
  have hin : (received (placed 0 s.saved)).length < 2 ^ 31 := by
    have hle := length_received_le s.saved
    have hcount := h.count
    omega
  have hhanded : s.handed ≤ (received (placed 0 s.saved)).length := by
    rw [hlen2]
    exact h.handed_le
  simp only [msgStep, getUnreadmsg_eq h.index2 hne hin hhanded] at hstep
  by_cases hlt : s.handed < (received (placed 0 s.saved)).length
  · simp only [hlt, if_true, Option.some.injEq] at hstep
    have hmore : handedOut s'.returned = handedOut s.returned ++ [(s.handed : Int)] := by
      rw [← hstep, handedOut_append_natCast]
    have hnext : s'.handed = s.handed + 1 := by
      rw [MsgSession.handed, hmore, List.length_append]
      rfl
    have hsaved : s'.saved = s.saved := by rw [← hstep]
    constructor
    case index =>
      rw [← hstep]
      exact h.index
    case index2 =>
      rw [hsaved, hnext, ← hstep]
      rfl
    case content =>
      rw [← hstep]
      exact h.content
    case notEmpty => exact fun hnil => absurd (hsaved ▸ hnil) hok
    case handed_le =>
      rw [hsaved, hnext, ← hlen2]
      exact hlt
    case inOrder =>
      rw [hnext, hmore, h.inOrder, List.range_succ, List.map_append]
      rfl
    case count => exact hsaved ▸ h.count
    case positions => exact hsaved ▸ h.positions
  · simp only [hlt, if_false, Option.some.injEq] at hstep
    have hsame : handedOut s'.returned = handedOut s.returned := by
      rw [← hstep, handedOut_append_minus_one]
    have hnext : s'.handed = s.handed := by rw [MsgSession.handed, hsame, MsgSession.handed]
    have hsaved : s'.saved = s.saved := by rw [← hstep]
    constructor
    case index =>
      rw [← hstep]
      exact h.index
    case index2 =>
      rw [hsaved, hnext, ← hstep]
      rfl
    case content =>
      rw [← hstep]
      exact h.content
    case notEmpty => exact fun hnil => absurd (hsaved ▸ hnil) hok
    case handed_le =>
      rw [hsaved, hnext]
      exact h.handed_le
    case inOrder => rw [hnext, hsame, h.inOrder]
    case count => exact hsaved ▸ h.count
    case positions => exact hsaved ▸ h.positions

theorem msgStep_inv (h : s.Inv) {op : MsgOp} (hok : KeepsBox s op)
    (hstep : msgStep s op = some s') : s'.Inv := by
  cases op with
  | save head text => exact save_inv h hok hstep
  | getUnreadmsg => exact getUnreadmsg_inv h hok hstep
  | getUnreadcount =>
      cases hstep
      exact h

/-! ## What the user sees -/

/-- A placed head in an index leads to the message it was made from. -/
theorem leadsTo_placed (h : s.Inv) {id counter : Nat} {msgs orig : List (Msghead × Msgtext)}
    (hfile : (s.box.index id).getD [] = indexFile counter msgs) (hlen : msgs.length < 2 ^ 31)
    (hsub : ∀ m ∈ msgs, m ∈ placed 0 s.saved)
    (hmap : msgs.map (fun m => (m.1.unplaced, m.2)) = orig.map fun m => (m.1.unplaced, m.2))
    {k : Nat} (hk : k < orig.length) : LeadsTo s.box id k orig[k] := by
  have hk' : k < msgs.length := by
    have hlength := congrArg List.length hmap
    rw [List.length_map, List.length_map] at hlength
    omega
  have hmem := hsub _ (List.getElem_mem hk')
  obtain ⟨before, after, -, hpos, hsize⟩ := placed_spec hmem
  have hpos31 := h.positions _ hmem
  have hstored := length_stored msgs[k].2
  have hpair : (msgs[k].1.unplaced, msgs[k].2) = (orig[k].1.unplaced, orig[k].2) := by
    have hget := congrArg (·[k]?) hmap
    simpa [hk, hk'] using hget
  obtain ⟨hunplaced, htext⟩ := Prod.mk.inj hpair
  intro head msgbuf
  have hload := loadMsghead_eq hfile hlen (List.getElem?_eq_getElem hk') (by omega)
    (by unfold maxMsgSize at hstored; omega) head
  rw [hload]
  exact ⟨rfl, hunplaced, htext ▸ loadMsgtext_eq h.content hmem msgbuf⟩

theorem MsgSession.Inv.faithful (h : s.Inv) : s.Faithful := by
  have hcount := h.count
  have hall : (placed 0 s.saved).length < 2 ^ 31 := by rwa [length_placed]
  have hlen2 := length_received_placed 0 s.saved
  have hin : (received (placed 0 s.saved)).length < 2 ^ 31 :=
    Nat.lt_of_le_of_lt (length_received_le _) hall
  have hhanded : s.handed ≤ (received (placed 0 s.saved)).length := by
    rw [hlen2]
    exact h.handed_le
  have hindex : (s.box.index 0).getD [] = indexFile 0 (placed 0 s.saved) := h.index
  have hindex2 : (s.box.index 1).getD [] = indexFile s.handed (received (placed 0 s.saved)) :=
    h.index2
  have hnone : received (placed 0 s.saved) = [] → s.box.index 1 = none :=
    fun hnil => h.notEmpty (received_placed_eq_nil hnil)
  constructor
  case all =>
    intro k hk
    exact leadsTo_placed h hindex hall (fun _ hm => hm) (placed_map 0 s.saved) hk
  case incoming =>
    intro k hk
    exact leadsTo_placed h hindex2 hin (fun _ hm => List.mem_of_mem_filter hm)
      (received_placed_map 0 s.saved) hk
  case noOther =>
    intro index head hindex
    exact loadMsghead_outside hindex2 hnone hin (by rwa [hlen2]) head
  case inOrder => exact h.inOrder
  case unread => rw [getUnreadcount_eq h.index2 hin hhanded, hlen2]
  case next =>
    by_cases hne : received (placed 0 s.saved) = []
    · have hfile := h.index2
      rw [hne] at hfile hlen2
      have hzero : ¬ s.handed < (received s.saved).length := by
        rw [← hlen2]
        exact Nat.not_lt_zero _
      rw [getUnreadmsg_empty hfile, if_neg hzero]
    · rw [getUnreadmsg_eq h.index2 hne hin hhanded, hlen2]
      split <;> rfl

/-- A head with an id and nothing else. -/
def headFrom (sent : UInt8) : Msghead := ⟨0, 0, sent, 0, Vector.replicate 14 0, 0, 0, 0⟩

/-- `"hi"`. -/
def textHi : Msgtext := ⟨[104, 105], by decide⟩

end Ytht
