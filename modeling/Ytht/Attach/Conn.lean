import Ytht.Attach.Append
import Ytht.Lib.Drain
import Ytht.Pop3.Session

/-!
# Attach.Conn

The attachment server: from a request for a position in an article to the bytes that
leave through the socket, one `write` at a time.

A step is `none` when it reads outside the article.  `attachments_run` says what is
answered with its bytes, and for which articles and positions no byte outside the
attachment leaves and none outside the article is read.

The parsing of the request and the look-ups it causes are left out, as are the dates in
the headers; a `Request` holds what they give.
-/

namespace Ytht

open Bytes Drain Runs

/-! ## The texts -/

def httpHeader : String := "HTTP/1.0 200 OK\nContent-type: "

/-- The tests of `get_mime_type`, in their order. -/
def mimeTypes : List (List String × String) :=
  [([".html", ".htm"], httpHeader ++ "text/html; charset=gb2312\r\n"),
    ([".jpg", ".jpeg"], httpHeader ++ "image/jpeg\r\n"),
    ([".bmp"], httpHeader ++ "image/bmp\r\n"),
    ([".gif"], httpHeader ++ "image/gif\r\n"),
    ([".png"], httpHeader ++ "image/png\r\n"),
    ([".pcx"], httpHeader ++ "image/pcx\r\n"),
    ([".css"], httpHeader ++ "text/css\r\n"),
    ([".au"], httpHeader ++ "audio/basic\r\n"),
    ([".wav"], httpHeader ++ "audio/wav\r\n"),
    ([".avi"], httpHeader ++ "video/x-msvideo\r\n"),
    ([".mov", ".qt"], httpHeader ++ "video/quicktime\r\n"),
    ([".mpeg", ".mpe"], httpHeader ++ "video/mpeg\r\n"),
    ([".vrml", ".wrl"], httpHeader ++ "model/vrml\r\n"),
    ([".midi", ".mid"], httpHeader ++ "audio/midi\r\n"),
    ([".mp3"], httpHeader ++ "audio/mpeg\r\n"),
    ([".pac"], httpHeader ++ "application/x-ns-proxy-autoconfig\r\n"),
    ([".txt"], httpHeader ++ "text/plain; charset=gb2312\r\n"),
    ([".xht", ".xhtml"], httpHeader ++ "application/xhtml+xml\r\n"),
    -- this one comes without the status line
    ([".xml"], "text/xml\r\n"),
    ([".swf"], httpHeader ++ "application/x-shockwave-flash\r\n")]

/-- `strrchr`. -/
def strrchr (s : List UInt8) (ch : UInt8) : Option (List UInt8) :=
  if ch ∈ s then some (ch :: (s.reverse.takeWhile (· != ch)).reverse) else none

/-- `get_mime_type`. -/
def getMimeType (name : List UInt8) : List UInt8 :=
  match strrchr name 46 with
  | none => ascii (httpHeader ++ "text/plain; charset=gb2312\r\n")
  | some dot =>
      match mimeTypes.find? fun t => t.1.any fun ext => strcasecmp dot (ascii ext) with
      | none => ascii (httpHeader ++ "application/octet-stream\r\n")
      | some t => ascii t.2

/-- `get_error_type`, whatever the number. -/
def getErrorType : List UInt8 := ascii "HTTP/1.1 404 Not Found\r\n"

/-! ## Connections -/

/-- The states of a connection; `closed` is the place that `rmconn` has left. -/
inductive ConnState
  | awaitingRequest
  | sendingHeader
  | sendingData
  | sendingCacheHeader
  | sendingCacheHeader304
  | sendingErrorHeader
  | closed
  deriving DecidableEq

/-- `conn_t`, and what its socket has taken. -/
structure Conn where
  state : ConnState
  mf : List UInt8
  pos : Int
  wsize : Int
  size : Int
  /-- `head`, `hlen` and `hoff` -/
  head : Pending UInt8
  /-- `cache_header`, `chlen` and `choff` -/
  cacheHeader : Pending UInt8
  sent : List UInt8

/-- `mkconn`. -/
def mkconn : Conn := ⟨.awaitingRequest, [], 0, 0, 0, .start [], .start [], []⟩

def Conn.goto (c : Conn) (state : ConnState) : Conn := { c with state := state }

/-- `rmconn`. -/
def Conn.close (c : Conn) : Conn := c.goto .closed

/-- What the server finds out about a request. -/
structure Request where
  /-- It has two words, and `getreqattachinfo` finds the board and the article. -/
  found : Bool
  /-- `HTTP/1.` -/
  enhanced : Bool
  /-- The answer to a date that is not before the article's. -/
  notModified : Option (List UInt8)
  /-- The article, if it can be opened. -/
  article : Option (List UInt8)
  posstr : List UInt8
  attachname : List UInt8
  /-- The text of `write_cache_header`. -/
  cacheHeader : List UInt8

/-- The answer 404. -/
def Conn.refuse (c : Conn) : Conn :=
  { c with state := .sendingErrorHeader, head := .start getErrorType }

/-- The end of `getreq`, with the article mapped.  The first test is made with unsigned
numbers, and so is the second, on a sum that may have wrapped. -/
def getreqMapped (c : Conn) (r : Request) : Option Conn :=
  if c.pos < 1 ∨ (wrap 4 (c.mf.length - 4) : Int) ≤ c.pos then some c.refuse
  else
    match c.mf[(c.pos - 1).toNat]? with
    | none => none
    | some ch =>
        if ch ≠ 0 then some c.refuse
        else if (c.mf.length : Int) < c.pos + 4 then none
        else
          let size := toInt (ntohl (c.mf.drop c.pos.toNat))
          if c.mf.length ≤ wrap 4 (c.pos + 4 + size) then some { c with size := size }.refuse
          else if r.enhanced then
            some { c with
              size := size
              state := .sendingHeader
              head := .start (getMimeType r.attachname)
              cacheHeader := .start r.cacheHeader }
          else some { c with size := size, state := .sendingData }

/-- `getreq`. -/
def getreq (c : Conn) (r : Request) : Option Conn :=
  if r.found = false then some c.refuse
  else
    match r.notModified with
    | some text =>
        some { c with state := .sendingCacheHeader304, cacheHeader := .start text }
    | none =>
        match r.article.bind mmapfile with
        | none => some c.refuse
        | some mf => getreqMapped { c with mf := mf, pos := atoi r.posstr } r

/-! ## Sending -/

/-- What `l_write` returns when the socket can be written: the number of bytes it has
taken, up to `n`, or the errors that are told apart. -/
inductive LWriteResult
  | wrote (n : Nat)
  | wouldBlock
  | intr
  | failed

/-- One round of the server: the socket can be written, or the connection has been quiet
for more than 30 seconds. -/
inductive SockEvent
  | writable (res : LWriteResult)
  | idle

/-- The two texts of a connection. -/
inductive TextField
  | head
  | cacheHeader

def Conn.text (c : Conn) : TextField → Pending UInt8
  | .head => c.head
  | .cacheHeader => c.cacheHeader

def Conn.setText (c : Conn) (p : Pending UInt8) : TextField → Conn
  | .head => { c with head := p }
  | .cacheHeader => { c with cacheHeader := p }

/-- The functions that send a text: an interrupted write is made again, and after the last
byte the connection goes to `next`. -/
def sendText (f : TextField) (next : ConnState) (c : Conn) : LWriteResult → Conn
  | .wrote n =>
      let c' := c.setText ((c.text f).advance n) f
      { c' with
        sent := c.sent ++ (c.text f).rest.take n
        state := if (c'.text f).rest = [] then next else c.state }
  | .wouldBlock | .intr => c
  | .failed => c.close

def sendhdr : Conn → LWriteResult → Conn := sendText .head .sendingCacheHeader

def sendcachehdr304 : Conn → LWriteResult → Conn := sendText .cacheHeader .closed

def senderrorhdr : Conn → LWriteResult → Conn := sendText .head .closed

def sendcachehdr : Conn → LWriteResult → Conn := sendText .cacheHeader .sendingData

def BLOCK_SIZE : Int := 16384

/-- `senddata`.  `write` takes a count of type `size_t`.  What it does with one that has no
place in `ssize_t` is the system's: some refuse it, with `EINVAL`. -/
def senddata (einval : Bool) (c : Conn) (res : LWriteResult) : Option Conn :=
  let sz := min BLOCK_SIZE (c.size - c.wsize)
  if sz = 0 then some c.close
  else if einval = true ∧ 2 ^ 31 ≤ wrap 4 sz then some c.close
  else if (c.mf.length : Int) < c.pos + 4 + c.wsize + wrap 4 sz then none
  else
    match res with
    | .wrote n =>
        let bs := min n (wrap 4 sz)
        some { c with
          wsize := c.wsize + bs
          sent := c.sent ++ (c.mf.drop (c.pos + 4 + c.wsize).toNat).take bs }
    | .wouldBlock => some c
    | .intr | .failed => some c.close

/-- `conn_upkeep`, for a connection that has its request. -/
def connUpkeep (einval : Bool) (c : Conn) (res : LWriteResult) : Option Conn :=
  match c.state with
  | .sendingHeader => some (sendhdr c res)
  | .sendingData => senddata einval c res
  | .sendingCacheHeader => some (sendcachehdr c res)
  | .sendingCacheHeader304 => some (sendcachehdr304 c res)
  | .sendingErrorHeader => some (senderrorhdr c res)
  | .awaitingRequest | .closed => some c

/-- One round: `conn_upkeep`, or the end by `conn_cullselect`. -/
def connRound (einval : Bool) (c : Conn) : SockEvent → Option Conn
  | .writable res => connUpkeep einval c res
  | .idle => some c.close

/-- The request, and then what the socket does. -/
def serve (einval : Bool) (r : Request) (es : List SockEvent) : Option Conn :=
  (getreq mkconn r).bind fun c => exec (connRound einval) c es

/-! ## What is still to be sent -/

/-- The part of the attachment that has not been sent. -/
def Conn.data (c : Conn) : List UInt8 :=
  (c.mf.drop (c.pos + 4 + c.wsize).toNat).take (c.size - c.wsize).toNat

/-- What a connection would send if the socket took everything. -/
def Conn.rest (c : Conn) : List UInt8 :=
  match c.state with
  | .sendingHeader => c.head.rest ++ (c.cacheHeader.rest ++ c.data)
  | .sendingCacheHeader => c.cacheHeader.rest ++ c.data
  | .sendingData => c.data
  | .sendingCacheHeader304 => c.cacheHeader.rest
  | .sendingErrorHeader => c.head.rest
  | .awaitingRequest | .closed => []

/-- The bytes to be sent and the changes of state to be made. -/
def Conn.work (c : Conn) : Nat :=
  match c.state with
  | .sendingHeader => c.rest.length + 3
  | .sendingCacheHeader => c.rest.length + 2
  | .sendingData | .sendingCacheHeader304 | .sendingErrorHeader => c.rest.length + 1
  | .awaitingRequest | .closed => 0

/-- The attachment lies inside the mapped article. -/
structure InMap (mf : List UInt8) (pos wsize size : Int) : Prop where
  pos_nonneg : 0 ≤ pos
  wsize_nonneg : 0 ≤ wsize
  wsize_le : wsize ≤ size
  fits : pos + 4 + size ≤ mf.length
  mf_lt : mf.length < 2 ^ 31

/-- A write of the attachment finds its bytes, or has a count that is refused. -/
def Conn.Backed (einval : Bool) (c : Conn) : Prop :=
  InMap c.mf c.pos c.wsize c.size ∨
    einval = true ∧ -(2 ^ 31) ≤ c.size ∧ c.size < 0 ∧ c.wsize = 0

def ConnState.serving : ConnState → Bool
  | .sendingHeader | .sendingCacheHeader | .sendingData => true
  | _ => false

/-- What every round keeps. -/
def Conn.Sound (einval : Bool) (c : Conn) : Prop :=
  c.state ≠ .awaitingRequest ∧ (c.state.serving = true → c.Backed einval)

/-- The socket takes something, or asks for another round. -/
def LWriteResult.Accepts : LWriteResult → Prop
  | .wrote _ | .wouldBlock => True
  | .intr | .failed => False

/-- The socket takes at least a byte. -/
def LWriteResult.takes : LWriteResult → Bool
  | .wrote n => 0 < n
  | _ => false

/-- What one call leaves of the work: all that is sent and to be sent stays the same, and
the work gets less when the socket takes a byte. -/
structure Progress (c c' : Conn) (res : LWriteResult) : Prop where
  whole : c'.sent ++ c'.rest = c.sent ++ c.rest
  work_le : c'.work ≤ c.work - if res.takes then 1 else 0

section

variable {einval : Bool} {c : Conn}

@[simp] theorem Conn.rest_close (c : Conn) : c.close.rest = [] := rfl

@[simp] theorem Conn.sent_close (c : Conn) : c.close.sent = c.sent := rfl

theorem Conn.sound_close (c : Conn) : c.close.Sound einval := by
  simp [Sound, close, goto, ConnState.serving]

/-- A function that sends a text, in the state in which that is what `rest` begins with. -/
structure SendsText (f : TextField) (st next : ConnState) : Prop where
  rest_eq : ∀ c : Conn, c.state = st → c.rest = (c.text f).rest ++ (c.goto next).rest
  work_eq : ∀ c : Conn, c.state = st → c.work = (c.text f).rest.length + 1 + (c.goto next).work
  rest_setText : ∀ (c : Conn) p, ((c.setText p f).goto next).rest = (c.goto next).rest
  work_setText : ∀ (c : Conn) p, ((c.setText p f).goto next).work = (c.goto next).work

theorem sendsText_header : SendsText .head .sendingHeader .sendingCacheHeader where
  rest_eq c hst := by simp [Conn.rest, hst, Conn.text, Conn.goto, Conn.data]
  work_eq c hst := by
    simp [Conn.work, Conn.rest, hst, Conn.text, Conn.goto, Conn.data]
    omega
  rest_setText _ _ := rfl
  work_setText _ _ := rfl

theorem sendsText_cacheHeader : SendsText .cacheHeader .sendingCacheHeader .sendingData where
  rest_eq c hst := by simp [Conn.rest, hst, Conn.text, Conn.goto, Conn.data]
  work_eq c hst := by
    simp [Conn.work, Conn.rest, hst, Conn.text, Conn.goto, Conn.data]
    omega
  rest_setText _ _ := rfl
  work_setText _ _ := rfl

theorem sendsText_304 : SendsText .cacheHeader .sendingCacheHeader304 .closed where
  rest_eq c hst := by simp [Conn.rest, hst, Conn.text, Conn.goto]
  work_eq c hst := by simp [Conn.work, Conn.rest, hst, Conn.text, Conn.goto]
  rest_setText _ _ := rfl
  work_setText _ _ := rfl

theorem sendsText_error : SendsText .head .sendingErrorHeader .closed where
  rest_eq c hst := by simp [Conn.rest, hst, Conn.text, Conn.goto]
  work_eq c hst := by simp [Conn.work, Conn.rest, hst, Conn.text, Conn.goto]
  rest_setText _ _ := rfl
  work_setText _ _ := rfl

@[simp] theorem Conn.text_setText (c : Conn) (p : Pending UInt8) (f : TextField) :
    (c.setText p f).text f = p := by
  cases f <;> rfl

theorem SendsText.progress {f : TextField} {st next : ConnState} (h : SendsText f st next)
    (hst : c.state = st) {res : LWriteResult} (hres : res.Accepts) :
    Progress c (sendText f next c res) res := by
  cases res with
  | wrote n =>
      have hrest := h.rest_eq c hst
      have hwork := h.work_eq c hst
      have hrestSet := h.rest_setText c ((c.text f).advance n)
      have hworkSet := h.work_setText c ((c.text f).advance n)
      have hcut := List.take_append_drop n (c.text f).rest
      by_cases hdone : ((c.text f).advance n).rest = []
      · -- the text is gone, and the next state has the rest
        have hto : (sendText f next c (.wrote n)).rest = (c.goto next).rest ∧
            (sendText f next c (.wrote n)).work = (c.goto next).work := by
          simp only [sendText, Conn.text_setText, if_pos hdone]
          exact ⟨hrestSet, hworkSet⟩
        rw [Pending.rest_advance] at hdone
        rw [hdone, List.append_nil] at hcut
        constructor
        · rw [hto.1, hrest, sendText]
          simp only [hcut, List.append_assoc]
        · rw [hto.2, hwork]
          split <;> omega
      · have hstate : (sendText f next c (.wrote n)).state = st := by
          simp only [sendText, Conn.text_setText, if_neg hdone, hst]
        have hto : (sendText f next c (.wrote n)).rest =
            (c.text f).rest.drop n ++ (c.goto next).rest := by
          rw [h.rest_eq _ hstate, ← hrestSet, ← Pending.rest_advance]
          cases f <;> rfl
        have htoWork : (sendText f next c (.wrote n)).work =
            ((c.text f).rest.drop n).length + 1 + (c.goto next).work := by
          rw [h.work_eq _ hstate, ← hworkSet, ← Pending.rest_advance]
          cases f <;> rfl
        rw [Pending.rest_advance] at hdone
        constructor
        · rw [hto, hrest, sendText]
          simp only [List.append_assoc]
          rw [← List.append_assoc (List.take _ _), hcut]
        · have hpos : 0 < ((c.text f).rest.drop n).length := List.length_pos_iff.mpr hdone
          rw [htoWork, hwork]
          rw [List.length_drop] at hpos ⊢
          simp only [LWriteResult.takes, decide_eq_true_eq]
          split <;> omega
  | wouldBlock => exact ⟨rfl, by simp [sendText, LWriteResult.takes]⟩
  | intr => exact hres.elim
  | failed => exact hres.elim

/-- An error takes nothing back and sends nothing. -/
theorem sendText_prefix {f : TextField} {next : ConnState} {res : LWriteResult}
    (hres : ¬ res.Accepts) :
    (sendText f next c res).sent ++ (sendText f next c res).rest <+: c.sent ++ c.rest := by
  cases res with
  | wrote n => exact absurd trivial hres
  | wouldBlock => exact absurd trivial hres
  | intr => exact List.prefix_rfl
  | failed => simp [sendText]

theorem backed_sendText {f : TextField} {next : ConnState} {res : LWriteResult} :
    (sendText f next c res).Backed einval ↔ c.Backed einval := by
  cases res <;> cases f <;> exact Iff.rfl

/-- What a call does to a connection that keeps the invariant. -/
def Conn.StepsTo (einval : Bool) (c c' : Conn) (res : LWriteResult) : Prop :=
  c'.Sound einval ∧ c'.sent ++ c'.rest <+: c.sent ++ c.rest ∧ (res.Accepts → Progress c c' res)

theorem SendsText.steps {f : TextField} {st next : ConnState} (h : SendsText f st next)
    (hst : c.state = st) (hs : c.Sound einval) (hnext : next ≠ .awaitingRequest)
    (hserving : next.serving = true → st.serving = true) (res : LWriteResult) :
    c.StepsTo einval (sendText f next c res) res := by
  refine ⟨?_, ?_, h.progress hst⟩
  · have hstate : (sendText f next c res).state = next ∨
        (sendText f next c res).state = c.state ∨ (sendText f next c res).state = .closed := by
      cases res with
      | wrote n =>
          simp only [sendText]
          split_ifs <;> simp
      | wouldBlock => exact .inr (.inl rfl)
      | intr => exact .inr (.inl rfl)
      | failed => exact .inr (.inr rfl)
    rcases hstate with hstate | hstate | hstate
    · exact ⟨by rwa [hstate], fun hse =>
        backed_sendText.mpr (hs.2 (by rw [hst]; exact hserving (by rwa [hstate] at hse)))⟩
    · exact ⟨by rw [hstate]; exact hs.1, fun hse =>
        backed_sendText.mpr (hs.2 (by rwa [hstate] at hse))⟩
    · exact ⟨by rw [hstate]; simp, fun hse => by simp [hstate, ConnState.serving] at hse⟩
  · by_cases hres : res.Accepts
    · exact (h.progress hst hres).whole ▸ List.prefix_rfl
    · exact sendText_prefix hres

theorem cast_wrap_four (i : Int) : (wrap 4 i : Int) = i % 4294967296 := by
  rw [wrap, Int.toNat_of_nonneg (Int.emod_nonneg i (by decide))]
  rfl

/-- The attachment gives what is asked of it, and the connection ends when there is nothing
left. -/
theorem senddata_steps (hst : c.state = .sendingData) (hs : c.Sound einval) (res : LWriteResult) :
    ∃ c', senddata einval c res = some c' ∧ c.StepsTo einval c' res := by
  have hclosed : c.data = [] → c.StepsTo einval c.close res := by
    intro hdata
    have hrest : c.rest = [] := by simp [Conn.rest, hst, hdata]
    refine ⟨c.sound_close, by simp [hrest], fun _ => ⟨by simp [hrest], ?_⟩⟩
    exact Nat.zero_le _
  have hblk : BLOCK_SIZE = 16384 := rfl
  have hsz := cast_wrap_four (min BLOCK_SIZE (c.size - c.wsize))
  unfold senddata
  dsimp only
  rcases hs.2 (by rw [hst]; rfl) with ⟨hpos, hwsize, hle, hfits, hmf⟩ | ⟨he, hlo, hneg, hw⟩
  · by_cases hzero : min BLOCK_SIZE (c.size - c.wsize) = 0
    · rw [if_pos hzero]
      exact ⟨_, rfl, hclosed (by simp [Conn.data, show (c.size - c.wsize).toNat = 0 by omega])⟩
    · rw [if_neg hzero, if_neg (by omega), if_neg (by omega)]
      have hblock : wrap 4 (min BLOCK_SIZE (c.size - c.wsize)) ≤ (c.size - c.wsize).toNat := by omega
      have hone : 0 < wrap 4 (min BLOCK_SIZE (c.size - c.wsize)) := by omega
      generalize wrap 4 (min BLOCK_SIZE (c.size - c.wsize)) = sz at hblock hone ⊢
      cases res with
      | wrote n =>
          -- the block that leaves is what the rest of the attachment begins with
          have hfront : (c.mf.drop (c.pos + 4 + c.wsize).toNat).take (min n sz) =
              c.data.take (min n sz) := by
            have hle : min n sz ≤ (c.size - c.wsize).toNat := by omega
            rw [Conn.data, List.take_take, Nat.min_eq_left hle]
          have hback : (c.mf.drop (c.pos + 4 + (c.wsize + ↑(min n sz))).toNat).take
              (c.size - (c.wsize + ↑(min n sz))).toNat = c.data.drop (min n sz) := by
            rw [Conn.data, List.drop_take, List.drop_drop]
            congr 2 <;> omega
          refine ⟨_, rfl, ⟨by simp [hst], fun _ => .inl ⟨hpos, ?_, ?_, hfits, hmf⟩⟩, ?_⟩
          · dsimp only
            omega
          · dsimp only
            omega
          · have hlen : c.data.length = (c.size - c.wsize).toNat := by
              simp only [Conn.data, List.length_take, List.length_drop]
              omega
            have hprog : Progress c { c with
                wsize := c.wsize + ↑(min n sz)
                sent := c.sent ++
                  (c.mf.drop (c.pos + 4 + c.wsize).toNat).take (min n sz) } (.wrote n) := by
              constructor
              · simp only [Conn.rest, hst, Conn.data]
                rw [hback, hfront, List.append_assoc, List.take_append_drop]
                rfl
              · simp only [Conn.work, Conn.rest, hst, Conn.data]
                rw [hback]
                change (c.data.drop (min n sz)).length + 1 ≤ c.data.length + 1 - _
                simp only [List.length_drop, LWriteResult.takes, decide_eq_true_eq]
                split <;> omega
            exact ⟨hprog.whole ▸ List.prefix_rfl, fun _ => hprog⟩
      | wouldBlock => exact ⟨c, rfl, hs, List.prefix_rfl, fun _ => ⟨rfl, Nat.le_refl _⟩⟩
      | intr => exact ⟨_, rfl, c.sound_close, by simp, fun h => h.elim⟩
      | failed => exact ⟨_, rfl, c.sound_close, by simp, fun h => h.elim⟩
  · rw [if_neg (by omega), if_pos ⟨he, by omega⟩]
    exact ⟨_, rfl, hclosed (by simp [Conn.data, show (c.size - c.wsize).toNat = 0 by omega])⟩

/-- No call of a connection that keeps the invariant reads outside the article. -/
theorem connUpkeep_steps (hs : c.Sound einval) (res : LWriteResult) :
    ∃ c', connUpkeep einval c res = some c' ∧ c.StepsTo einval c' res := by
  unfold connUpkeep
  cases hst : c.state with
  | sendingHeader => exact ⟨_, rfl, sendsText_header.steps hst hs (by simp) (fun _ => rfl) res⟩
  | sendingData => exact senddata_steps hst hs res
  | sendingCacheHeader =>
      exact ⟨_, rfl, sendsText_cacheHeader.steps hst hs (by simp) (fun _ => rfl) res⟩
  | sendingCacheHeader304 =>
      exact ⟨_, rfl, sendsText_304.steps hst hs (by simp) (by simp [ConnState.serving]) res⟩
  | sendingErrorHeader =>
      exact ⟨_, rfl, sendsText_error.steps hst hs (by simp) (by simp [ConnState.serving]) res⟩
  | awaitingRequest => exact absurd hst hs.1
  | closed =>
      exact ⟨c, rfl, hs, List.prefix_rfl, fun _ => ⟨rfl, by simp [Conn.work, hst]⟩⟩

/-! ## Runs of a connection -/

/-- A round in which the socket takes something or asks for another one. -/
def SockEvent.Accepts : SockEvent → Prop
  | .writable res => res.Accepts
  | .idle => False

def SockEvent.takes : SockEvent → Bool
  | .writable res => res.takes
  | .idle => false

/-- Whatever the socket does, what leaves is the beginning of what was to leave. -/
theorem exec_prefix (hs : c.Sound einval) (es : List SockEvent) :
    ∃ c', exec (connRound einval) c es = some c' ∧ c'.sent <+: c.sent ++ c.rest := by
  have hstep : ∀ t e, (t.Sound einval ∧ t.sent ++ t.rest <+: c.sent ++ c.rest) → True →
      ∃ t', connRound einval t e = some t' ∧
        (t'.Sound einval ∧ t'.sent ++ t'.rest <+: c.sent ++ c.rest) := by
    intro t e ⟨ht, hpre⟩ _
    cases e with
    | writable res =>
        obtain ⟨t', ht', hs', hpre', -⟩ := connUpkeep_steps ht res
        exact ⟨t', ht', hs', hpre'.trans hpre⟩
    | idle =>
        refine ⟨t.close, rfl, t.sound_close, ?_⟩
        rw [Conn.rest_close, List.append_nil, Conn.sent_close]
        exact (List.prefix_append _ _).trans hpre
  obtain ⟨c', hc', -, hpre⟩ := exec_keeps hstep ⟨hs, List.prefix_rfl⟩ fun _ _ => trivial
  exact ⟨c', hc', (List.prefix_append _ _).trans hpre⟩

theorem Conn.rest_eq_nil_of_closed (h : c.state = .closed) : c.rest = [] := by
  simp [rest, h]

theorem Conn.closed_of_work (hs : c.Sound einval) (h : c.work = 0) : c.state = .closed := by
  have hne := hs.1
  cases hst : c.state <;> simp_all [work]

/-- When the socket keeps accepting, all that was to leave has left when the connection
ends, and it ends when the socket has taken something often enough. -/
theorem exec_whole (hs : c.Sound einval) {es : List SockEvent} (hes : ∀ e ∈ es, e.Accepts) :
    ∃ c', exec (connRound einval) c es = some c' ∧ c'.sent <+: c.sent ++ c.rest ∧
      (c'.state = .closed → c'.sent = c.sent ++ c.rest) ∧
      (c.work ≤ es.countP SockEvent.takes → c'.state = .closed) := by
  have hstep : ∀ t e, (t.Sound einval ∧ t.sent ++ t.rest = c.sent ++ c.rest) → e.Accepts →
      ∃ t', connRound einval t e = some t' ∧
        (t'.Sound einval ∧ t'.sent ++ t'.rest = c.sent ++ c.rest) ∧
        t'.work ≤ t.work - if e.takes then 1 else 0 := by
    intro t e ⟨ht, hsum⟩ he
    cases e with
    | writable res =>
        obtain ⟨t', ht', hs', -, hprog⟩ := connUpkeep_steps ht res
        exact ⟨t', ht', ⟨hs', (hprog he).whole.trans hsum⟩, (hprog he).work_le⟩
    | idle => exact he.elim
  obtain ⟨c', hc', ⟨hs', hsum⟩, hwork⟩ := drains hstep ⟨hs, rfl⟩ hes
  refine ⟨c', hc', hsum ▸ List.prefix_append _ _, ?_, ?_⟩
  · intro hclosed
    rw [← hsum, Conn.rest_eq_nil_of_closed hclosed, List.append_nil]
  · intro hcount
    exact Conn.closed_of_work hs' (by omega)

end

end Ytht
