import Mathlib.Data.List.TakeWhile
import Ytht.Attach.Conn

/-!
# Attach.Serve

What the requests for the positions of attachments are answered.

The end of an attachment has to lie before the end of the article, so the attachment an
article ends with is refused; the other pages that serve attachments let it through.  The
sums are made with 32 bits: a length near 2 ^ 32 wraps, and so does the size of an article
that is shorter than a length field.
-/

namespace Ytht

open Bytes Drain Runs

/-! ## Arithmetic -/

theorem leNat_lt (bs : List UInt8) : leNat bs < 256 ^ bs.length := by
  induction bs with
  | nil => simp [leNat]
  | cons b bs ih =>
      have hb : b.toNat < 256 := b.toNat_lt
      rw [leNat, List.length_cons, Nat.pow_succ]
      omega

theorem ntohl_lt (mem : List UInt8) : ntohl mem < 2 ^ 32 := by
  have hlt := leNat_lt (mem.take 4).reverse
  have hlen : (mem.take 4).reverse.length ≤ 4 := by
    rw [List.length_reverse, List.length_take]
    exact Nat.min_le_left _ _
  calc ntohl mem < 256 ^ (mem.take 4).reverse.length := hlt
    _ ≤ 256 ^ 4 := Nat.pow_le_pow_right (by decide) hlen
    _ = 2 ^ 32 := by decide

/-- A 32-bit number read as an `int`. -/
theorem toInt_eq {n : Nat} (h : n < 2 ^ 32) :
    toInt n = if n < 2 ^ 31 then (n : Int) else n - 2 ^ 32 := by
  have hw : wrap 4 n = n := by
    have hcast := cast_wrap_four n
    omega
  have hpow : (256 ^ 4 : Nat) = 4294967296 := rfl
  rw [toInt, hw, signed, hpow]
  split_ifs <;> omega

/-! ## getreq -/

/-- The length that is stored at the position. -/
def lengthAt (mf : List UInt8) (pos : Int) : Nat := ntohl (mf.drop pos.toNat)

theorem lengthAt_lt (mf : List UInt8) (pos : Int) : lengthAt mf pos < 2 ^ 32 := ntohl_lt _

/-- The request makes the server read outside the article: the article is shorter than four
bytes, and the position is behind it or after a NUL. -/
def Short (mf : List UInt8) (pos : Int) : Prop :=
  1 ≤ pos ∧ mf.length < 4 ∧ ((mf.length : Int) < pos ∨ mf[(pos - 1).toNat]? = some 0)

/-- The tests of the server, for an article that is not that short. -/
def Accepted (mf : List UInt8) (pos : Int) : Prop :=
  1 ≤ pos ∧ pos + 4 < mf.length ∧ mf[(pos - 1).toNat]? = some 0 ∧
    (pos + 4 + lengthAt mf pos) % 2 ^ 32 < mf.length

/-- The headers of the answer with an attachment. -/
def Request.texts (r : Request) : List UInt8 :=
  if r.enhanced then getMimeType r.attachname ++ r.cacheHeader else []

/-- A connection that answers 404. -/
def Conn.Refused (c : Conn) : Prop :=
  c.state = .sendingErrorHeader ∧ c.sent = [] ∧ c.rest = getErrorType

/-- A connection that is going to send an attachment. -/
structure Conn.Serving (c : Conn) (mf : List UInt8) (pos : Int) (r : Request) : Prop where
  state_eq : c.state = if r.enhanced then .sendingHeader else .sendingData
  sent_eq : c.sent = []
  mf_eq : c.mf = mf
  pos_eq : c.pos = pos
  wsize_eq : c.wsize = 0
  size_eq : c.size = toInt (lengthAt mf pos)
  rest_eq : c.rest = r.texts ++ c.data
  work_le : c.work ≤ (r.texts ++ c.data).length + 3

theorem getreqMapped_cases (c : Conn) (r : Request) (hsent : c.sent = []) (hw : c.wsize = 0)
    (hmf : c.mf.length < 2 ^ 31) (hpos : c.pos < 2 ^ 31) :
    (Short c.mf c.pos ∧ getreqMapped c r = none) ∨
    (¬ Short c.mf c.pos ∧ ¬ Accepted c.mf c.pos ∧
      ∃ c', getreqMapped c r = some c' ∧ c'.Refused) ∨
    (¬ Short c.mf c.pos ∧ Accepted c.mf c.pos ∧
      ∃ c', getreqMapped c r = some c' ∧ c'.Serving c.mf c.pos r) := by
  have hsize := cast_wrap_four (c.mf.length - 4)
  have hL := ntohl_lt (c.mf.drop c.pos.toNat)
  have hint := toInt_eq hL
  have hsum := cast_wrap_four (c.pos + 4 + toInt (ntohl (c.mf.drop c.pos.toNat)))
  have hrefuse : ∀ c' : Conn, c'.sent = [] → c'.refuse.Refused := fun c' h => ⟨rfl, h, rfl⟩
  unfold getreqMapped Short Accepted lengthAt
  by_cases hfirst : c.pos < 1 ∨ (wrap 4 (c.mf.length - 4) : Int) ≤ c.pos
  · rw [if_pos hfirst]
    exact .inr (.inl ⟨by omega, by omega, _, rfl, hrefuse c hsent⟩)
  · rw [if_neg hfirst]
    cases hch : c.mf[(c.pos - 1).toNat]? with
    | none =>
        have hbehind := List.getElem?_eq_none_iff.mp hch
        exact .inl ⟨⟨by omega, by omega, .inl (by omega)⟩, rfl⟩
    | some ch =>
        have hinside := (List.getElem?_eq_some_iff.mp hch).1
        dsimp only
        by_cases hzero : ch = 0
        · subst hzero
          rw [if_neg (by simp)]
          by_cases hshort : (c.mf.length : Int) < c.pos + 4
          · rw [if_pos hshort]
            exact .inl ⟨⟨by omega, by omega, .inr rfl⟩, rfl⟩
          · rw [if_neg hshort]
            by_cases hend : c.mf.length ≤
                wrap 4 (c.pos + 4 + toInt (ntohl (c.mf.drop c.pos.toNat)))
            · rw [if_pos hend]
              refine .inr (.inl ⟨by omega, ?_, _, rfl, hrefuse _ hsent⟩)
              split_ifs at hint <;> omega
            · rw [if_neg hend]
              refine .inr (.inr ⟨by omega, ⟨by omega, by omega, rfl, ?_⟩, ?_⟩)
              · split_ifs at hint <;> omega
              · cases he : r.enhanced with
                | false =>
                    refine ⟨_, rfl, by simp [he], hsent, rfl, rfl, hw, rfl, ?_, ?_⟩
                    · simp [Request.texts, he, Conn.rest]
                    · simp [Request.texts, he, Conn.rest, Conn.work]
                | true =>
                    refine ⟨_, rfl, by simp [he], hsent, rfl, rfl, hw, rfl, ?_, ?_⟩
                    · simp [Request.texts, he, Conn.rest, Conn.data]
                    · simp [Request.texts, he, Conn.rest, Conn.work, Conn.data]
        · rw [if_pos (by simpa using hzero)]
          refine .inr (.inl ⟨?_, ?_, _, rfl, hrefuse c hsent⟩)
          · simp [hzero]
            omega
          · simp [hzero]

/-- The sum of the server's last test has wrapped, and passes. -/
def Wraps (mf : List UInt8) (pos : Int) : Prop :=
  1 ≤ pos ∧ pos + 4 < mf.length ∧ mf[(pos - 1).toNat]? = some 0 ∧
    2 ^ 32 ≤ pos + 4 + lengthAt mf pos ∧ pos + 4 + lengthAt mf pos < 2 ^ 32 + mf.length

/-- A length that has not wrapped ends before the end of the article. -/
theorem Accepted.fits {mf : List UInt8} {pos : Int} (h : Accepted mf pos) (hw : ¬ Wraps mf pos)
    (hmf : mf.length < 2 ^ 31) : pos + 4 + lengthAt mf pos < mf.length := by
  obtain ⟨hpos, hlt, hch, hsum⟩ := h
  have hL := lengthAt_lt mf pos
  have hnot : ¬ (2 ^ 32 ≤ pos + 4 + lengthAt mf pos ∧
      pos + 4 + lengthAt mf pos < 2 ^ 32 + mf.length) := fun h => hw ⟨hpos, hlt, hch, h⟩
  omega

theorem Wraps.accepted {mf : List UInt8} {pos : Int} (h : Wraps mf pos)
    (hmf : mf.length < 2 ^ 31) : Accepted mf pos := by
  obtain ⟨hpos, hlt, hch, hlo, hhi⟩ := h
  exact ⟨hpos, hlt, hch, by omega⟩

theorem Conn.Refused.sound {einval : Bool} {c : Conn} (h : c.Refused) : c.Sound einval :=
  ⟨by rw [h.1]; simp, fun hse => by simp [h.1, ConnState.serving] at hse⟩

section

variable {c : Conn} {mf : List UInt8} {pos : Int} {r : Request}

/-- An attachment that fits is sent whole. -/
theorem Conn.Serving.fits (h : c.Serving mf pos r) (einval : Bool) (hpos : 1 ≤ pos)
    (hmf : mf.length < 2 ^ 31) (hfits : pos + 4 + lengthAt mf pos ≤ mf.length) :
    c.Sound einval ∧ c.data = (mf.drop (pos + 4).toNat).take (lengthAt mf pos) := by
  obtain ⟨hst, -, rfl, rfl, hw, hsize, -⟩ := h
  rw [toInt_eq (lengthAt_lt _ _), if_pos (by omega)] at hsize
  refine ⟨⟨?_, fun _ => .inl ⟨by omega, by omega, by omega, by omega, hmf⟩⟩, ?_⟩
  · rw [hst]
    split <;> simp
  · simp [Conn.data, hw, hsize]

/-- A length that has wrapped is negative, and its count is refused where that is done. -/
theorem Conn.Serving.wraps (h : c.Serving mf pos r) (hw : Wraps mf pos)
    (hmf : mf.length < 2 ^ 31) : c.size = lengthAt mf pos - 2 ^ 32 ∧ c.Sound true ∧ c.data = [] := by
  obtain ⟨hst, -, rfl, rfl, hwsize, hsize, -⟩ := h
  obtain ⟨hpos, hlt, -, hlo, -⟩ := hw
  have hL := lengthAt_lt c.mf c.pos
  rw [toInt_eq (lengthAt_lt _ _), if_neg (by omega)] at hsize
  refine ⟨hsize, ⟨?_, fun _ => .inr ⟨rfl, by omega, by omega, hwsize⟩⟩, ?_⟩
  · rw [hst]
    split <;> simp
  · have hneg : (c.size - c.wsize).toNat = 0 := by omega
    rw [Conn.data, hneg, List.take_zero]

end

/-! ## Answers -/

/-- A request that gets as far as the position, and asks for `pos` in an article. -/
def Request.Asks (r : Request) (file : List UInt8) (pos : Nat) : Prop :=
  r.found = true ∧ r.notModified = none ∧ r.article = some file ∧ atoi r.posstr = pos

/-- A request for the attachment is answered with its bytes, however the socket takes
them. -/
def Served (einval : Bool) (file : List UInt8) (a : Attachment) : Prop :=
  ∀ r : Request, r.Asks file a.pos → ∀ es : List SockEvent, (∀ e ∈ es, e.Accepts) →
    ∃ c, serve einval r es = some c ∧ c.sent <+: r.texts ++ a.data ∧
      (c.state = .closed → c.sent = r.texts ++ a.data) ∧
      ((r.texts ++ a.data).length + 3 ≤ es.countP SockEvent.takes → c.state = .closed)

/-- What may leave in answer to a request for a position of an article. -/
def Request.Permits (r : Request) (content : List UInt8) (pos : Int) (sent : List UInt8) : Prop :=
  sent <+: getErrorType ∨ (∃ text, r.notModified = some text ∧ sent <+: text) ∨
    sent <+: r.texts ++ (content.drop (pos + 4).toNat).take (lengthAt content pos)

/-- No request for the position makes the server read outside the article or send anything
but the headers and the bytes that follow the length field. -/
def Confined (einval : Bool) (content posstr : List UInt8) : Prop :=
  ∀ r : Request, r.article = some content → r.posstr = posstr → ∀ es : List SockEvent,
    ∃ c, serve einval r es = some c ∧ r.Permits content (atoi posstr) c.sent

/-- The articles and positions with which the server leaves the article. -/
def Strays (einval : Bool) (content : List UInt8) (pos : Int) : Prop :=
  content.length < 2 ^ 31 ∧ (Short content pos ∨ einval = false ∧ Wraps content pos)

theorem atoi_lt (s : List UInt8) : atoi s < 2 ^ 31 := by
  unfold atoi
  dsimp only
  omega

/-- The connection of a request for a position. -/
theorem getreq_of_asks {r : Request} {file : List UInt8} (hfound : r.found = true)
    (hnew : r.notModified = none) (hart : r.article = some file) (hfile : file.length < 2 ^ 31) :
    getreq mkconn r = getreqMapped { mkconn with mf := file, pos := atoi r.posstr } r := by
  simp only [getreq, hfound, hnew, hart, Option.bind_some, mmapfile, if_pos hfile]
  rfl

/-- The three outcomes of a request for a position. -/
theorem getreq_cases {r : Request} {file : List UInt8} (hfound : r.found = true)
    (hnew : r.notModified = none) (hart : r.article = some file) (hfile : file.length < 2 ^ 31) :
    (Short file (atoi r.posstr) ∧ getreq mkconn r = none) ∨
    (¬ Short file (atoi r.posstr) ∧ ¬ Accepted file (atoi r.posstr) ∧
      ∃ c, getreq mkconn r = some c ∧ c.Refused) ∨
    (¬ Short file (atoi r.posstr) ∧ Accepted file (atoi r.posstr) ∧
      ∃ c, getreq mkconn r = some c ∧ c.Serving file (atoi r.posstr) r) := by
  rw [getreq_of_asks hfound hnew hart hfile]
  exact getreqMapped_cases { mkconn with mf := file, pos := atoi r.posstr } r rfl rfl hfile
    (atoi_lt _)

/-! ## (a) Attachments -/

/-- What the layout says about the position of an attachment. -/
structure Attachment.At (a : Attachment) (file rest : List UInt8) : Prop where
  pos_pos : 1 ≤ a.pos
  nul : file[((a.pos : Int) - 1).toNat]? = some 0
  lengthAt_eq : lengthAt file a.pos = a.data.length
  length_eq : file.length = a.pos + 4 + a.data.length + rest.length
  data_eq : (file.drop ((a.pos : Int) + 4).toNat).take a.data.length = a.data

theorem Attachment.Stored.at {a : Attachment} {file rest : List UInt8} (h : a.Stored file rest)
    (hfile : file.length < 2 ^ 31) : a.At file rest := by
  obtain ⟨text, hpos, rfl⟩ := h
  have hnul : ((a.pos : Int) - 1).toNat = text.length := by omega
  have hlen : a.pos = (text ++ [0]).length := by simp [hpos]
  have hdata : ((a.pos : Int) + 4).toNat = (text ++ 0 :: htonl a.data.length).length := by
    simp
    omega
  have hcut : text ++ 0 :: (htonl a.data.length ++ (a.data ++ rest)) =
      (text ++ [0]) ++ (htonl a.data.length ++ (a.data ++ rest)) := by simp
  have hcut' : text ++ 0 :: (htonl a.data.length ++ (a.data ++ rest)) =
      (text ++ 0 :: htonl a.data.length) ++ (a.data ++ rest) := by simp
  constructor
  · omega
  · rw [hnul]
    simp
  · rw [lengthAt, Int.toNat_natCast, hcut, hlen, List.drop_left, ntohl_htonl]
    simp at hfile
    omega
  · simp
    omega
  · rw [hdata, hcut', List.drop_left, List.take_left]

theorem Attachment.At.served {a : Attachment} {file rest : List UInt8} (h : a.At file rest)
    (hfile : file.length < 2 ^ 31) (hrest : rest ≠ []) (einval : Bool) :
    Served einval file a := by
  intro r ⟨hfound, hnew, hart, hpos⟩ es hes
  have hne : 0 < rest.length := List.length_pos_iff.mpr hrest
  have hle := h.length_eq
  have hge := h.pos_pos
  have hL := h.lengthAt_eq
  rw [← hpos] at hL
  have hacc : Accepted file (atoi r.posstr) :=
    ⟨by omega, by omega, by rw [hpos]; exact h.nul, by omega⟩
  rcases getreq_cases hfound hnew hart hfile with ⟨hshort, -⟩ | ⟨-, hno, -⟩ | ⟨-, -, c, hc, hserve⟩
  · obtain ⟨-, hlt, -⟩ := hshort
    omega
  · exact absurd hacc hno
  · obtain ⟨hs, hdata⟩ := hserve.fits einval hacc.1 hfile (by omega)
    rw [hL, hpos, h.data_eq] at hdata
    obtain ⟨-, hsent, -, -, -, -, hrest', hwork⟩ := hserve
    obtain ⟨c', hrun, hpre, hclosed, hcount⟩ := exec_whole hs hes
    rw [hsent, hrest', List.nil_append, hdata] at hpre hclosed
    rw [hdata] at hwork
    refine ⟨c', ?_, hpre, hclosed, fun hmany => hcount (hwork.trans hmany)⟩
    rw [serve, hc, Option.bind_some, hrun]

/-- The attachment that ends with the article is refused. -/
theorem Attachment.At.not_served {a : Attachment} {file : List UInt8} (h : a.At file [])
    (hfile : file.length < 2 ^ 31) (einval : Bool) : ¬ Served einval file a := by
  intro hserved
  have hle := h.length_eq
  have hge := h.pos_pos
  rw [List.length_nil] at hle
  -- the request of a page that links to the attachment
  let r : Request := ⟨true, true, none, some file, decimal a.pos, [], []⟩
  have hpos : atoi r.posstr = a.pos := atoi_decimal (by omega)
  have hL := h.lengthAt_eq
  rw [← hpos] at hL
  obtain ⟨c', hrun, -, hclosed, hcount⟩ := hserved r ⟨rfl, rfl, rfl, hpos⟩
    (List.replicate ((r.texts ++ a.data).length + 3) (.writable (.wrote 1))) (by
      simp [SockEvent.Accepts, LWriteResult.Accepts])
  have hwhole := hclosed (hcount (by rw [List.countP_replicate]; exact Nat.le_refl _))
  rcases @getreq_cases r file rfl rfl rfl hfile with
    ⟨hshort, -⟩ | ⟨-, -, c, hc, href⟩ | ⟨-, hacc, -⟩
  · obtain ⟨-, hlt, -⟩ := hshort
    omega
  · have hsound : c.Sound einval := href.sound
    obtain ⟨t, ht, hpre⟩ := exec_prefix hsound
      (List.replicate ((r.texts ++ a.data).length + 3) (.writable (.wrote 1)))
    rw [serve, hc, Option.bind_some, ht] at hrun
    obtain rfl := Option.some.inj hrun
    rw [href.2.1, href.2.2, hwhole, List.nil_append] at hpre
    have hlen := hpre.length_le
    have hhead : getErrorType.length < r.texts.length := by
      change _ < (getMimeType [] ++ []).length
      decide +kernel
    rw [List.length_append] at hlen
    omega
  · obtain ⟨-, hlt, -, hsum⟩ := hacc
    omega

/-! ## (b) The bytes of the article -/

/-- A request that gives a connection which keeps the invariant, and has to send only what
may leave. -/
theorem permits_of_sound {einval : Bool} {r : Request} {content : List UInt8} {pos : Int}
    {c : Conn} (hc : getreq mkconn r = some c) (hs : c.Sound einval) (hsent : c.sent = [])
    (hrest : ∀ out, out <+: c.rest → r.Permits content pos out) (es : List SockEvent) :
    ∃ c', serve einval r es = some c' ∧ r.Permits content pos c'.sent := by
  obtain ⟨c', hrun, hpre⟩ := exec_prefix hs es
  rw [hsent, List.nil_append] at hpre
  exact ⟨c', by rw [serve, hc, Option.bind_some, hrun], hrest _ hpre⟩

theorem permits_of_refused {einval : Bool} {r : Request} {content : List UInt8} {pos : Int}
    {c : Conn} (hc : getreq mkconn r = some c) (href : c.Refused) (es : List SockEvent) :
    ∃ c', serve einval r es = some c' ∧ r.Permits content pos c'.sent :=
  permits_of_sound hc href.sound href.2.1 (fun _ h => .inl (href.2.2 ▸ h)) es

theorem confined_of_not_strays {einval : Bool} {content posstr : List UInt8}
    (h : ¬ Strays einval content (atoi posstr)) : Confined einval content posstr := by
  intro r hart hpos es
  rw [← hpos] at h ⊢
  by_cases hfound : r.found = false
  · exact permits_of_refused (c := mkconn.refuse) (by rw [getreq, if_pos hfound])
      ⟨rfl, rfl, rfl⟩ es
  · cases hnew : r.notModified with
    | some text =>
        have hc : getreq mkconn r = some
            { mkconn with state := .sendingCacheHeader304, cacheHeader := .start text } := by
          rw [getreq, if_neg hfound, hnew]
        refine permits_of_sound hc ⟨by simp, fun hse => ?_⟩ rfl ?_ es
        · simp [ConnState.serving] at hse
        · exact fun _ hpre => .inr (.inl ⟨text, hnew, hpre⟩)
    | none =>
        have hfound' : r.found = true := by simpa using hfound
        by_cases hlen : content.length < 2 ^ 31
        · rcases getreq_cases hfound' hnew hart hlen with
            ⟨hshort, -⟩ | ⟨-, -, c, hc, href⟩ | ⟨-, hacc, c, hc, hserve⟩
          · exact absurd ⟨hlen, .inl hshort⟩ h
          · exact permits_of_refused hc href es
          · by_cases hw : Wraps content (atoi r.posstr)
            · have he : einval = true := by
                rw [← Bool.not_eq_false]
                exact fun he => h ⟨hlen, .inr ⟨he, hw⟩⟩
              obtain ⟨-, hs, hdata⟩ := hserve.wraps hw hlen
              refine permits_of_sound hc (he ▸ hs) hserve.sent_eq (fun out hpre => ?_) es
              rw [hserve.rest_eq, hdata, List.append_nil] at hpre
              exact .inr (.inr (hpre.trans (List.prefix_append _ _)))
            · have hfits := hacc.fits hw hlen
              obtain ⟨hs, hdata⟩ := hserve.fits einval hacc.1 hlen (by omega)
              refine permits_of_sound hc hs hserve.sent_eq (fun out hpre => ?_) es
              rw [hserve.rest_eq, hdata] at hpre
              exact .inr (.inr hpre)
        · refine permits_of_refused (c := mkconn.refuse) ?_ ⟨rfl, rfl, rfl⟩ es
          simp only [getreq, hfound', hnew, hart, Option.bind_some, mmapfile, if_neg hlen]
          rfl

theorem not_confined_of_strays {einval : Bool} {content posstr : List UInt8}
    (h : Strays einval content (atoi posstr)) : ¬ Confined einval content posstr := by
  intro hconf
  -- a request without the headers, so that the first write is one of the attachment
  let r : Request := ⟨true, false, none, some content, posstr, [], []⟩
  obtain ⟨hlen, hcase⟩ := h
  obtain ⟨c', hrun, -⟩ := hconf r rfl rfl [.writable (.wrote 1)]
  rcases getreq_cases (r := r) rfl rfl rfl hlen with
    ⟨-, hc⟩ | ⟨hno, hnacc, -⟩ | ⟨hno, -, c, hc, hserve⟩
  · rw [serve, hc] at hrun
    contradiction
  · rcases hcase with hshort | ⟨-, hw⟩
    · exact hno hshort
    · exact hnacc (hw.accepted hlen)
  · rcases hcase with hshort | ⟨rfl, hw⟩
    · exact hno hshort
    · obtain ⟨hsize, -, -⟩ := hserve.wraps hw hlen
      obtain ⟨hst, -, rfl, hpos, hwsize, -, -, -⟩ := hserve
      have hL := lengthAt_lt c.mf (atoi posstr)
      have hblk : BLOCK_SIZE = 16384 := rfl
      have hsz := cast_wrap_four (min BLOCK_SIZE (c.size - c.wsize))
      obtain ⟨hge, hlt, -, hlo, -⟩ := hw
      change c.size = lengthAt c.mf (atoi posstr) - 2 ^ 32 at hsize
      change c.pos = atoi posstr at hpos
      have hnone : senddata false c (.wrote 1) = none := by
        unfold senddata
        dsimp only
        rw [if_neg (by omega), if_neg (by simp), if_pos (by omega)]
      rw [serve, hc, Option.bind_some, exec, connRound, connUpkeep, hst] at hrun
      simp [r, hnone] at hrun

/-- **Which attachments are answered with their bytes, and when the server stays inside the
article.** -/
theorem attachments_run (einval : Bool) :
    (∀ (article : List UInt8) (calls : List AttachCall)
        (k : Fin (appendCalls article calls).2.length),
      Served einval (appendCalls article calls).1 ((appendCalls article calls).2.get k) ↔
        k + 1 < (appendCalls article calls).2.length) ∧
    ∀ content posstr : List UInt8,
      Confined einval content posstr ↔ ¬ Strays einval content (atoi posstr) := by
  refine ⟨fun article calls k => ?_, fun content posstr =>
    ⟨fun hconf h => not_confined_of_strays h hconf, confined_of_not_strays⟩⟩
  have hk : (appendCalls article calls).2[k]? = some ((appendCalls article calls).2.get k) := by
    simp
  obtain ⟨hfile, rest, hstored, hlast⟩ := appendCalls_layout article calls k _ hk
  have hat := hstored.at hfile
  constructor
  · intro hserved
    have hne : rest ≠ [] := by
      rintro rfl
      exact hat.not_served hfile einval hserved
    have hnot := mt hlast.mpr hne
    omega
  · intro hbefore
    have hne : rest ≠ [] := mt hlast.mp (by omega)
    exact hat.served hfile hne einval

/-- The only attachment of an article is asked for and not found. -/
theorem serve_last_refused :
    let s := appendCalls (ascii "text\n") [⟨ascii "a.txt", by decide, some (ascii "hello"), 99⟩]
    s.2.length = 1 ∧ ∀ einval, ¬ ∀ a ∈ s.2, Served einval s.1 a := by
  intro s
  refine ⟨by decide +kernel, fun einval h => ?_⟩
  let r : Request := ⟨true, false, none, some s.1, ascii "31", [], []⟩
  obtain ⟨c, hrun, hpre, -⟩ := h ⟨31, ascii "hello"⟩ (by decide +kernel) r
    ⟨rfl, rfl, rfl, by decide +kernel⟩ [.writable (.wrote 99)] (by
      simp [SockEvent.Accepts, LWriteResult.Accepts])
  have herror : (serve einval r [.writable (.wrote 99)]).map Conn.sent = some getErrorType := by
    cases einval <;> decide +kernel
  rw [hrun, Option.map_some, Option.some.injEq] at herror
  rw [herror] at hpre
  exact absurd hpre.length_le (by decide)

end Ytht
