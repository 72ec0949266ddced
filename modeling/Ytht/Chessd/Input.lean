import Ytht.Chessd.Rooms
import Ytht.Lib.Frames

/-!
# Chessd.Input

How the chess server takes the input of one client apart: `inputuser` reads what has come
into the buffer of the client, and `trydealinbuf` deals with the messages in it.

A command that removes its client frees the buffer and returns 0 like any other, so the
loop goes on with what is left of the buffer (`input_strays`).  `input_run` says that this
is the only way in which it matters how the input is cut into reads.

Nothing waits in `warray`: no function calls `addtowaitqueue`.
-/

namespace Ytht

open Bytes Frames Runs

variable {γ : Type}

/-! ## The buffer -/

/-- `BUFSIZE`, and the size of `inbuf`. -/
def inbufSize : Nat := 8192

/-- `len` of the message that a buffer begins with: a short, in network order. -/
def lenField (buf : List UInt8) : Int :=
  toShort (256 * (buf.getD 0 0).toNat + (buf.getD 1 0).toNat)

/-- What a buffer begins with. -/
def nextMessage (buf : List UInt8) : Cut UInt8 :=
  if buf.length < 3 then .wait
  else if lenField buf < 3 ∨ inbufSize < lenField buf then .bad
  else if buf.length < lenField buf then .wait
  else .frame (buf.take (lenField buf).toNat) (buf.drop (lenField buf).toNat)

theorem lenField_append {buf : List UInt8} (h : 3 ≤ buf.length) (more : List UInt8) :
    lenField (buf ++ more) = lenField buf := by
  rw [lenField, lenField, List.getD_append _ _ _ _ (by omega), List.getD_append _ _ _ _ (by omega)]

/-- The messages of a stream. -/
def messages : Framing UInt8 where
  next := nextMessage
  next_nil := rfl
  shorter {buf f rest} h := by
    unfold nextMessage at h
    split_ifs at h with hn hbad hwait
    obtain ⟨-, rfl⟩ := Cut.frame.inj h
    rw [List.length_drop]
    omega
  bad_append {buf} more h := by
    unfold nextMessage at h ⊢
    split_ifs at h with hn hbad hwait
    rw [lenField_append (by omega), if_neg (by rw [List.length_append]; omega), if_pos hbad]
  frame_append {buf f rest} more h := by
    unfold nextMessage at h ⊢
    split_ifs at h with hn hbad hwait
    obtain ⟨rfl, rfl⟩ := Cut.frame.inj h
    have hlen : (lenField buf).toNat ≤ buf.length := by omega
    rw [lenField_append (by omega), if_neg (by rw [List.length_append]; omega), if_neg hbad,
      if_neg (by rw [List.length_append]; omega), List.take_append_of_le_length hlen,
      List.drop_append_of_le_length hlen]

/-- A message as it came: its command byte and its payload. -/
def commandOf (f : List UInt8) : UInt8 × List UInt8 := (f.getD 2 0, f.drop 3)

/-- The server, and what it keeps of one client's input. -/
structure ChessInput (γ : Type) where
  chessd : Chessd γ
  /-- The first `n` bytes of `inbuf.data`. -/
  inbuf : List UInt8
  /-- The messages that have been dealt with. -/
  dealt : List (UInt8 × List UInt8)
  /-- The buffer has been read after it was freed; nothing is known of what follows. -/
  strayed : Bool

/-- A client of which nothing has been read. -/
def ChessInput.start (c : Chessd γ) : ChessInput γ := ⟨c, [], [], false⟩

section

variable (g : Games γ) (behind : Nat → List UInt8) (i : Slot)

def ChessInput.connected (s : ChessInput γ) : Bool := (s.chessd.user i).connected

/-- The `k`-th message in the buffer of `dealinbuf`; `behind k` is what it finds behind it
on the stack. -/
def messageOf (k : Nat) (f : List UInt8) : ChessMsg := ⟨f.length, f.getD 2 0, f.drop 3 ++ behind k⟩

/-- `dealinbuf`, and what it returns.  All commands return 0. -/
def dealinbuf (s : ChessInput γ) : ChessInput γ × Int :=
  if s.inbuf.length < 3 then (s, -1)
  else if s.connected i = false then ({ s with strayed := true }, -1)
  else
    let len := lenField s.inbuf
    if len < 3 ∨ inbufSize < len then ({ s with chessd := s.chessd.removeuser g i }, -1)
    else if s.inbuf.length < len then (s, -1)
    else
      let m := s.inbuf.take len.toNat
      ({ s with
        chessd := s.chessd.command g i (messageOf behind s.dealt.length m)
        inbuf := s.inbuf.drop len.toNat
        dealt := s.dealt ++ [commandOf m] }, 0)

/-! ## The messages of a buffer -/

variable {g behind i} {s : ChessInput γ}

theorem dealinbuf_connected (hs : s.connected i = true) :
    dealinbuf g behind i s =
      match nextMessage s.inbuf with
      | .wait => (s, -1)
      | .bad => ({ s with chessd := s.chessd.removeuser g i }, -1)
      | .frame f rest =>
          ({ s with
            chessd := s.chessd.command g i (messageOf behind s.dealt.length f)
            inbuf := rest
            dealt := s.dealt ++ [commandOf f] }, 0) := by
  unfold dealinbuf nextMessage
  rw [hs]
  dsimp only
  split_ifs <;> first | rfl | contradiction

/-- A buffer that has been freed is read if three bytes are counted in it. -/
theorem dealinbuf_freed (hs : s.connected i = false) :
    dealinbuf g behind i s =
      ({ s with strayed := s.strayed || decide (3 ≤ s.inbuf.length) }, -1) := by
  unfold dealinbuf
  by_cases hn : s.inbuf.length < 3
  · simp [hn, Nat.not_le.mpr hn]
  · simp [hn, hs, Nat.le_of_not_lt hn]

theorem dealinbuf_shorter (h : 0 ≤ (dealinbuf g behind i s).2) :
    (dealinbuf g behind i s).1.inbuf.length < s.inbuf.length := by
  cases hs : s.connected i with
  | false =>
      rw [dealinbuf_freed hs] at h
      contradiction
  | true =>
      rw [dealinbuf_connected hs] at h ⊢
      cases hnext : nextMessage s.inbuf with
      | wait =>
          rw [hnext] at h
          contradiction
      | bad =>
          rw [hnext] at h
          contradiction
      | frame f rest => exact messages.shorter hnext

variable (g behind i)

/-! ## The loop -/

/-- The loop of `trydealinbuf`. -/
def dealLoop (s : ChessInput γ) : ChessInput γ :=
  if _h : 0 ≤ (dealinbuf g behind i s).2 then dealLoop (dealinbuf g behind i s).1
  else (dealinbuf g behind i s).1
termination_by s.inbuf.length
decreasing_by exact dealinbuf_shorter _h

def trydealinbuf (s : ChessInput γ) : ChessInput γ :=
  if s.connected i = false then s else dealLoop g behind i s

/-- `inputuser`, when `read` returns some bytes: at most as many as there is room for, and
at least one, unless the connection is lost. -/
def inputuser (s : ChessInput γ) (piece : List UInt8) : Option (ChessInput γ) :=
  if s.connected i = false ∨ piece = [] ∨ inbufSize < s.inbuf.length + piece.length then none
  else some (trydealinbuf g behind i { s with inbuf := s.inbuf ++ piece })

/-- What happens to the client: some of its input is read, or the server has something
else to do, which may remove the client. -/
inductive InputEvent
  | read (piece : List UInt8)
  | other (e : ChessEvent)

def inputStep (s : ChessInput γ) : InputEvent → Option (ChessInput γ)
  | .read piece => inputuser g behind i s piece
  | .other (.command j m) =>
      if s.connected i = false ∨ j = i then none
      else (s.chessd.chessStep g (.command j m)).map fun c => { s with chessd := c }
  | .other e =>
      if s.connected i = false then none
      else (s.chessd.chessStep g e).map fun c => { s with chessd := c }

/-! ## The commands of a stream -/

/-- The commands of one client, given one after another and written down. -/
def commandHandler : Handler (Chessd γ × List (UInt8 × List UInt8)) UInt8 where
  handle s f := (s.1.command g i (messageOf behind s.2.length f), s.2 ++ [commandOf f])
  gone s := !(s.1.user i).connected
  reject s := (s.1.removeuser g i, s.2)
  gone_reject s := by
    cases hs : (s.1.user i).connected <;> simp [Chessd.removeuser, Chessd.setUser, hs]

/-- The commands that a client gives with a stream, to a server with nothing else to do:
up to the one that removes it, if there is one. -/
def commands (c : Chessd γ) (stream : List UInt8) : List (UInt8 × List UInt8) :=
  (deal messages (commandHandler g behind i) (c, []) stream).state.2

variable {g behind i}

/-- In a freed buffer the loop gets no further than the first message. -/
theorem dealLoop_freed (hs : s.connected i = false) :
    dealLoop g behind i s =
      { s with strayed := s.strayed || decide (3 ≤ s.inbuf.length) } := by
  rw [dealLoop, dealinbuf_freed hs]
  rfl

/-- The loop deals with the messages of the buffer; and then with the freed buffer, when a
command has removed the client. -/
theorem dealLoop_connected (hs : s.connected i = true) :
    dealLoop g behind i s =
      let o := deal messages (commandHandler g behind i) (s.chessd, s.dealt) s.inbuf
      ⟨o.state.1, o.rest, o.state.2,
        s.strayed || decide (o.status = .gone ∧ 3 ≤ o.rest.length)⟩ := by
  fun_induction dealLoop g behind i s with
  | case1 s hret ih =>
      rw [dealinbuf_connected hs] at hret ih ⊢
      cases hnext : nextMessage s.inbuf with
      | wait =>
          rw [hnext] at hret
          contradiction
      | bad =>
          rw [hnext] at hret
          contradiction
      | frame f rest =>
          rw [hnext] at ih
          dsimp only
          by_cases hgone : (commandHandler g behind i).gone
              ((commandHandler g behind i).handle (s.chessd, s.dealt) f) = true
          · rw [deal_of_gone hnext hgone, dealLoop_freed (by
              simpa [commandHandler, ChessInput.connected] using hgone)]
            simp [commandHandler]
          · rw [deal_of_frame hnext hgone]
            exact ih (by simpa [commandHandler, ChessInput.connected] using hgone)
  | case2 s hret =>
      rw [dealinbuf_connected hs] at hret ⊢
      cases hnext : nextMessage s.inbuf with
      | wait => simp [deal_of_wait (F := messages) hnext]
      | bad => simp [deal_of_bad (F := messages) hnext, commandHandler]
      | frame f rest =>
          rw [hnext] at hret
          exact absurd (Int.le_refl 0) hret

/-! ## Runs -/

/-- The bytes that have been read. -/
def bytesRead (es : List InputEvent) : List UInt8 :=
  es.flatMap fun
    | .read piece => piece
    | .other _ => []

def InputEvent.isRead : InputEvent → Bool
  | .read _ => true
  | .other _ => false

/-- The messages of a stream, whoever deals with them. -/
def messagesOf (stream : List UInt8) : List (UInt8 × List UInt8) :=
  (frames messages stream).map commandOf

variable (g behind i)

/-- A read does not bring three bytes more behind a command that removes the client. -/
def CutWell (s : ChessInput γ) : InputEvent → Prop
  | .read piece =>
      let o := deal messages (commandHandler g behind i) (s.chessd, s.dealt) (s.inbuf ++ piece)
      o.status = .gone → o.rest.length < 3
  | .other _ => True

instance (s : ChessInput γ) (e : InputEvent) : Decidable (CutWell g behind i s e) := by
  cases e with
  | read piece => unfold CutWell; exact inferInstance
  | other e => exact inferInstanceAs (Decidable True)

/-- What does not depend on the cuts.  The messages dealt with are those of the stream, all
of them as long as the client is there; what was freed is not read; and with a server that
has nothing else to do, the commands are those of the whole stream, once all of it is read
or the client gone. -/
structure Uncut (c : Chessd γ) (es : List InputEvent) (t : ChessInput γ) : Prop where
  strayed : t.strayed = false
  dealt_prefix : t.dealt <+: messagesOf (bytesRead es)
  dealt_eq : t.connected i = true → t.dealt = messagesOf (bytesRead es)
  commands_eq : (∀ e ∈ es, e.isRead = true) → ∀ stream, bytesRead es <+: stream →
    bytesRead es = stream ∨ t.connected i = false → t.dealt = commands g behind i c stream

/-- What a run keeps, as long as its reads are cut well. -/
structure Reading (c : Chessd γ) (es : List InputEvent) (t : ChessInput γ) : Prop where
  strayed : t.strayed = false
  waits : t.connected i = true → nextMessage t.inbuf = .wait
  /-- The messages in the buffer are still to be dealt with. -/
  whole : t.connected i = true → ∀ more, t.dealt ++ messagesOf (t.inbuf ++ more) =
    messagesOf (bytesRead es ++ more)
  dealt_prefix : t.dealt <+: messagesOf (bytesRead es)
  quiet : (∀ e ∈ es, e.isRead = true) →
    (deal messages (commandHandler g behind i) (c, []) (bytesRead es)).state = (t.chessd, t.dealt) ∧
    (deal messages (commandHandler g behind i) (c, []) (bytesRead es)).rest = t.inbuf

variable {g behind i} {c : Chessd γ} {es : List InputEvent} {t : ChessInput γ}

/-- What a read makes of a client that is there. -/
theorem inputuser_eq {piece : List UInt8} (hstep : inputuser g behind i s piece = some t) :
    s.connected i = true ∧
      t = let o := deal messages (commandHandler g behind i) (s.chessd, s.dealt) (s.inbuf ++ piece)
        ⟨o.state.1, o.rest, o.state.2,
          s.strayed || decide (o.status = .gone ∧ 3 ≤ o.rest.length)⟩ := by
  unfold inputuser at hstep
  split_ifs at hstep with hno
  have hs : s.connected i = true := by
    rw [← Bool.not_eq_false]
    exact fun hgone => hno (.inl hgone)
  have hs' : ({ s with inbuf := s.inbuf ++ piece } : ChessInput γ).connected i = true := hs
  have ht := Option.some.inj hstep
  rw [trydealinbuf, if_neg (by rw [hs']; simp), dealLoop_connected hs'] at ht
  exact ⟨hs, ht.symm⟩

/-- A client is there as long as its commands leave it there. -/
theorem connected_iff {chessd : Chessd γ} {dealt : List (UInt8 × List UInt8)} {buf : List UInt8}
    (hs : (chessd.user i).connected = true) :
    ((deal messages (commandHandler g behind i) (chessd, dealt) buf).state.1.user i).connected =
        true ↔
      (deal messages (commandHandler g behind i) (chessd, dealt) buf).status = .waits := by
  have hstay : (commandHandler g behind i).gone (chessd, dealt) = false := by
    simpa [commandHandler] using hs
  have hgone := not_congr (@deal_gone _ _ messages _ _ buf hstay)
  simpa [commandHandler] using hgone

/-- One read. -/
theorem Reading.read (h : Reading g behind i c es s) (hc : (c.user i).connected = true)
    {piece : List UInt8} (hcut : CutWell g behind i s (.read piece))
    (hstep : inputuser g behind i s piece = some t) :
    Reading g behind i c (es ++ [.read piece]) t := by
  obtain ⟨hs, ht⟩ := inputuser_eq hstep
  have hbytes : bytesRead (es ++ [.read piece]) = bytesRead es ++ piece := by
    simp [bytesRead]
  have hconn : t.connected i = true ↔ (deal messages (commandHandler g behind i)
      (s.chessd, s.dealt) (s.inbuf ++ piece)).status = .waits := by
    rw [ht]
    exact connected_iff hs
  have hlog : ∀ more, t.dealt ++ messagesOf (t.inbuf ++ more) =
      messagesOf (bytesRead es ++ piece ++ more) := by
    intro more
    rw [List.append_assoc, ← h.whole hs, ← List.append_assoc s.inbuf, ht]
    exact deal_log Prod.snd commandOf (fun _ _ => rfl) (fun _ => rfl) more
  refine ⟨?_, ?_, fun _ more => by rw [hbytes, hlog], ?_, ?_⟩
  · -- what is left of a freed buffer is too short to be looked at
    rw [ht]
    dsimp only
    rw [h.strayed, Bool.false_or]
    simpa [CutWell] using hcut
  · intro ht'
    rw [ht]
    exact deal_next (F := messages) (hconn.mp ht')
  · have hall := hlog []
    rw [List.append_nil, List.append_nil] at hall
    rw [hbytes, ← hall]
    exact List.prefix_append _ _
  · intro hquiet
    obtain ⟨hstate, hrest⟩ := h.quiet fun e he => hquiet e (List.mem_append_left _ he)
    have hwaits : (deal messages (commandHandler g behind i) (c, []) (bytesRead es)).status =
        .waits := (connected_iff hc).mp (by rw [hstate]; exact hs)
    rw [hbytes, deal_append, if_pos hwaits, hstate, hrest, ht]
    exact ⟨rfl, rfl⟩

/-- What the server does elsewhere leaves the buffer alone. -/
theorem inputStep_other {e : ChessEvent} (hstep : inputStep g behind i s (.other e) = some t) :
    s.connected i = true ∧ ∃ chessd, t = { s with chessd := chessd } := by
  have hkeep : ∀ e', (if s.connected i = false then none
      else (s.chessd.chessStep g e').map fun c => { s with chessd := c }) = some t →
      s.connected i = true ∧ ∃ chessd, t = { s with chessd := chessd } := by
    intro e' h
    split_ifs at h with hno
    obtain ⟨chessd, -, rfl⟩ := Option.map_eq_some_iff.mp h
    exact ⟨by simpa using hno, chessd, rfl⟩
  cases e with
  | newuser => exact hkeep _ hstep
  | remove j => exact hkeep _ hstep
  | command j m =>
      simp only [inputStep] at hstep
      split_ifs at hstep with hno
      push Not at hno
      exact hkeep (.command j m) (by rw [if_neg hno.1]; exact hstep)

theorem Reading.other (h : Reading g behind i c es s) {e : ChessEvent}
    (hstep : inputStep g behind i s (.other e) = some t) :
    Reading g behind i c (es ++ [.other e]) t := by
  obtain ⟨hs, chessd, rfl⟩ := inputStep_other hstep
  have hbytes : bytesRead (es ++ [.other e]) = bytesRead es := by simp [bytesRead]
  refine ⟨h.strayed, fun _ => h.waits hs, fun _ more => ?_, ?_, fun hquiet => ?_⟩
  · rw [hbytes]
    exact h.whole hs more
  · rw [hbytes]
    exact h.dealt_prefix
  · exact absurd (hquiet (.other e) (by simp)) (by simp [InputEvent.isRead])

theorem Reading.start (c : Chessd γ) : Reading g behind i c [] (.start c) := by
  refine ⟨rfl, fun _ => rfl, fun _ _ => rfl, List.nil_prefix, fun _ => ?_⟩
  change (deal messages (commandHandler g behind i) (c, []) []).state = _ ∧
    (deal messages (commandHandler g behind i) (c, []) []).rest = _
  rw [deal_of_wait messages.next_nil]
  exact ⟨rfl, rfl⟩

theorem Reading.uncut (h : Reading g behind i c es t) (hc : (c.user i).connected = true) :
    Uncut g behind i c es t := by
  refine ⟨h.strayed, h.dealt_prefix, fun ht => ?_, fun hquiet stream hpre hend => ?_⟩
  · have hall := h.whole ht []
    rwa [List.append_nil, List.append_nil, messagesOf, frames_of_wait messages (h.waits ht),
      List.map_nil, List.append_nil] at hall
  · obtain ⟨hstate, -⟩ := h.quiet hquiet
    obtain ⟨more, rfl⟩ := hpre
    rw [commands]
    rcases hend with hall | hgone
    · rw [← hall, hstate]
    · have hstop : (deal messages (commandHandler g behind i) (c, []) (bytesRead es)).status ≠
          .waits := by
        rw [ne_eq, ← connected_iff hc, hstate]
        simpa [ChessInput.connected] using hgone
      rw [deal_append, if_neg hstop, hstate]

/-- A run in which no freed buffer is read is one whose reads are cut well. -/
theorem cutWell_of_strayed (h : Run (inputStep g behind i) (.start c) es t)
    (ht : t.strayed = false) :
    Run (when (CutWell g behind i) (inputStep g behind i)) (.start c) es t := by
  induction h with
  | start => exact .start
  | @next es s t e hrun hstep ih =>
      have hok : s.strayed = false ∧ CutWell g behind i s e := by
        cases e with
        | read piece =>
            rw [(inputuser_eq hstep).2] at ht
            simpa [CutWell] using ht
        | other e =>
            obtain ⟨-, chessd, rfl⟩ := inputStep_other hstep
            exact ⟨ht, trivial⟩
      exact (ih hok.1).next (by rw [when, if_pos hok.2, hstep])

/-- **How the input of a client is cut into reads makes no difference, and no byte behind a
command that removes it is looked at, exactly in the runs whose reads are cut well.** -/
theorem input_run (hc : (c.user i).connected = true)
    (h : Run (inputStep g behind i) (.start c) es t) :
    Uncut g behind i c es t ↔
      Run (when (CutWell g behind i) (inputStep g behind i)) (.start c) es t := by
  constructor
  · exact fun huncut => cutWell_of_strayed h huncut.strayed
  · intro hwell
    refine Reading.uncut (hwell.invariant (Reading g behind i c) (.start c) ?_) hc
    intro es s e t hs hnext
    obtain ⟨hok, hstep⟩ := when_eq_some hnext
    cases e with
    | read piece => exact hs.read hc hok hstep
    | other e => exact hs.other hstep

/-- A client logs in with a message in two pieces, and leaves; someone else comes in between. -/
theorem input_run_login :
    ∃ t, Run (inputStep Chessd.noGames (fun _ => []) 0) (.start Chessd.initarray.newuser)
        [.read [0], .other .newuser, .read [6, 0, 97, 0], .read [0, 0, 3, 1, 0, 3]] t ∧
      t.dealt = [(0, [97, 0, 0]), (1, [])] ∧
      Uncut Chessd.noGames (fun _ => []) 0 Chessd.initarray.newuser
        [.read [0], .other .newuser, .read [6, 0, 97, 0], .read [0, 0, 3, 1, 0, 3]] t := by
  have hexec : (exec (when (CutWell Chessd.noGames (fun _ => []) 0)
      (inputStep Chessd.noGames (fun _ => []) 0)) (.start Chessd.initarray.newuser)
      [.read [0], .other .newuser, .read [6, 0, 97, 0], .read [0, 0, 3, 1, 0, 3]]).any
        (fun t => decide (t.dealt = [(0, [97, 0, 0]), (1, [])])) = true := by
    decide +kernel
  obtain ⟨t, ht, hdealt⟩ := (Option.any_eq_true _ _).mp hexec
  have hwell := Run.of_exec ht
  have hrun := hwell.of_when
  exact ⟨t, hrun, of_decide_eq_true hdealt, (input_run (by decide) hrun).mpr hwell⟩

/-- A client leaves and sends more in the same read: the server looks into the buffer it has
freed. -/
theorem input_strays :
    ∃ t, Run (inputStep Chessd.noGames (fun _ => []) 0) (.start Chessd.initarray.newuser)
        [.read [0, 3, 1, 0, 3, 5]] t ∧ t.connected 0 = false ∧
      ¬ Uncut Chessd.noGames (fun _ => []) 0 Chessd.initarray.newuser
        [.read [0, 3, 1, 0, 3, 5]] t := by
  have hexec : (exec (inputStep Chessd.noGames (fun _ => []) 0)
      (.start Chessd.initarray.newuser) [.read [0, 3, 1, 0, 3, 5]]).any
        (fun t => decide (t.connected 0 = false ∧ t.strayed = true)) = true := by
    decide +kernel
  obtain ⟨t, ht, hgone⟩ := (Option.any_eq_true _ _).mp hexec
  obtain ⟨hconn, hstrayed⟩ := of_decide_eq_true hgone
  refine ⟨t, Run.of_exec ht, hconn, fun huncut => ?_⟩
  rw [huncut.strayed] at hstrayed
  contradiction

end

end Ytht
