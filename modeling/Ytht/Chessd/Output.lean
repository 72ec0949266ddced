import Mathlib.Data.List.Basic
import Mathlib.Data.List.GetD
import Ytht.Lib.Bytes
import Ytht.Lib.Runs

/-!
# Chessd.Output

What the chess server sends to one client: the queue that `addmsgqueue` fills
and `outputuser` empties, through writes that may stop at any byte.

`&outq->m + outn` counts in messages of `sizeof (struct mymsg)` bytes, not in
bytes, so after a partial write the next one sends other memory
(`output_sends_other_memory`).  `output_faithful` is about the runs in which no
write has to go on with a message.
-/

namespace Ytht

open Bytes Runs

/-! ## Messages -/

/-- `sizeof (struct mymsg)`: a short, a byte, one byte of data. -/
def sizeofMymsg : Nat := 4

/-- A message as its sender builds it, and the memory behind it.  The length is a
short. -/
structure Mymsg where
  cmd : UInt8
  data : List UInt8
  beyond : Nat → UInt8
  fits : 3 + data.length < 32768

/-- `len`, in the order of the host. -/
def Mymsg.len (m : Mymsg) : Nat := 3 + m.data.length

/-- `simplemq`. -/
def simplemq (cmd : UInt8) (beyond : Nat → UInt8) : Mymsg :=
  ⟨cmd, [], beyond, by simp⟩

/-- `strmq`. -/
def strmq (cmd : UInt8) (str : List UInt8) (beyond : Nat → UInt8)
    (h : 4 + str.length < 32768) : Mymsg :=
  ⟨cmd, str ++ [0], beyond, by simp; omega⟩

/-- The message on the wire, with its length in network order. -/
def Mymsg.wire (m : Mymsg) : List UInt8 :=
  UInt8.ofNat (m.len / 256) :: UInt8.ofNat m.len :: m.cmd :: m.data

/-- `htons`, on a host that stores the low byte first. -/
def htons (n : Nat) : Nat := n % 256 * 256 + n / 256 % 256

/-- `struct mymsgqueue`: a message, with what its field `len` holds now. -/
structure Mymsgqueue where
  m : Mymsg
  len : Nat

/-- The byte at an offset from `&m`. -/
def Mymsgqueue.memory (mq : Mymsgqueue) (i : Nat) : UInt8 :=
  (leBytes 2 mq.len ++ mq.m.cmd :: mq.m.data).getD i (mq.m.beyond i)

/-! ## The queue of a client -/

/-- The fields of `struct userarray` for output, and the client's bit in `fdsw0`. -/
structure Userarray where
  /-- `fd >= 0` -/
  connected : Bool
  outlen : Nat
  outn : Nat
  ninq : Nat
  outq : List Mymsgqueue
  fdsw : Bool

/-- What `newuser` makes of an entry that was used before.  The bit in `fdsw0` is
that of the new socket, whatever it is. -/
def newuser (old : Userarray) : Userarray :=
  { old with connected := true, ninq := 0, outq := [] }

/-- A message becomes the head of the queue: its length is kept in the order of
the host, and swapped in the message. -/
def Userarray.setHead (u : Userarray) (mq : Mymsgqueue) (next : List Mymsgqueue) : Userarray :=
  { u with outlen := mq.len, outn := 0, outq := { mq with len := htons mq.len } :: next }

/-- `addmsgqueue`. -/
def addmsgqueue (u : Userarray) (m : Mymsg) : Userarray :=
  if u.connected = false then u
  else
    let u := { u with ninq := u.ninq + 1 }
    match u.outq with
    | [] => { u.setHead ⟨m, m.len⟩ [] with fdsw := true }
    | mq :: next => { u with outq := mq :: next ++ [⟨m, m.len⟩] }

/-- `removeuser`. -/
def removeuser (u : Userarray) : Userarray :=
  { u with connected := false, outq := [], fdsw := false }

/-- The bytes that `write` is given: `outlen - outn` of them from
`&outq->m + outn`. -/
def Userarray.writeBuf (u : Userarray) : List UInt8 :=
  match u.outq with
  | [] => []
  | mq :: _ =>
      (List.range (u.outlen - u.outn)).map fun j => mq.memory (sizeofMymsg * u.outn + j)

/-- What follows a write of `retv` bytes, up to the end of the loop's body; and
whether the loop goes on. -/
def written (u : Userarray) (retv : Nat) : Userarray × Bool :=
  let u := { u with outn := u.outn + retv }
  if u.outn = u.outlen then
    let u := { u with ninq := u.ninq - 1 }
    match u.outq.tail with
    | [] => ({ u with outq := [] }, false)
    | q :: next => (u.setHead q next, decide (0 < u.ninq))
  else (u, decide (0 < u.ninq))

/-! ## Runs -/

/-- Where the server is: not in `outputuser` for this client, in its loop, or in
`cleanupwaitqueue` after the loop, which may run commands. -/
inductive OutPhase
  | outside
  | loop
  | cleanup
  deriving DecidableEq

/-- The server's side of one client; with the bytes it has sent to it, and the
messages it has queued for it. -/
structure Client where
  user : Userarray
  phase : OutPhase
  sent : List UInt8
  queued : List Mymsg

/-- A client that has just connected. -/
def Client.new (old : Userarray) : Client := ⟨newuser old, .outside, [], []⟩

/-- What `write` returns. -/
inductive WriteResult
  | wrote (retv : Nat)
  | eintr
  | eagain
  | error

inductive OutEvent
  | add (m : Mymsg)
  | output
  | write (r : WriteResult)
  | leave
  | remove

/-- One call of `write`, and what `outputuser` makes of its result. -/
def writeStep (c : Client) : WriteResult → Option Client
  | .wrote retv =>
      if retv ≤ c.user.outlen - c.user.outn then
        some { c with
          user := (written c.user retv).1
          phase := if (written c.user retv).2 then .loop else .cleanup
          sent := c.sent ++ c.user.writeBuf.take retv }
      else none
  | .eintr => some c
  | .eagain => some { c with phase := .cleanup }
  | .error => some { c with user := removeuser c.user, phase := .outside }

/-- The server and the client's connection, one event. -/
def outStep (c : Client) : OutEvent → Option Client
  | .add m =>
      if c.phase = .loop then none
      else
        some { c with
          user := addmsgqueue c.user m
          queued := if c.user.connected then c.queued ++ [m] else c.queued }
  | .output =>
      -- `outputuser` is called when `select` finds the client writable
      if c.phase = .outside ∧ c.user.fdsw = true ∧ c.user.connected = true then
        some { c with phase := if 0 < c.user.ninq then .loop else .cleanup }
      else none
  | .write r => if c.phase = .loop then writeStep c r else none
  | .leave =>
      if c.phase = .cleanup then
        some { c with
          phase := .outside
          user := if c.user.ninq = 0 then { c.user with fdsw := false } else c.user }
      else none
  | .remove =>
      if c.phase = .loop then none else some { c with user := removeuser c.user }

/-- A write that has to go on with the message at the head, and sends something. -/
def Resumes (c : Client) : OutEvent → Bool
  | .write (.wrote retv) => c.user.outn != 0 && retv != 0
  | _ => false

/-- The runs in which no write does. -/
def wholeStep (c : Client) (e : OutEvent) : Option Client :=
  if Resumes c e then none else outStep c e

/-! ## What the client is to see -/

def wires (ms : List Mymsg) : List UInt8 := (ms.map Mymsg.wire).flatten

/-- What has still to be sent: the queue, but for what has been sent of its head. -/
def Userarray.pending (u : Userarray) : List UInt8 :=
  (wires (u.outq.map Mymsgqueue.m)).drop u.outn

/-- The client has been sent a part of the queued messages from the first byte on,
and while it is connected the rest is still there. -/
structure Faithful (c : Client) : Prop where
  isPrefix : c.sent <+: wires c.queued
  rest : c.user.connected = true → c.sent ++ c.user.pending = wires c.queued

/-! ## A message in memory -/

theorem Mymsg.length_wire (m : Mymsg) : m.wire.length = m.len := by
  simp only [Mymsg.wire, Mymsg.len, List.length_cons]
  omega

/-- Swapped by `htons`, a length is in memory as it is on the wire. -/
theorem leBytes_htons (n : Nat) :
    leBytes 2 (htons n) = [UInt8.ofNat (n / 256), UInt8.ofNat n] := by
  have hlow : UInt8.ofNat (htons n) = UInt8.ofNat (n / 256) := by
    refine UInt8.toNat_inj.mp ?_
    simp only [UInt8.toNat_ofNat', htons]
    omega
  have hhigh : UInt8.ofNat (htons n / 256) = UInt8.ofNat n := by
    have hdiv : htons n / 256 = n % 256 := by
      have hlt : n / 256 % 256 < 256 := Nat.mod_lt _ (by decide)
      rw [htons, Nat.mul_comm, Nat.mul_add_div (by decide), Nat.div_eq_of_lt hlt, Nat.add_zero]
    refine UInt8.toNat_inj.mp ?_
    simp only [UInt8.toNat_ofNat', hdiv]
    omega
  simp only [leBytes, hlow, hhigh]

/-- The memory of a head of the queue is its message on the wire. -/
theorem Mymsgqueue.memory_head {mq : Mymsgqueue} (h : mq.len = htons mq.m.len) (i : Nat) :
    mq.memory i = mq.m.wire.getD i (mq.m.beyond i) := by
  rw [Mymsgqueue.memory, h, leBytes_htons]
  rfl

/-- **A write that starts with a message** is given that message. -/
theorem writeBuf_whole {u : Userarray} {mq : Mymsgqueue} {next : List Mymsgqueue}
    (hq : u.outq = mq :: next) (hlen : mq.len = htons mq.m.len) (hout : u.outlen = mq.m.len)
    (h0 : u.outn = 0) : u.writeBuf = mq.m.wire := by
  simp only [Userarray.writeBuf, hq]
  refine List.ext_getElem ?_ fun i hi hi' => ?_
  · rw [List.length_map, List.length_range, Mymsg.length_wire]
    omega
  · rw [List.getElem_map, List.getElem_range, Mymsgqueue.memory_head hlen, h0, Nat.mul_zero,
      Nat.zero_add, List.getD_eq_getElem _ _ hi']

/-! ## The invariant -/

theorem wires_append (ms ms' : List Mymsg) : wires (ms ++ ms') = wires ms ++ wires ms' := by
  simp [wires]

@[simp] theorem wires_nil : wires [] = [] := rfl

@[simp] theorem wires_cons (m : Mymsg) (ms : List Mymsg) : wires (m :: ms) = m.wire ++ wires ms := rfl

/-- The head of the queue has its length swapped and kept, the others not yet. -/
def Userarray.HeadOk (u : Userarray) : Prop :=
  ∀ mq next, u.outq = mq :: next → mq.len = htons mq.m.len ∧ u.outlen = mq.m.len ∧
    u.outn < mq.m.len ∧ ∀ r ∈ next, r.len = r.m.len

theorem setHead_headOk (u : Userarray) {mq : Mymsgqueue} {next : List Mymsgqueue}
    (hlen : mq.len = mq.m.len) (hnext : ∀ r ∈ next, r.len = r.m.len) :
    (u.setHead mq next).HeadOk := by
  intro mq' next' heq
  simp only [Userarray.setHead, List.cons.injEq] at heq
  obtain ⟨rfl, rfl⟩ := heq
  refine ⟨by rw [hlen], hlen, ?_, hnext⟩
  show 0 < mq.m.len
  unfold Mymsg.len
  omega

theorem setHead_pending (u : Userarray) (mq : Mymsgqueue) (next : List Mymsgqueue) :
    (u.setHead mq next).pending = mq.m.wire ++ wires (next.map Mymsgqueue.m) := rfl

theorem pending_nil {u : Userarray} (hq : u.outq = []) : u.pending = [] := by
  simp [Userarray.pending, hq]

/-- What is pending of a queue: the rest of its head, then the others. -/
theorem pending_cons {u : Userarray} {mq : Mymsgqueue} {next : List Mymsgqueue}
    (hq : u.outq = mq :: next) (hle : u.outn ≤ mq.m.len) :
    u.pending = mq.m.wire.drop u.outn ++ wires (next.map Mymsgqueue.m) := by
  rw [Userarray.pending, hq, List.map_cons, wires_cons,
    List.drop_append_of_le_length (by rwa [Mymsg.length_wire])]

/-- A message that joins the others waits behind them. -/
theorem pending_append {u u' : Userarray} {mq : Mymsgqueue} {next : List Mymsgqueue}
    (r : Mymsgqueue) (hq : u.outq = mq :: next) (hle : u.outn ≤ mq.m.len)
    (hq' : u'.outq = mq :: (next ++ [r])) (hn : u'.outn = u.outn) :
    u'.pending = u.pending ++ r.m.wire := by
  rw [pending_cons hq hle, pending_cons hq' (by rwa [hn]), hn, List.map_append, wires_append,
    List.append_assoc]
  simp

/-- What the queue of a connected client satisfies. -/
structure Userarray.Inv (u : Userarray) : Prop where
  count : u.ninq = u.outq.length
  head : u.HeadOk

/-- **A message is queued behind the others.** -/
theorem addmsgqueue_spec {u : Userarray} (hconn : u.connected = true) (hu : u.Inv) (m : Mymsg) :
    (addmsgqueue u m).Inv ∧ (addmsgqueue u m).pending = u.pending ++ m.wire := by
  unfold addmsgqueue
  rw [if_neg (by simp [hconn])]
  cases hq : u.outq with
  | nil =>
      refine ⟨⟨?_, ?_⟩, ?_⟩
      · show u.ninq + 1 = 1
        rw [hu.count, hq, List.length_nil]
      · exact setHead_headOk { u with ninq := u.ninq + 1 } rfl
          (fun r hr => absurd hr List.not_mem_nil)
      · rw [pending_nil hq]
        exact (setHead_pending u ⟨m, m.len⟩ []).trans (List.append_nil _)
  | cons mq next =>
      obtain ⟨hlen, hout, hlt, hnext⟩ := hu.head mq next hq
      refine ⟨⟨?_, ?_⟩, ?_⟩
      · show u.ninq + 1 = (mq :: (next ++ [_])).length
        rw [hu.count, hq, List.length_cons, List.length_cons, List.length_append,
          List.length_singleton]
      · intro mq' next' heq
        simp only [List.cons_append, List.cons.injEq] at heq
        obtain ⟨rfl, rfl⟩ := heq
        refine ⟨hlen, hout, hlt, fun r hr => ?_⟩
        cases List.mem_append.mp hr with
        | inl hold => exact hnext r hold
        | inr hnew => rw [List.mem_singleton.mp hnew]
      · exact pending_append ⟨m, m.len⟩ hq (by omega) rfl rfl

/-- The last message is complete. -/
theorem written_last {u : Userarray} {mq : Mymsgqueue} {retv : Nat} (hq : u.outq = [mq])
    (hdone : u.outn + retv = u.outlen) :
    written u retv =
      ({ u with outn := u.outlen, ninq := u.ninq - 1, outq := [] }, false) := by
  simp only [written, hdone, if_true, hq, List.tail_cons]

/-- The head is complete, and the next message takes its place. -/
theorem written_next {u : Userarray} {mq r : Mymsgqueue} {next : List Mymsgqueue} {retv : Nat}
    (hq : u.outq = mq :: r :: next) (hdone : u.outn + retv = u.outlen) :
    written u retv =
      ({ u with outn := u.outlen, ninq := u.ninq - 1 }.setHead r next,
        decide (0 < u.ninq - 1)) := by
  simp only [written, hdone, if_true, hq, List.tail_cons, Userarray.setHead]

/-- The head is not complete. -/
theorem written_part {u : Userarray} {retv : Nat} (hpart : u.outn + retv ≠ u.outlen) :
    written u retv = ({ u with outn := u.outn + retv }, decide (0 < u.ninq)) := by
  simp only [written, if_neg hpart]

theorem written_connected (u : Userarray) (retv : Nat) :
    (written u retv).1.connected = u.connected := by
  unfold written
  dsimp only
  split
  · split <;> rfl
  · rfl

/-- **What a write took leaves the queue**, and nothing else does: the head when it
is complete, and otherwise the part of it that was written. -/
theorem written_spec {u : Userarray} {mq : Mymsgqueue} {next : List Mymsgqueue} {retv : Nat}
    (hu : u.Inv) (hq : u.outq = mq :: next) (hle : retv ≤ u.outlen - u.outn) :
    (written u retv).1.Inv ∧
      (mq.m.wire.drop u.outn).take retv ++ (written u retv).1.pending = u.pending ∧
      ((written u retv).2 = true → (written u retv).1.outq ≠ []) := by
  obtain ⟨hlen, hout, hlt, hnext⟩ := hu.head mq next hq
  have hpending := pending_cons hq (Nat.le_of_lt hlt)
  have hcount : u.ninq = next.length + 1 := by rw [hu.count, hq, List.length_cons]
  by_cases hdone : u.outn + retv = u.outlen
  · have hall : (mq.m.wire.drop u.outn).take retv = mq.m.wire.drop u.outn := by
      refine List.take_of_length_le ?_
      rw [List.length_drop, Mymsg.length_wire]
      omega
    rw [hall, hpending]
    cases next with
    | nil =>
        rw [written_last hq hdone]
        refine ⟨⟨?_, ?_⟩, ?_, fun h => absurd h Bool.false_ne_true⟩
        · show u.ninq - 1 = 0
          rw [hcount, List.length_nil]
        · intro mq' next' heq
          exact absurd heq (List.cons_ne_nil _ _).symm
        · rw [pending_nil rfl]
          rfl
    | cons r next =>
        rw [written_next hq hdone]
        refine ⟨⟨?_, ?_⟩, ?_, fun _ => List.cons_ne_nil _ _⟩
        · show u.ninq - 1 = (r :: next).length
          rw [hcount, Nat.add_sub_cancel]
        · exact setHead_headOk _ (hnext r List.mem_cons_self)
            fun q hq => hnext q (List.mem_cons_of_mem r hq)
        · rw [setHead_pending, List.map_cons, wires_cons]
  · have hmore : u.outn + retv < mq.m.len := by omega
    rw [written_part hdone]
    refine ⟨⟨hu.count, ?_⟩, ?_, fun _ => ?_⟩
    · intro mq' next' heq
      obtain ⟨rfl, rfl⟩ := List.cons.inj (hq.symm.trans heq)
      exact ⟨hlen, hout, hmore, hnext⟩
    · have hrest := @pending_cons { u with outn := u.outn + retv } mq next hq (Nat.le_of_lt hmore)
      rw [hrest, hpending, ← List.append_assoc, ← List.drop_drop, List.take_append_drop]
    · show u.outq ≠ []
      rw [hq]
      exact List.cons_ne_nil mq next

/-! ## The server's side of a client -/

theorem Faithful.of_rest {c : Client} (h : c.sent ++ c.user.pending = wires c.queued) :
    Faithful c :=
  ⟨⟨_, h⟩, fun _ => h⟩

/-- What holds between two events, and in the loop of `outputuser` before each write. -/
structure Client.Inv (c : Client) : Prop where
  queue : c.user.connected = true → c.user.Inv
  loop : c.phase = .loop → c.user.connected = true ∧ c.user.outq ≠ []
  faithful : Faithful c

theorem Client.new_inv (old : Userarray) : (Client.new old).Inv where
  queue _ := ⟨rfl, fun _ _ h => absurd h (List.cons_ne_nil _ _).symm⟩
  loop h := by contradiction
  faithful := Faithful.of_rest (pending_nil rfl)

/-- The server goes on elsewhere. -/
theorem Client.Inv.moved {c : Client} (hc : c.Inv) {p : OutPhase}
    (hp : p = .loop → c.user.connected = true ∧ c.user.outq ≠ []) :
    Client.Inv { c with phase := p } :=
  ⟨hc.queue, hp, hc.faithful.isPrefix, hc.faithful.rest⟩

/-- The server stops waiting until the client is writable. -/
theorem Client.Inv.fdClr {c : Client} (hc : c.Inv) :
    Client.Inv { c with user := { c.user with fdsw := false } } where
  queue h := ⟨(hc.queue h).count, (hc.queue h).head⟩
  loop := hc.loop
  faithful := ⟨hc.faithful.isPrefix, hc.faithful.rest⟩

/-- A client that is removed keeps what it was sent. -/
theorem Client.Inv.removed {c : Client} (hc : c.Inv) {p : OutPhase} (hp : p ≠ .loop) :
    Client.Inv { c with user := removeuser c.user, phase := p } where
  queue h := absurd h Bool.false_ne_true
  loop h := absurd h hp
  faithful := ⟨hc.faithful.isPrefix, fun h => absurd h Bool.false_ne_true⟩

/-- A command queues a message. -/
theorem Client.Inv.add {c : Client} (hc : c.Inv) (hp : c.phase ≠ .loop) (m : Mymsg) :
    Client.Inv { c with
      user := addmsgqueue c.user m
      queued := if c.user.connected then c.queued ++ [m] else c.queued } := by
  cases hconn : c.user.connected with
  | false =>
      have hsame : addmsgqueue c.user m = c.user := by rw [addmsgqueue, if_pos hconn]
      rw [hsame]
      exact ⟨hc.queue, hc.loop, hc.faithful⟩
  | true =>
      obtain ⟨hqueue, hpending⟩ := addmsgqueue_spec hconn (hc.queue hconn) m
      refine ⟨fun _ => hqueue, fun h => absurd h hp, Faithful.of_rest ?_⟩
      show c.sent ++ (addmsgqueue c.user m).pending = wires (c.queued ++ [m])
      rw [hpending, wires_append, ← hc.faithful.rest hconn, List.append_assoc]
      simp

/-- **A write that starts with a message** sends what leaves the queue. -/
theorem Client.Inv.wrote {c : Client} (hc : c.Inv) (hp : c.phase = .loop) {retv : Nat}
    (hwhole : c.user.outn = 0 ∨ retv = 0) (hle : retv ≤ c.user.outlen - c.user.outn) :
    Client.Inv { c with
      user := (written c.user retv).1
      phase := if (written c.user retv).2 then .loop else .cleanup
      sent := c.sent ++ c.user.writeBuf.take retv } := by
  obtain ⟨hconn, hne⟩ := hc.loop hp
  obtain ⟨mq, next, hq⟩ := List.exists_cons_of_ne_nil hne
  have hqueue := hc.queue hconn
  obtain ⟨hlen, hout, -, -⟩ := hqueue.head mq next hq
  obtain ⟨hqueue', hpending, hloop⟩ := written_spec hqueue hq hle
  have hbuf : c.user.writeBuf.take retv = (mq.m.wire.drop c.user.outn).take retv := by
    cases hwhole with
    | inl h0 => rw [writeBuf_whole hq hlen hout h0, h0, List.drop_zero]
    | inr hnone => rw [hnone, List.take_zero, List.take_zero]
  refine ⟨fun _ => hqueue', fun h => ⟨?_, hloop ?_⟩, Faithful.of_rest ?_⟩
  · rw [written_connected, hconn]
  · by_contra hleft
    rw [if_neg hleft] at h
    contradiction
  · show c.sent ++ c.user.writeBuf.take retv ++ (written c.user retv).1.pending = wires c.queued
    rw [hbuf, List.append_assoc, hpending, hc.faithful.rest hconn]

/-- One write, which does not go on with a message. -/
theorem Client.Inv.writeStep {c c' : Client} (hc : c.Inv) (hp : c.phase = .loop) {r : WriteResult}
    (hwhole : ¬ Resumes c (.write r) = true) (h : writeStep c r = some c') : c'.Inv := by
  cases r with
  | wrote retv =>
      have hstart : c.user.outn = 0 ∨ retv = 0 := by
        simp only [Resumes, Bool.and_eq_true, bne_iff_ne] at hwhole
        omega
      simp only [Ytht.writeStep] at h
      split at h
      · next hle =>
          cases h
          exact hc.wrote hp hstart hle
      · contradiction
  | eintr =>
      cases h
      exact hc
  | eagain =>
      cases h
      exact hc.moved fun h => by contradiction
  | error =>
      cases h
      exact hc.removed (by decide)

/-- The end of `outputuser`. -/
theorem Client.Inv.leave {c : Client} (hc : c.Inv) :
    Client.Inv { c with
      phase := .outside
      user := if c.user.ninq = 0 then { c.user with fdsw := false } else c.user } := by
  by_cases hzero : c.user.ninq = 0
  · rw [if_pos hzero]
    exact hc.fdClr.moved fun h => by contradiction
  · rw [if_neg hzero]
    exact hc.moved fun h => by contradiction

/-- The loop of `outputuser` is entered with a message in the queue. -/
theorem Client.Inv.output {c : Client} (hc : c.Inv) (hconn : c.user.connected = true) :
    Client.Inv { c with phase := if 0 < c.user.ninq then .loop else .cleanup } := by
  refine hc.moved fun hloop => ⟨hconn, fun hnil => ?_⟩
  have hzero : c.user.ninq = 0 := by
    rw [(hc.queue hconn).count, hnil, List.length_nil]
  rw [hzero] at hloop
  contradiction

/-- **One event keeps the invariant**, unless it is a write that goes on with a message. -/
theorem wholeStep_inv {c c' : Client} {e : OutEvent} (hc : c.Inv)
    (h : wholeStep c e = some c') : c'.Inv := by
  unfold wholeStep at h
  by_cases hres : Resumes c e = true
  · rw [if_pos hres] at h
    contradiction
  rw [if_neg hres] at h
  cases e with
  | add m =>
      simp only [outStep] at h
      split at h
      · contradiction
      · next hp =>
          cases h
          exact hc.add hp m
  | output =>
      simp only [outStep] at h
      split at h
      · next hcan =>
          cases h
          exact hc.output hcan.2.2
      · contradiction
  | write r =>
      simp only [outStep] at h
      split at h
      · next hp => exact hc.writeStep hp hres h
      · contradiction
  | leave =>
      simp only [outStep] at h
      split at h
      · cases h
        exact hc.leave
      · contradiction
  | remove =>
      simp only [outStep] at h
      split at h
      · contradiction
      · next hp =>
          cases h
          exact hc.removed hp

/-- **What a client is sent is what was queued for it**, in every run in which no
write has to go on with a message. -/
theorem output_faithful {old : Userarray} {es : List OutEvent} {c : Client}
    (h : Run wholeStep (Client.new old) es c) : Faithful c :=
  (h.invariant (fun _ (c : Client) => c.Inv) (Client.new_inv old)
    fun _ _ _ _ hc hstep => wholeStep_inv hc hstep).faithful

/-- An entry of `uarray` that was not used before. -/
def unusedEntry : Userarray := ⟨false, 0, 0, 0, [], false⟩

/-- `"hello"`, of nine bytes on the wire. -/
def hello : Mymsg := strmq 67 [104, 101, 108, 108, 111] (fun _ => 0) (by decide)

theorem output_faithful_twoMessages :
    ∃ c, Run wholeStep (Client.new unusedEntry)
        [.add hello, .add (simplemq 4 fun _ => 0), .output, .write .eintr, .write (.wrote 9),
          .write (.wrote 1), .write .eagain, .leave] c ∧
      c.sent = hello.wire ++ [0] ∧ Faithful c := by
  have hrun : Run wholeStep (Client.new unusedEntry)
      [.add hello, .add (simplemq 4 fun _ => 0), .output, .write .eintr, .write (.wrote 9),
        .write (.wrote 1), .write .eagain, .leave] _ := Run.of_exec rfl
  exact ⟨_, hrun, rfl, output_faithful hrun⟩

/-- A write takes two of the nine bytes.  The next one is given the bytes from
offset 8 on, and not from offset 2 on. -/
theorem output_sends_other_memory :
    ∃ c, Run outStep (Client.new unusedEntry)
        [.add hello, .output, .write (.wrote 2), .write (.wrote 7)] c ∧
      c.queued = [hello] ∧ c.sent ≠ hello.wire ∧ ¬ Faithful c := by
  have hrun : Run outStep (Client.new unusedEntry)
      [.add hello, .output, .write (.wrote 2), .write (.wrote 7)] _ := Run.of_exec rfl
  refine ⟨_, hrun, rfl, by decide, fun hfaithful => ?_⟩
  have hbegins := hfaithful.isPrefix
  revert hbegins
  decide

end Ytht
