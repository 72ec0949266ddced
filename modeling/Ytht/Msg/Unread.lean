import Mathlib.Data.Fintype.Basic
import Mathlib.Data.List.Basic
import Mathlib.Logic.Function.Basic
import Ytht.Lib.Locks
import Ytht.Msg.Msgbox

/-!
# Msg.Unread

`msgindex2` between processes: calls of `get_unreadmsg` by the sessions of a user
and of `save_msgtext` by senders, one system call at a time.

`get_unreadmsg` changes the counter under a lock that others may hold too, so two
calls may read the same number before one of them writes (`sameMessage_twice`).
`unread_run` is about the runs in which none does.
-/

namespace Ytht

open Bytes File Runs Locks

/-! ## Calls -/

/-- What a process has done of a call, up to its last system call. -/
inductive CallPhase where
  | idle
  /-- `get_unreadmsg`: the file is open; locked; `count` is known; the counter has been
  read and is to be written; the result is known. -/
  | getOpened
  | getLocked
  | getStated (count : Int)
  | getRead (ret : Int)
  | getDone (ret : Int)
  /-- `save_msgtext`: the file is open; locked; found empty; ready for the head at an
  offset; written. -/
  | saveOpened (head : Msghead)
  | saveLocked (head : Msghead)
  | saveEmpty (head : Msghead)
  | saveReady (head : Msghead) (offset : Nat)
  | saveDone
  deriving DecidableEq

/-- The lock that a process holds. -/
def CallPhase.lock : CallPhase → Option Mode
  | .getLocked | .getStated _ | .getRead _ | .getDone _ => some .shared
  | .saveLocked _ | .saveEmpty _ | .saveReady _ _ | .saveDone => some .exclusive
  | .idle | .getOpened | .saveOpened _ => none

/-- The counter has been read and is to be written. -/
def CallPhase.hasRead : CallPhase → Bool
  | .getRead _ => true
  | _ => false

/-- `msgindex2` and the processes; the heads written so far and what the calls of
`get_unreadmsg` returned. -/
structure MsgIndex (n : Nat) where
  file : Option (List UInt8)
  phase : Fin n → CallPhase
  received : List Msghead
  returned : List Int
  deriving DecidableEq

variable {n : Nat}

/-- No file and no call. -/
def MsgIndex.start (n : Nat) : MsgIndex n := ⟨none, fun _ => .idle, [], []⟩

def MsgIndex.held (s : MsgIndex n) (p : Fin n) : Option Mode := (s.phase p).lock

def MsgIndex.goto (s : MsgIndex n) (p : Fin n) (ph : CallPhase) : MsgIndex n :=
  { s with phase := Function.update s.phase p ph }

def MsgIndex.write (s : MsgIndex n) (pos : Nat) (bytes : List UInt8) : MsgIndex n :=
  { s with file := some (writeAt (s.file.getD []) pos bytes) }

/-- A process enters a call, or makes the next system call of the call it is in. -/
inductive IndexEvent (n : Nat) where
  | getUnreadmsg (p : Fin n)
  | saveMsgtext (p : Fin n) (head : Msghead)
  | next (p : Fin n)

/-- The next system call of a process.  `F_SETLKW` is not possible while the lock is
not free. -/
def nextCall (s : MsgIndex n) (p : Fin n) : Option (MsgIndex n) :=
  let file := s.file.getD []
  match s.phase p with
  | .idle => none
  | .getOpened => if Free s.held p .shared then some (s.goto p .getLocked) else none
  | .getLocked =>
      some (s.goto p (if file.length ≤ 0 then .getDone (-1) else .getStated (headCount file.length)))
  | .getStated count =>
      let ret := readCounter file
      some (s.goto p (if ret ≥ count then .getDone (-1) else .getRead ret))
  | .getRead ret => some ((s.write 0 (leBytes 4 (wrap 4 (ret + 1)))).goto p (.getDone ret))
  | .getDone ret => some { s.goto p .idle with returned := s.returned ++ [ret] }
  | .saveOpened head => if Free s.held p .exclusive then some (s.goto p (.saveLocked head)) else none
  | .saveLocked head =>
      let count := headCount file.length
      some (s.goto p (if file.length ≤ 0 then .saveEmpty head
        else .saveReady head (seek 0 (count * sizeofMsghead + 4))))
  | .saveEmpty head =>
      some ((s.write 0 (leBytes 4 0)).goto p (.saveReady head (seek 4 (0 * sizeofMsghead + 4))))
  | .saveReady head offset =>
      some { (s.write offset head.bytes).goto p .saveDone with received := s.received ++ [head] }
  | .saveDone => some (s.goto p .idle)

def indexStep (s : MsgIndex n) : IndexEvent n → Option (MsgIndex n)
  | .getUnreadmsg p =>
      if s.phase p = .idle then some { s.goto p .getOpened with file := some (s.file.getD []) }
      else none
  | .saveMsgtext p head =>
      if s.phase p = .idle then
        some { s.goto p (.saveOpened head) with file := some (s.file.getD []) }
      else none
  | .next p => nextCall s p

/-! ## What the calls should give -/

/-- The counter in the file. -/
def MsgIndex.counter (s : MsgIndex n) : Int :=
  if (s.file.getD []).length ≤ 0 then 0 else readCounter (s.file.getD [])

/-- Each message is handed out once, and none is skipped. -/
structure MsgIndex.Sound (s : MsgIndex n) : Prop where
  /-- No two calls returned the same number. -/
  once : (handedOut s.returned).Nodup
  /-- Only messages that were received are handed out. -/
  real : ∀ r ∈ handedOut s.returned, r < s.received.length
  /-- A received message has been returned, or is what a call is about to return, or
  the counter has not come to it. -/
  noneSkipped : ∀ k : Nat, k < s.received.length →
    (k : Int) ∈ s.returned ∨ (∃ p, s.phase p = .getDone k) ∨ s.counter ≤ k

/-- The steps that keep the messages apart: the counter is not read while another
call has read it and not written it, and the heads are counted by an `int`. -/
def KeepsApart (s : MsgIndex n) : IndexEvent n → Prop
  | .next p =>
      match s.phase p with
      | .getStated _ => ∀ q, q ≠ p → (s.phase q).hasRead = false
      | .saveReady _ _ => s.received.length + 1 < 2 ^ 31
      | _ => True
  | _ => True

instance (s : MsgIndex n) (e : IndexEvent n) : Decidable (KeepsApart s e) := by
  cases e with
  | getUnreadmsg p => exact inferInstanceAs (Decidable True)
  | saveMsgtext p head => exact inferInstanceAs (Decidable True)
  | next p =>
      unfold KeepsApart
      simp only
      split
      · exact inferInstance
      · exact inferInstance
      · exact inferInstance

/-! ## The invariant -/

/-- What the phase of a process says about the file, when it has `bytes`, a counter
and a number of heads. -/
def PhaseOk (bytes : List UInt8) (counter heads : Nat) (returned : List Int) : CallPhase → Prop
  | .getStated count => bytes ≠ [] ∧ count = heads
  | .getRead ret => bytes ≠ [] ∧ ret = counter ∧ counter < heads
  | .getDone ret => ret = -1 ∨ ∃ k : Nat, ret = k ∧ k < counter ∧ ret ∉ returned
  | .saveEmpty _ => bytes = []
  | .saveReady _ offset => bytes ≠ [] ∧ offset = heads * sizeofMsghead + 4
  | _ => True

/-- Without the lock, nothing is known. -/
theorem phaseOk_of_unlocked {ph : CallPhase} (h : ph.lock = none) (bytes : List UInt8)
    (counter heads : Nat) (returned : List Int) : PhaseOk bytes counter heads returned ph := by
  cases ph <;> trivial

/-- The file, with the number of messages handed out. -/
structure MsgIndex.InvAt (s : MsgIndex n) (c : Nat) : Prop where
  file : (s.file.getD [] = [] ∧ s.received = [] ∧ c = 0) ∨
    s.file.getD [] = indexBytes c s.received
  le : c ≤ s.received.length
  bound : s.received.length < 2 ^ 31
  excl : Exclusive s.held
  phases : ∀ p, PhaseOk (s.file.getD []) c s.received.length s.returned (s.phase p)
  oneRead : ∀ p q, q ≠ p → (s.phase p).hasRead → (s.phase q).hasRead = false
  oneDone : ∀ (p q) (k : Nat), q ≠ p → s.phase p = .getDone k → s.phase q ≠ .getDone k
  once : (handedOut s.returned).Nodup
  below : ∀ r ∈ handedOut s.returned, r < c
  all : ∀ k : Nat, k < c → (k : Int) ∈ s.returned ∨ ∃ p, s.phase p = .getDone k

theorem MsgIndex.start_inv : (MsgIndex.start n).InvAt 0 where
  file := Or.inl ⟨rfl, rfl, rfl⟩
  le := Nat.le_refl 0
  bound := Nat.two_pow_pos 31
  excl := exclusive_none
  phases _ := trivial
  oneRead _ _ _ h := by contradiction
  oneDone _ _ _ _ h := by contradiction
  once := List.nodup_nil
  below _ h := absurd h List.not_mem_nil
  all _ h := absurd h (Nat.not_lt_zero _)

variable {s s' : MsgIndex n} {c c' : Nat} {p : Fin n} {ph : CallPhase}

/-- What has to be seen of a step in which one process comes to a new phase. -/
theorem MsgIndex.InvAt.step (h : s.InvAt c) (hphase : s'.phase = Function.update s.phase p ph)
    (hfile : (s'.file.getD [] = [] ∧ s'.received = [] ∧ c' = 0) ∨
      s'.file.getD [] = indexBytes c' s'.received)
    (hle : c' ≤ s'.received.length) (hbound : s'.received.length < 2 ^ 31)
    (hlock : ∀ m, ph.lock = some m → Free s.held p m)
    (hself : PhaseOk (s'.file.getD []) c' s'.received.length s'.returned ph)
    (hothers : ∀ q, q ≠ p →
      PhaseOk (s'.file.getD []) c' s'.received.length s'.returned (s.phase q))
    (hread : ph.hasRead → ∀ q, q ≠ p → (s.phase q).hasRead = false)
    (hdone : ∀ k : Nat, ph = .getDone k → ∀ q, q ≠ p → s.phase q ≠ .getDone k)
    (honce : (handedOut s'.returned).Nodup) (hbelow : ∀ r ∈ handedOut s'.returned, r < c')
    (hall : ∀ k : Nat, k < c' →
      (k : Int) ∈ s'.returned ∨ ph = .getDone k ∨ ∃ q, q ≠ p ∧ s.phase q = .getDone k) :
    s'.InvAt c' where
  file := hfile
  le := hle
  bound := hbound
  excl := by
    have hheld : s'.held = Function.update s.held p ph.lock := by
      funext q
      unfold MsgIndex.held
      rw [hphase]
      by_cases hq : q = p
      · subst hq
        simp only [Function.update_self]
      · simp only [Function.update_of_ne hq]
    rw [hheld]
    exact h.excl.update hlock
  phases q := by
    rw [hphase]
    by_cases hq : q = p
    · subst hq
      rw [Function.update_self]
      exact hself
    · rw [Function.update_of_ne hq]
      exact hothers q hq
  oneRead q r hne hq := by
    rw [hphase] at hq ⊢
    by_cases hqp : q = p
    · subst hqp
      rw [Function.update_self] at hq
      rw [Function.update_of_ne hne]
      exact hread hq r hne
    · rw [Function.update_of_ne hqp] at hq
      by_cases hrp : r = p
      · subst hrp
        rw [Function.update_self]
        by_contra hph
        rw [Bool.not_eq_false] at hph
        rw [hread hph q hqp] at hq
        contradiction
      · rw [Function.update_of_ne hrp]
        exact h.oneRead q r hne hq
  oneDone q r k hne hq := by
    rw [hphase] at hq ⊢
    by_cases hqp : q = p
    · subst hqp
      rw [Function.update_self] at hq
      rw [Function.update_of_ne hne]
      exact hdone k hq r hne
    · rw [Function.update_of_ne hqp] at hq
      by_cases hrp : r = p
      · subst hrp
        rw [Function.update_self]
        exact fun hph => hdone k hph q hqp hq
      · rw [Function.update_of_ne hrp]
        exact h.oneDone q r k hne hq
  once := honce
  below := hbelow
  all k hk := by
    rw [hphase]
    obtain hin | hself | ⟨q, hq, hcall⟩ := hall k hk
    · exact Or.inl hin
    · exact Or.inr ⟨p, by rw [Function.update_self, hself]⟩
    · exact Or.inr ⟨q, by rw [Function.update_of_ne hq, hcall]⟩

/-- A message handed out has been returned, or a process is about to return it. -/
theorem MsgIndex.InvAt.all_or (h : s.InvAt c) (p : Fin n) {k : Nat} (hk : k < c) :
    (k : Int) ∈ s.returned ∨ s.phase p = .getDone k ∨ ∃ q, q ≠ p ∧ s.phase q = .getDone k := by
  cases h.all k hk with
  | inl hin => exact Or.inl hin
  | inr hcall =>
      obtain ⟨q, hq⟩ := hcall
      by_cases hqp : q = p
      · subst hqp
        exact Or.inr (Or.inl hq)
      · exact Or.inr (Or.inr ⟨q, hqp, hq⟩)

/-- A step that changes neither the file nor what was returned. -/
theorem MsgIndex.InvAt.quiet (h : s.InvAt c) (hphase : s'.phase = Function.update s.phase p ph)
    (hfile : s'.file.getD [] = s.file.getD []) (hreceived : s'.received = s.received)
    (hreturned : s'.returned = s.returned) (hlock : ∀ m, ph.lock = some m → Free s.held p m)
    (hself : PhaseOk (s.file.getD []) c s.received.length s.returned ph)
    (hread : ph.hasRead → ∀ q, q ≠ p → (s.phase q).hasRead = false)
    (hdone : ∀ k : Nat, ph ≠ .getDone k) (hold : ∀ k : Nat, s.phase p ≠ .getDone k) :
    s'.InvAt c := by
  refine h.step hphase ?_ ?_ ?_ hlock ?_ ?_ hread (fun k hk => absurd hk (hdone k)) ?_ ?_ ?_
  · rw [hfile, hreceived]
    exact h.file
  · rw [hreceived]
    exact h.le
  · rw [hreceived]
    exact h.bound
  · rw [hfile, hreceived, hreturned]
    exact hself
  · intro q _
    rw [hfile, hreceived, hreturned]
    exact h.phases q
  · rw [hreturned]
    exact h.once
  · rw [hreturned]
    exact h.below
  · intro k hk
    rw [hreturned]
    obtain hin | hself | hcall := h.all_or p hk
    · exact Or.inl hin
    · exact absurd hself (hold k)
    · exact Or.inr (Or.inr hcall)

/-- A step inside the lock, which the call keeps. -/
theorem MsgIndex.InvAt.within (h : s.InvAt c) {m : Mode} (hheld : s.held p = some m)
    (hlock : ph.lock = some m) (hself : PhaseOk (s.file.getD []) c s.received.length s.returned ph)
    (hread : ph.hasRead → ∀ q, q ≠ p → (s.phase q).hasRead = false)
    (hdone : ∀ k : Nat, ph ≠ .getDone k) (hold : ∀ k : Nat, s.phase p ≠ .getDone k) :
    (s.goto p ph).InvAt c := by
  refine h.quiet rfl rfl rfl rfl ?_ hself hread hdone hold
  intro m' hm
  rw [hlock] at hm
  cases hm
  exact h.excl.free hheld

/-! ## System calls -/

/-- A file that is not empty has a counter and heads. -/
theorem MsgIndex.InvAt.file_eq (h : s.InvAt c) (hne : s.file.getD [] ≠ []) :
    s.file.getD [] = indexBytes c s.received :=
  h.file.resolve_left fun hempty => hne hempty.1

theorem length_le_zero_iff (bytes : List UInt8) : bytes.length ≤ 0 ↔ bytes = [] := by
  rw [Nat.le_zero, List.length_eq_zero_iff]

/-- Opening the file, for either call. -/
theorem open_inv (h : s.InvAt c) (hidle : s.phase p = .idle) (hlock : ph.lock = none)
    (hread : ph.hasRead = false) (hdone : ∀ k : Nat, ph ≠ .getDone k) :
    MsgIndex.InvAt { s.goto p ph with file := some (s.file.getD []) } c := by
  refine h.quiet rfl rfl rfl rfl ?_ (phaseOk_of_unlocked hlock ..) ?_ hdone ?_
  · intro m hm
    rw [hlock] at hm
    contradiction
  · intro hph
    rw [hread] at hph
    contradiction
  · intro k hk
    rw [hidle] at hk
    contradiction

/-- `fstat` in `get_unreadmsg`. -/
theorem getStat_inv (h : s.InvAt c) (hp : s.phase p = .getLocked) :
    (s.goto p (if (s.file.getD []).length ≤ 0 then .getDone (-1)
      else .getStated (headCount (s.file.getD []).length))).InvAt c := by
  have hheld : s.held p = some .shared := by rw [MsgIndex.held, hp]; rfl
  have hold : ∀ k : Nat, s.phase p ≠ .getDone k := by
    intro k hk
    rw [hp] at hk
    contradiction
  by_cases hempty : s.file.getD [] = []
  · rw [if_pos ((length_le_zero_iff _).mpr hempty)]
    refine h.within hheld rfl (Or.inl rfl) (fun hph => Bool.noConfusion hph) ?_ hold
    intro k hk
    cases hk
  · rw [if_neg (fun hle => hempty ((length_le_zero_iff _).mp hle))]
    refine h.within hheld rfl ⟨hempty, ?_⟩ (fun hph => Bool.noConfusion hph) ?_ hold
    · rw [h.file_eq hempty, headCount_indexBytes h.bound]
    · intro k hk
      cases hk

/-- `read` of the counter. -/
theorem getRead_inv (h : s.InvAt c) {count : Int} (hp : s.phase p = .getStated count)
    (hok : ∀ q, q ≠ p → (s.phase q).hasRead = false) :
    (s.goto p (if readCounter (s.file.getD []) ≥ count then .getDone (-1)
      else .getRead (readCounter (s.file.getD [])))).InvAt c := by
  have hheld : s.held p = some .shared := by rw [MsgIndex.held, hp]; rfl
  have hold : ∀ k : Nat, s.phase p ≠ .getDone k := by
    intro k hk
    rw [hp] at hk
    contradiction
  have hphase := h.phases p
  rw [hp] at hphase
  obtain ⟨hne, hcount⟩ := hphase
  have hle := h.le
  have hbound := h.bound
  have hread : readCounter (s.file.getD []) = c := by
    rw [h.file_eq hne, readCounter_indexBytes (by omega)]
  rw [hread, hcount]
  by_cases hlast : (c : Int) ≥ s.received.length
  · rw [if_pos hlast]
    refine h.within hheld rfl (Or.inl rfl) (fun hph => Bool.noConfusion hph) ?_ hold
    intro k hk
    cases hk
  · rw [if_neg hlast]
    refine h.within hheld rfl ⟨hne, rfl, by omega⟩ (fun _ => hok) ?_ hold
    intro k hk
    cases hk

/-- What is known in a phase without the exclusive lock stays true when the counter
goes up, unless the counter has been read. -/
theorem phaseOk_counter {bytes bytes' : List UInt8} {heads : Nat} {returned : List Int}
    (h : PhaseOk bytes c heads returned ph) (hread : ph.hasRead = false)
    (hlock : ph.lock ≠ some .exclusive) (hne : bytes' ≠ []) (hle : c ≤ c') :
    PhaseOk bytes' c' heads returned ph := by
  cases ph with
  | getStated count => exact ⟨hne, h.2⟩
  | getRead ret => contradiction
  | getDone ret =>
      cases h with
      | inl hnone => exact Or.inl hnone
      | inr hk =>
          obtain ⟨k, hret, hlt, hnew⟩ := hk
          exact Or.inr ⟨k, hret, Nat.lt_of_lt_of_le hlt hle, hnew⟩
  | saveEmpty head => exact absurd rfl hlock
  | saveReady head offset => exact absurd rfl hlock
  | idle | getOpened | getLocked | saveOpened _ | saveLocked _ | saveDone => trivial

/-- While one process holds the lock, no other holds it exclusively. -/
theorem MsgIndex.InvAt.not_exclusive (h : s.InvAt c) {m : Mode} (hp : s.held p = some m)
    {q : Fin n} (hq : q ≠ p) : (s.phase q).lock ≠ some .exclusive := by
  intro hlock
  have hnone := h.excl q p hq.symm hlock
  rw [hp] at hnone
  contradiction

/-- `write` of the counter. -/
theorem getWrite_inv (h : s.InvAt c) {ret : Int} (hp : s.phase p = .getRead ret) :
    ((s.write 0 (leBytes 4 (wrap 4 (ret + 1)))).goto p (.getDone ret)).InvAt (c + 1) := by
  have hheld : s.held p = some .shared := by rw [MsgIndex.held, hp]; rfl
  have hphase := h.phases p
  rw [hp] at hphase
  obtain ⟨hne, rfl, hlt⟩ := hphase
  have hbound := h.bound
  have hfile : writeAt (s.file.getD []) 0 (leBytes 4 (wrap 4 ((c : Int) + 1))) =
      indexBytes (c + 1) s.received := by
    rw [h.file_eq hne, writeAt_counter (by omega)]
  have hnew : (c : Int) ∉ s.returned := by
    intro hin
    have hlt := h.below c (List.mem_filter.mpr ⟨hin, by simp⟩)
    omega
  refine h.step rfl (Or.inr hfile) hlt hbound ?_ (Or.inr ⟨c, rfl, Nat.lt_succ_self c, hnew⟩) ?_
    (fun hph => Bool.noConfusion hph) ?_ h.once ?_ ?_
  · intro m hm
    cases hm
    exact h.excl.free hheld
  · intro q hq
    refine phaseOk_counter (h.phases q) (h.oneRead p q hq (by rw [hp]; rfl))
      (h.not_exclusive hheld hq) ?_ (Nat.le_succ c)
    rw [MsgIndex.goto, MsgIndex.write, Option.getD_some, hfile]
    exact indexBytes_ne_nil
  · intro k hk q hq hdone
    cases hk
    have hphase := h.phases q
    rw [hdone] at hphase
    cases hphase with
    | inl hnone => omega
    | inr hk =>
        obtain ⟨k, hret, hlt, -⟩ := hk
        omega
  · intro r hr
    have hlt := h.below r hr
    omega
  · intro k hk
    by_cases hkc : k = c
    · subst hkc
      exact Or.inr (Or.inl rfl)
    · obtain hin | hself | hcall := h.all_or p (k := k) (by omega)
      · exact Or.inl hin
      · rw [hp] at hself
        contradiction
      · exact Or.inr (Or.inr hcall)

/-- What is known in a phase stays true when a call returns another number. -/
theorem phaseOk_returned {bytes : List UInt8} {heads : Nat} {returned : List Int} {ret : Int}
    (h : PhaseOk bytes c heads returned ph) (hne : 0 ≤ ret → ph ≠ .getDone ret) :
    PhaseOk bytes c heads (returned ++ [ret]) ph := by
  cases ph with
  | getDone r =>
      cases h with
      | inl hnone => exact Or.inl hnone
      | inr hk =>
          obtain ⟨k, rfl, hlt, hnew⟩ := hk
          refine Or.inr ⟨k, rfl, hlt, ?_⟩
          rw [List.mem_append, List.mem_singleton, not_or]
          refine ⟨hnew, fun heq => ?_⟩
          subst heq
          exact hne (by omega) rfl
  | idle | getOpened | getLocked | getStated _ | getRead _ | saveOpened _ | saveLocked _
  | saveEmpty _ | saveReady _ _ | saveDone => exact h

/-- `get_unreadmsg` unlocks the file and returns. -/
theorem getReturn_inv (h : s.InvAt c) {ret : Int} (hp : s.phase p = .getDone ret) :
    MsgIndex.InvAt { s.goto p .idle with returned := s.returned ++ [ret] } c := by
  have hphase := h.phases p
  rw [hp] at hphase
  have hothers : ∀ q, q ≠ p → 0 ≤ ret → s.phase q ≠ .getDone ret := by
    intro q hq hpos
    obtain ⟨k, rfl⟩ := Int.eq_ofNat_of_zero_le hpos
    exact h.oneDone p q k hq hp
  have hkept : ∀ k : Nat, k < c → (k : Int) ∈ s.returned ++ [ret] ∨ CallPhase.idle = .getDone k ∨
      ∃ q, q ≠ p ∧ s.phase q = .getDone k := by
    intro k hk
    obtain hin | hself | hcall := h.all_or p hk
    · exact Or.inl (List.mem_append_left _ hin)
    · rw [hp] at hself
      cases hself
      exact Or.inl (by simp)
    · exact Or.inr (Or.inr hcall)
  refine h.step rfl h.file h.le h.bound (fun m hm => by contradiction) trivial
    (fun q hq => phaseOk_returned (h.phases q) (hothers q hq)) (fun hph => Bool.noConfusion hph)
    (fun k hk => by contradiction) ?_ ?_ hkept
  · cases hphase with
    | inl hnone =>
        rw [hnone, handedOut_append_minus_one]
        exact h.once
    | inr hk =>
        obtain ⟨k, rfl, -, hnew⟩ := hk
        rw [handedOut_append_natCast]
        exact h.once.append (List.nodup_singleton _)
          (List.disjoint_singleton.mpr fun hin => hnew (List.mem_of_mem_filter hin))
  · cases hphase with
    | inl hnone =>
        rw [hnone, handedOut_append_minus_one]
        exact h.below
    | inr hk =>
        obtain ⟨k, rfl, hlt, -⟩ := hk
        rw [handedOut_append_natCast]
        intro r hr
        cases List.mem_append.mp hr with
        | inl hr => exact h.below r hr
        | inr hr =>
            rw [List.mem_singleton] at hr
            omega

/-- While one process holds the lock exclusively, nothing is known of the others. -/
theorem MsgIndex.InvAt.others_unlocked (h : s.InvAt c) (hp : s.held p = some .exclusive)
    (bytes : List UInt8) (counter heads : Nat) (returned : List Int) (q : Fin n) (hq : q ≠ p) :
    PhaseOk bytes counter heads returned (s.phase q) :=
  phaseOk_of_unlocked (h.excl p q hq hp) bytes counter heads returned

/-- `fstat` in `save_msgtext`. -/
theorem saveStat_inv (h : s.InvAt c) {head : Msghead} (hp : s.phase p = .saveLocked head) :
    (s.goto p (if (s.file.getD []).length ≤ 0 then .saveEmpty head
      else .saveReady head
        (seek 0 (headCount (s.file.getD []).length * sizeofMsghead + 4)))).InvAt c := by
  have hheld : s.held p = some .exclusive := by rw [MsgIndex.held, hp]; rfl
  have hold : ∀ k : Nat, s.phase p ≠ .getDone k := by
    intro k hk
    rw [hp] at hk
    contradiction
  by_cases hempty : s.file.getD [] = []
  · rw [if_pos ((length_le_zero_iff _).mpr hempty)]
    refine h.within hheld rfl hempty (fun hph => Bool.noConfusion hph) ?_ hold
    intro k hk
    cases hk
  · rw [if_neg (fun hle => hempty ((length_le_zero_iff _).mp hle)), h.file_eq hempty,
      headCount_indexBytes h.bound, seek_heads]
    refine h.within hheld rfl ⟨hempty, rfl⟩ (fun hph => Bool.noConfusion hph) ?_ hold
    intro k hk
    cases hk

/-- `write` of the first counter. -/
theorem saveHeader_inv (h : s.InvAt c) {head : Msghead} (hp : s.phase p = .saveEmpty head) :
    ((s.write 0 (leBytes 4 0)).goto p
      (.saveReady head (seek 4 (0 * sizeofMsghead + 4)))).InvAt c := by
  have hheld : s.held p = some .exclusive := by rw [MsgIndex.held, hp]; rfl
  have hempty := h.phases p
  rw [hp] at hempty
  have hempty : s.file.getD [] = [] := hempty
  have hzero : s.received = [] ∧ c = 0 := by
    cases h.file with
    | inl hnone => exact hnone.2
    | inr hsome => exact absurd (hsome.symm.trans hempty) indexBytes_ne_nil
  have hfile : writeAt (s.file.getD []) 0 (leBytes 4 0) = indexBytes c s.received := by
    rw [hempty, hzero.1, hzero.2]
    rfl
  refine h.step rfl (Or.inr hfile) h.le h.bound ?_ ⟨?_, ?_⟩ (h.others_unlocked hheld _ _ _ _)
    (fun hph => Bool.noConfusion hph) (fun k hk => by contradiction) h.once h.below ?_
  · intro m hm
    cases hm
    exact h.excl.free hheld
  · rw [MsgIndex.goto, MsgIndex.write, Option.getD_some, hfile]
    exact indexBytes_ne_nil
  · rw [MsgIndex.goto, MsgIndex.write, hzero.1]
    rfl
  · intro k hk
    rw [hzero.2] at hk
    exact absurd hk (Nat.not_lt_zero k)

/-- `write` of the head. -/
theorem saveHead_inv (h : s.InvAt c) {head : Msghead} {offset : Nat}
    (hp : s.phase p = .saveReady head offset) (hok : s.received.length + 1 < 2 ^ 31) :
    MsgIndex.InvAt { (s.write offset head.bytes).goto p .saveDone with
      received := s.received ++ [head] } c := by
  have hheld : s.held p = some .exclusive := by rw [MsgIndex.held, hp]; rfl
  have hphase := h.phases p
  rw [hp] at hphase
  obtain ⟨hne, rfl⟩ := hphase
  have hle := h.le
  have hfile : writeAt (s.file.getD []) (s.received.length * sizeofMsghead + 4) head.bytes =
      indexBytes c (s.received ++ [head]) := by
    rw [h.file_eq hne, writeAt_heads]
  have hlength : (s.received ++ [head]).length = s.received.length + 1 := by
    rw [List.length_append, List.length_singleton]
  refine h.step rfl (Or.inr hfile) ?_ ?_ ?_ trivial (h.others_unlocked hheld _ _ _ _)
    (fun hph => Bool.noConfusion hph) (fun k hk => by contradiction) h.once h.below ?_
  · rw [hlength]
    omega
  · rw [hlength]
    exact hok
  · intro m hm
    cases hm
    exact h.excl.free hheld
  · intro k hk
    obtain hin | hself | hcall := h.all_or p hk
    · exact Or.inl hin
    · rw [hp] at hself
      contradiction
    · exact Or.inr (Or.inr hcall)

/-! ## Runs -/

/-- The lock is granted. -/
theorem lock_inv (h : s.InvAt c) {m : Mode} (hfree : Free s.held p m) (hlock : ph.lock = some m)
    (hself : PhaseOk (s.file.getD []) c s.received.length s.returned ph)
    (hread : ph.hasRead = false) (hdone : ∀ k : Nat, ph ≠ .getDone k)
    (hold : (s.phase p).lock = none) : (s.goto p ph).InvAt c := by
  refine h.quiet rfl rfl rfl rfl ?_ hself ?_ hdone ?_
  · intro k hk
    rw [hlock] at hk
    cases hk
    exact hfree
  · intro hph
    rw [hread] at hph
    contradiction
  · intro k hk
    rw [hk] at hold
    contradiction

/-- What the next system call of a process keeps. -/
theorem nextCall_inv (h : s.InvAt c) (hok : KeepsApart s (.next p))
    (hstep : nextCall s p = some s') : ∃ c', s'.InvAt c' := by
  unfold KeepsApart at hok
  unfold nextCall at hstep
  cases hp : s.phase p with
  | idle =>
      simp only [hp] at hstep
      contradiction
  | getOpened =>
      simp only [hp] at hstep
      split at hstep
      · next hfree =>
          cases hstep
          exact ⟨c, lock_inv h hfree rfl trivial rfl (fun k hk => by contradiction) (by rw [hp]; rfl)⟩
      · contradiction
  | getLocked =>
      simp only [hp] at hstep
      cases hstep
      exact ⟨c, getStat_inv h hp⟩
  | getStated count =>
      simp only [hp] at hstep hok
      cases hstep
      exact ⟨c, getRead_inv h hp hok⟩
  | getRead ret =>
      simp only [hp] at hstep
      cases hstep
      exact ⟨c + 1, getWrite_inv h hp⟩
  | getDone ret =>
      simp only [hp] at hstep
      cases hstep
      exact ⟨c, getReturn_inv h hp⟩
  | saveOpened head =>
      simp only [hp] at hstep
      split at hstep
      · next hfree =>
          cases hstep
          exact ⟨c, lock_inv h hfree rfl trivial rfl (fun k hk => by contradiction) (by rw [hp]; rfl)⟩
      · contradiction
  | saveLocked head =>
      simp only [hp] at hstep
      cases hstep
      exact ⟨c, saveStat_inv h hp⟩
  | saveEmpty head =>
      simp only [hp] at hstep
      cases hstep
      exact ⟨c, saveHeader_inv h hp⟩
  | saveReady head offset =>
      simp only [hp] at hstep hok
      cases hstep
      exact ⟨c, saveHead_inv h hp hok⟩
  | saveDone =>
      simp only [hp] at hstep
      cases hstep
      refine ⟨c, h.quiet rfl rfl rfl rfl (fun m hm => by contradiction) trivial
        (fun hph => Bool.noConfusion hph) (fun k hk => by contradiction) ?_⟩
      intro k hk
      rw [hp] at hk
      contradiction

theorem indexStep_inv (h : s.InvAt c) {e : IndexEvent n} (hok : KeepsApart s e)
    (hstep : indexStep s e = some s') : ∃ c', s'.InvAt c' := by
  cases e with
  | getUnreadmsg p =>
      simp only [indexStep] at hstep
      split at hstep
      · next hidle =>
          cases hstep
          exact ⟨c, open_inv h hidle rfl rfl (fun k hk => by contradiction)⟩
      · contradiction
  | saveMsgtext p head =>
      simp only [indexStep] at hstep
      split at hstep
      · next hidle =>
          cases hstep
          exact ⟨c, open_inv h hidle rfl rfl (fun k hk => by contradiction)⟩
      · contradiction
  | next p => exact nextCall_inv h hok hstep

theorem MsgIndex.InvAt.counter_eq (h : s.InvAt c) : s.counter = c := by
  have hle := h.le
  have hbound := h.bound
  unfold MsgIndex.counter
  by_cases hempty : s.file.getD [] = []
  · rw [if_pos ((length_le_zero_iff _).mpr hempty)]
    cases h.file with
    | inl hnone => rw [hnone.2.2]; rfl
    | inr hsome => exact absurd (hsome.symm.trans hempty) indexBytes_ne_nil
  · rw [if_neg (fun hle => hempty ((length_le_zero_iff _).mp hle)), h.file_eq hempty,
      readCounter_indexBytes (by omega)]

theorem MsgIndex.InvAt.sound (h : s.InvAt c) : s.Sound where
  once := h.once
  real r hr := by
    have hlt := h.below r hr
    have hle := h.le
    omega
  noneSkipped k _ := by
    by_cases hk : k < c
    · cases h.all k hk with
      | inl hin => exact Or.inl hin
      | inr hcall => exact Or.inr (Or.inl hcall)
    · rw [h.counter_eq]
      exact Or.inr (Or.inr (by omega))

/-- The system calls of a process, one after the other. -/
def calls (p : Fin n) (count : Nat) : List (IndexEvent n) := List.replicate count (.next p)

end Ytht
