import Mathlib.Data.Finset.Card
import Mathlib.Data.Nat.Bitwise
import Ytht.Lib.Runs
import Ytht.Pop3.Session

/-!
# Pop3.Maildrop

What a POP3 session is for: a maildrop is the messages as they were at the
login, with the numbers that were asked to be deleted since the last RSET.  The
session shows such a maildrop in every command (`Session.Shows`).

`pop3_exact_iff` says which runs end with the right mailbox: `do_delete` tests
`!fcache[i].accessed & FH_DIGEST`, which is 0 whatever the flags, so a QUIT after
a DELE removes every message that is not `FH_MARKED`.
-/

namespace Ytht

open Runs

/-- The messages of a session, and the numbers of those that are to go. -/
structure Maildrop where
  msgs : List FileHeader
  asked : Finset Nat

namespace Maildrop

/-- There is a message of this number, and it is not to be deleted. -/
def Has (m : Maildrop) (num : Int) : Prop :=
  1 ≤ num ∧ num ≤ m.msgs.length ∧ num.toNat ∉ m.asked

instance (m : Maildrop) (num : Int) : Decidable (m.Has num) := inferInstanceAs (Decidable (_ ∧ _))

/-- DELE of a number. -/
def ask (m : Maildrop) (num : Int) : Maildrop :=
  if m.Has num then { m with asked := insert num.toNat m.asked } else m

/-- A command. -/
def command (m : Maildrop) (cmd : Command) (msg : List UInt8) : Maildrop :=
  match cmd with
  | .dele => if (nextword msg).1 = [] then m else m.ask (atoi (nextword msg).1)
  | .rset => { m with asked := ∅ }
  | _ => m

/-- A command line. -/
def line (m : Maildrop) (inbuf : List UInt8) : Maildrop :=
  match parseLine inbuf with
  | some (some cmd, msg) => m.command cmd msg
  | _ => m

/-- The maildrop after some events. -/
def after (m : Maildrop) : List Pop3Event → Maildrop
  | [] => m
  | .line inbuf :: es => (m.line inbuf).after es
  | _ :: es => m.after es

/-- Messages are never removed that are marked to be kept. -/
def Kept (fh : FileHeader) : Prop := fh.accessed &&& fhMarked ≠ 0

instance : DecidablePred Kept := fun fh => inferInstanceAs (Decidable (fh.accessed &&& fhMarked ≠ 0))

/-- What a QUIT leaves of the messages. -/
def left (m : Maildrop) : List FileHeader :=
  ((List.range m.msgs.length).filter fun i : Nat => i + 1 ∉ m.asked ∨ Kept (recAt m.msgs i)).map
    fun i : Nat => recAt m.msgs i

end Maildrop

/-- The mail that arrived. -/
def mailOf : List Pop3Event → List FileHeader
  | [] => []
  | .mail fh :: es => fh :: mailOf es
  | _ :: es => mailOf es

/-! ## The flag -/

theorem and_fhDigest (x : Nat) : x &&& fhDigest = (x.testBit 3).toNat * 8 :=
  Nat.and_two_pow x 3

theorem or_fhDigest_and (x : Nat) : (x ||| fhDigest) &&& fhDigest = fhDigest := by
  have hbit : fhDigest.testBit 3 = true := by decide
  rw [and_fhDigest, Nat.testBit_or, hbit, Bool.or_true]
  rfl

open Session in
theorem clearDigest_of_clear {x : Nat} (h : x &&& fhDigest = 0) : clearDigest x = x := by
  rw [clearDigest, h, Nat.xor_zero]

open Session in
theorem clearDigest_or {x : Nat} (h : x &&& fhDigest = 0) : clearDigest (x ||| fhDigest) = x := by
  rw [clearDigest, or_fhDigest_and]
  refine Nat.eq_of_testBit_eq fun i => ?_
  have hbit := congrArg (Nat.testBit · i) h
  simp only [Nat.testBit_and, Nat.zero_testBit] at hbit
  simp only [Nat.testBit_xor, Nat.testBit_or]
  cases hx : x.testBit i <;> cases hd : fhDigest.testBit i <;> simp_all

/-- `do_delete`'s test is 0 whatever the flags are. -/
theorem cNot_and_fhDigest (x : Nat) : cNot x &&& fhDigest = 0 := by
  unfold cNot
  split <;> rfl

/-! ## The session shows the maildrop -/

/-- The cached records are the messages, with `FH_DIGEST` for those that are to
go, and `markdel` counts these. -/
structure Session.Shows (s : Session) (m : Maildrop) : Prop where
  total : s.totalnum = m.msgs.length
  cached : ∀ i : Nat, i < m.msgs.length → recAt s.fcache i =
    if i + 1 ∈ m.asked then
      { recAt m.msgs i with accessed := (recAt m.msgs i).accessed ||| fhDigest }
    else recAt m.msgs i
  count : s.markdel = m.asked.card
  numbers : ∀ n ∈ m.asked, 1 ≤ n ∧ n ≤ m.msgs.length

/-- No message carries `FH_DIGEST` at the login. -/
def Fresh (msgs : List FileHeader) : Prop :=
  ∀ i : Nat, (recAt msgs i).accessed &&& fhDigest = 0

theorem Fresh.of_mem {msgs : List FileHeader} (h : ∀ fh ∈ msgs, fh.accessed &&& fhDigest = 0) :
    Fresh msgs := by
  intro i
  by_cases hi : i < msgs.length
  · rw [recAt_eq_getElem hi]
    exact h _ (List.getElem_mem hi)
  · rw [recAt_natCast, List.getD_eq_default _ _ (by omega)]
    rfl

section Shows

variable {s : Session} {m : Maildrop} (h : s.Shows m) (hfresh : Fresh m.msgs)

include h hfresh

theorem Session.Shows.isDeleted_iff {i : Nat} (hi : i < m.msgs.length) :
    s.isDeleted i = true ↔ i + 1 ∈ m.asked := by
  rw [Session.isDeleted, h.cached i hi]
  by_cases hask : i + 1 ∈ m.asked
  · rw [if_pos hask, or_fhDigest_and]
    simp [hask, fhDigest]
  · rw [if_neg hask, hfresh i]
    simp [hask]

/-- A number names the same message all the time. -/
theorem Session.Shows.names {i : Nat} (hi : i < m.msgs.length) :
    { recAt s.fcache i with accessed := Session.clearDigest (recAt s.fcache i).accessed } =
      recAt m.msgs i := by
  rw [h.cached i hi]
  by_cases hask : i + 1 ∈ m.asked
  · rw [if_pos hask]
    simp only [clearDigest_or (hfresh i)]
  · rw [if_neg hask, clearDigest_of_clear (hfresh i)]

/-- **The test of a message number.** -/
theorem Session.Shows.checkNum_iff (num : Int) (been : String) :
    s.checkNum num been = none ↔ m.Has num := by
  unfold Session.checkNum Maildrop.Has
  rw [h.total]
  by_cases hrange : num ≤ 0 ∨ (m.msgs.length : Int) < num
  · rw [if_pos hrange]
    simp only [reduceCtorEq, false_iff]
    omega
  · obtain ⟨i, hi⟩ : ∃ i : Nat, num = i + 1 := ⟨num.toNat - 1, by omega⟩
    have hdel := h.isDeleted_iff hfresh (show i < m.msgs.length by omega)
    have hnum : num.toNat = i + 1 := by omega
    rw [if_neg hrange, hnum, show num - 1 = i by omega, ← hdel]
    by_cases hgone : s.isDeleted i = true
    · simp [hgone]
    · simp only [hgone, if_false, Bool.false_eq_true, not_false_eq_true, and_true, true_iff]
      omega

end Shows

/-! ## Commands -/

section Commands

variable {s : Session} {msg : List UInt8}

/-- A command with a number, when there is a word for it. -/
theorem Session.withNum_of_word (name been : String) (body : Int → List UInt8 → Answer)
    (hword : (nextword msg).1 ≠ []) :
    s.withNum name been msg body =
      (s.checkNum (atoi (nextword msg).1) been).elim
        (body (atoi (nextword msg).1) (nextword msg).2) s.reject := by
  unfold Session.withNum
  split
  · next heq =>
    rw [heq] at hword
    contradiction
  · next heq =>
    rw [heq]
    cases s.checkNum (atoi _) been <;> rfl

theorem Session.withNum_of_blank (name been : String) (body : Int → List UInt8 → Answer)
    (hword : (nextword msg).1 = []) :
    (s.withNum name been msg body).session = s := by
  unfold Session.withNum
  split
  · rfl
  · next hne heq =>
    rw [heq] at hword
    exact absurd hword hne

/-- LIST and UIDL with a word. -/
theorem Session.listOrOne_of_word (first : String) (line : Int → String)
    (hword : (nextword msg).1 ≠ []) :
    s.listOrOne msg first line =
      (s.checkNum (atoi (nextword msg).1) "been").elim
        ⟨0, [s!"+OK {line (atoi (nextword msg).1 - 1)}"], s⟩ s.reject := by
  unfold Session.listOrOne
  split
  · next heq =>
    rw [heq] at hword
    contradiction
  · next heq =>
    rw [heq]
    cases s.checkNum (atoi _) "been" <;> rfl

end Commands

/-- TOP is told how many lines to send. -/
def LineGiven (msg : List UInt8) : Prop :=
  (nextword msg).1 ≠ [] ∧ 0 ≤ atoi (nextword msg).1

/-- RETR, TOP, LIST, UIDL and DELE refuse the numbers that name no message, or one
that is to be deleted, and no others. -/
def Session.RefusesExactly (c : Contents) (s : Session) (m : Maildrop) : Prop :=
  ∀ cmd ∈ [Command.retr, .top, .list, .uidl, .dele], ∀ msg, (nextword msg).1 ≠ [] →
    (cmd = .top → LineGiven (nextword msg).2) →
      ((s.run c cmd msg).ret = -1 ↔ ¬ m.Has (atoi (nextword msg).1))

section Preserve

variable {c : Contents} {s : Session} {m : Maildrop} (h : s.Shows m) (hfresh : Fresh m.msgs)

include h hfresh

theorem Session.Shows.elim_ret {num : Int} (been : String) {body : Answer} (hbody : body.ret = 0) :
    ((s.checkNum num been).elim body s.reject).ret = -1 ↔ ¬ m.Has num := by
  rw [← h.checkNum_iff hfresh num been]
  cases s.checkNum num been with
  | none => simp [hbody]
  | some err => simp [Session.reject]

theorem Session.Shows.refusesExactly : s.RefusesExactly c m := by
  intro cmd hcmd msg hword hline
  simp only [List.mem_cons, List.not_mem_nil, or_false] at hcmd
  rcases hcmd with rfl | rfl | rfl | rfl | rfl
  · rw [Session.run, Session.retr, Session.withNum_of_word _ _ _ hword]
    exact h.elim_ret hfresh _ rfl
  · rw [Session.run, Session.top, Session.withNum_of_word _ _ _ hword]
    refine h.elim_ret hfresh _ ?_
    obtain ⟨hgiven, hpos⟩ := hline rfl
    split
    · next heq =>
      rw [heq] at hgiven
      contradiction
    · next heq =>
      rw [heq] at hpos
      rw [if_neg (Int.not_lt.mpr hpos)]
  · rw [Session.run, Session.list, Session.listOrOne_of_word _ _ hword]
    exact h.elim_ret hfresh _ rfl
  · rw [Session.run, Session.uidl, Session.listOrOne_of_word _ _ hword]
    exact h.elim_ret hfresh _ rfl
  · rw [Session.run, Session.dele, Session.withNum_of_word _ _ _ hword]
    exact h.elim_ret hfresh _ rfl

/-- RSET takes all marks away. -/
theorem Session.Shows.rset : s.rset.session.Shows { m with asked := ∅ } := by
  have hlen : s.fcache.length = m.msgs.length := h.total
  refine ⟨by simp [Session.totalnum, Session.rset, hlen], fun i (hi : i < m.msgs.length) => ?_,
    rfl, by simp⟩
  have hget : recAt s.rset.session.fcache i =
      { recAt s.fcache i with accessed := Session.clearDigest (recAt s.fcache i).accessed } := by
    rw [recAt_eq_getElem (by simpa [Session.rset, hlen] using hi), recAt_eq_getElem (by omega)]
    simp [Session.rset]
  rw [hget, h.names hfresh hi]
  simp

/-- DELE of a number marks the message. -/
theorem Session.Shows.dele (msg : List UInt8) (hword : (nextword msg).1 ≠ []) :
    (s.dele msg).session.Shows (m.ask (atoi (nextword msg).1)) := by
  rw [Session.dele, Session.withNum_of_word _ _ _ hword, Maildrop.ask]
  have hiff := h.checkNum_iff hfresh (atoi (nextword msg).1) "already been"
  cases hcheck : s.checkNum (atoi (nextword msg).1) "already been" with
  | some err =>
      rw [if_neg (by rw [← hiff, hcheck]; simp)]
      exact h
  | none =>
      have hhas := hiff.mp hcheck
      rw [if_pos hhas]
      obtain ⟨hlow, hhigh, hnew⟩ := hhas
      obtain ⟨k, hk⟩ : ∃ k : Nat, atoi (nextword msg).1 = k + 1 :=
        ⟨(atoi (nextword msg).1).toNat - 1, by omega⟩
      have hlen : s.fcache.length = m.msgs.length := h.total
      have hnum : (atoi (nextword msg).1).toNat = k + 1 := by omega
      have hold : recAt s.fcache k = recAt m.msgs k := by
        rw [h.cached k (by omega), if_neg (by rwa [← hnum])]
      refine ⟨by simp [Session.totalnum, hlen], fun i (hi : i < m.msgs.length) => ?_, ?_, ?_⟩
      · simp only [Option.elim_none, hnum, show atoi (nextword msg).1 - 1 = k by omega,
          Finset.mem_insert, Int.toNat_natCast]
        rw [recAt_eq_getElem (by simpa [hlen] using hi), List.getElem_set]
        by_cases hik : k = i
        · subst hik
          rw [if_pos rfl, if_pos (Or.inl rfl), hold]
        · rw [if_neg hik, ← recAt_eq_getElem (by omega), h.cached i hi]
          simp [show i ≠ k by omega]
      · rw [Finset.card_insert_of_notMem hnew, ← h.count]
        rfl
      · intro n hn
        rcases Finset.mem_insert.mp hn with rfl | hn
        · exact ⟨by omega, show _ ≤ m.msgs.length by omega⟩
        · exact h.numbers n hn

end Preserve

/-- The other commands leave the session as it is. -/
theorem Session.run_session {cmd : Command} (hdele : cmd ≠ .dele) (hrset : cmd ≠ .rset)
    (s : Session) (c : Contents) (msg : List UInt8) : (s.run c cmd msg).session = s := by
  have hnum : ∀ name been body, (∀ num msg, (body num msg : Answer).session = s) →
      (s.withNum name been msg body).session = s := by
    intro name been body hbody
    by_cases hword : (nextword msg).1 = []
    · exact s.withNum_of_blank name been body hword
    · rw [s.withNum_of_word name been body hword]
      cases s.checkNum (atoi (nextword msg).1) been with
      | none => exact hbody _ _
      | some err => rfl
  have hlist : ∀ first line, (s.listOrOne msg first line).session = s := by
    intro first line
    by_cases hword : (nextword msg).1 = []
    · unfold Session.listOrOne
      split
      · rfl
      · next hne heq =>
        rw [heq] at hword
        exact absurd hword hne
    · rw [s.listOrOne_of_word first line hword]
      cases s.checkNum (atoi (nextword msg).1) "been" <;> rfl
  cases cmd with
  | dele => contradiction
  | rset => contradiction
  | retr => exact hnum _ _ _ fun _ _ => rfl
  | top =>
      refine hnum _ _ _ fun num msg => ?_
      split
      · rfl
      · split <;> rfl
  | list => exact hlist _ _
  | uidl => exact hlist _ _
  | user => rfl
  | pass => rfl
  | stat => rfl
  | quit => rfl
  | last => rfl
  | noop => rfl

/-- **A command shows the maildrop after it.** -/
theorem Session.Shows.run {c : Contents} {s : Session} {m : Maildrop} (h : s.Shows m)
    (hfresh : Fresh m.msgs) (cmd : Command) (msg : List UInt8) :
    (s.run c cmd msg).session.Shows (m.command cmd msg) := by
  by_cases hdele : cmd = .dele
  · subst hdele
    by_cases hword : (nextword msg).1 = []
    · rw [Session.run, Session.dele, s.withNum_of_blank _ _ _ hword, Maildrop.command,
        if_pos hword]
      exact h
    · rw [Maildrop.command, if_neg hword]
      exact h.dele hfresh msg hword
  · by_cases hrset : cmd = .rset
    · subst hrset
      exact h.rset hfresh
    · rw [Session.run_session hdele hrset]
      cases cmd <;> first | contradiction | exact h

theorem loginInit_shows (c : Contents) (msgs : List FileHeader) :
    (loginInit c msgs).Shows ⟨msgs, ∅⟩ :=
  ⟨rfl, fun _ _ => rfl, rfl, fun n hn => absurd hn (Finset.notMem_empty n)⟩

/-! ## Histories -/

theorem Maildrop.command_msgs (m : Maildrop) (cmd : Command) (msg : List UInt8) :
    (m.command cmd msg).msgs = m.msgs := by
  unfold Maildrop.command Maildrop.ask
  cases cmd <;> (repeat' split) <;> rfl

theorem Maildrop.line_msgs (m : Maildrop) (inbuf : List UInt8) : (m.line inbuf).msgs = m.msgs := by
  unfold Maildrop.line
  split
  · exact m.command_msgs _ _
  · rfl

theorem Maildrop.after_append (m : Maildrop) (es es' : List Pop3Event) :
    m.after (es ++ es') = (m.after es).after es' := by
  induction es generalizing m with
  | nil => rfl
  | cons e es ih => cases e <;> exact ih _

theorem Maildrop.after_msgs (m : Maildrop) (es : List Pop3Event) : (m.after es).msgs = m.msgs := by
  induction es generalizing m with
  | nil => rfl
  | cons e es ih =>
      cases e with
      | line inbuf => exact (ih _).trans (m.line_msgs inbuf)
      | mail fh => exact ih _
      | abort => exact ih _
      | delete => exact ih _

theorem mailOf_append (es es' : List Pop3Event) : mailOf (es ++ es') = mailOf es ++ mailOf es' := by
  induction es with
  | nil => rfl
  | cons e es ih => cases e <;> simp [mailOf, ih]

/-! ## do_delete -/

theorem recAt_append_cons (pre : List FileHeader) (fh : FileHeader) (post : List FileHeader) :
    recAt (pre ++ fh :: post) pre.length = fh := by
  rw [recAt_eq_getElem (by simp)]
  simp

theorem SortedByTime.sublist {recs recs' : List FileHeader} (h : SortedByTime recs)
    (hsub : recs'.Sublist recs) : SortedByTime recs' :=
  List.Pairwise.sublist (hsub.map _) h

/-- What `do_delete` has left when it comes to index `i`. -/
def leftAt (msgs : List FileHeader) (i : Nat) : List FileHeader :=
  (msgs.take i).filter (fun fh => decide (Maildrop.Kept fh)) ++ msgs.drop i

theorem leftAt_length (msgs : List FileHeader) :
    leftAt msgs msgs.length = msgs.filter fun fh => decide (Maildrop.Kept fh) := by
  rw [leftAt, List.take_length, List.drop_length, List.append_nil]

/-- From one index to the next. -/
theorem leftAt_step {msgs : List FileHeader} {i : Nat} (hi : i < msgs.length) :
    ∃ kept : List FileHeader, kept.length ≤ i ∧
      leftAt msgs i = kept ++ recAt msgs i :: msgs.drop (i + 1) ∧
      leftAt msgs (i + 1) =
        if Maildrop.Kept (recAt msgs i) then kept ++ recAt msgs i :: msgs.drop (i + 1)
        else kept ++ msgs.drop (i + 1) := by
  have hdrop : msgs.drop i = recAt msgs i :: msgs.drop (i + 1) := by
    rw [recAt_eq_getElem hi, List.drop_eq_getElem_cons hi]
  have htake : msgs.take (i + 1) = msgs.take i ++ [recAt msgs i] := by
    rw [recAt_eq_getElem hi, List.take_append_getElem hi]
  refine ⟨(msgs.take i).filter fun fh => decide (Maildrop.Kept fh),
    (List.length_filter_le _ _).trans (List.length_take_le _ _), by rw [leftAt, hdrop], ?_⟩
  rw [leftAt, htake, List.filter_append, List.filter_singleton]
  by_cases hmark : Maildrop.Kept (recAt msgs i) <;> simp [hmark]

theorem leftAt_succ_sublist {msgs : List FileHeader} {i : Nat} (hi : i < msgs.length) :
    (leftAt msgs (i + 1)).Sublist (leftAt msgs i) := by
  obtain ⟨kept, -, hleft, hnext⟩ := leftAt_step hi
  rw [hleft, hnext]
  split
  · exact List.Sublist.refl _
  · exact (List.Sublist.refl kept).append (List.sublist_cons_self _ _)

section Delete

variable {σ : Type} {uid : Int} {book : FileHeader → σ → σ} {p : Pop3 σ} {m : Maildrop}

/-- The cached flag `FH_MARKED` is the message's. -/
theorem Session.Shows.kept {s : Session} (h : s.Shows m) {i : Nat} (hi : i < m.msgs.length) :
    Maildrop.Kept (recAt s.fcache i) ↔ Maildrop.Kept (recAt m.msgs i) := by
  unfold Maildrop.Kept
  rw [h.cached i hi]
  split
  · have hbits : fhDigest &&& fhMarked = 0 := rfl
    rw [Nat.and_or_distrib_right, hbits, Nat.or_zero]
  · exact Iff.rfl

theorem Session.Shows.filetime {s : Session} (h : s.Shows m) {i : Nat} (hi : i < m.msgs.length) :
    (recAt s.fcache i).filetime = (recAt m.msgs i).filetime := by
  rw [h.cached i hi]
  split <;> rfl

/-- **One round of `do_delete`** removes the message at its index unless that is
`FH_MARKED`, whether it was asked for or not. -/
theorem doDelete_spec (huid : 0 < uid) (h : p.session.Shows m) (hsorted : SortedByTime p.dir)
    {i : Nat} (hi : i < m.msgs.length) {mail : List FileHeader}
    (hdir : p.dir = leftAt m.msgs i ++ mail) :
    (doDelete uid book p i).phase = .deleting (i + 1) ∧
      (doDelete uid book p i).session = p.session ∧
      (doDelete uid book p i).dir = leftAt m.msgs (i + 1) ++ mail := by
  have hkept := h.kept hi
  unfold Maildrop.Kept at hkept
  obtain ⟨kept, hlen, hleft, hnext⟩ := leftAt_step hi
  by_cases hmark : Maildrop.Kept (recAt m.msgs i)
  · have hskip : doDelete uid book p i = { p with phase := .deleting (i + 1) } :=
      if_pos (Or.inr (hkept.mpr hmark))
    rw [if_pos hmark, ← hleft] at hnext
    rw [hskip, hnext]
    exact ⟨rfl, rfl, hdir⟩
  · have hcond : ¬ (cNot (recAt p.session.fcache i).accessed &&& fhDigest ≠ 0 ∨
        (recAt p.session.fcache i).accessed &&& fhMarked ≠ 0) := by
      rw [cNot_and_fhDigest, hkept]
      simp only [ne_eq, not_true_eq_false, false_or]
      exact hmark
    have hsplit : p.dir = kept ++ recAt m.msgs i :: (m.msgs.drop (i + 1) ++ mail) := by
      rw [hdir, hleft, List.append_assoc, List.cons_append]
    have hat : recAt p.dir kept.length = recAt m.msgs i := by
      rw [hsplit, recAt_append_cons]
    have hcall := deleteDirCallback_sorted (f := ⟨true, p.dir, pageSlack p.dir.length, false⟩) rfl rfl
      hsorted (show kept.length < p.dir.length by rw [hsplit]; simp)
      (show (kept.length : Int) < (i : Int) + 1 by omega) (updateMailsizeDown uid book) p.account
      (by rw [updateMailsizeDown, if_neg (by omega)])
    simp only [hat, ← h.filetime hi] at hcall
    have hdone : doDelete uid book p i =
        { p with
          phase := .deleting (i + 1)
          dir := p.dir.take kept.length ++ p.dir.drop (kept.length + 1)
          account := (updateMailsizeDown uid book (recAt m.msgs i) p.account).2 } := by
      rw [doDelete, if_neg hcond]
      simp only [hcall]
    rw [hdone, hnext, if_neg hmark]
    refine ⟨rfl, rfl, ?_⟩
    simp [hsplit]

end Delete

/-! ## Whole sessions -/

/-- `.DIR` while the process is in a phase. -/
def MailboxAt (m : Maildrop) (mail : List FileHeader) (phase : Phase) (dir : List FileHeader) :
    Prop :=
  match phase with
  | .serving => dir = m.msgs ++ mail
  | .aborted => dir = m.msgs ++ mail
  | .deleting i => m.asked ≠ ∅ ∧ i ≤ m.msgs.length ∧ dir = leftAt m.msgs i ++ mail
  | .signedOff =>
      dir = (if m.asked = ∅ then m.msgs else m.msgs.filter fun fh => decide (Maildrop.Kept fh)) ++ mail
  | .killed => False

theorem MailboxAt.mail {m : Maildrop} {mail dir : List FileHeader} {phase : Phase}
    (h : MailboxAt m mail phase dir) (fh : FileHeader) :
    MailboxAt m (mail ++ [fh]) phase (dir ++ [fh]) := by
  have happ : ∀ l, dir = l ++ mail → dir ++ [fh] = l ++ (mail ++ [fh]) := by
    rintro l rfl
    exact List.append_assoc _ _ _
  cases phase with
  | serving => exact happ _ h
  | aborted => exact happ _ h
  | deleting i => exact ⟨h.1, h.2.1, happ _ h.2.2⟩
  | signedOff => exact happ _ h
  | killed => exact h

section Runs

variable {σ : Type} {c : Contents} {uid : Int} {book : FileHeader → σ → σ} {p p' : Pop3 σ}

/-- The invariant of a session with the maildrop that it serves. -/
structure SessionInv (m : Maildrop) (mail : List FileHeader) (p : Pop3 σ) : Prop where
  shows : p.session.Shows m
  sorted : SortedByTime p.dir
  mailbox : MailboxAt m mail p.phase p.dir

theorem SessionInv.quit {m : Maildrop} {mail : List FileHeader} (h : SessionInv m mail p)
    (hserve : p.phase = .serving) : SessionInv m mail (quit p) := by
  have hdir := h.mailbox
  rw [hserve] at hdir
  unfold Ytht.quit
  by_cases hdel : p.session.markdel ≠ 0
  · rw [if_pos hdel]
    rw [h.shows.count, ne_eq, Finset.card_eq_zero] at hdel
    exact ⟨h.shows, h.sorted, hdel, Nat.zero_le _, hdir⟩
  · rw [if_neg hdel]
    rw [h.shows.count, not_not, Finset.card_eq_zero] at hdel
    refine ⟨h.shows, h.sorted, ?_⟩
    rw [MailboxAt, if_pos hdel]
    exact hdir

theorem SessionInv.line {m : Maildrop} {mail : List FileHeader} (h : SessionInv m mail p)
    (hfresh : Fresh m.msgs) {inbuf : List UInt8}
    (hstep : pop3Step c uid book p (.line inbuf) = some p') :
    SessionInv (m.line inbuf) mail p' := by
  simp only [pop3Step] at hstep
  split at hstep
  · next hserve =>
    have hdir : p.dir = m.msgs ++ mail := by
      have := h.mailbox
      rwa [hserve] at this
    unfold Maildrop.line
    split at hstep
    · next hparse =>
      cases hstep
      rw [hparse]
      exact h.quit hserve
    · next hparse =>
      cases hstep
      rw [hparse]
      refine ⟨h.shows.run hfresh _ _, h.sorted, ?_⟩
      rw [hserve, MailboxAt, m.command_msgs]
      exact hdir
    · next hparse =>
      cases hstep
      rw [hparse]
      exact h
    · next hparse =>
      cases hstep
      rw [hparse]
      exact h
  · contradiction

theorem SessionInv.arrive {m : Maildrop} {mail : List FileHeader} (h : SessionInv m mail p)
    {fh : FileHeader} (hstep : pop3Step c uid book p (.mail fh) = some p') :
    SessionInv m (mail ++ [fh]) p' := by
  simp only [pop3Step] at hstep
  split at hstep
  · next hnew =>
    cases hstep
    refine ⟨h.shows, ?_, h.mailbox.mail fh⟩
    rw [SortedByTime, List.map_append, List.pairwise_append]
    refine ⟨h.sorted, List.pairwise_singleton _ _, ?_⟩
    intro a ha b hb
    obtain ⟨old, hold, rfl⟩ := List.mem_map.mp ha
    rw [List.map_singleton, List.mem_singleton] at hb
    subst hb
    simpa using List.all_eq_true.mp hnew old hold
  · contradiction

theorem SessionInv.delete {m : Maildrop} {mail : List FileHeader} (huid : 0 < uid)
    (h : SessionInv m mail p) (hstep : pop3Step c uid book p .delete = some p') :
    SessionInv m mail p' := by
  simp only [pop3Step] at hstep
  split at hstep
  · next i hphase =>
    have hmail := h.mailbox
    rw [hphase] at hmail
    obtain ⟨hask, hle, hdir⟩ := hmail
    rw [h.shows.total] at hstep
    split at hstep
    · next hi =>
      cases hstep
      obtain ⟨hphase', hsession, hdir'⟩ := doDelete_spec huid h.shows h.sorted hi hdir
      have hsub := (leftAt_succ_sublist hi).append (List.Sublist.refl mail)
      refine ⟨hsession ▸ h.shows, ?_, ?_⟩
      · rw [hdir']
        exact (hdir ▸ h.sorted).sublist hsub
      · rw [hphase']
        exact ⟨hask, by omega, hdir'⟩
    · cases hstep
      refine ⟨h.shows, h.sorted, ?_⟩
      rw [MailboxAt, if_neg hask, ← leftAt_length, show m.msgs.length = i by omega]
      exact hdir
  · contradiction

/-- **One event keeps the invariant.** -/
theorem SessionInv.step {m : Maildrop} {mail : List FileHeader} (huid : 0 < uid)
    (hfresh : Fresh m.msgs) (h : SessionInv m mail p) {e : Pop3Event}
    (hstep : pop3Step c uid book p e = some p') :
    SessionInv (m.after [e]) (mail ++ mailOf [e]) p' := by
  cases e with
  | line inbuf =>
      rw [show mailOf [.line inbuf] = [] from rfl, List.append_nil]
      exact h.line hfresh hstep
  | mail fh => exact h.arrive hstep
  | delete =>
      rw [show mailOf [.delete] = [] from rfl, List.append_nil]
      exact h.delete huid hstep
  | abort =>
      rw [show mailOf [.abort] = [] from rfl, List.append_nil]
      simp only [pop3Step] at hstep
      split at hstep
      · next hserve =>
        cases hstep
        have hdir := h.mailbox
        rw [hserve] at hdir
        exact ⟨h.shows, h.sorted, hdir⟩
      · contradiction

/-- The invariant of every run. -/
theorem SessionInv.of_run {msgs : List FileHeader} (huid : 0 < uid) (hsorted : SortedByTime msgs)
    (hfresh : Fresh msgs) {account : σ} {es : List Pop3Event}
    (hrun : Run (pop3Step c uid book) (loggedIn c msgs account) es p) :
    SessionInv ((Maildrop.mk msgs ∅).after es) (mailOf es) p := by
  refine hrun.invariant (fun es p => SessionInv ((Maildrop.mk msgs ∅).after es) (mailOf es) p) ?_ ?_
  · exact ⟨loginInit_shows c msgs, hsorted, (List.append_nil msgs).symm⟩
  · intro es p e p' hinv hstep
    rw [Maildrop.after_append, mailOf_append]
    refine hinv.step huid ?_ hstep
    rwa [Maildrop.after_msgs]

end Runs

/-! ## What QUIT leaves -/

namespace Maildrop

theorem map_recAt_range (msgs : List FileHeader) :
    (List.range msgs.length).map (fun i : Nat => recAt msgs i) = msgs := by
  refine List.ext_getElem (by simp) fun i hi hi' => ?_
  rw [List.getElem_map, List.getElem_range, recAt_eq_getElem hi']

theorem left_of_empty {m : Maildrop} (h : m.asked = ∅) : m.left = m.msgs := by
  have hall : ∀ i ∈ List.range m.msgs.length,
      decide (i + 1 ∉ m.asked ∨ Kept (recAt m.msgs i)) = true := by
    intro i _
    simp [h]
  rw [left, List.filter_eq_self.mpr hall, map_recAt_range]

/-- Removing everything that is not marked is right only when all of it was asked
for. -/
theorem filter_kept_eq_left_iff (m : Maildrop) :
    (m.msgs.filter fun fh => decide (Kept fh)) = m.left ↔
      ∀ i : Nat, i < m.msgs.length → ¬ Kept (recAt m.msgs i) → i + 1 ∈ m.asked := by
  constructor
  · intro heq i hi hkept
    by_contra hask
    have hmem : recAt m.msgs i ∈ m.left := by
      refine List.mem_map.mpr ⟨i, List.mem_filter.mpr ⟨List.mem_range.mpr hi, ?_⟩, rfl⟩
      simp [hask]
    rw [← heq, List.mem_filter, decide_eq_true_iff] at hmem
    exact hkept hmem.2
  · intro hall
    have hrange : m.msgs.filter (fun fh => decide (Kept fh)) =
        ((List.range m.msgs.length).filter fun i : Nat => decide (Kept (recAt m.msgs i))).map
          fun i : Nat => recAt m.msgs i := by
      conv_lhs => rw [← map_recAt_range m.msgs, List.filter_map]
      rfl
    rw [hrange, left]
    congr 1
    refine List.filter_congr fun i hi => ?_
    have hmem := hall i (List.mem_range.mp hi)
    by_cases hkept : Kept (recAt m.msgs i)
    · simp [hkept]
    · simp [hkept, hmem hkept]

end Maildrop

/-- A session deletes exactly what was asked: its numbers name the same messages
all the time, it refuses the right ones, and the mailbox loses nothing but what
QUIT is to remove. -/
structure SessionExact {σ : Type} (c : Contents) (m : Maildrop) (mail : List FileHeader)
    (p : Pop3 σ) : Prop where
  names : ∀ i : Nat, i < m.msgs.length →
    { recAt p.session.fcache i with
      accessed := Session.clearDigest (recAt p.session.fcache i).accessed } = recAt m.msgs i
  refuses : p.session.RefusesExactly c m
  untouched : p.phase = .serving ∨ p.phase = .aborted → p.dir = m.msgs ++ mail
  removes : p.phase = .signedOff → p.dir = m.left ++ mail
  alive : p.phase ≠ .killed

/-- **Which sessions delete exactly what was asked**: in every run from a login,
those that do not end with QUIT, those in which no message is to be deleted, and
those in which all are that are not `FH_MARKED`. -/
theorem pop3_exact_iff {σ : Type} {c : Contents} {uid : Int} {book : FileHeader → σ → σ}
    (huid : 0 < uid) {msgs : List FileHeader} (hsorted : SortedByTime msgs)
    (hfresh : ∀ fh ∈ msgs, fh.accessed &&& fhDigest = 0) {account : σ} {es : List Pop3Event}
    {p : Pop3 σ} (hrun : Run (pop3Step c uid book) (loggedIn c msgs account) es p) :
    SessionExact c ((Maildrop.mk msgs ∅).after es) (mailOf es) p ↔
      (p.phase = .signedOff → ((Maildrop.mk msgs ∅).after es).asked = ∅ ∨
        ∀ i : Nat, i < msgs.length → ¬ Maildrop.Kept (recAt msgs i) →
          i + 1 ∈ ((Maildrop.mk msgs ∅).after es).asked) := by
  have hinv := SessionInv.of_run huid hsorted (Fresh.of_mem hfresh) hrun
  have hmsgs := (Maildrop.mk msgs ∅).after_msgs es
  obtain ⟨m, hm⟩ : ∃ m, (Maildrop.mk msgs ∅).after es = m := ⟨_, rfl⟩
  rw [hm] at hinv hmsgs ⊢
  have hall : Fresh m.msgs := hmsgs ▸ Fresh.of_mem hfresh
  have hmail := hinv.mailbox
  have hremoves : p.phase = .signedOff → (p.dir = m.left ++ mailOf es ↔ m.asked = ∅ ∨
      ∀ i : Nat, i < m.msgs.length → ¬ Maildrop.Kept (recAt m.msgs i) → i + 1 ∈ m.asked) := by
    intro hphase
    rw [hphase, MailboxAt] at hmail
    rw [hmail, List.append_cancel_right_eq]
    by_cases hask : m.asked = ∅
    · simp [hask, Maildrop.left_of_empty hask]
    · rw [if_neg hask, m.filter_kept_eq_left_iff, or_iff_right hask]
  rw [show msgs = m.msgs from hmsgs.symm]
  constructor
  · intro hexact hphase
    exact (hremoves hphase).mp (hexact.removes hphase)
  · intro hcond
    refine ⟨fun i hi => hinv.shows.names hall hi, hinv.shows.refusesExactly hall, ?_,
      fun hphase => (hremoves hphase).mpr (hcond hphase), ?_⟩
    · intro hphase
      cases hphase with
      | inl hserve =>
          rw [hserve] at hmail
          exact hmail
      | inr habort =>
          rw [habort] at hmail
          exact hmail
    · intro hkilled
      rw [hkilled] at hmail
      exact hmail

/-- Mails that are empty files. -/
def noContents : Contents := ⟨fun _ => 0, fun _ => [], fun _ _ => []⟩

/-- The line `dele 1`, or with another digit. -/
def deleLine (digit : UInt8) : Pop3Event := .line [100, 101, 108, 101, 32, digit, 13, 10]

/-- QUIT, and the rounds of `do_delete` for two messages. -/
def quitEvents : List Pop3Event :=
  [.line [113, 117, 105, 116, 13, 10], .delete, .delete, .delete]

/-- Both of two mails are asked for, and go. -/
theorem pop3_exact_iff_both :
    ∃ p : Pop3 Unit,
      Run (pop3Step noContents 1 fun _ account => account) (loggedIn noContents twoRecords ())
        (deleLine 49 :: deleLine 50 :: quitEvents) p ∧
      p.phase = .signedOff ∧ p.dir = [] ∧
      SessionExact noContents
        ((Maildrop.mk twoRecords ∅).after (deleLine 49 :: deleLine 50 :: quitEvents))
        (mailOf (deleLine 49 :: deleLine 50 :: quitEvents)) p := by
  have hsorted : SortedByTime twoRecords := by
    unfold SortedByTime
    decide
  have hrun := @Run.of_exec _ _ (pop3Step noContents 1 fun _ (account : Unit) => account)
    (loggedIn noContents twoRecords ()) _ (deleLine 49 :: deleLine 50 :: quitEvents) rfl
  refine ⟨_, hrun, rfl, rfl, (pop3_exact_iff (by decide) hsorted (by decide) hrun).mpr ?_⟩
  intro _
  right
  decide

/-- Only the first of two mails is asked for, and both go. -/
theorem pop3_deletes_unasked :
    ∃ p : Pop3 Unit,
      Run (pop3Step noContents 1 fun _ account => account) (loggedIn noContents twoRecords ())
        (deleLine 49 :: quitEvents) p ∧
      ¬ SessionExact noContents ((Maildrop.mk twoRecords ∅).after (deleLine 49 :: quitEvents))
        (mailOf (deleLine 49 :: quitEvents)) p := by
  have hrun := @Run.of_exec _ _ (pop3Step noContents 1 fun _ (account : Unit) => account)
    (loggedIn noContents twoRecords ()) _ (deleLine 49 :: quitEvents) rfl
  refine ⟨_, hrun, fun hexact => ?_⟩
  have hleft := hexact.removes rfl
  revert hleft
  decide

end Ytht
