import Mathlib.Data.List.Nodup
import Mathlib.Data.List.DropRight
import Mathlib.Logic.Function.Basic
import Ytht.Lib.Bytes
import Ytht.Lib.Msgq
import Ytht.Lib.Runs
import Ytht.Ythtlib.Stdio

/-!
# Localutl.Bbsevad

Queries about the rating of an article.  Queries and answers share one message queue: a query has
type 1, and an answer has the second in which the query was sent as its type.

So an answer finds its caller as long as no other query of the same second is about, and as long as
the daemon, which also removes what is older than ten seconds, is not ahead of the caller
(`bbseva_right`).
-/

namespace Ytht.Bbseva

open Bytes Runs Msgq

/-! ## Texts -/

/-- What `time` gives. -/
abbrev Time := {t : Int // -1 ≤ t ∧ t < 2 ^ 63}

/-- An `int` that tells a process from the others. -/
abbrev Ent := {e : Int // IntRange e}

/-- A call of `bbseva_qry` that has sent its query; `id` is not in the code. -/
structure Query where
  id : Nat
  ent : Ent
  msgtype : Time
  s : CStr 1023
  size : Nat
  deriving DecidableEq

/-- `strchr` of a blank, and one further. -/
def afterBlank : List UInt8 → Option (List UInt8)
  | [] => none
  | ch :: s => if ch = 32 then some s else afterBlank s

/-- The text of a query, in a buffer of 512 bytes less the type. -/
def queryText (q : Query) : List UInt8 :=
  (printInt q.msgtype.val ++ 32 :: (printInt q.ent.val ++ 32 :: q.s.bytes)).take 503

/-- The text of an answer, in a buffer of 1024 bytes less the type. -/
def resultText (ent : Int) (result : List UInt8) : List UInt8 :=
  (printInt ent ++ 32 :: result).take 1015

/-- What `bbseva_qry` does with an answer; `none` is -1. -/
def readAnswer (q : Query) (mtext : List UInt8) : Option (List UInt8) :=
  let mtext := mtext.take 503
  if atoi mtext ≠ q.ent.val then none
  else (afterBlank mtext).map fun s => s.take (q.size - 1)

/-- What `rcvqry` returns. -/
def rcvText (mtext : List UInt8) : List UInt8 := (mtext.take 1015).rdropWhile (· = 0)

/-- What the daemon takes from a query: `type`, `ent`, and the command. -/
def parseQuery (qry : List UInt8) : Option (Int × Int × List UInt8) :=
  (afterBlank qry).bind fun ent => (afterBlank ent).bind fun cmd =>
    (afterBlank cmd).map fun _ => (atol qry, atoi ent, cmd)

/-! ## The queue, the callers and the daemon -/

/-- A text, and the call it is sent for, which is not in the code. -/
structure Text where
  mtext : List UInt8
  query : Query

/-- A process inside the loop of `bbseva_qry`. -/
structure Call where
  query : Query
  i : Nat

/-- An answer the daemon has sent, and whether it was sent in time. -/
structure Answer where
  result : CStr 1023
  prompt : Bool
  deriving DecidableEq

/-- A call that has returned, with what the daemon had answered then; no text is -1. -/
structure Returned where
  query : Query
  got : Option (List UInt8)
  answer : Option Answer
  deriving DecidableEq

structure Sys where
  queue : List (Message Text)
  /-- The processes that wait. -/
  calls : Ent → Option Call
  /-- The query the daemon works on. -/
  daemon : Option Text
  /-- How many queries there have been. -/
  count : Nat
  answered : Nat → Option Answer
  returned : List Returned

def start : Sys where
  queue := []
  calls := fun _ => none
  daemon := none
  count := 0
  answered := fun _ => none
  returned := []

inductive Event where
  /-- A process calls `bbseva_qry`; `msgsnd` can fail. -/
  | ask (ent : Ent) (now : Time) (s : CStr 1023) (size : Nat) (sent : Bool)
  /-- It wakes up and looks for an answer. -/
  | poll (ent : Ent)
  /-- The daemon receives a message. -/
  | receive (now : Time)
  /-- The daemon is done with a query; `msgsnd` may fail as well as the command. -/
  | serve (now : Time) (result : Option (CStr 1023))

def ask (s : Sys) (ent : Ent) (now : Time) (text : CStr 1023) (size : Nat) (sent : Bool) :
    Option Sys :=
  if (s.calls ent).isSome then none
  else if sent then
    let q : Query := ⟨s.count, ent, now, text, size⟩
    some { s with
      queue := s.queue ++ [⟨1, queryText q, q⟩]
      calls := Function.update s.calls ent (some ⟨q, 0⟩)
      count := s.count + 1 }
  else some s

/-- The call returns. -/
def Sys.return (s : Sys) (q : Query) (got : Option (List UInt8)) : Sys :=
  { s with
    calls := Function.update s.calls q.ent none
    returned := ⟨q, got, s.answered q.id⟩ :: s.returned }

/-- The loop goes on, if it has not been run through eight times. -/
def again (s : Sys) (c : Call) : Sys :=
  if c.i + 1 < 8 then
    { s with calls := Function.update s.calls c.query.ent (some ⟨c.query, c.i + 1⟩) }
  else s.return c.query none

def poll (s : Sys) (ent : Ent) : Option Sys :=
  (s.calls ent).map fun c =>
    match msgrcv s.queue c.query.msgtype.val with
    | none => again s c
    | some (m, rest) =>
        if m.body.mtext.take 503 = [] then again { s with queue := rest } c
        else { s with queue := rest }.return c.query (readAnswer c.query m.body.mtext)

/-- `rcvqry` removes what is not a query and is old. -/
def receive (s : Sys) (now : Time) : Option Sys :=
  match s.daemon, msgrcv s.queue (-(now.val - 10)) with
  | none, some (m, rest) =>
      if m.mtype ≠ 1 then some { s with queue := rest }
      else some { s with queue := rest, daemon := some m.body }
  | _, _ => none

/-- `sendresult`; a type that is not positive cannot be sent. -/
def sendresult (s : Sys) (type ent : Int) (result : List UInt8) (q : Query) : Sys :=
  if type ≤ 0 then s else { s with queue := s.queue ++ [⟨type, resultText ent result, q⟩] }

def serve (s : Sys) (now : Time) (result : Option (CStr 1023)) : Option Sys :=
  s.daemon.map fun t =>
    match parseQuery (rcvText t.mtext), result with
    | some (type, ent, _), some r =>
        let s := sendresult { s with daemon := none } type ent r.bytes t.query
        let answer : Answer := ⟨r, now.val ≤ t.query.msgtype.val + 10⟩
        { s with answered := Function.update s.answered t.query.id (some answer) }
    | _, _ => { s with daemon := none }

def step (s : Sys) : Event → Option Sys
  | .ask ent now text size sent => ask s ent now text size sent
  | .poll ent => poll s ent
  | .receive now => receive s now
  | .serve now result => serve s now result

/-! ## What the texts carry -/

/-- The part of an answer that there is room for. -/
def handed (q : Query) (result : List UInt8) : List UInt8 :=
  (result.take (502 - (printInt q.ent.val).length)).take (q.size - 1)

theorem length_printInt {i : Int} {k : Nat} (hk : 0 < k) (h : i.natAbs < 10 ^ k) :
    (printInt i).length ≤ k + 1 := by
  have hlen := length_decimal hk h
  unfold printInt
  split
  · rw [List.length_cons]
    omega
  · omega

/-- A number has neither a blank nor a NUL. -/
theorem mem_printInt {i : Int} {ch : UInt8} (h : ch ∈ printInt i) : ch ≠ 32 ∧ ch ≠ 0 := by
  have hdigit {ch : UInt8} (hd : isdigit ch = true) : ch ≠ 32 ∧ ch ≠ 0 := by
    constructor
    · rintro rfl
      contradiction
    · rintro rfl
      contradiction
  unfold printInt at h
  split at h
  · rcases List.mem_cons.mp h with rfl | h
    · decide
    · exact hdigit (isdigit_decimal _ _ h)
  · exact hdigit (isdigit_decimal _ _ h)

theorem afterBlank_append {a : List UInt8} (h : ∀ ch ∈ a, ch ≠ 32) (b : List UInt8) :
    afterBlank (a ++ 32 :: b) = some b := by
  induction a with
  | nil => exact if_pos rfl
  | cons ch a ih =>
      obtain ⟨hch, ha⟩ := List.forall_mem_cons.mp h
      rw [List.cons_append, afterBlank, if_neg hch, ih ha]

theorem afterBlank_printInt (i : Int) (b : List UInt8) :
    afterBlank (printInt i ++ 32 :: b) = some b :=
  afterBlank_append (fun _ h => (mem_printInt h).1) b

/-- A field and a blank are in front of what is cut off. -/
theorem take_field {a b : List UInt8} {n : Nat} (h : a.length < n) :
    (a ++ 32 :: b).take n = a ++ 32 :: b.take (n - a.length - 1) := by
  obtain ⟨k, rfl⟩ : ∃ k, n = a.length + (k + 1) := ⟨n - a.length - 1, by omega⟩
  rw [List.take_length_add_append, List.take_succ_cons]
  congr 3
  omega

theorem length_ent (e : Ent) : (printInt e.val).length ≤ 11 := by
  obtain ⟨e, hlo, hhi⟩ := e
  exact length_printInt (k := 10) (by decide) (by dsimp only; omega)

theorem length_time (t : Time) : (printInt t.val).length ≤ 20 := by
  obtain ⟨t, hlo, hhi⟩ := t
  exact length_printInt (k := 19) (by decide) (by dsimp only; omega)

/-- The caller reads its own number and the result. -/
theorem readAnswer_resultText (q : Query) (result : List UInt8) :
    readAnswer q (resultText q.ent.val result) = some (handed q result) := by
  have hlen := length_ent q.ent
  have htext : (resultText q.ent.val result).take 503 =
      printInt q.ent.val ++ 32 :: result.take (502 - (printInt q.ent.val).length) := by
    rw [resultText, List.take_take, take_field (by omega)]
    congr 3
    omega
  rw [readAnswer, htext, atoi_printInt q.ent.property.1 q.ent.property.2 rfl,
    if_neg (not_not_intro rfl), afterBlank_printInt, Option.map_some, handed]

theorem resultText_ne_nil (q : Query) (result : List UInt8) :
    (resultText q.ent.val result).take 503 ≠ [] := by
  have hlen := length_ent q.ent
  rw [resultText, List.take_take, take_field (by omega)]
  simp

/-- The part of a command that there is room for. -/
def cmdText (q : Query) : List UInt8 :=
  q.s.bytes.take (503 - (printInt q.msgtype.val).length - 1 - (printInt q.ent.val).length - 1)

theorem queryText_eq (q : Query) :
    queryText q = printInt q.msgtype.val ++ 32 :: (printInt q.ent.val ++ 32 :: cmdText q) := by
  have htime := length_time q.msgtype
  have hent := length_ent q.ent
  rw [queryText, take_field (by omega), take_field (by omega), cmdText]

/-- Nothing is cut off a query. -/
theorem rcvText_queryText (q : Query) : rcvText (queryText q) = queryText q := by
  have hlen : (queryText q).length ≤ 503 := List.length_take_le _ _
  rw [rcvText, List.take_of_length_le (by omega), List.rdropWhile_eq_self_iff]
  intro hne hzero
  have hmem : 0 ∈ queryText q := by
    have hlast := List.getLast_mem hne
    rwa [of_decide_eq_true hzero] at hlast
  have hnz {i : Int} : (0 : UInt8) ∉ printInt i := fun h => (mem_printInt h).2 rfl
  have hcmd : 0 ∉ cmdText q := fun h => q.s.nz (List.mem_of_mem_take h)
  rw [queryText_eq] at hmem
  simp [hnz, hcmd] at hmem

/-- The daemon gets back the address and the number of the caller. -/
theorem parseQuery_queryText {q : Query} (hq : 1 < q.msgtype.val) :
    parseQuery (rcvText (queryText q)) =
      (afterBlank (cmdText q)).map fun _ => (q.msgtype.val, q.ent.val, cmdText q) := by
  have hprint : printInt q.msgtype.val = decimal q.msgtype.val.natAbs := if_neg (by omega)
  have htime : atol (queryText q) = q.msgtype.val := by
    have hlt := q.msgtype.property.2
    rw [queryText_eq, hprint, atol_decimal (by omega) rfl]
    omega
  rw [rcvText_queryText, parseQuery, htime, queryText_eq, afterBlank_printInt, Option.bind_some,
    afterBlank_printInt, Option.bind_some, atoi_printInt q.ent.property.1 q.ent.property.2 rfl]

/-! ## What callers rely on -/

/-- A call that returns 0 hands over the answer to its query, and it does return 0 when that was
sent in time. -/
structure Returned.Right (r : Returned) : Prop where
  own : ∀ text, r.got = some text →
    ∃ a, r.answer = some a ∧ text = handed r.query a.result.bytes
  prompt : ∀ a, r.answer = some a → a.prompt = true →
    r.got = some (handed r.query a.result.bytes)

def Sys.Right (s : Sys) : Prop := ∀ r ∈ s.returned, r.Right

/-- A query that is in the queue or that the daemon works on, itself or its answer. -/
def Sys.InFlight (s : Sys) (q : Query) : Prop :=
  (∃ m ∈ s.queue, m.body.query = q) ∨ ∃ t, s.daemon = some t ∧ t.query = q

/-- A query whose caller waits. -/
def Sys.Waits (s : Sys) (q : Query) : Prop := ∃ ent c, s.calls ent = some c ∧ c.query = q

/-- An answer that was sent in time, to a caller that waits for it. -/
def Sys.Awaited (s : Sys) (m : Message Text) : Prop :=
  m.mtype ≠ 1 ∧ s.Waits m.body.query ∧
    ∃ a, s.answered m.body.query.id = some a ∧ a.prompt = true

/-- No other query of the same second is about, and the daemon does not remove an answer that is
waited for. -/
def Apart (s : Sys) : Event → Prop
  | .ask _ now _ _ sent =>
      sent = true → 1 < now.val ∧ ∀ q, s.InFlight q ∨ s.Waits q → q.msgtype ≠ now
  | .receive now => ∀ m rest, msgrcv s.queue (-(now.val - 10)) = some (m, rest) → ¬ s.Awaited m
  | _ => True

/-! ## What the steps keep -/

/-- The queries that are about. -/
def Sys.Live (s : Sys) (q : Query) : Prop := s.InFlight q ∨ s.Waits q

structure Inv (s : Sys) : Prop where
  /-- A message is a query that is not answered, or the answer to one. -/
  form : ∀ m ∈ s.queue,
    (m.mtype = 1 ∧ m.body.mtext = queryText m.body.query ∧
        s.answered m.body.query.id = none) ∨
      m.mtype = m.body.query.msgtype.val ∧ ∃ a, s.answered m.body.query.id = some a ∧
        m.body.mtext = resultText m.body.query.ent.val a.result.bytes
  daemon : ∀ t, s.daemon = some t → t.mtext = queryText t.query ∧ s.answered t.query.id = none
  known : ∀ q, s.Live q → 1 < q.msgtype.val ∧ q.id < s.count
  /-- The second tells the queries apart. -/
  unique : ∀ q q', s.Live q → s.Live q' → q.msgtype = q'.msgtype ∨ q.id = q'.id → q = q'
  single : ((s.queue.map fun m => m.body.query) ++ s.daemon.toList.map Text.query).Nodup
  caller : ∀ ent c, s.calls ent = some c → c.query.ent = ent
  /-- An answer that was sent in time is there as long as its caller waits. -/
  waits : ∀ q, s.Waits q → ∀ a, s.answered q.id = some a → a.prompt = true →
    ∃ m ∈ s.queue, m.body.query = q ∧ m.mtype ≠ 1
  fresh : ∀ id, s.count ≤ id → s.answered id = none
  right : s.Right

theorem start_inv : Inv start where
  form _ hm := absurd hm List.not_mem_nil
  daemon _ ht := by contradiction
  known q hq := by
    rcases hq with (⟨_, hm, -⟩ | ⟨_, ht, -⟩) | ⟨_, _, hc, -⟩
    · exact absurd hm List.not_mem_nil
    · contradiction
    · contradiction
  unique q _ hq := by
    rcases hq with (⟨_, hm, -⟩ | ⟨_, ht, -⟩) | ⟨_, _, hc, -⟩
    · exact absurd hm List.not_mem_nil
    · contradiction
    · contradiction
  single := List.nodup_nil
  caller _ _ hc := by contradiction
  waits q hq := by
    obtain ⟨_, _, hc, -⟩ := hq
    contradiction
  fresh _ _ := rfl
  right _ hr := absurd hr List.not_mem_nil

/-- Messages are taken and calls return. -/
theorem Inv.shrink {s s' : Sys} (h : Inv s) (hqueue : ∀ m ∈ s'.queue, m ∈ s.queue)
    (hdaemon : ∀ t, s'.daemon = some t →
      s.daemon = some t ∨ ∃ m ∈ s.queue, m.mtype = 1 ∧ m.body = t)
    (hsingle : ((s'.queue.map fun m => m.body.query) ++ s'.daemon.toList.map Text.query).Nodup)
    (hcalls : ∀ q, s'.Waits q → s.Waits q)
    (hcaller : ∀ ent c, s'.calls ent = some c → c.query.ent = ent)
    (hwaits : ∀ q, s'.Waits q → ∀ a, s.answered q.id = some a → a.prompt = true →
      ∃ m ∈ s'.queue, m.body.query = q ∧ m.mtype ≠ 1)
    (hanswered : s'.answered = s.answered) (hcount : s'.count = s.count) (hright : s'.Right) :
    Inv s' := by
  have hlive (q : Query) (hq : s'.Live q) : s.Live q := by
    rcases hq with (⟨m, hm, rfl⟩ | ⟨t, ht, rfl⟩) | hq
    · exact .inl (.inl ⟨m, hqueue m hm, rfl⟩)
    · rcases hdaemon t ht with ht | ⟨m, hm, -, rfl⟩
      · exact .inl (.inr ⟨t, ht, rfl⟩)
      · exact .inl (.inl ⟨m, hm, rfl⟩)
    · exact .inr (hcalls q hq)
  refine ⟨fun m hm => ?_, fun t ht => ?_, fun q hq => ?_, fun q q' hq hq' => ?_, hsingle, hcaller,
    ?_, ?_, hright⟩
  · rw [hanswered]
    exact h.form m (hqueue m hm)
  · rw [hanswered]
    rcases hdaemon t ht with ht | ⟨m, hm, hone, rfl⟩
    · exact h.daemon t ht
    · rcases h.form m hm with ⟨-, htext, hnone⟩ | ⟨haddress, -⟩
      · exact ⟨htext, hnone⟩
      · have hlarge := (h.known m.body.query (.inl (.inl ⟨m, hm, rfl⟩))).1
        omega
  · rw [hcount]
    exact h.known q (hlive q hq)
  · exact h.unique q q' (hlive q hq) (hlive q' hq')
  · rw [hanswered]
    exact hwaits
  · rw [hanswered, hcount]
    exact h.fresh

theorem nodup_of_taken {a b : List (Message Text)} {m : Message Text} {l : List Query}
    (h : (((a ++ m :: b).map fun m => m.body.query) ++ l).Nodup) :
    (((a ++ b).map fun m => m.body.query) ++ l).Nodup := by
  refine h.sublist (List.Sublist.append_right (List.Sublist.map _ ?_) l)
  exact List.Sublist.append_left (List.sublist_cons_self m b) a

theorem mem_of_taken {a b : List (Message Text)} {m m' : Message Text} (h : m' ∈ a ++ m :: b)
    (hne : m' ≠ m) : m' ∈ a ++ b := by
  simp only [List.mem_append, List.mem_cons] at h ⊢
  tauto

/-- A call returns; what it leaves in the queue is not for others. -/
theorem Inv.return {s : Sys} (h : Inv s) {ent : Ent} {c : Call} (hc : s.calls ent = some c)
    {queue : List (Message Text)} (hqueue : ∀ m ∈ queue, m ∈ s.queue)
    (hsingle : ((queue.map fun m => m.body.query) ++ s.daemon.toList.map Text.query).Nodup)
    (hothers : ∀ m ∈ s.queue, m.body.query ≠ c.query → m ∈ queue)
    {got : Option (List UInt8)}
    (hright : Returned.Right ⟨c.query, got, s.answered c.query.id⟩) :
    Inv ({ s with queue := queue }.return c.query got) := by
  have hent := h.caller ent c hc
  have hcall {e : Ent} {c' : Call}
      (hc' : ({ s with queue := queue }.return c.query got).calls e = some c') :
      s.calls e = some c' ∧ c'.query ≠ c.query := by
    change Function.update s.calls c.query.ent none e = some c' at hc'
    by_cases he : e = c.query.ent
    · rw [he, Function.update_self] at hc'
      contradiction
    · rw [Function.update_of_ne he] at hc'
      exact ⟨hc', fun heq => he (heq ▸ (h.caller e c' hc').symm)⟩
  refine h.shrink hqueue (fun t ht => .inl ht) hsingle ?_ ?_ ?_ rfl rfl ?_
  · rintro q ⟨e, c', hc', rfl⟩
    exact ⟨e, c', (hcall hc').1, rfl⟩
  · exact fun e c' hc' => h.caller e c' (hcall hc').1
  · rintro q ⟨e, c', hc', rfl⟩ a ha hprompt
    obtain ⟨hold, hne⟩ := hcall hc'
    obtain ⟨m, hm, hquery, htype⟩ := h.waits _ ⟨e, c', hold, rfl⟩ a ha hprompt
    exact ⟨m, hothers m hm (hquery ▸ hne), hquery, htype⟩
  · intro r hr
    rcases List.mem_cons.mp hr with rfl | hr
    · exact hright
    · exact h.right r hr

/-- A call that finds nothing goes on, or returns -1. -/
theorem Inv.again {s : Sys} (h : Inv s) {ent : Ent} {c : Call} (hc : s.calls ent = some c)
    (hnone : ∀ a, s.answered c.query.id = some a → a.prompt = true → False) :
    Inv (again s c) := by
  have hent := h.caller ent c hc
  unfold Bbseva.again
  split
  · have hcall {e : Ent} {c' : Call}
        (hc' : Function.update s.calls c.query.ent (some ⟨c.query, c.i + 1⟩) e = some c') :
        ∃ c₀, s.calls e = some c₀ ∧ c₀.query = c'.query := by
      by_cases he : e = c.query.ent
      · rw [he, Function.update_self] at hc'
        cases hc'
        exact ⟨c, by rw [he, hent, hc], rfl⟩
      · rw [Function.update_of_ne he] at hc'
        exact ⟨c', hc', rfl⟩
    have hwaits (q : Query) (hq : Sys.Waits { s with
        calls := Function.update s.calls c.query.ent (some ⟨c.query, c.i + 1⟩) } q) :
        s.Waits q := by
      obtain ⟨e, c', hc', rfl⟩ := hq
      obtain ⟨c₀, hc₀, heq⟩ := hcall hc'
      exact ⟨e, c₀, hc₀, heq⟩
    refine h.shrink (fun m hm => hm) (fun t ht => .inl ht) h.single hwaits ?_ ?_ rfl rfl h.right
    · intro e c' hc'
      obtain ⟨c₀, hc₀, heq⟩ := hcall hc'
      exact heq ▸ h.caller e c₀ hc₀
    · exact fun q hq => h.waits q (hwaits q hq)
  · refine h.return hc (fun m hm => hm) h.single (fun m hm _ => hm) ⟨?_, ?_⟩
    · exact fun text htext => by contradiction
    · exact fun a ha hprompt => (hnone a ha hprompt).elim

theorem Inv.poll {s s' : Sys} (h : Inv s) {ent : Ent} (hstep : poll s ent = some s') : Inv s' := by
  obtain ⟨c, hc, hstep⟩ := Option.map_eq_some_iff.mp hstep
  have hwaits : s.Waits c.query := ⟨ent, c, hc, rfl⟩
  obtain ⟨hlarge, -⟩ := h.known c.query (.inr hwaits)
  cases hrcv : msgrcv s.queue c.query.msgtype.val with
  | none =>
      rw [hrcv] at hstep
      cases hstep
      refine h.again hc fun a ha hprompt => ?_
      -- An answer that is there would have been found.
      obtain ⟨m, hm, hquery, htype⟩ := h.waits _ hwaits a ha hprompt
      rcases h.form m hm with ⟨hone, -⟩ | ⟨haddress, -⟩
      · exact htype hone
      · exact msgrcv_eq_none (by omega) hrcv m hm (by rw [haddress, hquery])
  | some r =>
      obtain ⟨m, rest⟩ := r
      rw [hrcv] at hstep
      obtain ⟨x, y, hsplit, rfl⟩ := msgrcv_eq hrcv
      have htype := msgrcv_mtype (by omega) hrcv
      have hm : m ∈ s.queue := by simp [hsplit]
      rcases h.form m hm with ⟨hone, -⟩ | ⟨haddress, a, ha, htext⟩
      · omega
      have hquery : m.body.query = c.query :=
        h.unique _ _ (.inl (.inl ⟨m, hm, rfl⟩)) (.inr hwaits)
          (.inl (Subtype.ext (haddress.symm.trans htype)))
      rw [hquery] at ha htext
      dsimp only at hstep
      rw [htext, if_neg (resultText_ne_nil _ _), readAnswer_resultText] at hstep
      subst hstep
      refine h.return hc (fun m' hm' => ?_) ?_ (fun m' hm' hne => ?_) ⟨fun text hgot => ?_, ?_⟩
      · rw [hsplit]
        simp only [List.mem_append, List.mem_cons] at hm' ⊢
        tauto
      · have hsingle := h.single
        rw [hsplit] at hsingle
        exact nodup_of_taken hsingle
      · exact mem_of_taken (hsplit ▸ hm') fun heq => hne (heq ▸ hquery)
      · exact ⟨a, ha, (Option.some.inj hgot).symm⟩
      · intro a' ha' _
        cases ha.symm.trans ha'
        rfl

theorem Inv.receive {s s' : Sys} (h : Inv s) {now : Time} (hapart : Apart s (.receive now))
    (hstep : receive s now = some s') : Inv s' := by
  unfold Bbseva.receive at hstep
  cases hdaemon : s.daemon with
  | some t =>
      rw [hdaemon] at hstep
      contradiction
  | none =>
      rw [hdaemon] at hstep
      cases hrcv : msgrcv s.queue (-(now.val - 10)) with
      | none =>
          rw [hrcv] at hstep
          contradiction
      | some r =>
          obtain ⟨m, rest⟩ := r
          rw [hrcv] at hstep
          obtain ⟨x, y, hsplit, rfl⟩ := msgrcv_eq hrcv
          have hm : m ∈ s.queue := by simp [hsplit]
          have hsub (m' : Message Text) (hm' : m' ∈ x ++ y) : m' ∈ s.queue := by
            rw [hsplit]
            simp only [List.mem_append, List.mem_cons] at hm' ⊢
            tauto
          have hsingle := h.single
          rw [hdaemon, hsplit] at hsingle
          -- What is taken is not what a caller waits for.
          have hwaits (q : Query) (hq : s.Waits q) (a : Answer) (ha : s.answered q.id = some a)
              (hprompt : a.prompt = true) : ∃ m' ∈ x ++ y, m'.body.query = q ∧ m'.mtype ≠ 1 := by
            obtain ⟨m', hm', hquery, htype⟩ := h.waits q hq a ha hprompt
            refine ⟨m', mem_of_taken (hsplit ▸ hm') ?_, hquery, htype⟩
            rintro rfl
            subst hquery
            exact hapart _ _ hrcv ⟨htype, hq, a, ha, hprompt⟩
          dsimp only at hstep
          split at hstep
          · cases hstep
            exact h.shrink hsub (fun t ht => by contradiction) (nodup_of_taken hsingle)
              (fun q hq => hq) h.caller hwaits rfl rfl h.right
          · next hone =>
              cases hstep
              refine h.shrink hsub (fun t ht => ?_) ?_ (fun q hq => hq) h.caller hwaits rfl rfl
                h.right
              · cases ht
                exact .inr ⟨m, hm, not_not.mp hone, rfl⟩
              · refine hsingle.perm ?_
                simp only [List.map_append, List.map_cons, Option.toList_none, List.map_nil,
                  List.append_nil, Option.toList_some]
                exact List.perm_middle.trans (List.perm_append_singleton _ _).symm

/-- An answer takes the place of its query. -/
theorem Inv.answer {s : Sys} (h : Inv s) {t : Text} (ht : s.daemon = some t) (a : Answer) :
    Inv { s with
      queue := s.queue ++
        [⟨t.query.msgtype.val, resultText t.query.ent.val a.result.bytes, t.query⟩]
      daemon := none
      answered := Function.update s.answered t.query.id (some a) } := by
  have hlive : s.Live t.query := .inl (.inr ⟨t, ht, rfl⟩)
  obtain ⟨hlarge, hid⟩ := h.known _ hlive
  have hsingle := h.single
  rw [ht] at hsingle
  -- No other message belongs to the query.
  have hother (m : Message Text) (hm : m ∈ s.queue) : m.body.query ≠ t.query := by
    intro heq
    refine List.disjoint_of_nodup_append hsingle (List.mem_map_of_mem hm) ?_
    simp [heq]
  have hsame (q : Query) (hq : s.Live q) (hne : q ≠ t.query) :
      Function.update s.answered t.query.id (some a) q.id = s.answered q.id :=
    Function.update_of_ne (fun hid => hne (h.unique q _ hq hlive (.inr hid))) _ _
  have hold (q : Query) (hq : Sys.Live { s with
      queue := s.queue ++
        [⟨t.query.msgtype.val, resultText t.query.ent.val a.result.bytes, t.query⟩]
      daemon := none
      answered := Function.update s.answered t.query.id (some a) } q) : s.Live q := by
    rcases hq with (⟨m, hm, rfl⟩ | ⟨t, ht, -⟩) | hq
    · rcases List.mem_append.mp hm with hm | hm
      · exact .inl (.inl ⟨m, hm, rfl⟩)
      · rw [List.mem_singleton.mp hm]
        exact hlive
    · contradiction
    · exact .inr hq
  refine ⟨fun m hm => ?_, fun t ht => by contradiction, fun q hq => h.known q (hold q hq),
    fun q q' hq hq' => h.unique q q' (hold q hq) (hold q' hq'), ?_, h.caller, ?_,
    fun id hle => ?_, h.right⟩
  · rcases List.mem_append.mp hm with hm | hm
    · dsimp only
      rw [hsame m.body.query (.inl (.inl ⟨m, hm, rfl⟩)) (hother m hm)]
      exact h.form m hm
    · rw [List.mem_singleton.mp hm]
      exact .inr ⟨rfl, a, Function.update_self .., rfl⟩
  · simpa using hsingle
  · intro q hq a' ha' hprompt
    by_cases hquery : q = t.query
    · refine ⟨_, List.mem_append_right _ (List.mem_singleton.mpr rfl), hquery.symm, ?_⟩
      dsimp only
      omega
    · dsimp only at ha'
      rw [hsame q (.inr hq) hquery] at ha'
      obtain ⟨m, hm, hmq, htype⟩ := h.waits q hq a' ha' hprompt
      exact ⟨m, List.mem_append_left _ hm, hmq, htype⟩
  · have hne : id ≠ t.query.id := fun heq => absurd hle (by rw [heq]; exact Nat.not_le_of_lt hid)
    exact (Function.update_of_ne hne _ _).trans (h.fresh id hle)

/-- The daemon sends the answer, or goes on to the next query. -/
theorem Inv.serve {s s' : Sys} (h : Inv s) {now : Time} {result : Option (CStr 1023)}
    (hstep : serve s now result = some s') : Inv s' := by
  obtain ⟨t, ht, hstep⟩ := Option.map_eq_some_iff.mp hstep
  obtain ⟨hlarge, hid⟩ := h.known t.query (.inl (.inr ⟨t, ht, rfl⟩))
  have hidle : Inv { s with daemon := none } := by
    have hsingle := h.single
    rw [ht] at hsingle
    refine h.shrink (fun m hm => hm) (fun t ht => by contradiction) ?_ (fun q hq => hq) h.caller
      h.waits rfl rfl h.right
    exact hsingle.sublist (List.Sublist.append_left (List.nil_sublist _) _)
  rw [(h.daemon t ht).1, parseQuery_queryText hlarge] at hstep
  cases hblank : afterBlank (cmdText t.query) with
  | none =>
      rw [hblank] at hstep
      cases hstep
      exact hidle
  | some args =>
      rw [hblank] at hstep
      cases result with
      | none =>
          cases hstep
          exact hidle
      | some r =>
          dsimp only [Option.map_some] at hstep
          rw [sendresult, if_neg (by omega)] at hstep
          subst hstep
          exact h.answer ht ⟨r, now.val ≤ t.query.msgtype.val + 10⟩

/-- A query comes that no other can be taken for. -/
theorem Inv.ask {s s' : Sys} (h : Inv s) {ent : Ent} {now : Time} {text : CStr 1023} {size : Nat}
    {sent : Bool} (hapart : Apart s (.ask ent now text size sent))
    (hstep : ask s ent now text size sent = some s') : Inv s' := by
  obtain ⟨hidle, hstep⟩ := Option.ite_none_left_eq_some.mp hstep
  split at hstep
  · next hsent =>
      obtain ⟨hlarge, hother⟩ := hapart hsent
      obtain ⟨q, hq⟩ : ∃ q : Query, q = ⟨s.count, ent, now, text, size⟩ := ⟨_, rfl⟩
      rw [← hq] at hstep
      cases hstep
      have hnew (q' : Query) (hq' : s.Live q') : q' ≠ q := by
        rintro rfl
        refine hother q' hq' ?_
        rw [hq]
      have hcall {e : Ent} {c : Call}
          (hc : Function.update s.calls ent (some ⟨q, 0⟩) e = some c) :
          s.calls e = some c ∨ e = ent ∧ c.query = q := by
        by_cases he : e = ent
        · rw [he, Function.update_self] at hc
          cases hc
          exact .inr ⟨he, rfl⟩
        · rw [Function.update_of_ne he] at hc
          exact .inl hc
      have hold (q' : Query) (hq' : Sys.Live { s with
          queue := s.queue ++ [⟨1, queryText q, q⟩]
          calls := Function.update s.calls ent (some ⟨q, 0⟩)
          count := s.count + 1 } q') : s.Live q' ∨ q' = q := by
        rcases hq' with (⟨m, hm, rfl⟩ | ⟨t, ht, rfl⟩) | ⟨e, c, hc, rfl⟩
        · rcases List.mem_append.mp hm with hm | hm
          · exact .inl (.inl (.inl ⟨m, hm, rfl⟩))
          · rw [List.mem_singleton.mp hm]
            exact .inr rfl
        · exact .inl (.inl (.inr ⟨t, ht, rfl⟩))
        · rcases hcall hc with hc | ⟨-, heq⟩
          · exact .inl (.inr ⟨e, c, hc, rfl⟩)
          · exact .inr heq
      have hfresh : s.answered q.id = none := by
        rw [hq]
        exact h.fresh _ (Nat.le_refl _)
      refine ⟨fun m hm => ?_, h.daemon, fun q' hq' => ?_, fun q₁ q₂ h₁ h₂ heq => ?_, ?_,
        fun e c hc => ?_, ?_, fun id hle => ?_, h.right⟩
      · rcases List.mem_append.mp hm with hm | hm
        · exact h.form m hm
        · rw [List.mem_singleton.mp hm]
          exact .inl ⟨rfl, rfl, hfresh⟩
      · rcases hold q' hq' with hq' | rfl
        · obtain ⟨hl, hi⟩ := h.known q' hq'
          exact ⟨hl, Nat.lt_succ_of_lt hi⟩
        · rw [hq]
          exact ⟨hlarge, Nat.lt_succ_self _⟩
      · have hclash {q' : Query} (hq' : s.Live q')
            (heq : q'.msgtype = q.msgtype ∨ q'.id = q.id) : False := by
          rw [hq] at heq
          rcases heq with heq | heq
          · exact hother q' hq' heq
          · exact Nat.lt_irrefl _ (heq ▸ (h.known q' hq').2)
        rcases hold q₁ h₁ with hl₁ | heq₁
        · rcases hold q₂ h₂ with hl₂ | rfl
          · exact h.unique q₁ q₂ hl₁ hl₂ heq
          · exact (hclash hl₁ heq).elim
        · rcases hold q₂ h₂ with hl₂ | heq₂
          · rw [heq₁] at heq
            exact (hclash hl₂ (heq.imp Eq.symm Eq.symm)).elim
          · rw [heq₁, heq₂]
      · dsimp only
        rw [List.map_append, List.map_singleton, List.append_assoc, List.singleton_append,
          List.nodup_middle, List.nodup_cons]
        refine ⟨fun hmem => ?_, h.single⟩
        rcases List.mem_append.mp hmem with hmem | hmem
        · obtain ⟨m, hm, heq⟩ := List.mem_map.mp hmem
          exact hnew _ (.inl (.inl ⟨m, hm, rfl⟩)) heq
        · obtain ⟨t, ht, heq⟩ := List.mem_map.mp hmem
          exact hnew _ (.inl (.inr ⟨t, Option.mem_toList.mp ht, rfl⟩)) heq
      · rcases hcall hc with hc | ⟨rfl, heq⟩
        · exact h.caller e c hc
        · rw [heq, hq]
      · rintro q' ⟨e, c, hc, rfl⟩ a ha hprompt
        rcases hcall hc with hc | ⟨-, heq⟩
        · obtain ⟨m, hm, hquery, htype⟩ := h.waits _ ⟨e, c, hc, rfl⟩ a ha hprompt
          exact ⟨m, List.mem_append_left _ hm, hquery, htype⟩
        · rw [heq] at ha
          exact absurd (hfresh.symm.trans ha) (by simp)
      · exact h.fresh id (Nat.le_of_succ_le hle)
  · cases hstep
    exact h

/-! ## All runs -/

open Classical in
/-- **Every query gets its own answer** in a run that keeps queries of one second apart and answers
for those who wait for them. -/
theorem bbseva_right {es : List Event} {s : Sys}
    (h : Run (when (fun s e => Apart s e) step) start es s) : s.Right := by
  refine (h.invariant_when Inv start_inv fun s e s' hs hapart hstep => ?_).right
  cases e with
  | ask ent now text size sent => exact hs.ask hapart hstep
  | poll ent => exact hs.poll hstep
  | receive now => exact hs.receive hapart hstep
  | serve now result => exact hs.serve hstep

/-! ## Runs that go wrong -/

theorem intRange_small {n : Nat} (h : n < 3) : IntRange n := by
  unfold IntRange
  omega

/-- The processes with the numbers 0, 1 and 2. -/
def someEnt (n : Fin 3) : Ent := ⟨n.val, intRange_small n.isLt⟩

theorem time_small {n : Nat} (h : n < 200) : (-1 : Int) ≤ n ∧ (n : Int) < 2 ^ 63 := by
  omega

/-- A second long ago. -/
def someTime (n : Fin 200) : Time := ⟨n.val, time_small n.isLt⟩

theorem nAVG_nz : (0 : UInt8) ∉ ([110, 65, 86, 71, 32, 97, 32, 98] : List UInt8) := by
  decide

theorem nAVG_le : ([110, 65, 86, 71, 32, 97, 32, 98] : List UInt8).length ≤ 1023 := by
  decide

/-- `nAVG a b` -/
def nAVG : CStr 1023 := ⟨_, nAVG_nz, nAVG_le⟩

theorem five_nz : (0 : UInt8) ∉ ([53] : List UInt8) := by
  decide

theorem five_le : ([53] : List UInt8).length ≤ 1023 := by
  decide

/-- `5` -/
def five : CStr 1023 := ⟨_, five_nz, five_le⟩

/-- One query, and its answer. -/
def answering : List Event :=
  [.ask (someEnt 1) (someTime 100) nAVG 256 true, .receive (someTime 100),
    .serve (someTime 101) (some five), .poll (someEnt 1)]

/-- Two queries of one second; the second caller looks first. -/
def sameSecond : List Event :=
  [.ask (someEnt 1) (someTime 100) nAVG 256 true, .ask (someEnt 2) (someTime 100) nAVG 256 true,
    .receive (someTime 100), .serve (someTime 100) (some five), .receive (someTime 100),
    .serve (someTime 100) (some five), .poll (someEnt 2)]

/-- The daemon finds its own answer ten seconds old. -/
def tenSeconds : List Event :=
  [.ask (someEnt 1) (someTime 100) nAVG 256 true, .receive (someTime 100),
    .serve (someTime 100) (some five), .receive (someTime 110)] ++
      List.replicate 8 (.poll (someEnt 1))

/-- The address of an answer is the type of a query. -/
def firstSecond : List Event :=
  [.ask (someEnt 1) (someTime 1) nAVG 256 true, .receive (someTime 100),
    .serve (someTime 1) (some five), .receive (someTime 100)] ++
      List.replicate 8 (.poll (someEnt 1))

open Classical in
theorem bbseva_right_answering : ∃ s : Sys, s.Right ∧ s.returned =
    [⟨⟨0, someEnt 1, someTime 100, nAVG, 256⟩, some [53], some ⟨five, true⟩⟩] := by
  have hreturned : (exec step start answering).map Sys.returned =
      some [⟨⟨0, someEnt 1, someTime 100, nAVG, 256⟩, some [53], some ⟨five, true⟩⟩] := by
    decide +kernel
  obtain ⟨s, hexec, hrs⟩ := Option.map_eq_some_iff.mp hreturned
  have hask : Apart start (.ask (someEnt 1) (someTime 100) nAVG 256 true) :=
    fun _ => ⟨by decide, fun q hq => absurd (start_inv.known q hq).2 (Nat.not_lt_zero _)⟩
  have hreceive (s : Sys) (m : Message Text) (hqueue : s.queue = [m]) (hone : m.mtype = 1) :
      Apart s (.receive (someTime 100)) := by
    intro m' rest hrcv hawaited
    obtain ⟨a, b, hsplit, -⟩ := msgrcv_eq hrcv
    have hm' : m' ∈ s.queue := by simp [hsplit]
    rw [hqueue, List.mem_singleton] at hm'
    exact hawaited.1 (hm' ▸ hone)
  have hwhen {s : Sys} {e : Event} (h : Apart s e) :
      when (fun s e => Apart s e) step s e = step s e := if_pos h
  suffices hrun : exec (when (fun s e => Apart s e) step) start answering = some s from
    ⟨s, bbseva_right (.of_exec hrun), hrs⟩
  rw [← hexec, answering, exec, exec, hwhen hask]
  cases hfirst : step start (.ask (someEnt 1) (someTime 100) nAVG 256 true) with
  | none => rfl
  | some s₁ =>
      have hqueue := congrArg Sys.queue (Option.some.inj hfirst)
      rw [Option.bind_some, Option.bind_some, exec, exec, hwhen (hreceive s₁ _ hqueue.symm rfl)]
      refine congrArg (Option.bind _) (funext fun s₂ => ?_)
      have hserve : Apart s₂ (.serve (someTime 101) (some five)) := trivial
      rw [exec, exec, hwhen hserve]
      refine congrArg (Option.bind _) (funext fun s₃ => ?_)
      have hpoll : Apart s₃ (.poll (someEnt 1)) := trivial
      rw [exec, exec, hwhen hpoll]
      rfl

theorem loses_of_returned {es : List Event} {q : Query}
    (h : (exec step start es).map Sys.returned = some [⟨q, none, some ⟨five, true⟩⟩]) :
    ∃ s, exec step start es = some s ∧ ¬ s.Right := by
  obtain ⟨s, hexec, hrs⟩ := Option.map_eq_some_iff.mp h
  refine ⟨s, hexec, fun hright => ?_⟩
  have hmem : Returned.mk q none (some ⟨five, true⟩) ∈ s.returned := by
    rw [hrs]
    exact List.mem_singleton.mpr rfl
  have hgot := (hright _ hmem).prompt ⟨five, true⟩ rfl rfl
  contradiction

/-- **Answers get lost**: another caller of the same second takes one, the daemon removes one, and
in the first second it takes one for a query. -/
theorem bbseva_loses :
    (∃ s, exec step start sameSecond = some s ∧ ¬ s.Right) ∧
      (∃ s, exec step start tenSeconds = some s ∧ ¬ s.Right) ∧
        ∃ s, exec step start firstSecond = some s ∧ ¬ s.Right := by
  refine ⟨loses_of_returned (q := ⟨1, someEnt 2, someTime 100, nAVG, 256⟩) ?_,
    loses_of_returned (q := ⟨0, someEnt 1, someTime 100, nAVG, 256⟩) ?_,
    loses_of_returned (q := ⟨0, someEnt 1, someTime 1, nAVG, 256⟩) ?_⟩
  · decide +kernel
  · decide +kernel
  · decide +kernel

end Ytht.Bbseva
