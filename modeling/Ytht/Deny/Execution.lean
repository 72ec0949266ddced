import Ytht.Deny.Prison
import Ytht.Ucache.Getuser
import Ytht.Ythtlib.Strop

/-!
# Deny.Execution

The list of the accounts that are to be deleted.  `setexecuteuser` writes a line for each, with
the time at its end, and `autoexecutioner` kicks out the users whose time has come and writes the
other lines to a new file.

The name goes through a buffer of sixteen bytes, twelve of which are written: behind a name of
twelve bytes stands what was in the buffer before, and the user is not found.  `executions_iff`
says that a run does its work whatever the buffer held exactly when no line that is due names,
with twelve bytes, an account or the beginning of one.
-/

namespace Ytht

open Bytes

namespace Deny

/-! ## Entering the list -/

/-- What `setexecuteuser` is told about a user; a day is the least it takes. -/
structure Execution extends Sentence where
  soon : 0 < day

/-- `%-28s，%2d月%2d日执行` -/
def Execution.tmpbuf (e : Execution) : List UInt8 :=
  padRight 28 e.buf ++ [163, 172] ++ pad2 (gmtime e.daytime).1 ++ [212, 194] ++
    pad2 (gmtime e.daytime).2 ++ [200, 213, 214, 180, 208, 208]

theorem Execution.length_tmpbuf (e : Execution) : e.tmpbuf.length ≤ 42 := by
  have hbuf := length_padRight (n := 28) (e.reason.2.1.trans (by decide))
  have hmonth := length_pad2 (gmtime_lt e.daytime).1
  have hday := length_pad2 (gmtime_lt e.daytime).2
  simp only [tmpbuf, List.length_append, List.length_cons, List.length_nil]
  omega

theorem Execution.clear_tmpbuf (e : Execution) : Clear e.tmpbuf := by
  have hcomma : Plain [163, 172] := List.all_iff_forall_prop.mp (by decide)
  have hmonth : Plain [212, 194] := List.all_iff_forall_prop.mp (by decide)
  have hday : Plain [200, 213, 214, 180, 208, 208] := List.all_iff_forall_prop.mp (by decide)
  simp only [tmpbuf, clear_append, clear_padRight]
  exact ⟨⟨⟨⟨⟨e.reason.2.2, hcomma.clear⟩, (plain_pad2 _).clear⟩, hmonth.clear⟩,
    (plain_pad2 _).clear⟩, hday.clear⟩

/-- What is written of an execution. -/
def Execution.term (e : Execution) : Term where
  uident := e.uident
  width := 42
  text := e.tmpbuf
  time := e.time
  goodId := e.goodId
  fits := ⟨e.length_tmpbuf, Nat.le_refl 42⟩
  clear := e.clear_tmpbuf
  inTime := e.time_lt

/-- `is_todel` -/
def isTodel (file uident : List UInt8) : Bool := seekInFile file uident

/-- `setexecuteuser`, when it is told to add a user. -/
def setexecuteuser (file : List UInt8) (e : Execution) : List UInt8 :=
  if isTodel file e.uident then file else addtofile file e.term.line

/-- Who is in the list: nobody twice. -/
def condemn (listed : List Execution) (e : Execution) : List Execution :=
  enlist Execution.term listed e

/-! ## The automatic execution -/

/-- The string in `userid` behind `strncpy(userid, token, 12)`; `memory` is what stands behind
the twelve bytes, which nothing writes. -/
def useridBuf (token memory : List UInt8) : List UInt8 :=
  if token.length < 12 then token else token.take 12 ++ memory.takeWhile (· != 0)

/-- `SYSOP` -/
def sysop : List UInt8 := [83, 89, 83, 79, 80]

/-- ` 被执行杀档` -/
def executedText : List UInt8 := [32, 177, 187, 214, 180, 208, 208, 201, 177, 181, 181]

/-- `执行原因：时辰已到!` -/
def timeIsUp : List UInt8 :=
  [214, 180, 208, 208, 212, 173, 210, 242, 163, 186, 202, 177, 179, 189, 210, 209, 181, 189, 33]

/-- A call of `kickoutuserec`, and what is reported of it. -/
structure Kick where
  userid : List UInt8
  repbuf : List UInt8
  msgbuf : List UInt8
  deriving DecidableEq

/-- `executeuser`, at a time and with what the files do. -/
def executeuser (c : HashConf) (uident : List UInt8) (now : Int) (io : PasswdIo) (s : Ucache) :
    Option (Option Kick × Ucache) := do
  let found ← getuser c s uident
  match found with
  | none => some (none, s)
  | some id =>
      let userid := s.userid id
      if userid = [] ∨ userid = sysop then some (none, s)
      else
        let (_, s) ← kickoutuserec c s userid now io
        some (some ⟨userid, uident ++ executedText, timeIsUp⟩, s)

/-- The loop of `main`: the calls of `kickoutuserec`, the new file and the table.  Behind the end of
a line the model has nothing, for `token + 2`. -/
def executeLoop (c : HashConf) (memory : List UInt8) (nowtime : Nat) (env : Nat → Int × PasswdIo) :
    List (List UInt8) → Ucache → Option (List Kick × List UInt8 × Ucache)
  | [], s => some ([], [], s)
  | tmpbuf :: lines, s =>
      match strtokBlank tmpbuf, tmpbuf.dropWhile (· != 27) with
      | some token, 27 :: rest =>
          if wrap 8 (atol (rest.drop 1)) ≤ nowtime then do
            let (kicked, s) ← executeuser c (useridBuf token memory) (env lines.length).1
              (env lines.length).2 s
            let (kicks, file, s) ← executeLoop c memory nowtime env lines s
            some (kicked.toList ++ kicks, file, s)
          else do
            let (kicks, file, s) ← executeLoop c memory nowtime env lines s
            some (kicks, tmpbuf ++ file, s)
      | _, _ => executeLoop c memory nowtime env lines s

/-- `main` -/
def autoexecutioner (c : HashConf) (memory : List UInt8) (nowtime : Nat)
    (env : Nat → Int × PasswdIo) (file : List UInt8) (s : Ucache) :
    Option (List Kick × List UInt8 × Ucache) :=
  if file = [] then some ([], file, s)
  else executeLoop c memory nowtime env (fgetsLines 255 255 file) s

/-! ## What a run does -/

/-- What is to happen to the user of a name: the account is kicked out and reported, unless it is
that of `SYSOP`. -/
def kick (c : HashConf) (s : Ucache) (uident : List UInt8) : Option Kick :=
  (s.account c uident).bind fun x =>
    if s.userid x = sysop then none else some ⟨s.userid x, uident ++ executedText, timeIsUp⟩

theorem executeuser_spec {c : HashConf} {s : Ucache} {own : Nat → List Nat}
    (h : s.Inv c c.Slot own) (hd : s.Distinct c) (uident : List UInt8) (now : Int) (io : PasswdIo) :
    ∃ s' own', executeuser c uident now io s = some (kick c s uident, s') ∧ s'.Inv c c.Slot own' ∧
      s'.Distinct c ∧
      ∀ other, ¬ strcasecmp uident other = true → kick c s' other = kick c s other := by
  rw [executeuser, getuser_eq h hd, kick]
  simp only [Option.bind_eq_bind, Option.bind_some]
  cases hfound : s.account c uident with
  | none => exact ⟨s, own, rfl, h, hd, fun _ _ => rfl⟩
  | some x =>
      obtain ⟨hacc, hid⟩ := Ucache.account_some hfound
      simp only [Option.bind_some, hacc.2.1, false_or]
      split
      · exact ⟨s, own, rfl, h, hd, fun _ _ => rfl⟩
      · obtain ⟨r, s', own', hkick, hinv, hdist, hsame⟩ :=
          kickoutuserec_accounts h hd (s.userid x) now io
        rw [hkick]
        refine ⟨s', own', rfl, hinv, hdist, fun other hother => ?_⟩
        have haccount := Ucache.account_kickout hsame
          fun hmine => hother (strcasecmp_trans hid hmine)
        rw [kick, kick, haccount]
        cases hy : s.account c other with
        | none => rfl
        | some y =>
            have hslot := (Ucache.account_some hy).1.1
            rw [Option.bind_some, Option.bind_some, (hsame y hslot).1]

theorem Term.strtokBlank_line (t : Term) : strtokBlank (t.line ++ [10]) = some t.uident := by
  have hblank : ∀ c ∈ t.uident, (c == 32) = false := by
    intro c hc
    have := (t.goodId.byte hc).1
    grind
  have hword : (t.uident.takeWhile fun c => c != 32) = t.uident := by
    refine List.takeWhile_eq_self_iff.mpr fun c hc => ?_
    rw [bne, hblank c hc]
    rfl
  rw [strtokBlank, line_eq_id, List.append_assoc, t.goodId.dropWhile hblank, List.cons_append,
    takeWhile_append_of_neg rfl, hword]
  exact if_neg t.goodId.1

theorem Term.escape_line (t : Term) : (t.line ++ [10]).dropWhile (· != 27) =
    27 :: 91 :: (decimal t.time ++ 109 :: [10]) := by
  have hclear : ∀ c ∈ t.head, (c != 27) = true := by
    intro c hc
    have := t.clear_head c hc
    simp only [List.mem_cons, not_or] at this
    exact bne_iff_ne.mpr this.2.2.2.1
  rw [line_eq, List.append_assoc, List.dropWhile_append_of_pos hclear]
  simp

theorem Term.duetime_line (t : Term) :
    wrap 8 (atol ((91 :: (decimal t.time ++ 109 :: [10])).drop 1)) = t.time := by
  have hsep : isdigit 109 = false := rfl
  have htime := t.inTime
  rw [List.drop_one, List.tail_cons, atol_decimal htime hsep, wrap]
  omega

/-- The names as the buffer holds them differ, in any letters. -/
def Apart (memory : List UInt8) (ts : List Term) : Prop :=
  ts.Pairwise fun t t' =>
    ¬ strcasecmp (useridBuf t.uident memory) (useridBuf t'.uident memory) = true

theorem executeLoop_lines {c : HashConf} (memory : List UInt8) (nowtime : Nat)
    (env : Nat → Int × PasswdIo) {ts : List Term} (hapart : Apart memory ts) {s : Ucache}
    {own : Nat → List Nat} (h : s.Inv c c.Slot own) (hd : s.Distinct c) :
    ∃ s', executeLoop c memory nowtime env (ts.map fun t => t.line ++ [10]) s =
      some ((ts.filter fun t => t.time ≤ nowtime).filterMap
          (fun t => kick c s (useridBuf t.uident memory)),
        listing (ts.filter fun t => nowtime < t.time), s') := by
  induction ts generalizing s own with
  | nil => exact ⟨s, rfl⟩
  | cons t ts ih =>
      obtain ⟨hother, hapart⟩ := List.pairwise_cons.mp hapart
      rw [List.map_cons, executeLoop, t.strtokBlank_line, t.escape_line]
      simp only [t.duetime_line]
      split
      · next hdue =>
        obtain ⟨s₁, own₁, hexec, hinv, hdist, hsame⟩ :=
          executeuser_spec h hd (useridBuf t.uident memory) (env ts.length).1 (env ts.length).2
        obtain ⟨s', hloop⟩ := ih hapart hinv hdist
        have hrest : (ts.filter fun t => t.time ≤ nowtime).filterMap
              (fun t => kick c s₁ (useridBuf t.uident memory)) =
            (ts.filter fun t => t.time ≤ nowtime).filterMap
              (fun t => kick c s (useridBuf t.uident memory)) :=
          List.filterMap_congr fun t' ht' => hsame _ (hother t' (List.mem_filter.mp ht').1)
        rw [List.length_map, hexec]
        simp only [Option.bind_eq_bind, Option.bind_some, hloop, hrest]
        rw [List.filter_cons_of_pos (by simpa using hdue),
          List.filter_cons_of_neg (by simpa using hdue), List.filterMap_cons]
        refine ⟨s', ?_⟩
        cases kick c s (useridBuf t.uident memory) <;> rfl
      · next hpending =>
        obtain ⟨s', hloop⟩ := ih hapart h hd
        rw [List.filter_cons_of_neg (by simpa using hpending),
          List.filter_cons_of_pos (by simpa using hpending), listing_cons]
        refine ⟨s', ?_⟩
        simp only [Option.bind_eq_bind, Option.bind_some, hloop, List.append_assoc,
          List.singleton_append]

/-- A run kicks out the users who are listed and due, and leaves the lines of those who are not due
yet, whatever stood in the buffer. -/
def ExecutesDue (c : HashConf) (s : Ucache) (file : List UInt8) (listed : List Execution)
    (nowtime : Nat) : Prop :=
  ∀ memory env, ∃ s', autoexecutioner c memory nowtime env file s =
    some ((listed.filter fun e => e.time ≤ nowtime).filterMap (fun e => kick c s e.uident),
      listing ((listed.filter fun e => nowtime < e.time).map Execution.term), s')

/-- A name that is cut after twelve bytes stays another one. -/
theorem strcasecmp_of_useridBuf {u v memory : List UInt8} (hu : u.length ≤ 12) (hv : v.length ≤ 12)
    (h : strcasecmp (useridBuf u memory) (useridBuf v memory) = true) : strcasecmp u v = true := by
  have htake : ∀ w : List UInt8, w.length ≤ 12 → (useridBuf w memory).take 12 = w := by
    intro w hw
    unfold useridBuf
    split
    · exact List.take_of_length_le hw
    · next hlong =>
      have hlen : w.length = 12 := by omega
      rw [List.take_of_length_le hw, ← hlen, List.take_left]
  rw [strcasecmp_iff] at h ⊢
  have hcut := congrArg (List.take 12) h
  rwa [← List.map_take, ← List.map_take, htake u hu, htake v hv] at hcut

theorem autoexecutioner_listing {c : HashConf} {s : Ucache} {own : Nat → List Nat}
    (h : s.Inv c c.Slot own) (hd : s.Distinct c) {listed : List Execution}
    (hlisted : NobodyTwice Execution.term listed) (memory : List UInt8) (nowtime : Nat)
    (env : Nat → Int × PasswdIo) :
    ∃ s', autoexecutioner c memory nowtime env (listing (listed.map Execution.term)) s =
      some ((listed.filter fun e => e.time ≤ nowtime).filterMap
          (fun e => kick c s (useridBuf e.uident memory)),
        listing ((listed.filter fun e => nowtime < e.time).map Execution.term), s') := by
  have hapart : Apart memory (listed.map Execution.term) := by
    refine List.pairwise_map.mpr (List.Pairwise.imp ?_ hlisted)
    exact fun {e e'} hne hsame =>
      hne (strcasecmp_of_useridBuf e.goodId.2.1 e'.goodId.2.1 hsame)
  obtain ⟨s', hloop⟩ := executeLoop_lines memory nowtime env hapart h hd
  unfold autoexecutioner
  split
  · next hnil =>
    cases listed with
    | nil => exact ⟨s, rfl⟩
    | cons e listed => simp [listing_cons] at hnil
  · rw [fgets_listing (by decide), hloop, List.filter_map, List.filterMap_map, List.filter_map]
    exact ⟨s', rfl⟩

/-- A report names the user as the buffer holds the name. -/
theorem kick_eq_some {c : HashConf} {s : Ucache} {uident : List UInt8} {k : Kick}
    (h : kick c s uident = some k) : k.repbuf = uident ++ executedText := by
  unfold kick at h
  obtain ⟨x, -, hx⟩ := Option.bind_eq_some_iff.mp h
  split at hx
  · contradiction
  · rw [← Option.some.inj hx]

/-- Who is kicked out under some names is kicked out under the same names, if the calls are the
same. -/
theorem exists_same_name {c : HashConf} {s : Ucache} {f g : Execution → List UInt8}
    {es : List Execution}
    (h : (es.filterMap fun e => kick c s (f e)) = es.filterMap fun e => kick c s (g e))
    {e : Execution} (he : e ∈ es) {k : Kick} (hk : kick c s (f e) = some k) :
    ∃ e' ∈ es, f e = g e' := by
  have hmem : k ∈ es.filterMap fun e => kick c s (f e) := List.mem_filterMap.mpr ⟨e, he, hk⟩
  rw [h] at hmem
  obtain ⟨e', he', hk'⟩ := List.mem_filterMap.mp hmem
  have hname := kick_eq_some hk
  rw [kick_eq_some hk', List.append_cancel_right_eq] at hname
  exact ⟨e', he', hname.symm⟩

theorem length_of_strcasecmp {u v : List UInt8} (h : strcasecmp u v = true) : u.length = v.length := by
  have hlen := congrArg List.length (strcasecmp_iff.mp h)
  rwa [List.length_map, List.length_map] at hlen

theorem strcasecmp_take {u v : List UInt8} (h : strcasecmp u v = true) (n : Nat) :
    strcasecmp (u.take n) (v.take n) = true := by
  rw [strcasecmp_iff] at h ⊢
  rw [List.map_take, List.map_take, h]

/-- A long name is not that of `SYSOP`. -/
theorem exists_kick {c : HashConf} {s : Ucache} (hd : s.Distinct c) {u : List UInt8} {x : Nat}
    (hx : s.Account c x) (hid : strcasecmp u (s.userid x) = true) (hlen : 12 ≤ u.length) :
    ∃ k, kick c s u = some k := by
  rw [length_of_strcasecmp hid] at hlen
  have hsysop : s.userid x ≠ sysop := by
    intro heq
    rw [heq] at hlen
    exact absurd hlen (by decide)
  rw [kick, Ucache.account_eq hd hx hid, Option.bind_some, if_neg hsysop]
  exact ⟨_, rfl⟩

/-- No account begins with these twelve bytes. -/
theorem kick_eq_none {c : HashConf} {s : Ucache} {e u : List UInt8} (hu : u.take 12 = e)
    (hno : ∀ x, s.Account c x → ¬ strcasecmp e ((s.userid x).take 12) = true) :
    kick c s u = none := by
  have hnone : s.account c u = none := Ucache.account_none.mpr fun x hx hid =>
    hno x hx (by rw [← hu]; exact strcasecmp_take hid 12)
  rw [kick, hnone, Option.bind_none]

theorem useridBuf_of_length {u : List UInt8} (hu : u.length = 12) (memory : List UInt8) :
    useridBuf u memory = u ++ memory.takeWhile (· != 0) := by
  rw [useridBuf, if_neg (by omega), List.take_of_length_le (by omega)]

/-- The users who are kicked out are then the same whatever stood in the buffer. -/
theorem ExecutesDue.kicks_eq {c : HashConf} {s : Ucache} {own : Nat → List Nat}
    {listed : List Execution} {nowtime : Nat}
    (hexec : ExecutesDue c s (listing (listed.map Execution.term)) listed nowtime)
    (h : s.Inv c c.Slot own) (hd : s.Distinct c) (hlisted : NobodyTwice Execution.term listed)
    (memory : List UInt8) :
    (listed.filter fun e => e.time ≤ nowtime).filterMap
        (fun e => kick c s (useridBuf e.uident memory)) =
      (listed.filter fun e => e.time ≤ nowtime).filterMap (fun e => kick c s e.uident) := by
  obtain ⟨s₁, hrun⟩ :=
    autoexecutioner_listing h hd hlisted memory nowtime fun _ => (0, ⟨true, true⟩)
  obtain ⟨s₂, hexec⟩ := hexec memory fun _ => (0, ⟨true, true⟩)
  exact (Prod.mk.inj (Option.some.inj (hrun.symm.trans hexec))).1

/-- A name of twelve bytes that is due is lost, or is taken for another one. -/
theorem not_executesDue {c : HashConf} {s : Ucache} {own : Nat → List Nat}
    (h : s.Inv c c.Slot own) (hd : s.Distinct c) {listed : List Execution}
    (hlisted : NobodyTwice Execution.term listed) {nowtime : Nat} {e : Execution} (he : e ∈ listed)
    (hdue : e.time ≤ nowtime) (hlen : e.uident.length = 12) {x : Nat} (hx : s.Account c x)
    (hid : strcasecmp e.uident ((s.userid x).take 12) = true) :
    ¬ ExecutesDue c s (listing (listed.map Execution.term)) listed nowtime := by
  intro hexec
  have hmem : e ∈ listed.filter fun e => e.time ≤ nowtime :=
    List.mem_filter.mpr ⟨he, decide_eq_true hdue⟩
  have hkicks := hexec.kicks_eq h hd hlisted
  by_cases hrest : (s.userid x).drop 12 = []
  · -- the account is lost when anything stands behind the twelve bytes
    rw [List.take_of_length_le (List.drop_eq_nil_iff.mp hrest)] at hid
    obtain ⟨k, hk⟩ := exists_kick hd hx hid (le_of_eq hlen.symm)
    obtain ⟨e', -, hname⟩ := exists_same_name (hkicks [1]).symm hmem hk
    rw [hname, useridBuf] at hlen
    split at hlen
    · omega
    · have htake : (e'.uident.take 12).length = 12 := List.length_take_of_le (by omega)
      rw [List.length_append, htake] at hlen
      exact absurd hlen (by decide)
  · -- the rest of another name stands behind them
    have hzero : 0 ∉ (s.userid x).drop 12 := fun h0 =>
      (s.passwd (x - 1)).userid.nz (List.mem_of_mem_drop h0)
    have hbuf : useridBuf e.uident ((s.userid x).drop 12) = e.uident ++ (s.userid x).drop 12 := by
      rw [useridBuf_of_length hlen, List.takeWhile_eq_self_iff.mpr]
      intro b hb
      exact bne_iff_ne.mpr (ne_of_mem_of_not_mem hb hzero)
    have hwhole : strcasecmp (useridBuf e.uident ((s.userid x).drop 12)) (s.userid x) = true := by
      rw [hbuf]
      rw [strcasecmp_iff] at hid ⊢
      rw [List.map_append, hid, ← List.map_append, List.take_append_drop]
    have hlong : 12 ≤ (useridBuf e.uident ((s.userid x).drop 12)).length := by
      rw [hbuf, List.length_append]
      omega
    obtain ⟨k, hk⟩ := exists_kick hd hx hwhole hlong
    obtain ⟨e', -, hname⟩ := exists_same_name (hkicks ((s.userid x).drop 12)) hmem hk
    have hshort := e'.goodId.2.1
    have hpos := List.length_pos_iff.mpr hrest
    rw [← hname, hbuf, List.length_append] at hshort
    omega

theorem foldl_setexecuteuser (orders : List Execution) :
    orders.foldl setexecuteuser [] = listing ((orders.foldl condemn []).map Execution.term) ∧
      NobodyTwice Execution.term (orders.foldl condemn []) :=
  ⟨foldl_listing Execution.term (fun _ _ => rfl) orders [],
    nobodyTwice_foldl Execution.term List.Pairwise.nil orders⟩

theorem executions_iff {c : HashConf} {s : Ucache} (h : PasswdReachable c s)
    (orders : List Execution) (nowtime : Nat) :
    ExecutesDue c s (orders.foldl setexecuteuser []) (orders.foldl condemn []) nowtime ↔
      ∀ e ∈ orders.foldl condemn [], e.time ≤ nowtime → e.uident.length = 12 →
        ∀ x, s.Account c x → ¬ strcasecmp e.uident ((s.userid x).take 12) = true := by
  obtain ⟨own, hinv, hdist⟩ := h.inv
  obtain ⟨hfile, htwice⟩ := foldl_setexecuteuser orders
  rw [hfile]
  constructor
  · intro hexec e he hdue hlen x hx hid
    exact not_executesDue hinv hdist htwice he hdue hlen hx hid hexec
  · intro hcond memory env
    obtain ⟨s', hrun⟩ := autoexecutioner_listing hinv hdist htwice memory nowtime env
    refine ⟨s', ?_⟩
    rw [hrun]
    congr 2
    refine List.filterMap_congr fun e he => ?_
    obtain ⟨hmem, hdue⟩ := List.mem_filter.mp he
    rcases Nat.lt_or_eq_of_le e.goodId.2.1 with hlt | hlen
    · rw [useridBuf, if_pos hlt]
    · have hno := hcond e hmem (of_decide_eq_true hdue) hlen
      have htake : (useridBuf e.uident memory).take 12 = e.uident := by
        rw [useridBuf_of_length hlen, ← hlen, List.take_left]
      rw [kick_eq_none htake hno, kick_eq_none (List.take_of_length_le hlen.le) hno]

theorem days_tomorrow : 1 < 1000 := by decide

theorem inTime_tomorrow : 1000000000 + (1 + 1) * 86400 < 2 ^ 63 := by decide

/-- A user is to be deleted for `test`, a day later. -/
def tomorrow (u : List UInt8) (hu : GoodId u) : Execution where
  uident := u
  buf := [116, 101, 115, 116]
  day := 1
  nowtime := 1000000000
  goodId := hu
  reason := reason_test
  days := days_tomorrow
  inTime := inTime_tomorrow
  soon := Nat.zero_lt_one

theorem goodId_shortName : GoodId shortName.bytes :=
  goodId_letters (List.cons_ne_nil _ _) (by decide) rfl

/-- `abcdefghijkl` -/
def longName : CStr (idlen + 1) :=
  ⟨[97, 98, 99, 100, 101, 102, 103, 104, 105, 106, 107, 108], by decide, by decide⟩

theorem goodId_longName : GoodId longName.bytes :=
  goodId_letters (List.cons_ne_nil _ _) (by decide) rfl

/-- `Ab` is kicked out. -/
theorem executions_iff_short : ∃ s, PasswdReachable twoUsers s ∧
    ExecutesDue twoUsers s ([tomorrow shortName.bytes goodId_shortName].foldl setexecuteuser [])
      ([tomorrow shortName.bytes goodId_shortName].foldl condemn []) 2000000000 := by
  obtain ⟨s, hs, -⟩ := exists_onlyUser (u := shortName) (by decide) (by decide)
  refine ⟨s, hs, (executions_iff hs _ _).mpr fun e he _ hlen => ?_⟩
  rw [List.mem_singleton.mp he] at hlen
  exact absurd hlen (by decide)

/-- `abcdefghijkl` is not kicked out when there is another byte behind the name, and the line is
gone. -/
theorem executions_long : ∃ s, PasswdReachable twoUsers s ∧
    ¬ ExecutesDue twoUsers s ([tomorrow longName.bytes goodId_longName].foldl setexecuteuser [])
      ([tomorrow longName.bytes goodId_longName].foldl condemn []) 2000000000 := by
  obtain ⟨s, hs, hname, hacc, -⟩ := exists_onlyUser (u := longName) (by decide) (by decide)
  obtain ⟨own, hinv, hdist⟩ := hs.inv
  obtain ⟨hfile, htwice⟩ := foldl_setexecuteuser [tomorrow longName.bytes goodId_longName]
  refine ⟨s, hs, ?_⟩
  rw [hfile]
  refine not_executesDue hinv hdist htwice (List.mem_singleton.mpr rfl) (by decide) rfl hacc ?_
  rw [hname]
  rfl

end Deny

end Ytht
