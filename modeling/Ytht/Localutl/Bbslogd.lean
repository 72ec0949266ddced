import Mathlib.Data.List.Sort
import Ytht.Lib.Runs
import Ytht.Lib.Sliding
import Ytht.Ythtlib.Inet
import Ytht.Ythtlib.Strlib
import Ytht.Ythtlib.Strop

/-!
# Localutl.Bbslogd

The logger that locks out addresses from which the password fails too often.  Each log line passes
`filter_passerr`, which counts the failures of an address, `expireevent`, which forgets failures
after 600 seconds, and `bansiteop`, which writes the file of the addresses that were banned in the
last 6000 seconds.

`load_limit_table` clears the address before it is read, so every limit in the file is one for the
address 0; and the failures are counted before the old ones are forgotten.  The counts are right in
every run (`Inv.step`), and `bans_when` says that the bans are right, too, while nobody fails who
has a limit of their own or old failures that are still counted.
-/

namespace Ytht

open Function Runs

namespace Bbslogd

/-! ## Tables -/

/-- `struct event` -/
structure Event where
  fromAddr : Nat
  t : Nat
  deriving DecidableEq

/-- `struct bansite` -/
structure Bansite where
  fromAddr : Nat
  t : Nat
  deriving DecidableEq

/-- `struct sitelimit` -/
structure Sitelimit where
  fromAddr : Nat
  limit : Int
  deriving DecidableEq

/-- The file `spec_site`, and when it was written. -/
structure SpecSite where
  text : List UInt8
  mtime : Nat

/-- The variables of the program.  The events are the list from `eventhead` to `eventtail`, the
table of counts is a map, and the other table a list of what is in it; `limit` is the array up to
`sitelimit_cnt`. -/
structure Logd where
  eventlist : List Event
  passerrtable : Nat → Option Nat
  bansitetable : List Bansite
  last : Nat
  limit : List Sitelimit
  updateTime : Nat

/-- What a line meets: the clock, what stands in memory that `inet_aton` does not write, and how
`fopen` ends when an address is entered and at the end of the line. -/
structure Env where
  now : Nat
  garbage : Nat
  opens : Bool × Bool

/-! ## Limits -/

/-- `DEFAULT_LIMIT` -/
def defaultLimit : Int := 30

/-- The loop of `load_limit_table`, at `limit[i]`.  `*ptr = 0` ends `buf` before the first word,
of which the bytes from the second one on are left at `ptr + 1`. -/
def readLimits (old : List Sitelimit) : List (List UInt8) → Nat → List Sitelimit
  | [], _ => []
  | buf :: lines, i =>
      if 512 ≤ i then []
      else if buf.head? = some 35 then readLimits old lines i
      else
        match strtokBlank buf with
        | none => readLimits old lines i
        | some token =>
            let fromAddr := (inetAton (buf.takeWhile (· == 32))).getD
              ((old[i]?.map Sitelimit.fromAddr).getD 0)
            let limit := atoi token.tail
            ⟨fromAddr, if limit ≤ 0 then defaultLimit else limit⟩ :: readLimits old lines (i + 1)

/-- `load_limit_table`; which order `qsort` leaves among equal addresses is not said. -/
def loadLimitTable (spec : SpecSite) (s : Logd) (now : Nat) : Logd :=
  if spec.mtime < s.updateTime then s
  else
    let limit := readLimits s.limit (fgetsLines 255 255 spec.text) 0
    { s with
      limit := limit.insertionSort fun a b => a.fromAddr ≤ b.fromAddr
      updateTime := now }

/-- `bsearch` with `m_cmp` -/
def bsearch (fromAddr : Nat) (limit : List Sitelimit) : Nat → Nat → Nat → Option Sitelimit
  | 0, _, _ => none
  | fuel + 1, lo, hi =>
      if hi ≤ lo then none
      else
        match limit[(lo + hi) / 2]? with
        | none => none
        | some ret =>
            if fromAddr < ret.fromAddr then bsearch fromAddr limit fuel lo ((lo + hi) / 2)
            else if ret.fromAddr < fromAddr then bsearch fromAddr limit fuel ((lo + hi) / 2 + 1) hi
            else some ret

/-- `site_limit` -/
def siteLimit (spec : SpecSite) (s : Logd) (fromAddr now : Nat) : Int × Logd :=
  let s := loadLimitTable spec s now
  if s.limit = [] then (defaultLimit, s)
  else
    match bsearch fromAddr s.limit (s.limit.length + 1) 0 s.limit.length with
    | none => (defaultLimit, s)
    | some ret => (ret.limit, s)

/-! ## Bans -/

/-- The file `bansite` with these addresses. -/
def bansiteText (addrs : List Nat) : List UInt8 := addrs.flatMap fun a => inetNtoa a ++ [10]

/-- The end of `bansiteop`: the file is written, and old bans are left out of the new table. -/
def writeBansite (s : Logd) (now : Nat) (opens : Bool) : Logd × Option (List UInt8) :=
  if !opens then (s, none)
  else
    let kept := s.bansitetable.filter fun b => now ≤ b.t + 6000
    ({ s with bansitetable := kept, last := now }, some (bansiteText (kept.map Bansite.fromAddr)))

/-- `bansiteop`, with what is written to the file. -/
def bansiteop (s : Logd) (fromAddr : Option Nat) (now : Nat) (opens : Bool) :
    Logd × Option (List UInt8) :=
  match fromAddr with
  | none => if now < s.last + 100 then (s, none) else writeBansite s now opens
  | some a =>
      if s.bansitetable.any (·.fromAddr = a) then
        ({ s with bansitetable := s.bansitetable.map fun b =>
            if b.fromAddr = a then { b with t := now } else b }, none)
      else writeBansite { s with bansitetable := s.bansitetable ++ [⟨a, now⟩] } now opens

/-! ## Lines -/

/-- `mystrtok` with room for one field more than `room` -/
def mystrtok (c : UInt8) : Nat → List UInt8 → List (List UInt8)
  | 0, buf => [buf]
  | room + 1, buf =>
      if c ∈ buf then cutAt c buf :: mystrtok c room (buf.dropWhile (· != c)).tail else [buf]

/-- `system` -/
def systemWord : List UInt8 := [115, 121, 115, 116, 101, 109]

/-- `passerr` -/
def passerrWord : List UInt8 := [112, 97, 115, 115, 101, 114, 114]

/-- The fields of a line. -/
def fields (str : List UInt8) : List (List UInt8) := mystrtok 32 5 (cutAt 10 (strsncpy str 512))

/-- Where a login failed: the address is not written when the field is none. -/
def failedLogin (arg : List (List UInt8)) (garbage : Nat) : Option Nat :=
  if arg.length < 4 ∨ arg[1]? ≠ some systemWord ∨ arg[2]? ≠ some passerrWord then none
  else some ((inetAton (arg.getD 3 [])).getD garbage)

/-- What a line does: the address that it enters in the table of bans, and what it writes to the
file. -/
structure Turn where
  logd : Logd
  entered : Option Nat
  file : Option (List UInt8)

/-- The middle of `filter_passerr`: the failure is counted. -/
def countFailure (spec : SpecSite) (s : Logd) (a : Nat) (env : Env) : Turn :=
  match s.passerrtable a with
  | some count =>
      let s := { s with passerrtable := Sliding.bump s.passerrtable a }
      let (limit, s) := siteLimit spec s a env.now
      if limit < count + 1 then
        let (s, file) := bansiteop s (some a) env.now env.opens.1
        ⟨s, some a, file⟩
      else ⟨s, none, none⟩
  | none => ⟨{ s with passerrtable := Sliding.bump s.passerrtable a }, none, none⟩

/-- `filter_passerr`, with its result -/
def filterPasserr (spec : SpecSite) (s : Logd) (arg : List (List UInt8)) (env : Env) : Bool × Turn :=
  match failedLogin arg env.garbage with
  | none => (false, ⟨s, none, none⟩)
  | some a =>
      let turn := countFailure spec s a env
      (true, { turn with
        logd := { turn.logd with eventlist := turn.logd.eventlist ++ [⟨a, env.now⟩] } })

/-- `expireevent`; it needs the count of each event that it takes from the list. -/
def expireevent (s : Logd) (now : Nat) : Option Logd :=
  (Sliding.expire Event.fromAddr Event.t 600 now s.passerrtable s.eventlist).map fun r =>
    { s with passerrtable := r.1, eventlist := r.2 }

/-- `filterlog`, with its result -/
def filterlog (spec : SpecSite) (s : Logd) (str : List UInt8) (env : Env) : Option (Bool × Turn) :=
  let (retv, turn) := filterPasserr spec s (fields str) env
  (expireevent turn.logd env.now).map fun s =>
    let (s, file) := bansiteop s none env.now env.opens.2
    (retv, ⟨s, turn.entered, file.or turn.file⟩)

/-! ## Runs -/

/-- The program, and what has happened: all failed logins, the bans as they were entered, and the
file, if the last line wrote it. -/
structure World where
  logd : Logd
  clock : Nat
  failures : List Event
  entered : List Event
  file : Option (List UInt8)

def start : World := ⟨⟨[], fun _ => none, [], 0, [], 0⟩, 0, [], [], none⟩

/-- A line comes; the clock does not go back. -/
def step (spec : SpecSite) (w : World) (e : List UInt8 × Env) : Option World :=
  if e.2.now < w.clock then none
  else
    (filterlog spec w.logd e.1 e.2).map fun r =>
      { logd := r.2.logd
        clock := e.2.now
        failures := w.failures ++
          (failedLogin (fields e.1) e.2.garbage).toList.map fun a => ⟨a, e.2.now⟩
        entered := w.entered ++ r.2.entered.toList.map fun a => ⟨a, e.2.now⟩
        file := r.2.file }

/-! ## What the bans should be -/

/-- A line of `spec_site` -/
structure SpecLine where
  addr : Nat
  limit : Nat
  addr_lt : addr < 2 ^ 32
  limit_pos : 0 < limit ∧ limit < 2 ^ 31

/-- The text with these lines. -/
def specText (lines : List SpecLine) : List UInt8 :=
  lines.flatMap fun l => inetNtoa l.addr ++ 32 :: (decimal l.limit ++ [10])

/-- The limit that the file gives for an address, or else 30. -/
def given (lines : List SpecLine) (a : Nat) : Nat :=
  ((lines.find? (·.addr = a)).map SpecLine.limit).getD 30

/-- With this failure the address has more than its limit in 600 seconds. -/
def Exceeds (lines : List SpecLine) (before : List Event) (e : Event) : Prop :=
  given lines e.fromAddr <
    Sliding.count Event.fromAddr e.fromAddr (Sliding.recent Event.t 600 e.t (before ++ [e]))

instance (lines : List SpecLine) (before : List Event) (e : Event) :
    Decidable (Exceeds lines before e) := inferInstanceAs (Decidable (_ < _))

/-- The failures with which a limit is exceeded. -/
def moments (lines : List SpecLine) : List Event → List Event → List Event
  | _, [] => []
  | before, e :: es =>
      if Exceeds lines before e then e :: moments lines (before ++ [e]) es
      else moments lines (before ++ [e]) es

/-- When an address was banned last. -/
def lastTime (bans : List Event) (a : Nat) : Option Nat :=
  ((bans.filter (·.fromAddr = a)).getLast?).map Event.t

/-- The text lists the addresses that were banned in the last 6000 seconds. -/
def Lists (text : List UInt8) (bans : List Event) (now : Nat) : Prop :=
  ∃ addrs : List Nat, text = bansiteText addrs ∧ addrs.Nodup ∧
    ∀ a, a ∈ addrs ↔ ∃ t ∈ lastTime bans a, now ≤ t + 6000

/-- Nothing is written. -/
theorem lists_none {bans : List Event} {now : Nat} (text : List UInt8) (h : none = some text) :
    Lists text bans now := absurd h.symm (Option.some_ne_none text)

theorem moments_concat (lines : List SpecLine) (before es : List Event) (e : Event) :
    moments lines before (es ++ [e]) =
      moments lines before es ++ if Exceeds lines (before ++ es) e then [e] else [] := by
  induction es generalizing before with
  | nil => rw [List.nil_append, List.append_nil, moments, moments, moments, List.nil_append]
  | cons x es ih =>
      rw [List.cons_append, moments, moments, ih, List.append_assoc, List.singleton_append]
      split <;> rfl

theorem lastTime_concat (bans : List Event) (a t b : Nat) :
    lastTime (bans ++ [⟨a, t⟩]) b = if a = b then some t else lastTime bans b := by
  rw [lastTime, List.filter_append]
  split
  · next hab =>
    rw [List.filter_cons_of_pos (by simpa using hab), List.filter_nil, List.getLast?_concat]
    rfl
  · next hab =>
    rw [List.filter_cons_of_neg (by simpa using hab), List.filter_nil, List.append_nil, lastTime]

/-! ## The table of bans -/

/-- The table holds the last ban of each address in it, and lacks only bans that were old when the
file was written. -/
structure Holds (table : List Bansite) (bans : List Event) (last : Nat) : Prop where
  nodup : (table.map Bansite.fromAddr).Nodup
  times : ∀ b ∈ table, lastTime bans b.fromAddr = some b.t
  kept : ∀ a t, lastTime bans a = some t → ⟨a, t⟩ ∈ table ∨ t + 6000 < last

theorem Holds.start : Holds [] [] 0 := by
  refine ⟨List.nodup_nil, fun b hb => absurd hb List.not_mem_nil, fun a t h => ?_⟩
  contradiction

/-- An address in the table is banned again. -/
theorem Holds.renew {table : List Bansite} {bans : List Event} {last : Nat}
    (h : Holds table bans last) {a : Nat} (ha : ∃ b ∈ table, b.fromAddr = a) (now : Nat) :
    Holds (table.map fun b => if b.fromAddr = a then { b with t := now } else b)
      (bans ++ [⟨a, now⟩]) last := by
  have haddr : (Bansite.fromAddr ∘ fun b => if b.fromAddr = a then { b with t := now } else b) =
      Bansite.fromAddr := by
    funext b
    simp only [Function.comp_apply]
    split <;> rfl
  refine ⟨?_, fun b' hb' => ?_, fun b t hb => ?_⟩
  · rw [List.map_map, haddr]
    exact h.nodup
  · obtain ⟨b, hb, rfl⟩ := List.mem_map.mp hb'
    rw [lastTime_concat]
    split
    · next hab =>
      rw [if_pos hab.symm]
    · next hab =>
      rw [if_neg (Ne.symm hab)]
      exact h.times b hb
  · rw [lastTime_concat] at hb
    split at hb
    · next hab =>
      obtain ⟨b₀, hb₀, haddr₀⟩ := ha
      refine Or.inl (List.mem_map.mpr ⟨b₀, hb₀, ?_⟩)
      rw [if_pos haddr₀, ← Option.some.inj hb, ← hab, ← haddr₀]
    · next hab =>
      refine (h.kept b t hb).imp_left fun hmem => List.mem_map.mpr ⟨_, hmem, ?_⟩
      exact if_neg (Ne.symm hab)

/-- An address enters the table. -/
theorem Holds.insert {table : List Bansite} {bans : List Event} {last : Nat}
    (h : Holds table bans last) {a : Nat} (ha : ∀ b ∈ table, b.fromAddr ≠ a) (now : Nat) :
    Holds (table ++ [⟨a, now⟩]) (bans ++ [⟨a, now⟩]) last := by
  refine ⟨?_, fun b hb => ?_, fun b t hb => ?_⟩
  · rw [List.map_append, List.nodup_append]
    refine ⟨h.nodup, List.nodup_singleton _, fun x hx y hy => ?_⟩
    obtain ⟨b, hb, rfl⟩ := List.mem_map.mp hx
    rw [List.mem_singleton.mp hy]
    exact ha b hb
  · rw [lastTime_concat]
    rcases List.mem_append.mp hb with hb | hb
    · rw [if_neg (ha b hb).symm]
      exact h.times b hb
    · rw [List.mem_singleton.mp hb, if_pos rfl]
  · rw [lastTime_concat] at hb
    split at hb
    · next hab =>
      rw [← hab, ← Option.some.inj hb]
      exact Or.inl (List.mem_append_right _ List.mem_cons_self)
    · exact (h.kept b t hb).imp_left (List.mem_append_left _)

/-- The file is written. -/
theorem Holds.write {table : List Bansite} {bans : List Event} {last now : Nat}
    (h : Holds table bans last) (hle : last ≤ now) :
    Holds (table.filter fun b => now ≤ b.t + 6000) bans now ∧
      Lists (bansiteText ((table.filter fun b => now ≤ b.t + 6000).map Bansite.fromAddr)) bans now := by
  have hsub : ((table.filter fun b => now ≤ b.t + 6000).map Bansite.fromAddr).Sublist
      (table.map Bansite.fromAddr) := List.filter_sublist.map _
  refine ⟨⟨h.nodup.sublist hsub, fun b hb => h.times b (List.mem_filter.mp hb).1, fun a t ht => ?_⟩,
    _, rfl, h.nodup.sublist hsub, fun a => ?_⟩
  · rcases h.kept a t ht with hmem | hold
    · by_cases hrecent : now ≤ t + 6000
      · exact Or.inl (List.mem_filter.mpr ⟨hmem, decide_eq_true hrecent⟩)
      · exact Or.inr (Nat.lt_of_not_le hrecent)
    · exact Or.inr (Nat.lt_of_lt_of_le hold hle)
  · constructor
    · intro ha
      obtain ⟨b, hb, rfl⟩ := List.mem_map.mp ha
      obtain ⟨hmem, hrecent⟩ := List.mem_filter.mp hb
      exact ⟨b.t, h.times b hmem, of_decide_eq_true hrecent⟩
    · rintro ⟨t, ht, hrecent⟩
      rcases h.kept a t ht with hmem | hold
      · exact List.mem_map.mpr ⟨_, List.mem_filter.mpr ⟨hmem, decide_eq_true hrecent⟩, rfl⟩
      · omega

theorem writeBansite_spec {s : Logd} {bans : List Event} {now : Nat}
    (h : Holds s.bansitetable bans s.last) (hle : s.last ≤ now) (opens : Bool) :
    ∃ table last file, writeBansite s now opens =
        ({ s with bansitetable := table, last := last }, file) ∧
      Holds table bans last ∧ last ≤ now ∧ ∀ text, file = some text → Lists text bans now := by
  unfold writeBansite
  cases opens with
  | false => exact ⟨_, _, _, rfl, h, hle, lists_none⟩
  | true =>
      obtain ⟨hholds, hlists⟩ := h.write hle
      refine ⟨_, _, _, rfl, hholds, le_rfl, fun text htext => ?_⟩
      rw [← Option.some.inj htext]
      exact hlists

/-- **`bansiteop`** enters an address, and what it writes is the list of the bans. -/
theorem bansiteop_spec {s : Logd} {bans : List Event} {now : Nat}
    (h : Holds s.bansitetable bans s.last) (hle : s.last ≤ now) (fromAddr : Option Nat)
    (opens : Bool) :
    ∃ table last file, bansiteop s fromAddr now opens =
        ({ s with bansitetable := table, last := last }, file) ∧
      Holds table (bans ++ fromAddr.toList.map fun a => ⟨a, now⟩) last ∧ last ≤ now ∧
      ∀ text, file = some text → Lists text (bans ++ fromAddr.toList.map fun a => ⟨a, now⟩) now := by
  unfold bansiteop
  cases fromAddr with
  | none =>
      rw [Option.toList_none, List.map_nil, List.append_nil]
      dsimp only
      split
      · exact ⟨_, _, _, rfl, h, hle, lists_none⟩
      · exact writeBansite_spec h hle opens
  | some a =>
      dsimp only [Option.toList_some, List.map_cons, List.map_nil]
      split
      · next hany =>
        obtain ⟨b, hb, haddr⟩ := List.any_eq_true.mp hany
        have hrenew := h.renew ⟨b, hb, of_decide_eq_true haddr⟩ now
        exact ⟨_, _, _, rfl, hrenew, hle, lists_none⟩
      · next hany =>
        have hnew : ∀ b ∈ s.bansitetable, b.fromAddr ≠ a := fun b hb haddr =>
          hany (List.any_eq_true.mpr ⟨b, hb, decide_eq_true haddr⟩)
        exact @writeBansite_spec { s with bansitetable := s.bansitetable ++ [⟨a, now⟩] } _ _
          (h.insert hnew now) hle opens

/-! ## The limits -/

/-- Nothing is left of the address. -/
theorem inetAton_blanks (buf : List UInt8) : inetAton (buf.takeWhile (· == 32)) = none := by
  have hhead : (buf.takeWhile (· == 32)).head?.all (!isdigit ·) = true := by
    cases buf with
    | nil => rfl
    | cons ch buf =>
        rw [List.takeWhile_cons]
        split
        · next hblank =>
          rw [beq_iff_eq.mp hblank]
          rfl
        · rfl
  rw [inetAton, inetLoop, if_pos hhead]

/-- All limits are limits of the address 0. -/
def AllZero (limit : List Sitelimit) : Prop := ∀ l ∈ limit, l.fromAddr = 0

theorem allZero_readLimits {old : List Sitelimit} (h : AllZero old) (lines : List (List UInt8))
    (i : Nat) : AllZero (readLimits old lines i) := by
  have hold : ∀ j : Nat, (old[j]?.map Sitelimit.fromAddr).getD 0 = 0 := by
    intro j
    cases hj : old[j]? with
    | none => rfl
    | some l => exact h l (List.mem_of_getElem? hj)
  induction lines generalizing i with
  | nil => exact fun l hl => absurd hl List.not_mem_nil
  | cons buf lines ih =>
      rw [readLimits]
      split
      · exact fun l hl => absurd hl List.not_mem_nil
      · split
        · exact ih i
        · cases strtokBlank buf with
          | none => exact ih i
          | some token =>
              intro l hl
              rcases List.mem_cons.mp hl with rfl | hl
              · rw [inetAton_blanks, Option.getD_none, hold]
              · exact ih (i + 1) l hl

theorem loadLimitTable_spec (spec : SpecSite) {s : Logd} (h : AllZero s.limit) (now : Nat) :
    ∃ limit updateTime, loadLimitTable spec s now =
        { s with limit := limit, updateTime := updateTime } ∧ AllZero limit ∧
      (spec.text = [] → s.limit = [] → limit = []) := by
  unfold loadLimitTable
  split
  · exact ⟨_, _, rfl, h, fun _ hnil => hnil⟩
  · refine ⟨_, _, rfl, fun l hl => ?_, fun htext _ => ?_⟩
    · exact allZero_readLimits h _ 0 l ((List.mem_insertionSort _).mp hl)
    · rw [htext]
      rfl

theorem bsearch_eq_some {a : Nat} {limit : List Sitelimit} {fuel lo hi : Nat} {ret : Sitelimit}
    (h : bsearch a limit fuel lo hi = some ret) : ret ∈ limit ∧ ret.fromAddr = a := by
  induction fuel generalizing lo hi with
  | zero => contradiction
  | succ fuel ih =>
      rw [bsearch] at h
      split at h
      · contradiction
      · cases hmid : limit[(lo + hi) / 2]? with
        | none =>
            rw [hmid] at h
            contradiction
        | some r =>
            rw [hmid] at h
            dsimp only at h
            split at h
            · exact ih h
            · split at h
              · exact ih h
              · rw [← Option.some.inj h]
                exact ⟨List.mem_of_getElem? hmid, by omega⟩

/-- **`site_limit`** is 30 whatever the file says, but for the address 0. -/
theorem siteLimit_spec (spec : SpecSite) {s : Logd} (h : AllZero s.limit) (a now : Nat) :
    ∃ n limit updateTime, siteLimit spec s a now =
        (n, { s with limit := limit, updateTime := updateTime }) ∧ AllZero limit ∧
      (spec.text = [] → s.limit = [] → limit = []) ∧
      ((spec.text = [] ∧ s.limit = []) ∨ a ≠ 0 → n = defaultLimit) := by
  obtain ⟨limit, updateTime, hload, hzero, hempty⟩ := loadLimitTable_spec spec h now
  rw [siteLimit, hload]
  dsimp only
  split
  · exact ⟨_, _, _, rfl, hzero, hempty, fun _ => rfl⟩
  · next hne =>
    split
    · exact ⟨_, _, _, rfl, hzero, hempty, fun _ => rfl⟩
    · next ret hret =>
      refine ⟨_, _, _, rfl, hzero, hempty, fun hcond => ?_⟩
      rcases hcond with ⟨htext, hnil⟩ | ha
      · exact absurd (hempty htext hnil) hne
      · obtain ⟨hmem, haddr⟩ := bsearch_eq_some hret
        exact absurd (haddr.symm.trans (hzero ret hmem)) ha

/-! ## Lines -/

/-- The variables of the program after these bans. -/
structure Ok (spec : SpecSite) (s : Logd) (bans : List Event) (now : Nat) : Prop where
  counted : Sliding.Counted Event.fromAddr s.passerrtable s.eventlist
  zero : AllZero s.limit
  empty : spec.text = [] → s.limit = []
  holds : Holds s.bansitetable bans s.last
  last_le : s.last ≤ now

/-- The events that one line brings. -/
def eventsOf (a : Option Nat) (now : Nat) : List Event := a.toList.map fun a => ⟨a, now⟩

/-- What is true of a line that enters these addresses. -/
structure Turn.Ok (spec : SpecSite) (turn : Turn) (bans : List Event) (now : Nat) : Prop where
  zero : AllZero turn.logd.limit
  empty : spec.text = [] → turn.logd.limit = []
  holds : Holds turn.logd.bansitetable (bans ++ eventsOf turn.entered now) turn.logd.last
  last_le : turn.logd.last ≤ now
  lists : ∀ text, turn.file = some text → Lists text (bans ++ eventsOf turn.entered now) now

theorem eventsOf_none (now : Nat) : eventsOf none now = [] := rfl

/-- Nothing is entered and nothing written. -/
theorem Turn.Ok.quiet {spec : SpecSite} {s : Logd} {bans : List Event} {now : Nat}
    (hzero : AllZero s.limit) (hempty : spec.text = [] → s.limit = [])
    (hholds : Holds s.bansitetable bans s.last) (hlast : s.last ≤ now) :
    Turn.Ok spec ⟨s, none, none⟩ bans now := by
  refine ⟨hzero, hempty, ?_, hlast, lists_none⟩
  rw [eventsOf_none, List.append_nil]
  exact hholds

theorem none_eq_some_iff {a : Nat} {p : Prop} (h : ¬ p) : none = some a ↔ p :=
  iff_of_false (Option.some_ne_none a).symm h

theorem countFailure_spec {spec : SpecSite} {s : Logd} {bans : List Event} {env : Env}
    (h : Ok spec s bans env.now) (a : Nat) :
    (countFailure spec s a env).Ok spec bans env.now ∧
      (countFailure spec s a env).logd.eventlist = s.eventlist ∧
      (countFailure spec s a env).logd.passerrtable = Sliding.bump s.passerrtable a ∧
      (∀ b ∈ (countFailure spec s a env).entered, a = b) ∧
      (spec.text = [] ∨ a ≠ 0 → ((countFailure spec s a env).entered = some a ↔
        30 < Sliding.count Event.fromAddr a s.eventlist + 1)) := by
  have hcount := h.counted.getD a
  unfold countFailure
  cases htable : s.passerrtable a with
  | none =>
      rw [htable, Option.getD_none] at hcount
      refine ⟨Turn.Ok.quiet h.zero h.empty h.holds h.last_le, rfl, rfl,
        fun b hb => absurd hb (Option.not_mem_none b), fun _ => none_eq_some_iff ?_⟩
      rw [← hcount]
      decide
  | some count =>
      rw [htable, Option.getD_some] at hcount
      obtain ⟨n, limit, updateTime, hlimit, hzero, hempty, hn⟩ := siteLimit_spec spec
        (s := { s with passerrtable := Sliding.bump s.passerrtable a }) h.zero a env.now
      have hdefault : spec.text = [] ∨ a ≠ 0 → n = defaultLimit := fun hcond =>
        hn (hcond.imp_left fun htext => ⟨htext, h.empty htext⟩)
      have hnil : spec.text = [] → limit = [] := fun htext => hempty htext (h.empty htext)
      dsimp only
      rw [hlimit]
      dsimp only
      split
      · next hover =>
        obtain ⟨table, last, file, hban, hholds, hlast, hlists⟩ := bansiteop_spec
          (s := { s with
            passerrtable := Sliding.bump s.passerrtable a
            limit := limit
            updateTime := updateTime }) h.holds h.last_le (some a) env.opens.1
        rw [hban]
        refine ⟨⟨hzero, hnil, hholds, hlast, hlists⟩, rfl, rfl, fun b hb => Option.some.inj hb, ?_⟩
        intro hcond
        rw [hdefault hcond, defaultLimit, hcount] at hover
        exact ⟨fun _ => by omega, fun _ => rfl⟩
      · next hunder =>
        refine ⟨Turn.Ok.quiet hzero hnil h.holds h.last_le, rfl, rfl,
          fun b hb => absurd hb (Option.not_mem_none b), fun hcond => none_eq_some_iff ?_⟩
        rw [hdefault hcond, defaultLimit, hcount] at hunder
        omega

/-- **`filter_passerr`** counts a failed login, and enters its address in the table of bans when the
count is over the limit. -/
theorem filterPasserr_spec {spec : SpecSite} {s : Logd} {bans : List Event} {env : Env}
    (h : Ok spec s bans env.now) (arg : List (List UInt8)) :
    (filterPasserr spec s arg env).2.Ok spec bans env.now ∧
      (filterPasserr spec s arg env).2.logd.eventlist =
        s.eventlist ++ eventsOf (failedLogin arg env.garbage) env.now ∧
      Sliding.Counted Event.fromAddr (filterPasserr spec s arg env).2.logd.passerrtable
        (s.eventlist ++ eventsOf (failedLogin arg env.garbage) env.now) ∧
      (∀ a ∈ (filterPasserr spec s arg env).2.entered, failedLogin arg env.garbage = some a) ∧
      ∀ a, failedLogin arg env.garbage = some a → spec.text = [] ∨ a ≠ 0 →
        ((filterPasserr spec s arg env).2.entered = some a ↔
          30 < Sliding.count Event.fromAddr a s.eventlist + 1) := by
  unfold filterPasserr
  cases failedLogin arg env.garbage with
  | none =>
      rw [eventsOf_none, List.append_nil]
      exact ⟨Turn.Ok.quiet h.zero h.empty h.holds h.last_le, rfl, h.counted,
        fun a ha => absurd ha (Option.not_mem_none a),
        fun a hnone => absurd hnone.symm (Option.some_ne_none a)⟩
  | some a =>
      obtain ⟨hok, hevents, htable, hentered, hover⟩ := countFailure_spec h a
      refine ⟨⟨hok.zero, hok.empty, hok.holds, hok.last_le, hok.lists⟩, ?_, ?_, ?_, ?_⟩
      · exact congrArg (· ++ [(⟨a, env.now⟩ : Event)]) hevents
      · dsimp only
        rw [htable]
        exact h.counted.bump ⟨a, env.now⟩
      · exact fun b hb => congrArg some (hentered b hb)
      · intro b hb hcond
        obtain rfl := Option.some.inj hb
        exact hover hcond

theorem Ok.later {spec : SpecSite} {s : Logd} {bans : List Event} {before now : Nat}
    (h : Ok spec s bans before) (hle : before ≤ now) : Ok spec s bans now :=
  ⟨h.counted, h.zero, h.empty, h.holds, h.last_le.trans hle⟩

/-- **A line** never lacks a count. -/
theorem filterlog_spec {spec : SpecSite} {s : Logd} {bans : List Event} {env : Env}
    (h : Ok spec s bans env.now) (str : List UInt8) :
    ∃ r, filterlog spec s str env = some r ∧
      Ok spec r.2.logd (bans ++ eventsOf r.2.entered env.now) env.now ∧
      r.2.logd.eventlist = List.dropWhile (fun x => x.t + 600 ≤ env.now)
        (s.eventlist ++ eventsOf (failedLogin (fields str) env.garbage) env.now) ∧
      (∀ text, r.2.file = some text →
        Lists text (bans ++ eventsOf r.2.entered env.now) env.now) ∧
      r.2.entered = (filterPasserr spec s (fields str) env).2.entered := by
  obtain ⟨hok, hevents, hcounted, -, -⟩ := filterPasserr_spec h (fields str)
  unfold filterlog
  generalize filterPasserr spec s (fields str) env = r at hok hevents hcounted ⊢
  obtain ⟨retv, turn⟩ := r
  dsimp only at hok hevents hcounted ⊢
  obtain ⟨table, hexpire, hdone⟩ := hcounted.expire Event.t 600 env.now
  rw [expireevent, hevents, hexpire, Option.map_some, Option.map_some]
  obtain ⟨bantable, last, file, hban, hholds, hlast, hlists⟩ := bansiteop_spec
    (s := { turn.logd with
      passerrtable := table
      eventlist := List.dropWhile (fun x => x.t + 600 ≤ env.now)
        (s.eventlist ++ eventsOf (failedLogin (fields str) env.garbage) env.now) })
    hok.holds hok.last_le none env.opens.2
  rw [Option.toList_none, List.map_nil, List.append_nil] at hholds hlists
  dsimp only
  rw [hban]
  refine ⟨_, rfl, ⟨hdone, hok.zero, hok.empty, hholds, hlast⟩, rfl, ?_, rfl⟩
  intro text htext
  rcases Option.or_eq_some_iff.mp htext with hlate | ⟨-, hearly⟩
  · exact hlists text hlate
  · exact hok.lists text hearly

/-! ## Runs of the program -/

/-- After every line the counts are right, the list holds the failures of the last 600 seconds, and
the file lists the bans. -/
structure Inv (spec : SpecSite) (w : World) : Prop where
  ok : Ok spec w.logd w.entered w.clock
  window : w.logd.eventlist = Sliding.recent Event.t 600 w.clock w.failures
  ordered : w.failures.Pairwise fun x y => x.t ≤ y.t
  past : ∀ x ∈ w.failures, x.t ≤ w.clock
  lists : ∀ text, w.file = some text → Lists text w.entered w.clock

theorem Inv.start (spec : SpecSite) : Inv spec start :=
  ⟨⟨Sliding.counted_nil, fun _ hl => absurd hl List.not_mem_nil, fun _ => rfl, Holds.start, le_rfl⟩,
    rfl, List.Pairwise.nil, fun _ hx => absurd hx List.not_mem_nil, lists_none⟩

theorem time_eventsOf {a : Option Nat} {now : Nat} {x : Event} (h : x ∈ eventsOf a now) :
    x.t = now := by
  obtain ⟨b, -, rfl⟩ := List.mem_map.mp h
  rfl

/-- One line: the program goes on, and all is kept. -/
theorem Inv.step {spec : SpecSite} {w : World} (h : Inv spec w) {e : List UInt8 × Env}
    (hclock : w.clock ≤ e.2.now) :
    ∃ w', step spec w e = some w' ∧ Inv spec w' ∧ w'.clock = e.2.now ∧
      w'.failures = w.failures ++ eventsOf (failedLogin (fields e.1) e.2.garbage) e.2.now ∧
      w'.entered = w.entered ++
        eventsOf (filterPasserr spec w.logd (fields e.1) e.2).2.entered e.2.now := by
  obtain ⟨r, hr, hok, hevents, hlists, hentered⟩ := filterlog_spec (h.ok.later hclock) e.1
  have hordered : (w.failures ++ eventsOf (failedLogin (fields e.1) e.2.garbage) e.2.now).Pairwise
      fun x y => x.t ≤ y.t := by
    refine List.pairwise_append.mpr ⟨h.ordered, ?_, fun x hx y hy => ?_⟩
    · cases failedLogin (fields e.1) e.2.garbage with
      | none => exact List.Pairwise.nil
      | some a => exact List.pairwise_singleton _ _
    · rw [time_eventsOf hy]
      exact (h.past x hx).trans hclock
  have hsorted : (w.logd.eventlist ++
      eventsOf (failedLogin (fields e.1) e.2.garbage) e.2.now).Pairwise fun x y => x.t ≤ y.t := by
    rw [h.window]
    exact hordered.sublist (List.Sublist.append_right List.filter_sublist _)
  rw [Bbslogd.step, if_neg (Nat.not_lt.mpr hclock), hr]
  refine ⟨_, rfl, ⟨hok, ?_, hordered, fun x hx => ?_, hlists⟩, rfl, rfl, ?_⟩
  · dsimp only
    rw [hevents, Sliding.dropWhile_eq_recent Event.t 600 _ hsorted, Sliding.recent_append, h.window,
      Sliding.recent_recent Event.t hclock, ← Sliding.recent_append]
    rfl
  · rcases List.mem_append.mp hx with hx | hx
    · exact (h.past x hx).trans hclock
    · exact (time_eventsOf hx).le
  · rw [← hentered]
    rfl

/-- When a login fails, the address has no other limit than 30, and none of its failures that are
counted is older than 600 seconds. -/
def Fair (lines : List SpecLine) (w : World) (e : List UInt8 × Env) : Prop :=
  ∀ a ∈ failedLogin (fields e.1) e.2.garbage, (lines = [] ∨ a ≠ 0) ∧
    (∀ l ∈ lines, l.addr = a → l.limit = 30) ∧
    ∀ x ∈ w.logd.eventlist, x.fromAddr = a → e.2.now < x.t + 600

instance (lines : List SpecLine) (w : World) (e : List UInt8 × Env) : Decidable (Fair lines w e) :=
  match hfail : failedLogin (fields e.1) e.2.garbage with
  | none => isTrue fun a ha => by rw [hfail] at ha; contradiction
  | some a =>
      decidable_of_iff ((lines = [] ∨ a ≠ 0) ∧ (∀ l ∈ lines, l.addr = a → l.limit = 30) ∧
        ∀ x ∈ w.logd.eventlist, x.fromAddr = a → e.2.now < x.t + 600)
        ⟨fun h b hb => by rw [hfail] at hb; rwa [← Option.some.inj hb], fun h => h a hfail⟩

/-- Every address was entered when it exceeded its limit, and not otherwise; and the file lists the
addresses of the last 6000 seconds. -/
structure BansRight (lines : List SpecLine) (w : World) : Prop where
  entered : w.entered = moments lines [] w.failures
  lists : ∀ text, w.file = some text → Lists text (moments lines [] w.failures) w.clock

theorem given_eq {lines : List SpecLine} {a : Nat} (h : ∀ l ∈ lines, l.addr = a → l.limit = 30) :
    given lines a = 30 := by
  rw [given]
  cases hfind : lines.find? (·.addr = a) with
  | none => rfl
  | some l =>
      have haddr := List.find?_some hfind
      rw [Option.map_some, Option.getD_some]
      exact h l (List.mem_of_find?_eq_some hfind) (of_decide_eq_true haddr)

/-- The count is the number of failures of the last 600 seconds. -/
theorem Inv.exceeds_iff {spec : SpecSite} {w : World} (h : Inv spec w) {lines : List SpecLine}
    {e : List UInt8 × Env} (hclock : w.clock ≤ e.2.now) (hfair : Fair lines w e) {a : Nat}
    (ha : failedLogin (fields e.1) e.2.garbage = some a) :
    Exceeds lines w.failures ⟨a, e.2.now⟩ ↔
      30 < Sliding.count Event.fromAddr a w.logd.eventlist + 1 := by
  obtain ⟨-, hlimit, hrecent⟩ := hfair a ha
  have hnew : Sliding.recent Event.t 600 e.2.now [⟨a, e.2.now⟩] = [⟨a, e.2.now⟩] := by
    refine List.filter_eq_self.mpr fun x hx => decide_eq_true ?_
    rw [List.mem_singleton.mp hx]
    exact Nat.lt_add_of_pos_right (by decide)
  have hwindow : Sliding.count Event.fromAddr a (Sliding.recent Event.t 600 e.2.now w.failures) =
      Sliding.count Event.fromAddr a w.logd.eventlist := by
    rw [← Sliding.recent_recent Event.t hclock, ← h.window]
    exact Sliding.count_recent hrecent
  rw [Exceeds, given_eq hlimit, Sliding.recent_append, hnew, Sliding.count_append, hwindow]
  simp only [Sliding.count_cons, if_true]
  exact Iff.rfl

/-- A line that is fair enters the address that exceeds its limit. -/
theorem Inv.step_entered {lines : List SpecLine} {mtime : Nat} {w : World}
    (h : Inv ⟨specText lines, mtime⟩ w) {e : List UInt8 × Env} (hclock : w.clock ≤ e.2.now)
    (hfair : Fair lines w e) :
    moments lines [] (w.failures ++ eventsOf (failedLogin (fields e.1) e.2.garbage) e.2.now) =
      moments lines [] w.failures ++ eventsOf
        (filterPasserr ⟨specText lines, mtime⟩ w.logd (fields e.1) e.2).2.entered e.2.now := by
  obtain ⟨-, -, -, hsome, hover⟩ := filterPasserr_spec (h.ok.later hclock) (fields e.1)
  generalize (filterPasserr ⟨specText lines, mtime⟩ w.logd (fields e.1) e.2).2.entered = entered
    at hsome hover ⊢
  cases ha : failedLogin (fields e.1) e.2.garbage with
  | none =>
      have hnone : entered = none := Option.eq_none_iff_forall_not_mem.mpr fun a hmem =>
        Option.some_ne_none a ((hsome a hmem).symm.trans ha)
      rw [hnone, show eventsOf none e.2.now = [] from rfl, List.append_nil, List.append_nil]
  | some a =>
      have hcond : specText lines = [] ∨ a ≠ 0 := (hfair a ha).1.imp_left fun hnil => by
        rw [hnil]
        rfl
      have hiff := (h.exceeds_iff hclock hfair ha).trans (hover a ha hcond).symm
      rw [show eventsOf (some a) e.2.now = [⟨a, e.2.now⟩] from rfl, moments_concat, List.nil_append]
      congr 1
      split
      · next hexceeds =>
        rw [hiff.mp hexceeds]
        rfl
      · next hbelow =>
        cases hentered : entered with
        | none => rfl
        | some b =>
            have hab : a = b := Option.some.inj (ha.symm.trans (hsome b hentered))
            exact absurd (hiff.mpr (hab ▸ hentered)) hbelow

theorem bans_when (lines : List SpecLine) (mtime : Nat) :
    (∀ es w, Run (step ⟨specText lines, mtime⟩) start es w →
      (∀ a, (w.logd.passerrtable a).getD 0 = Sliding.count Event.fromAddr a w.logd.eventlist) ∧
        ∀ e, w.clock ≤ e.2.now → (step ⟨specText lines, mtime⟩ w e).isSome = true) ∧
    ∀ es w, Run (when (Fair lines) (step ⟨specText lines, mtime⟩)) start es w →
      BansRight lines w := by
  have hclock : ∀ {w e w'}, step ⟨specText lines, mtime⟩ w e = some w' → w.clock ≤ e.2.now := by
    intro w e w' hstep
    rw [step] at hstep
    split at hstep
    · contradiction
    · next hnot => exact Nat.not_lt.mp hnot
  have hkeep : ∀ {w e w'}, Inv ⟨specText lines, mtime⟩ w →
      step ⟨specText lines, mtime⟩ w e = some w' → Inv ⟨specText lines, mtime⟩ w' := by
    intro w e w' hinv hstep
    obtain ⟨w₁, hw₁, hnext, -⟩ := hinv.step (hclock hstep)
    rwa [Option.some.inj (hstep.symm.trans hw₁)]
  constructor
  · intro es w hrun
    have hinv : Inv ⟨specText lines, mtime⟩ w := hrun.invariant
      (fun _ w => Inv ⟨specText lines, mtime⟩ w) (Inv.start _) fun _ _ _ _ => hkeep
    refine ⟨hinv.ok.counted.getD, fun e hle => ?_⟩
    obtain ⟨w', hw', -⟩ := hinv.step hle
    rw [hw']
    rfl
  · intro es w hrun
    obtain ⟨hinv, hentered⟩ := hrun.invariant_when
      (fun w => Inv ⟨specText lines, mtime⟩ w ∧ w.entered = moments lines [] w.failures)
      ⟨Inv.start _, rfl⟩ fun w e w' hw hfair hstep => by
        obtain ⟨w₁, hw₁, hnext, -, hfailures, hnew⟩ := hw.1.step (hclock hstep)
        rw [Option.some.inj (hstep.symm.trans hw₁)]
        refine ⟨hnext, ?_⟩
        rw [hnew, hfailures, hw.1.step_entered (hclock hstep) hfair, hw.2]
    refine ⟨hentered, fun text htext => ?_⟩
    rw [← hentered]
    exact hinv.lists text htext

/-! ## Where the bans go wrong -/

/-- `1.2.3.4` -/
def addr1234 : Nat := 67305985

/-- `12:00:00 system passerr 1.2.3.4` -/
def passerrLine : List UInt8 :=
  [49, 50, 58, 48, 48, 58, 48, 48, 32] ++ systemWord ++ 32 :: passerrWord ++
    [32, 49, 46, 50, 46, 51, 46, 52, 10]

/-- The line comes at this time; the file can be written. -/
def failAt (now : Nat) : List UInt8 × Env := (passerrLine, ⟨now, 0, true, true⟩)

theorem failedLogin_failAt (now : Nat) :
    failedLogin (fields (failAt now).1) (failAt now).2.garbage = some addr1234 := by
  have hline : failedLogin (fields passerrLine) 0 = some addr1234 := by decide
  exact hline

/-- The next failure at `1.2.3.4`, and whether it is entered. -/
theorem Inv.failAt {spec : SpecSite} {w : World} (h : Inv spec w) {now : Nat}
    (hclock : w.clock ≤ now) :
    ∃ w', Bbslogd.step spec w (failAt now) = some w' ∧ Inv spec w' ∧ w'.clock = now ∧
      w'.failures = w.failures ++ [⟨addr1234, now⟩] ∧
      w'.entered = w.entered ++
        if 30 < Sliding.count Event.fromAddr addr1234 w.logd.eventlist + 1 then [⟨addr1234, now⟩]
        else [] := by
  obtain ⟨w', hstep, hinv, hnow, hfailures, hentered⟩ := h.step (e := Bbslogd.failAt now) hclock
  obtain ⟨-, -, -, hsome, hover⟩ := @filterPasserr_spec _ _ _ (Bbslogd.failAt now).2
    (h.ok.later hclock) (fields (Bbslogd.failAt now).1)
  have hiff := hover addr1234 (failedLogin_failAt now) (Or.inr (by decide))
  rw [failedLogin_failAt] at hfailures
  refine ⟨w', hstep, hinv, hnow, hfailures, hentered.trans (congrArg (w.entered ++ ·) ?_)⟩
  split
  · next hmany =>
    rw [hiff.mpr hmany]
    rfl
  · next hfew =>
    cases hent : (filterPasserr spec w.logd (fields (Bbslogd.failAt now).1)
        (Bbslogd.failAt now).2).2.entered with
    | none => rfl
    | some b =>
        have hb := hsome b hent
        rw [failedLogin_failAt] at hb
        rw [← Option.some.inj hb] at hent
        exact absurd (hiff.mp hent) hfew

/-- `1.2.3.4` may fail once. -/
def oneLimit : List SpecLine := [⟨addr1234, 1, by decide, by decide⟩]

/-- The second failure within a second is not a ban, because the limit is lost. -/
theorem bans_limitLost : ∃ w, Run (step ⟨specText oneLimit, 0⟩) start [failAt 1000, failAt 1001] w ∧
    ¬ BansRight oneLimit w := by
  obtain ⟨w₁, hstep₁, hinv₁, hclock₁, hfailures₁, hentered₁⟩ :=
    (Inv.start ⟨specText oneLimit, 0⟩).failAt (Nat.zero_le 1000)
  have hlater : w₁.clock ≤ 1001 := hclock₁.trans_le (by decide)
  obtain ⟨w₂, hstep₂, hinv₂, hclock₂, hfailures₂, hentered₂⟩ := hinv₁.failAt hlater
  refine ⟨w₂, (Run.start.next hstep₁).next hstep₂, fun hright => ?_⟩
  have hcount : Sliding.count Event.fromAddr addr1234 w₁.logd.eventlist ≤ 1 := by
    rw [hinv₁.window, hfailures₁]
    exact List.countP_le_length.trans (List.length_filter_le _ _)
  have hnever := hright.entered
  rw [hentered₂, if_neg (by omega), hentered₁, hfailures₂, hfailures₁] at hnever
  exact absurd hnever (by decide)

/-- Many failures at one time. -/
theorem exists_failures (spec : SpecSite) (n : Nat) :
    ∃ w, Run (step spec) start (List.replicate n (failAt 1000)) w ∧ Inv spec w ∧ w.clock ≤ 1000 ∧
      w.failures = List.replicate n ⟨addr1234, 1000⟩ := by
  induction n with
  | zero => exact ⟨start, Run.start, Inv.start spec, Nat.zero_le _, rfl⟩
  | succ n ih =>
      obtain ⟨w, hrun, hinv, hclock, hfailures⟩ := ih
      obtain ⟨w', hstep, hinv', hclock', hfailures', -⟩ := hinv.failAt hclock
      refine ⟨w', ?_, hinv', hclock'.le, ?_⟩
      · rw [List.replicate_succ']
        exact hrun.next hstep
      · rw [hfailures', hfailures, List.replicate_succ']

/-- After a silence of more than ten minutes one failure is a ban, because the old ones are still
counted. -/
theorem bans_stale : ∃ w, Run (step ⟨specText [], 0⟩) start
    (List.replicate 30 (failAt 1000) ++ [failAt 1700]) w ∧ ¬ BansRight [] w := by
  obtain ⟨w, hrun, hinv, hclock, hfailures⟩ := exists_failures ⟨specText [], 0⟩ 30
  have hlater : w.clock ≤ 1700 := hclock.trans (by decide)
  obtain ⟨w', hstep, -, -, hfailures', hentered'⟩ := hinv.failAt hlater
  refine ⟨w', hrun.next hstep, fun hright => ?_⟩
  have hcount : Sliding.count Event.fromAddr addr1234 w.logd.eventlist = 30 := by
    rw [hinv.window, hfailures, Sliding.count_recent]
    · decide
    · intro x hx _
      rw [List.eq_of_mem_replicate hx]
      exact Nat.lt_of_le_of_lt hclock (by decide)
  have hnever : moments [] [] (List.replicate 30 ⟨addr1234, 1000⟩ ++ [⟨addr1234, 1700⟩]) = [] := by
    decide
  have hban := hright.entered
  rw [hentered', if_pos (by omega), hfailures', hfailures, hnever] at hban
  exact absurd hban (List.append_ne_nil_of_right_ne_nil _ (List.cons_ne_nil _ _))

end Bbslogd

end Ytht
