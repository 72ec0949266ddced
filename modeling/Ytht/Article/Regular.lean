import Mathlib.Data.Int.Bitwise
import Mathlib.Data.List.TakeWhile
import Ytht.Lib.Bytes

/-!
# Article.Regular

The conditions by which articles are selected (`checkf`): `T { Or T }`, where a `T` is
`F { And F }` and an `F` is `Not F`, an expression in brackets, or a name with an argument.

`checkf` reads the string by recursive descent, with the place in a static variable, the
truth values 0 and 1, and negative numbers for errors.  The model is in three steps: the
code on bytes, the same reading on tokens (`readTerm`, `readAnd`, `readOr`), and the
grammar (`Derives`).  The code takes a little more than the sentences (`checkf_iff`): it
gives a name an empty argument when none follows, and takes an operator that is the end
of the string.
-/

namespace Ytht

open Bytes

namespace Regular

/-- `And` -/
def strAnd : List UInt8 := [199, 210]

/-- `Or` -/
def strOr : List UInt8 := [187, 242]

/-- `Not` -/
def strNot : List UInt8 := [183, 199]

def leftBracket : UInt8 := 40

def rightBracket : UInt8 := 41

/-- `is_sep`: a blank or a tab -/
def isSep (c : UInt8) : Bool := c == 32 || c == 9

/-- The bytes that `next_token` takes. -/
def isWordByte (c : UInt8) : Bool := !isSep c && c != leftBracket && c != rightBracket

/-- An entry of `extstru`. -/
structure ExtStru where
  f : List UInt8 → Int
  first : List UInt8
  second : List UInt8
  zero_or_one : ∀ arg, f arg = 0 ∨ f arg = 1
  first_word : first ≠ [] ∧ first ≠ strNot
  second_word : second ≠ [] ∧ second ≠ strNot

/-! ## The code -/

section code

variable (extstru : List ExtStru) (exp : List UInt8)

/-- `exp[start]`, with the NUL behind the string -/
def charAt (start : Nat) : Option UInt8 := (exp ++ [0])[start]?

/-- `next_token`: the new `start`, and `temp + 1` -/
def nextToken (start : Nat) : Nat × Nat :=
  let start := start + ((exp.drop start).takeWhile isSep).length
  (start, start + ((exp.drop start).takeWhile isWordByte).length)

/-- `is_str(temp, Str)`, where `stop` is `temp + 1` -/
def isStr (start stop : Nat) (str : List UInt8) : Option Bool :=
  if stop = start + str.length then
    if start ≤ exp.length then some (str.isPrefixOf (exp.drop start)) else none
  else some false

/-- The copy of the next token, and the place behind it. -/
def copyToken (start : Nat) : Option (List UInt8 × Nat) :=
  let (start, stop) := nextToken exp start
  if stop ≤ exp.length then some ((exp.drop start).take (stop - start), stop) else none

/-- The loop of `do_extf`. -/
def extfLoop (start stop : Nat) : List ExtStru → Option (Int × Nat)
  | [] => some (-start - 1, start)
  | e :: es => do
      if ← isStr exp start stop e.first then
        let (strt, start) ← copyToken exp stop
        return (e.f strt, start)
      else if ← isStr exp start stop e.second then
        let (strt, start) ← copyToken exp stop
        return (1 - e.f strt, start)
      else extfLoop start stop es

/-- `do_extf` -/
def doExtf (start : Nat) : Option (Int × Nat) :=
  let (start, stop) := nextToken exp start
  extfLoop exp start stop extstru

/-- A turn of the loops of `do_and` and `do_or`. -/
def opLoop (op : List UInt8) (join : Int → Int → Int) (call : Nat → Option (Int × Nat))
    (again : Nat → Int → Option (Int × Nat)) (start : Nat) (result : Int) :
    Option (Int × Nat) :=
  if start < exp.length then do
    let (t, start) ← call start
    if t < 0 then
      return (t, start)
    let result := if result < 0 then t else join result t
    let (start, stop) := nextToken exp start
    if ← isStr exp start stop op then again stop result else return (result, start)
  else some (result, start)

mutual

/-- `do_term`; `none` when it reads outside of the string, or has not ended. -/
def doTerm : Nat → Nat → Option (Int × Nat)
  | 0, _ => none
  | fuel + 1, start => do
      let (start, stop) := nextToken exp start
      if ← isStr exp start stop strNot then
        let (t, start) ← doTerm fuel stop
        return (if t < 0 then t else 1 - t, start)
      else if (← charAt exp start) = leftBracket then
        let (t, start) ← doOr fuel (start + 1) (-(start + 1 : Nat) - 1)
        if (← charAt exp start) ≠ rightBracket then
          return (-start - 1, start)
        return (t, start + 1)
      else doExtf extstru exp start

/-- `do_and`, whose `result` is `-start - 1` at first -/
def doAnd : Nat → Nat → Int → Option (Int × Nat)
  | 0, _, _ => none
  | fuel + 1, start, result =>
      opLoop exp strAnd (fun result t => result * t) (doTerm fuel) (doAnd fuel) start result

/-- `do_or`, whose `result` is `-start - 1` at first -/
def doOr : Nat → Nat → Int → Option (Int × Nat)
  | 0, _, _ => none
  | fuel + 1, start, result =>
      opLoop exp strOr Int.lor (fun start => doAnd fuel start (-start - 1)) (doOr fuel) start result

end

/-- `checkf` -/
def checkf (str : List UInt8) : Option Int := do
  let (result, start) ← doOr extstru str (3 * str.length + 3) 0 (-1)
  return if str.length ≤ start then result else -start - 1

end code

/-! ## Tokens -/

inductive Token where
  | word (w : List UInt8)
  | left
  | right
  deriving DecidableEq

/-- The words, which are as long as they can be, and the brackets. -/
def tokens : List UInt8 → List Token
  | [] => []
  | c :: cs =>
      if isSep c then tokens cs
      else if c = leftBracket then .left :: tokens cs
      else if c = rightBracket then .right :: tokens cs
      else .word (c :: cs.takeWhile isWordByte) :: tokens (cs.dropWhile isWordByte)
termination_by s => s.length
decreasing_by
  all_goals simp only [List.length_cons]
  · exact Nat.lt_succ_self _
  · exact Nat.lt_succ_self _
  · exact Nat.lt_succ_self _
  · exact Nat.lt_succ_of_le (List.dropWhile_suffix isWordByte).length_le

/-- Whether the last byte is a separator. -/
def endsBlank (s : List UInt8) : Bool := s.getLast?.any isSep

/-! ## Reading tokens -/

/-- What the word of an entry says about an argument; the first entry counts. -/
def lookup (name : List UInt8) : List ExtStru → Option (List UInt8 → Bool)
  | [] => none
  | e :: es =>
      if name = e.first then some fun arg => e.f arg = 1
      else if name = e.second then some fun arg => e.f arg = 0
      else lookup name es

/-- The word that comes next, if one does, and the tokens behind it. -/
def nextWord (ts : List Token) : List UInt8 × List Token :=
  match ts with
  | .word w :: rest => (w, rest)
  | _ => ([], ts)

section reading

variable (extstru : List ExtStru) (blanks : Bool)

/-- A name with its argument, which is empty when no word follows. -/
def readName (name : List UInt8) (ts : List Token) : Option (Bool × List Token) :=
  (lookup name extstru).map fun f => (f (nextWord ts).1, (nextWord ts).2)

/-- An expression in brackets has been read up to the bracket that closes. -/
def closeBracket : Option (Bool × List Token) → Option (Bool × List Token)
  | some (v, .right :: rest) => some (v, rest)
  | _ => none

/-- A turn of the loops.  The string is at its end when there is no token left, and there are no
`blanks` at the end. -/
def readLoop (op : List UInt8) (join : Bool → Bool → Bool)
    (call : List Token → Option (Bool × List Token))
    (again : Option Bool → List Token → Option (Bool × List Token)) (result : Option Bool)
    (ts : List Token) : Option (Bool × List Token) :=
  if ts = [] ∧ blanks = false then result.map fun v => (v, ts)
  else match call ts with
    | none => none
    | some (t, rest) =>
        if (nextWord rest).1 = op then again (some (result.elim t (join · t))) (nextWord rest).2
        else some (result.elim t (join · t), rest)

mutual

def readTerm : Nat → List Token → Option (Bool × List Token)
  | 0, _ => none
  | fuel + 1, ts =>
      match ts with
      | .word w :: rest =>
          if w = strNot then (readTerm fuel rest).map fun p => (!p.1, p.2)
          else readName extstru w rest
      | .left :: rest => closeBracket (readOr fuel none rest)
      | _ => none

def readAnd : Nat → Option Bool → List Token → Option (Bool × List Token)
  | 0, _, _ => none
  | fuel + 1, result, ts =>
      readLoop blanks strAnd (fun result t => result && t) (readTerm fuel) (readAnd fuel) result ts

def readOr : Nat → Option Bool → List Token → Option (Bool × List Token)
  | 0, _, _ => none
  | fuel + 1, result, ts =>
      readLoop blanks strOr (fun result t => result || t) (readAnd fuel none) (readOr fuel) result ts

end

end reading

/-! ## The grammar -/

/-- The levels of the grammar: `F`, `T` and `E`. -/
inductive Level where
  | term
  | and
  | or

/-- How an expression ends: as it should, on a name, or on an operator. -/
inductive Tail where
  | closed
  | name
  | op

/-- The sentences of the grammar with their truth values.  `loose` allows a name without
an argument before a bracket or the end, and an operator at the end. -/
inductive Derives (extstru : List ExtStru) (loose : Bool) :
    Level → Tail → List Token → Bool → Prop
  | named {name arg : List UInt8} {f : List UInt8 → Bool} (hf : lookup name extstru = some f) :
      Derives extstru loose .term .closed [.word name, .word arg] (f arg)
  | bare {name : List UInt8} {f : List UInt8 → Bool} (hloose : loose = true)
      (hf : lookup name extstru = some f) : Derives extstru loose .term .name [.word name] (f [])
  | not {tail : Tail} {ts : List Token} {v : Bool} (h : Derives extstru loose .term tail ts v) :
      Derives extstru loose .term tail (.word strNot :: ts) (!v)
  | brackets {tail : Tail} {ts : List Token} {v : Bool} (htail : tail ≠ .op)
      (h : Derives extstru loose .or tail ts v) :
      Derives extstru loose .term .closed (.left :: (ts ++ [.right])) v
  | oneTerm {tail : Tail} {ts : List Token} {v : Bool} (h : Derives extstru loose .term tail ts v) :
      Derives extstru loose .and tail ts v
  | and {tail : Tail} {ts us : List Token} {v w : Bool}
      (h : Derives extstru loose .term .closed ts v) (hmore : Derives extstru loose .and tail us w) :
      Derives extstru loose .and tail (ts ++ .word strAnd :: us) (v && w)
  | andEnd {ts : List Token} {v : Bool} (hloose : loose = true)
      (h : Derives extstru loose .term .closed ts v) :
      Derives extstru loose .and .op (ts ++ [.word strAnd]) v
  | oneAnd {tail : Tail} {ts : List Token} {v : Bool} (h : Derives extstru loose .and tail ts v) :
      Derives extstru loose .or tail ts v
  | or {tail : Tail} {ts us : List Token} {v w : Bool}
      (h : Derives extstru loose .and .closed ts v) (hmore : Derives extstru loose .or tail us w) :
      Derives extstru loose .or tail (ts ++ .word strOr :: us) (v || w)
  | orEnd {ts : List Token} {v : Bool} (hloose : loose = true)
      (h : Derives extstru loose .and .closed ts v) :
      Derives extstru loose .or .op (ts ++ [.word strOr]) v

/-- The tokens of the string are a sentence, which is true or false. -/
def Sentence (extstru : List ExtStru) (s : List UInt8) (v : Bool) : Prop :=
  Derives extstru false .or .closed (tokens s) v

/-- The string is a sentence but for names without an argument, and an operator that is its
last word, with no blank behind. -/
def Loose (extstru : List ExtStru) (s : List UInt8) (v : Bool) : Prop :=
  ∃ tail, Derives extstru true .or tail (tokens s) v ∧ (tail = .op → endsBlank s = false)

/-- `checkf` ends, reads nothing behind the string, and tells the sentences and their truth
values. -/
def Judged (extstru : List ExtStru) (s : List UInt8) : Prop :=
  ∃ r, checkf extstru s = some r ∧ (0 ≤ r ↔ ∃ v, Sentence extstru s v) ∧
    ∀ v, Sentence extstru s v → r = v.toInt

/-! ## The next token -/

theorem length_tokens_le (s : List UInt8) : (tokens s).length ≤ s.length := by
  fun_induction tokens s with
  | case1 => simp
  | case2 c cs hc ih => exact Nat.le_succ_of_le ih
  | case3 cs hc ih => exact Nat.succ_le_succ ih
  | case4 cs hc hleft ih => exact Nat.succ_le_succ ih
  | case5 c cs hc hleft hright ih =>
      exact Nat.succ_le_succ (Nat.le_trans ih (List.dropWhile_suffix isWordByte).length_le)

theorem tokens_dropWhile (s : List UInt8) : tokens (s.dropWhile isSep) = tokens s := by
  induction s with
  | nil => rfl
  | cons c cs ih =>
      by_cases hc : isSep c = true
      · rw [List.dropWhile_cons_of_pos hc, tokens, if_pos hc, ih]
      · rw [List.dropWhile_cons_of_neg hc]

theorem drop_length_takeWhile (p : UInt8 → Bool) (s : List UInt8) :
    s.drop (s.takeWhile p).length = s.dropWhile p := by
  conv_lhs => rw [← List.takeWhile_append_dropWhile (p := p) (l := s)]
  exact List.drop_left' (by rw [List.takeWhile_append_dropWhile])

/-- The place is not at a separator. -/
def Skipped (exp : List UInt8) (start : Nat) : Prop :=
  ∀ c cs, exp.drop start = c :: cs → isSep c = false

/-- The place is behind a token, or at the start: there is no separator before the end. -/
def Fresh (exp : List UInt8) (start : Nat) : Prop := exp.length ≤ start → endsBlank exp = false

theorem nextWord_tokens {s : List UInt8} (hskip : ∀ c cs, s = c :: cs → isSep c = false) :
    nextWord (tokens s) = (s.takeWhile isWordByte, tokens (s.dropWhile isWordByte)) := by
  cases s with
  | nil => simp [tokens, nextWord]
  | cons c cs =>
      have hc : isSep c = false := hskip c cs rfl
      rw [tokens, if_neg (by simp [hc])]
      split_ifs with hleft hright
      · simp [nextWord, isWordByte, hleft, tokens, isSep, leftBracket]
      · simp [nextWord, isWordByte, hright, tokens, isSep, leftBracket, rightBracket]
      · have hword : isWordByte c = true := by simp [isWordByte, hc, hleft, hright]
        rw [List.takeWhile_cons_of_pos hword, List.dropWhile_cons_of_pos hword, nextWord]

theorem nextWord_eq {ts rest : List Token} {w : List UInt8} (h : nextWord ts = (w, rest))
    (hw : w ≠ []) : ts = .word w :: rest := by
  unfold nextWord at h
  split at h <;> obtain ⟨rfl, rfl⟩ := Prod.mk.inj h
  · rfl
  · exact absurd rfl hw

/-- What `next_token` finds. -/
structure Next (exp : List UInt8) (start : Nat) (next : Nat × Nat) : Prop where
  le : start ≤ next.1
  le_stop : next.1 ≤ next.2
  stop_le : next.2 ≤ exp.length
  skipped : Skipped exp next.1
  tokens_eq : tokens (exp.drop next.1) = tokens (exp.drop start)
  word : nextWord (tokens (exp.drop start)) =
    ((exp.drop next.1).take (next.2 - next.1), tokens (exp.drop next.2))
  fresh : next.1 < next.2 → Fresh exp next.2

theorem nextToken_next {exp : List UInt8} {start : Nat} (hstart : start ≤ exp.length) :
    Next exp start (nextToken exp start) := by
  have hdrop : exp.drop (nextToken exp start).1 = (exp.drop start).dropWhile isSep := by
    rw [nextToken, ← List.drop_drop, drop_length_takeWhile]
  have hstop : (nextToken exp start).2 = (nextToken exp start).1 +
      ((exp.drop (nextToken exp start).1).takeWhile isWordByte).length := rfl
  have hbehind : exp.drop (nextToken exp start).2 =
      (exp.drop (nextToken exp start).1).dropWhile isWordByte := by
    rw [hstop, ← List.drop_drop, drop_length_takeWhile]
  have hle : (nextToken exp start).1 ≤ exp.length := by
    have hlen := (List.takeWhile_prefix isSep (l := exp.drop start)).length_le
    rw [List.length_drop] at hlen
    show start + _ ≤ _
    omega
  have hword := List.takeWhile_prefix isWordByte (l := exp.drop (nextToken exp start).1)
  have hskip : Skipped exp (nextToken exp start).1 := by
    intro c cs hcs
    rw [hdrop] at hcs
    have hhead := List.head?_dropWhile_not isSep (exp.drop start)
    rw [hcs] at hhead
    simpa using hhead
  have htokens : tokens (exp.drop (nextToken exp start).1) = tokens (exp.drop start) := by
    rw [hdrop, tokens_dropWhile]
  have hstopLe : (nextToken exp start).2 ≤ exp.length := by
    have hlen := hword.length_le
    rw [List.length_drop] at hlen
    omega
  exact {
    le := Nat.le_add_right _ _
    le_stop := Nat.le_add_right _ _
    stop_le := hstopLe
    skipped := hskip
    tokens_eq := htokens
    word := by
      rw [← htokens, nextWord_tokens hskip, hbehind, hstop, Nat.add_sub_cancel_left,
        List.prefix_iff_eq_take.mp hword]
      simp
    fresh := by
      intro hlt hend
      have hnil : (exp.drop (nextToken exp start).1).dropWhile isWordByte = [] := by
        rw [← hbehind, List.drop_eq_nil_of_le hend]
      have hall := List.dropWhile_eq_nil_iff.mp hnil
      have hlast : exp.getLast? = (exp.drop (nextToken exp start).1).getLast? := by
        rw [List.getLast?_drop, if_neg (by omega)]
      rw [endsBlank, hlast]
      cases hget : (exp.drop (nextToken exp start).1).getLast? with
      | none => rfl
      | some b =>
          have hb := hall b (List.mem_of_getLast? hget)
          simp only [isWordByte, Bool.and_eq_true, Bool.not_eq_true'] at hb
          exact hb.1.1 }

theorem Next.word_eq {exp : List UInt8} {start : Nat} {next : Nat × Nat} (h : Next exp start next) :
    (exp.drop next.1).take (next.2 - next.1) = (nextWord (tokens (exp.drop start))).1 := by
  rw [h.word]

theorem isStr_eq {exp : List UInt8} {start stop : Nat} (hle : start ≤ stop)
    (hstop : stop ≤ exp.length) (str : List UInt8) :
    isStr exp start stop str = some (decide ((exp.drop start).take (stop - start) = str)) := by
  unfold isStr
  split_ifs with hlen hstart
  · rw [Option.some.injEq, Bool.eq_iff_iff, List.isPrefixOf_iff_prefix, decide_eq_true_eq,
      List.prefix_iff_eq_take, hlen, Nat.add_sub_cancel_left, eq_comm]
  · omega
  · rw [Option.some.injEq, eq_comm, decide_eq_false_iff_not]
    rintro rfl
    rw [List.length_take, List.length_drop] at hlen
    omega

theorem copyToken_eq {exp : List UInt8} {start : Nat} (hstart : start ≤ exp.length) :
    copyToken exp start =
      some ((nextWord (tokens (exp.drop start))).1, (nextToken exp start).2) := by
  have hnext := nextToken_next hstart
  rw [← hnext.word_eq]
  exact if_pos hnext.stop_le

/-! ## The code reads the tokens -/

/-- The code returns at `p`, and has the value of what was read, or an error. -/
structure Returned (exp : List UInt8) (start : Nat) (out : Option (Int × Nat))
    (read : Option (Bool × List Token)) (r : Int) (p : Nat) : Prop where
  out_eq : out = some (r, p)
  le : start ≤ p
  le_length : p ≤ exp.length
  value : read.elim (r < 0) fun read => r = read.1.toInt ∧ tokens (exp.drop p) = read.2

def Ends (exp : List UInt8) (start : Nat) (out : Option (Int × Nat))
    (read : Option (Bool × List Token)) : Prop := ∃ r p, Returned exp start out read r p

/-- The loops have passed over the separators when they end. -/
def LoopEnds (exp : List UInt8) (start : Nat) (out : Option (Int × Nat))
    (read : Option (Bool × List Token)) : Prop :=
  ∃ r p, Returned exp start out read r p ∧ (read.isSome = true → Skipped exp p)

/-- What stands in `result`. -/
def Holds (result : Int) (read : Option Bool) : Prop := read.elim (result < 0) (result = ·.toInt)

section simulation

variable {extstru : List ExtStru} {exp : List UInt8} {fuel start : Nat}

theorem Returned.mono {start' : Nat} {out : Option (Int × Nat)}
    {read : Option (Bool × List Token)} {r : Int} {p : Nat} (h : Returned exp start out read r p)
    (hle : start' ≤ start) : Returned exp start' out read r p :=
  ⟨h.out_eq, Nat.le_trans hle h.le, h.le_length, h.value⟩

theorem toInt_nonneg (v : Bool) : 0 ≤ v.toInt := by cases v <;> decide

theorem toInt_eq_of_zero_or_one {t : Int} (h : t = 0 ∨ t = 1) :
    t = (decide (t = 1)).toInt ∧ 1 - t = (decide (t = 0)).toInt := by
  obtain rfl | rfl := h <;> decide

/-- A name has been found, and its argument is read. -/
theorem argument_ends {stop : Nat} (hle : start ≤ stop) (hstop : stop ≤ exp.length)
    {name : List UInt8} {f : List UInt8 → Bool} (hf : lookup name extstru = some f)
    (value : List UInt8 → Int) (hvalue : ∀ arg, value arg = (f arg).toInt) :
    Ends exp start ((copyToken exp stop).bind fun out => some (value out.1, out.2))
      (readName extstru name (tokens (exp.drop stop))) := by
  have hnext := nextToken_next hstop
  refine ⟨value (nextWord (tokens (exp.drop stop))).1, (nextToken exp stop).2, ?_, ?_, ?_, ?_⟩
  · rw [copyToken_eq hstop, Option.bind_some]
  · exact Nat.le_trans hle (Nat.le_trans hnext.le hnext.le_stop)
  · exact hnext.stop_le
  · rw [readName, hf, Option.map_some, Option.elim_some]
    exact ⟨hvalue _, by rw [hnext.word]⟩

theorem extfLoop_ends {stop : Nat} (hle : start ≤ stop) (hstop : stop ≤ exp.length)
    (es : List ExtStru) :
    Ends exp start (extfLoop exp start stop es)
      (readName es ((exp.drop start).take (stop - start)) (tokens (exp.drop stop))) := by
  induction es with
  | nil =>
      refine ⟨-start - 1, start, rfl, Nat.le_refl _, Nat.le_trans hle hstop, ?_⟩
      rw [readName, lookup, Option.map_none, Option.elim_none]
      omega
  | cons e es ih =>
      rw [extfLoop, isStr_eq hle hstop, isStr_eq hle hstop]
      simp only [Option.bind_eq_bind, Option.bind_some, decide_eq_true_eq, Option.pure_def]
      split_ifs with hfirst hsecond
      · have hf : lookup ((exp.drop start).take (stop - start)) (e :: es) =
            some fun arg => decide (e.f arg = 1) := by rw [lookup, if_pos hfirst]
        exact argument_ends hle hstop hf e.f fun arg =>
          (toInt_eq_of_zero_or_one (e.zero_or_one arg)).1
      · have hf : lookup ((exp.drop start).take (stop - start)) (e :: es) =
            some fun arg => decide (e.f arg = 0) := by rw [lookup, if_neg hfirst, if_pos hsecond]
        exact argument_ends hle hstop hf (fun arg => 1 - e.f arg) fun arg =>
          (toInt_eq_of_zero_or_one (e.zero_or_one arg)).2
      · simpa only [readName, lookup, if_neg hfirst, if_neg hsecond] using ih

theorem doExtf_ends (hstart : start ≤ exp.length) :
    Ends exp start (doExtf extstru exp start)
      (readName extstru (nextWord (tokens (exp.drop start))).1
        (nextWord (tokens (exp.drop start))).2) := by
  have hnext := nextToken_next hstart
  rw [hnext.word]
  obtain ⟨r, p, hreturned⟩ := extfLoop_ends hnext.le_stop hnext.stop_le extstru
  exact ⟨r, p, hreturned.mono hnext.le⟩

theorem charAt_eq (hstart : start ≤ exp.length) :
    charAt exp start = some ((exp.drop start).headD 0) := by
  unfold charAt
  obtain hlt | rfl := Nat.lt_or_eq_of_le hstart
  · rw [List.getElem?_append_left hlt, List.getElem?_eq_getElem hlt, List.drop_eq_getElem_cons hlt,
      List.headD_cons]
  · simp

theorem fresh_of_drop {c : UInt8} {cs : List UInt8} (hdrop : exp.drop start = c :: cs)
    (hc : isSep c = false) : Fresh exp (start + 1) := by
  intro hend
  have hlen : exp.length - start = cs.length + 1 := by
    rw [← List.length_drop, hdrop, List.length_cons]
  have hcs : cs = [] := List.eq_nil_of_length_eq_zero (by omega)
  have hlast : exp.getLast? = (exp.drop start).getLast? := by
    rw [List.getLast?_drop, if_neg (by omega)]
  rw [endsBlank, hlast, hdrop, hcs, List.getLast?_singleton, Option.any_some, hc]

/-- What the first byte says about the first token. -/
theorem tokens_cons {c : UInt8} {cs : List UInt8} (hdrop : exp.drop start = c :: cs)
    (hc : isSep c = false) :
    tokens (exp.drop start) =
      if c = leftBracket then .left :: tokens (exp.drop (start + 1))
      else if c = rightBracket then .right :: tokens (exp.drop (start + 1))
      else .word (c :: cs.takeWhile isWordByte) :: tokens (cs.dropWhile isWordByte) := by
  have hcs : exp.drop (start + 1) = cs := by rw [← List.drop_drop, hdrop, List.drop_one, List.tail_cons]
  rw [hcs, hdrop, tokens, if_neg (by simp [hc])]

theorem lookup_nil (es : List ExtStru) : lookup [] es = none := by
  induction es with
  | nil => rfl
  | cons e es ih =>
      rw [lookup, if_neg (Ne.symm e.first_word.1), if_neg (Ne.symm e.second_word.1), ih]

theorem readTerm_name {blanks : Bool} {ts : List Token} (hnot : (nextWord ts).1 ≠ strNot)
    (hleft : ∀ rest, ts ≠ .left :: rest) :
    readTerm extstru blanks (fuel + 1) ts =
      readName extstru (nextWord ts).1 (nextWord ts).2 := by
  cases ts with
  | nil => simp [readTerm, nextWord, readName, lookup_nil]
  | cons t rest =>
      cases t with
      | word w =>
          have hw : w ≠ strNot := hnot
          rw [readTerm, if_neg hw, nextWord]
      | left => exact absurd rfl (hleft rest)
      | right => simp [readTerm, nextWord, readName, lookup_nil]

theorem lt_of_head {p : Nat} {c : UInt8} (hc : c ≠ 0) (hhead : (exp.drop p).headD 0 = c) :
    p < exp.length := by
  by_contra hge
  rw [List.drop_eq_nil_of_le (Nat.not_lt.mp hge)] at hhead
  exact hc hhead.symm

/-- What the first byte says about the first token. -/
theorem tokens_bracket {p : Nat} (hskip : Skipped exp p) :
    ((exp.drop p).headD 0 = leftBracket → tokens (exp.drop p) = .left :: tokens (exp.drop (p + 1))) ∧
    ((exp.drop p).headD 0 ≠ leftBracket → ∀ rest, tokens (exp.drop p) ≠ .left :: rest) ∧
    ((exp.drop p).headD 0 = rightBracket → tokens (exp.drop p) = .right :: tokens (exp.drop (p + 1))) ∧
    ((exp.drop p).headD 0 ≠ rightBracket → ∀ rest, tokens (exp.drop p) ≠ .right :: rest) := by
  cases hdrop : exp.drop p with
  | nil => simp [tokens, leftBracket, rightBracket]
  | cons c cs =>
      rw [← hdrop, tokens_cons hdrop (hskip c cs hdrop), hdrop, List.headD_cons]
      refine ⟨?_, ?_, ?_, ?_⟩
      · rintro rfl
        rw [if_pos rfl]
      · intro hc rest
        rw [if_neg hc]
        split <;> simp
      · rintro rfl
        rw [if_neg (by decide), if_pos rfl]
      · intro hc rest
        rw [if_neg hc]
        split <;> simp

/-- The expression has been read, and the bracket that closes is looked for. -/
theorem close_ends {read : Option (Bool × List Token)} {out : Option (Int × Nat)}
    (h : LoopEnds exp start out read) {next : Nat} (hle : next ≤ start) :
    Ends exp next
      (do
        let (t, start) ← out
        if (← charAt exp start) ≠ rightBracket then
          return (-start - 1, start)
        return (t, start + 1))
      (closeBracket read) := by
  obtain ⟨r, p, hreturned, hskip⟩ := h
  have hvalue := hreturned.value
  rw [hreturned.out_eq]
  simp only [Option.bind_eq_bind, Option.bind_some, Option.pure_def, charAt_eq hreturned.le_length,
    ne_eq, ite_not]
  split_ifs with hc
  · have hlt : p < exp.length := lt_of_head (by decide) hc
    refine ⟨r, p + 1, rfl, Nat.le_trans hle (Nat.le_succ_of_le hreturned.le), hlt, ?_⟩
    cases read with
    | none => exact hvalue
    | some read =>
        obtain ⟨v, ts⟩ := read
        obtain ⟨hr, hts⟩ : r = v.toInt ∧ tokens (exp.drop p) = ts := hvalue
        rw [(tokens_bracket (hskip rfl)).2.2.1 hc] at hts
        rw [← hts, closeBracket, Option.elim_some]
        exact ⟨hr, rfl⟩
  · refine ⟨-p - 1, p, rfl, Nat.le_trans hle hreturned.le, hreturned.le_length, ?_⟩
    have hnone : closeBracket read = none := by
      unfold closeBracket
      split
      · next v rest =>
        exact absurd hvalue.2 ((tokens_bracket (hskip rfl)).2.2.2 hc rest)
      · rfl
    rw [hnone, Option.elim_none]
    omega

/-- The code of `do_term` when the next token is not `Not`. -/
theorem bracket_ends {next : Nat} (hnext : next ≤ exp.length) (hskip : Skipped exp next)
    (hnot : (nextWord (tokens (exp.drop next))).1 ≠ strNot)
    (hor : ∀ start, next < start → start ≤ exp.length → Fresh exp start →
      LoopEnds exp start (doOr extstru exp fuel start (-start - 1))
        (readOr extstru (endsBlank exp) fuel none (tokens (exp.drop start)))) :
    Ends exp next
      (do
        if (← charAt exp next) = leftBracket then
          let (t, start) ← doOr extstru exp fuel (next + 1) (-(next + 1 : Nat) - 1)
          if (← charAt exp start) ≠ rightBracket then
            return (-start - 1, start)
          return (t, start + 1)
        else doExtf extstru exp next)
      (readTerm extstru (endsBlank exp) (fuel + 1) (tokens (exp.drop next))) := by
  rw [charAt_eq hnext, Option.bind_eq_bind, Option.bind_some]
  split_ifs with hc
  · have hlt : next < exp.length := lt_of_head (by decide) hc
    have hfresh : Fresh exp (next + 1) := by
      rw [List.drop_eq_getElem_cons hlt, List.headD_cons] at hc
      exact fresh_of_drop (List.drop_eq_getElem_cons hlt) (by rw [hc]; decide)
    rw [(tokens_bracket hskip).1 hc, readTerm]
    exact close_ends (hor (next + 1) (Nat.lt_succ_self _) hlt hfresh) (Nat.le_succ _)
  · rw [readTerm_name hnot ((tokens_bracket hskip).2.1 hc)]
    exact doExtf_ends hnext

theorem doTerm_ends (hstart : start ≤ exp.length)
    (hterm : ∀ stop, start < stop → stop ≤ exp.length →
      Ends exp stop (doTerm extstru exp fuel stop)
        (readTerm extstru (endsBlank exp) fuel (tokens (exp.drop stop))))
    (hor : ∀ next, start < next → next ≤ exp.length → Fresh exp next →
      LoopEnds exp next (doOr extstru exp fuel next (-next - 1))
        (readOr extstru (endsBlank exp) fuel none (tokens (exp.drop next)))) :
    Ends exp start (doTerm extstru exp (fuel + 1) start)
      (readTerm extstru (endsBlank exp) (fuel + 1) (tokens (exp.drop start))) := by
  have hnext := nextToken_next hstart
  have hword := hnext.word_eq
  rw [doTerm]
  simp only [isStr_eq hnext.le_stop hnext.stop_le, Option.bind_eq_bind, Option.bind_some,
    decide_eq_true_eq]
  split_ifs with hnot
  · have hlt : (nextToken exp start).1 < (nextToken exp start).2 := by
      by_contra hge
      rw [Nat.sub_eq_zero_of_le (Nat.not_lt.mp hge), List.take_zero] at hnot
      exact absurd hnot (by decide)
    have hts : tokens (exp.drop start) = .word strNot :: tokens (exp.drop (nextToken exp start).2) :=
      nextWord_eq (by rw [hnext.word, hnot]) (by decide)
    obtain ⟨r, p, hreturned⟩ :=
      hterm _ (Nat.lt_of_le_of_lt hnext.le hlt) hnext.stop_le
    have hvalue := hreturned.value
    rw [hreturned.out_eq, hts, readTerm, if_pos rfl, Option.bind_some]
    refine ⟨if r < 0 then r else 1 - r, p, rfl,
      Nat.le_trans (Nat.le_trans hnext.le hnext.le_stop) hreturned.le, hreturned.le_length, ?_⟩
    cases hread : readTerm extstru (endsBlank exp) fuel (tokens (exp.drop (nextToken exp start).2)) with
    | none =>
        rw [hread, Option.elim_none] at hvalue
        rwa [Option.map_none, Option.elim_none, if_pos hvalue]
    | some read =>
        rw [hread, Option.elim_some] at hvalue
        have hpos : ¬ r < 0 := by
          rw [hvalue.1]
          exact Int.not_lt.mpr (toInt_nonneg read.1)
        rw [Option.map_some, Option.elim_some, if_neg hpos, hvalue.1]
        exact ⟨by cases read.1 <;> rfl, hvalue.2⟩
  · rw [hword, ← hnext.tokens_eq] at hnot
    rw [← hnext.tokens_eq]
    obtain ⟨r, p, hreturned⟩ := bracket_ends (Nat.le_trans hnext.le_stop hnext.stop_le)
      hnext.skipped hnot (fun next hlt => hor next (Nat.lt_of_le_of_lt hnext.le hlt))
    exact ⟨r, p, hreturned.mono hnext.le⟩

theorem tokens_eq_nil {s : List UInt8} (h : tokens s = []) : ∀ c ∈ s, isSep c = true := by
  induction s with
  | nil => simp
  | cons c cs ih =>
      rw [tokens] at h
      split_ifs at h with hc
      intro d hd
      obtain rfl | hd := List.mem_cons.mp hd
      · exact hc
      · exact ih h d hd

theorem tokens_ne_nil (hlt : start < exp.length) (hblank : endsBlank exp = false) :
    tokens (exp.drop start) ≠ [] := by
  intro hnil
  have hlast : exp.getLast? = (exp.drop start).getLast? := by
    rw [List.getLast?_drop, if_neg (Nat.not_le.mpr hlt)]
  cases hget : (exp.drop start).getLast? with
  | none =>
      rw [List.getLast?_eq_none_iff, List.drop_eq_nil_iff] at hget
      exact absurd hlt (Nat.not_lt.mpr hget)
  | some b =>
      have hb := tokens_eq_nil hnil b (List.mem_of_getLast? hget)
      rw [endsBlank, hlast, hget, Option.any_some, hb] at hblank
      cases hblank

theorem Holds.join {join : Int → Int → Int} {joinBool : Bool → Bool → Bool}
    (hjoin : ∀ v w : Bool, join v.toInt w.toInt = (joinBool v w).toInt) {result : Int}
    {read : Option Bool} (h : Holds result read) (v : Bool) :
    (if result < 0 then v.toInt else join result v.toInt) = (read.elim v (joinBool · v)).toInt := by
  cases read with
  | none =>
      have hneg : result < 0 := h
      rw [if_pos hneg, Option.elim_none]
  | some w =>
      have hw : result = w.toInt := h
      rw [hw, if_neg (Int.not_lt.mpr (toInt_nonneg w)), hjoin, Option.elim_some]

/-- A turn of a loop, when what it calls reads the tokens. -/
theorem opLoop_ends {op : List UInt8} (hop : op ≠ []) {join : Int → Int → Int}
    {joinBool : Bool → Bool → Bool} (hjoin : ∀ v w : Bool, join v.toInt w.toInt = (joinBool v w).toInt)
    {call : Nat → Option (Int × Nat)} {again : Nat → Int → Option (Int × Nat)}
    {readCall : List Token → Option (Bool × List Token)}
    {readAgain : Option Bool → List Token → Option (Bool × List Token)}
    (hstart : start ≤ exp.length) (hfresh : Fresh exp start) {result : Int} {read : Option Bool}
    (hresult : Holds result read)
    (hcall : start < exp.length →
      Ends exp start (call start) (readCall (tokens (exp.drop start))))
    (hagain : ∀ stop result read, start < stop → stop ≤ exp.length → Fresh exp stop →
      Holds result read →
      LoopEnds exp stop (again stop result) (readAgain read (tokens (exp.drop stop)))) :
    LoopEnds exp start (opLoop exp op join call again start result)
      (readLoop (endsBlank exp) op joinBool readCall readAgain read (tokens (exp.drop start))) := by
  unfold opLoop readLoop
  by_cases hlt : start < exp.length
  · rw [if_pos hlt, if_neg fun hend => tokens_ne_nil hlt hend.2 hend.1]
    obtain ⟨r, p, hcalled⟩ := hcall hlt
    have hvalue := hcalled.value
    rw [hcalled.out_eq]
    cases hread : readCall (tokens (exp.drop start)) with
    | none =>
        rw [hread, Option.elim_none] at hvalue
        simp only [Option.bind_eq_bind, Option.bind_some, if_pos hvalue, Option.pure_def]
        exact ⟨r, p, ⟨rfl, hcalled.le, hcalled.le_length, hvalue⟩, by simp⟩
    | some called =>
        obtain ⟨v, rest⟩ := called
        rw [hread, Option.elim_some] at hvalue
        obtain ⟨rfl, hrest⟩ : r = v.toInt ∧ tokens (exp.drop p) = rest := hvalue
        have hnext := nextToken_next hcalled.le_length
        have hword := hnext.word_eq
        rw [hrest] at hword
        simp only [Option.bind_eq_bind, Option.bind_some, if_neg (Int.not_lt.mpr (toInt_nonneg v)),
          hresult.join hjoin v, isStr_eq hnext.le_stop hnext.stop_le, decide_eq_true_eq, hword,
          Option.pure_def]
        split_ifs with hisop
        · have hlt' : (nextToken exp p).1 < (nextToken exp p).2 := by
            by_contra hge
            rw [hisop, Nat.sub_eq_zero_of_le (Nat.not_lt.mp hge), List.take_zero] at hword
            exact hop hword.symm
          have hstop : start < (nextToken exp p).2 :=
            Nat.lt_of_le_of_lt (Nat.le_trans hcalled.le hnext.le) hlt'
          have hbehind : tokens (exp.drop (nextToken exp p).2) = (nextWord rest).2 := by
            rw [← hrest, hnext.word]
          rw [← hbehind]
          obtain ⟨r, q, hagained, hskip⟩ :=
            hagain _ _ (some (read.elim v (joinBool · v))) hstop hnext.stop_le (hnext.fresh hlt') rfl
          exact ⟨r, q, hagained.mono (Nat.le_of_lt hstop), hskip⟩
        · refine ⟨_, (nextToken exp p).1, ⟨rfl, Nat.le_trans hcalled.le hnext.le,
            Nat.le_trans hnext.le_stop hnext.stop_le, ?_⟩, fun _ => hnext.skipped⟩
          rw [Option.elim_some, hnext.tokens_eq]
          exact ⟨rfl, hrest⟩
  · have hnil : exp.drop start = [] := List.drop_eq_nil_of_le (Nat.not_lt.mp hlt)
    rw [if_neg hlt, if_pos ⟨by rw [hnil, tokens], hfresh (Nat.not_lt.mp hlt)⟩]
    refine ⟨result, start, ⟨rfl, Nat.le_refl _, hstart, ?_⟩, fun _ c cs hcs => ?_⟩
    · cases read with
      | none => exact hresult
      | some v => exact ⟨hresult, rfl⟩
    · rw [hnil] at hcs
      cases hcs

/-- The three routines, when there is fuel for what is left of the string. -/
structure CodeEnds (extstru : List ExtStru) (exp : List UInt8) (fuel : Nat) : Prop where
  term : ∀ start, start ≤ exp.length → 3 * (exp.length - start) + 1 ≤ fuel →
    Ends exp start (doTerm extstru exp fuel start)
      (readTerm extstru (endsBlank exp) fuel (tokens (exp.drop start)))
  and : ∀ start result read, start ≤ exp.length → Fresh exp start → Holds result read →
    3 * (exp.length - start) + 2 ≤ fuel →
    LoopEnds exp start (doAnd extstru exp fuel start result)
      (readAnd extstru (endsBlank exp) fuel read (tokens (exp.drop start)))
  or : ∀ start result read, start ≤ exp.length → Fresh exp start → Holds result read →
    3 * (exp.length - start) + 3 ≤ fuel →
    LoopEnds exp start (doOr extstru exp fuel start result)
      (readOr extstru (endsBlank exp) fuel read (tokens (exp.drop start)))

theorem LoopEnds.ends {out : Option (Int × Nat)} {read : Option (Bool × List Token)}
    (h : LoopEnds exp start out read) : Ends exp start out read := by
  obtain ⟨r, p, hreturned, -⟩ := h
  exact ⟨r, p, hreturned⟩

theorem holds_none (start : Nat) : Holds (-start - 1) none := by
  show -(start : Int) - 1 < 0
  omega

theorem codeEnds (extstru : List ExtStru) (exp : List UInt8) (fuel : Nat) :
    CodeEnds extstru exp fuel := by
  induction fuel with
  | zero => constructor <;> intros <;> omega
  | succ fuel ih =>
      constructor
      · intro start hstart hfuel
        apply doTerm_ends hstart
        · exact fun stop hlt hstop => ih.term stop hstop (by omega)
        · exact fun next hlt hnext hfresh =>
            ih.or next _ none hnext hfresh (holds_none next) (by omega)
      · intro start result read hstart hfresh hresult hfuel
        rw [doAnd, readAnd]
        apply opLoop_ends (by decide) (by decide) hstart hfresh hresult
        · exact fun hlt => ih.term start hstart (by omega)
        · exact fun stop result read hlt hstop hfresh hresult =>
            ih.and stop result read hstop hfresh hresult (by omega)
      · intro start result read hstart hfresh hresult hfuel
        rw [doOr, readOr]
        apply opLoop_ends (by decide) (by decide) hstart hfresh hresult
        · exact fun hlt => (ih.and start _ none hstart hfresh (holds_none start) (by omega)).ends
        · exact fun stop result read hlt hstop hfresh hresult =>
            ih.or stop result read hstop hfresh hresult (by omega)

end simulation

/-- What the string is read as, when nothing is left. -/
def readAll (extstru : List ExtStru) (s : List UInt8) : Option Bool :=
  match readOr extstru (endsBlank s) (3 * s.length + 3) none (tokens s) with
  | some (v, []) => some v
  | _ => none

/-- `checkf` ends, and returns the truth value of what it has read, or an error. -/
theorem checkf_reads (extstru : List ExtStru) (s : List UInt8) :
    ∃ r, checkf extstru s = some r ∧ (readAll extstru s).elim (r < 0) (r = ·.toInt) := by
  have hfresh : Fresh s 0 := by
    intro hend
    rw [List.eq_nil_of_length_eq_zero (Nat.le_zero.mp hend)]
    rfl
  obtain ⟨r, p, hreturned, hskip⟩ :=
    (codeEnds extstru s (3 * s.length + 3)).or 0 (-1) none (Nat.zero_le _) hfresh
      (show (-1 : Int) < 0 by decide) (Nat.le_refl _)
  have hvalue := hreturned.value
  rw [List.drop_zero] at hvalue hskip
  rw [checkf, hreturned.out_eq, Option.bind_eq_bind, Option.bind_some]
  refine ⟨_, rfl, ?_⟩
  unfold readAll
  split
  · next v hread =>
    rw [hread] at hvalue hskip
    have hend : s.length ≤ p := by
      by_contra hlt
      have hdrop := List.drop_eq_getElem_cons (Nat.not_le.mp hlt)
      have htokens := tokens_cons hdrop (hskip rfl _ _ hdrop)
      rw [hvalue.2] at htokens
      split_ifs at htokens
    rw [if_pos hend]
    exact hvalue.1
  · next hread =>
    rw [Option.elim_none]
    split_ifs with hend
    · cases hor : readOr extstru (endsBlank s) (3 * s.length + 3) none (tokens s) with
      | none =>
          rw [hor] at hvalue
          exact hvalue
      | some read =>
          rw [hor] at hvalue
          have hnil : read.2 = [] := by
            rw [← hvalue.2, List.drop_eq_nil_of_le hend, tokens]
          exact absurd (by rw [hor, ← hnil]) (hread read.1)
    · omega

/-! ## What is read is what the grammar derives -/

/-- What may stand behind an expression that ends so. -/
def Follows (blanks : Bool) (rest : List Token) : Tail → Prop
  | .closed => True
  | .name => nextWord rest = ([], rest)
  | .op => rest = [] ∧ blanks = false

section grammar

variable {extstru : List ExtStru} {blanks : Bool} {fuel : Nat}

/-- After an expression that is followed by an operator comes the next one. -/
theorem Follows.closed {tail : Tail} {rest : List Token} {w : List UInt8} (hw : w ≠ [])
    (h : Follows blanks (.word w :: rest) tail) : tail = .closed := by
  cases tail with
  | closed => rfl
  | name => exact absurd (congrArg Prod.fst h) hw
  | op => cases h.1

section loop

variable {op : List UInt8} {join : Bool → Bool → Bool}
  {call : List Token → Option (Bool × List Token)}
  {again : Option Bool → List Token → Option (Bool × List Token)}

/-- The loop goes on behind an operator. -/
theorem readLoop_op {ts rest : List Token} {v : Bool} (hne : ts ≠ [])
    (hcall : call ts = some (v, .word op :: rest)) (result : Option Bool) :
    readLoop blanks op join call again result ts = again (some (result.elim v (join · v))) rest := by
  rw [readLoop, if_neg fun hend => hne hend.1, hcall]
  simp [nextWord]

theorem readLoop_last {ts rest : List Token} {v : Bool} (hne : ts ≠ [])
    (hcall : call ts = some (v, rest)) (hop : (nextWord rest).1 ≠ op) (result : Option Bool) :
    readLoop blanks op join call again result ts = some (result.elim v (join · v), rest) := by
  rw [readLoop, if_neg fun hend => hne hend.1, hcall]
  simp [hop]

end loop

theorem Derives.ne_nil {loose : Bool} {level : Level} {tail : Tail} {ts : List Token} {v : Bool}
    (h : Derives extstru loose level tail ts v) : ts ≠ [] := by
  induction h with
  | oneTerm _ ih => exact ih
  | oneAnd _ ih => exact ih
  | _ => simp

theorem lookup_ne {name : List UInt8} {es : List ExtStru} {f : List UInt8 → Bool}
    (h : lookup name es = some f) : name ≠ strNot := by
  induction es with
  | nil => cases h
  | cons e es ih =>
      rw [lookup] at h
      split_ifs at h with hfirst hsecond
      · exact hfirst ▸ e.first_word.2
      · exact hsecond ▸ e.second_word.2
      · exact ih h

/-- The loop is at the end of the string. -/
theorem readLoop_end {op : List UInt8} {join : Bool → Bool → Bool}
    {call : List Token → Option (Bool × List Token)}
    {again : Option Bool → List Token → Option (Bool × List Token)} (v : Bool) :
    readLoop false op join call again (some v) [] = some (v, []) := by
  simp [readLoop]

/-- Derivations are read, up to where they end. -/
theorem Derives.read {loose : Bool} {level : Level} {tail : Tail} {ts : List Token} {v : Bool}
    (h : Derives extstru loose level tail ts v) {rest : List Token} (hrest : Follows blanks rest tail) :
    match level with
    | .term => ∀ fuel, 3 * (ts ++ rest).length + 1 ≤ fuel →
        readTerm extstru blanks fuel (ts ++ rest) = some (v, rest)
    | .and => (nextWord rest).1 ≠ strAnd → ∀ fuel, 3 * (ts ++ rest).length + 2 ≤ fuel →
        ∀ result, readAnd extstru blanks fuel result (ts ++ rest) =
          some (result.elim v (· && v), rest)
    | .or => (nextWord rest).1 ≠ strAnd → (nextWord rest).1 ≠ strOr →
        ∀ fuel, 3 * (ts ++ rest).length + 3 ≤ fuel →
        ∀ result, readOr extstru blanks fuel result (ts ++ rest) =
          some (result.elim v (· || v), rest) := by
  induction h generalizing rest with
  | named hf =>
      rintro (_ | fuel) hfuel
      · omega
      · simp [readTerm, readName, nextWord, lookup_ne hf, hf]
  | bare hloose hf =>
      have hnext : nextWord rest = ([], rest) := hrest
      rintro (_ | fuel) hfuel
      · omega
      · simp [readTerm, readName, hnext, lookup_ne hf, hf]
  | not h ih =>
      rintro (_ | fuel) hfuel
      · omega
      · rw [List.cons_append, readTerm, if_pos rfl, ih hrest fuel, Option.map_some]
        simp only [List.cons_append, List.length_cons] at hfuel
        omega
  | @brackets tail ts v htail h ih =>
      have hfollows : Follows blanks (.right :: rest) tail := by
        cases tail with
        | closed => trivial
        | name => rfl
        | op => exact absurd rfl htail
      rintro (_ | fuel) hfuel
      · omega
      · have heq : .left :: (ts ++ [.right]) ++ rest = .left :: (ts ++ .right :: rest) := by simp
        rw [heq] at hfuel ⊢
        rw [readTerm, ih hfollows (by decide : ([] : List UInt8) ≠ strAnd)
          (by decide : ([] : List UInt8) ≠ strOr) fuel, Option.elim_none, closeBracket]
        rw [List.length_cons] at hfuel
        omega
  | oneTerm h ih =>
      rintro hand (_ | fuel) hfuel result
      · omega
      · rw [readAnd]
        apply readLoop_last (List.append_ne_nil_of_left_ne_nil h.ne_nil rest)
        · exact ih hrest fuel (Nat.le_of_succ_le_succ hfuel)
        · exact hand
  | @and tail ts us v w h hmore ih ihmore =>
      rintro hand (_ | fuel) hfuel result
      · omega
      · rw [List.append_assoc, List.cons_append] at hfuel ⊢
        rw [readAnd, readLoop_op (List.append_ne_nil_of_left_ne_nil h.ne_nil _)
          (ih trivial fuel (by omega)), ihmore hrest hand fuel]
        · cases result <;> simp [Bool.and_assoc]
        · simp only [List.length_append, List.length_cons] at hfuel ⊢
          omega
  | @andEnd ts v hloose h ih =>
      obtain ⟨rfl, rfl⟩ := hrest
      rintro hand (_ | _ | fuel) hfuel result
      · omega
      · simp at hfuel
      · rw [List.append_nil] at hfuel ⊢
        rw [readAnd, readLoop_op (List.append_ne_nil_of_left_ne_nil h.ne_nil _)
          (ih trivial (fuel + 1) (by omega)), readAnd, readLoop_end]
  | oneAnd h ih =>
      rintro hand hor (_ | fuel) hfuel result
      · omega
      · rw [readOr]
        apply readLoop_last (List.append_ne_nil_of_left_ne_nil h.ne_nil rest)
        · exact ih hrest hand fuel (Nat.le_of_succ_le_succ hfuel) none
        · exact hor
  | @or tail ts us v w h hmore ih ihmore =>
      rintro hand hor (_ | fuel) hfuel result
      · omega
      · rw [List.append_assoc, List.cons_append] at hfuel ⊢
        have hcall : readAnd extstru blanks fuel none (ts ++ .word strOr :: (us ++ rest)) =
            some (v, .word strOr :: (us ++ rest)) :=
          @ih (.word strOr :: (us ++ rest)) trivial (by decide : strOr ≠ strAnd) fuel (by omega) none
        rw [readOr, readLoop_op (List.append_ne_nil_of_left_ne_nil h.ne_nil _) hcall,
          ihmore hrest hand hor fuel]
        · cases result <;> simp [Bool.or_assoc]
        · simp only [List.length_append, List.length_cons] at hfuel ⊢
          omega
  | @orEnd ts v hloose h ih =>
      obtain ⟨rfl, rfl⟩ := hrest
      rintro hand hor (_ | _ | fuel) hfuel result
      · omega
      · simp at hfuel
      · rw [List.append_nil] at hfuel ⊢
        have hcall : readAnd extstru false (fuel + 1) none (ts ++ [.word strOr]) =
            some (v, [.word strOr]) :=
          @ih [.word strOr] trivial (by decide : strOr ≠ strAnd) (fuel + 1) (by omega) none
        rw [readOr, readLoop_op (List.append_ne_nil_of_left_ne_nil h.ne_nil _) hcall, readOr,
          readLoop_end]

/-- What a routine for `level` reads is derived. -/
def Reads (extstru : List ExtStru) (blanks : Bool) (level : Level) (ts : List Token)
    (read : Option (Bool × List Token)) : Prop :=
  ∀ v rest, read = some (v, rest) → ∃ tail us, Derives extstru true level tail us v ∧
    ts = us ++ rest ∧ Follows blanks rest tail

/-- What a loop for `level` reads: when it does not stop at once, `result` is joined with it. -/
def LoopReads (extstru : List ExtStru) (blanks : Bool) (level : Level) (join : Bool → Bool → Bool)
    (result : Option Bool) (ts : List Token) (read : Option (Bool × List Token)) : Prop :=
  ∀ v rest, read = some (v, rest) →
    (ts = [] ∧ blanks = false ∧ result = some v ∧ rest = []) ∨
    ∃ tail us w, Derives extstru true level tail us w ∧ ts = us ++ rest ∧
      Follows blanks rest tail ∧ v = result.elim w (join · w)

theorem readLoop_reads {op : List UInt8} {join : Bool → Bool → Bool}
    {call : List Token → Option (Bool × List Token)}
    {again : Option Bool → List Token → Option (Bool × List Token)} {inner level : Level}
    (hop : op ≠ []) (hassoc : ∀ a b c, join (join a b) c = join a (join b c))
    (hone : ∀ {tail ts v}, Derives extstru true inner tail ts v → Derives extstru true level tail ts v)
    (hmore : ∀ {tail ts us v w}, Derives extstru true inner .closed ts v →
      Derives extstru true level tail us w →
      Derives extstru true level tail (ts ++ .word op :: us) (join v w))
    (hend : ∀ {ts v}, Derives extstru true inner .closed ts v →
      Derives extstru true level .op (ts ++ [.word op]) v)
    (hcall : ∀ ts, Reads extstru blanks inner ts (call ts))
    (hagain : ∀ result ts, LoopReads extstru blanks level join result ts (again result ts))
    (result : Option Bool) (ts : List Token) :
    LoopReads extstru blanks level join result ts
      (readLoop blanks op join call again result ts) := by
  intro v rest hread
  rw [readLoop] at hread
  split_ifs at hread with hstop
  · left
    obtain ⟨w, hw, hpair⟩ := Option.map_eq_some_iff.mp hread
    obtain ⟨rfl, rfl⟩ := Prod.mk.inj hpair
    exact ⟨hstop.1, hstop.2, hw, hstop.1⟩
  · right
    cases hcalled : call ts with
    | none => simp [hcalled] at hread
    | some called =>
        obtain ⟨t, behind⟩ := called
        obtain ⟨tail, us, hderives, rfl, hfollows⟩ := hcall ts t behind hcalled
        simp only [hcalled] at hread
        split_ifs at hread with hisop
        · have hbehind : behind = .word op :: (nextWord behind).2 :=
            nextWord_eq (Prod.ext hisop rfl) hop
          rw [hbehind] at hfollows
          obtain rfl := hfollows.closed hop
          obtain ⟨hnil, hblanks, hresult, rfl⟩ | ⟨tail, us', w, hderives', hrest, hfollows', rfl⟩ :=
            hagain _ _ v rest hread
          · rw [hbehind, hnil]
            exact ⟨.op, us ++ [.word op], t, hend hderives, by simp, ⟨rfl, hblanks⟩,
              (Option.some.inj hresult).symm⟩
          · refine ⟨tail, us ++ .word op :: us', join t w, hmore hderives hderives', ?_, hfollows', ?_⟩
            · rw [hbehind, hrest, List.append_assoc, List.cons_append]
            · cases result <;> simp [hassoc]
        · obtain ⟨rfl, rfl⟩ := Prod.mk.inj (Option.some.inj hread)
          exact ⟨tail, us, t, hone hderives, rfl, hfollows, rfl⟩

theorem LoopReads.reads {level : Level} {join : Bool → Bool → Bool} {ts : List Token}
    {read : Option (Bool × List Token)} (h : LoopReads extstru blanks level join none ts read) :
    Reads extstru blanks level ts read := by
  intro v rest hread
  obtain ⟨-, -, hnone, -⟩ | ⟨tail, us, w, hderives, hts, hfollows, rfl⟩ := h v rest hread
  · cases hnone
  · exact ⟨tail, us, hderives, hts, hfollows⟩

theorem readName_reads {name : List UInt8} (ts : List Token) :
    Reads extstru blanks .term (.word name :: ts) (readName extstru name ts) := by
  intro v rest hread
  obtain ⟨f, hf, hpair⟩ := Option.map_eq_some_iff.mp hread
  obtain ⟨rfl, rfl⟩ := Prod.mk.inj hpair
  by_cases hword : ∃ arg ts', ts = .word arg :: ts'
  · obtain ⟨arg, ts', rfl⟩ := hword
    exact ⟨.closed, [.word name, .word arg], .named hf, rfl, trivial⟩
  · have hnext : nextWord ts = ([], ts) := by
      unfold nextWord
      split
      · exact absurd ⟨_, _, rfl⟩ hword
      · rfl
    rw [hnext]
    exact ⟨.name, [.word name], .bare rfl hf, rfl, hnext⟩

theorem closeBracket_reads {ts : List Token} {read : Option (Bool × List Token)}
    (h : Reads extstru blanks .or ts read) :
    Reads extstru blanks .term (.left :: ts) (closeBracket read) := by
  intro v rest hread
  unfold closeBracket at hread
  split at hread
  · next v' rest' =>
    obtain ⟨rfl, rfl⟩ := Prod.mk.inj (Option.some.inj hread)
    obtain ⟨tail, us, hderives, rfl, hfollows⟩ := h v' (.right :: rest') rfl
    have htail : tail ≠ .op := by
      rintro rfl
      cases hfollows.1
    exact ⟨.closed, .left :: (us ++ [.right]), .brackets htail hderives, by simp, trivial⟩
  · cases hread

/-- The three routines read what the grammar derives. -/
structure GrammarReads (extstru : List ExtStru) (blanks : Bool) (fuel : Nat) : Prop where
  term : ∀ ts, Reads extstru blanks .term ts (readTerm extstru blanks fuel ts)
  and : ∀ result ts, LoopReads extstru blanks .and and result ts
    (readAnd extstru blanks fuel result ts)
  or : ∀ result ts, LoopReads extstru blanks .or or result ts (readOr extstru blanks fuel result ts)

theorem readTerm_reads (h : GrammarReads extstru blanks fuel) (ts : List Token) :
    Reads extstru blanks .term ts (readTerm extstru blanks (fuel + 1) ts) := by
  intro v rest hread
  cases ts with
  | nil => cases hread
  | cons t ts =>
      cases t with
      | word w =>
          rw [readTerm] at hread
          split_ifs at hread with hnot
          · obtain ⟨p, hp, hpair⟩ := Option.map_eq_some_iff.mp hread
            obtain ⟨rfl, rfl⟩ := Prod.mk.inj hpair
            obtain ⟨tail, us, hderives, rfl, hfollows⟩ := h.term ts p.1 p.2 hp
            exact ⟨tail, .word strNot :: us, hderives.not, by rw [hnot, List.cons_append], hfollows⟩
          · exact readName_reads ts v rest hread
      | left => exact closeBracket_reads (h.or none ts).reads v rest hread
      | right => cases hread

theorem grammarReads (extstru : List ExtStru) (blanks : Bool) (fuel : Nat) :
    GrammarReads extstru blanks fuel := by
  induction fuel with
  | zero =>
      constructor
      · intro ts v rest hread
        cases hread
      · intro result ts v rest hread
        cases hread
      · intro result ts v rest hread
        cases hread
  | succ fuel ih =>
      constructor
      · exact readTerm_reads ih
      · exact readLoop_reads (by decide) Bool.and_assoc .oneTerm .and (.andEnd rfl) ih.term ih.and
      · exact readLoop_reads (by decide) Bool.or_assoc .oneAnd .or (.orEnd rfl)
          (fun ts => (ih.and none ts).reads) ih.or

end grammar

/-! ## checkf -/

variable {extstru : List ExtStru} {s : List UInt8} {v : Bool}

theorem readAll_iff : readAll extstru s = some v ↔ Loose extstru s v := by
  constructor
  · intro hread
    unfold readAll at hread
    split at hread
    · next w hor =>
      obtain rfl := Option.some.inj hread
      obtain ⟨tail, us, hderives, hts, hfollows⟩ :=
        ((grammarReads extstru (endsBlank s) _).or none (tokens s)).reads w [] hor
      rw [List.append_nil] at hts
      refine ⟨tail, hts ▸ hderives, ?_⟩
      rintro rfl
      exact hfollows.2
    · cases hread
  · rintro ⟨tail, hderives, htail⟩
    have hfollows : Follows (endsBlank s) [] tail := by
      cases tail with
      | closed => trivial
      | name => rfl
      | op => exact ⟨rfl, htail rfl⟩
    have hlen : (tokens s).length ≤ s.length := length_tokens_le s
    have hor := hderives.read hfollows (by decide : ([] : List UInt8) ≠ strAnd)
      (by decide : ([] : List UInt8) ≠ strOr) (3 * s.length + 3) (by rw [List.append_nil]; omega) none
    rw [List.append_nil] at hor
    rw [readAll, hor, Option.elim_none]

theorem Derives.loose {level : Level} {tail : Tail} {ts : List Token}
    (h : Derives extstru false level tail ts v) : Derives extstru true level tail ts v := by
  induction h with
  | named hf => exact .named hf
  | bare hloose _ => cases hloose
  | not _ ih => exact ih.not
  | brackets htail _ ih => exact ih.brackets htail
  | oneTerm _ ih => exact ih.oneTerm
  | and _ _ ih ihmore => exact ih.and ihmore
  | andEnd hloose _ _ => cases hloose
  | oneAnd _ ih => exact ih.oneAnd
  | or _ _ ih ihmore => exact ih.or ihmore
  | orEnd hloose _ _ => cases hloose

theorem Sentence.loose (h : Sentence extstru s v) : Loose extstru s v :=
  ⟨.closed, Derives.loose h, fun hop => by cases hop⟩

/-- `checkf` is 0 or 1 just for the strings that are read loosely. -/
theorem checkf_loose (extstru : List ExtStru) (s : List UInt8) :
    ∃ r, checkf extstru s = some r ∧ (0 ≤ r ↔ ∃ v, Loose extstru s v) ∧
      ∀ v, Loose extstru s v → r = v.toInt := by
  obtain ⟨r, hr, hread⟩ := checkf_reads extstru s
  refine ⟨r, hr, ?_⟩
  simp only [← readAll_iff]
  cases hall : readAll extstru s with
  | none =>
      rw [hall, Option.elim_none] at hread
      simpa using hread
  | some v =>
      rw [hall, Option.elim_some] at hread
      rw [hread]
      simp [toInt_nonneg]

/-- `checkf` is right when the string is a sentence, or cannot be read loosely either. -/
theorem checkf_iff (extstru : List ExtStru) (s : List UInt8) :
    Judged extstru s ↔ (∃ v, Sentence extstru s v) ∨ ¬ ∃ v, Loose extstru s v := by
  obtain ⟨r, hr, hnonneg, hvalue⟩ := checkf_loose extstru s
  constructor
  · rintro ⟨r', hr', hsentence, -⟩
    obtain rfl := Option.some.inj (hr.symm.trans hr')
    by_cases hloose : ∃ v, Loose extstru s v
    · exact .inl (hsentence.mp (hnonneg.mpr hloose))
    · exact .inr hloose
  · intro h
    refine ⟨r, hr, ⟨fun hpos => ?_, ?_⟩, fun v hv => hvalue v hv.loose⟩
    · obtain hsentence | hloose := h
      · exact hsentence
      · exact absurd (hnonneg.mp hpos) hloose
    · rintro ⟨v, hv⟩
      exact hnonneg.mpr ⟨v, hv.loose⟩

/-- Strictly there are two words at least. -/
theorem Derives.two_le {level : Level} {tail : Tail} {ts : List Token}
    (h : Derives extstru false level tail ts v) : 2 ≤ ts.length := by
  induction h with
  | bare hloose _ => cases hloose
  | andEnd hloose _ _ => cases hloose
  | orEnd hloose _ _ => cases hloose
  | oneTerm _ ih => exact ih
  | oneAnd _ ih => exact ih
  | _ => simp only [List.length_append, List.length_cons, List.length_nil] at *; omega

/-- `{idis, Pair("作者", "是")}`, for the articles of one owner -/
def idis (owner : List UInt8) : ExtStru where
  f buf := if strcasecmp owner buf then 1 else 0
  first := [215, 247, 213, 223, 202, 199]
  second := [215, 247, 213, 223, 178, 187, 202, 199]
  zero_or_one arg := by split <;> simp
  first_word := by decide
  second_word := by decide

/-- A condition that is no more than `作者不是` is met by all articles. -/
theorem checkf_takesName :
    checkf [idis [97, 117, 116, 111]] [215, 247, 213, 223, 178, 187, 202, 199] = some 1 ∧
      ¬ Judged [idis [97, 117, 116, 111]] [215, 247, 213, 223, 178, 187, 202, 199] := by
  have hcheckf : checkf [idis [97, 117, 116, 111]] [215, 247, 213, 223, 178, 187, 202, 199] =
      some 1 := by decide
  refine ⟨hcheckf, fun ⟨r, hr, hsentence, _⟩ => ?_⟩
  obtain rfl := Option.some.inj (hcheckf.symm.trans hr)
  obtain ⟨v, hv⟩ := hsentence.mp (by decide)
  have htokens : tokens [215, 247, 213, 223, 178, 187, 202, 199] =
      [.word [215, 247, 213, 223, 178, 187, 202, 199]] := by decide +kernel
  rw [Sentence, htokens] at hv
  exact absurd hv.two_le (by decide)

end Regular

end Ytht
