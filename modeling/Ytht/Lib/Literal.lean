import Mathlib.Data.List.Basic
import Ytht.Lib.Gbk

/-!
# Lib.Literal

A string literal in a text that is read as GBK: a quote ends it unless a backslash is before
it, and it is on one line.

`inside` says this of the characters between the quotes; byte by byte it is a machine of three
states (`lit_eq_litRun`).
-/

namespace Gbk

/-- The characters of a text. -/
def chars : List UInt8 → List (List UInt8)
  | [] => []
  | [c] => [[c]]
  | c :: d :: s => if isFirst c && isSecond d then [c, d] :: chars s else [c] :: chars (d :: s)

/-- The characters can stand between the quotes of a literal: no quote and no backslash is left
for the one that ends it, and there is no new line. -/
def inside : List (List UInt8) → Bool
  | [] => true
  | [c] => c ≠ [39] && c ≠ [10] && c ≠ [92]
  | c :: d :: cs =>
      if c = [39] ∨ c = [10] then false
      else if c = [92] then d ≠ [10] && inside cs
      else inside (d :: cs)

/-- The text between two quotes is a literal. -/
def IsLiteral (text : List UInt8) : Prop :=
  ∃ cs, chars (39 :: text ++ [39]) = [39] :: cs ++ [[39]] ∧ inside cs = true

/-- Where a reader stands between two bytes: at a character, behind the first byte of one, or
behind a backslash. -/
inductive LitState
  | plain | lead | escape
  deriving DecidableEq

/-- Behind a byte that begins a character. -/
def litFresh (d : UInt8) : Option LitState :=
  if d = 39 ∨ d = 10 then none
  else if d = 92 then some .escape
  else if isFirst d then some .lead
  else some .plain

/-- Behind the next byte. -/
def litNext : LitState → UInt8 → Option LitState
  | .plain, d => litFresh d
  | .lead, d => if isSecond d then some .plain else litFresh d
  | .escape, d => if d = 10 then none else if isFirst d then some .lead else some .plain

/-- The rest of a literal. -/
def lit : LitState → List UInt8 → Bool
  | .plain, s => inside (chars s)
  | .lead, s => inside (chars (0x81 :: s))
  | .escape, s => inside ([92] :: chars s)

theorem chars_cons_cons (c d : UInt8) (s : List UInt8) : chars (c :: d :: s) =
    if isFirst c && isSecond d then [c, d] :: chars s else [c] :: chars (d :: s) := rfl

theorem chars_cons {c : UInt8} (h : isFirst c = false) (s : List UInt8) :
    chars (c :: s) = [c] :: chars s := by
  cases s with
  | nil => rfl
  | cons d s => rw [chars_cons_cons, h, Bool.false_and, if_neg Bool.false_ne_true]

/-- The quote at the end is a character of its own. -/
theorem chars_append_quote (s : List UInt8) : chars (s ++ [39]) = chars s ++ [[39]] := by
  induction s using chars.induct with
  | case1 => rfl
  | case2 c =>
      have hsecond : isSecond 39 = false := rfl
      rw [List.singleton_append, chars_cons_cons, hsecond, Bool.and_false]
      rfl
  | case3 c d s hpair ih =>
      rw [List.cons_append, List.cons_append, chars_cons_cons, chars_cons_cons, if_pos hpair,
        if_pos hpair, ih, List.cons_append]
  | case4 c d s hpair ih =>
      rw [List.cons_append, List.cons_append, chars_cons_cons, chars_cons_cons, if_neg hpair,
        if_neg hpair, ← List.cons_append, ih, List.cons_append]

theorem isLiteral_iff (text : List UInt8) : IsLiteral text ↔ inside (chars text) = true := by
  have hchars : chars (39 :: text ++ [39]) = [39] :: chars text ++ [[39]] := by
    rw [chars_append_quote, chars_cons rfl]
  rw [IsLiteral, hchars]
  constructor
  · rintro ⟨cs, hcs, hinside⟩
    rwa [List.append_cancel_right (List.cons.inj hcs).2]
  · intro hinside
    exact ⟨_, rfl, hinside⟩

theorem inside_cons {c : List UInt8} (hquote : c ≠ [39]) (hline : c ≠ [10]) (hback : c ≠ [92])
    (cs : List (List UInt8)) : inside (c :: cs) = inside cs := by
  cases cs with
  | nil => simp [inside, hquote, hline, hback]
  | cons d cs => rw [inside, if_neg (not_or.mpr ⟨hquote, hline⟩), if_neg hback]

theorem inside_quote {c : List UInt8} (h : c = [39] ∨ c = [10]) (cs : List (List UInt8)) :
    inside (c :: cs) = false := by
  cases cs with
  | nil => rcases h with rfl | rfl <;> rfl
  | cons d cs => rw [inside, if_pos h]

theorem inside_backslash (d : List UInt8) (cs : List (List UInt8)) :
    inside ([92] :: d :: cs) = (decide (d ≠ [10]) && inside cs) := rfl

theorem isFirst_ne {c : UInt8} (h : isFirst c = true) : c ≠ 39 ∧ c ≠ 10 ∧ c ≠ 92 := by
  refine ⟨?_, ?_, ?_⟩
  all_goals
    rintro rfl
    exact absurd h (by decide)

/-- Which first byte it is does not matter. -/
theorem inside_chars_first {c : UInt8} (h : isFirst c = true) (s : List UInt8) :
    inside (chars (c :: s)) = lit .lead s := by
  obtain ⟨hquote, hline, hback⟩ := isFirst_ne h
  have hone : ∀ cs, inside ([c] :: cs) = inside ([0x81] :: cs) := by
    intro cs
    rw [inside_cons (by simpa using hquote) (by simpa using hline) (by simpa using hback),
      inside_cons (by decide) (by decide) (by decide)]
  have h81 : isFirst 0x81 = true := rfl
  rw [lit]
  cases s with
  | nil => exact hone []
  | cons d s =>
      rw [chars_cons_cons, chars_cons_cons, h, h81, Bool.true_and]
      split
      · rw [inside_cons (by simp) (by simp) (by simp), inside_cons (by simp) (by simp) (by simp)]
      · exact hone _

theorem lit_plain_cons (d : UInt8) (s : List UInt8) :
    lit .plain (d :: s) = (litFresh d).any (lit · s) := by
  unfold litFresh
  split
  · next hd =>
    have hfirst : isFirst d = false := by rcases hd with rfl | rfl <;> rfl
    rw [lit, chars_cons hfirst, inside_quote (by simpa using hd)]
    rfl
  · next hd =>
    obtain ⟨hquote, hline⟩ := not_or.mp hd
    split
    · next hback =>
      rw [hback, lit, chars_cons rfl]
      rfl
    · next hback =>
      split
      · next hfirst => exact inside_chars_first hfirst s
      · next hfirst =>
        rw [lit, chars_cons (Bool.not_eq_true _ ▸ hfirst),
          inside_cons (by simpa using hquote) (by simpa using hline) (by simpa using hback)]
        rfl

/-- **One byte** of the literal. -/
theorem lit_cons (p : LitState) (d : UInt8) (s : List UInt8) :
    lit p (d :: s) = (litNext p d).any (lit · s) := by
  cases p with
  | plain => exact lit_plain_cons d s
  | lead =>
      have h81 : isFirst 0x81 = true := rfl
      rw [lit, chars_cons_cons, h81, Bool.true_and, litNext]
      split
      · exact inside_cons (by simp) (by simp) (by simp) _
      · rw [inside_cons (by decide) (by decide) (by decide), ← lit_plain_cons]
        rfl
  | escape =>
      rw [lit, litNext]
      cases hfirst : isFirst d with
      | false =>
          rw [chars_cons hfirst, inside_backslash]
          by_cases hline : d = 10
          · rw [if_pos hline, hline]
            rfl
          · rw [if_neg hline, if_neg Bool.false_ne_true]
            simp [hline, lit]
      | true =>
          obtain ⟨hquote, hline, hback⟩ := isFirst_ne hfirst
          rw [if_neg hline, if_pos rfl, Option.any_some, ← inside_chars_first hfirst]
          -- the character behind the backslash is no new line, whether it has one byte or two
          have hskip : ∀ c cs, c.head? = some d → inside ([92] :: c :: cs) = inside (c :: cs) := by
            intro c cs hc
            have hne : ∀ b, b ≠ d → c ≠ [b] := by
              rintro b hb rfl
              exact hb (Option.some.inj hc)
            rw [inside_cons (hne 39 hquote.symm) (hne 10 hline.symm) (hne 92 hback.symm),
              inside_backslash, decide_eq_true (hne 10 hline.symm), Bool.true_and]
          cases s with
          | nil => exact hskip [d] [] rfl
          | cons e s =>
              rw [chars_cons_cons]
              split
              · exact hskip _ _ rfl
              · exact hskip _ _ rfl

theorem lit_nil (p : LitState) : lit p [] = decide (p ≠ .escape) := by
  cases p <;> decide

/-- Read to the end, byte by byte. -/
def litRun (p : LitState) (s : List UInt8) : Option LitState := s.foldlM litNext p

theorem litRun_one (p : LitState) (d : UInt8) : litRun p [d] = litNext p d := by
  rw [litRun, List.foldlM_cons]
  cases litNext p d <;> rfl

theorem litRun_append (p : LitState) (s t : List UInt8) :
    litRun p (s ++ t) = (litRun p s).bind (litRun · t) :=
  List.foldlM_append

theorem litRun_two (p : LitState) (c d : UInt8) :
    litRun p [c, d] = (litNext p c).bind fun q => litNext q d := by
  change litRun p ([c] ++ [d]) = _
  rw [litRun_append, litRun_one]
  exact congrArg _ (funext fun q => litRun_one q d)

/-- **The literal as a machine**: it stands at the end behind no backslash. -/
theorem lit_eq_litRun (p : LitState) (s : List UInt8) :
    lit p s = (litRun p s).any fun q => decide (q ≠ .escape) := by
  induction s generalizing p with
  | nil => exact lit_nil p
  | cons d s ih =>
      rw [lit_cons, litRun, List.foldlM_cons]
      cases litNext p d with
      | none => rfl
      | some q => exact ih q

end Gbk
