import Mathlib.Data.List.Infix
import Ytht.Lib.Literal
import Ytht.Nju09.Formdata

/-!
# Ythtlib.Htmlfunc

Texts for the pages: `scriptstr` for a string literal of a script, `urlencode` for an address.

`scriptstr` takes a byte from 0x80 on for the first of two and copies the second as it is,
whatever the two are.  `scriptstr_literal_iff` says for which strings the literal is one.
-/

namespace Ytht

open Bytes Gbk

/-! ## scriptstr -/

/-- The loop of `scriptstr`, with `i` bytes written.  `db` is the first half of a character, which
is in the buffer, but the next byte can make a blank of it and the end takes it away. -/
def scriptLoop : Nat → Option UInt8 → List UInt8 → List UInt8
  | _, _, [] => []
  | i, some c0, c :: s =>
      if 1017 ≤ i then [] else (if c < 32 then 32 else c0) :: c :: scriptLoop (i + 1) none s
  | i, none, c :: s =>
      if 1017 ≤ i then []
      else if c = 39 then 92 :: 39 :: scriptLoop (i + 2) none s
      else if c = 47 then 92 :: 47 :: scriptLoop (i + 2) none s
      else if c = 92 then 92 :: 92 :: scriptLoop (i + 2) none s
      else if c = 13 then scriptLoop i none s
      else if c = 10 then 92 :: 110 :: scriptLoop (i + 2) none s
      else if 128 ≤ c then scriptLoop (i + 1) (some c) s
      else c :: scriptLoop (i + 1) none s

/-- `scriptstr` -/
def scriptstr (s : List UInt8) : List UInt8 := scriptLoop 0 none (cutAt 0 s)

/-! ## When it is a literal -/

/-- What `scriptstr` takes at a time: a byte, or a byte from 0x80 on with the next. -/
inductive Taken
  | one (c : UInt8)
  | two (c d : UInt8)

/-- What is written for it. -/
def Taken.bytes : Taken → List UInt8
  | .one c =>
      if c = 39 then [92, 39]
      else if c = 47 then [92, 47]
      else if c = 92 then [92, 92]
      else if c = 10 then [92, 110]
      else [c]
  | .two c d => [if d < 32 then 32 else c, d]

/-- What `scriptstr` takes from a string, as far as there is room in the buffer. -/
def taken : Nat → Option UInt8 → List UInt8 → List Taken
  | _, _, [] => []
  | i, some c0, c :: s => if 1017 ≤ i then [] else .two c0 c :: taken (i + 1) none s
  | i, none, c :: s =>
      if 1017 ≤ i then []
      else if c = 13 then taken i none s
      else if 128 ≤ c then taken (i + 1) (some c) s
      else .one c :: taken (i + (Taken.one c).bytes.length) none s

theorem scriptLoop_eq (i : Nat) (db : Option UInt8) (s : List UInt8) :
    scriptLoop i db s = (taken i db s).flatMap Taken.bytes := by
  induction s generalizing i db with
  | nil => rfl
  | cons c s ih =>
      cases db with
      | some c0 =>
          rw [scriptLoop, taken]
          split
          · rfl
          · rw [ih]
            rfl
      | none =>
          rw [scriptLoop, taken]
          repeat' split
          all_goals simp_all [Taken.bytes]

/-- Where a reader of the literal stands behind it, if the literal goes on. -/
def Taken.phase (p : LitState) : Taken → Option LitState
  | .one c =>
      if c = 39 then if p = .plain then some .plain else none
      else if c = 92 then some (if p = .plain then .plain else .escape)
      else some .plain
  | .two c d => if p ≠ .lead ∧ isFirst c = true ∧ isSecond d = true then some .plain else litFresh d

/-- The string, as it is taken apart, leaves no quote, new line or backslash open. -/
def ScriptSafe (s : List UInt8) : Prop :=
  ((taken 0 none (cutAt 0 s)).foldlM Taken.phase LitState.plain).any (fun q => decide (q ≠ .escape)) =
    true

/-- A byte is below 0x80 and no carriage return, and the first of two is not. -/
def Taken.Valid : Taken → Prop
  | .one c => c < 128 ∧ c ≠ 13
  | .two c _ => 128 ≤ c

theorem taken_valid (i : Nat) {db : Option UInt8} (hdb : ∀ c ∈ db, 128 ≤ c) (s : List UInt8) :
    ∀ x ∈ taken i db s, x.Valid := by
  induction s generalizing i db with
  | nil => exact fun x hx => absurd hx List.not_mem_nil
  | cons c s ih =>
      have hnone : ∀ c' ∈ (none : Option UInt8), 128 ≤ c' := fun c' hc' => by contradiction
      cases db with
      | some c0 =>
          rw [taken]
          split
          · exact fun x hx => absurd hx List.not_mem_nil
          · exact List.forall_mem_cons.mpr ⟨hdb c0 rfl, ih _ hnone⟩
      | none =>
          rw [taken]
          split
          · exact fun x hx => absurd hx List.not_mem_nil
          · split
            · exact ih _ hnone
            · next hcr =>
              split
              · next hhigh => exact ih _ fun c' hc' => by rwa [← Option.some.inj hc']
              · next hlow =>
                exact List.forall_mem_cons.mpr ⟨⟨UInt8.not_le.mp hlow, hcr⟩, ih _ hnone⟩

theorem isFirst_eq_false_of_lt {c : UInt8} (h : c < 128) : isFirst c = false := by
  simp only [isFirst, Bool.and_eq_false_iff, decide_eq_false_iff_not]
  grind

/-- Behind a byte that is nothing special. -/
theorem next_ordinary {c : UInt8} (hlow : c < 128) (hquote : c ≠ 39) (hline : c ≠ 10)
    (hback : c ≠ 92) (p : LitState) : litNext p c = some .plain := by
  have hfirst := isFirst_eq_false_of_lt hlow
  have hfresh : litFresh c = some .plain := by
    rw [litFresh, if_neg (not_or.mpr ⟨hquote, hline⟩), if_neg hback, hfirst,
      if_neg Bool.false_ne_true]
  cases p with
  | plain => exact hfresh
  | lead =>
      rw [litNext, hfresh]
      exact ite_self _
  | escape => rw [litNext, if_neg hline, hfirst, if_neg Bool.false_ne_true]

/-- Behind the first byte of two. -/
theorem next_high {c : UInt8} (hhigh : 128 ≤ c) (p : LitState) :
    litNext p c = some (if p ≠ .lead ∧ isFirst c = true then .lead else .plain) := by
  have hquote : c ≠ 39 ∧ c ≠ 10 ∧ c ≠ 92 := by grind
  have hfresh : litFresh c = some (if isFirst c = true then .lead else .plain) := by
    rw [litFresh, if_neg (not_or.mpr ⟨hquote.1, hquote.2.1⟩), if_neg hquote.2.2]
    split <;> rfl
  cases p with
  | plain =>
      rw [litNext, hfresh]
      simp
  | lead =>
      have hnever : ¬ (LitState.lead ≠ .lead ∧ isFirst c = true) := fun h => h.1 rfl
      rw [if_neg hnever, litNext]
      split
      · rfl
      · next hsecond =>
        -- only 0xFF is a high byte that is no second one
        have hfirst : isFirst c = false := by
          simp only [isSecond, isFirst, Bool.and_eq_true, Bool.and_eq_false_iff, decide_eq_true_eq,
            decide_eq_false_iff_not] at hsecond ⊢
          grind
        rw [hfresh, hfirst, if_neg Bool.false_ne_true]
  | escape =>
      rw [litNext, if_neg hquote.2.1]
      cases isFirst c <;> rfl

/-- **What is written** for a piece takes a reader where `Taken.phase` says. -/
theorem litRun_bytes {x : Taken} (hx : x.Valid) (p : LitState) : litRun p x.bytes = x.phase p := by
  cases x with
  | one c =>
      rw [Taken.bytes, Taken.phase]
      split
      · cases p <;> rfl
      · next hquote =>
        split
        · next hslash =>
          rw [if_neg (by rw [hslash]; decide)]
          cases p <;> rfl
        · split
          · cases p <;> rfl
          · next hback =>
            split
            · cases p <;> rfl
            · next hline =>
              rw [litRun_one, next_ordinary hx.1 hquote hline hback]
  | two c d =>
      rw [Taken.bytes, Taken.phase, litRun_two]
      split
      · next hcontrol =>
        have hsecond : isSecond d = false := by
          simp only [isSecond, Bool.and_eq_false_iff, decide_eq_false_iff_not]
          grind
        rw [next_ordinary (by decide) (by decide) (by decide) (by decide), hsecond,
          if_neg (by simp)]
        rfl
      · rw [next_high hx]
        by_cases hlead : p ≠ .lead ∧ isFirst c = true
        · rw [if_pos hlead]
          have hnext : litNext .lead d = if p ≠ .lead ∧ isFirst c = true ∧ isSecond d = true then
              some .plain else litFresh d := by simp [litNext, hlead.1, hlead.2]
          rw [← hnext]
          rfl
        · rw [if_neg hlead, if_neg fun h => hlead ⟨h.1, h.2.1⟩]
          rfl

theorem litRun_flatMap {xs : List Taken} (h : ∀ x ∈ xs, x.Valid) (p : LitState) :
    litRun p (xs.flatMap Taken.bytes) = xs.foldlM Taken.phase p := by
  induction xs generalizing p with
  | nil => rfl
  | cons x xs ih =>
      obtain ⟨hx, hxs⟩ := List.forall_mem_cons.mp h
      rw [List.flatMap_cons, litRun_append, litRun_bytes hx, List.foldlM_cons]
      exact congrArg (Option.bind _) (funext fun q => ih hxs q)

/-- A slash that is written has a byte before it that is no `<`. -/
theorem no_close {xs : List Taken} (h : ∀ x ∈ xs, x.Valid) :
    (xs.flatMap Taken.bytes).head? ≠ some 47 ∧ ¬ [60, 47] <:+: xs.flatMap Taken.bytes := by
  induction xs with
  | nil => exact ⟨by simp, by simp⟩
  | cons x xs ih =>
      obtain ⟨hx, hxs⟩ := List.forall_mem_cons.mp h
      obtain ⟨hhead, hinfix⟩ := ih hxs
      rw [List.flatMap_cons]
      generalize xs.flatMap Taken.bytes = rest at hhead hinfix
      -- one byte that is no slash, or two of which the first is neither
      have hone : ∀ c, c ≠ 47 → (c :: rest).head? ≠ some 47 ∧ ¬ [60, 47] <:+: c :: rest := by
        intro c hc
        refine ⟨by simpa using hc, fun hin => ?_⟩
        rcases List.infix_cons_iff.mp hin with hprefix | hin
        · obtain ⟨t, ht⟩ := (List.cons_prefix_cons.mp hprefix).2
          rw [← ht] at hhead
          exact hhead rfl
        · exact hinfix hin
      have htwo : ∀ c d, c ≠ 47 → c ≠ 60 →
          (c :: d :: rest).head? ≠ some 47 ∧ ¬ [60, 47] <:+: c :: d :: rest := by
        intro c d hslash hless
        refine ⟨by simpa using hslash, fun hin => ?_⟩
        rcases List.infix_cons_iff.mp hin with hprefix | hin
        · exact hless (List.cons_prefix_cons.mp hprefix).1.symm
        · rcases List.infix_cons_iff.mp hin with hprefix | hin
          · obtain ⟨t, ht⟩ := (List.cons_prefix_cons.mp hprefix).2
            rw [← ht] at hhead
            exact hhead rfl
          · exact hinfix hin
      cases x with
      | one c =>
          rw [Taken.bytes]
          repeat' split
          · exact htwo _ _ (by decide) (by decide)
          · exact htwo _ _ (by decide) (by decide)
          · exact htwo _ _ (by decide) (by decide)
          · exact htwo _ _ (by decide) (by decide)
          · next hslash _ _ => exact hone c hslash
      | two c d =>
          have hc : 128 ≤ c := hx
          rw [Taken.bytes]
          split
          · exact htwo _ _ (by decide) (by decide)
          · exact htwo _ _ (by grind) (by grind)

/-- **When `scriptstr` writes a literal**, without the end of a tag in it. -/
theorem scriptstr_literal_iff (s : List UInt8) :
    IsLiteral (scriptstr s) ∧ ¬ [60, 47] <:+: scriptstr s ↔ ScriptSafe s := by
  have hnone : ∀ c ∈ (none : Option UInt8), 128 ≤ c := fun c hc => by contradiction
  have hvalid := taken_valid 0 hnone (cutAt 0 s)
  have hliteral : IsLiteral (scriptstr s) ↔ ScriptSafe s := by
    rw [isLiteral_iff, scriptstr, scriptLoop_eq, ScriptSafe, ← litRun_flatMap hvalid]
    change lit .plain _ = true ↔ _
    rw [lit_eq_litRun]
  rw [hliteral, and_iff_left]
  rw [scriptstr, scriptLoop_eq]
  exact (no_close hvalid).2

/-- The first half of a character and a quote: the quote stands alone. -/
theorem scriptstr_quote : scriptstr [176, 39] = [176, 39] ∧ ¬ IsLiteral (scriptstr [176, 39]) := by
  refine ⟨by decide, ?_⟩
  rw [isLiteral_iff]
  decide

/-! ## urlencode -/

/-- A digit of `%02X`. -/
def hexDigit (n : Nat) : UInt8 := UInt8.ofNat (if n < 10 then 48 + n else 55 + n)

/-- What `urlencode` leaves as it is. -/
def urlPlain (c : UInt8) : Bool :=
  (97 ≤ c && c ≤ 122) || (65 ≤ c && c ≤ 90) || (48 ≤ c && c ≤ 57) || c == 45 || c == 95 ||
    c == 46 || c == 13 || c == 10

/-- What is written for a byte. -/
def urlByte (c : UInt8) : List UInt8 :=
  if urlPlain c then [c] else [37, hexDigit (c.toNat / 16), hexDigit (c.toNat % 16)]

/-- The loop of `urlencode`, with `pos` bytes written. -/
def urlLoop (pos : Nat) : List UInt8 → List UInt8
  | [] => []
  | c :: s => if 253 ≤ pos then [] else urlByte c ++ urlLoop (pos + (urlByte c).length) s

/-- `urlencode` -/
def urlencode (s : List UInt8) : List UInt8 := urlLoop 0 (cutAt 0 s)

/-- The encoded form of a string, of any length. -/
def urlForm (s : List UInt8) : List UInt8 := s.flatMap urlByte

/-- What the loop takes from the string. -/
def urlTaken (pos : Nat) : List UInt8 → List UInt8
  | [] => []
  | c :: s => if 253 ≤ pos then [] else c :: urlTaken (pos + (urlByte c).length) s

theorem urlLoop_eq (pos : Nat) (s : List UInt8) : urlLoop pos s = urlForm (urlTaken pos s) := by
  induction s generalizing pos with
  | nil => rfl
  | cons c s ih =>
      rw [urlLoop, urlTaken]
      split
      · rfl
      · rw [ih]
        rfl

theorem urlTaken_prefix (pos : Nat) (s : List UInt8) : urlTaken pos s <+: s := by
  induction s generalizing pos with
  | nil => exact List.prefix_rfl
  | cons c s ih =>
      rw [urlTaken]
      split
      · exact List.nil_prefix
      · exact List.cons_prefix_cons.mpr ⟨rfl, ih _⟩

/-- All of it is taken if there is room for three bytes when the last one comes. -/
theorem urlTaken_eq_iff (pos : Nat) (s : List UInt8) :
    urlTaken pos s = s ↔ s = [] ∨ pos + (urlForm s.dropLast).length < 253 := by
  induction s generalizing pos with
  | nil => simp [urlTaken]
  | cons c s ih =>
      have hform : (urlForm (c :: s)).length = (urlByte c).length + (urlForm s).length := by
        rw [urlForm, List.flatMap_cons, List.length_append]
        rfl
      rw [urlTaken]
      split
      · next hfull =>
        refine iff_of_false (List.cons_ne_nil c s).symm ?_
        rw [not_or]
        exact ⟨List.cons_ne_nil c s, by omega⟩
      · next hroom =>
        rw [List.cons_inj_right, ih, or_iff_right (List.cons_ne_nil c s)]
        cases s with
        | nil => simpa [urlForm] using hroom
        | cons d s =>
            rw [or_iff_right (List.cons_ne_nil d s), List.dropLast_cons_cons]
            have hlen : (urlForm (c :: (d :: s).dropLast)).length =
                (urlByte c).length + (urlForm (d :: s).dropLast).length := by
              rw [urlForm, List.flatMap_cons, List.length_append]
              rfl
            rw [hlen, Nat.add_assoc]

/-- The digits of a byte are read back. -/
theorem hexDigit_spec : ∀ n < 256,
    UInt8.ofNat (to16 (hexDigit (n / 16)) * 16 + to16 (hexDigit (n % 16))) = UInt8.ofNat n := by
  decide +kernel

/-- **One byte** there and back. -/
theorem unhcodeLoop_urlByte (c : UInt8) (s : List UInt8) :
    unhcodeLoop (urlByte c ++ s) = c :: unhcodeLoop s := by
  unfold urlByte
  split
  · next hplain =>
    refine unhcodeLoop_other ?_ ?_ s
    all_goals
      rintro rfl
      exact absurd hplain (by decide)
  · have hdigits := hexDigit_spec c.toNat c.toNat_lt
    rw [UInt8.ofNat_toNat] at hdigits
    rw [List.cons_append, List.cons_append, List.cons_append, List.nil_append, unhcodeLoop,
      if_neg (by decide), if_pos rfl, hdigits]

theorem unhcodeLoop_urlForm (s : List UInt8) : unhcodeLoop (urlForm s) = s := by
  induction s with
  | nil => rfl
  | cons c s ih =>
      rw [urlForm, List.flatMap_cons, unhcodeLoop_urlByte]
      exact congrArg _ ih

/-- **The round trip**: what is decoded is what the loop has taken from the string, each byte with
its whole escape; the string is whole exactly if there is room for an escape when its last byte
comes. -/
theorem unhcode_urlencode (s : List UInt8) : unhcode (urlencode s) <+: s ∧
    urlencode s = urlForm (unhcode (urlencode s)) ∧
    (unhcode (urlencode s) = s ↔ 0 ∉ s ∧ (urlForm s.dropLast).length < 253) := by
  have hcut : cutAt 0 s <+: s := List.takeWhile_prefix _
  have hzero : 0 ∉ cutAt 0 s := fun h => by simpa using List.mem_takeWhile_imp h
  have htaken := urlTaken_prefix 0 (cutAt 0 s)
  have hcode : unhcode (urlencode s) = urlTaken 0 (cutAt 0 s) := by
    rw [urlencode, urlLoop_eq, unhcode, unhcodeLoop_urlForm,
      cutAt_of_notMem fun h => hzero (htaken.subset h)]
  rw [hcode]
  refine ⟨htaken.trans hcut, urlLoop_eq 0 _, ?_⟩
  constructor
  · intro heq
    have hwhole : cutAt 0 s = s :=
      (hcut.eq_of_length_le (by rw [← congrArg List.length heq]; exact htaken.length_le))
    rw [hwhole] at heq hzero
    refine ⟨hzero, ?_⟩
    rcases (urlTaken_eq_iff 0 s).mp heq with rfl | hroom
    · decide
    · rwa [Nat.zero_add] at hroom
  · rintro ⟨hs, hroom⟩
    rw [cutAt_of_notMem hs]
    exact (urlTaken_eq_iff 0 s).mpr (Or.inr (by rwa [Nat.zero_add]))

/-- A form of 254 bytes would fit in the buffer, with the zero behind it, and is cut. -/
theorem urlencode_cut : ¬ ∀ s : List UInt8, 0 ∉ s → (urlForm s).length + 1 ≤ 256 →
    unhcode (urlencode s) = s := by
  intro h
  have hs := h (List.replicate 254 97) (by decide +kernel) (by decide +kernel)
  revert hs
  decide +kernel

end Ytht
