import Mathlib.Data.List.Basic
import Ytht.Lib.Bytes

/-!
# Ythtlib.Ansi

Taking the colour codes out of a line.  A code is an `ESC`, some characters, and
a letter or `@` that ends it; a line may also end inside a code.

`filteransi` tests for the letters strictly between `a` and `z` and between `A`
and `Z`, so the four letters at the ends do not end a code for it: it goes on
deleting to the next one.  `stripped_filteransi_iff` says when that does not
show.
-/

namespace Ytht

open Bytes

/-- The terminator test of `filteransi`. -/
def endsCode (ch : UInt8) : Bool := (97 < ch && ch < 122) || (65 < ch && ch < 90) || ch == 64

/-- The loop of `filteransi`, which writes behind what it reads. -/
def filteransiLoop : Bool → List UInt8 → List UInt8
  | _, [] => []
  | stat, ch :: line =>
      if stat || ch == 27 then filteransiLoop (!endsCode ch) line
      else ch :: filteransiLoop false line

/-- `filteransi`. -/
def filteransi (line : List UInt8) : List UInt8 := filteransiLoop false line

/-! ## Lines without their codes -/

/-- The characters that end a code. -/
def isFinal (ch : UInt8) : Bool := isAlpha ch || ch == 64

/-- What is left of a line without its codes. -/
inductive Stripped : List UInt8 → List UInt8 → Prop
  | nil : Stripped [] []
  | keep (ch : UInt8) {line out : List UInt8} (hch : ch ≠ 27) (h : Stripped line out) :
      Stripped (ch :: line) (ch :: out)
  | code (params : List UInt8) (final : UInt8) {line out : List UInt8}
      (hparams : ∀ p ∈ params, isFinal p = false) (hfinal : isFinal final = true)
      (h : Stripped line out) : Stripped (27 :: (params ++ final :: line)) out
  | unfinished (params : List UInt8) (hparams : ∀ p ∈ params, isFinal p = false) :
      Stripped (27 :: params) []

/-- The loop that would take out the codes. -/
def strip : Bool → List UInt8 → List UInt8
  | _, [] => []
  | stat, ch :: line =>
      if stat || ch == 27 then strip (!isFinal ch) line else ch :: strip false line

theorem strip_params {params : List UInt8} (hparams : ∀ p ∈ params, isFinal p = false)
    (rest : List UInt8) : strip true (params ++ rest) = strip true rest := by
  induction params with
  | nil => rfl
  | cons p params ih =>
      rw [List.forall_mem_cons] at hparams
      rw [List.cons_append, strip, Bool.true_or, if_pos rfl, hparams.1]
      exact ih hparams.2

theorem strip_esc (line : List UInt8) : strip false (27 :: line) = strip true line := rfl

/-- A line has one line without its codes. -/
theorem Stripped.eq_strip {line out : List UInt8} (h : Stripped line out) :
    strip false line = out := by
  induction h with
  | nil => rfl
  | keep ch hch h ih =>
      rw [strip, Bool.false_or, if_neg (by simpa using hch), ih]
  | code params final hparams hfinal h ih =>
      rw [strip_esc, strip_params hparams, strip, Bool.true_or, if_pos rfl, hfinal]
      exact ih
  | unfinished params hparams =>
      have hrest := strip_params hparams []
      rw [List.append_nil] at hrest
      rw [strip_esc, hrest]
      rfl

/-- A code goes on over a character that does not end it. -/
theorem Stripped.param {line out : List UInt8} (h : Stripped (27 :: line) out) {ch : UInt8}
    (hch : isFinal ch = false) : Stripped (27 :: ch :: line) out := by
  cases h with
  | keep _ hne _ => exact absurd rfl hne
  | code params final hparams hfinal h =>
      rw [← List.cons_append]
      exact .code (ch :: params) final (List.forall_mem_cons.mpr ⟨hch, hparams⟩) hfinal h
  | unfinished _ hparams => exact .unfinished (ch :: line) (List.forall_mem_cons.mpr ⟨hch, hparams⟩)

theorem stripped_strip (line : List UInt8) :
    Stripped line (strip false line) ∧ Stripped (27 :: line) (strip true line) := by
  induction line with
  | nil => exact ⟨.nil, .unfinished [] (by simp)⟩
  | cons ch line ih =>
      constructor
      · rw [strip, Bool.false_or]
        split
        · next hesc =>
          rw [beq_iff_eq.mp hesc]
          exact ih.2
        · next hne => exact .keep ch (by simpa using hne) ih.1
      · rw [strip, Bool.true_or, if_pos rfl]
        cases hch : isFinal ch with
        | true => exact .code [] ch (by simp) hch ih.1
        | false => exact ih.2.param hch

/-! ## The four letters -/

/-- The letters that the comparisons leave out. -/
def edgeLetters : List UInt8 := [97, 122, 65, 90]

theorem endsCode_ofNat : ∀ n < 256, endsCode (UInt8.ofNat n) =
    (isFinal (UInt8.ofNat n) && !edgeLetters.contains (UInt8.ofNat n)) := by
  decide +kernel

theorem endsCode_eq (ch : UInt8) : endsCode ch = (isFinal ch && !edgeLetters.contains ch) := by
  have h := endsCode_ofNat ch.toNat ch.toNat_lt
  rwa [UInt8.ofNat_toNat] at h

theorem isFinal_of_edge {ch : UInt8} (h : ch ∈ edgeLetters) : isFinal ch = true := by
  simp only [edgeLetters, List.mem_cons, List.not_mem_nil, or_false] at h
  rcases h with rfl | rfl | rfl | rfl <;> decide

/-- A code that ends with `a`, `z`, `A` or `Z` is the last thing in the line, or
stands right before another code. -/
def EdgesApart (line : List UInt8) : Prop :=
  ∀ pre params final ch rest, line = pre ++ 27 :: (params ++ final :: ch :: rest) →
    (∀ p ∈ params, isFinal p = false) → final ∈ edgeLetters → ch = 27

/-- The same of a code that the line begins in the middle of. -/
def EdgeApart (line : List UInt8) : Prop :=
  ∀ params final ch rest, line = params ++ final :: ch :: rest →
    (∀ p ∈ params, isFinal p = false) → final ∈ edgeLetters → ch = 27

theorem edgesApart_nil : EdgesApart [] := by
  intro pre params final ch rest h
  simp at h

theorem edgesApart_cons (ch : UInt8) (line : List UInt8) :
    EdgesApart (ch :: line) ↔ (ch = 27 → EdgeApart line) ∧ EdgesApart line := by
  constructor
  · intro h
    constructor
    · rintro rfl params final ch rest rfl hparams hfinal
      exact h [] params final ch rest rfl hparams hfinal
    · rintro pre params final ch' rest rfl hparams hfinal
      exact h (ch :: pre) params final ch' rest rfl hparams hfinal
  · rintro ⟨hhead, htail⟩ pre params final ch' rest heq hparams hfinal
    cases pre with
    | nil =>
        rw [List.nil_append, List.cons.injEq] at heq
        exact hhead heq.1 params final ch' rest heq.2 hparams hfinal
    | cons c pre =>
        rw [List.cons_append, List.cons.injEq] at heq
        exact htail pre params final ch' rest heq.2 hparams hfinal

theorem edgeApart_nil : EdgeApart [] := by
  intro params final ch rest h
  simp at h

theorem edgeApart_param {ch : UInt8} (hch : isFinal ch = false) (line : List UInt8) :
    EdgeApart (ch :: line) ↔ EdgeApart line := by
  constructor
  · rintro h params final ch' rest rfl hparams hfinal
    exact h (ch :: params) final ch' rest rfl (List.forall_mem_cons.mpr ⟨hch, hparams⟩) hfinal
  · intro h params final ch' rest heq hparams hfinal
    cases params with
    | nil =>
        rw [List.nil_append, List.cons.injEq] at heq
        rw [heq.1, isFinal_of_edge hfinal] at hch
        contradiction
    | cons p params =>
        rw [List.cons_append, List.cons.injEq] at heq
        exact h params final ch' rest heq.2 (List.forall_mem_cons.mp hparams).2 hfinal

theorem edgeApart_final {ch : UInt8} (hch : isFinal ch = true) (line : List UInt8) :
    EdgeApart (ch :: line) ↔ (ch ∈ edgeLetters → ∀ c rest, line = c :: rest → c = 27) := by
  constructor
  · rintro h hedge c rest rfl
    exact h [] ch c rest rfl (by simp) hedge
  · intro h params final ch' rest heq hparams hfinal
    cases params with
    | nil =>
        rw [List.nil_append, List.cons.injEq] at heq
        exact h (heq.1 ▸ hfinal) ch' rest heq.2
    | cons p params =>
        rw [List.cons_append, List.cons.injEq] at heq
        rw [heq.1, (List.forall_mem_cons.mp hparams).1] at hch
        contradiction

/-! ## What filteransi deletes -/

/-- The loop of the source deletes at least the codes. -/
theorem length_filteransiLoop_le (line : List UInt8) {stat stat' : Bool} (h : stat → stat') :
    (filteransiLoop stat' line).length ≤ (strip stat line).length := by
  induction line generalizing stat stat' with
  | nil => simp [filteransiLoop, strip]
  | cons ch line ih =>
      rw [filteransiLoop, strip]
      by_cases hin : (stat || ch == 27) = true
      · rw [if_pos hin, if_pos (by cases stat <;> simp_all)]
        refine ih fun hfinal => ?_
        rw [endsCode_eq]
        simp_all
      · rw [if_neg hin, List.length_cons]
        split
        · exact Nat.le_succ_of_le (ih (by simp))
        · exact Nat.succ_le_succ (ih id)

theorem filteransiLoop_esc (stat : Bool) (line : List UInt8) :
    filteransiLoop stat (27 :: line) = filteransiLoop true line := by
  rw [filteransiLoop, beq_self_eq_true, Bool.or_true, if_pos rfl]
  rfl

/-- Behind a letter that does not end the code for `filteransi`, a character is
lost unless it begins another code. -/
theorem filteransiLoop_true_eq_iff {line : List UInt8}
    (ih : filteransiLoop false line = strip false line ↔ EdgesApart line) :
    filteransiLoop true line = strip false line ↔
      (∀ c rest, line = c :: rest → c = 27) ∧ EdgesApart line := by
  cases line with
  | nil => exact iff_of_true rfl ⟨by simp, edgesApart_nil⟩
  | cons c rest =>
      by_cases hc : c = 27
      · subst hc
        rw [← ih, filteransiLoop_esc, filteransiLoop_esc]
        simp
      · have hle : (filteransiLoop true (c :: rest)).length ≤ (strip false rest).length := by
          rw [filteransiLoop, Bool.true_or, if_pos rfl]
          exact length_filteransiLoop_le rest (by simp)
        constructor
        · intro heq
          rw [heq, strip, Bool.false_or, if_neg (by simpa using hc), List.length_cons] at hle
          omega
        · rintro ⟨hhead, -⟩
          exact absurd (hhead c rest rfl) hc

theorem filteransiLoop_eq_iff (line : List UInt8) :
    (filteransiLoop false line = strip false line ↔ EdgesApart line) ∧
      (filteransiLoop true line = strip true line ↔ EdgeApart line ∧ EdgesApart line) := by
  induction line with
  | nil => exact ⟨iff_of_true rfl edgesApart_nil, iff_of_true rfl ⟨edgeApart_nil, edgesApart_nil⟩⟩
  | cons ch line ih =>
      constructor
      · by_cases hesc : ch = 27
        · subst hesc
          rw [filteransiLoop_esc, strip_esc, ih.2, edgesApart_cons]
          simp
        · rw [filteransiLoop, strip, Bool.false_or, if_neg (by simpa using hesc),
            if_neg (by simpa using hesc), List.cons.injEq, ih.1, edgesApart_cons]
          simp [hesc]
      · rw [filteransiLoop, strip, Bool.true_or, if_pos rfl, if_pos rfl, endsCode_eq,
          edgesApart_cons]
        cases hch : isFinal ch with
        | false =>
            rw [edgeApart_param hch]
            simp only [Bool.false_and, Bool.not_false, ih.2]
            tauto
        | true =>
            have hne : ch ≠ 27 := by
              rintro rfl
              revert hch
              decide
            rw [edgeApart_final hch]
            by_cases hedge : ch ∈ edgeLetters
            · simp only [List.contains_iff_mem.mpr hedge, hedge, hne, false_implies, true_and,
                true_implies, Bool.and_false, Bool.not_false, Bool.not_true]
              exact filteransiLoop_true_eq_iff ih.1
            · simp [hedge, hne, ih.1]

/-- **`filteransi` deletes the codes and nothing else** exactly when each code that
ends with one of the four letters has nothing or another code behind it. -/
theorem stripped_filteransi_iff (line : List UInt8) :
    Stripped line (filteransi line) ↔ EdgesApart line := by
  rw [← (filteransiLoop_eq_iff line).1]
  constructor
  · exact fun h => h.eq_strip.symm
  · intro h
    rw [filteransi, h]
    exact (stripped_strip line).1

/-- A code that ends with `z`: the `h` behind it goes too. -/
theorem filteransi_swallows : ¬ ∀ line, Stripped line (filteransi line) := by
  intro h
  have heq := (h [27, 91, 50, 122, 104, 105]).eq_strip
  revert heq
  decide

end Ytht
