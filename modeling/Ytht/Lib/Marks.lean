import Mathlib.Data.List.Basic
import Mathlib.Data.List.Infix

/-!
# Lib.Marks

Texts with marks in them.  A mark is a word, and a reader goes from left to right: where a mark
that it allows begins it takes the whole word, and everything else is a character.  What it
allows may change with the marks it has read.

`scan_write` says when a text that was put together from marks and characters is taken apart
into the same marks and characters again: no character begins a mark together with what
follows it (`Clean`).
-/

namespace Marks

/-- A reader of the marks `μ`, which are words over `α`, with states `σ`. -/
structure Reader (σ μ α : Type) where
  word : μ → List α
  allowed : σ → μ → Prop
  next : σ → μ → σ
  /-- The mark that the text begins with. -/
  reads : σ → List α → Option μ
  reads_iff : ∀ u s m, reads u s = some m ↔ allowed u m ∧ word m <+: s
  word_ne_nil : ∀ m, word m ≠ []

namespace Reader

variable {σ μ α : Type} (r : Reader σ μ α)

/-- The marks and characters of a text. -/
def scan : σ → List α → List (μ ⊕ α)
  | _, [] => []
  | u, c :: s =>
      match r.reads u (c :: s) with
      | some m => .inl m :: scan (r.next u m) (s.drop ((r.word m).length - 1))
      | none => .inr c :: scan u s
termination_by _ s => s.length
decreasing_by
  · simp only [List.length_drop, List.length_cons]
    omega
  · simp

/-- The text of marks and characters. -/
def write (ps : List (μ ⊕ α)) : List α := ps.flatMap (Sum.elim r.word fun c => [c])

/-- Every mark is allowed where it stands, and no character begins one. -/
def Clean : σ → List (μ ⊕ α) → Prop
  | _, [] => True
  | u, .inl m :: ps => r.allowed u m ∧ Clean (r.next u m) ps
  | u, .inr c :: ps => r.reads u (c :: r.write ps) = none ∧ Clean u ps

@[simp] theorem write_nil : r.write [] = [] := rfl

@[simp] theorem write_mark (m : μ) (ps : List (μ ⊕ α)) :
    r.write (.inl m :: ps) = r.word m ++ r.write ps := rfl

@[simp] theorem write_char (c : α) (ps : List (μ ⊕ α)) :
    r.write (.inr c :: ps) = c :: r.write ps := rfl

@[simp] theorem write_append (ps qs : List (μ ⊕ α)) :
    r.write (ps ++ qs) = r.write ps ++ r.write qs := List.flatMap_append

theorem write_chars (s : List α) : r.write (s.map .inr) = s := by
  induction s with
  | nil => rfl
  | cons c s ih => rw [List.map_cons, write_char, ih]

variable {r}

/-! ## Taking apart and putting together -/

theorem scan_char {u : σ} {c : α} {s : List α} (h : r.reads u (c :: s) = none) :
    r.scan u (c :: s) = .inr c :: r.scan u s := by
  rw [scan, h]

theorem scan_mark {u : σ} {m : μ} (h : r.allowed u m) (s : List α) :
    r.scan u (r.word m ++ s) = .inl m :: r.scan (r.next u m) s := by
  cases hw : r.word m with
  | nil => exact absurd hw (r.word_ne_nil m)
  | cons c w =>
      have hreads : r.reads u (c :: (w ++ s)) = some m := by
        rw [r.reads_iff, hw, ← List.cons_append]
        exact ⟨h, List.prefix_append _ _⟩
      rw [List.cons_append, scan, hreads]
      simp [hw]

/-- Letters that begin no mark are characters. -/
theorem scan_chars {u : σ} {w : List α} (h : ∀ c ∈ w, ∀ s, r.reads u (c :: s) = none) (s : List α) :
    r.scan u (w ++ s) = w.map .inr ++ r.scan u s := by
  induction w with
  | nil => rfl
  | cons c w ih =>
      rw [List.forall_mem_cons] at h
      rw [List.cons_append, scan_char (h.1 _), ih h.2, List.map_cons, List.cons_append]

theorem Clean.chars {u : σ} {w : List α} (h : ∀ c ∈ w, ∀ s, r.reads u (c :: s) = none)
    {ps : List (μ ⊕ α)} (hps : r.Clean u ps) : r.Clean u (w.map .inr ++ ps) := by
  induction w with
  | nil => exact hps
  | cons c w ih =>
      rw [List.forall_mem_cons] at h
      exact ⟨h.1 _, ih h.2⟩

theorem Clean.allowed {u : σ} {ps : List (μ ⊕ α)} (h : r.Clean u ps) {m : μ} (hm : .inl m ∈ ps) :
    ∃ u, r.allowed u m := by
  induction ps generalizing u with
  | nil => contradiction
  | cons p ps ih =>
      rcases List.mem_cons.mp hm with rfl | hmem
      · exact ⟨u, h.1⟩
      · cases p with
        | inl m' => exact ih h.2 hmem
        | inr c => exact ih h.2 hmem

/-- What was put together cleanly is taken apart again. -/
theorem scan_write {u : σ} {ps : List (μ ⊕ α)} (h : r.Clean u ps) : r.scan u (r.write ps) = ps := by
  induction ps generalizing u with
  | nil => rw [write_nil, scan]
  | cons p ps ih =>
      cases p with
      | inl m => rw [write_mark, scan_mark h.1, ih h.2]
      | inr c => rw [write_char, scan_char h.1, ih h.2]

/-- A text is put together cleanly from what it is taken apart into. -/
theorem write_scan (u : σ) (s : List α) : r.write (r.scan u s) = s ∧ r.Clean u (r.scan u s) := by
  fun_induction scan r u s with
  | case1 u => exact ⟨rfl, trivial⟩
  | case2 u c s m h ih =>
      obtain ⟨hallowed, t, ht⟩ := (r.reads_iff u (c :: s) m).mp h
      have hdrop : s.drop ((r.word m).length - 1) = t := by
        cases hw : r.word m with
        | nil => exact absurd hw (r.word_ne_nil m)
        | cons d w =>
            rw [hw, List.cons_append, List.cons.injEq] at ht
            rw [← ht.2]
            simp
      rw [hdrop] at ih ⊢
      rw [write_mark, ih.1]
      exact ⟨ht, hallowed, ih.2⟩
  | case3 u c s h ih =>
      rw [write_char, ih.1]
      refine ⟨rfl, ?_, ih.2⟩
      rw [ih.1]
      exact h

theorem scan_write_iff {u : σ} {ps : List (μ ⊕ α)} :
    r.scan u (r.write ps) = ps ↔ r.Clean u ps := by
  constructor
  · intro h
    have hclean := (r.write_scan u (r.write ps)).2
    rwa [h] at hclean
  · exact scan_write

/-! ## What decides whether a mark is read -/

/-- Behind its first letter a mark is read from the letters that can stand in it. -/
theorem reads_congr {u : σ} {c : α} {s t : List α} {p : α → Bool}
    (hp : ∀ m, r.allowed u m → ∀ d ∈ (r.word m).tail, p d = true)
    (h : s.takeWhile p = t.takeWhile p) : r.reads u (c :: s) = r.reads u (c :: t) := by
  have hbegin : ∀ {w s t : List α}, (∀ d ∈ w, p d = true) → s.takeWhile p = t.takeWhile p →
      w <+: s → w <+: t := by
    rintro w s t hw h ⟨s', rfl⟩
    rw [List.takeWhile_append_of_pos hw] at h
    have hpre : w <+: t.takeWhile p := h ▸ List.prefix_append w _
    exact hpre.trans (List.takeWhile_prefix p)
  ext m
  rw [r.reads_iff, r.reads_iff, and_congr_right_iff]
  intro hallowed
  have htail := hp m hallowed
  cases hw : r.word m with
  | nil => exact absurd hw (r.word_ne_nil m)
  | cons d w =>
      rw [hw] at htail
      rw [List.cons_prefix_cons, List.cons_prefix_cons, and_congr_right_iff]
      intro _
      exact ⟨hbegin htail h, hbegin htail h.symm⟩

/-- The state after marks and characters. -/
def after (r : Reader σ μ α) (u : σ) (ps : List (μ ⊕ α)) : σ :=
  ps.foldl (fun u p => p.elim (r.next u) fun _ => u) u

theorem takeWhile_append_cons_self [DecidableEq α] (x : α) (s t : List α) :
    (s ++ x :: t).takeWhile (· != x) = s.takeWhile (· != x) := by
  induction s with
  | nil => simp
  | cons c s ih => rw [List.cons_append, List.takeWhile_cons, List.takeWhile_cons, ih]

/-- A letter that is in no mark keeps what is behind it apart from what is before it. -/
theorem Clean.append_char [DecidableEq α] {x : α} (hx : ∀ u m, r.allowed u m → x ∉ r.word m)
    {u : σ} {ps qs : List (μ ⊕ α)} (hps : r.Clean u ps) (hqs : r.Clean (r.after u ps) qs) :
    r.Clean u (ps ++ .inr x :: qs) := by
  induction ps generalizing u with
  | nil =>
      refine ⟨?_, hqs⟩
      rw [Option.eq_none_iff_forall_ne_some]
      intro m hm
      obtain ⟨hallowed, hbegin⟩ := (r.reads_iff _ _ _).mp hm
      cases hw : r.word m with
      | nil => exact r.word_ne_nil m hw
      | cons d w =>
          rw [hw, List.cons_prefix_cons] at hbegin
          have hmem : d ∈ r.word m := hw ▸ List.mem_cons_self
          exact hx u m hallowed (hbegin.1 ▸ hmem)
  | cons p ps ih =>
      cases p with
      | inl m => exact ⟨hps.1, ih hps.2 hqs⟩
      | inr c =>
          rw [List.cons_append]
          refine ⟨?_, ih hps.2 hqs⟩
          rw [← hps.1, write_append, write_char]
          refine reads_congr ?_ (takeWhile_append_cons_self x _ _)
          intro m hallowed d hd
          rw [bne_iff_ne]
          rintro rfl
          exact hx u m hallowed (List.mem_of_mem_tail hd)

theorem scan_append_char [DecidableEq α] {x : α} (hx : ∀ u m, r.allowed u m → x ∉ r.word m)
    (u : σ) (s t : List α) :
    r.scan u (s ++ x :: t) = r.scan u s ++ .inr x :: r.scan (r.after u (r.scan u s)) t := by
  have hs := r.write_scan u s
  have ht := r.write_scan (r.after u (r.scan u s)) t
  have hclean := hs.2.append_char hx ht.2
  rw [← scan_write hclean, write_append, write_char, hs.1, ht.1]

end Reader

end Marks
