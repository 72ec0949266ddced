import Mathlib.Data.List.Infix

/-!
# Lib.Completion

Words that begin with a text when both are compared through a function, and the longest text
that begins several words.  Narrowing the candidates of a text by a longer one gives the
candidates of the longer one (`candidates_filter`).
-/

namespace Completion

variable {α β N : Type} (f : α → β)

/-- The text begins the word. -/
def Begins (t w : List α) : Prop := t.map f <+: w.map f

instance [DecidableEq β] (t w : List α) : Decidable (Begins f t w) :=
  inferInstanceAs (Decidable (_ <+: _))

section Begins

variable {f} {t u w : List α}

theorem Begins.nil : Begins f [] w := List.nil_prefix

theorem Begins.refl (w : List α) : Begins f w w := List.prefix_rfl

theorem Begins.trans (h : Begins f t u) (h' : Begins f u w) : Begins f t w :=
  List.IsPrefix.trans h h'

theorem Begins.length_le (h : Begins f t w) : t.length ≤ w.length := by
  simpa using List.IsPrefix.length_le h

theorem Begins.of_front (h : t <+: w) : Begins f t w := h.map f

/-- Of two texts that begin a word, the shorter one begins the longer one. -/
theorem Begins.of_length_le (h : Begins f t w) (h' : Begins f u w) (hle : t.length ≤ u.length) :
    Begins f t u :=
  List.prefix_of_prefix_length_le h h' (by simpa using hle)

theorem Begins.map_eq_take (h : Begins f t w) : t.map f = (w.take t.length).map f := by
  rw [List.map_take]
  simpa using List.prefix_iff_eq_take.mp h

/-- What is compared is the image only. -/
theorem begins_congr (h : t.map f = u.map f) : Begins f t w ↔ Begins f u w := by
  rw [Begins, Begins, h]

end Begins

/-! ## Candidates -/

/-- The names whose words begin with the text, in order. -/
def candidates [DecidableEq β] (word : N → List α) (names : List N) (t : List α) : List N :=
  names.filter fun w => Begins f t (word w)

section Candidates

variable {f} [DecidableEq β] {word : N → List α} {names : List N} {t u : List α}

theorem mem_candidates {w : N} :
    w ∈ candidates f word names t ↔ w ∈ names ∧ Begins f t (word w) := by
  rw [candidates, List.mem_filter, decide_eq_true_iff]

theorem candidates_nil : candidates f word names [] = names :=
  List.filter_eq_self.mpr fun _ _ => decide_eq_true .nil

/-- **The candidates of a longer text** are among those of the shorter one. -/
theorem candidates_filter (h : Begins f t u) :
    (candidates f word names t).filter (fun w => decide (Begins f u (word w))) =
      candidates f word names u := by
  rw [candidates, candidates, List.filter_filter]
  refine List.filter_congr fun w _ => ?_
  rw [Bool.and_eq_left_iff_imp, decide_eq_true_iff, decide_eq_true_iff]
  exact h.trans

/-- A text that begins all candidates has no others. -/
theorem candidates_eq (h : Begins f t u)
    (hcommon : ∀ w ∈ candidates f word names t, Begins f u (word w)) :
    candidates f word names u = candidates f word names t := by
  rw [← candidates_filter h]
  exact List.filter_eq_self.mpr fun w hw => decide_eq_true (hcommon w hw)

theorem candidates_ne_nil (h : Begins f t u) (hne : candidates f word names u ≠ []) :
    candidates f word names t ≠ [] := by
  obtain ⟨w, hw⟩ := List.exists_mem_of_ne_nil _ hne
  obtain ⟨hmem, hu⟩ := mem_candidates.mp hw
  exact List.ne_nil_of_mem (mem_candidates.mpr ⟨hmem, h.trans hu⟩)

end Candidates

/-! ## The longest common beginning -/

/-- A longest text that begins all the words. -/
structure Longest (words : List (List α)) (t : List α) : Prop where
  common : ∀ w ∈ words, Begins f t w
  max : ∀ u, (∀ w ∈ words, Begins f u w) → u.length ≤ t.length

section Longest

variable {f} {words : List (List α)} {s t w : List α}

theorem Longest.singleton (w : List α) : Longest f [w] w where
  common v hv := by
    rw [List.mem_singleton.mp hv]
    exact .refl w
  max u hu := (hu w (List.mem_singleton_self w)).length_le

/-- One word more: as much of the text as begins it. -/
theorem Longest.concat (h : Longest f words s) (hne : words ≠ []) {k : Nat} (hk : k ≤ s.length)
    (hbegins : Begins f (s.take k) w)
    (hmax : ∀ j, j ≤ s.length → Begins f (s.take j) w → j ≤ k)
    (ht : t.map f = (s.take k).map f) : Longest f (words ++ [w]) t where
  common v hv := by
    rw [begins_congr ht]
    rcases List.mem_append.mp hv with hv | hv
    · exact (Begins.of_front (List.take_prefix k s)).trans (h.common v hv)
    · rwa [List.mem_singleton.mp hv]
  max u hu := by
    have hlen : t.length = k := by
      have hmap := congrArg List.length ht
      rw [List.length_map, List.length_map, List.length_take] at hmap
      omega
    have hwords : ∀ v ∈ words, Begins f u v := fun v hv => hu v (List.mem_append_left _ hv)
    have hle := h.max u hwords
    obtain ⟨v, hv⟩ := List.exists_mem_of_ne_nil _ hne
    have htake := ((hwords v hv).of_length_le (h.common v hv) hle).map_eq_take
    rw [hlen]
    exact hmax _ hle ((begins_congr htake).mp (hu w (List.mem_append_right _ List.mem_cons_self)))

/-- A text that begins all words and is as long as the longest for some of them. -/
theorem Longest.of_length_le (h : Longest f words s) {all : List (List α)}
    (hsub : ∀ w ∈ words, w ∈ all) (hcommon : ∀ w ∈ all, Begins f t w)
    (hle : s.length ≤ t.length) : Longest f all t where
  common := hcommon
  max u hu := (h.max u fun w hw => hu w (hsub w hw)).trans hle

end Longest

end Completion
