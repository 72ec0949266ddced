import Mathlib.Data.List.Infix

/-!
# Lib.Matches

The places where a word stands in a text, and those that are met when the text is read from the
left and reading goes on behind the word each time it was found: a `Window` is where reading
begins or goes on, and `FirstFrom` is the place that is found from there.  Two windows have the
place found from the first one between them (`Window.firstFrom_of_lt`), so that a place is met
from one window only.
-/

namespace Matches

variable {α : Type}

/-- The word stands in the text at a place. -/
def At (word text : List α) (i : Nat) : Prop := word <+: text.drop i

instance [DecidableEq α] (word text : List α) (i : Nat) : Decidable (At word text i) :=
  inferInstanceAs (Decidable (_ <+: _))

theorem At.length_le {word text : List α} {i : Nat} (h : At word text i) (hword : word ≠ []) :
    i + word.length ≤ text.length := by
  have hle := List.IsPrefix.length_le h
  have hpos := List.length_pos_iff.mpr hword
  rw [List.length_drop] at hle
  omega

/-- The first place from `s` on. -/
def FirstFrom (word text : List α) (s i : Nat) : Prop :=
  s ≤ i ∧ At word text i ∧ ∀ j, s ≤ j → j < i → ¬ At word text j

theorem FirstFrom.unique {word text : List α} {s i j : Nat} (hi : FirstFrom word text s i)
    (hj : FirstFrom word text s j) : i = j := by
  rcases Nat.lt_trichotomy i j with hlt | heq | hgt
  · exact absurd hi.2.1 (hj.2.2 i hi.1 hlt)
  · exact heq
  · exact absurd hj.2.1 (hi.2.2 j hj.1 hgt)

/-- Where reading begins, and where it goes on. -/
inductive Window (word text : List α) : Nat → Prop
  | start : Window word text 0
  | next {s i : Nat} :
      Window word text s → FirstFrom word text s i → Window word text (i + word.length)

namespace Window

variable {word text : List α} {s t : Nat}

/-- **Between two windows** lies the place that is found from the first. -/
theorem firstFrom_of_lt (hword : word ≠ []) (hs : Window word text s) (ht : Window word text t)
    (hlt : s < t) : ∃ i, FirstFrom word text s i ∧ i + word.length ≤ t := by
  obtain ⟨n, hn⟩ : ∃ n, n = s + t := ⟨_, rfl⟩
  induction n using Nat.strong_induction_on generalizing s t with
  | h n ih =>
    cases ht with
    | start => omega
    | @next s' i' hs' hfirst =>
      have hpos := List.length_pos_iff.mpr hword
      have hle := hfirst.1
      rcases Nat.lt_trichotomy s s' with hlt' | rfl | hgt
      · obtain ⟨i, hi, hi'⟩ := ih (s + s') (by omega) hs hs' hlt' rfl
        exact ⟨i, hi, by omega⟩
      · exact ⟨i', hfirst, Nat.le_refl _⟩
      · obtain ⟨i, hi, hi'⟩ := ih (s' + s) (by omega) hs' hs hgt rfl
        have heq := hi.unique hfirst
        omega

/-- A place is met from one window. -/
theorem unique (hword : word ≠ []) {i : Nat} (hs : Window word text s) (ht : Window word text t)
    (hsi : FirstFrom word text s i) (hti : FirstFrom word text t i) : s = t := by
  have hpos := List.length_pos_iff.mpr hword
  rcases Nat.lt_trichotomy s t with hlt | heq | hgt
  · obtain ⟨j, hj, hle⟩ := firstFrom_of_lt hword hs ht hlt
    have heq := hj.unique hsi
    have hti' := hti.1
    omega
  · exact heq
  · obtain ⟨j, hj, hle⟩ := firstFrom_of_lt hword ht hs hgt
    have heq := hj.unique hti
    have hsi' := hsi.1
    omega

end Window

end Matches
