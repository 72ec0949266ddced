import Mathlib.Data.Set.Finite.Basic
import Mathlib.Logic.Relation
import Mathlib.Order.WellFounded

/-!
# Lib.Walks

A loop that goes from place to place: at each one it stops, goes on to another, or does what
it must not (`Out`).

It returns exactly when it does nothing of the last kind and does not come back to a place
where it was, if it can come to finitely many (`returns_iff`); when something goes down at
each step the second cannot happen (`returns_iff_of_measure`).
-/

namespace Walks

open Relation

/-- What a loop does at a place. -/
inductive Out (σ ρ : Type) where
  | fault
  | stop (r : ρ)
  | next (s : σ)

variable {σ ρ : Type}

/-- The loop from a place, for so many turns. -/
def run (step : σ → Out σ ρ) : Nat → σ → Option ρ
  | 0, _ => none
  | n + 1, s =>
      match step s with
      | .fault => none
      | .stop r => some r
      | .next t => run step n t

variable {step : σ → Out σ ρ} {s t : σ} {r : ρ} {n : Nat}

/-- The loop comes to an end without a fault. -/
def Returns (step : σ → Out σ ρ) (s : σ) : Prop := ∃ n r, run step n s = some r

/-- The loop goes from one place to the other. -/
def Hop (step : σ → Out σ ρ) (s t : σ) : Prop := step s = .next t

/-- The places that the loop comes to. -/
def Visits (step : σ → Out σ ρ) : σ → σ → Prop := ReflTransGen (Hop step)

/-! ## Runs -/

theorem run_of_hop (h : Hop step s t) : run step (n + 1) s = run step n t := by
  rw [run, h]

theorem run_of_stop (h : step s = .stop r) : run step (n + 1) s = some r := by
  rw [run, h]

theorem Returns.of_hop (hreturns : Returns step s) (h : Hop step s t) : Returns step t := by
  obtain ⟨n, r, hrun⟩ := hreturns
  cases n with
  | zero => contradiction
  | succ n => exact ⟨n, r, by rwa [run_of_hop h] at hrun⟩

theorem Returns.of_visits (hreturns : Returns step s) (h : Visits step s t) : Returns step t := by
  induction h with
  | refl => exact hreturns
  | tail _ hhop ih => exact ih.of_hop hhop

theorem Returns.ne_fault (hreturns : Returns step s) : step s ≠ .fault := by
  obtain ⟨n, r, hrun⟩ := hreturns
  intro hfault
  cases n with
  | zero => contradiction
  | succ n =>
      rw [run, hfault] at hrun
      contradiction

theorem returns_of_hop (h : Hop step s t) (hreturns : Returns step t) : Returns step s := by
  obtain ⟨n, r, hrun⟩ := hreturns
  exact ⟨n + 1, r, by rw [run_of_hop h, hrun]⟩

/-- A run that ends does not go in a circle. -/
theorem not_circle : ∀ {n : Nat} {s : σ}, run step n s = some r → ¬ TransGen (Hop step) s s := by
  intro n
  induction n with
  | zero => exact fun hrun => absurd hrun (by simp [run])
  | succ n ih =>
      intro s hrun hcircle
      obtain ⟨t, hhop, hback⟩ := TransGen.head'_iff.mp hcircle
      rw [run_of_hop hhop] at hrun
      exact ih hrun (TransGen.tail' hback hhop)

/-- A loop that does as another one, where that does nothing wrong. -/
theorem run_mono {step' : σ → Out σ ρ} (h : ∀ s, step s ≠ .fault → step' s = step s) :
    ∀ {n : Nat} {s : σ}, run step n s = some r → run step' n s = some r := by
  intro n
  induction n with
  | zero => exact fun hrun => absurd hrun (by simp [run])
  | succ n ih =>
      intro s hrun
      have hsame := h s (Returns.ne_fault ⟨n + 1, r, hrun⟩)
      rw [run] at hrun ⊢
      rw [hsame]
      cases hs : step s with
      | fault => rw [hs] at hrun; contradiction
      | stop r' => rwa [hs] at hrun
      | next t =>
          rw [hs] at hrun
          exact ih hrun

/-! ## When a loop returns -/

/-- By induction over what is still to come. -/
theorem returns_of_acc (hacc : Acc (fun t s => Hop step s t) s)
    (h : ∀ t, Visits step s t → step t ≠ .fault) : Returns step s := by
  induction hacc with
  | intro s _ ih =>
      cases hs : step s with
      | fault => exact absurd hs (h s .refl)
      | stop r => exact ⟨1, r, run_of_stop hs⟩
      | next t => exact returns_of_hop hs (ih t hs fun u hu => h u (ReflTransGen.head hs hu))

/-- Finitely many places, in no circle, are all used up. -/
theorem acc_of_no_circle (hfinite : {t | Visits step s t}.Finite)
    (h : ∀ t, Visits step s t → ¬ TransGen (Hop step) t t) : Acc (fun t s => Hop step s t) s := by
  have : Finite {t // Visits step s t} := hfinite
  let below (t u : {t // Visits step s t}) : Prop := TransGen (Hop step) u.1 t.1
  have : IsTrans {t // Visits step s t} below := ⟨fun _ _ _ htu huv => huv.trans htu⟩
  have : Std.Irrefl below := ⟨fun t => h t.1 t.2⟩
  have hacc := (Finite.wellFounded_of_trans_of_irrefl below).apply ⟨s, .refl⟩
  suffices ∀ t : {t // Visits step s t}, Acc below t → Acc (fun t s => Hop step s t) t.1 from
    this _ hacc
  intro t ht
  induction ht with
  | intro t _ ih => exact .intro _ fun u hu => ih ⟨u, t.2.tail hu⟩ (.single hu)

/-- **A loop over finitely many places** returns when it does nothing wrong and never comes
back to a place. -/
theorem returns_iff (hfinite : {t | Visits step s t}.Finite) :
    Returns step s ↔ (∀ t, Visits step s t → step t ≠ .fault) ∧
      ∀ t, Visits step s t → ¬ TransGen (Hop step) t t := by
  constructor
  · intro hreturns
    refine ⟨fun t ht => (hreturns.of_visits ht).ne_fault, fun t ht => ?_⟩
    obtain ⟨n, r, hrun⟩ := hreturns.of_visits ht
    exact not_circle hrun
  · rintro ⟨hfault, hcircle⟩
    exact returns_of_acc (acc_of_no_circle hfinite hcircle) hfault

theorem returns_iff_of_measure (m : σ → Nat) (hm : ∀ s t, Hop step s t → m t < m s) :
    Returns step s ↔ ∀ t, Visits step s t → step t ≠ .fault := by
  constructor
  · exact fun hreturns t ht => (hreturns.of_visits ht).ne_fault
  · exact returns_of_acc ((Subrelation.wf (fun h => hm _ _ h) (measure m).wf).apply s)

end Walks
