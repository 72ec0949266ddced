import Mathlib.Init

/-!
# Lib.Runs

Finite runs of a system that takes one step at each event.  A step that cannot
be taken is `none`, so it ends no run of its own.
-/

namespace Runs

variable {S E : Type}

/-- The states a system reaches from `s₀`, with the events on the way. -/
inductive Run (step : S → E → Option S) (s₀ : S) : List E → S → Prop
  | start : Run step s₀ [] s₀
  | next {es : List E} {s s' : S} {e : E} :
      Run step s₀ es s → step s e = some s' → Run step s₀ (es ++ [e]) s'

namespace Run

variable {step : S → E → Option S} {s₀ s : S} {es : List E}

/-- What holds at the start and is kept by every step, with the events seen so
far, holds after every run. -/
theorem invariant (inv : List E → S → Prop) (hstart : inv [] s₀)
    (hstep : ∀ es s e s', inv es s → step s e = some s' → inv (es ++ [e]) s')
    (h : Run step s₀ es s) : inv es s := by
  induction h with
  | start => exact hstart
  | next _ hnext ih => exact hstep _ _ _ _ ih hnext

end Run

/-- The system that takes only the steps that meet a condition. -/
def when (ok : S → E → Prop) [∀ s e, Decidable (ok s e)] (step : S → E → Option S) (s : S)
    (e : E) : Option S :=
  if ok s e then step s e else none

theorem when_eq_some {ok : S → E → Prop} [∀ s e, Decidable (ok s e)] {step : S → E → Option S}
    {s s' : S} {e : E} (h : when ok step s e = some s') : ok s e ∧ step s e = some s' := by
  unfold when at h
  split at h
  · next hok => exact ⟨hok, h⟩
  · contradiction

theorem Run.of_when {ok : S → E → Prop} [∀ s e, Decidable (ok s e)]
    {step : S → E → Option S} {s₀ s : S} {es : List E} (h : Run (when ok step) s₀ es s) :
    Run step s₀ es s := by
  induction h with
  | start => exact .start
  | next _ hnext ih => exact ih.next (when_eq_some hnext).2

/-- What holds at the start and is kept by every step that meets the condition holds
after every run of such steps. -/
theorem Run.invariant_when {ok : S → E → Prop} [∀ s e, Decidable (ok s e)]
    {step : S → E → Option S} {s₀ s : S} {es : List E} (inv : S → Prop) (hstart : inv s₀)
    (hstep : ∀ s e s', inv s → ok s e → step s e = some s' → inv s')
    (h : Run (when ok step) s₀ es s) : inv s := by
  refine h.invariant (fun _ s => inv s) hstart ?_
  intro _ s e s' hs hnext
  obtain ⟨hok, hnext⟩ := when_eq_some hnext
  exact hstep s e s' hs hok hnext

/-- The state after some events, when all of them can happen. -/
def exec (step : S → E → Option S) : S → List E → Option S
  | s, [] => some s
  | s, e :: es => (step s e).bind fun s' => exec step s' es

theorem Run.append_exec {step : S → E → Option S} {s₀ s s' : S} {es es' : List E}
    (h : Run step s₀ es s) (hexec : exec step s es' = some s') : Run step s₀ (es ++ es') s' := by
  induction es' generalizing es s with
  | nil =>
      cases hexec
      rwa [List.append_nil]
  | cons e es' ih =>
      obtain ⟨t, ht, hrest⟩ := Option.bind_eq_some_iff.mp hexec
      rw [List.append_cons]
      exact ih (h.next ht) hrest

/-- Executing the events is a run. -/
theorem Run.of_exec {step : S → E → Option S} {s₀ s : S} {es : List E}
    (h : exec step s₀ es = some s) : Run step s₀ es s :=
  Run.start.append_exec h

end Runs
