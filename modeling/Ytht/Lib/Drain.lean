import Ytht.Lib.Runs

/-!
# Lib.Drain

Texts that leave in pieces.  A `Pending` text knows how much of it is gone; a
receiver that takes some more moves the boundary, and `sent ++ rest` stays the text.

`exec_invariant` and `drains` are the rules for a sender that meets only events of
one kind: none of them stops it, and enough of them bring it to its end.
-/

namespace Drain

open Runs

/-! ## Texts -/

/-- A text and the number of its items that are gone. -/
structure Pending (α : Type) where
  text : List α
  off : Nat
  off_le : off ≤ text.length

namespace Pending

variable {α : Type}

/-- A text of which nothing is gone. -/
def start (text : List α) : Pending α := ⟨text, 0, Nat.zero_le _⟩

def sent (p : Pending α) : List α := p.text.take p.off

def rest (p : Pending α) : List α := p.text.drop p.off

/-- The receiver takes up to `n` more. -/
def advance (p : Pending α) (n : Nat) : Pending α where
  text := p.text
  off := p.off + min n p.rest.length
  off_le := by
    have hoff := p.off_le
    simp only [rest, List.length_drop]
    omega

@[simp] theorem rest_start (text : List α) : (start text).rest = text := rfl

@[simp] theorem rest_advance (p : Pending α) (n : Nat) : (p.advance n).rest = p.rest.drop n := by
  simp only [advance, rest, List.drop_drop, List.length_drop]
  rcases Nat.le_total n (p.text.length - p.off) with hn | hn
  · rw [Nat.min_eq_left hn]
  · rw [Nat.min_eq_right hn, List.drop_of_length_le (by omega), List.drop_of_length_le (by omega)]

end Pending

/-! ## Senders -/

variable {S E : Type} {step : S → E → Option S}

/-- A machine that takes a step at every good event, and keeps an invariant, runs through
any number of them. -/
theorem exec_invariant {good : E → Prop} {P : List E → S → Prop}
    (hstep : ∀ es s e, P es s → good e → ∃ s', step s e = some s' ∧ P (es ++ [e]) s')
    {s : S} {es₀ : List E} (hs : P es₀ s) {es : List E} (hgood : ∀ e ∈ es, good e) :
    ∃ s', exec step s es = some s' ∧ P (es₀ ++ es) s' := by
  induction es generalizing s es₀ with
  | nil => exact ⟨s, rfl, by rwa [List.append_nil]⟩
  | cons e es ih =>
      obtain ⟨t, ht, hinv⟩ := hstep es₀ s e hs (hgood e List.mem_cons_self)
      obtain ⟨s', hs', hinv'⟩ := ih hinv fun e he => hgood e (List.mem_cons_of_mem _ he)
      refine ⟨s', ?_, by simpa using hinv'⟩
      rw [exec, ht, Option.bind_some, hs']

theorem exec_keeps {good : E → Prop} {inv : S → Prop}
    (hstep : ∀ s e, inv s → good e → ∃ s', step s e = some s' ∧ inv s')
    {s : S} (hs : inv s) {es : List E} (hgood : ∀ e ∈ es, good e) :
    ∃ s', exec step s es = some s' ∧ inv s' :=
  @exec_invariant S E step good (fun _ s => inv s) (fun _ => hstep) s [] hs es hgood

/-- **A sender whose work no good event increases, and some of them decrease, is done after
as many of these as there was work.** -/
theorem drains {good : E → Prop} {takes : E → Bool} {inv : S → Prop} {work : S → Nat}
    (hstep : ∀ s e, inv s → good e → ∃ s', step s e = some s' ∧ inv s' ∧
      work s' ≤ work s - if takes e then 1 else 0)
    {s : S} (hs : inv s) {es : List E} (hgood : ∀ e ∈ es, good e) :
    ∃ s', exec step s es = some s' ∧ inv s' ∧ work s' ≤ work s - es.countP takes := by
  have hstart : inv s ∧ work s ≤ work s - ([] : List E).countP takes := ⟨hs, by simp⟩
  refine @exec_invariant S E step good (fun es t => inv t ∧ work t ≤ work s - es.countP takes)
    ?_ s [] hstart es hgood
  intro es t e ⟨hinv, hwork⟩ he
  obtain ⟨t', ht', hinv', hwork'⟩ := hstep t e hinv he
  refine ⟨t', ht', hinv', ?_⟩
  rw [List.countP_append, List.countP_singleton]
  omega

end Drain
