import Mathlib.Init

/-!
# Lib.Feed

Machines that write while they read.  A step takes one letter and a state to the
letters written and the next state; `through` feeds it a word.

A routine called on one piece of a stream after another is itself such a machine,
whose letters are the pieces.  `through_calls` says when the cuts between the
pieces leave no trace.
-/

namespace Feed

variable {S α β : Type}

/-- What a machine writes while it reads a word, and the state it ends in. -/
def through (step : S → α → List β × S) (s : S) : List α → List β × S
  | [] => ([], s)
  | a :: as =>
      let (out, s') := step s a
      let (rest, t) := through step s' as
      (out ++ rest, t)

variable {step : S → α → List β × S} {s : S}

@[simp] theorem through_nil : through step s [] = ([], s) := rfl

theorem through_cons (a : α) (as : List α) :
    through step s (a :: as) =
      ((step s a).1 ++ (through step (step s a).2 as).1, (through step (step s a).2 as).2) := rfl

/-- Reading a word and then another writes what the two write. -/
theorem through_append (as bs : List α) :
    through step s (as ++ bs) =
      ((through step s as).1 ++ (through step (through step s as).2 bs).1,
        (through step (through step s as).2 bs).2) := by
  induction as generalizing s with
  | nil => rfl
  | cons a as ih =>
      rw [List.cons_append, through_cons, ih, through_cons]
      simp only [List.append_assoc]

/-- What every step keeps holds after a word. -/
theorem through_invariant {inv : S → Prop} (hinv : ∀ s a, inv s → inv (step s a).2)
    (hs : inv s) (as : List α) : inv (through step s as).2 := by
  induction as generalizing s with
  | nil => exact hs
  | cons a as ih =>
      rw [through_cons]
      exact ih (hinv s a hs)

/-- **A routine that treats each piece as the machine treats its letters, in all
states it can be in, treats the pieces as the machine treats the whole stream.** -/
theorem through_calls {call : S → List α → List β × S} {inv : S → Prop}
    (hcall : ∀ s p, inv s → call s p = through step s p)
    (hinv : ∀ s a, inv s → inv (step s a).2) (hs : inv s) (pieces : List (List α)) :
    through call s pieces = through step s pieces.flatten := by
  induction pieces generalizing s with
  | nil => rfl
  | cons p pieces ih =>
      rw [through_cons, hcall s p hs, ih (through_invariant hinv hs p), List.flatten_cons,
        through_append]

end Feed
