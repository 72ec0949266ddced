import Mathlib.Init

/-!
# Lib.Replay

A state that is the result of its own history, latest entry first.  What holds of such a state is
proved over the history (`Recorded.keeps`), and taking the latest entry back gives the state
before it (`Recorded.undo`).
-/

namespace Replay

variable {X R : Type} (change : X → R → X) (x₀ : X)

/-- The state after a history. -/
def replay : List R → X
  | [] => x₀
  | r :: h => change (replay h) r

/-- Every entry could be made when it was made. -/
def Recorded (ok : X → R → Prop) : List R → Prop
  | [] => True
  | r :: h => Recorded ok h ∧ ok (replay change x₀ h) r

variable {change x₀} {ok : X → R → Prop}

theorem Recorded.keeps (inv : X → Prop) (hstart : inv x₀)
    (hchange : ∀ x r, inv x → ok x r → inv (change x r)) {h : List R}
    (hrec : Recorded change x₀ ok h) : inv (replay change x₀ h) := by
  induction h with
  | nil => exact hstart
  | cons r h ih => exact hchange _ r (ih hrec.1) hrec.2

theorem Recorded.undo (back : X → R → X) (hback : ∀ x r, ok x r → back (change x r) r = x)
    {r : R} {h : List R} (hrec : Recorded change x₀ ok (r :: h)) :
    back (replay change x₀ (r :: h)) r = replay change x₀ h :=
  hback _ r hrec.2

end Replay
