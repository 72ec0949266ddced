import Mathlib.Logic.Function.Basic
import Mathlib.Logic.Relation

/-!
# Lib.Groups

Stones of two colours on the points of a graph, as in the game of Go.  A stone is
`Alive` when along stones of its colour one comes to a free point; `capture` takes
the stones of one colour that are not, and `move` places a stone and captures those
of the other colour and then those of its own.

`settled_move` says that after a move every stone is alive, and `ko` what a position
must be like to come back two moves later: the first of the two has captured one
stone, from a place that is now surrounded.
-/

namespace Groups

open Function Relation

variable {V : Type} (adj : V → V → Prop)

/-- Points are free (`none`) or hold a stone. -/
abbrev Board (V : Type) := V → Option Bool

/-- Along stones of its colour, one comes from a stone to a free point. -/
inductive Alive (m : Board V) : V → Prop
  | liberty {p q : V} : m p ≠ none → adj p q → m q = none → Alive m p
  | along {p q : V} : m p ≠ none → adj p q → m q = m p → Alive m q → Alive m p

/-- Points of one group. -/
def Connected (m : Board V) : V → V → Prop :=
  ReflTransGen fun p q => adj p q ∧ m q = m p

/-- Every stone is alive. -/
def Settled (m : Board V) : Prop := ∀ p, m p ≠ none → Alive adj m p

open Classical in
/-- The stones of one colour that are not alive are taken. -/
noncomputable def capture (m : Board V) (c : Bool) : Board V :=
  fun p => if m p = some c ∧ ¬ Alive adj m p then none else m p

variable {adj} {m : Board V} {c : Bool} {p q : V}

theorem Connected.alive (h : Connected adj m p q) (hp : m p ≠ none) {e : V} (he : adj q e)
    (hfree : m e = none) : Alive adj m p := by
  induction h using ReflTransGen.head_induction_on with
  | refl => exact .liberty hp he hfree
  | head hstep _ ih =>
      obtain ⟨hadj, hsame⟩ := hstep
      exact .along hp hadj hsame (ih (by rwa [hsame]))

/-- A stone is alive exactly when its group has a liberty. -/
theorem alive_iff (hp : m p ≠ none) :
    Alive adj m p ↔ ∃ q e, Connected adj m p q ∧ adj q e ∧ m e = none := by
  constructor
  · intro h
    induction h with
    | liberty _ hadj hfree => exact ⟨_, _, .refl, hadj, hfree⟩
    | along hp' hadj hsame _ ih =>
        obtain ⟨q, e, hconn, he, hfree⟩ := ih (by rwa [hsame])
        exact ⟨q, e, hconn.head ⟨hadj, hsame⟩, he, hfree⟩
  · rintro ⟨q, e, hconn, he, hfree⟩
    exact hconn.alive hp he hfree

/-! ## Captures -/

theorem capture_of_ne (h : m p ≠ some c) : capture adj m c p = m p := by
  unfold capture
  rw [if_neg fun hboth => h hboth.1]

theorem capture_of_alive (h : Alive adj m p) : capture adj m c p = m p := by
  unfold capture
  rw [if_neg fun hboth => hboth.2 h]

theorem capture_of_dead (hp : m p = some c) (h : ¬ Alive adj m p) :
    capture adj m c p = none := by
  unfold capture
  rw [if_pos ⟨hp, h⟩]

/-- Captures add no stones. -/
theorem capture_eq_some {d : Bool} (h : capture adj m c p = some d) : m p = some d := by
  unfold capture at h
  split at h
  · contradiction
  · exact h

theorem capture_eq_none (h : m p = none) : capture adj m c p = none := by
  rw [capture_of_ne (by simp [h]), h]

/-- A stone that is alive stays so. -/
theorem Alive.capture (h : Alive adj m p) : Alive adj (capture adj m c) p := by
  induction h with
  | liberty hp hadj hfree =>
      refine .liberty ?_ hadj (capture_eq_none hfree)
      rwa [capture_of_alive (.liberty hp hadj hfree)]
  | along hp hadj hsame hq ih =>
      refine .along ?_ hadj ?_ ih
      · rwa [capture_of_alive (.along hp hadj hsame hq)]
      · rw [capture_of_alive hq, capture_of_alive (.along hp hadj hsame hq), hsame]

/-- The stones of a colour that are left are alive. -/
theorem alive_of_capture (h : Groups.capture adj m c p = some c) :
    Alive adj (Groups.capture adj m c) p := by
  refine Alive.capture ?_
  by_contra hdead
  rw [capture_of_dead (capture_eq_some h) hdead] at h
  contradiction

/-! ## Moves -/

variable [DecidableEq V]

/-- A stone is placed. -/
def place (m : Board V) (a : V) (c : Bool) : Board V := update m a (some c)

@[simp] theorem place_self (m : Board V) (a : V) (c : Bool) : place m a c a = some c :=
  update_self ..

theorem place_of_ne {a : V} (h : p ≠ a) : place m a c p = m p := update_of_ne h _ _

variable (adj) in
/-- A stone is placed, dead stones of the other colour are taken, and then its own. -/
noncomputable def move (m : Board V) (a : V) (c : Bool) : Board V :=
  capture adj (capture adj (place m a c) (!c)) c

variable {a b : V}

/-- **After a move every stone is alive.** -/
theorem settled_move (m : Board V) (a : V) (c : Bool) : Settled adj (move adj m a c) := by
  intro p hp
  obtain ⟨d, hd⟩ := Option.ne_none_iff_exists'.mp hp
  cases Decidable.em (d = c) with
  | inl heq =>
      subst heq
      exact alive_of_capture hd
  | inr hne =>
      rw [Bool.eq_not_of_ne hne] at hd
      exact (alive_of_capture (capture_eq_some hd)).capture

/-- A move adds no stone but the one that is placed. -/
theorem move_eq_some {d : Bool} (h : move adj m a c p = some d) : place m a c p = some d :=
  capture_eq_some (capture_eq_some h)

theorem move_other {d : Bool} (hpa : p ≠ a) (h : move adj m a c p = some d) : m p = some d := by
  have hplaced := move_eq_some h
  rwa [place_of_ne hpa] at hplaced

/-- A stone of the other colour stays when it is alive. -/
theorem move_of_alive (hp : place m a c p = some !c) (h : Alive adj (place m a c) p) :
    move adj m a c p = some !c := by
  have hkept : capture adj (place m a c) (!c) p = some !c := by rw [capture_of_alive h, hp]
  unfold move
  rw [capture_of_ne (by simp [hkept]), hkept]

/-- A stone of the other colour that goes was dead. -/
theorem dead_of_move (hp : place m a c p = some !c) (h : move adj m a c p = none) :
    ¬ Alive adj (place m a c) p := by
  intro halive
  rw [move_of_alive hp halive] at h
  contradiction

theorem move_of_dead (hp : place m a c p = some !c) (h : ¬ Alive adj (place m a c) p) :
    move adj m a c p = none :=
  capture_eq_none (capture_of_dead hp h)

/-- A stone that the placed one kills has a neighbour in its group beside the placed one. -/
theorem exists_beside (h : Alive adj m p) (hp : m p = some !c)
    (hdead : ¬ Alive adj (place m a c) p) (ha : m a = none) :
    ∃ q, adj q a ∧ place m a c q = some !c ∧ ¬ Alive adj (place m a c) q := by
  have hstone : ∀ q, m q = some (!c) → place m a c q = some !c := by
    intro q hq
    have hqa : q ≠ a := by
      rintro rfl
      rw [ha] at hq
      contradiction
    rw [place_of_ne hqa, hq]
  induction h with
  | @liberty p q _ hadj hfree =>
      have hqa : q = a := by
        by_contra hqa
        refine hdead (.liberty ?_ hadj ?_)
        · simp [hstone p hp]
        · rwa [place_of_ne hqa]
      subst hqa
      exact ⟨p, hadj, hstone p hp, hdead⟩
  | @along p q _ hadj hsame _ ih =>
      have hq : m q = some !c := by rw [hsame, hp]
      refine ih hq fun halive => hdead (.along ?_ hadj ?_ halive)
      · simp [hstone p hp]
      · rw [hstone q hq, hstone p hp]

/-- **A stone that captures is alive.** -/
theorem alive_of_captures (hsymm : ∀ p q, adj p q → adj q p) (hm : Settled adj m)
    (ha : m a = none) (hp : place m a c p = some !c) (hdead : ¬ Alive adj (place m a c) p) :
    move adj m a c a = some c := by
  have hpa : p ≠ a := by
    rintro rfl
    simp at hp
  have hold : m p = some !c := by rwa [place_of_ne hpa] at hp
  obtain ⟨q, hadj, hq, hqdead⟩ := exists_beside (hm p (by simp [hold])) hold hdead ha
  have hplaced : capture adj (place m a c) (!c) a = some c := by
    rw [capture_of_ne (by simp), place_self]
  have halive : Alive adj (capture adj (place m a c) (!c)) a :=
    .liberty (by simp [hplaced]) (hsymm q a hadj) (capture_of_dead hq hqdead)
  unfold move
  rw [capture_of_alive halive, hplaced]

/-! ## Ko -/

/-- A stone that has gone after two moves does not come back with the position. -/
theorem stone_stays {d : Bool} (hrep : move adj (move adj m a c) b (!c) = m) (hp : m p = some d)
    (hpb : p ≠ b) : move adj m a c p = some d := by
  rw [← hrep] at hp
  exact move_other hpb hp

/-- The colour of a stone that comes back on the place of the second move. -/
theorem colour_of_second {d : Bool} (hrep : move adj (move adj m a c) b (!c) = m)
    (hp : m b = some d) : d = !c := by
  rw [← hrep] at hp
  have hplaced := move_eq_some hp
  rw [place_self] at hplaced
  exact (Option.some.inj hplaced).symm

/-- A stone that died with the first one would not have come back. -/
theorem ko_alone (hirr : ∀ p, ¬ adj p p) (hrep : move adj (move adj m a c) b (!c) = m)
    (hadj : adj a q) (hq : place m a c q = some c)
    (hgone : move adj m a c q = none) : False := by
  have hqa : q ≠ a := by
    rintro rfl
    exact hirr q hadj
  rw [place_of_ne hqa] at hq
  have hqb : q ≠ b := by
    rintro rfl
    have hcolour := colour_of_second hrep hq
    simp at hcolour
  rw [stone_stays hrep hq hqb] at hgone
  contradiction

/-- The first stone does not die at once when the position comes back. -/
theorem ko_stays (hsymm : ∀ p q, adj p q → adj q p) (hirr : ∀ p, ¬ adj p p)
    (hm : Settled adj m) (ha : m a = none)
    (hfirst : (∀ q, adj a q → place m a c q = some !c) →
      ∃ p, place m a c p = some (!c) ∧ ¬ Alive adj (place m a c) p)
    (hrep : move adj (move adj m a c) b (!c) = m) :
    move adj m a c a = some c := by
  by_contra hgone
  have hnone : ∀ p, place m a c p = some (!c) → Alive adj (place m a c) p := by
    intro p hp
    by_contra hdead
    exact hgone (alive_of_captures hsymm hm ha hp hdead)
  -- nothing of the other colour is taken
  have hsame : capture adj (place m a c) (!c) = place m a c := by
    funext p
    by_cases hp : place m a c p = some !c
    · exact capture_of_alive (hnone p hp)
    · exact capture_of_ne hp
  have hplaced : place m a c a = some c := place_self m a c
  have hadead : ¬ Alive adj (place m a c) a := by
    intro halive
    unfold move at hgone
    rw [hsame, capture_of_alive halive] at hgone
    exact hgone hplaced
  obtain ⟨p, hp, hdead⟩ := hfirst fun q hadj => by
    cases hq : place m a c q with
    | none => exact absurd (.liberty (by simp) hadj hq) hadead
    | some d =>
        cases Decidable.em (d = c) with
        | inr hne => rw [Bool.eq_not_of_ne hne]
        | inl heq =>
            subst heq
            have hqdead : ¬ Alive adj (place m a d) q := fun halive =>
              hadead (.along (by simp) hadj (by rw [hq, hplaced]) halive)
            refine (ko_alone hirr hrep hadj hq ?_).elim
            unfold move
            rw [hsame, capture_of_dead hq hqdead]
  exact hdead (hnone p hp)

/-- **Ko.**  When a position comes back after two moves, the first has taken the stone
on the place of the second, and no other, from a place with stones of the other colour
all around it. -/
theorem ko (hsymm : ∀ p q, adj p q → adj q p) (hirr : ∀ p, ¬ adj p p)
    (hm : Settled adj m) (ha : m a = none)
    (hfirst : (∀ q, adj a q → place m a c q = some !c) →
      ∃ p, place m a c p = some (!c) ∧ ¬ Alive adj (place m a c) p)
    (hb : move adj m a c b = none) (hrep : move adj (move adj m a c) b (!c) = m) :
    (∀ p, place m a c p = some (!c) ∧ ¬ Alive adj (place m a c) p ↔ p = b) ∧
      ∀ q, adj a q → place m a c q = some !c := by
  have hstays := ko_stays hsymm hirr hm ha hfirst hrep
  have hab : a ≠ b := by
    rintro rfl
    rw [hb] at hstays
    contradiction
  -- the second move takes the stone at `a`
  have hplaced : place (move adj m a c) b (!c) a = some !!c := by
    rw [place_of_ne hab, hstays, Bool.not_not]
  have hadead : ¬ Alive adj (place (move adj m a c) b (!c)) a :=
    dead_of_move hplaced (by rw [hrep, ha])
  have hbback : m b = some !c := by
    have hsecond := alive_of_captures hsymm (settled_move m a c) hb hplaced hadead
    rwa [hrep] at hsecond
  have hbplaced : place m a c b = some !c := by rw [place_of_ne hab.symm, hbback]
  have hbdead : ¬ Alive adj (place m a c) b := dead_of_move hbplaced hb
  refine ⟨fun p => ⟨fun hp => ?_, ?_⟩, fun q hadj => ?_⟩
  · by_contra hpb
    have hpa : p ≠ a := by
      rintro rfl
      simp at hp
    have hold := hp.1
    rw [place_of_ne hpa] at hold
    have hkept := stone_stays hrep hold hpb
    rw [move_of_dead hp.1 hp.2] at hkept
    contradiction
  · rintro rfl
    exact ⟨hbplaced, hbdead⟩
  · have hqa : q ≠ a := by
      rintro rfl
      exact hirr q hadj
    by_cases hqb : q = b
    · rw [hqb, hbplaced]
    · cases hq : place (move adj m a c) b (!c) q with
      | none => exact absurd (.liberty (by simp [hplaced]) hadj hq) hadead
      | some d =>
          cases Decidable.em (d = c) with
          | inr hne =>
              rw [Bool.eq_not_of_ne hne, place_of_ne hqb] at hq
              exact move_eq_some hq
          | inl heq =>
              subst heq
              have hqdead : ¬ Alive adj (place (move adj m a d) b (!d)) q := fun halive =>
                hadead (.along (by simp [hplaced]) hadj (by rw [hq, hplaced, Bool.not_not]) halive)
              have hgone := move_of_dead (by rw [hq, Bool.not_not]) hqdead
              rw [hrep] at hgone
              rw [place_of_ne hqb] at hq
              rw [move_other hqa hq] at hgone
              contradiction

end Groups
