import Mathlib.Data.Fintype.Basic
import Mathlib.Data.List.Permutation
import Mathlib.Logic.Function.Basic
import Ytht.Lib.File
import Ytht.Lib.Runs
import Ytht.Moneycenter.Ranking

/-!
# Moneycenter.Top

Runs of `check_top` side by side, one system call at a time.

A run locks the file that `top` named when the run opened it, and gives the lock back
before `rename` makes its own file the one that `top` names.  A run that has opened the
old file in the meantime gets the lock on that, reads what is no longer current, and its
`rename` throws away an update.  `top_run` asks of a run that the file it locks is still
`top`, and that no other run has its `rename` before it.
-/

namespace Ytht

open Function Runs File

/-! ## The system calls -/

/-- Where a run of `check_top` is. -/
inductive TopPhase
  | idle
  | opened (fp : Nat)
  | locked (fp : Nat)
  /-- the lists are read, brought up to date and sorted -/
  | computed (fp : Nat) (t : Top)
  | created (fp fpnew : Nat) (t : Top)
  | newLocked (fp fpnew : Nat) (t : Top)
  | newUnlocked (fp fpnew : Nat) (t : Top)
  | written (fp : Nat)
  | unlocked
  | done
  deriving DecidableEq

/-- The files that the run has locked. -/
def TopPhase.held : TopPhase → List Nat
  | locked fp | computed fp _ | created fp _ _ | newUnlocked fp _ _ | written fp => [fp]
  | newLocked fp fpnew _ => [fp, fpnew]
  | idle | opened _ | unlocked | done => []

/-- The directory, the files, and the runs. -/
structure TopDir (P : Type) where
  content : Nat → List UInt8
  /-- No file has this number or a greater one. -/
  fresh : Nat
  top : Nat
  topNew : Option Nat
  phase : P → TopPhase

namespace TopDir

variable {P : Type} (player : P → Player)

/-- `flock(fileno(fp), LOCK_EX)` returns. -/
def LockFree (s : TopDir P) (p : P) (file : Nat) : Prop := ∀ q, q ≠ p → file ∉ (s.phase q).held

instance [DecidableEq P] [Fintype P] (s : TopDir P) (p : P) (file : Nat) :
    Decidable (s.LockFree p file) :=
  inferInstanceAs (Decidable (∀ q, q ≠ p → _))

section

variable [DecidableEq P]

def goto (s : TopDir P) (p : P) (ph : TopPhase) : TopDir P := { s with phase := update s.phase p ph }

@[simp] theorem goto_phase (s : TopDir P) (p : P) (ph : TopPhase) :
    (s.goto p ph).phase = update s.phase p ph := rfl

end

/-- `fopen(DIR_MC "top.new", "w")`: the file it opens. -/
def fopenNew (s : TopDir P) : Nat × TopDir P :=
  match s.topNew with
  | some file => (file, { s with content := update s.content file [] })
  | none =>
      (s.fresh, { s with
        content := update s.content s.fresh []
        fresh := s.fresh + 1
        topNew := some s.fresh })

/-- `rename(DIR_MC "top.new", DIR_MC "top")` -/
def rename (s : TopDir P) : TopDir P :=
  match s.topNew with
  | some file => { s with top := file, topNew := none }
  | none => s

/-- The next system call of a run. -/
def step [DecidableEq P] [Fintype P] (s : TopDir P) (p : P) : Option (TopDir P) :=
  match s.phase p with
  | .idle => some (s.goto p (.opened s.top))
  | .opened fp => if s.LockFree p fp then some (s.goto p (.locked fp)) else none
  | .locked fp => some (s.goto p (.computed fp ((scanTop (s.content fp)).update (player p))))
  | .computed fp t => some (s.fopenNew.2.goto p (.created fp s.fopenNew.1 t))
  | .created fp fpnew t =>
      if s.LockFree p fpnew then some (s.goto p (.newLocked fp fpnew t)) else none
  | .newLocked fp fpnew t => some (s.goto p (.newUnlocked fp fpnew t))
  -- `fclose` writes what has been printed
  | .newUnlocked fp fpnew t =>
      some ({ s with
        content := update s.content fpnew (writeAt (s.content fpnew) 0 t.print) }.goto p
          (.written fp))
  | .written _ => some (s.goto p .unlocked)
  | .unlocked => some (s.rename.goto p .done)
  | .done => none

/-- The file `top` is there, and no run has begun. -/
def start (t : Top) : TopDir P where
  content := update (fun _ => []) 0 t.print
  fresh := 1
  top := 0
  topNew := none
  phase _ := .idle

/-- The file that a run locks is still `top`, and no other run has given back its lock
without having renamed its file; and no user who is on a list takes its last place. -/
def Current (s : TopDir P) (p : P) : Prop :=
  match s.phase p with
  | .opened fp => fp = s.top ∧ ∀ q, s.phase q ≠ .unlocked
  | .locked fp => (scanTop (s.content fp)).KeepsLast (player p)
  | _ => True

instance [Fintype P] (s : TopDir P) (p : P) : Decidable (s.Current player p) :=
  match h : s.phase p with
  | .opened fp =>
      decidable_of_iff (fp = s.top ∧ ∀ q, s.phase q ≠ .unlocked) (by rw [Current, h])
  | .locked fp =>
      decidable_of_iff ((scanTop (s.content fp)).KeepsLast (player p)) (by rw [Current, h])
  | .idle | .computed _ _ | .created _ _ _ | .newLocked _ _ _ | .newUnlocked _ _ _ | .written _
  | .unlocked | .done => isTrue (by rw [Current, h]; trivial)

/-! ## What is known between the calls -/

/-- The run has got the lock on `top`, and has not renamed its file. -/
def Busy : TopPhase → Bool
  | .idle | .opened _ | .done => false
  | _ => true

/-- What is known of the directory when a run is in a phase; `t` is what `top` holds. -/
def PhaseOk (s : TopDir P) (t : Top) (u : Player) : TopPhase → Prop
  | .idle | .opened _ | .done => True
  | .locked fp => fp = s.top ∧ s.topNew = none
  | .computed fp t' => fp = s.top ∧ s.topNew = none ∧ t' = t.update u ∧ t.KeepsLast u
  | .created fp fpnew t' | .newLocked fp fpnew t' | .newUnlocked fp fpnew t' =>
      fp = s.top ∧ s.topNew = some fpnew ∧ s.content fpnew = [] ∧ t' = t.update u ∧ t.KeepsLast u
  | .written fp =>
      fp = s.top ∧ ∃ fpnew, s.topNew = some fpnew ∧ s.content fpnew = (t.update u).print ∧
        t.KeepsLast u
  | .unlocked =>
      ∃ fpnew, s.topNew = some fpnew ∧ s.content fpnew = (t.update u).print ∧ t.KeepsLast u

/-- The runs that are done are applied, in some order, and at most one other is at work. -/
structure Inv (t₀ : Top) (s : TopDir P) (order : List P) (t : Top) : Prop where
  nodup : order.Nodup
  mem_order : ∀ p, p ∈ order ↔ s.phase p = .done
  updated : Updated t₀ (order.map player) t
  top : s.content s.top = t.print
  top_lt : s.top < s.fresh
  topNew : ∀ file ∈ s.topNew, file ≠ s.top ∧ file < s.fresh
  alone : ∀ p q, Busy (s.phase p) → Busy (s.phase q) → p = q
  quiet : (∀ p, ¬Busy (s.phase p)) → s.topNew = none
  phases : ∀ p, PhaseOk s t (player p) (s.phase p)

variable {player} {t₀ t : Top} {s s' : TopDir P} {order : List P} {p q : P} {ph : TopPhase}

theorem phaseOk_idle (h : ¬Busy ph) (s : TopDir P) (t : Top) (u : Player) : PhaseOk s t u ph := by
  cases ph <;> trivial

theorem Inv.others (h : s.Inv player t₀ order t) (hp : Busy (s.phase p)) (hne : q ≠ p) :
    ¬Busy (s.phase q) :=
  fun hq => hne (h.alone q p hq hp)

/-- Who holds the lock of `top`, or has not renamed its file, keeps others out. -/
theorem Inv.nobody (h : s.Inv player t₀ order t) (hp : s.phase p = .opened s.top)
    (hfree : s.LockFree p s.top) (hrename : ∀ q, s.phase q ≠ .unlocked) (q : P) :
    ¬Busy (s.phase q) := by
  intro hq
  have hne : q ≠ p := by
    rintro rfl
    rw [hp] at hq
    contradiction
  have hnot := hfree q hne
  have hok := h.phases q
  cases hph : s.phase q with
  | idle | opened fp | done =>
      rw [hph] at hq
      contradiction
  | locked fp | computed fp t' | created fp fpnew t' | newLocked fp fpnew t'
  | newUnlocked fp fpnew t' | written fp =>
      rw [hph] at hok hnot
      obtain ⟨rfl, -⟩ := hok
      exact hnot List.mem_cons_self
  | unlocked => exact hrename q hph

theorem Inv.start (player : P → Player) (t₀ : Top) : (start t₀).Inv player t₀ [] t₀ where
  nodup := .nil
  mem_order p := by
    constructor
    · intro hp
      contradiction
    · intro hp
      contradiction
  updated := .start
  top := by simp [TopDir.start]
  top_lt := Nat.zero_lt_one
  topNew file hfile := by contradiction
  alone p q hp := by contradiction
  quiet _ := rfl
  phases p := trivial

variable [DecidableEq P]

/-- A call of the run that is at work. -/
theorem Inv.work (h : s.Inv player t₀ order t) (hp : Busy (s.phase p))
    (hphase : s'.phase = update s.phase p ph) (hbusy : Busy ph) (htop : s'.content s'.top = t.print)
    (hlt : s'.top < s'.fresh) (hnew : ∀ file ∈ s'.topNew, file ≠ s'.top ∧ file < s'.fresh)
    (hok : PhaseOk s' t (player p) ph) : s'.Inv player t₀ order t where
  nodup := h.nodup
  mem_order q := by
    rw [h.mem_order, hphase]
    by_cases hq : q = p
    · subst hq
      rw [update_self]
      constructor
      · intro hdone
        rw [hdone] at hp
        contradiction
      · rintro rfl
        contradiction
    · rw [update_of_ne hq]
  updated := h.updated
  top := htop
  top_lt := hlt
  topNew := hnew
  alone q r hq hr := by
    have hself : ∀ q, Busy (s'.phase q) → q = p := by
      intro q hq
      by_contra hne
      rw [hphase, update_of_ne hne] at hq
      exact h.others hp hne hq
    rw [hself q hq, hself r hr]
  quiet hnone := by
    refine absurd ?_ (hnone p)
    rwa [hphase, update_self]
  phases q := by
    rw [hphase]
    by_cases hq : q = p
    · subst hq
      rwa [update_self]
    · rw [update_of_ne hq]
      exact phaseOk_idle (h.others hp hq) ..

theorem Inv.open (h : s.Inv player t₀ order t) (hp : s.phase p = .idle) :
    (s.goto p (.opened s.top)).Inv player t₀ order t where
  nodup := h.nodup
  mem_order q := by
    rw [h.mem_order, goto_phase]
    by_cases hq : q = p
    · subst hq
      simp [hp]
    · simp only [update_of_ne hq]
  updated := h.updated
  top := h.top
  top_lt := h.top_lt
  topNew := h.topNew
  alone q r hq hr := by
    have hback : ∀ q, Busy ((s.goto p (.opened s.top)).phase q) → Busy (s.phase q) := by
      intro q hq
      by_cases hqp : q = p
      · subst hqp
        rw [goto_phase, update_self] at hq
        contradiction
      · rwa [goto_phase, update_of_ne hqp] at hq
    exact h.alone q r (hback q hq) (hback r hr)
  quiet hnone := by
    refine h.quiet fun q hq => hnone q ?_
    have hne : q ≠ p := by
      rintro rfl
      rw [hp] at hq
      contradiction
    rwa [goto_phase, update_of_ne hne]
  phases q := by
    by_cases hq : q = p
    · subst hq
      rw [goto_phase, update_self]
      trivial
    · rw [goto_phase, update_of_ne hq]
      exact h.phases q

theorem Inv.lock (h : s.Inv player t₀ order t) (hp : s.phase p = .opened s.top)
    (hnobody : ∀ q, ¬Busy (s.phase q)) : (s.goto p (.locked s.top)).Inv player t₀ order t where
  nodup := h.nodup
  mem_order q := by
    rw [h.mem_order, goto_phase]
    by_cases hq : q = p
    · subst hq
      simp [hp]
    · simp only [update_of_ne hq]
  updated := h.updated
  top := h.top
  top_lt := h.top_lt
  topNew := h.topNew
  alone q r hq hr := by
    have hself : ∀ q, Busy ((s.goto p (.locked s.top)).phase q) → q = p := by
      intro q hq
      by_contra hne
      rw [goto_phase, update_of_ne hne] at hq
      exact hnobody q hq
    rw [hself q hq, hself r hr]
  quiet hnone := by
    refine absurd ?_ (hnone p)
    rw [goto_phase, update_self]
    rfl
  phases q := by
    by_cases hq : q = p
    · subst hq
      rw [goto_phase, update_self]
      exact ⟨rfl, h.quiet hnobody⟩
    · rw [goto_phase, update_of_ne hq]
      exact h.phases q

/-- `rename` applies the update. -/
theorem Inv.rename (h : s.Inv player t₀ order t) (hp : s.phase p = .unlocked) :
    (s.rename.goto p .done).Inv player t₀ (order ++ [p]) (t.update (player p)) := by
  have hok := h.phases p
  rw [hp] at hok
  obtain ⟨fpnew, hnew, hcontent, hkeeps⟩ := hok
  have hbusy : Busy (s.phase p) := by rw [hp]; rfl
  have hrename : s.rename = { s with top := fpnew, topNew := none } := by
    rw [TopDir.rename, hnew]
  have hnobody : ∀ q, ¬Busy ((s.rename.goto p .done).phase q) := by
    intro q
    rw [hrename, goto_phase]
    by_cases hq : q = p
    · subst hq
      rw [update_self]
      exact Bool.false_ne_true
    · rw [update_of_ne hq]
      exact h.others hbusy hq
  refine ⟨?_, ?_, ?_, ?_, ?_, ?_, ?_, ?_, ?_⟩
  · rw [← List.concat_eq_append, List.nodup_concat, h.mem_order, hp]
    exact ⟨fun hdone => by contradiction, h.nodup⟩
  · intro q
    rw [hrename, goto_phase, List.mem_append, List.mem_singleton, h.mem_order]
    by_cases hq : q = p
    · subst hq
      simp
    · simp only [update_of_ne hq, hq, or_false]
  · rw [List.map_append]
    exact h.updated.next hkeeps
  · rw [hrename]
    exact hcontent
  · rw [hrename]
    exact (h.topNew fpnew hnew).2
  · rw [hrename]
    intro file hfile
    contradiction
  · intro q r hq
    exact absurd hq (hnobody q)
  · intro _
    rw [hrename]
    rfl
  · intro q
    exact phaseOk_idle (hnobody q) ..

/-- **One system call** of a run that meets the condition. -/
theorem Inv.step [Fintype P] (ht₀ : t₀.Ordered) (h : s.Inv player t₀ order t) (hcurrent : s.Current player p)
    (hstep : s.step player p = some s') : ∃ order' t', s'.Inv player t₀ order' t' := by
  have hok := h.phases p
  rw [Current] at hcurrent
  rw [TopDir.step] at hstep
  cases hp : s.phase p with
  | idle =>
      rw [hp] at hstep
      cases hstep
      exact ⟨order, t, h.open hp⟩
  | opened fp =>
      rw [hp] at hstep hcurrent
      obtain ⟨rfl, hrename⟩ := hcurrent
      dsimp only at hstep
      split at hstep
      · next hfree =>
          cases hstep
          exact ⟨order, t, h.lock hp (h.nobody hp hfree hrename)⟩
      · contradiction
  | locked fp =>
      rw [hp] at hstep hcurrent hok
      obtain ⟨rfl, hnone⟩ := hok
      cases hstep
      have hscan : scanTop (s.content s.top) = t := by
        rw [h.top]
        exact scanTop_print (h.updated.ordered ht₀).valid
      dsimp only at hcurrent
      rw [hscan] at hcurrent ⊢
      exact ⟨order, t, h.work (by rw [hp]; rfl) rfl rfl h.top h.top_lt h.topNew
        ⟨rfl, hnone, rfl, hcurrent⟩⟩
  | computed fp t' =>
      rw [hp] at hstep hok
      obtain ⟨rfl, hnone, ht', hkeeps⟩ := hok
      have hopen : s.fopenNew = (s.fresh, { s with
          content := update s.content s.fresh []
          fresh := s.fresh + 1
          topNew := some s.fresh }) := by
        rw [fopenNew, hnone]
      rw [hopen] at hstep
      cases hstep
      have hne : s.top ≠ s.fresh := Nat.ne_of_lt h.top_lt
      refine ⟨order, t, h.work (by rw [hp]; rfl) rfl rfl ?_ ?_ ?_ ?_⟩
      · exact (update_of_ne hne _ _).trans h.top
      · exact Nat.lt_succ_of_lt h.top_lt
      · intro file hfile
        cases hfile
        exact ⟨hne.symm, Nat.lt_succ_self _⟩
      · exact ⟨rfl, rfl, update_self .., ht', hkeeps⟩
  | created fp fpnew t' =>
      rw [hp] at hstep hok
      dsimp only at hstep
      split at hstep
      · cases hstep
        exact ⟨order, t, h.work (by rw [hp]; rfl) rfl rfl h.top h.top_lt h.topNew hok⟩
      · contradiction
  | newLocked fp fpnew t' =>
      rw [hp] at hstep hok
      cases hstep
      exact ⟨order, t, h.work (by rw [hp]; rfl) rfl rfl h.top h.top_lt h.topNew hok⟩
  | newUnlocked fp fpnew t' =>
      rw [hp] at hstep hok
      obtain ⟨rfl, hnew, hempty, rfl, hkeeps⟩ := hok
      cases hstep
      have hne := (h.topNew fpnew hnew).1
      have hwrite : writeAt (s.content fpnew) 0 (t.update (player p)).print =
          (t.update (player p)).print := by
        rw [hempty, writeAt_end List.length_nil.symm, List.nil_append]
      refine ⟨order, t, h.work (by rw [hp]; rfl) rfl rfl ?_ h.top_lt h.topNew ?_⟩
      · exact (update_of_ne hne.symm _ _).trans h.top
      · exact ⟨rfl, fpnew, hnew, (update_self ..).trans hwrite, hkeeps⟩
  | written fp =>
      rw [hp] at hstep hok
      cases hstep
      exact ⟨order, t, h.work (by rw [hp]; rfl) rfl rfl h.top h.top_lt h.topNew hok.2⟩
  | unlocked =>
      rw [hp] at hstep
      cases hstep
      exact ⟨_, _, h.rename hp⟩
  | done =>
      rw [hp] at hstep
      contradiction

end TopDir

/-! ## Runs -/

open TopDir

/-- **Updates of the ranking file.**  While every run locks the file that is still `top`,
and takes no last place that is not its user's, the file is the result of applying, in
some order, the updates of the runs that are done.  Its lists are sorted, nobody is on a
list twice, and whoever is on a list has the score of his last run. -/
theorem top_run {P : Type} [DecidableEq P] [Fintype P] {player : P → Player} {t₀ : Top}
    {es : List P} {s : TopDir P} (ht₀ : t₀.Ordered)
    (h : Run (when (Current player) (step player)) (start t₀) es s) :
    ∃ order : List P, order.Nodup ∧ (∀ p, p ∈ order ↔ s.phase p = .done) ∧
      ∃ t : Top, s.content s.top = t.print ∧ t = (order.map player).foldl Top.update t₀ ∧
        t.Ordered ∧ ∀ id u, (order.map player).reverse.find? (·.userid = id) = some u →
          (∀ e ∈ t.money, e.id = id → e.score = u.money) ∧
          (∀ e ∈ t.rob, e.id = id → e.score = u.robExp) ∧
          ∀ e ∈ t.beg, e.id = id → e.score = u.begExp := by
  have hinv : ∃ order t, s.Inv player t₀ order t :=
    h.invariant_when (fun s => ∃ order t, s.Inv player t₀ order t) ⟨[], t₀, Inv.start player t₀⟩
      fun s p s' hs hcurrent hstep => by
        obtain ⟨order, t, hs⟩ := hs
        exact hs.step ht₀ hcurrent hstep
  obtain ⟨order, t, hinv⟩ := hinv
  refine ⟨order, hinv.nodup, hinv.mem_order, t, hinv.top, hinv.updated.eq_foldl,
    hinv.updated.ordered ht₀, fun id u hu => ⟨?_, ?_, ?_⟩⟩
  · rintro e he rfl
    exact lastScore (fun _ _ => rfl) (fun _ _ hk => hk.1) (fun _ ht => ht.money.nodup)
      hinv.updated ht₀ he hu
  · rintro e he rfl
    exact lastScore (fun _ _ => rfl) (fun _ _ hk => hk.2.1) (fun _ ht => ht.rob.nodup)
      hinv.updated ht₀ he hu
  · rintro e he rfl
    exact lastScore (fun _ _ => rfl) (fun _ _ hk => hk.2.2) (fun _ ht => ht.beg.nodup)
      hinv.updated ht₀ he hu

/-- A file with nobody on its lists. -/
def nobodyTop : Top :=
  ⟨List.replicate LISTNUM .null, List.replicate LISTNUM .null, List.replicate LISTNUM .null⟩

theorem ordered_nobody {lo hi : Int} (hlo : lo ≤ 0) (hhi : 0 < hi) :
    Ordered lo hi (List.replicate LISTNUM .null) where
  length := List.length_replicate
  ne_nil e he := by
    rw [List.eq_of_mem_replicate he]
    decide
  word e he := by
    rw [List.eq_of_mem_replicate he]
    decide +kernel
  lo_le e he := by rwa [List.eq_of_mem_replicate he]
  lt_hi e he := by rwa [List.eq_of_mem_replicate he]
  nodup := by decide +kernel
  sorted := List.pairwise_replicate.mpr (Or.inr (Int.le_refl _))

theorem nobodyTop_ordered : nobodyTop.Ordered :=
  ⟨ordered_nobody (by decide) (by decide), ordered_nobody (by decide) (by decide),
    ordered_nobody (by decide) (by decide)⟩

/-- Two users, `a` with a balance of 5 and `b` with one of 7. -/
def richPlayer (b : Bool) : Player where
  userid := [if b then 98 else 97]
  cash := if b then 7 else 5
  credit := 0
  interest := 0
  safemoney := 0
  robExp := 0
  begExp := 0
  userid_ne_nil := List.cons_ne_nil _ _
  userid_word := by revert b; decide +kernel
  userid_ne_null := by revert b; decide
  robExp_range := by decide
  begExp_range := by decide

theorem top_run_one_after_other : nobodyTop.Ordered ∧ ∃ s : TopDir Bool,
    Run (when (Current richPlayer) (step richPlayer)) (start nobodyTop)
      (List.replicate 9 false ++ List.replicate 9 true) s ∧
    (∀ p, s.phase p = .done) ∧
    ∃ order : List Bool, order.Nodup ∧ (∀ p, p ∈ order ↔ s.phase p = .done) ∧
      ∃ t : Top, s.content s.top = t.print ∧
        t = (order.map richPlayer).foldl Top.update nobodyTop ∧
        t.Ordered ∧ ∀ id u, (order.map richPlayer).reverse.find? (·.userid = id) = some u →
          (∀ e ∈ t.money, e.id = id → e.score = u.money) ∧
          (∀ e ∈ t.rob, e.id = id → e.score = u.robExp) ∧
          ∀ e ∈ t.beg, e.id = id → e.score = u.begExp := by
  have hexec : ∃ s ∈ exec (when (Current richPlayer) (step richPlayer)) (start nobodyTop)
      (List.replicate 9 false ++ List.replicate 9 true), ∀ p, s.phase p = .done := by
    decide +kernel
  obtain ⟨s, hs, hdone⟩ := hexec
  exact ⟨nobodyTop_ordered, s, Run.of_exec hs, hdone,
    top_run nobodyTop_ordered (Run.of_exec hs)⟩

/-- Both runs open the file before the first has renamed its own: the update of the first
is lost, whatever order the updates are applied in. -/
theorem top_loses_update : nobodyTop.Ordered ∧ ∃ s : TopDir Bool,
    Run (step richPlayer) (start nobodyTop)
      ([false, true] ++ List.replicate 8 false ++ List.replicate 8 true) s ∧
    (∀ p, s.phase p = .done) ∧
    ∀ order : List Bool, order.Nodup → (∀ p, p ∈ order) →
      s.content s.top ≠ ((order.map richPlayer).foldl Top.update nobodyTop).print := by
  have hexec : ∃ s ∈ exec (step richPlayer) (start nobodyTop)
      ([false, true] ++ List.replicate 8 false ++ List.replicate 8 true),
      (∀ p, s.phase p = .done) ∧ ∀ order ∈ [false, true].permutations',
        s.content s.top ≠ ((order.map richPlayer).foldl Top.update nobodyTop).print := by
    decide +kernel
  obtain ⟨s, hs, hdone, hlost⟩ := hexec
  refine ⟨nobodyTop_ordered, s, Run.of_exec hs, hdone, fun order hnd hall => hlost order ?_⟩
  rw [List.mem_permutations', List.perm_ext_iff_of_nodup hnd (by decide)]
  simp [hall]

end Ytht
