import Mathlib.Data.Fintype.Prod
import Mathlib.Data.List.ProdSigma
import Mathlib.Data.Set.Card
import Ytht.Chessd.Play
import Ytht.Lib.Groups

/-!
# Chessd.Go

The game of Go.  `check_godata` finds the dead stones of a colour by taking away, from a
copy of the board, every stone beside a free point until none is left that can be taken
(`peel`): what remains is dead.  It computes `Groups.capture` (`checkGodata_spec`), and
an accepted request is a `Groups.move`.

`single` is asked before the captures, and `go_go` uses its answer both against suicide
and for the ko point.
-/

namespace Ytht

open Function Groups

/-! ## The board -/

abbrev GoPoint := Fin 19 × Fin 19

/-- `matrix`: a stone is its colour plus 1 there. -/
abbrev GoBoard := Board GoPoint

/-- The point at a place that may be outside. -/
def goPoint? (i j : Int) : Option GoPoint :=
  if h : 0 ≤ i ∧ i < 19 ∧ 0 ≤ j ∧ j < 19 then some (⟨i.toNat, by omega⟩, ⟨j.toNat, by omega⟩)
  else none

/-- The points beside a point, in the order of `check_godata`. -/
def beside (p : GoPoint) : List GoPoint :=
  [goPoint? (p.1 - 1) p.2, goPoint? (p.1 + 1) p.2, goPoint? p.1 (p.2 - 1),
    goPoint? p.1 (p.2 + 1)].filterMap id

/-- The points, row by row. -/
def goPoints : List GoPoint := (List.finRange 19).flatMap fun i => (List.finRange 19).map fun j => (i, j)

/-- `single`. -/
def single (m : GoBoard) (p : GoPoint) (nw : Bool) : Bool := (beside p).all fun q => m q = some nw

/-- One point in the first loop of `check_godata`, with `c`. -/
def peelPoint (who : Bool) (s : GoBoard × Nat) (p : GoPoint) : GoBoard × Nat :=
  if s.1 p = some who ∧ (beside p).any (fun q => s.1 q = none) then
    (update s.1 p none, s.2 + 1)
  else s

/-- The first loop of `check_godata`, until a pass takes nothing.  The fuel is enough:
every other pass takes one of 361 stones. -/
def peel (who : Bool) : Nat → GoBoard → GoBoard
  | 0, m => m
  | fuel + 1, m =>
      let (m, c) := goPoints.foldl (peelPoint who) (m, 0)
      if c = 0 then m else peel who fuel m

/-- What the second loop of `check_godata` writes. -/
structure GoTaken where
  m : GoBoard
  y : Nat
  x : Nat
  c : Nat

/-- One point in the second loop of `check_godata`. -/
def takePoint (who : Bool) (matrix : GoBoard) (s : GoTaken) (p : GoPoint) : GoTaken :=
  if matrix p = some who then ⟨update s.m p none, p.1.val + 1, p.2.val + 1, s.c + 1⟩ else s

/-- `check_godata`, with `*y` and `*x` as they are before. -/
def checkGodata (m : GoBoard) (who : Bool) (y x : Nat) : GoTaken :=
  goPoints.foldl (takePoint who (peel who 362 m)) ⟨m, y, x, 0⟩

/-! ## Requests -/

/-- `struct godata`, without its history. -/
structure GoData where
  matrix : GoBoard
  uy : Nat
  ux : Nat
  who : Bool

/-- `go_init`. -/
def goInit : GoData := ⟨fun _ => none, 0, 0, false⟩

/-- `go_go` at a free point that is not the ko point. -/
def goPlace (i : Slot) (f : GoData) (p : GoPoint) : GoData × List Sent :=
  let m := update f.matrix p (some f.who)
  let si := single m p (!f.who)
  let r := checkGodata m (!f.who) f.uy f.ux
  if r.c = 0 ∧ si = true then
    ({ f with matrix := update r.m p none, uy := r.y, ux := r.x },
      [.addmsgqueue (some i) cmdC "系统: 这是毫无价值的走法, 换个地方走走吧"])
  else
    ({ matrix := (checkGodata r.m f.who 0 0).m
       uy := if r.c ≠ 1 ∨ si = false then 0 else r.y
       ux := r.x
       who := !f.who },
      [.broadcastroom 6 s!"g{f.who.toNat} {p.1.val + 1} {p.2.val + 1}"])

/-- A coordinate that has been checked, counted from 0. -/
theorem goIndex_lt (k : Int) (hpos : 0 < k) (hle : k ≤ 19) : (k - 1).toNat < 19 := by
  omega

/-- `go_go`. -/
def goGo (t : Seats) (i : Slot) (data : List UInt8) (f : GoData) : GoData × List Sent :=
  if t.of f.who ≠ some i then (f, [])
  else
    match scan2 data with
    | none => (f, [])
    | some (y, x) =>
        if h : 0 < y ∧ y ≤ 19 ∧ 0 < x ∧ x ≤ 19 then
          let p : GoPoint := (⟨(y - 1).toNat, goIndex_lt y h.1 h.2.1⟩,
            ⟨(x - 1).toNat, goIndex_lt x h.2.2.1 h.2.2.2⟩)
          if f.matrix p ≠ none then (f, [])
          else if f.uy = y ∧ f.ux = x then
            (f, [.addmsgqueue (some i) cmdC "系统: 这个位置现在不能落子呢, 换个地方走走吧"])
          else goPlace i f p
        else (f, [])

/-- The game after a request. -/
def goStep (f : GoData) (r : PlayRequest) : GoData := (goGo r.seats r.i r.data f).1

/-- A request is accepted when the room is told of the move. -/
def goAccepts (f : GoData) (r : PlayRequest) : Bool :=
  (goGo r.seats r.i r.data f).2.any fun sent => sent.to = none

/-- The game after requests from the start. -/
def goPlay (rs : List PlayRequest) : GoData := rs.foldl goStep goInit

/-- The game after a request, and the boards after the accepted ones, the last one first. -/
def goRecord (s : GoData × List GoBoard) (r : PlayRequest) : GoData × List GoBoard :=
  (goStep s.1 r, if goAccepts s.1 r then (goStep s.1 r).matrix :: s.2 else s.2)

/-- The boards after the accepted moves, the last one first, and at the start. -/
def goBoards (rs : List PlayRequest) : List GoBoard :=
  (rs.foldl goRecord (goInit, [goInit.matrix])).2

/-! ## The points beside a point -/

/-- `q` is beside `p`. -/
def GoAdj (p q : GoPoint) : Prop := q ∈ beside p

theorem goPoint?_eq_some {i j : Int} {q : GoPoint} :
    goPoint? i j = some q ↔ (q.1 : Int) = i ∧ (q.2 : Int) = j := by
  unfold goPoint?
  obtain ⟨⟨a, ha⟩, ⟨b, hb⟩⟩ := q
  split
  · simp only [Option.some.injEq, Prod.mk.injEq, Fin.mk.injEq]
    omega
  · simp only [reduceCtorEq, false_iff]
    omega

theorem goAdj_iff {p q : GoPoint} :
    GoAdj p q ↔ (q.1 : Int) = p.1 - 1 ∧ (q.2 : Int) = p.2 ∨ (q.1 : Int) = p.1 + 1 ∧ (q.2 : Int) = p.2 ∨
      (q.1 : Int) = p.1 ∧ (q.2 : Int) = p.2 - 1 ∨ (q.1 : Int) = p.1 ∧ (q.2 : Int) = p.2 + 1 := by
  simp only [GoAdj, beside, List.mem_filterMap, id_eq, exists_eq_right, List.mem_cons,
    List.not_mem_nil, or_false, eq_comm (a := some q), goPoint?_eq_some]

theorem goAdj_symm (p q : GoPoint) (h : GoAdj p q) : GoAdj q p := by
  rw [goAdj_iff] at h ⊢
  omega

theorem goAdj_irrefl (p : GoPoint) : ¬ GoAdj p p := by
  rw [goAdj_iff]
  omega

theorem mem_goPoints (p : GoPoint) : p ∈ goPoints := by
  simp [goPoints]

theorem nodup_goPoints : goPoints.Nodup := (List.nodup_finRange 19).product (List.nodup_finRange 19)

/-! ## check_godata -/

section peel

variable {who : Bool} {m₀ m : GoBoard}

/-- A stone that the first loop can take. -/
def Peelable (who : Bool) (m : GoBoard) (p : GoPoint) : Prop :=
  m p = some who ∧ ∃ q, GoAdj p q ∧ m q = none

instance (p : GoPoint) : Decidable (Peelable who m p) :=
  inferInstanceAs (Decidable (m p = some who ∧ ∃ q, q ∈ beside p ∧ m q = none))

theorem peelPoint_eq (s : GoBoard × Nat) (p : GoPoint) :
    peelPoint who s p = if Peelable who s.1 p then (update s.1 p none, s.2 + 1) else s := by
  unfold peelPoint
  congr 1
  simp [Peelable, GoAdj]

/-- What was taken from the copy is alive on the board. -/
def Peeled (who : Bool) (m₀ m : GoBoard) : Prop :=
  ∀ p, m p = m₀ p ∨ m p = none ∧ m₀ p = some who ∧ Alive GoAdj m₀ p

theorem Peeled.peelPoint {s : GoBoard × Nat} (h : Peeled who m₀ s.1) (p : GoPoint) :
    Peeled who m₀ (peelPoint who s p).1 := by
  rw [peelPoint_eq]
  split
  · next hpeel =>
      obtain ⟨hp, q, hadj, hq⟩ := hpeel
      have hp₀ : m₀ p = some who := by
        cases h p with
        | inl hsame => rw [← hsame, hp]
        | inr hgone => exact hgone.2.1
      have hstone : m₀ p ≠ none := by simp [hp₀]
      intro r
      by_cases hr : r = p
      · subst hr
        refine .inr ⟨update_self .., hp₀, ?_⟩
        cases h q with
        | inl hsame => exact .liberty hstone hadj (by rw [← hsame, hq])
        | inr hgone => exact .along hstone hadj (by rw [hgone.2.1, hp₀]) hgone.2.2
      · show update s.1 p none r = m₀ r ∨ update s.1 p none r = none ∧ _
        rw [update_of_ne hr]
        exact h r
  · exact h

/-- The stones of a colour. -/
def stones (who : Bool) (m : GoBoard) : Nat := (Finset.univ.filter fun p => m p = some who).card

theorem stones_lt (who : Bool) (m : GoBoard) : stones who m < 362 :=
  Nat.lt_succ_of_le ((Finset.card_le_univ _).trans_eq (by simp))

/-- What is counted is what is taken. -/
theorem peelPoint_count (s : GoBoard × Nat) (p : GoPoint) :
    (peelPoint who s p).2 + stones who (peelPoint who s p).1 = s.2 + stones who s.1 := by
  rw [peelPoint_eq]
  split
  · next hpeel =>
      have hmem : p ∈ Finset.univ.filter fun q => s.1 q = some who := by simp [hpeel.1]
      have herase : (Finset.univ.filter fun q => update s.1 p none q = some who) =
          (Finset.univ.filter fun q => s.1 q = some who).erase p := by
        ext q
        by_cases hq : q = p
        · simp [hq]
        · simp [hq]
      have hpos := Finset.card_pos.mpr ⟨p, hmem⟩
      show s.2 + 1 + (Finset.univ.filter fun q => update s.1 p none q = some who).card = _
      rw [herase, Finset.card_erase_of_mem hmem]
      unfold stones
      omega
  · rfl

theorem le_peelPoint (s : GoBoard × Nat) (p : GoPoint) : s.2 ≤ (peelPoint who s p).2 := by
  unfold peelPoint
  split
  · exact Nat.le_succ _
  · exact Nat.le_refl _

/-- What a pass does: it takes stones that are alive, and none only when it could not. -/
theorem peelPass_spec (ps : List GoPoint) (s : GoBoard × Nat) (h : Peeled who m₀ s.1) :
    Peeled who m₀ (ps.foldl (peelPoint who) s).1 ∧
      (ps.foldl (peelPoint who) s).2 + stones who (ps.foldl (peelPoint who) s).1 =
        s.2 + stones who s.1 ∧
      s.2 ≤ (ps.foldl (peelPoint who) s).2 ∧
      ((ps.foldl (peelPoint who) s).2 = s.2 →
        (ps.foldl (peelPoint who) s).1 = s.1 ∧ ∀ p ∈ ps, ¬ Peelable who s.1 p) := by
  induction ps generalizing s with
  | nil => exact ⟨h, rfl, Nat.le_refl _, fun _ => ⟨rfl, fun p hp => absurd hp List.not_mem_nil⟩⟩
  | cons p ps ih =>
      rw [List.foldl_cons]
      obtain ⟨hpeeled, hcount, hle, hnone⟩ := ih (peelPoint who s p) (h.peelPoint p)
      refine ⟨hpeeled, hcount.trans (peelPoint_count s p), (le_peelPoint s p).trans hle, fun hsame => ?_⟩
      have hfirst : ¬ Peelable who s.1 p := by
        intro hpeel
        rw [peelPoint_eq, if_pos hpeel] at hle hsame
        omega
      rw [peelPoint_eq, if_neg hfirst] at hsame hnone ⊢
      obtain ⟨hboard, hps⟩ := hnone hsame
      refine ⟨hboard, fun q hq => ?_⟩
      cases List.mem_cons.mp hq with
      | inl heq => rwa [heq]
      | inr hmem => exact hps q hmem

/-- **The first loop** ends with a copy from which nothing more can be taken. -/
theorem peel_spec (fuel : Nat) (hfuel : stones who m < fuel) (h : Peeled who m₀ m) :
    Peeled who m₀ (peel who fuel m) ∧ ∀ p, ¬ Peelable who (peel who fuel m) p := by
  induction fuel generalizing m with
  | zero => omega
  | succ fuel ih =>
      obtain ⟨hpeeled, hcount, -, hnone⟩ := peelPass_spec goPoints (m, 0) h
      unfold peel
      dsimp only
      split
      · next hzero =>
          obtain ⟨hboard, hps⟩ := hnone hzero
          rw [hboard]
          exact ⟨h, fun p => hps p (mem_goPoints p)⟩
      · next hsome =>
          simp only [Nat.zero_add] at hcount
          exact ih (by omega) hpeeled

/-- What is left of a colour is dead. -/
theorem peel_eq_some (p : GoPoint) :
    peel who 362 m p = some who ↔ m p = some who ∧ ¬ Alive GoAdj m p := by
  obtain ⟨hpeeled, hnone⟩ := @peel_spec who m m 362 (stones_lt who m) fun p => .inl rfl
  generalize peel who 362 m = m' at hpeeled hnone ⊢
  have hgone : ∀ p, Alive GoAdj m p → m p = some who → m' p = none := by
    intro p halive
    induction halive with
    | @liberty p q _ hadj hfree =>
        intro hp
        have hq : m' q = none := by
          cases hpeeled q with
          | inl hsame => rw [hsame, hfree]
          | inr hgone => exact hgone.1
        cases hpeeled p with
        | inl hsame => exact absurd ⟨by rw [hsame, hp], q, hadj, hq⟩ (hnone p)
        | inr hgone => exact hgone.1
    | @along p q _ hadj hsame _ ih =>
        intro hp
        have hq := ih (by rw [hsame, hp])
        cases hpeeled p with
        | inl hsame => exact absurd ⟨by rw [hsame, hp], q, hadj, hq⟩ (hnone p)
        | inr hgone => exact hgone.1
  constructor
  · intro hp
    cases hpeeled p with
    | inl hsame =>
        rw [hp] at hsame
        refine ⟨hsame.symm, fun halive => ?_⟩
        rw [hgone p halive hsame.symm] at hp
        contradiction
    | inr hgone =>
        rw [hgone.1] at hp
        contradiction
  · rintro ⟨hp, hdead⟩
    cases hpeeled p with
    | inl hsame => rw [hsame, hp]
    | inr hgone => exact absurd hgone.2.2 hdead

/-- The first loop of `check_godata` comes to an end: passes from a board to another, the
last of which takes nothing. -/
inductive PeelEnds (who : Bool) : GoBoard → GoBoard → Prop
  | stop {m m' : GoBoard} : goPoints.foldl (peelPoint who) (m, 0) = (m', 0) → PeelEnds who m m'
  | pass {m m' m'' : GoBoard} {c : Nat} : goPoints.foldl (peelPoint who) (m, 0) = (m', c + 1) →
      PeelEnds who m' m'' → PeelEnds who m m''

theorem peel_ends (fuel : Nat) (hfuel : stones who m < fuel) :
    PeelEnds who m (peel who fuel m) := by
  induction fuel generalizing m with
  | zero => omega
  | succ fuel ih =>
      obtain ⟨-, hcount, -, -⟩ := @peelPass_spec who m goPoints (m, 0) fun p => .inl rfl
      unfold peel
      rcases hpass : goPoints.foldl (peelPoint who) (m, 0) with ⟨m', c⟩
      rw [hpass] at hcount
      cases c with
      | zero => exact .stop hpass
      | succ c =>
          refine .pass hpass (ih ?_)
          simp only [Nat.zero_add] at hcount
          omega

end peel

section take

variable {who : Bool} {m : GoBoard} {y x : Nat}

/-- What the second loop does with the points that it takes. -/
theorem foldl_take (ps : List GoPoint) (s : GoTaken) :
    let r := ps.foldl (fun s p => (⟨update s.m p none, p.1.val + 1, p.2.val + 1, s.c + 1⟩ : GoTaken)) s
    (∀ q, r.m q = if q ∈ ps then none else s.m q) ∧ r.c = s.c + ps.length := by
  induction ps generalizing s with
  | nil => exact ⟨fun q => (if_neg List.not_mem_nil).symm, rfl⟩
  | cons p ps ih =>
      obtain ⟨hboard, hcount⟩ := ih ⟨update s.m p none, p.1.val + 1, p.2.val + 1, s.c + 1⟩
      refine ⟨fun q => ?_, ?_⟩
      · rw [List.foldl_cons, hboard]
        by_cases hq : q = p
        · simp [hq]
        · simp [hq]
      · rw [List.foldl_cons, hcount, List.length_cons]
        show s.c + 1 + ps.length = _
        omega

open Classical in
/-- The points that `check_godata` takes. -/
noncomputable def deadPoints (m : GoBoard) (who : Bool) : List GoPoint :=
  goPoints.filter fun p => m p = some who ∧ ¬ Alive GoAdj m p

theorem mem_deadPoints {p : GoPoint} :
    p ∈ deadPoints m who ↔ m p = some who ∧ ¬ Alive GoAdj m p := by
  simp [deadPoints, mem_goPoints]

open Classical in
theorem checkGodata_eq :
    checkGodata m who y x =
      (deadPoints m who).foldl
        (fun s p => ⟨update s.m p none, p.1.val + 1, p.2.val + 1, s.c + 1⟩) ⟨m, y, x, 0⟩ := by
  have hstep : takePoint who (peel who 362 m) = fun s p =>
      if decide (m p = some who ∧ ¬ Alive GoAdj m p) = true then
        (⟨update s.m p none, p.1.val + 1, p.2.val + 1, s.c + 1⟩ : GoTaken)
      else s := by
    funext s p
    simp only [takePoint, peel_eq_some, decide_eq_true_eq]
  unfold checkGodata deadPoints
  rw [hstep, List.foldl_filter]

/-- **`check_godata` captures** the dead stones, and counts them. -/
theorem checkGodata_spec :
    (checkGodata m who y x).m = capture GoAdj m who ∧
      (checkGodata m who y x).c = (deadPoints m who).length := by
  obtain ⟨hboard, hcount⟩ := foldl_take (deadPoints m who) ⟨m, y, x, 0⟩
  rw [checkGodata_eq]
  refine ⟨?_, by rw [hcount]; exact Nat.zero_add _⟩
  funext p
  rw [hboard]
  unfold capture
  by_cases hdead : m p = some who ∧ ¬ Alive GoAdj m p
  · rw [if_pos (mem_deadPoints.mpr hdead), if_pos hdead]
  · rw [if_neg (fun h => hdead (mem_deadPoints.mp h)), if_neg hdead]

/-- When it takes nothing it changes nothing. -/
theorem checkGodata_none (h : (checkGodata m who y x).c = 0) :
    checkGodata m who y x = ⟨m, y, x, 0⟩ := by
  rw [checkGodata_spec.2, List.length_eq_zero_iff] at h
  rw [checkGodata_eq, h]
  rfl

/-- When it takes one stone it tells where. -/
theorem checkGodata_one {b : GoPoint}
    (h : ∀ p, m p = some who ∧ ¬ Alive GoAdj m p ↔ p = b) :
    (checkGodata m who y x).c = 1 ∧ (checkGodata m who y x).y = b.1.val + 1 ∧
      (checkGodata m who y x).x = b.2.val + 1 := by
  have hdead : deadPoints m who = [b] := by
    unfold deadPoints
    simp only [h]
    rw [List.filter_eq, List.count_eq_one_of_mem nodup_goPoints (mem_goPoints b)]
    rfl
  rw [checkGodata_eq, hdead]
  exact ⟨rfl, rfl, rfl⟩

/-- The dead stones of a colour: no point of the group is beside a free one. -/
def Dead (m : GoBoard) (who : Bool) (p : GoPoint) : Prop :=
  m p = some who ∧ ∀ q e, Connected GoAdj m p q → GoAdj q e → m e ≠ none

theorem dead_iff {p : GoPoint} : Dead m who p ↔ m p = some who ∧ ¬ Alive GoAdj m p := by
  refine and_congr_right fun hp => ?_
  rw [alive_iff (by simp [hp])]
  simp only [not_exists, not_and, ne_eq]

/-- The last point that it takes is reported. -/
theorem foldl_take_last (ps : List GoPoint) (s : GoTaken) (h : ps ≠ []) :
    let r := ps.foldl (fun s p => (⟨update s.m p none, p.1.val + 1, p.2.val + 1, s.c + 1⟩ : GoTaken)) s
    ∃ p ∈ ps, r.y = p.1.val + 1 ∧ r.x = p.2.val + 1 := by
  obtain rfl | ⟨ps, p, rfl⟩ := List.eq_nil_or_concat' ps
  · exact absurd rfl h
  · exact ⟨p, by simp, by simp⟩

/-- **`check_godata`** comes to an end, takes the dead stones and nothing else, tells how many
they are and where one of them was. -/
theorem checkGodata_dead (m : GoBoard) (who : Bool) (y x : Nat) :
    PeelEnds who m (peel who 362 m) ∧
      (∀ p, Dead m who p → (checkGodata m who y x).m p = none) ∧
      (∀ p, ¬ Dead m who p → (checkGodata m who y x).m p = m p) ∧
      (checkGodata m who y x).c = {p | Dead m who p}.ncard ∧
      (0 < (checkGodata m who y x).c → ∃ p, Dead m who p ∧
        (checkGodata m who y x).y = p.1.val + 1 ∧ (checkGodata m who y x).x = p.2.val + 1) := by
  obtain ⟨hboard, hcount⟩ := @checkGodata_spec who m y x
  refine ⟨peel_ends 362 (stones_lt who m), fun p hp => ?_, fun p hp => ?_, ?_, fun hpos => ?_⟩
  · obtain ⟨hstone, hdead⟩ := dead_iff.mp hp
    rw [hboard, capture_of_dead hstone hdead]
  · rw [hboard]
    unfold capture
    rw [if_neg (mt dead_iff.mpr hp)]
  · have hset : {p | Dead m who p} = ((deadPoints m who).toFinset : Set GoPoint) := by
      ext p
      simp [mem_deadPoints, dead_iff]
    have hnodup : (deadPoints m who).Nodup := nodup_goPoints.filter _
    rw [hcount, hset, Set.ncard_coe_finset, List.toFinset_card_of_nodup hnodup]
  · rw [hcount, List.length_pos_iff] at hpos
    obtain ⟨p, hp, hy, hx⟩ := foldl_take_last (deadPoints m who) ⟨m, y, x, 0⟩ hpos
    rw [checkGodata_eq]
    exact ⟨p, dead_iff.mpr (mem_deadPoints.mp hp), hy, hx⟩

end take

/-! ## Moves -/

/-- An accepted move at `p`. -/
structure GoMoved (f f' : GoData) (p : GoPoint) : Prop where
  free : f.matrix p = none
  notKo : ¬ (f.uy = p.1.val + 1 ∧ f.ux = p.2.val + 1)
  matrix : f'.matrix = move GoAdj f.matrix p f.who
  who : f'.who = !f.who
  /-- A stone with the other colour all around it captures something. -/
  first : (∀ q, GoAdj p q → place f.matrix p f.who q = some !f.who) →
    ∃ q, place f.matrix p f.who q = some (!f.who) ∧ ¬ Alive GoAdj (place f.matrix p f.who) q
  /-- And when that is one stone, its place is the ko point. -/
  ko : (∀ q, GoAdj p q → place f.matrix p f.who q = some !f.who) →
    ∀ b, (∀ q, place f.matrix p f.who q = some (!f.who) ∧
      ¬ Alive GoAdj (place f.matrix p f.who) q ↔ q = b) →
      f'.uy = b.1.val + 1 ∧ f'.ux = b.2.val + 1

theorem single_iff {m : GoBoard} {p : GoPoint} {nw : Bool} :
    single m p nw = true ↔ ∀ q, GoAdj p q → m q = some nw := by
  simp [single, GoAdj]

/-- **A request at a free point** that is not the ko point is rejected and changes
nothing, or is a move. -/
theorem goPlace_spec {f : GoData} {p : GoPoint} (i : Slot) (hfree : f.matrix p = none)
    (hko : ¬ (f.uy = p.1.val + 1 ∧ f.ux = p.2.val + 1)) :
    (goPlace i f p).1 = f ∧ (goPlace i f p).2.any (fun sent => sent.to = none) = false ∨
      GoMoved f (goPlace i f p).1 p ∧
        (goPlace i f p).2.any (fun sent => sent.to = none) = true := by
  have hplace : update f.matrix p (some f.who) = place f.matrix p f.who := rfl
  have hcapture := @checkGodata_spec (!f.who) (place f.matrix p f.who) f.uy f.ux
  unfold goPlace
  rw [hplace]
  dsimp only
  split
  · next hreject =>
      refine .inl ⟨?_, rfl⟩
      rw [checkGodata_none hreject.1]
      show GoData.mk _ _ _ _ = f
      congr
      funext q
      by_cases hq : q = p
      · rw [hq, update_self, hfree]
      · rw [update_of_ne hq]
        exact place_of_ne hq
  · next haccept =>
      refine .inr ⟨⟨hfree, hko, ?_, rfl, fun hall => ?_, fun hall b hb => ?_⟩, rfl⟩
      · dsimp only
        rw [(@checkGodata_spec f.who _ 0 0).1, hcapture.1]
        rfl
      · have hsome : (checkGodata (place f.matrix p f.who) (!f.who) f.uy f.ux).c ≠ 0 :=
          fun hzero => haccept ⟨hzero, single_iff.mpr hall⟩
        rw [hcapture.2, Ne, List.length_eq_zero_iff] at hsome
        obtain ⟨q, hq⟩ := List.exists_mem_of_ne_nil _ hsome
        exact ⟨q, mem_deadPoints.mp hq⟩
      · obtain ⟨hc, hy, hx⟩ := @checkGodata_one (!f.who) (place f.matrix p f.who) f.uy f.ux b hb
        dsimp only
        rw [if_neg (by simp [hc, single_iff.mpr hall])]
        exact ⟨hy, hx⟩

/-- **A request** changes nothing, or is accepted and is a move. -/
theorem goStep_spec (f : GoData) (r : PlayRequest) :
    goStep f r = f ∧ goAccepts f r = false ∨
      ∃ p, GoMoved f (goStep f r) p ∧ goAccepts f r = true := by
  unfold goStep goAccepts goGo
  split
  · exact .inl ⟨rfl, rfl⟩
  split
  · exact .inl ⟨rfl, rfl⟩
  split
  · dsimp only
    split
    · exact .inl ⟨rfl, rfl⟩
    next hfree =>
    split
    · exact .inl ⟨rfl, rfl⟩
    next y x hin hko =>
      refine (goPlace_spec r.i (not_not.mp hfree) fun h => hko ?_).imp_right fun h => ⟨_, h⟩
      obtain ⟨hy, hx⟩ := h
      simp only at hy hx
      omega
  · exact .inl ⟨rfl, rfl⟩

/-! ## Games -/

/-- The board is not the one before the last move when that ended at `f`. -/
theorem GoMoved.ne_before {f₀ f f' : GoData} {p p' : GoPoint} (hsettled : Settled GoAdj f₀.matrix)
    (h : GoMoved f₀ f p) (h' : GoMoved f f' p') : f'.matrix ≠ f₀.matrix := by
  intro hrep
  rw [h'.matrix, h.matrix, h.who] at hrep
  have hfree := h'.free
  rw [h.matrix] at hfree
  obtain ⟨hone, hall⟩ := Groups.ko goAdj_symm goAdj_irrefl hsettled h.free h.first hfree hrep
  exact h'.notKo (h.ko hall p' hone)

/-- What holds between the requests, with the boards so far. -/
structure GoInv (s : GoData × List GoBoard) : Prop where
  settled : Settled GoAdj s.1.matrix
  last : ∃ bs, s.2 = s.1.matrix :: bs ∧ (bs = [] ∨ ∃ f₀ p bs', bs = f₀.matrix :: bs' ∧
    Settled GoAdj f₀.matrix ∧ GoMoved f₀ s.1 p)
  noRepeat : ∀ k b, s.2[k]? = some b → s.2[k + 2]? ≠ some b

theorem goRecord_inv {s : GoData × List GoBoard} (h : GoInv s) (r : PlayRequest) :
    GoInv (goRecord s r) := by
  obtain ⟨f, boards⟩ := s
  unfold goRecord
  dsimp only
  rcases goStep_spec f r with ⟨hsame, hrejected⟩ | ⟨p, hmoved, haccepted⟩
  · rw [hsame, hrejected, if_neg Bool.false_ne_true]
    exact h
  · rw [haccepted, if_pos rfl]
    obtain ⟨bs, hbs, hbefore⟩ := h.last
    refine ⟨?_, ⟨boards, rfl, .inr ⟨f, p, bs, hbs, h.settled, hmoved⟩⟩, fun k b hk => ?_⟩
    · show Settled GoAdj (goStep f r).matrix
      rw [hmoved.matrix]
      exact settled_move _ _ _
    · cases k with
      | succ k => exact h.noRepeat k b hk
      | zero =>
          cases hk
          change boards = f.matrix :: bs at hbs
          show boards[1]? ≠ some (goStep f r).matrix
          rw [hbs]
          rcases hbefore with hnil | ⟨f₀, p₀, bs', hcons, hsettled, hmoved₀⟩
          · simp [hnil]
          · rw [hcons]
            intro hrep
            exact hmoved₀.ne_before hsettled hmoved (Option.some.inj hrep).symm

theorem goInv_foldl (rs : List PlayRequest) : GoInv (rs.foldl goRecord (goInit, [goInit.matrix])) := by
  refine List.foldlRecOn rs goRecord ⟨?_, ⟨[], rfl, .inl rfl⟩, ?_⟩ fun s h r _ => goRecord_inv h r
  · intro p hp
    exact absurd rfl hp
  · intro k b _ hk
    simp at hk

theorem goRecord_fst (rs : List PlayRequest) (s : GoData × List GoBoard) :
    (rs.foldl goRecord s).1 = rs.foldl goStep s.1 := by
  induction rs generalizing s with
  | nil => rfl
  | cons r rs ih => exact ih (goRecord s r)

/-- **Go.**  After any requests every group has a liberty; the next request is accepted
and the turn changes, or it changes nothing at all; and no board is the one two accepted
moves before. -/
theorem go_rules (rs : List PlayRequest) :
    (∀ p, (goPlay rs).matrix p ≠ none → ∃ q e, Connected GoAdj (goPlay rs).matrix p q ∧
        GoAdj q e ∧ (goPlay rs).matrix e = none) ∧
      (∀ r, if goAccepts (goPlay rs) r then (goStep (goPlay rs) r).who = !(goPlay rs).who
        else goStep (goPlay rs) r = goPlay rs) ∧
      ∀ k b, (goBoards rs)[k]? = some b → (goBoards rs)[k + 2]? ≠ some b := by
  have hinv := goInv_foldl rs
  have hplay : (rs.foldl goRecord (goInit, [goInit.matrix])).1 = goPlay rs := goRecord_fst rs _
  refine ⟨fun p hp => ?_, fun r => ?_, hinv.noRepeat⟩
  · have hsettled := hinv.settled
    rw [hplay] at hsettled
    exact (alive_iff hp).mp (hsettled p hp)
  · rcases goStep_spec (goPlay rs) r with ⟨hsame, hrejected⟩ | ⟨p, hmoved, haccepted⟩
    · rw [hrejected, if_neg Bool.false_ne_true, hsame]
    · rw [haccepted, if_pos rfl, hmoved.who]

end Ytht
