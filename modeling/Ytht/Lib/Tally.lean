import Mathlib.Algebra.BigOperators.Group.List.Basic
import Mathlib.Algebra.Ring.Int.Defs
import Mathlib.Data.Int.Basic
import Mathlib.Data.List.Count
import Mathlib.Data.List.GetD

/-!
# Lib.Tally

A table of counters, one for each number below its length, that keeps count of
how often each number occurs in a list.  `bump` changes one counter and fails
outside the table.  After a series of changes the table agrees with a new list
exactly when the changes sum up, number by number, to the difference of the
counts (`agrees_bumpAll_iff`).  `Left` is for numbers that may not be changed by more
than a quota.
-/

namespace Tally

/-- Change the counter of `i` by `d`. -/
def bump (counts : List Int) (i d : Int) : Option (List Int) :=
  if 0 ≤ i ∧ i < counts.length then some (counts.modify i.toNat (· + d)) else none

/-- One change after the other, each a number and what it is changed by. -/
def bumpAll (counts : List Int) (changes : List (Int × Int)) : Option (List Int) :=
  changes.foldlM (fun counts c => bump counts c.1 c.2) counts

/-- What the changes add to the counter of `k`. -/
def net (changes : List (Int × Int)) (k : Int) : Int :=
  (changes.map fun c => if c.1 = k then c.2 else 0).sum

/-- Each counter tells how often its number occurs in the list. -/
def Agrees (counts : List Int) (l : List Int) : Prop :=
  ∀ k : Nat, k < counts.length → counts.getD k 0 = l.count (k : Int)

instance (counts l : List Int) : Decidable (Agrees counts l) :=
  inferInstanceAs (Decidable (∀ k : Nat, k < _ → _))

@[simp] theorem net_nil (k : Int) : net [] k = 0 := rfl

@[simp] theorem net_cons (c : Int × Int) (changes : List (Int × Int)) (k : Int) :
    net (c :: changes) k = (if c.1 = k then c.2 else 0) + net changes k := by
  simp [net]

@[simp] theorem net_append (c d : List (Int × Int)) (k : Int) :
    net (c ++ d) k = net c k + net d k := by
  simp [net]

theorem net_eq_zero {changes : List (Int × Int)} {k : Int} (h : ∀ c ∈ changes, c.1 ≠ k) :
    net changes k = 0 := by
  induction changes with
  | nil => rfl
  | cons c changes ih =>
      rw [net_cons, if_neg (h c List.mem_cons_self),
        ih fun d hd => h d (List.mem_cons_of_mem _ hd)]
      rfl

@[simp] theorem bumpAll_nil (counts : List Int) : bumpAll counts [] = some counts := rfl

@[simp] theorem bumpAll_cons (counts : List Int) (c : Int × Int) (changes : List (Int × Int)) :
    bumpAll counts (c :: changes) =
      (bump counts c.1 c.2).bind fun counts => bumpAll counts changes := rfl

theorem bump_eq_some {counts counts' : List Int} {i d : Int} (h : bump counts i d = some counts') :
    counts'.length = counts.length ∧
      ∀ k : Nat, k < counts.length →
        counts'.getD k 0 = counts.getD k 0 + if i = k then d else 0 := by
  unfold bump at h
  split at h
  · next hi =>
    cases h
    refine ⟨by simp, fun k hk => ?_⟩
    obtain ⟨n, rfl⟩ : ∃ n : Nat, i = n := ⟨i.toNat, by omega⟩
    rw [Int.toNat_natCast, List.getD_eq_getElem _ _ (by simpa), List.getD_eq_getElem _ _ hk,
      List.getElem_modify]
    by_cases hnk : n = k
    · simp [hnk]
    · simp [hnk, show ¬ (n : Int) = k by omega]
  · contradiction

theorem bump_isSome {counts : List Int} {i d : Int} :
    (bump counts i d).isSome ↔ 0 ≤ i ∧ i < counts.length := by
  unfold bump
  split <;> simp [*]

/-- The changes succeed when all of them are in the table. -/
theorem bumpAll_isSome {counts : List Int} {changes : List (Int × Int)} :
    (bumpAll counts changes).isSome ↔ ∀ c ∈ changes, 0 ≤ c.1 ∧ c.1 < counts.length := by
  induction changes generalizing counts with
  | nil => simp
  | cons c changes ih =>
      rw [bumpAll_cons, List.forall_mem_cons, ← bump_isSome (d := c.2)]
      cases hb : bump counts c.1 c.2 with
      | none => simp
      | some counts' => simp [ih, (bump_eq_some hb).1]

theorem bumpAll_eq_some {counts counts' : List Int} {changes : List (Int × Int)}
    (h : bumpAll counts changes = some counts') :
    counts'.length = counts.length ∧
      ∀ k : Nat, k < counts.length → counts'.getD k 0 = counts.getD k 0 + net changes k := by
  induction changes generalizing counts with
  | nil => cases h; simp
  | cons c changes ih =>
      rw [bumpAll_cons, Option.bind_eq_some_iff] at h
      obtain ⟨counts₁, hb, hrest⟩ := h
      obtain ⟨hlen₁, hb⟩ := bump_eq_some hb
      obtain ⟨hlen, hrest⟩ := ih hrest
      refine ⟨hlen.trans hlen₁, fun k hk => ?_⟩
      rw [hrest k (by omega), hb k hk, net_cons]
      omega

/-- **The tally after the changes**: it agrees with a new list exactly when the
changes are the difference of the counts. -/
theorem agrees_bumpAll_iff {counts counts' l l' : List Int} {changes : List (Int × Int)}
    (h : Agrees counts l) (hb : bumpAll counts changes = some counts') :
    Agrees counts' l' ↔
      ∀ k : Nat, k < counts.length → (l'.count (k : Int) : Int) = l.count (k : Int) + net changes k := by
  obtain ⟨hlen, hget⟩ := bumpAll_eq_some hb
  unfold Agrees
  rw [hlen]
  refine forall_congr' fun k => forall_congr' fun hk => ?_
  rw [hget k hk, h k hk]
  exact eq_comm

/-! ## Taking numbers out of the list and putting others in -/

/-- One number out, one in, for as long as there are both. -/
def swaps : List Int → List Int → List (Int × Int)
  | [], ins => ins.map fun i => (i, 1)
  | o :: out, [] => (o, -1) :: swaps out []
  | o :: out, i :: ins => (o, -1) :: (i, 1) :: swaps out ins

theorem net_swaps (out ins : List Int) (k : Int) :
    net (swaps out ins) k = ins.count k - out.count k := by
  have hplus (ins : List Int) : net (ins.map fun i => (i, 1)) k = ins.count k := by
    induction ins with
    | nil => simp
    | cons i ins ih =>
        rw [List.map_cons, net_cons, ih, List.count_cons]
        by_cases hik : i = k <;> simp [hik, Int.add_comm]
  fun_induction swaps out ins with
  | case1 ins => simp [hplus]
  | case2 o out ih =>
      rw [net_cons, ih, List.count_cons]
      by_cases hok : o = k <;> simp [hok]
  | case3 o out i ins ih =>
      rw [net_cons, net_cons, ih, List.count_cons, List.count_cons]
      by_cases hok : o = k <;> by_cases hik : i = k <;> simp [hok, hik] <;> omega

theorem forall_mem_swaps {p : Int → Prop} (out ins : List Int) :
    (∀ c ∈ swaps out ins, p c.1) ↔ (∀ o ∈ out, p o) ∧ ∀ i ∈ ins, p i := by
  fun_induction swaps out ins with
  | case1 ins => simp
  | case2 o out ih => simp only [List.forall_mem_cons, ih, and_assoc]
  | case3 o out i ins ih =>
      simp only [List.forall_mem_cons, ih]
      exact ⟨fun ⟨ho, hi, hout, hins⟩ => ⟨⟨ho, hout⟩, hi, hins⟩,
        fun ⟨⟨ho, hout⟩, hi, hins⟩ => ⟨ho, hi, hout, hins⟩⟩

/-- What takes `out` from a list and puts `ins` there, stored by way of `f`, keeps the
tally when `f` does not change which numbers of the table there are. -/
theorem agrees_swaps_iff {counts counts' l l' out ins : List Int} (rest : List Int)
    (f : Int → Int) (h : Agrees counts l) (hb : bumpAll counts (swaps out ins) = some counts')
    (hl : ∀ k : Nat, l.count (k : Int) = out.count (k : Int) + rest.count (k : Int))
    (hl' : ∀ k : Nat, l'.count (k : Int) = (ins.map f).count (k : Int) + rest.count (k : Int)) :
    Agrees counts' l' ↔
      ∀ k : Nat, k < counts.length → (ins.map f).count (k : Int) = ins.count (k : Int) := by
  rw [agrees_bumpAll_iff h hb]
  refine forall_congr' fun k => forall_congr' fun _ => ?_
  rw [net_swaps, hl k, hl' k]
  omega

/-! ## Quotas -/

section Quotas

variable {quota quota' : Int → Int} {changes more : List (Int × Int)} {k left t : Int}

/-- The changes leave so much of what `k` may get. -/
structure Left (quota : Int → Int) (changes : List (Int × Int)) (k left : Int) : Prop where
  nonneg : 0 ≤ left
  le : net changes k + left ≤ quota k

theorem Left.net_le (h : Left quota changes k left) : net changes k ≤ quota k := by
  have hnonneg := h.nonneg
  have hle := h.le
  omega

/-- Changes of others. -/
theorem Left.other (h : Left quota changes k left) (hmore : ∀ c ∈ more, c.1 ≠ k) :
    Left quota (changes ++ more) k left := by
  refine ⟨h.nonneg, ?_⟩
  rw [net_append, net_eq_zero hmore, Int.add_zero]
  exact h.le

/-- Changes that take no more than what is left. -/
theorem Left.spend (h : Left quota changes k left) (hnet : net more k = t) (hle : t ≤ left) :
    Left quota (changes ++ more) k (left - t) := by
  refine ⟨by omega, ?_⟩
  rw [net_append, hnet]
  have hold := h.le
  omega

theorem Left.mono (h : Left quota changes k left) (hquota : quota k ≤ quota' k) :
    Left quota' changes k left :=
  ⟨h.nonneg, Int.le_trans h.le hquota⟩

end Quotas

end Tally
