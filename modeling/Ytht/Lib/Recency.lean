import Mathlib.Algebra.Ring.Nat
import Mathlib.Data.List.Nodup
import Mathlib.Data.List.Perm.Subperm

/-!
# Lib.Recency

A bounded move-to-front list: items with a key and a size, newest first, kept
below a capacity.  Putting an item drops the old item of the same key and
copies the others behind the new one for as long as they fit.

`keep` is the copying loop in the order in which an implementation meets the
items, testing the room before the key.  With that order an old item that is
about to be dropped can still end the copy; `keep_eq_others_iff` says exactly
when it does, and `mem_put_iff` what it costs.  One key, `pin`, stays in front
of the list for ever.
-/

namespace Recency

variable {β κ : Type} [DecidableEq κ] (key : β → κ) (size : β → Nat)

/-- Room taken by a list of items. -/
def total (l : List β) : Nat := (l.map size).sum

@[simp] theorem total_nil : total size [] = 0 := rfl

@[simp] theorem total_cons (x : β) (l : List β) : total size (x :: l) = size x + total size l := by
  simp [total]

@[simp] theorem total_append (l m : List β) :
    total size (l ++ m) = total size l + total size m := by
  simp [total]

theorem total_eq_mul {l : List β} {n : Nat} (h : ∀ x ∈ l, size x = n) :
    total size l = l.length * n := by
  rw [total, List.map_congr_left h, List.map_const', List.sum_replicate_nat]

/-- The items of other keys. -/
def others (k : κ) (l : List β) : List β := l.filter fun x => key x ≠ k

/-- Copy the items of `l` behind `used` bytes already taken: stop at the first
that has no room, skip those of key `k`. -/
def keep (cap : Nat) (k : κ) : Nat → List β → List β
  | _, [] => []
  | used, x :: l =>
      if cap < used + size x then []
      else if key x = k then keep cap k used l
      else x :: keep cap k (used + size x) l

/-- Put `b` in front, but behind the pinned item. -/
def put (pin : κ) (cap : Nat) (b : β) : List β → List β
  | [] => [b]
  | p :: l =>
      if key b ≠ pin ∧ key p = pin then p :: b :: keep key size cap (key b) (size p + size b) l
      else b :: keep key size cap (key b) (size b) (p :: l)

/-- Keys occur once, and the pinned key only in front. -/
structure Shape (pin : κ) (l : List β) : Prop where
  nodup : (l.map key).Nodup
  pinned : ∀ x ∈ l.tail, key x ≠ pin

/-! ## The copying loop -/

variable {key size}

variable (key size) in
theorem keep_sublist (cap : Nat) (k : κ) (used : Nat) (l : List β) :
    (keep key size cap k used l).Sublist (others key k l) := by
  induction l generalizing used with
  | nil => simp [keep]
  | cons x l ih =>
      rw [keep]
      by_cases hroom : cap < used + size x
      · rw [if_pos hroom]
        exact List.nil_sublist _
      · rw [if_neg hroom]
        by_cases hk : key x = k
        · simpa [others, hk] using ih used
        · simpa [others, hk] using ih (used + size x)

variable (key size) in
theorem total_keep_le (cap used : Nat) (k : κ) (l : List β) :
    used + total size (keep key size cap k used l) ≤ max cap used := by
  induction l generalizing used with
  | nil =>
      rw [keep, total_nil]
      exact Nat.le_max_right _ _
  | cons x l ih =>
      rw [keep]
      by_cases hroom : cap < used + size x
      · rw [if_pos hroom, total_nil]
        exact Nat.le_max_right _ _
      · rw [if_neg hroom]
        by_cases hk : key x = k
        · simpa [hk] using ih used
        · rw [if_neg hk, total_cons]
          have := ih (used + size x)
          omega

theorem others_cons_of_eq {k : κ} {y : β} (hy : key y = k) (l : List β) :
    others key k (y :: l) = others key k l := by
  simp [others, hy]

theorem others_cons_of_ne {k : κ} {y : β} (hy : key y ≠ k) (l : List β) :
    others key k (y :: l) = y :: others key k l := by
  simp [others, hy]

/-- All ways to choose an item of `y :: l`: `y` itself, and those of `l`. -/
theorem forall_split_cons {y : β} {l : List β} {p : List β → β → List β → Prop} :
    (∀ pre x post, y :: l = pre ++ x :: post → p pre x post) ↔
      p [] y l ∧ ∀ pre x post, l = pre ++ x :: post → p (y :: pre) x post := by
  constructor
  · intro h
    exact ⟨h [] y l rfl, fun pre x post hl => h (y :: pre) x post (by rw [hl, List.cons_append])⟩
  · intro ⟨hy, h⟩ pre x post hl
    cases pre with
    | nil =>
        rw [List.nil_append, List.cons.injEq] at hl
        obtain ⟨rfl, rfl⟩ := hl
        exact hy
    | cons z pre =>
        rw [List.cons_append, List.cons.injEq] at hl
        obtain ⟨rfl, rfl⟩ := hl
        exact h pre x post rfl

/-- The copy loses nothing exactly when no item ends it while there are others
to come. -/
theorem keep_eq_others_iff (cap : Nat) (k : κ) (used : Nat) (l : List β) :
    keep key size cap k used l = others key k l ↔
      ∀ pre x post, l = pre ++ x :: post →
        cap < used + total size (others key k pre) + size x → others key k (x :: post) = [] := by
  induction l generalizing used with
  | nil => simp [keep, others]
  | cons y l ih =>
      rw [keep]
      by_cases hroom : cap < used + size y
      · rw [if_pos hroom]
        constructor
        · intro hnil pre x post hl _
          have hsub : (others key k (x :: post)).Sublist (others key k (y :: l)) := by
            rw [hl]
            exact (List.sublist_append_right pre (x :: post)).filter _
          rwa [← hnil, List.sublist_nil] at hsub
        · intro h
          exact (h [] y l rfl (by simpa [others] using hroom)).symm
      · have hfirst : ¬ cap < used + total size (others key k []) + size y := by
          simpa [others] using hroom
        rw [if_neg hroom, forall_split_cons]
        simp only [hfirst, false_implies, true_and]
        by_cases hk : key y = k
        · rw [if_pos hk, others_cons_of_eq hk, ih]
          simp only [others_cons_of_eq hk]
        · rw [if_neg hk, others_cons_of_ne hk, List.cons.injEq, ih]
          simp only [true_and, others_cons_of_ne hk, total_cons, Nat.add_assoc]

theorem others_eq_self {k : κ} {l : List β} (h : ∀ x ∈ l, key x ≠ k) : others key k l = l := by
  unfold others
  rw [List.filter_eq_self]
  simpa using h

omit [DecidableEq κ] in
/-- With unique keys, an item's key is not found before it or behind it. -/
theorem ne_of_nodup {pre post : List β} {x : β} (hnd : ((pre ++ x :: post).map key).Nodup) :
    (∀ y ∈ pre, key y ≠ key x) ∧ ∀ y ∈ post, key y ≠ key x := by
  rw [List.map_append, List.map_cons, List.nodup_append, List.nodup_cons] at hnd
  obtain ⟨-, ⟨hpost, -⟩, hpre⟩ := hnd
  refine ⟨fun y hy => hpre _ (List.mem_map_of_mem hy) _ List.mem_cons_self, fun y hy hyx => ?_⟩
  exact hpost (List.mem_map.mpr ⟨y, hy, hyx⟩)

/-- With unique keys and room for the others, only the old item of the key can
end the copy too early. -/
theorem keep_eq_others_iff_of_nodup {cap used : Nat} {k : κ} {l : List β}
    (hnd : (l.map key).Nodup) (hfit : used + total size (others key k l) ≤ cap) :
    keep key size cap k used l = others key k l ↔
      ∀ pre x post, l = pre ++ x :: post → key x = k →
        post = [] ∨ used + total size pre + size x ≤ cap := by
  rw [keep_eq_others_iff]
  refine forall_congr' fun pre => forall_congr' fun x => forall_congr' fun post =>
    forall_congr' fun hl => ?_
  subst hl
  obtain ⟨hpre, hpost⟩ := ne_of_nodup hnd
  by_cases hx : key x = k
  · subst hx
    rw [others_eq_self hpre, others_cons_of_eq rfl, others_eq_self hpost]
    simp only [true_implies]
    constructor
    · intro h
      by_cases hroom : used + total size pre + size x ≤ cap
      · exact Or.inr hroom
      · exact Or.inl (h (by omega))
    · intro h hover
      cases h with
      | inl hnil => exact hnil
      | inr hroom => omega
  · have hsplit : others key k (pre ++ x :: post) =
        others key k pre ++ x :: others key k post := by
      rw [others, List.filter_append, ← others, ← others, others_cons_of_ne hx]
    rw [hsplit, total_append, total_cons] at hfit
    have hroom : ¬ cap < used + total size (others key k pre) + size x := by omega
    simp only [hroom, hx, false_implies]

/-! ## Putting an item -/

theorem mem_others {k : κ} {l : List β} {x : β} : x ∈ others key k l ↔ x ∈ l ∧ key x ≠ k := by
  simp [others]

variable (key size) in
/-- `put` leaves in front what stands before the new item, and copies the rest. -/
theorem put_eq (pin : κ) (cap : Nat) (b : β) (l : List β) :
    ∃ front back, l = front ++ back ∧ (∀ x ∈ front, key x = pin ∧ key b ≠ pin) ∧
      (key b ≠ pin → front = [] → ∀ x ∈ l.head?, key x ≠ pin) ∧
      put key size pin cap b l =
        front ++ b :: keep key size cap (key b) (total size front + size b) back := by
  cases l with
  | nil => exact ⟨[], [], rfl, by simp, by simp, by simp [put, keep]⟩
  | cons p l =>
      rw [put]
      by_cases hp : key b ≠ pin ∧ key p = pin
      · refine ⟨[p], l, rfl, by simpa using ⟨hp.2, hp.1⟩, by simp, ?_⟩
        simp [if_pos hp]
      · refine ⟨[], p :: l, rfl, by simp, ?_, ?_⟩
        · rintro hb - x hx
          simp only [List.head?_cons, Option.mem_def, Option.some.injEq] at hx
          subst hx
          exact fun h => hp ⟨hb, h⟩
        · simp [if_neg hp]

variable (size) in
theorem put_shape {pin : κ} (cap : Nat) (b : β) {l : List β} (h : Shape key pin l) :
    Shape key pin (put key size pin cap b l) := by
  obtain ⟨front, back, rfl, hfront, hhead, heq⟩ := put_eq key size pin cap b l
  have hsub := keep_sublist key size cap (key b) (total size front + size b) back
  obtain ⟨hnd, hpin⟩ := h
  rw [List.map_append, List.nodup_append] at hnd
  obtain ⟨hndf, hndb, hacross⟩ := hnd
  have hkept : ∀ x ∈ keep key size cap (key b) (total size front + size b) back,
      x ∈ back ∧ key x ≠ key b := fun x hx => mem_others.mp (hsub.subset hx)
  rw [heq]
  constructor
  · rw [List.map_append, List.map_cons, List.nodup_append, List.nodup_cons]
    refine ⟨hndf, ⟨?_, ?_⟩, ?_⟩
    · rintro hmem
      obtain ⟨x, hx, hxb⟩ := List.mem_map.mp hmem
      exact (hkept x hx).2 hxb
    · exact hndb.sublist ((hsub.trans List.filter_sublist).map key)
    · intro a ha c hc
      obtain ⟨x, hx, rfl⟩ := List.mem_map.mp ha
      obtain ⟨hxp, hbp⟩ := hfront x hx
      rcases List.mem_cons.mp hc with rfl | hc
      · rw [hxp]
        exact fun h => hbp h.symm
      · obtain ⟨y, hy, rfl⟩ := List.mem_map.mp hc
        exact hacross _ (List.mem_map_of_mem hx) _ (List.mem_map_of_mem (hkept y hy).1)
  · intro x hx
    cases front with
    | nil =>
        obtain ⟨hxb, hxk⟩ := hkept x hx
        cases back with
        | nil => simp at hxb
        | cons y back =>
            rcases List.mem_cons.mp hxb with rfl | hxb
            · by_cases hbp : key b = pin
              · rwa [← hbp]
              · exact hhead hbp rfl x (by simp)
            · exact hpin x hxb
    | cons y front =>
        obtain ⟨hyp, hbp⟩ := hfront y List.mem_cons_self
        simp only [List.cons_append, List.tail_cons, List.mem_append, List.mem_cons] at hx
        rcases hx with hx | rfl | hx
        · exact hpin x (List.mem_append_left _ hx)
        · exact hbp
        · exact hpin x (List.mem_append_right _ (hkept x hx).1)

/-- The room taken stays within the capacity, unless the new item and the
pinned one do not even fit by themselves. -/
theorem total_put_le {pin : κ} {cap n : Nat} {b : β} {l : List β} (hcap : cap ≤ n)
    (hb : size b ≤ n)
    (hfit : ∀ p ∈ l.head?, key b ≠ pin → key p = pin → size p + size b ≤ n) :
    total size (put key size pin cap b l) ≤ n := by
  cases l with
  | nil => simpa [put]
  | cons p l =>
      rw [put]
      by_cases hp : key b ≠ pin ∧ key p = pin
      · rw [if_pos hp, total_cons, total_cons]
        have hpb := hfit p (by simp) hp.1 hp.2
        have := total_keep_le key size cap (size p + size b) (key b) l
        omega
      · rw [if_neg hp, total_cons]
        have := total_keep_le key size cap (size b) (key b) (p :: l)
        omega

theorem mem_put_self (pin : κ) (cap : Nat) (b : β) (l : List β) :
    b ∈ put key size pin cap b l := by
  obtain ⟨front, back, -, -, -, heq⟩ := put_eq key size pin cap b l
  rw [heq]
  simp

/-- The pinned item is never driven out. -/
theorem mem_put_pinned {pin : κ} (cap : Nat) {b x : β} {l : List β} (h : Shape key pin l)
    (hx : x ∈ l) (hpin : key x = pin) (hb : key b ≠ pin) : x ∈ put key size pin cap b l := by
  cases l with
  | nil => simp at hx
  | cons p l =>
      rcases List.mem_cons.mp hx with rfl | hx
      · simp [put, if_pos (And.intro hb hpin)]
      · exact absurd hpin (h.pinned x hx)

/-- An item of another key that is there afterwards was there before. -/
theorem mem_of_mem_put {pin : κ} {cap : Nat} {b x : β} {l : List β}
    (hx : x ∈ put key size pin cap b l) : x = b ∨ x ∈ l := by
  obtain ⟨front, back, rfl, -, -, heq⟩ := put_eq key size pin cap b l
  rw [heq] at hx
  simp only [List.mem_append, List.mem_cons] at hx ⊢
  rcases hx with hx | hx | hx
  · exact Or.inr (Or.inl hx)
  · exact Or.inl hx
  · exact Or.inr (Or.inr (mem_others.mp ((keep_sublist _ _ _ _ _ _).subset hx)).1)

/-- All others survive exactly when the copy of what stands behind the front loses
nothing. -/
theorem mem_front_keep_iff {cap used : Nat} {b : β} {front back : List β}
    (hnd : ((front ++ back).map key).Nodup) :
    (∀ x ∈ front ++ back, key x ≠ key b →
        x ∈ front ++ b :: keep key size cap (key b) used back) ↔
      keep key size cap (key b) used back = others key (key b) back := by
  have hsub := keep_sublist key size cap (key b) used back
  constructor
  · intro hmem
    refine hsub.eq_of_length_le ?_
    rw [List.map_append, List.nodup_append] at hnd
    obtain ⟨-, hback, hacross⟩ := hnd
    have hothers : (others key (key b) back).Nodup :=
      (List.Nodup.of_map _ hback).sublist List.filter_sublist
    refine (List.Nodup.subperm hothers fun x hx => ?_).length_le
    obtain ⟨hxb, hxk⟩ := mem_others.mp hx
    have hx' := hmem x (List.mem_append_right _ hxb) hxk
    simp only [List.mem_append, List.mem_cons] at hx'
    rcases hx' with hxf | rfl | hx'
    · exact absurd rfl (hacross _ (List.mem_map_of_mem hxf) _ (List.mem_map_of_mem hxb))
    · exact absurd rfl hxk
    · exact hx'
  · intro hkeep x hx hxk
    cases List.mem_append.mp hx with
    | inl hx => exact List.mem_append_left _ hx
    | inr hx =>
        refine List.mem_append_right _ (List.mem_cons_of_mem _ ?_)
        rw [hkeep]
        exact mem_others.mpr ⟨hx, hxk⟩

/-- All ways to choose an item of `front ++ back`. -/
theorem forall_split_append {front back : List β} {p : List β → β → List β → Prop} :
    (∀ pre x post, front ++ back = pre ++ x :: post → p pre x post) ↔
      (∀ pre x post, front = pre ++ x :: post → p pre x (post ++ back)) ∧
        ∀ pre x post, back = pre ++ x :: post → p (front ++ pre) x post := by
  induction front generalizing p with
  | nil => simp
  | cons y front ih =>
      rw [List.cons_append, forall_split_cons, ih, forall_split_cons, and_assoc]
      simp only [List.cons_append]

/-- **What an update costs**: when there is room for the new item and all
others, they all survive exactly when the old item of the key is last or has
itself still room behind the new one. -/
theorem mem_put_iff {pin : κ} {cap : Nat} {b : β} {l : List β} (h : Shape key pin l)
    (hfit : size b + total size (others key (key b) l) ≤ cap) :
    (∀ x ∈ l, key x ≠ key b → x ∈ put key size pin cap b l) ↔
      ∀ pre x post, l = pre ++ x :: post → key x = key b →
        post = [] ∨ size b + total size pre + size x ≤ cap := by
  obtain ⟨front, back, rfl, hfront, -, heq⟩ := put_eq key size pin cap b l
  have hother : ∀ x ∈ front, key x ≠ key b := by
    intro x hx hxb
    obtain ⟨hxp, hbp⟩ := hfront x hx
    exact hbp (hxb ▸ hxp)
  have hndb : (back.map key).Nodup := h.nodup.sublist ((List.sublist_append_right _ _).map key)
  have hfit' : total size front + size b + total size (others key (key b) back) ≤ cap := by
    rw [others, List.filter_append, ← others, ← others, others_eq_self hother, total_append] at hfit
    omega
  have hnone : ∀ pre x post, front = pre ++ x :: post → key x = key b →
      post ++ back = [] ∨ size b + total size pre + size x ≤ cap := by
    intro pre x post hl hxk
    exact absurd hxk (hother x (by simp [hl]))
  rw [heq, mem_front_keep_iff h.nodup, keep_eq_others_iff_of_nodup hndb hfit',
    forall_split_append, and_iff_right hnone]
  simp only [total_append, Nat.add_comm (total size front) (size b), Nat.add_assoc]

/-- Nothing is lost when the key is new and there is room for all. -/
theorem keep_fresh {cap used : Nat} {k : κ} {l : List β} (hk : ∀ x ∈ l, key x ≠ k)
    (hfit : used + total size l ≤ cap) : keep key size cap k used l = l := by
  induction l generalizing used with
  | nil => rfl
  | cons x l ih =>
      rw [total_cons] at hfit
      rw [keep, if_neg (by omega), if_neg (hk x List.mem_cons_self),
        ih (fun y hy => hk y (List.mem_cons_of_mem _ hy)) (by omega)]

/-- The copy ends at the first item without room. -/
theorem keep_append_stop {cap used : Nat} {k : κ} {pre post : List β} {x : β}
    (hk : ∀ y ∈ pre, key y ≠ k) (hfit : used + total size pre ≤ cap)
    (hstop : cap < used + total size pre + size x) :
    keep key size cap k used (pre ++ x :: post) = pre := by
  induction pre generalizing used with
  | nil =>
      rw [total_nil] at hstop
      rw [List.nil_append, keep, if_pos (by omega)]
  | cons y pre ih =>
      rw [total_cons] at hfit hstop
      rw [List.cons_append, keep, if_neg (by omega), if_neg (hk y List.mem_cons_self),
        ih (fun z hz => hk z (List.mem_cons_of_mem _ hz)) (by omega) (by omega)]

/-- Without the pinned item the new one goes in front. -/
theorem put_unpinned {pin : κ} (cap : Nat) (b : β) {l : List β} (hk : ∀ x ∈ l, key x ≠ pin) :
    put key size pin cap b l = b :: keep key size cap (key b) (size b) l := by
  cases l with
  | nil => rfl
  | cons p l => rw [put, if_neg (fun h => hk p List.mem_cons_self h.2)]

/-- Looking up a key that occurs once. -/
theorem find?_eq_some_iff {l : List β} (hnd : (l.map key).Nodup) {k : κ} {x : β} :
    l.find? (fun y => decide (key y = k)) = some x ↔ x ∈ l ∧ key x = k := by
  constructor
  · intro hfind
    exact ⟨List.mem_of_find?_eq_some hfind, by simpa using List.find?_some hfind⟩
  · rintro ⟨hx, rfl⟩
    induction l with
    | nil => simp at hx
    | cons y l ih =>
        rw [List.map_cons, List.nodup_cons] at hnd
        rcases List.mem_cons.mp hx with rfl | hx
        · simp
        · have hne : key y ≠ key x := fun h => hnd.1 (h ▸ List.mem_map_of_mem hx)
          rw [List.find?_cons_of_neg (by simpa using hne)]
          exact ih hnd.2 hx

end Recency
