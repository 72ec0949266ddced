import Mathlib.Data.List.Nodup
import Mathlib.Logic.Function.Basic

/-!
# Lib.Chain

Singly linked chains of cells `1, 2, ..` threaded through one array `next`, with
0 as the end of every chain, and a table `head` of many such chains.

`IsChain next i l` says that the walk from `i` meets exactly the cells of `l`.
`Threaded next head own` says that bucket `h` of the table is the chain `own h`
and that no cell is in two of them.  The rules at the end give the table after
each way of rewiring it: a cell pushed in front, appended behind, unlinked at
the head or behind another cell.
-/

namespace Chain

open Function

/-- The walk from `i` along `next` meets the cells of the list and ends in 0. -/
def IsChain (next : Nat → Nat) : Nat → List Nat → Prop
  | i, [] => i = 0
  | i, x :: l => i = x ∧ x ≠ 0 ∧ IsChain next (next x) l

@[simp] theorem isChain_nil {next : Nat → Nat} {i : Nat} : IsChain next i [] ↔ i = 0 := Iff.rfl

namespace IsChain

variable {next : Nat → Nat} {i x : Nat} {l m pre post : List Nat}

theorem ne_zero (h : IsChain next i l) (hx : x ∈ l) : x ≠ 0 := by
  induction l generalizing i with
  | nil => contradiction
  | cons y l ih =>
      cases List.mem_cons.mp hx with
      | inl hxy => exact hxy ▸ h.2.1
      | inr hxl => exact ih h.2.2 hxl

/-- A walk meets one list only. -/
theorem unique (hl : IsChain next i l) (hm : IsChain next i m) : l = m := by
  induction l generalizing i m with
  | nil =>
      cases m with
      | nil => rfl
      | cons y m => exact absurd (hm.1.symm.trans hl) hm.2.1
  | cons y l ih =>
      cases m with
      | nil => exact absurd (hl.1.symm.trans hm) hl.2.1
      | cons z m =>
          obtain ⟨rfl, -, htail⟩ := hl
          obtain ⟨rfl, -, htail'⟩ := hm
          rw [ih htail htail']

/-- The walk from a cell of the chain is the rest of the chain. -/
theorem suffix (h : IsChain next i (pre ++ x :: post)) : IsChain next x (x :: post) := by
  induction pre generalizing i with
  | nil => exact ⟨rfl, h.2⟩
  | cons y pre ih => exact ih h.2.2

/-- A chain that ends meets no cell twice. -/
theorem nodup (h : IsChain next i l) : l.Nodup := by
  induction l generalizing i with
  | nil => exact List.nodup_nil
  | cons y l ih =>
      have hnot : y ∉ l := by
        intro hy
        obtain ⟨pre, post, rfl⟩ := List.append_of_mem hy
        have hi : i = y := h.1
        subst hi
        have hlen := congrArg List.length (unique h (suffix h.2.2))
        simp only [List.length_cons, List.length_append] at hlen
        omega
      exact List.nodup_cons.mpr ⟨hnot, ih h.2.2⟩

/-- A link outside the chain does not matter. -/
theorem update (h : IsChain next i l) (hx : x ∉ l) (v : Nat) :
    IsChain (Function.update next x v) i l := by
  induction l generalizing i with
  | nil => exact h
  | cons y l ih =>
      have hxy : y ≠ x := fun heq => hx (heq ▸ List.mem_cons_self)
      refine ⟨h.1, h.2.1, ?_⟩
      rw [update_of_ne hxy]
      exact ih h.2.2 (fun hxl => hx (List.mem_cons_of_mem _ hxl))

theorem push (h : IsChain next i l) (hx : x ∉ l) (h0 : x ≠ 0) :
    IsChain (Function.update next x i) x (x :: l) :=
  ⟨rfl, h0, by rw [update_self]; exact h.update hx i⟩

/-- Redirecting the last link of `pre ++ [x]`. -/
theorem redirect (h : IsChain next i (pre ++ x :: post))
    {v : Nat} {tail : List Nat} (hv : IsChain next v tail) (hx : x ∉ tail) :
    IsChain (Function.update next x v) i (pre ++ x :: tail) := by
  have hnd := h.nodup
  induction pre generalizing i with
  | nil =>
      refine ⟨h.1, h.2.1, ?_⟩
      rw [update_self]
      exact hv.update hx v
  | cons y pre ih =>
      rw [List.cons_append, List.nodup_cons] at hnd
      have hyx : y ≠ x := fun heq => hnd.1 (by simp [heq])
      refine ⟨h.1, h.2.1, ?_⟩
      rw [update_of_ne hyx]
      exact ih h.2.2 hnd.2

end IsChain

/-! ## Tables of chains -/

/-- Bucket `h` of `head` is the chain `own h`, and chains share no cell. -/
structure Threaded (next head : Nat → Nat) (own : Nat → List Nat) : Prop where
  chain : ∀ h, IsChain next (head h) (own h)
  disjoint : ∀ {h k x}, x ∈ own h → x ∈ own k → h = k

namespace Threaded

variable {next head : Nat → Nat} {own : Nat → List Nat} {k x p : Nat} {l pre post : List Nat}

theorem nodup (t : Threaded next head own) (h : Nat) : (own h).Nodup := (t.chain h).nodup

/-- All chains empty. -/
theorem empty (next : Nat → Nat) : Threaded next (fun _ => 0) (fun _ => []) :=
  ⟨fun _ => rfl, fun hx => absurd hx List.not_mem_nil⟩

/-- A cell in no chain can be linked anywhere. -/
theorem updateFree (t : Threaded next head own) (hx : ∀ h, x ∉ own h) (v : Nat) :
    Threaded (update next x v) head own :=
  ⟨fun h => (t.chain h).update (hx h) v, t.disjoint⟩

theorem mem_update_cons {h y : Nat} :
    y ∈ update own k (x :: own k) h ↔ (h = k ∧ y = x) ∨ y ∈ own h := by
  by_cases hk : h = k
  · subst hk
    simp
  · simp [hk]

/-- **A cell pushed in front.** -/
theorem pushFront (t : Threaded next head own) (hx : ∀ h, x ∉ own h) (h0 : x ≠ 0) :
    Threaded (update next x (head k)) (update head k x) (update own k (x :: own k)) := by
  constructor
  · intro h
    by_cases hk : h = k
    · subst hk
      rw [update_self, update_self]
      exact (t.chain h).push (hx h) h0
    · rw [update_of_ne hk, update_of_ne hk]
      exact (t.chain h).update (hx h) _
  · intro h h' y hy hy'
    rw [mem_update_cons] at hy hy'
    grind [t.disjoint]

/-- **A cell appended behind the last one.** -/
theorem pushBack (t : Threaded next head own) (hx : ∀ h, x ∉ own h) (h0 : x ≠ 0)
    (hlast : own k = pre ++ [p]) :
    Threaded (update (update next p x) x 0) head (update own k (own k ++ [x])) := by
  have hpk : p ∈ own k := by simp [hlast]
  have hxp : x ≠ p := fun heq => hx k (heq ▸ hpk)
  have hcomm : update (update next p x) x 0 = update (update next x 0) p x :=
    update_comm hxp.symm x 0 next
  rw [hcomm]
  constructor
  · intro h
    by_cases hk : h = k
    · subst hk
      have hchain := (t.chain h).update (hx h) 0
      rw [hlast] at hchain
      have htail : IsChain (update next x 0) x [x] := ⟨rfl, h0, by simp⟩
      rw [update_self, hlast, List.append_assoc]
      exact hchain.redirect htail (by simpa using hxp.symm)
    · rw [update_of_ne hk]
      have hp : p ∉ own h := fun hp => hk (t.disjoint hp hpk)
      exact ((t.chain h).update (hx h) 0).update hp x
  · intro h h' y hy hy'
    have hmem : ∀ {g}, y ∈ update own k (own k ++ [x]) g → (g = k ∧ y = x) ∨ y ∈ own g := by
      intro g hg
      by_cases hgk : g = k
      · subst hgk
        rw [update_self, List.mem_append, List.mem_singleton] at hg
        grind
      · rw [update_of_ne hgk] at hg
        exact Or.inr hg
    grind [t.disjoint]

/-- What the chains hold without cell `x` of chain `k`. -/
theorem mem_unlink (t : Threaded next head own) (hk : own k = pre ++ x :: post) {h y : Nat} :
    y ∈ update own k (pre ++ post) h ↔ y ∈ own h ∧ y ≠ x := by
  have hxk : x ∈ own k := by simp [hk]
  by_cases hh : h = k
  · subst hh
    have hnd := t.nodup h
    rw [hk, List.nodup_middle, List.nodup_cons] at hnd
    have hnot := hnd.1
    rw [update_self, hk]
    simp only [List.mem_append, List.mem_cons] at hnot ⊢
    grind
  · rw [update_of_ne hh]
    exact ⟨fun hy => ⟨hy, fun heq => hh (t.disjoint hy (heq ▸ hxk))⟩, fun hy => hy.1⟩

theorem of_sublist (t : Threaded next head own) {next' head' : Nat → Nat}
    (hl : ∀ y ∈ l, y ∈ own k) (hk : IsChain next' (head' k) l)
    (ho : ∀ h, h ≠ k → IsChain next' (head' h) (own h)) :
    Threaded next' head' (update own k l) := by
  have hmem : ∀ {g y}, y ∈ update own k l g → y ∈ own g := by
    intro g y hg
    by_cases hgk : g = k
    · subst hgk
      rw [update_self] at hg
      exact hl y hg
    · rwa [update_of_ne hgk] at hg
  constructor
  · intro h
    by_cases hhk : h = k
    · subst hhk
      rwa [update_self]
    · rw [update_of_ne hhk]
      exact ho h hhk
  · intro h h' y hy hy'
    exact t.disjoint (hmem hy) (hmem hy')

/-- **The first cell unlinked.** -/
theorem unlinkHead (t : Threaded next head own) (hk : own k = x :: l) :
    Threaded next (update head k (next x)) (update own k l) := by
  have hchain := t.chain k
  rw [hk] at hchain
  refine t.of_sublist (fun y hy => hk ▸ List.mem_cons_of_mem _ hy) ?_ (fun h hh => ?_)
  · rw [update_self]
    exact hchain.2.2
  · rw [update_of_ne hh]
    exact t.chain h

/-- **The cell behind `p` unlinked.** -/
theorem unlinkAfter (t : Threaded next head own) (hk : own k = pre ++ p :: x :: post) :
    Threaded (update next p (next x)) head (update own k (pre ++ p :: post)) := by
  have hchain := t.chain k
  have hpk : p ∈ own k := by simp [hk]
  rw [hk] at hchain
  refine t.of_sublist (fun y hy => ?_) ?_ (fun h hh => ?_)
  · rw [hk]
    simp only [List.mem_append, List.mem_cons] at hy ⊢
    grind
  · have htail : IsChain next (next x) post := hchain.suffix.2.2.2.2
    have hnd := hchain.suffix.nodup
    rw [List.nodup_cons] at hnd
    exact hchain.redirect htail (fun hp => hnd.1 (List.mem_cons_of_mem _ hp))
  · exact (t.chain h).update (fun hp => hh (t.disjoint hp hpk)) _

end Threaded

end Chain
