import Mathlib.Data.List.Nodup
import Mathlib.Logic.Function.Basic

/-!
# Lib.Transfer

Named items that a reader takes from a list one by one, and either keeps in a new list or
moves away, while others add to the list.  Each item has a thing under its name, in a
source or in a target, and an item that is moved takes its thing along.

`Ok` says that every item is in one place with its thing; `Queued` says in addition that
the list still holds all items, so that the reader may give up before it has moved one.
-/

namespace Transfer

open Function

/-- Where the items are: not yet read, kept, on the way, or moved; `queue` is the list
itself.  A party may hold an item that is not on the list yet. -/
structure View (R N C P : Type) where
  pending : List R
  kept : List R
  transit : List R
  moved : List R
  queue : List R
  source : N → Option C
  target : N → Option C
  things : List (R × C)
  held : P → Option (R × C)

variable {R N C P : Type} {name : R → N}

namespace View

/-- The items on any list. -/
def listed (v : View R N C P) : List R := v.pending ++ v.kept ++ v.transit ++ v.moved ++ v.queue

/-- Every item is in one place with its thing. -/
structure Ok (name : R → N) (v : View R N C P) : Prop where
  names : ((v.pending ++ v.kept ++ v.transit).map name).Nodup
  apart : ∀ r ∈ v.pending ++ v.kept ++ v.transit, ∀ q ∈ v.moved, name q ≠ name r
  home : ∀ a ∈ v.things,
    (a.1 ∈ v.pending ++ v.kept ∧ v.source (name a.1) = some a.2) ∨
      (a.1 ∈ v.transit ++ v.moved ∧ v.target (name a.1) = some a.2)
  held : ∀ p a, v.held p = some a →
    v.source (name a.1) = some a.2 ∧ ∀ q ∈ v.listed, name q ≠ name a.1
  held_ne : ∀ p p' a a', v.held p = some a → v.held p' = some a' → p ≠ p' → name a.1 ≠ name a'.1

/-- The list still holds every item. -/
structure Queued (name : R → N) (v : View R N C P) : Prop where
  names : (v.queue.map name).Nodup
  things : ∀ a ∈ v.things, a.1 ∈ v.queue
  unread : ∀ r ∈ v.pending ++ v.transit, r ∈ v.queue
  origin : ∀ q ∈ v.moved, q ∈ v.queue ∨ ∀ r ∈ v.queue, name q ≠ name r

variable {v : View R N C P}

/-! ## The reader -/

/-- An item that has no thing is left out. -/
theorem Ok.leave (h : v.Ok name) {r : R} {rest : List R} (hp : v.pending = r :: rest)
    (hnone : v.source (name r) = none) : { v with pending := rest }.Ok name where
  names := by
    have hnames := h.names
    rw [hp] at hnames
    exact (List.nodup_cons.mp hnames).2
  apart q hq := h.apart q (by rw [hp]; exact List.mem_cons_of_mem r hq)
  home a ha := by
    obtain ⟨hmem, hsource⟩ | hmoved := h.home a ha
    · left
      refine ⟨?_, hsource⟩
      rw [hp, List.cons_append, List.mem_cons] at hmem
      obtain rfl | hmem := hmem
      · rw [hnone] at hsource
        cases hsource
      · exact hmem
    · exact .inr hmoved
  held p a ha := by
    obtain ⟨hsource, hlisted⟩ := h.held p a ha
    refine ⟨hsource, fun q hq => hlisted q ?_⟩
    rw [listed, hp]
    exact List.mem_cons_of_mem r hq
  held_ne := h.held_ne

/-- An item is moved, and is on the way to the other list. -/
theorem Ok.move [DecidableEq N] (h : v.Ok name) {r : R} {rest : List R} (hp : v.pending = r :: rest)
    (ht : v.transit = []) {c : C} (hc : v.source (name r) = some c) {source : N → Option C}
    (hsource : ∀ n, n ≠ name r → source n = v.source n) :
    { v with
      pending := rest
      transit := [r]
      source := source
      target := update v.target (name r) (some c) }.Ok name where
  names := by
    have hnames := h.names
    rw [hp, ht, List.append_nil, List.cons_append, List.map_cons, List.nodup_cons] at hnames
    rw [List.map_append, List.nodup_append]
    refine ⟨hnames.2, by simp, ?_⟩
    intro n hn m hm
    rw [List.map_singleton, List.mem_singleton] at hm
    rintro rfl
    exact hnames.1 (hm ▸ hn)
  apart q hq := by
    apply h.apart q
    rw [hp, ht]
    simp only [List.mem_append, List.mem_cons, List.not_mem_nil, or_false] at hq ⊢
    tauto
  home a ha := by
    have hnames := h.names
    rw [hp, ht, List.append_nil, List.cons_append, List.map_cons, List.nodup_cons] at hnames
    obtain ⟨hmem, hthing⟩ | ⟨hmem, hthing⟩ := h.home a ha
    · rw [hp, List.cons_append, List.mem_cons] at hmem
      obtain heq | hmem := hmem
      · right
        rw [heq, hc, Option.some.injEq] at hthing
        subst hthing
        rw [heq]
        exact ⟨by simp, update_self _ _ _⟩
      · left
        have hne : name a.1 ≠ name r :=
          fun heq => hnames.1 (heq ▸ List.mem_map_of_mem hmem)
        exact ⟨hmem, (hsource _ hne).trans hthing⟩
    · right
      rw [ht, List.nil_append] at hmem
      have hne : name a.1 ≠ name r :=
        h.apart r (by rw [hp]; simp) a.1 hmem
      exact ⟨List.mem_append_right _ hmem, (update_of_ne hne _ _).trans hthing⟩
  held p a ha := by
    obtain ⟨hthing, hlisted⟩ := h.held p a ha
    have hne : name r ≠ name a.1 := hlisted r (by rw [listed, hp]; simp)
    refine ⟨(hsource _ hne.symm).trans hthing, fun q hq => hlisted q ?_⟩
    rw [listed, hp, ht]
    simp only [listed, List.mem_append, List.mem_cons, List.not_mem_nil, or_false] at hq ⊢
    tauto
  held_ne := h.held_ne

/-- What is on the way arrives on the other list. -/
theorem Ok.arrive (h : v.Ok name) {r : R} (ht : v.transit = [r]) :
    { v with transit := [], moved := v.moved ++ [r] }.Ok name where
  names := by
    have hnames := h.names
    rw [List.map_append, List.nodup_append] at hnames
    rw [List.append_nil]
    exact hnames.1
  apart q hq p hp := by
    have hnames := h.names
    rw [ht, List.map_append, List.nodup_append] at hnames
    rw [List.append_nil] at hq
    rw [List.mem_append, List.mem_singleton] at hp
    obtain hp | rfl := hp
    · exact h.apart q (List.mem_append_left _ hq) p hp
    · exact (hnames.2.2 (name q) (List.mem_map_of_mem hq) (name p) (by simp)).symm
  home a ha := by
    have hhome := h.home a ha
    rw [ht] at hhome
    simp only [List.mem_append, List.mem_singleton, List.nil_append] at hhome ⊢
    tauto
  held p a ha := by
    obtain ⟨hthing, hlisted⟩ := h.held p a ha
    refine ⟨hthing, fun q hq => hlisted q ?_⟩
    rw [listed, ht]
    simp only [listed, List.mem_append, List.mem_singleton, List.not_mem_nil, or_false] at hq ⊢
    tauto
  held_ne := h.held_ne

/-- An item is kept. -/
theorem Ok.keep (h : v.Ok name) {r : R} {rest : List R} (hp : v.pending = r :: rest) :
    { v with pending := rest, kept := v.kept ++ [r] }.Ok name where
  names := by
    have hperm : (rest ++ (v.kept ++ [r]) ++ v.transit).Perm (v.pending ++ v.kept ++ v.transit) := by
      rw [hp, ← List.append_assoc, List.cons_append]
      exact List.Perm.append_right _ (List.perm_append_singleton r (rest ++ v.kept))
    exact (hperm.map name).nodup_iff.mpr h.names
  apart q hq := by
    apply h.apart q
    rw [hp]
    simp only [List.mem_append, List.mem_cons, List.not_mem_nil, or_false] at hq ⊢
    tauto
  home a ha := by
    have hhome := h.home a ha
    rw [hp] at hhome
    simp only [List.mem_append, List.mem_cons, List.not_mem_nil, or_false] at hhome ⊢
    tauto
  held p a ha := by
    obtain ⟨hthing, hlisted⟩ := h.held p a ha
    refine ⟨hthing, fun q hq => hlisted q ?_⟩
    rw [listed, hp]
    simp only [listed, List.mem_append, List.mem_cons, List.not_mem_nil, or_false] at hq ⊢
    tauto
  held_ne := h.held_ne

/-- When all has been read, the old list goes. -/
theorem Ok.close (h : v.Ok name) : { v with queue := [] }.Ok name where
  names := h.names
  apart := h.apart
  home := h.home
  held p a ha := by
    obtain ⟨hthing, hlisted⟩ := h.held p a ha
    refine ⟨hthing, fun q hq => hlisted q ?_⟩
    rw [listed, List.append_nil] at hq
    rw [listed]
    exact List.mem_append_left _ hq
  held_ne := h.held_ne

/-- What has been kept is the new list. -/
theorem Ok.swap (h : v.Ok name) (hp : v.pending = []) :
    { v with pending := v.kept, kept := [], queue := v.kept }.Ok name where
  names := by
    have hnames := h.names
    rw [hp, List.nil_append] at hnames
    rwa [List.append_nil]
  apart q hq := by
    apply h.apart q
    rw [hp, List.nil_append]
    rwa [List.append_nil] at hq
  home a ha := by
    have hhome := h.home a ha
    rw [hp, List.nil_append] at hhome
    rwa [List.append_nil]
  held p a ha := by
    obtain ⟨hthing, hlisted⟩ := h.held p a ha
    refine ⟨hthing, fun q hq => hlisted q ?_⟩
    rw [listed, hp]
    simp only [listed, List.mem_append, List.not_mem_nil, false_or, or_false] at hq ⊢
    tauto
  held_ne := h.held_ne

/-- Before an item is moved, the reader may give up. -/
theorem Ok.giveUp (h : v.Ok name) (hqueue : v.Queued name) (ht : v.transit = [])
    (hnone : ∀ r ∈ v.queue, r ∉ v.moved) :
    { v with pending := v.queue, kept := [] }.Ok name where
  names := by
    rw [ht, List.append_nil, List.append_nil]
    exact hqueue.names
  apart q hq p hp := by
    rw [ht, List.append_nil, List.append_nil] at hq
    obtain hin | hne := hqueue.origin p hp
    · exact absurd hp (hnone p hin)
    · exact hne q hq
  home a ha := by
    have hin := hqueue.things a ha
    obtain ⟨-, hthing⟩ | ⟨hmem, -⟩ := h.home a ha
    · exact .inl ⟨List.mem_append_left _ hin, hthing⟩
    · rw [ht, List.nil_append] at hmem
      exact absurd hmem (hnone a.1 hin)
  held p a ha := by
    obtain ⟨hthing, hlisted⟩ := h.held p a ha
    refine ⟨hthing, fun q hq => hlisted q ?_⟩
    rw [listed, ht] at hq
    simp only [listed, List.mem_append, List.not_mem_nil, or_false] at hq ⊢
    tauto
  held_ne := h.held_ne

/-- The list stays as it is while the reader goes on. -/
theorem Queued.mono {v' : View R N C P} (h : v.Queued name) (hqueue : v'.queue = v.queue)
    (hthings : v'.things = v.things)
    (hunread : ∀ r ∈ v'.pending ++ v'.transit, r ∈ v.pending ++ v.transit)
    (hmoved : ∀ r ∈ v'.moved, r ∈ v.moved ∨ r ∈ v.transit) : v'.Queued name where
  names := hqueue ▸ h.names
  things := by
    rw [hqueue, hthings]
    exact h.things
  unread r hr := hqueue ▸ h.unread r (hunread r hr)
  origin q hq := by
    rw [hqueue]
    obtain hq | hq := hmoved q hq
    · exact h.origin q hq
    · exact .inl (h.unread q (List.mem_append_right _ hq))

/-! ## The others -/

variable [DecidableEq P]

theorem of_update_none {held : P → Option (R × C)} {p q : P} {a : R × C}
    (h : update held p none q = some a) : q ≠ p ∧ held q = some a := by
  by_cases hq : q = p
  · rw [hq, update_self] at h
    cases h
  · rw [update_of_ne hq] at h
    exact ⟨hq, h⟩

/-- A party takes a new name, and puts a thing under it. -/
theorem Ok.create [DecidableEq N] (h : v.Ok name) {p : P} {a : R × C}
    (hnone : v.source (name a.1) = none)
    (hfresh : ∀ q ∈ v.listed, name q ≠ name a.1) :
    { v with
      source := update v.source (name a.1) (some a.2)
      held := update v.held p (some a) }.Ok name where
  names := h.names
  apart := h.apart
  home b hb := by
    obtain ⟨hmem, hthing⟩ | hmoved := h.home b hb
    · have hne : name b.1 ≠ name a.1 := by
        apply hfresh
        rw [listed, List.append_assoc, List.append_assoc]
        exact List.mem_append_left _ hmem
      exact .inl ⟨hmem, (update_of_ne hne _ _).trans hthing⟩
    · exact .inr hmoved
  held q b hb := by
    by_cases hq : q = p
    · rw [hq] at hb
      obtain rfl := Option.some.inj ((update_self p (some a) v.held).symm.trans hb)
      exact ⟨update_self _ _ _, hfresh⟩
    · obtain ⟨hthing, hlisted⟩ := h.held q b ((update_of_ne hq _ _).symm.trans hb)
      have hne : name b.1 ≠ name a.1 := by
        intro heq
        rw [heq, hnone] at hthing
        cases hthing
      exact ⟨(update_of_ne hne _ _).trans hthing, hlisted⟩
  held_ne q q' b b' hb hb' hne := by
    have hother {q : P} {b : R × C} (hq : q ≠ p) (hb : update v.held p (some a) q = some b) :
        name b.1 ≠ name a.1 := by
      intro heq
      have hthing := (h.held q b ((update_of_ne hq _ _).symm.trans hb)).1
      rw [heq, hnone] at hthing
      cases hthing
    by_cases hq : q = p
    · rw [hq] at hb
      obtain rfl := Option.some.inj ((update_self p (some a) v.held).symm.trans hb)
      exact (hother (fun heq => hne (hq.trans heq.symm)) hb').symm
    · by_cases hq' : q' = p
      · rw [hq'] at hb'
        obtain rfl := Option.some.inj ((update_self p (some a) v.held).symm.trans hb')
        exact hother hq hb
      · exact h.held_ne q q' b b' ((update_of_ne hq _ _).symm.trans hb)
          ((update_of_ne hq' _ _).symm.trans hb') hne

/-- What a party holds is forgotten, its thing taken away or not. -/
theorem Ok.forget (h : v.Ok name) {p : P} {a : R × C} (hp : v.held p = some a)
    {source : N → Option C} (hsource : ∀ n, n ≠ name a.1 → source n = v.source n) :
    { v with source := source, held := update v.held p none }.Ok name where
  names := h.names
  apart := h.apart
  home b hb := by
    obtain ⟨hmem, hthing⟩ | hmoved := h.home b hb
    · have hne : name b.1 ≠ name a.1 := by
        apply (h.held p a hp).2
        rw [listed, List.append_assoc, List.append_assoc]
        exact List.mem_append_left _ hmem
      exact .inl ⟨hmem, (hsource _ hne).trans hthing⟩
    · exact .inr hmoved
  held q b hb := by
    obtain ⟨hq, hb⟩ := of_update_none hb
    have hne := h.held_ne q p b a hb hp hq
    exact ⟨(hsource _ hne).trans (h.held q b hb).1, (h.held q b hb).2⟩
  held_ne q q' b b' hb hb' hne := by
    exact h.held_ne q q' b b' (of_update_none hb).2 (of_update_none hb').2 hne

/-- What a party holds is added to the list. -/
theorem Ok.add (h : v.Ok name) {p : P} {a : R × C} (hp : v.held p = some a) :
    { v with
      pending := v.pending ++ [a.1]
      queue := v.queue ++ [a.1]
      things := v.things ++ [a]
      held := update v.held p none }.Ok name where
  names := by
    have hperm : (v.pending ++ [a.1] ++ v.kept ++ v.transit).Perm
        (a.1 :: (v.pending ++ v.kept ++ v.transit)) := by
      rw [List.append_assoc, List.append_assoc, List.append_assoc]
      exact List.perm_middle
    rw [(hperm.map name).nodup_iff, List.map_cons, List.nodup_cons]
    refine ⟨?_, h.names⟩
    intro hmem
    obtain ⟨q, hq, heq⟩ := List.mem_map.mp hmem
    refine (h.held p a hp).2 q ?_ heq
    rw [listed, List.append_assoc]
    exact List.mem_append_left _ hq
  apart q hq r hr := by
    simp only [List.mem_append, List.mem_singleton] at hq
    by_cases heq : q = a.1
    · rw [heq]
      exact (h.held p a hp).2 r (by simp [listed, hr])
    · apply h.apart q ?_ r hr
      simp only [List.mem_append]
      tauto
  home b hb := by
    rw [List.mem_append, List.mem_singleton] at hb
    obtain hb | rfl := hb
    · have hhome := h.home b hb
      simp only [List.mem_append, List.mem_singleton] at hhome ⊢
      tauto
    · exact .inl ⟨by simp, (h.held p b hp).1⟩
  held q b hb := by
    obtain ⟨hq, hb⟩ := of_update_none hb
    have hne := h.held_ne p q a b hp hb (Ne.symm hq)
    refine ⟨(h.held q b hb).1, fun r hr => ?_⟩
    by_cases heq : r = a.1
    · rwa [heq]
    · apply (h.held q b hb).2 r
      simp only [listed, List.mem_append, List.mem_singleton] at hr ⊢
      tauto
  held_ne q q' b b' hb hb' hne := by
    exact h.held_ne q q' b b' (of_update_none hb).2 (of_update_none hb').2 hne

theorem Queued.add (h : v.Queued name) (hok : v.Ok name) {p : P} {a : R × C}
    (hp : v.held p = some a) :
    { v with
      pending := v.pending ++ [a.1]
      queue := v.queue ++ [a.1]
      things := v.things ++ [a]
      held := update v.held p none }.Queued name where
  names := by
    rw [List.map_append, List.nodup_append]
    refine ⟨h.names, by simp, ?_⟩
    intro n hn m hm
    obtain ⟨q, hq, rfl⟩ := List.mem_map.mp hn
    rw [List.map_singleton, List.mem_singleton] at hm
    rw [hm]
    exact (hok.held p a hp).2 q (by simp [listed, hq])
  things b hb := by
    rw [List.mem_append, List.mem_singleton] at hb ⊢
    obtain hb | rfl := hb
    · exact .inl (h.things b hb)
    · exact .inr rfl
  unread r hr := by
    have hold := h.unread r
    simp only [List.mem_append, List.mem_singleton] at hr hold ⊢
    tauto
  origin q hq := by
    obtain hin | hne := h.origin q hq
    · exact .inl (List.mem_append_left _ hin)
    · right
      intro r hr
      rw [List.mem_append, List.mem_singleton] at hr
      obtain hr | rfl := hr
      · exact hne r hr
      · exact (hok.held p a hp).2 q (by simp [listed, hq])

end View

end Transfer
