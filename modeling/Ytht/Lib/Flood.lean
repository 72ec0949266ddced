import Mathlib.Data.Finset.Card

/-!
# Lib.Flood

Depth-first spreading over a graph.  Only nodes that are `ok` are entered, each once, and the fuel
bounds how deep the recursion goes.

With more fuel than there are nodes left, spreading ends and has reached the least set that contains
the sources and is closed under `next` (`foldlM_flood`).  What has been reached before is not
entered again, though it need not be closed: this is what lets the recursion be cut up.
-/

namespace Flood

section

variable {V : Type} (ok : V → Prop) (next : V → List V)

/-- From one node, with what has been reached. -/
def flood [DecidableEq V] [DecidablePred ok] : Nat → Finset V → V → Option (Finset V)
  | 0, _, _ => none
  | fuel + 1, s, v =>
      if ok v ∧ v ∉ s then (next v).foldlM (flood fuel) (insert v s) else some s

/-- The least set with the sources that is closed under `next`, outside of `s`. -/
inductive Spread (s : Finset V) (vs : List V) : V → Prop
  | source {v : V} (hmem : v ∈ vs) (hok : ok v) (hnew : v ∉ s) : Spread s vs v
  | next {v w : V} (hv : Spread s vs v) (hmem : w ∈ next v) (hok : ok w) (hnew : w ∉ s) :
      Spread s vs w

/-- What is to be reached has been reached. -/
def Flooded (s : Finset V) (vs : List V) (r : Finset V) : Prop :=
  ∀ w, w ∈ r ↔ w ∈ s ∨ Spread ok next s vs w

end

variable {V : Type} {ok : V → Prop} {next : V → List V} {s s' r : Finset V} {v w : V}
  {vs us : List V}

theorem Spread.not_mem (h : Spread ok next s vs w) : w ∉ s := by
  cases h with
  | source _ _ hnew => exact hnew
  | next _ _ _ hnew => exact hnew

theorem Spread.entered (h : Spread ok next s vs w) : ok w := by
  cases h with
  | source _ hok _ => exact hok
  | next _ _ hok _ => exact hok

/-- More sources, and less that has been reached. -/
theorem Spread.mono (h : Spread ok next s' vs w) (hs : s ⊆ s') (hvs : ∀ v ∈ vs, v ∈ us) :
    Spread ok next s us w := by
  induction h with
  | source hmem hok hnew => exact .source (hvs _ hmem) hok fun hin => hnew (hs hin)
  | next _ hmem hok hnew ih => exact .next ih hmem hok fun hin => hnew (hs hin)

theorem flooded_nil : Flooded ok next s [] s := by
  intro w
  refine ⟨.inl, fun h => h.resolve_right fun hspread => ?_⟩
  induction hspread with
  | source hmem _ _ => exact List.not_mem_nil hmem
  | next _ _ _ _ ih => exact ih (.inr ‹_›)

theorem flooded_of_not (h : ¬ (ok v ∧ v ∉ s)) : Flooded ok next s [v] s := by
  intro w
  refine ⟨.inl, fun hw => hw.resolve_right fun hspread => ?_⟩
  clear hw
  induction hspread with
  | source hmem hok hnew =>
      rw [List.mem_singleton] at hmem
      subst hmem
      exact h ⟨hok, hnew⟩
  | next _ _ _ _ ih => exact ih

variable [DecidableEq V]

/-- One source after the others. -/
theorem Flooded.cons (h₁ : Flooded ok next s [v] s') (h₂ : Flooded ok next s' vs r) :
    Flooded ok next s (v :: vs) r := by
  intro w
  have hsub : s ⊆ s' := fun w hw => (h₁ w).mpr (.inl hw)
  rw [h₂, h₁]
  constructor
  · rintro ((hs | hspread) | hspread)
    · exact .inl hs
    · exact .inr (hspread.mono (Finset.Subset.refl s) fun u hu =>
        List.mem_cons.mpr (.inl (List.mem_singleton.mp hu)))
    · exact .inr (hspread.mono hsub fun u hu => List.mem_cons_of_mem _ hu)
  · rintro (hs | hspread)
    · exact .inl (.inl hs)
    · induction hspread with
      | @source w hmem hok hnew =>
          rcases List.mem_cons.mp hmem with rfl | hvs
          · exact .inl (.inr (.source (List.mem_singleton.mpr rfl) hok hnew))
          · by_cases hin : w ∈ s'
            · exact .inl ((h₁ w).mp hin)
            · exact .inr (.source hvs hok hin)
      | @next u w hu hmem hok hnew ih =>
          rcases ih with (hs | hfirst) | hrest
          · exact absurd hs hu.not_mem
          · exact .inl (.inr (.next hfirst hmem hok hnew))
          · by_cases hin : w ∈ s'
            · exact .inl ((h₁ w).mp hin)
            · exact .inr (.next hrest hmem hok hin)

/-- A node, and then all that is next to it. -/
theorem Flooded.enter (hok : ok v) (hnew : v ∉ s) (h : Flooded ok next (insert v s) (next v) r) :
    Flooded ok next s [v] r := by
  intro w
  have hv : Spread ok next s [v] v := .source (List.mem_singleton.mpr rfl) hok hnew
  rw [h, Finset.mem_insert]
  constructor
  · rintro ((rfl | hs) | hspread)
    · exact .inr hv
    · exact .inl hs
    · refine .inr ?_
      induction hspread with
      | source hmem hok hout =>
          exact .next hv hmem hok fun hin => hout (Finset.mem_insert_of_mem hin)
      | next _ hmem hok hout ih =>
          exact .next ih hmem hok fun hin => hout (Finset.mem_insert_of_mem hin)
  · rintro (hs | hspread)
    · exact .inl (.inr hs)
    · induction hspread with
      | source hmem _ _ => exact .inl (.inl (List.mem_singleton.mp hmem))
      | @next u w hu hmem hw hout ih =>
          by_cases hin : w ∈ insert v s
          · exact .inl (Finset.mem_insert.mp hin)
          · rcases ih with (rfl | hs) | hrest
            · exact .inr (.source hmem hw hin)
            · exact absurd hs hu.not_mem
            · exact .inr (hrest.next hmem hw hin)

/-- **Spreading ends**, and has reached the least closed set. -/
theorem foldlM_flood [DecidablePred ok] {cells : Finset V} (hcells : ∀ v, ok v → v ∈ cells)
    (fuel : Nat) (vs : List V) (s : Finset V) (hfuel : (cells \ s).card < fuel) :
    ∃ r, vs.foldlM (flood ok next fuel) s = some r ∧ Flooded ok next s vs r := by
  induction fuel generalizing vs s with
  | zero => exact absurd hfuel (Nat.not_lt_zero _)
  | succ fuel ih =>
      induction vs generalizing s with
      | nil => exact ⟨s, rfl, flooded_nil⟩
      | cons v vs ihvs =>
          -- From the first source.
          have hfirst : ∃ s', flood ok next (fuel + 1) s v = some s' ∧
              Flooded ok next s [v] s' := by
            unfold flood
            split
            · next hv =>
                have hmem : v ∈ cells \ s := Finset.mem_sdiff.mpr ⟨hcells v hv.1, hv.2⟩
                have hless : (cells \ insert v s).card < (cells \ s).card := by
                  refine Finset.card_lt_card ⟨fun w hw => ?_, fun hsub => ?_⟩
                  · rw [Finset.mem_sdiff, Finset.mem_insert, not_or] at hw
                    exact Finset.mem_sdiff.mpr ⟨hw.1, hw.2.2⟩
                  · exact (Finset.mem_sdiff.mp (hsub hmem)).2 (Finset.mem_insert_self v s)
                obtain ⟨s', hfold, hflooded⟩ := ih (next v) (insert v s) (by omega)
                exact ⟨s', hfold, hflooded.enter hv.1 hv.2⟩
            · next hv => exact ⟨s, rfl, flooded_of_not hv⟩
          obtain ⟨s', hflood, hflooded⟩ := hfirst
          have hsub : s ⊆ s' := fun w hw => (hflooded w).mpr (.inl hw)
          have hmore : (cells \ s').card < fuel + 1 :=
            Nat.lt_of_le_of_lt (Finset.card_le_card (Finset.sdiff_subset_sdiff
              (Finset.Subset.refl cells) hsub)) hfuel
          obtain ⟨r, hfold, hrest⟩ := ihvs s' hmore
          refine ⟨r, ?_, hflooded.cons hrest⟩
          rw [List.foldlM_cons, hflood]
          exact hfold

end Flood
