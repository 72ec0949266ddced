import Ytht.Lib.Walks
import Ytht.Localutl.Htmlfilter

/-!
# Localutl.Attributes

Whether the filter ends: the loops of `main` around `removeBlock`, and the loop of
`printAttributes`, which has no count of the attributes that it does not keep and relies on
`getRightAtt` to make the text shorter.

A single character is not cut off.  So the loop ends exactly when there is no row for the tag, or
what is left of the text in the end is not a single character, or five attributes have been kept
before (`filter_ends_iff`).
-/

namespace Ytht

open Bytes Walks

/-! ## Blocks -/

/-- One turn of a loop around `removeBlock`. -/
def blockStep (start stop ptr : List UInt8) : Out (List UInt8) (List UInt8) :=
  let r := removeBlock start stop ptr
  if r.2 then .next r.1 else .stop r.1

/-- The blocks that `main` removes. -/
def blocks : List (List UInt8 × List UInt8) :=
  [("<!--", "-->"), ("<script", "</script>"), ("<noscript", "</noscript>"),
    ("<object", "/object>"), ("<embed", "/embed>"), ("<iframe", "/iframe>")].map
      fun block => (ascii block.1, ascii block.2)

theorem lt_length_of_strcasestr {needle hay : List UInt8} (hne : needle ≠ []) {pos : Nat}
    (h : strcasestr needle hay = some pos) : pos < hay.length := by
  induction hay generalizing pos with
  | nil =>
    rw [strcasestr, if_neg hne] at h
    contradiction
  | cons ch hay ih =>
    rw [strcasestr] at h
    split at h
    · cases h
      exact Nat.succ_pos _
    · obtain ⟨pos, hpos, rfl⟩ := Option.map_eq_some_iff.mp h
      have hlt := ih hpos
      rw [List.length_cons]
      omega

/-- A text without a block is shorter. -/
theorem length_removeBlock {start stop ptr : List UInt8} (hstop : stop ≠ [])
    (h : (removeBlock start stop ptr).2 = true) :
    (removeBlock start stop ptr).1.length < ptr.length := by
  have hpos := List.length_pos_iff.mpr hstop
  unfold removeBlock at h ⊢
  cases hp0 : strcasestr start ptr with
  | none => simp [hp0] at h
  | some p0 =>
    cases hp1 : strcasestr stop (ptr.drop p0) with
    | none => simp [hp0, hp1] at h
    | some p1 =>
      dsimp only
      rw [hp1]
      have hlt := lt_length_of_strcasestr hstop hp1
      rw [List.length_drop] at hlt
      simp only [List.length_append, List.length_take, List.length_drop]
      omega

/-- **The loops over blocks end.** -/
theorem blockStep_returns {start stop : List UInt8} (hstop : stop ≠ []) (ptr : List UInt8) :
    Returns (blockStep start stop) ptr := by
  have hshorter : ∀ ptr next, Hop (blockStep start stop) ptr next → next.length < ptr.length := by
    intro ptr next hhop
    unfold Hop blockStep at hhop
    dsimp only at hhop
    split at hhop
    · next hagain =>
      cases hhop
      exact length_removeBlock hstop hagain
    · contradiction
  refine (returns_iff_of_measure List.length hshorter).mpr fun ptr _ hfault => ?_
  unfold blockStep at hfault
  dsimp only at hfault
  split at hfault <;> contradiction

/-- What they leave is what `removeBlocks` says. -/
theorem run_blockStep {start stop ptr r : List UInt8} {n : Nat} (hstop : stop ≠ [])
    (h : run (blockStep start stop) n ptr = some r) : r = removeBlocks start stop ptr := by
  induction n generalizing ptr with
  | zero => contradiction
  | succ n ih =>
    rw [run, blockStep] at h
    rw [removeBlocks]
    by_cases hagain : (removeBlock start stop ptr).2 = true
    · rw [if_pos hagain] at h
      rw [dif_pos ⟨hagain, length_removeBlock hstop hagain⟩]
      exact ih h
    · rw [if_neg hagain] at h
      rw [dif_neg fun hshorter => hagain hshorter.1]
      exact (Option.some.inj h).symm

/-! ## Attributes -/

/-- One turn of the loop of `printAttributes`, with `i` attributes in its list; it stops with
their number. -/
def attStep (keep : Option (List (List UInt8))) (s : Nat × List UInt8) :
    Out (Nat × List UInt8) Nat :=
  if s.1 < 5 then
    match getRightAtt s.2 with
    | none => .stop s.1
    | some (a, rest) =>
      if s.1 = 0 ∧ a.1 = [47] then .next (1, rest)
      else
        match keep with
        | none => .stop s.1
        | some list => .next (if inList list a.1 then s.1 + 1 else s.1, rest)
  else .stop s.1

/-- The names of the attributes from right to left, as long as two characters at least are left,
and what is left then. -/
def rightNames : Nat → List UInt8 → List (List UInt8) × List UInt8
  | 0, attStr => ([], attStr.rdropWhile isBlank)
  | fuel + 1, attStr =>
    let t := attStr.rdropWhile isBlank
    if t.length < 2 then ([], t)
    else
      let r := rightNames fuel (cutRight t).1
      (strsncpy (cutAt 61 (cutRight t).2) 30 :: r.1, r.2)

/-- How many attributes are in the list after some more; a `/` counts as the first one. -/
def keptCount (list : List (List UInt8)) (i : Nat) (names : List (List UInt8)) : Nat :=
  names.foldl (fun i name =>
    if i = 0 ∧ name = [47] then 1 else if inList list name then i + 1 else i) i

/-- No name of the list is that short. -/
def NoShort (list : List (List UInt8)) : Prop := ∀ name, name.length ≤ 1 → inList list name = false

theorem noShort_thisKeepAtt {one : Bool} {tag : List UInt8} {list : List (List UInt8)}
    (h : (settingOf one).thisKeepAtt tag = some list) : NoShort list := by
  have hlong : ∀ row ∈ (settingOf one).keepAtt, ∀ kept ∈ row.2, 2 ≤ kept.length := by
    cases one <;> decide +kernel
  obtain ⟨row, hrow, rfl⟩ := Option.map_eq_some_iff.mp h
  intro name hshort
  rw [inList, List.any_eq_false]
  intro kept hkept heq
  have hlen := congrArg List.length (strcasecmp_iff.mp heq)
  have hge := hlong row (List.mem_of_find?_eq_some hrow) kept hkept
  rw [List.length_map, List.length_map] at hlen
  omega

/-- Where two characters are left, the text gets shorter. -/
theorem length_cutRight_lt {t : List UInt8} (h : t.rdropWhile isBlank = t) (hne : t ≠ []) :
    (cutRight t).1.length < t.length := by
  obtain ⟨before, ch, rfl⟩ := List.eq_nil_or_concat t |>.resolve_left hne
  have hrev : (before.concat ch).reverse = ch :: before.reverse := by simp
  have hch : isBlank ch = false := by
    rw [List.concat_eq_append, List.rdropWhile_concat] at h
    by_contra hblank
    rw [if_pos (by simpa using hblank)] at h
    have hle := (List.rdropWhile_prefix (p := isBlank) (l := before)).length_le
    rw [h, List.length_append, List.length_singleton] at hle
    omega
  rw [cutRight, hrev, List.length_concat]
  dsimp only
  split
  · split
    · exact Nat.succ_pos _
    · next q behind hdrop =>
      have hbefore := (List.dropWhile_suffix (l := before.reverse) (· != ch)).length_le
      have hbehind := (List.dropWhile_suffix (l := behind) (!isBlank ·)).length_le
      rw [hdrop, List.length_cons, List.length_reverse] at hbefore
      rw [List.length_reverse]
      omega
  · have hbehind := (List.dropWhile_suffix (l := before.reverse) (!isBlank ·)).length_le
    rw [List.length_reverse] at hbehind
    rw [List.dropWhile_cons, hch, Bool.not_false, if_pos rfl, List.length_reverse]
    omega

/-! ## The loop over attributes -/

theorem getRightAtt_nil {t : List UInt8} (h : t.rdropWhile isBlank = []) : getRightAtt t = none := by
  rw [getRightAtt]
  dsimp only
  rw [if_pos h]

/-- A single character stays. -/
theorem getRightAtt_one {t : List UInt8} (h : (t.rdropWhile isBlank).length = 1) :
    getRightAtt t =
      some ((strsncpy (t.rdropWhile isBlank) 30, none), t.rdropWhile isBlank) := by
  have hne : t.rdropWhile isBlank ≠ [] := List.ne_nil_of_length_pos (by omega)
  rw [getRightAtt]
  dsimp only
  rw [if_neg hne, if_pos h]

theorem getRightAtt_cut {t : List UInt8} (h : 2 ≤ (t.rdropWhile isBlank).length) :
    ∃ val, getRightAtt t = some ((strsncpy (cutAt 61 (cutRight (t.rdropWhile isBlank)).2) 30, val),
      (cutRight (t.rdropWhile isBlank)).1) := by
  have hne : t.rdropWhile isBlank ≠ [] := List.ne_nil_of_length_pos (by omega)
  rw [getRightAtt]
  dsimp only
  rw [if_neg hne, if_neg (by omega)]
  exact ⟨_, rfl⟩

section Loop

variable {list : List (List UInt8)} {i : Nat} {t : List UInt8}

theorem keptCount_cons (list : List (List UInt8)) (i : Nat) (name : List UInt8)
    (names : List (List UInt8)) :
    keptCount list i (name :: names) = keptCount list (keptCount list i [name]) names := rfl

theorem keptCount_one (list : List (List UInt8)) (i : Nat) (name : List UInt8) :
    keptCount list i [name] =
      if i = 0 ∧ name = [47] then 1 else if inList list name then i + 1 else i := rfl

theorem keptCount_one_le (list : List (List UInt8)) (i : Nat) (name : List UInt8) :
    i ≤ keptCount list i [name] ∧ keptCount list i [name] ≤ i + 1 := by
  rw [keptCount_one]
  split_ifs <;> omega

theorem le_keptCount (list : List (List UInt8)) (i : Nat) (names : List (List UInt8)) :
    i ≤ keptCount list i names := by
  induction names generalizing i with
  | nil => exact Nat.le_refl i
  | cons name names ih =>
    rw [keptCount_cons]
    exact (keptCount_one_le list i name).1.trans (ih _)

/-- A turn in which `getRightAtt` finds an attribute. -/
theorem attStep_hop {a : List UInt8 × Option (List UInt8)} {rest : List UInt8} (hi : i < 5)
    (h : getRightAtt t = some (a, rest)) :
    Hop (attStep (some list)) (i, t) (keptCount list i [a.1], rest) := by
  unfold Hop attStep
  dsimp only
  rw [if_pos hi, h, keptCount_one]
  dsimp only
  split_ifs <;> rfl

theorem attStep_stop (keep : Option (List (List UInt8))) (h : 5 ≤ i ∨ getRightAtt t = none) :
    Returns (attStep keep) (i, t) := by
  refine ⟨1, i, run_of_stop ?_⟩
  unfold attStep
  by_cases hi : i < 5
  · have hnone := h.resolve_left (by omega)
    dsimp only
    rw [if_pos hi, hnone]
  · rw [if_neg hi]

/-- **A single character** is met again and again. -/
theorem not_returns_one (hshort : NoShort list) (hi : i < 5)
    (h : (t.rdropWhile isBlank).length = 1) : ¬ Returns (attStep (some list)) (i, t) := by
  have hlen : (strsncpy (t.rdropWhile isBlank) 30).length ≤ 1 :=
    ((List.takeWhile_prefix _).length_le.trans (List.length_take_le' _ _)).trans h.le
  have hout := hshort _ hlen
  have hfirst : Hop (attStep (some list)) (i, t) _ := attStep_hop hi (getRightAtt_one h)
  have hsame : (t.rdropWhile isBlank).rdropWhile isBlank = t.rdropWhile isBlank :=
    List.rdropWhile_idempotent isBlank t
  have hagain := getRightAtt_one (t := t.rdropWhile isBlank) (by rw [hsame]; exact h)
  rw [hsame] at hagain
  generalize strsncpy (t.rdropWhile isBlank) 30 = name at hout hfirst hagain
  obtain ⟨j, hj⟩ : ∃ j, keptCount list i [name] = j := ⟨_, rfl⟩
  have hcount : keptCount list j [name] = j ∧ j < 5 := by
    rw [keptCount_one, hout, if_neg Bool.false_ne_true] at hj ⊢
    by_cases hslash : i = 0 ∧ name = [47]
    · rw [if_pos hslash] at hj
      subst hj
      exact ⟨if_neg (by omega), by omega⟩
    · rw [if_neg hslash] at hj
      subst hj
      exact ⟨if_neg hslash, hi⟩
  have hself : Hop (attStep (some list)) _ _ := attStep_hop hcount.2 hagain
  dsimp only at hfirst hself
  rw [hj] at hfirst
  rw [hcount.1] at hself
  intro hreturns
  obtain ⟨n, r, hrun⟩ := hreturns.of_hop hfirst
  exact not_circle hrun (.single hself)

/-- **The loop ends** when no single character is left, or the list is full before. -/
theorem attStep_returns_iff (hshort : NoShort list) {fuel : Nat} (hfuel : t.length ≤ fuel)
    (hi : i ≤ 5) : Returns (attStep (some list)) (i, t) ↔
      (rightNames fuel t).2 = [] ∨ 5 ≤ keptCount list i (rightNames fuel t).1 := by
  have htrim := (List.rdropWhile_prefix (p := isBlank) (l := t)).length_le
  by_cases hfull : 5 ≤ i
  · exact iff_of_true (attStep_stop _ (Or.inl hfull))
      (Or.inr (hfull.trans (le_keptCount list i _)))
  · induction fuel generalizing i t with
    | zero =>
      have hnil : t.rdropWhile isBlank = [] := List.length_eq_zero_iff.mp (by omega)
      rw [rightNames, hnil]
      exact iff_of_true (attStep_stop _ (Or.inr (getRightAtt_nil hnil))) (Or.inl rfl)
    | succ fuel ih =>
      rw [rightNames]
      dsimp only
      split_ifs with hsmall
      · rcases Nat.lt_or_ge (t.rdropWhile isBlank).length 1 with hlt | hge
        · have hnil : t.rdropWhile isBlank = [] := List.length_eq_zero_iff.mp (by omega)
          exact iff_of_true (attStep_stop _ (Or.inr (getRightAtt_nil hnil))) (Or.inl hnil)
        · refine iff_of_false (not_returns_one hshort (by omega) (by omega)) (not_or.mpr ⟨?_, ?_⟩)
          · exact List.ne_nil_of_length_pos hge
          · exact hfull
      · obtain ⟨val, hcut⟩ := getRightAtt_cut (t := t) (by omega)
        have hhop : Hop (attStep (some list)) (i, t) _ := attStep_hop (show i < 5 by omega) hcut
        have hshorter := length_cutRight_lt (List.rdropWhile_idempotent isBlank t)
          (List.ne_nil_of_length_pos (by omega))
        have hrest : Returns (attStep (some list)) (i, t) ↔ Returns (attStep (some list)) _ :=
          ⟨fun h => h.of_hop hhop, returns_of_hop hhop⟩
        rw [hrest, keptCount_cons list i _ (rightNames fuel _).1]
        have hcount := (keptCount_one_le list i
          (strsncpy (cutAt 61 (cutRight (t.rdropWhile isBlank)).2) 30)).2
        dsimp only
        by_cases hfull' : 5 ≤ keptCount list i
            [strsncpy (cutAt 61 (cutRight (t.rdropWhile isBlank)).2) 30]
        · exact iff_of_true (attStep_stop _ (Or.inl hfull'))
            (Or.inr (hfull'.trans (le_keptCount list _ _)))
        · exact ih (by omega) (by omega)
            (List.rdropWhile_prefix (p := isBlank) (l := _)).length_le hfull'

/-- Without a row for the tag there are two turns at most. -/
theorem attStep_returns_none (t : List UInt8) : Returns (attStep none) (0, t) := by
  have hone : ∀ rest, Returns (attStep none) (1, rest) := fun rest => by
    cases h : getRightAtt rest with
    | none => exact attStep_stop _ (Or.inr h)
    | some found => exact ⟨1, 1, run_of_stop (by simp [attStep, h])⟩
  cases h : getRightAtt t with
  | none => exact attStep_stop _ (Or.inr h)
  | some found =>
    by_cases hslash : found.1.1 = [47]
    · exact returns_of_hop (show Hop (attStep none) (0, t) (1, found.2) by
        simp [Hop, attStep, h, hslash]) (hone _)
    · exact ⟨1, 0, run_of_stop (by simp [attStep, h, hslash])⟩

/-- A turn ends the loop with the count there is, or goes on with one more at most. -/
theorem attStep_cases (keep : Option (List (List UInt8))) (i : Nat) (t : List UInt8) :
    attStep keep (i, t) = .stop i ∨
      ∃ j rest, attStep keep (i, t) = .next (j, rest) ∧ i < 5 ∧ j ≤ i + 1 := by
  unfold attStep
  dsimp only
  split_ifs with hi
  · cases getRightAtt t with
    | none => exact Or.inl rfl
    | some found =>
      dsimp only
      split_ifs with hslash
      · exact Or.inr ⟨1, found.2, rfl, hi, by omega⟩
      · cases keep with
        | none => exact Or.inl rfl
        | some list =>
          refine Or.inr ⟨_, found.2, rfl, hi, ?_⟩
          split_ifs <;> omega
  · exact Or.inl rfl

/-- The list has room for five. -/
theorem run_attStep_le {keep : Option (List (List UInt8))} {n r : Nat} (hi : i ≤ 5)
    (h : run (attStep keep) n (i, t) = some r) : r ≤ 5 := by
  induction n generalizing i t with
  | zero => contradiction
  | succ n ih =>
    rw [run] at h
    rcases attStep_cases keep i t with hstop | ⟨j, rest, hnext, hlt, hj⟩
    · rw [hstop] at h
      cases h
      exact hi
    · rw [hnext] at h
      exact ih (by omega) h

end Loop

/-! ## The filter -/

/-- Nothing but a single character is left as it is. -/
theorem getRightAtt_same {t rest : List UInt8} {a : List UInt8 × Option (List UInt8)}
    (h : getRightAtt t = some (a, rest)) (hlen : ¬ rest.length < t.length) : rest = t := by
  have htrim := List.rdropWhile_prefix (p := isBlank) (l := t)
  have hle := htrim.length_le
  rcases Nat.lt_or_ge (t.rdropWhile isBlank).length 2 with hlt | hge
  · rcases Nat.lt_or_ge (t.rdropWhile isBlank).length 1 with hzero | hone
    · rw [getRightAtt_nil (List.length_eq_zero_iff.mp (by omega))] at h
      contradiction
    · rw [getRightAtt_one (by omega)] at h
      cases h
      exact htrim.eq_of_length (by omega)
  · obtain ⟨val, hcut⟩ := getRightAtt_cut hge
    have hshorter := length_cutRight_lt (List.rdropWhile_idempotent isBlank t)
      (List.ne_nil_of_length_pos (by omega))
    rw [hcut] at h
    cases h
    omega

/-- `keptAtts` has a list exactly when the loop ends. -/
theorem keptAtts_isSome_iff (keep : Option (List (List UInt8))) (i : Nat) (t : List UInt8) :
    (keptAtts keep i t).isSome = true ↔ Returns (attStep keep) (i, t) := by
  have hgo : ∀ {keep i t s}, Hop (attStep keep) (i, t) s →
      (Returns (attStep keep) (i, t) ↔ Returns (attStep keep) s) :=
    fun hhop => ⟨fun h => h.of_hop hhop, returns_of_hop hhop⟩
  fun_induction keptAtts keep i t with
  | case1 keep i t hi hnone => exact iff_of_true rfl (attStep_stop _ (Or.inr hnone))
  | case2 keep i t hi a rest hsome hslash ih =>
    rw [Option.isSome_map]
    refine Iff.trans ih (hgo ?_).symm
    simp [Hop, attStep, hsome, hslash]
  | case3 i t hi a rest hsome hslash =>
    exact iff_of_true rfl ⟨1, i, run_of_stop (by simp [attStep, hi, hsome, hslash])⟩
  | case4 i t hi a rest hsome hslash list hkept ih =>
    rw [Option.isSome_map]
    refine Iff.trans ih (hgo ?_).symm
    simp [Hop, attStep, hi, hsome, hslash, hkept]
  | case5 i t hi a rest hsome hslash list hkept hshorter ih =>
    refine Iff.trans ih (hgo ?_).symm
    simp [Hop, attStep, hi, hsome, hslash, hkept]
  | case6 i t hi a rest hsome hslash list hkept hlen =>
    refine iff_of_false (by simp) fun hreturns => ?_
    have hsame := getRightAtt_same hsome hlen
    obtain ⟨n, r, hrun⟩ := hreturns
    refine not_circle hrun (.single ?_)
    simp [Hop, attStep, hi, hsome, hslash, hkept, hsame]
  | case7 keep i t hi => exact iff_of_true rfl (attStep_stop _ (Or.inl (by omega)))

/-- What is left at the left end of the attributes is not a single character, or five attributes
are kept that stand behind it, or none is kept in such a tag. -/
def AttsEnd (keep : Option (List (List UInt8))) (attStr : List UInt8) : Prop :=
  ∀ list, keep = some list → (rightNames attStr.length attStr).2 = [] ∨
    5 ≤ keptCount list 0 (rightNames attStr.length attStr).1

/-- **The filter ends**: `printAttributes` if and only if no single character is left of the
attributes before five are kept, and the loops over blocks for every text; and five attributes are
printed at most. -/
theorem filter_ends_iff (one : Bool) (tag attStr : List UInt8) :
    (Returns (attStep ((settingOf one).thisKeepAtt tag)) (0, attStr) ↔
      AttsEnd ((settingOf one).thisKeepAtt tag) attStr) ∧
    (∀ n r, run (attStep ((settingOf one).thisKeepAtt tag)) n (0, attStr) = some r → r ≤ 5) ∧
    ∀ block ∈ blocks, ∀ ptr, Returns (blockStep block.1 block.2) ptr := by
  refine ⟨?_, fun n r h => run_attStep_le (Nat.zero_le 5) h, fun block hblock ptr => ?_⟩
  · cases hkeep : (settingOf one).thisKeepAtt tag with
    | none => exact iff_of_true (attStep_returns_none attStr) fun list h => by contradiction
    | some list =>
      rw [attStep_returns_iff (noShort_thisKeepAtt hkeep) (Nat.le_refl _) (Nat.zero_le 5)]
      exact ⟨fun h list' heq => Option.some.inj heq ▸ h, fun h => h list rfl⟩
  · have hstop : ∀ block ∈ blocks, block.2 ≠ [] := List.all_iff_forall_prop.mp (by decide)
    exact blockStep_returns (hstop block hblock) ptr

/-- The tag `<hr />` has a row in the first setting, and the loop over its one attribute does not
end. -/
theorem filter_hangs :
    setting0.thisKeepAtt (ascii "hr") ≠ none ∧
      ¬ Returns (attStep (setting0.thisKeepAtt (ascii "hr"))) (0, ascii "/") := by
  have hrow : setting0.thisKeepAtt (ascii "hr") = some [ascii "width", ascii "color"] := by
    decide +kernel
  refine ⟨by rw [hrow]; exact Option.some_ne_none _, ?_⟩
  have hshort := @noShort_thisKeepAtt false _ _ hrow
  rw [hrow]
  exact not_returns_one hshort (by decide) (by decide)

end Ytht
