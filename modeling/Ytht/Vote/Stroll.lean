import Ytht.Vote.Ballot

/-!
# Vote.Stroll

The items of a vote are shown in a different order each time.  The terminal moves ballot and items
round by some places and back, `strollvote`; the web page shows the items from one of them on and
turns a copy of the ballot, `voteForm`.

An `int` that overflows and a shift by the whole width give no value to rely on: a claim about the
ballot is one for every value they might have.
-/

namespace Ytht

open Bits Function

/-! ## The terminal -/

/-- `i + s` -/
def addInt (junk : Int → Int) (i s : Int) : Int :=
  if -(2 ^ 31) ≤ i + s ∧ i + s < 2 ^ 31 then i + s else junk (i + s)

/-- `j`, the new place of item `i` -/
def strollPlace (junk : Int → Int) (totalitems : Nat) (s : Int) (i : Nat) : Nat :=
  let j := (addInt junk i s).tmod totalitems
  (if j < 0 then j + totalitems else j).toNat

/-- `strollvote`, of the ballot and the items -/
def strollBoth (junk : Int → Int) (totalitems : Nat) (s : Int)
    (uv : BitVec 32 × (Nat → List UInt8)) : BitVec 32 × (Nat → List UInt8) :=
  (List.range totalitems).foldl (fun nuv i =>
    let j := strollPlace junk totalitems s i
    (if uv.1.getLsbD i then nuv.1 ||| BitVec.twoPow 32 j else nuv.1,
      update nuv.2 j (uv.2 i))) (0, uv.2)

/-! ## The web page -/

/-- `j`, the ballot turned by `multiroll` places -/
def rollWord (junk : BitVec 32) (totalitems multiroll : Nat) (voted : BitVec 32) : BitVec 32 :=
  (voted >>> multiroll) +
    (if totalitems - multiroll < 32 then voted <<< (totalitems - multiroll) else junk)

/-- What the page shows of an item: the value that is sent for it, whether it is marked, and its
text. -/
structure FormItem where
  value : Nat
  checked : Bool
  text : List UInt8

/-- The form of `bbsvote_main`; in its turn `i` the word `j` has been shifted `i` times. -/
def voteForm (junk : BitVec 32) (totalitems multiroll : Nat) (voted : BitVec 32)
    (items : Nat → List UInt8) : List FormItem :=
  (List.range totalitems).map fun i =>
    { value := (i + multiroll) % totalitems + 1
      checked := (rollWord junk totalitems multiroll voted >>> i).getLsbD 0
      text := items ((i + multiroll) % totalitems) }

/-! ## Places -/

/-- The place `s` places from `i` on, round a circle of `n`. -/
def placeFrom (n : Nat) (s : Int) (i : Nat) : Nat := ((i + s) % n).toNat

section Places

variable {n : Nat}

theorem natCast_placeFrom (hn : 0 < n) (s : Int) (i : Nat) : (placeFrom n s i : Int) = (i + s) % n :=
  Int.toNat_of_nonneg (Int.emod_nonneg _ (by omega))

theorem placeFrom_lt (hn : 0 < n) (s : Int) (i : Nat) : placeFrom n s i < n := by
  have hcast := natCast_placeFrom hn s i
  have hlt := Int.emod_lt_of_pos (i + s) (show (0 : Int) < n by omega)
  omega

/-- Going back. -/
theorem placeFrom_neg {i : Nat} (hi : i < n) (s : Int) : placeFrom n (-s) (placeFrom n s i) = i := by
  have hn : 0 < n := by omega
  have hcast := natCast_placeFrom hn (-s) (placeFrom n s i)
  rw [natCast_placeFrom hn s i, Int.emod_add_emod, Int.add_neg_cancel_right,
    Int.emod_eq_of_lt (by omega) (by omega)] at hcast
  exact_mod_cast hcast

theorem placeFrom_inj {s : Int} {i k : Nat} (hi : i < n) (hk : k < n)
    (h : placeFrom n s i = placeFrom n s k) : i = k := by
  rw [← placeFrom_neg hi s, h, placeFrom_neg hk]

/-- The place is right when the sum is an `int`. -/
theorem strollPlace_eq (hn : 0 < n) (junk : Int → Int) {s : Int} {i : Nat}
    (h : -(2 ^ 31) ≤ i + s ∧ i + s < 2 ^ 31) : strollPlace junk n s i = placeFrom n s i := by
  have hnn : (0 : Int) < n := by omega
  have hlt := Int.emod_lt_of_pos (i + s) hnn
  have hge := Int.emod_nonneg (i + s) (show (n : Int) ≠ 0 by omega)
  rw [strollPlace, addInt, if_pos h, placeFrom, Int.tmod_eq_emod]
  rw [Int.natAbs_natCast]
  congr 1
  split_ifs with hcase hneg hneg
  · omega
  · exact Int.sub_zero _
  · omega
  · omega

theorem strollPlace_lt (hn : 0 < n) (junk : Int → Int) (s : Int) (i : Nat) :
    strollPlace junk n s i < n := by
  have hnn : (0 : Int) < n := by omega
  have hlt := Int.tmod_lt_of_pos (addInt junk i s) hnn
  have hge := Int.lt_tmod_of_pos (addInt junk i s) hnn
  rw [strollPlace]
  split_ifs <;> omega

end Places

/-! ## Moving ballot and items -/

section Moving

variable {p : Nat → Nat} {uv nuv : BitVec 32 × (Nat → List UInt8)} {l : List Nat}

/-- One turn of the loop of `strollvote`, with the places given by `p`. -/
def strollStep (p : Nat → Nat) (uv nuv : BitVec 32 × (Nat → List UInt8)) (i : Nat) :
    BitVec 32 × (Nat → List UInt8) :=
  (if uv.1.getLsbD i then nuv.1 ||| BitVec.twoPow 32 (p i) else nuv.1, update nuv.2 (p i) (uv.2 i))

/-- A bit is set when an item with a tick has moved there. -/
theorem getLsbD_foldl_strollStep {k : Nat} (hk : k < 32) :
    (l.foldl (strollStep p uv) nuv).1.getLsbD k = true ↔
      nuv.1.getLsbD k = true ∨ ∃ i ∈ l, uv.1.getLsbD i = true ∧ p i = k := by
  induction l generalizing nuv with
  | nil => simp
  | cons i l ih =>
    rw [List.foldl_cons, ih, strollStep]
    cases hbit : uv.1.getLsbD i with
    | false => simp [hbit]
    | true =>
      have htwo : (BitVec.twoPow 32 (p i)).getLsbD k = true ↔ p i = k := by
        rw [BitVec.getLsbD_twoPow, Bool.and_eq_true, decide_eq_true_iff, decide_eq_true_iff]
        omega
      rw [if_pos rfl, BitVec.getLsbD_or, Bool.or_eq_true, htwo]
      simp only [List.mem_cons, exists_eq_or_imp, hbit, true_and]
      tauto

/-- The text of an item is found at its new place. -/
theorem foldl_strollStep_items (hl : l.Nodup) (hinj : ∀ i ∈ l, ∀ k ∈ l, p i = p k → i = k) :
    (∀ i ∈ l, (l.foldl (strollStep p uv) nuv).2 (p i) = uv.2 i) ∧
      ∀ k, (∀ i ∈ l, p i ≠ k) → (l.foldl (strollStep p uv) nuv).2 k = nuv.2 k := by
  induction l generalizing nuv with
  | nil => exact ⟨fun i hi => absurd hi List.not_mem_nil, fun k _ => rfl⟩
  | cons i l ih =>
    obtain ⟨hi, hl⟩ := List.nodup_cons.mp hl
    obtain ⟨hmoved, hothers⟩ := @ih (strollStep p uv nuv i) hl fun i' hi' k hk =>
      hinj i' (List.mem_cons_of_mem _ hi') k (List.mem_cons_of_mem _ hk)
    rw [List.foldl_cons]
    constructor
    · intro i' hi'
      rcases List.mem_cons.mp hi' with rfl | hi'
      · refine (hothers _ fun k hk heq => ?_).trans (update_self _ _ _)
        have heq' := hinj k (List.mem_cons_of_mem _ hk) i' List.mem_cons_self heq
        exact hi (heq' ▸ hk)
      · exact hmoved i' hi'
    · intro k hk
      exact (hothers k fun i' hi' => hk i' (List.mem_cons_of_mem _ hi')).trans
        (update_of_ne (hk i List.mem_cons_self).symm _ _)

end Moving

section Stroll

variable {n : Nat} {s : Int}

theorem strollBoth_eq (junk : Int → Int) (n : Nat) (s : Int)
    (uv : BitVec 32 × (Nat → List UInt8)) :
    strollBoth junk n s uv =
      (List.range n).foldl (strollStep (strollPlace junk n s) uv) (0, uv.2) := rfl

/-- A bit of the new ballot. -/
theorem getLsbD_strollBoth (junk : Int → Int) (n : Nat) (s : Int)
    (uv : BitVec 32 × (Nat → List UInt8)) {k : Nat} (hk : k < 32) :
    (strollBoth junk n s uv).1.getLsbD k = true ↔
      ∃ i < n, uv.1.getLsbD i = true ∧ strollPlace junk n s i = k := by
  rw [strollBoth_eq, getLsbD_foldl_strollStep hk]
  simp

/-- No sum of an item and `s` is too large. -/
def StrollFits (n : Nat) (s : Int) : Prop := -(2 ^ 31) ≤ s ∧ s + n ≤ 2 ^ 31

theorem StrollFits.place (h : StrollFits n s) (hn : 0 < n) (junk : Int → Int) {i : Nat}
    (hi : i < n) : strollPlace junk n s i = placeFrom n s i := by
  unfold StrollFits at h
  exact strollPlace_eq hn junk (by omega)

/-- **Tick and text move together.** -/
theorem StrollFits.moved (h : StrollFits n s) (hle : n ≤ 32) (junk : Int → Int)
    (uv : BitVec 32 × (Nat → List UInt8)) {i : Nat} (hi : i < n) :
    (strollBoth junk n s uv).1.getLsbD (placeFrom n s i) = uv.1.getLsbD i ∧
      (strollBoth junk n s uv).2 (placeFrom n s i) = uv.2 i := by
  have hn : 0 < n := by omega
  have hplace := placeFrom_lt hn s i
  constructor
  · rw [Bool.eq_iff_iff, getLsbD_strollBoth junk n s uv (by omega)]
    constructor
    · rintro ⟨k, hk, hbit, heq⟩
      rw [h.place hn junk hk] at heq
      rwa [placeFrom_inj hk hi heq] at hbit
    · exact fun hbit => ⟨i, hi, hbit, h.place hn junk hi⟩
  · rw [strollBoth_eq, ← h.place hn junk hi]
    refine (foldl_strollStep_items List.nodup_range fun k hk k' hk' heq => ?_).1 i
      (List.mem_range.mpr hi)
    rw [List.mem_range] at hk hk'
    rw [h.place hn junk hk, h.place hn junk hk'] at heq
    exact placeFrom_inj hk hk' heq

/-- What is above the last item. -/
theorem StrollFits.above (h : StrollFits n s) (hn : 0 < n) (junk : Int → Int)
    (uv : BitVec 32 × (Nat → List UInt8)) {k : Nat} (hk : n ≤ k) :
    (k < 32 → (strollBoth junk n s uv).1.getLsbD k = false) ∧ (strollBoth junk n s uv).2 k = uv.2 k := by
  have hother : ∀ i ∈ List.range n, strollPlace junk n s i ≠ k := fun i _ heq => by
    have hlt := strollPlace_lt hn junk s i
    omega
  constructor
  · intro hk32
    rw [Bool.eq_false_iff]
    intro hbit
    obtain ⟨i, hi, -, heq⟩ := (getLsbD_strollBoth junk n s uv hk32).mp hbit
    exact hother i (List.mem_range.mpr hi) heq
  · rw [strollBoth_eq]
    refine (foldl_strollStep_items List.nodup_range fun i hi i' hi' heq => ?_).2 k hother
    rw [List.mem_range] at hi hi'
    rw [h.place hn junk hi, h.place hn junk hi'] at heq
    exact placeFrom_inj hi hi' heq

/-- **Back again**, for a ballot with ticks among the items. -/
theorem StrollFits.restores (h : StrollFits n s) (hback : StrollFits n (-s)) (hn : 0 < n)
    (hle : n ≤ 32) (junk : Int → Int) {uv : BitVec 32 × (Nat → List UInt8)}
    (hticks : ∀ k, uv.1.getLsbD k = true → k < n) :
    strollBoth junk n (-s) (strollBoth junk n s uv) = uv := by
  have hinside : ∀ k < n,
      (strollBoth junk n (-s) (strollBoth junk n s uv)).1.getLsbD k = uv.1.getLsbD k ∧
        (strollBoth junk n (-s) (strollBoth junk n s uv)).2 k = uv.2 k := by
    intro k hk
    obtain ⟨hbit, htext⟩ := hback.moved hle junk (strollBoth junk n s uv) (placeFrom_lt hn s k)
    obtain ⟨hbit', htext'⟩ := h.moved hle junk uv hk
    rw [placeFrom_neg hk s] at hbit htext
    exact ⟨hbit.trans hbit', htext.trans htext'⟩
  refine Prod.ext (BitVec.eq_of_getLsbD_eq fun k hk32 => ?_) (funext fun k => ?_)
  · rcases Nat.lt_or_ge k n with hk | hk
    · exact (hinside k hk).1
    · rw [(hback.above hn junk _ hk).1 hk32, eq_comm, Bool.eq_false_iff]
      exact fun hbit => absurd (hticks k hbit) (by omega)
  · rcases Nat.lt_or_ge k n with hk | hk
    · exact (hinside k hk).2
    · rw [(hback.above hn junk _ hk).2, (h.above hn junk uv hk).2]

end Stroll

/-! ## When the terminal is right -/

/-- What is promised of `strollvote`, whatever a sum that is too large comes to. -/
def StrollsRight (totalitems : Nat) (s : Int) : Prop :=
  ∀ (junk : Int → Int) (uv : BitVec 32 × (Nat → List UInt8)),
    (∀ k, uv.1.getLsbD k = true → k < totalitems) →
    (∀ i < totalitems,
      (strollBoth junk totalitems s uv).1.getLsbD (placeFrom totalitems s i) = uv.1.getLsbD i ∧
        (strollBoth junk totalitems s uv).2 (placeFrom totalitems s i) = uv.2 i) ∧
      strollBoth junk totalitems (-s) (strollBoth junk totalitems s uv) = uv

/-- With one tick, one bit is set. -/
theorem getLsbD_strollBoth_one {junk : Int → Int} {n : Nat} {s : Int}
    {uv : BitVec 32 × (Nat → List UInt8)} {m : Nat} (hm : m < n)
    (hone : ∀ i < n, uv.1.getLsbD i = true ↔ i = m) {k : Nat} (hk : k < 32) :
    (strollBoth junk n s uv).1.getLsbD k = true ↔ strollPlace junk n s m = k := by
  rw [getLsbD_strollBoth junk n s uv hk]
  constructor
  · rintro ⟨i, hi, hbit, hplace⟩
    rwa [(hone i hi).mp hbit] at hplace
  · exact fun hplace => ⟨m, hm, (hone m hm).mpr rfl, hplace⟩

/-- A ballot with one tick. -/
def oneTick (m : Nat) : BitVec 32 × (Nat → List UInt8) := (BitVec.twoPow 32 m, fun _ => [])

theorem getLsbD_oneTick {n m : Nat} (hle : n ≤ 32) (hm : m < n) (k : Nat) :
    (oneTick m).1.getLsbD k = true ↔ k = m := by
  rw [oneTick, BitVec.getLsbD_twoPow, Bool.and_eq_true, decide_eq_true_iff, decide_eq_true_iff]
  omega

/-- A sum that is too large may come to 0 or to 1, and so may the place. -/
theorem strollPlace_overflow {n : Nat} {s : Int} {i c : Nat} (h : 2 ^ 31 ≤ i + s) (hc : c < n) :
    strollPlace (fun _ => c) n s i = c := by
  have hadd : addInt (fun _ => (c : Int)) i s = c := if_neg (by omega)
  rw [strollPlace, hadd, Int.tmod_eq_of_lt (by omega) (by omega), if_neg (by omega),
    Int.toNat_natCast]

theorem ticks_oneTick {n i : Nat} (hle : n ≤ 32) (hi : i < n) (k : Nat)
    (hk : (oneTick i).1.getLsbD k = true) : k < n :=
  (getLsbD_oneTick hle hi k).mp hk ▸ hi

/-- The last item is not moved too far. -/
theorem StrollsRight.fits {m : Nat} {s : Int} (h : StrollsRight (m + 1) s) (hle : m + 1 ≤ 32)
    (hs : s < 2 ^ 31) : s + (m + 1 : Nat) ≤ 2 ^ 31 := by
  by_contra hover
  have hm : m < m + 1 := Nat.lt_succ_self m
  have hplace : ∀ c < m + 1, c = placeFrom (m + 1) s m := by
    intro c hc
    have hbit := ((h (fun _ => c) (oneTick m) (ticks_oneTick hle hm)).1 m hm).1.trans
      ((getLsbD_oneTick hle hm m).mpr rfl)
    have hmoved := (getLsbD_strollBoth_one hm (fun k _ => getLsbD_oneTick hle hm k)
      ((placeFrom_lt (Nat.succ_pos m) s m).trans_le hle)).mp hbit
    rwa [strollPlace_overflow (by omega) hc] at hmoved
  have h0 := hplace 0 (by omega)
  have h1 := hplace 1 (by omega)
  omega

/-- Nor is the item that `s` moves to the last place, on the way back. -/
theorem StrollsRight.fits_neg {m : Nat} {s : Int} (h : StrollsRight (m + 1) s)
    (hle : m + 1 ≤ 32) (hs : -(2 ^ 31) < s) (hfit : StrollFits (m + 1) s) :
    -s + (m + 1 : Nat) ≤ 2 ^ 31 := by
  by_contra hover
  have hm : m < m + 1 := Nat.lt_succ_self m
  obtain ⟨i, hi⟩ : ∃ i, i = placeFrom (m + 1) (-s) m := ⟨_, rfl⟩
  have hilt : i < m + 1 := hi ▸ placeFrom_lt (Nat.succ_pos m) (-s) m
  have hback : placeFrom (m + 1) s i = m := by
    have hneg := placeFrom_neg hm (-s)
    rwa [Int.neg_neg, ← hi] at hneg
  have hplace : ∀ c < m + 1, c = i := by
    intro c hc
    have hmid : ∀ k < m + 1,
        (strollBoth (fun _ => (c : Int)) (m + 1) s (oneTick i)).1.getLsbD k = true ↔ k = m := by
      intro k hk
      rw [getLsbD_strollBoth_one hilt (fun k _ => getLsbD_oneTick hle hilt k) (by omega),
        hfit.place (Nat.succ_pos m) _ hilt, hback]
      exact eq_comm
    have hbit := congrArg (·.1.getLsbD i)
      (h (fun _ => c) (oneTick i) (ticks_oneTick hle hilt)).2
    have hmoved := (getLsbD_strollBoth_one hm hmid (by omega)).mp
      (hbit.trans ((getLsbD_oneTick hle hilt i).mpr rfl))
    rwa [strollPlace_overflow (by omega) hc] at hmoved
  have h0 := hplace 0 (by omega)
  have h1 := hplace 1 (by omega)
  omega

/-- **`strollvote` is right** for `s` and `-s` that an `int` holds if and only if no sum is too
large. -/
theorem strollsRight_iff {n : Nat} (hn : 0 < n) (hle : n ≤ 32) {s : Int}
    (hs : -(2 ^ 31) < s ∧ s < 2 ^ 31) :
    StrollsRight n s ↔ s + n ≤ 2 ^ 31 ∧ -s + n ≤ 2 ^ 31 := by
  obtain ⟨m, rfl⟩ : ∃ m, n = m + 1 := ⟨n - 1, by omega⟩
  constructor
  · intro h
    have hfits := h.fits hle hs.2
    exact ⟨hfits, h.fits_neg hle hs.1 ⟨by omega, hfits⟩⟩
  · rintro ⟨hfits, hfits'⟩ junk uv hticks
    have hfit : StrollFits (m + 1) s := ⟨by omega, hfits⟩
    have hfit' : StrollFits (m + 1) (-s) := ⟨by omega, hfits'⟩
    exact ⟨fun i hi => hfit.moved hle junk uv hi, hfit.restores hfit' hn hle junk hticks⟩

/-! ## When the page is right -/

/-- What is promised of the form: each item is shown once, with its own text, and marked when it
is ticked. -/
def FormRight (totalitems multiroll : Nat) (voted : BitVec 32) : Prop :=
  ∀ (junk : BitVec 32) (items : Nat → List UInt8),
    ((voteForm junk totalitems multiroll voted items).map FormItem.value).Perm
        ((List.range totalitems).map (· + 1)) ∧
      ∀ e ∈ voteForm junk totalitems multiroll voted items,
        e.checked = voted.getLsbD (e.value - 1) ∧ e.text = items (e.value - 1)

/-- Every item is shown once. -/
theorem voteForm_values (junk : BitVec 32) {n : Nat} (hn : 0 < n) (r : Nat) (voted : BitVec 32)
    (items : Nat → List UInt8) :
    ((voteForm junk n r voted items).map FormItem.value).Perm ((List.range n).map (· + 1)) := by
  have hplace : ∀ i, (i + r) % n = placeFrom n r i := fun i => by
    have hcast := natCast_placeFrom hn r i
    exact_mod_cast hcast.symm
  have hvalues : (voteForm junk n r voted items).map FormItem.value =
      ((List.range n).map (placeFrom n r)).map (· + 1) := by
    simp [voteForm, hplace]
  rw [hvalues]
  refine List.Perm.map _ ?_
  have hnodup : ((List.range n).map (placeFrom n r)).Nodup :=
    List.nodup_range.map_on fun i hi k hk =>
      placeFrom_inj (List.mem_range.mp hi) (List.mem_range.mp hk)
  refine (hnodup.subperm fun k hk => ?_).perm_of_length_le (by simp)
  obtain ⟨i, -, rfl⟩ := List.mem_map.mp hk
  exact List.mem_range.mpr (placeFrom_lt hn r i)

/-- The marks are the bits of the turned word. -/
theorem formRight_iff_bits {n r : Nat} (hn : 0 < n) (voted : BitVec 32) :
    FormRight n r voted ↔ ∀ (junk : BitVec 32), ∀ i < n,
      (rollWord junk n r voted).getLsbD i = voted.getLsbD ((i + r) % n) := by
  have hmark : ∀ (junk : BitVec 32) (i : Nat), (rollWord junk n r voted >>> i).getLsbD 0 =
      (rollWord junk n r voted).getLsbD i := by
    intro junk i
    rw [BitVec.getLsbD_ushiftRight, Nat.add_zero]
  constructor
  · intro h junk i hi
    have hitem := (h junk fun _ => []).2 _ (List.mem_map.mpr ⟨i, List.mem_range.mpr hi, rfl⟩)
    rw [← hmark]
    exact hitem.1
  · intro h junk items
    refine ⟨voteForm_values junk hn r voted items, fun e he => ?_⟩
    obtain ⟨i, hi, rfl⟩ := List.mem_map.mp he
    dsimp only
    rw [Nat.add_sub_cancel, hmark]
    exact ⟨h junk i (List.mem_range.mp hi), rfl⟩

/-- **The form is right** if and only if the shift is one that is defined, and the bits above the
last item are 0 as far as they come in. -/
theorem formRight_iff {n r : Nat} (hr : r < n) (hle : n ≤ 32) (voted : BitVec 32) :
    FormRight n r voted ↔ ¬ (n = 32 ∧ r = 0) ∧ 2 ^ r ∣ voted.toNat / 2 ^ n := by
  rw [formRight_iff_bits (by omega)]
  by_cases hwide : n = 32 ∧ r = 0
  · obtain ⟨rfl, rfl⟩ := hwide
    -- a shift by 32 places: 0 and 1 both may be added
    refine ⟨fun h => ?_, fun h => absurd ⟨rfl, rfl⟩ h.1⟩
    have hbit := fun junk => h junk 0 (by decide)
    simp only [rollWord, if_neg (show ¬ 32 - 0 < 32 by decide), BitVec.ushiftRight_zero] at hbit
    have h1 := hbit 1
    rw [BitVec.getLsbD_add (by decide)] at h1
    simp at h1
  · obtain ⟨d, rfl⟩ := Nat.exists_eq_add_of_le (Nat.le_of_lt hr)
    have hd : r + d - r < 32 := by omega
    have hword : ∀ (junk : BitVec 32), ∀ i < r + d, (rollWord junk (r + d) r voted).getLsbD i =
        (voted.toNat / 2 ^ r + voted.toNat * 2 ^ d).testBit i := by
      intro junk i hi
      have hmod : i < 32 := by omega
      rw [rollWord, if_pos hd, Nat.add_sub_cancel_left, BitVec.getLsbD, BitVec.toNat_add,
        BitVec.toNat_ushiftRight, BitVec.toNat_shiftLeft, Nat.add_mod_mod, Nat.testBit_mod_two_pow,
        Nat.shiftRight_eq_div_pow, Nat.shiftLeft_eq, decide_eq_true hmod, Bool.true_and]
    rw [← turn_iff (show 0 < d by omega)]
    constructor
    · intro h
      refine ⟨hwide, fun i hi => ?_⟩
      rw [← hword 0 i hi]
      exact h 0 i hi
    · rintro ⟨-, h⟩ junk i hi
      rw [hword junk i hi]
      exact h i hi

/-- The ballot alone, as the terminal's vote has it. -/
theorem StrollFits.fst {n : Nat} {s : Int} (h : StrollFits n s) (junk : Int → Int)
    (uv : BitVec 32 × (Nat → List UInt8)) : (strollBoth junk n s uv).1 = strollvote n s uv.1 := by
  have hloop : ∀ (l : List Nat) (nuv : BitVec 32 × (Nat → List UInt8)), (∀ i ∈ l, i < n) →
      (l.foldl (strollStep (strollPlace junk n s) uv) nuv).1 =
        l.foldl (fun nuv (i : Nat) =>
          let j := ((i : Int) + s).tmod n
          let j := if j < 0 then j + n else j
          if uv.1.getLsbD i then nuv ||| BitVec.twoPow 32 j.toNat else nuv) nuv.1 := by
    intro l
    induction l with
    | nil => exact fun nuv _ => rfl
    | cons i l ih =>
      intro nuv hl
      have hi := hl i List.mem_cons_self
      unfold StrollFits at h
      have hadd : addInt junk i s = i + s := if_pos (by omega)
      rw [List.foldl_cons, List.foldl_cons, ih _ fun k hk => hl k (List.mem_cons_of_mem _ hk),
        strollStep, strollPlace, hadd]
  exact hloop _ _ fun i hi => List.mem_range.mp hi

/-- **Both ways of showing the items**: the terminal moves ticks and texts together and back for
all `s` for which no sum is too large, and the page marks what is ticked if and only if it does not
shift by 32 places, and what is above the last item is 0 as far as it comes in. -/
theorem rotations_right_iff (vote : Votebal) {s : Int} (hs : -(2 ^ 31) < s ∧ s < 2 ^ 31)
    {multiroll : Nat} (hroll : multiroll < vote.totalitems) (voted : BitVec 32) :
    (StrollsRight vote.totalitems s ↔
      s + vote.totalitems ≤ 2 ^ 31 ∧ -s + vote.totalitems ≤ 2 ^ 31) ∧
    (FormRight vote.totalitems multiroll voted ↔
      ¬ (vote.totalitems = 32 ∧ multiroll = 0) ∧
        2 ^ multiroll ∣ voted.toNat / 2 ^ vote.totalitems) :=
  ⟨strollsRight_iff vote.totalitems_pos vote.totalitems_le hs,
    formRight_iff hroll vote.totalitems_le voted⟩

theorem threeItems_maxtkt : -(2 ^ 31) ≤ (3 : Int) ∧ (3 : Int) < 2 ^ 31 := by decide

theorem threeItems_pos : 1 ≤ 3 := by decide

theorem threeItems_le : 3 ≤ 32 := by decide

/-- A vote with three items. -/
def threeItems : Votebal := ⟨.multi, 3, 3, threeItems_maxtkt, threeItems_pos, threeItems_le⟩

/-- Three items, moved by 5 at the terminal and by 2 on the page. -/
theorem rotations_right_three :
    StrollsRight threeItems.totalitems 5 ∧ FormRight threeItems.totalitems 2 5 := by
  obtain ⟨hstroll, hform⟩ := @rotations_right_iff threeItems 5 (by decide) 2 (by decide) 5
  exact ⟨hstroll.mpr (by decide), hform.mpr (by decide)⟩

/-- With 32 items and no turn the page shifts by 32: on a machine that takes this for a shift by 0
an item that is ticked is not marked.  With three items, a bit above them is taken for a tick. -/
theorem form_wrong :
    ¬ FormRight 32 0 1 ∧ ((voteForm 1 32 0 1 fun _ => []).head?.map FormItem.checked = some false) ∧
      ¬ FormRight 3 1 8 :=
  ⟨fun h => absurd ((formRight_iff (by decide) (by decide) 1).mp h).1 (by decide), by decide,
    fun h => absurd ((formRight_iff (by decide) (by decide) 8).mp h).2 (by decide)⟩

end Ytht
