import Mathlib.Tactic.Ring
import Ytht.Lib.Bits
import Ytht.Lib.Tally
import Ytht.Pop3.Session

/-!
# Vote.Ballot

What a ballot may hold.  `bbsvoteMain` is the web page's way from the form of a
voter to the number that is stored, `userVote` the terminal's, and `countResult`
counts a stored number.

The page takes the numbers of the form as they come: it shifts by them before it
looks at them, adds them up, and looks only whether they are too large.  So it
stores a ballot that is valid exactly for the forms of `InOrder`
(`ballots_counted`); from such ballots, and from the terminal's, the count stays
inside its table.

The comments of a ballot and the log of a vote are left out.
-/

namespace Ytht

open Tally Bits

/-- `VOTE_YN` to `VOTE_ASKING`. -/
inductive VoteType
  | yn
  | single
  | multi
  | value
  | asking
  deriving DecidableEq

def VoteType.code : VoteType → Int
  | yn => 1
  | single => 2
  | multi => 3
  | value => 4
  | asking => 5

/-- `struct votebal`. -/
structure Votebal where
  type : VoteType
  maxtkt : Int
  totalitems : Nat
  maxtkt_int : -(2 ^ 31) ≤ maxtkt ∧ maxtkt < 2 ^ 31
  totalitems_pos : 1 ≤ totalitems
  totalitems_le : totalitems ≤ 32

/-! ## The web page -/

/-- The parameters of the form, as text; `votemulti k` is the one of item `k + 1`. -/
structure VoteForm where
  procvote : List UInt8
  voteyn : List UInt8
  votesingle : List UInt8
  votemulti : Nat → List UInt8
  votevalue : List UInt8

/-- What becomes of a form. -/
inductive Outcome
  | shown
  | fatal
  | aborted
  | stored (voted : BitVec 32)
  deriving DecidableEq

/-- `1 << n`.  A shift by a count that is negative or too large gives no value to
rely on. -/
def shiftOne (junk : Int → BitVec 32) (n : Int) : BitVec 32 :=
  if 0 ≤ n ∧ n < 32 then BitVec.twoPow 32 n.toNat else junk n

/-- The ballot of one choice: the cases `VOTE_SINGLE` and `VOTE_YN`. -/
def choiceBallot (junk : Int → BitVec 32) (vote : Votebal) (old : BitVec 32)
    (param : List UInt8) : Outcome :=
  let votevalue := shiftOne junk (atoi param - 1)
  if vote.totalitems + 1 < atoi param then .fatal
  else if votevalue = old then .aborted
  else .stored votevalue

/-- The loop over the items of a multiple choice, from the last one down:
`votevalue` and `j`. -/
def multiLoop (form : VoteForm) : Nat → BitVec 32 → BitVec 32 → BitVec 32 × BitVec 32
  | 0, votevalue, j => (votevalue, j)
  | i + 1, votevalue, j =>
      multiLoop form i (votevalue <<< 1 + BitVec.ofInt 32 (atoi (form.votemulti i)))
        (j + BitVec.ofInt 32 (atoi (form.votemulti i)))

/-- The case `VOTE_MULTI`; `j` is unsigned. -/
def multiBallot (vote : Votebal) (old : BitVec 32) (form : VoteForm) : Outcome :=
  let (votevalue, j) := multiLoop form vote.totalitems 0 0
  if BitVec.ofInt 32 vote.maxtkt < j then .fatal
  else if votevalue = old then .aborted
  else .stored votevalue

/-- The case `VOTE_VALUE`. -/
def valueBallot (vote : Votebal) (old : BitVec 32) (form : VoteForm) : Outcome :=
  let votevalue := atoi form.votevalue
  if vote.maxtkt < votevalue then .fatal
  else if BitVec.ofInt 32 votevalue = old then .aborted
  else .stored (BitVec.ofInt 32 votevalue)

/-- `bbsvote_main` for a voter whose ballot was `old`, 0 without one. -/
def bbsvoteMain (junk : Int → BitVec 32) (vote : Votebal) (old : BitVec 32) (form : VoteForm) :
    Outcome :=
  if atoi form.procvote = 0 then .shown
  else if atoi form.procvote ≠ vote.type.code then .fatal
  else
    match vote.type with
    | .yn => choiceBallot junk vote old form.voteyn
    | .single => choiceBallot junk vote old form.votesingle
    | .multi => multiBallot vote old form
    | .value => valueBallot vote old form
    | .asking => .stored 0

/-! ## The terminal -/

/-- `strollvote`: the bits of the items, moved round by `s`. -/
def strollvote (totalitems : Nat) (s : Int) (voted : BitVec 32) : BitVec 32 :=
  (List.range totalitems).foldl (fun nuv (i : Nat) =>
    let j := ((i : Int) + s).tmod totalitems
    let j := if j < 0 then j + totalitems else j
    if voted.getLsbD i then nuv ||| BitVec.twoPow 32 j.toNat else nuv) 0

/-- A letter typed in `setperms`: `showvoteitems` refuses more than `maxtkt` items. -/
def setpermsKey (vote : Votebal) (pbits : BitVec 32) (choice : UInt8) : BitVec 32 :=
  let choice := if 97 ≤ choice.toNat ∧ choice.toNat ≤ 122 then choice.toNat - 32 else choice.toNat
  if choice < 65 ∨ 65 + vote.totalitems ≤ choice then pbits
  else
    let toggled := pbits ^^^ BitVec.twoPow 32 (choice - 65)
    if vote.maxtkt < ones toggled then pbits else toggled

/-- `multivote`, with the letters typed; `none` when the ballot is left as it was. -/
def multivote (vote : Votebal) (stroll : Nat) (voted : BitVec 32) (keys : List UInt8) :
    Option (BitVec 32) :=
  let stroll := stroll % vote.totalitems
  let strolled := strollvote vote.totalitems stroll voted
  let start := if vote.maxtkt < ones strolled then 0 else strolled
  let new := strollvote vote.totalitems (-stroll) (keys.foldl (setpermsKey vote) start)
  if new = voted then none else some new

/-- `valuevote`, with the lines typed: at most four characters each. -/
def valuevote (vote : Votebal) (voted : BitVec 32) : List (List UInt8) → Option (BitVec 32)
  | [] => none
  | line :: lines =>
      let buf := line.take 4
      let new := BitVec.ofNat 32 (atoi buf).natAbs
      if buf = [] ∨ buf.head? = some 10 then none
      else if BitVec.ofInt 32 vote.maxtkt < new then valuevote vote voted lines
      else if new = voted then none
      else some new

/-- What a voter does at the terminal. -/
structure VoteKeys where
  /-- the time, by which the items are moved round -/
  stroll : Nat
  letters : List UInt8
  lines : List (List UInt8)
  /-- whether `getsug` got a line -/
  sug : Bool

/-- The ballot `user_vote` stores for a voter whose ballot was `old`. -/
def userVote (vote : Votebal) (old : BitVec 32) (keys : VoteKeys) : Option (BitVec 32) :=
  match vote.type with
  | .yn | .single | .multi => multivote vote keys.stroll old keys.letters
  | .value => valuevote vote old keys.lines
  | .asking => if keys.sug then some 0 else none

/-! ## The count -/

/-- `count_result`; the sum of the numbers, in `result[31]`, is unsigned. -/
def countResult (vote : Votebal) (result : List Int) (voted : BitVec 32) : Option (List Int) := do
  let result ← bump result 32 1
  match vote.type with
  | .asking => some result
  | .value =>
      let result := result.modify 31 fun sum => (sum + voted.toNat) % 2 ^ 32
      let places := BitVec.ofInt 32 (vote.maxtkt + 1)
      -- the division stops the program
      if places = 0 then none
      else bump result (voted * 10 / places).toNat 1
  | .yn | .single | .multi =>
      bumpAll result (((List.range 32).filter (voted.getLsbD ·)).map fun (i : Nat) => ((i : Int), 1))

/-- The count over a flag file, from `memset(result, 0, sizeof (result))`. -/
def countResults (vote : Votebal) (flag : List (BitVec 32)) : Option (List Int) :=
  flag.foldlM (countResult vote) (List.replicate 33 0)

/-! ## Valid ballots -/

/-- The item is ticked: its parameter is a number other than 0. -/
def VoteForm.ticked (form : VoteForm) (k : Nat) : Bool := atoi (form.votemulti k) ≠ 0

/-- What a ballot from the page has to be. -/
def Votebal.Valid (vote : Votebal) (form : VoteForm) (voted : BitVec 32) : Prop :=
  match vote.type with
  | .yn | .single => ∃ k < vote.totalitems, voted = BitVec.twoPow 32 k
  | .multi =>
      (∀ k < 32, voted.getLsbD k = true ↔ k < vote.totalitems ∧ form.ticked k = true) ∧
        ones voted ≤ vote.maxtkt
  | .value => (voted.toNat : Int) ≤ vote.maxtkt
  | .asking => voted = 0

/-- A choice is in order when it is that of an item, or too large by more than one,
which is refused, or repeats an old ballot. -/
def Votebal.ChoiceInOrder (vote : Votebal) (old : BitVec 32) (n : Int) : Prop :=
  1 ≤ n ∧ n ≤ vote.totalitems ∨ vote.totalitems + 1 < n ∨
    n = vote.totalitems + 1 ∧ vote.totalitems < 32 ∧ old = BitVec.twoPow 32 vote.totalitems

/-- A multiple choice is in order when no more than `maxtkt` items are ticked and what
the numbers are other than 0 and 1 cancels out, as it does when there are no others;
or the sum of the numbers is too large, which is refused; or it repeats an old ballot. -/
def Votebal.MultiInOrder (vote : Votebal) (old : BitVec 32) (form : VoteForm) : Prop :=
  ((List.range vote.totalitems).countP form.ticked ≤ vote.maxtkt ∧
      2 ^ 32 ∣ ∑ k ∈ Finset.range vote.totalitems,
        ((if form.ticked k then 1 else 0) - atoi (form.votemulti k)) * 2 ^ k) ∨
    vote.maxtkt % 2 ^ 32 < (∑ k ∈ Finset.range vote.totalitems, atoi (form.votemulti k)) % 2 ^ 32 ∨
    old = BitVec.ofInt 32 (∑ k ∈ Finset.range vote.totalitems, atoi (form.votemulti k) * 2 ^ k)

/-- A number is in order when it is not negative, or too large, which is refused, or
repeats an old ballot. -/
def Votebal.ValueInOrder (vote : Votebal) (old : BitVec 32) (n : Int) : Prop :=
  0 ≤ n ∨ vote.maxtkt < n ∨ old = BitVec.ofInt 32 n

/-- The forms from which the page stores only valid ballots. -/
def Votebal.InOrder (vote : Votebal) (old : BitVec 32) (form : VoteForm) : Prop :=
  atoi form.procvote = vote.type.code →
    match vote.type with
    | .yn => vote.ChoiceInOrder old (atoi form.voteyn)
    | .single => vote.ChoiceInOrder old (atoi form.votesingle)
    | .multi => vote.MultiInOrder old form
    | .value => vote.ValueInOrder old (atoi form.votevalue)
    | .asking => True

theorem twoPow_inj {i j : Nat} (hi : i < 32)
    (h : BitVec.twoPow 32 i = BitVec.twoPow 32 j) : i = j := by
  have hbit := congrArg (·.getLsbD i) h
  simp [hi] at hbit
  omega

theorem shiftOne_eq (junk : Int → BitVec 32) {n : Int} {k : Nat} (hn : n = k) (hk : k < 32) :
    shiftOne junk n = BitVec.twoPow 32 k := by
  subst hn
  rw [shiftOne, if_pos (by omega), Int.toNat_natCast]

/-- A word that is no power of two, and not the old ballot either. -/
theorem exists_junk (old : BitVec 32) : ∃ v ≠ old, ∀ k < 32, v ≠ BitVec.twoPow 32 k := by
  by_cases hold : old = 0
  · exact ⟨3, by rw [hold]; decide, by decide⟩
  · exact ⟨0, Ne.symm hold, by decide⟩

theorem choiceBallot_iff (vote : Votebal) (old : BitVec 32) (param : List UInt8) :
    (∀ junk v, choiceBallot junk vote old param = .stored v →
        ∃ k < vote.totalitems, v = BitVec.twoPow 32 k) ↔
      vote.ChoiceInOrder old (atoi param) := by
  have hle := vote.totalitems_le
  unfold choiceBallot Votebal.ChoiceInOrder
  generalize atoi param = n
  constructor
  · intro h
    by_contra hno
    rw [not_or, not_or] at hno
    obtain ⟨hitem, hfits, hrepeats⟩ := hno
    by_cases hshift : 0 ≤ n - 1 ∧ n - 1 < 32
    · -- the bit behind that of the last item
      obtain rfl : n = vote.totalitems + 1 := by omega
      have hnew : shiftOne (fun _ => 0) (vote.totalitems + 1 - 1) =
          BitVec.twoPow 32 vote.totalitems := shiftOne_eq _ (by omega) (by omega)
      have hne : BitVec.twoPow 32 vote.totalitems ≠ old := fun h =>
        hrepeats ⟨rfl, by omega, h.symm⟩
      obtain ⟨k, hk, hpow⟩ := h (fun _ => 0) (BitVec.twoPow 32 vote.totalitems)
        (by rw [hnew, if_neg hfits, if_neg hne])
      have := twoPow_inj (by omega) hpow
      omega
    · obtain ⟨v, hv, hpow⟩ := exists_junk old
      obtain ⟨k, hk, rfl⟩ := h (fun _ => v) v (by
        rw [if_neg hfits, shiftOne, if_neg hshift, if_neg hv])
      exact hpow k (by omega) rfl
  · intro h junk v hv
    dsimp only at hv
    split_ifs at hv with hfits hold
    cases hv
    rcases h with hitem | hbig | ⟨rfl, ht, hrepeats⟩
    · exact ⟨(n - 1).toNat, by omega, shiftOne_eq _ (by omega) (by omega)⟩
    · exact absurd hbig hfits
    · exact absurd ((shiftOne_eq _ (by omega) ht).trans hrepeats.symm) hold

theorem multiLoop_eq (form : VoteForm) (t : Nat) (x y : Int) :
    multiLoop form t (BitVec.ofInt 32 x) (BitVec.ofInt 32 y) =
      (BitVec.ofInt 32 (x * 2 ^ t + ∑ k ∈ Finset.range t, atoi (form.votemulti k) * 2 ^ k),
        BitVec.ofInt 32 (y + ∑ k ∈ Finset.range t, atoi (form.votemulti k))) := by
  induction t generalizing x y with
  | zero => simp [multiLoop]
  | succ t ih =>
      have hshift : BitVec.ofInt 32 x <<< 1 + BitVec.ofInt 32 (atoi (form.votemulti t)) =
          BitVec.ofInt 32 (x * 2 + atoi (form.votemulti t)) := by
        rw [BitVec.ofInt_add, BitVec.ofInt_mul, BitVec.shiftLeft_eq_mul_twoPow]
        rfl
      rw [multiLoop, hshift, ← BitVec.ofInt_add, ih, Finset.sum_range_succ, Finset.sum_range_succ]
      congr 2 <;> ring

theorem multiBallot_iff (vote : Votebal) (old : BitVec 32) (form : VoteForm) :
    (∀ v, multiBallot vote old form = .stored v →
        (∀ k < 32, v.getLsbD k = true ↔ k < vote.totalitems ∧ form.ticked k = true) ∧
          ones v ≤ vote.maxtkt) ↔
      vote.MultiInOrder old form := by
  have hloop := multiLoop_eq form vote.totalitems 0 0
  have hmask := ofInt_sum_eq_mask_iff (fun k => atoi (form.votemulti k)) form.ticked
    vote.totalitems_le
  unfold multiBallot Votebal.MultiInOrder
  simp only [Int.zero_mul, Int.zero_add] at hloop
  rw [show (0 : BitVec 32) = BitVec.ofInt 32 0 from rfl, hloop, ← hmask]
  generalize (∑ k ∈ Finset.range vote.totalitems, atoi (form.votemulti k) * 2 ^ k) = sum
  generalize (∑ k ∈ Finset.range vote.totalitems, atoi (form.votemulti k)) = j
  have hrefused : BitVec.ofInt 32 vote.maxtkt < BitVec.ofInt 32 j ↔
      vote.maxtkt % 2 ^ 32 < j % 2 ^ 32 := by
    rw [BitVec.lt_def, BitVec.toNat_ofInt, BitVec.toNat_ofInt]
    omega
  have hvalid (v : BitVec 32) :
      ((∀ k < 32, v.getLsbD k = true ↔ k < vote.totalitems ∧ form.ticked k = true) ∧
          ones v ≤ vote.maxtkt) ↔
        (List.range vote.totalitems).countP form.ticked ≤ vote.maxtkt ∧
          v = mask 32 form.ticked vote.totalitems := by
    rw [← eq_mask_iff _ vote.totalitems_le, and_comm]
    refine and_congr_left fun hv => ?_
    rw [hv, ones_mask _ vote.totalitems_le]
  dsimp only
  rw [← hrefused]
  split_ifs with hbig hold
  · simp [hbig]
  · simp [hold]
  · simp [hbig, hvalid, Ne.symm hold]

theorem valueBallot_iff (vote : Votebal) (old : BitVec 32) (form : VoteForm) :
    (∀ v, valueBallot vote old form = .stored v → (v.toNat : Int) ≤ vote.maxtkt) ↔
      vote.ValueInOrder old (atoi form.votevalue) := by
  have hmax := vote.maxtkt_int
  have hatoi : -2147483648 ≤ atoi form.votevalue := Int.le_max_left _ _
  unfold valueBallot Votebal.ValueInOrder
  generalize atoi form.votevalue = n at hatoi
  have hn : ((BitVec.ofInt 32 n).toNat : Int) = n % 2 ^ 32 := by
    rw [BitVec.toNat_ofInt]
    omega
  dsimp only
  split_ifs with hbig hold
  · simp [hbig]
  · simp [hold]
  · simp only [Outcome.stored.injEq, forall_eq', hn, hbig, Ne.symm hold, or_false]
    omega

/-- **The page stores a valid ballot** exactly for the forms that are in order. -/
theorem bbsvoteMain_iff (vote : Votebal) (old : BitVec 32) (form : VoteForm) :
    (∀ junk v, bbsvoteMain junk vote old form = .stored v → vote.Valid form v) ↔
      vote.InOrder old form := by
  unfold bbsvoteMain Votebal.InOrder Votebal.Valid
  by_cases hproc : atoi form.procvote = vote.type.code
  · have hcode : vote.type.code ≠ 0 := by cases vote.type <;> decide
    rw [hproc]
    simp only [hcode, if_false, ne_eq, not_true_eq_false, true_implies]
    cases vote.type with
    | yn => exact choiceBallot_iff vote old form.voteyn
    | single => exact choiceBallot_iff vote old form.votesingle
    | multi => simpa using multiBallot_iff vote old form
    | value => simpa using valueBallot_iff vote old form
    | asking => simp
  · refine iff_of_true (fun junk v hv => ?_) fun h => absurd h hproc
    rw [if_pos hproc] at hv
    split_ifs at hv

/-! ## What the count needs -/

/-- What the count can take. -/
def Votebal.Storable (vote : Votebal) (voted : BitVec 32) : Prop :=
  match vote.type with
  | .yn | .single | .multi => ∀ k < 32, voted.getLsbD k = true → k < vote.totalitems
  | .value => (voted.toNat : Int) ≤ vote.maxtkt
  | .asking => True

theorem Votebal.Valid.storable {vote : Votebal} {form : VoteForm} {voted : BitVec 32}
    (h : vote.Valid form voted) : vote.Storable voted := by
  have hchoice (hk : ∃ k < vote.totalitems, voted = BitVec.twoPow 32 k) :
      ∀ i < 32, voted.getLsbD i = true → i < vote.totalitems := by
    obtain ⟨k, hk, rfl⟩ := hk
    intro i hi hbit
    simp at hbit
    omega
  unfold Votebal.Valid at h
  unfold Votebal.Storable
  cases htype : vote.type with
  | yn => exact hchoice (by simpa [htype] using h)
  | single => exact hchoice (by simpa [htype] using h)
  | multi =>
      rw [htype] at h
      exact fun k hk hbit => ((h.1 k hk).mp hbit).1
  | value => simpa [htype] using h
  | asking => trivial

theorem strollvote_lt {t : Nat} (ht : 0 < t) (s : Int) (voted : BitVec 32) {k : Nat}
    (h : (strollvote t s voted).getLsbD k = true) : k < t := by
  unfold strollvote at h
  generalize List.range t = items at h
  revert h
  suffices hfold : ∀ nuv : BitVec 32, (nuv.getLsbD k = true → k < t) →
      (items.foldl (fun nuv (i : Nat) =>
        let j := ((i : Int) + s).tmod t
        let j := if j < 0 then j + t else j
        if voted.getLsbD i then nuv ||| BitVec.twoPow 32 j.toNat else nuv) nuv).getLsbD k = true →
      k < t from hfold 0 (by simp)
  induction items with
  | nil => exact fun nuv hnuv => hnuv
  | cons i items ih =>
      intro nuv hnuv
      refine ih _ ?_
      dsimp only
      split
      · intro hbit
        rw [BitVec.getLsbD_or, Bool.or_eq_true] at hbit
        cases hbit with
        | inl hold => exact hnuv hold
        | inr hnew =>
            have hlt := Int.tmod_lt_of_pos ((i : Int) + s) (show (0 : Int) < t by omega)
            have hgt := Int.lt_tmod_of_pos ((i : Int) + s) (show (0 : Int) < t by omega)
            simp at hnew
            split at hnew <;> omega
      · exact hnuv

theorem valuevote_le {vote : Votebal} {old v : BitVec 32} {lines : List (List UInt8)}
    (hmax : 0 ≤ vote.maxtkt) (h : valuevote vote old lines = some v) :
    (v.toNat : Int) ≤ vote.maxtkt := by
  have hint := vote.maxtkt_int
  induction lines with
  | nil => simp [valuevote] at h
  | cons line lines ih =>
      rw [valuevote] at h
      split_ifs at h with hempty hbig hsame
      · exact ih h
      · cases h
        rw [BitVec.lt_def, BitVec.toNat_ofInt] at hbig
        omega

theorem userVote_storable {vote : Votebal} {old v : BitVec 32} {keys : VoteKeys}
    (hmax : vote.type = .value → 0 ≤ vote.maxtkt) (h : userVote vote old keys = some v) :
    vote.Storable v := by
  have hmulti (h : multivote vote keys.stroll old keys.letters = some v) :
      ∀ k < 32, v.getLsbD k = true → k < vote.totalitems := by
    unfold multivote at h
    simp only [Option.ite_none_left_eq_some, Option.some.injEq] at h
    obtain ⟨-, rfl⟩ := h
    exact fun k _ hbit => strollvote_lt vote.totalitems_pos _ _ hbit
  unfold userVote at h
  unfold Votebal.Storable
  cases htype : vote.type with
  | yn => exact hmulti (by simpa [htype] using h)
  | single => exact hmulti (by simpa [htype] using h)
  | multi => exact hmulti (by simpa [htype] using h)
  | value => exact valuevote_le (hmax htype) (by simpa [htype] using h)
  | asking => trivial

/-! ## The count over a flag file -/

/-- The entries of `result` that a vote of the type uses, besides the number of ballots. -/
def Votebal.Uses (vote : Votebal) (i : Nat) : Prop :=
  match vote.type with
  | .yn | .single | .multi => i < vote.totalitems
  | .value => i < 10 ∨ i = 31
  | .asking => False

/-- The table after `n` ballots. -/
structure Votebal.Tallied (vote : Votebal) (n : Nat) (result : List Int) : Prop where
  length : result.length = 33
  ballots : result.getD 32 0 = n
  unused : ∀ i < 32, ¬ vote.Uses i → result.getD i 0 = 0

/-- Changes of entries the vote uses leave the others. -/
theorem Votebal.Tallied.bumpAll {vote : Votebal} {n : Nat} {result : List Int}
    (h : vote.Tallied n result) {changes : List (Int × Int)}
    (huses : ∀ c ∈ changes, ∃ i : Nat, c.1 = i ∧ i < 32 ∧ vote.Uses i) :
    ∃ result', Tally.bumpAll result changes = some result' ∧ vote.Tallied n result' := by
  have hsome : (Tally.bumpAll result changes).isSome := by
    rw [bumpAll_isSome, h.length]
    intro c hc
    obtain ⟨i, hi, hlt, -⟩ := huses c hc
    omega
  obtain ⟨result', hresult⟩ := Option.isSome_iff_exists.mp hsome
  obtain ⟨hlen, hget⟩ := bumpAll_eq_some hresult
  have hnet (k : Nat) (hk : ¬ (k < 32 ∧ vote.Uses k)) : net changes k = 0 := by
    refine net_eq_zero fun c hc => ?_
    obtain ⟨i, hi, hlt, hu⟩ := huses c hc
    rintro heq
    obtain rfl : i = k := by omega
    exact hk ⟨hlt, hu⟩
  refine ⟨result', hresult, hlen.trans h.length, ?_, fun i hi hu => ?_⟩
  · rw [hget 32 (by rw [h.length]; decide), h.ballots, hnet 32 (by omega), Int.add_zero]
  · rw [hget i (by rw [h.length]; omega), h.unused i hi hu, hnet i (fun hu' => hu hu'.2), Int.add_zero]

/-- One more ballot. -/
theorem Votebal.Tallied.ballot {vote : Votebal} {n : Nat} {result : List Int}
    (h : vote.Tallied n result) :
    ∃ result', bump result 32 1 = some result' ∧ vote.Tallied (n + 1) result' := by
  have hsome : (bump result 32 1).isSome := by
    rw [bump_isSome, h.length]
    decide
  obtain ⟨result', hresult⟩ := Option.isSome_iff_exists.mp hsome
  obtain ⟨hlen, hget⟩ := bump_eq_some hresult
  refine ⟨result', hresult, hlen.trans h.length, ?_, fun i hi hu => ?_⟩
  · rw [hget 32 (by rw [h.length]; decide), h.ballots]
    simp
  · rw [hget i (by rw [h.length]; omega), h.unused i hi hu, if_neg (by omega)]
    rfl

/-- The sum of the numbers. -/
theorem Votebal.Tallied.sum {vote : Votebal} {n : Nat} {result : List Int}
    (h : vote.Tallied n result) (huses : vote.Uses 31) (f : Int → Int) :
    vote.Tallied n (result.modify 31 f) := by
  have hget (i : Nat) (hi : i ≠ 31) : (result.modify 31 f).getD i 0 = result.getD i 0 := by
    simp [List.getD_eq_getElem?_getD, hi.symm]
  refine ⟨by simp [h.length], by rw [hget 32 (by decide), h.ballots], fun i hi hu => ?_⟩
  by_cases hi31 : i = 31
  · exact absurd (hi31 ▸ huses) hu
  · rw [hget i hi31, h.unused i hi hu]

/-- A number up to `maxtkt` falls into one of ten places. -/
theorem place_lt {vote : Votebal} {voted : BitVec 32} (hv : (voted.toNat : Int) ≤ vote.maxtkt) :
    BitVec.ofInt 32 (vote.maxtkt + 1) ≠ 0 ∧
      (voted * 10 / BitVec.ofInt 32 (vote.maxtkt + 1)).toNat < 10 := by
  have hmax := vote.maxtkt_int
  have hplaces : (BitVec.ofInt 32 (vote.maxtkt + 1)).toNat = vote.maxtkt.toNat + 1 := by
    rw [BitVec.toNat_ofInt]
    omega
  constructor
  · intro h0
    rw [h0] at hplaces
    simp at hplaces
  · rw [BitVec.toNat_udiv, BitVec.toNat_mul, hplaces, Nat.div_lt_iff_lt_mul (by omega)]
    have hmod := Nat.mod_le (voted.toNat * BitVec.toNat (10 : BitVec 32)) (2 ^ 32)
    have hten : BitVec.toNat (10 : BitVec 32) = 10 := rfl
    rw [hten] at hmod ⊢
    omega

/-- **A ballot that the count can take** is counted inside the entries the vote uses. -/
theorem countResult_tallied {vote : Votebal} {n : Nat} {result : List Int}
    (h : vote.Tallied n result) {voted : BitVec 32} (hv : vote.Storable voted) :
    ∃ result', countResult vote result voted = some result' ∧ vote.Tallied (n + 1) result' := by
  obtain ⟨result₁, hresult₁, h₁⟩ := h.ballot
  have hbits (huses : ∀ k < 32, voted.getLsbD k = true → vote.Uses k) :
      ∃ result', Tally.bumpAll result₁ (((List.range 32).filter (voted.getLsbD ·)).map
        fun (i : Nat) => ((i : Int), 1)) = some result' ∧ vote.Tallied (n + 1) result' := by
    refine h₁.bumpAll fun c hc => ?_
    obtain ⟨i, hi, rfl⟩ := List.mem_map.mp hc
    obtain ⟨hlt, hbit⟩ := List.mem_filter.mp hi
    exact ⟨i, rfl, List.mem_range.mp hlt, huses i (List.mem_range.mp hlt) hbit⟩
  unfold countResult
  unfold Votebal.Storable at hv
  rw [hresult₁, Option.bind_eq_bind, Option.bind_some]
  cases htype : vote.type with
  | yn => exact hbits (by simpa [Votebal.Uses, htype] using hv)
  | single => exact hbits (by simpa [Votebal.Uses, htype] using hv)
  | multi => exact hbits (by simpa [Votebal.Uses, htype] using hv)
  | asking => exact ⟨result₁, rfl, h₁⟩
  | value =>
      rw [htype] at hv
      obtain ⟨hne, hplace⟩ := place_lt hv
      have huses : ∀ i, vote.Uses i ↔ i < 10 ∨ i = 31 := fun i => by rw [Votebal.Uses, htype]
      dsimp only
      rw [if_neg hne]
      have hsum := h₁.sum ((huses 31).mpr (Or.inr rfl)) fun sum => (sum + voted.toNat) % 2 ^ 32
      generalize (voted * 10 / BitVec.ofInt 32 (vote.maxtkt + 1)).toNat = place at hplace ⊢
      have hone : ∀ c ∈ [((place : Int), (1 : Int))], ∃ i : Nat, c.1 = i ∧ i < 32 ∧ vote.Uses i := by
        rw [List.forall_mem_singleton]
        exact ⟨place, rfl, by omega, (huses place).mpr (Or.inl hplace)⟩
      obtain ⟨result', hresult', h'⟩ := hsum.bumpAll hone
      exact ⟨result', by simpa using hresult', h'⟩

/-- **The count over any ballots it can take.** -/
theorem countResults_tallied {vote : Votebal} {flag : List (BitVec 32)}
    (h : ∀ voted ∈ flag, vote.Storable voted) :
    ∃ result, countResults vote flag = some result ∧ vote.Tallied flag.length result := by
  have hrun (flag : List (BitVec 32)) (h : ∀ voted ∈ flag, vote.Storable voted) (n : Nat)
      (result : List Int) (hresult : vote.Tallied n result) :
      ∃ result', flag.foldlM (countResult vote) result = some result' ∧
        vote.Tallied (n + flag.length) result' := by
    induction flag generalizing n result with
    | nil => exact ⟨result, rfl, hresult⟩
    | cons voted flag ih =>
        obtain ⟨result₁, hone, h₁⟩ := countResult_tallied hresult (h voted List.mem_cons_self)
        obtain ⟨result', hrest, h'⟩ := ih (fun v hv => h v (List.mem_cons_of_mem _ hv)) _ _ h₁
        refine ⟨result', ?_, ?_⟩
        · rw [List.foldlM_cons, Option.bind_eq_bind, hone, Option.bind_some, hrest]
        · rwa [List.length_cons, Nat.add_comm flag.length 1, ← Nat.add_assoc]
  have hstart : vote.Tallied 0 (List.replicate 33 0) := by
    refine ⟨List.length_replicate, rfl, fun i hi _ => ?_⟩
    rw [List.getD_eq_getElem _ _ (by rw [List.length_replicate]; omega), List.getElem_replicate]
  obtain ⟨result, hcount, hresult⟩ := hrun flag h 0 (List.replicate 33 0) hstart
  exact ⟨result, hcount, by rwa [Nat.zero_add] at hresult⟩

/-- A number in a flag file that came there from a form in order, or from the terminal. -/
inductive Votebal.Built (vote : Votebal) (voted : BitVec 32) : Prop
  | bbsvote (junk : Int → BitVec 32) (old : BitVec 32) (form : VoteForm)
      (hform : vote.InOrder old form) (h : bbsvoteMain junk vote old form = .stored voted)
  | terminal (old : BitVec 32) (keys : VoteKeys) (hmax : vote.type = .value → 0 ≤ vote.maxtkt)
      (h : userVote vote old keys = some voted)

/-- **Only valid ballots are stored** from the forms that are in order, and from no
others; and over every flag file of such ballots and of those from the terminal the
count uses only the entries of its vote and finds the number of ballots. -/
theorem ballots_counted (vote : Votebal) :
    (∀ old form, (∀ junk v, bbsvoteMain junk vote old form = .stored v → vote.Valid form v) ↔
      vote.InOrder old form) ∧
      ∀ flag : List (BitVec 32), (∀ voted ∈ flag, vote.Built voted) →
        ∃ result, countResults vote flag = some result ∧ result.length = 33 ∧
          result.getD 32 0 = flag.length ∧
          ∀ i < 32, ¬ vote.Uses i → result.getD i 0 = 0 := by
  refine ⟨bbsvoteMain_iff vote, fun flag hflag => ?_⟩
  have hstorable : ∀ voted ∈ flag, vote.Storable voted := by
    intro voted hvoted
    cases hflag voted hvoted with
    | bbsvote junk old form hform h =>
        exact ((bbsvoteMain_iff vote old form).mpr hform junk voted h).storable
    | terminal old keys hmax h => exact userVote_storable hmax h
  obtain ⟨result, hcount, h⟩ := countResults_tallied hstorable
  exact ⟨result, hcount, h.length, h.ballots, h.unused⟩

/-- A vote on a number up to 100. -/
def numberVote : Votebal where
  type := .value
  maxtkt := 100
  totalitems := 1
  maxtkt_int := by decide
  totalitems_pos := by decide
  totalitems_le := by decide

/-- The form with the number -1. -/
def negativeForm : VoteForm where
  procvote := [52]
  voteyn := []
  votesingle := []
  votemulti := fun _ => []
  votevalue := [45, 49]

/-- A negative number is stored, as a large one, and the count then leaves its table. -/
theorem bbsvoteMain_negative :
    bbsvoteMain (fun _ => 0) numberVote 0 negativeForm = .stored 4294967295 ∧
      ¬ numberVote.Valid negativeForm 4294967295 ∧
      countResults numberVote [4294967295] = none := by
  have hstored : bbsvoteMain (fun _ => 0) numberVote 0 negativeForm = .stored 4294967295 := by
    decide +kernel
  have hcount : countResults numberVote [4294967295] = none := by decide +kernel
  refine ⟨hstored, ?_, hcount⟩
  change ¬ ((BitVec.toNat (4294967295 : BitVec 32) : Int) ≤ 100)
  decide

end Ytht
