import Mathlib.Algebra.BigOperators.Fin
import Mathlib.Algebra.Order.BigOperators.Group.Finset
import Mathlib.Data.Fin.VecNotation
import Mathlib.Data.Fintype.BigOperators
import Mathlib.Tactic.Positivity
import Ytht.Lib.Ledger
import Ytht.Moneycenter.Lottery

/-!
# Moneycenter.Prize

`doOpenLottery`: the winners are gathered in a list, each is paid, and the pool falls by
the share of each class that was won.

Only the soccer branch pays and reduces the pool.  Both functions work out the money in the
pool, but `sendPrizeMail` does not apply the limit that `doOpenLottery` applies.
-/

namespace Ytht

open Bytes Function

variable {U : Type} {lottery : Lottery}

/-! ## The money -/

/-- `PRIZE_PER` -/
def prizePer : Int := 1000000

/-- `MAX_POOL_MONEY` -/
def maxPoolMoney : Int := 5000000

/-- `prizeRate`, in hundredths. -/
def prizeRate : Fin 5 → Int := ![60, 20, 10, 5, 2]

/-- The pools, the treasury and the cash of each user. -/
structure Lotteries (U : Type) where
  prize367 : Int
  prizeSoccer : Int
  treasury : Int
  cash : U → Int
  cash_range : ∀ u, IntRange (cash u)

namespace Lotteries

def prize (s : Lotteries U) : Lottery → Int
  | .select36 => s.prize367
  | .soccer => s.prizeSoccer

variable [DecidableEq U]

theorem range_update {cash : U → Int} (h : ∀ u, IntRange (cash u)) (user : U) (amount : Int) :
    ∀ u, IntRange (update cash user (toInt amount) u) := by
  intro u
  by_cases hu : u = user
  · subst hu
    rw [update_self]
    exact toInt_range amount
  · rw [update_of_ne hu]
    exact h u

/-- `mcuInfo->cash += myPrizeMoney; mcEnv->Treasury -= myPrizeMoney` -/
def give (s : Lotteries U) (user : U) (myPrizeMoney : Int) : Lotteries U :=
  { s with
    treasury := s.treasury - myPrizeMoney
    cash := update s.cash user (toInt (s.cash user + myPrizeMoney))
    cash_range := range_update s.cash_range user (s.cash user + myPrizeMoney) }

end Lotteries

/-- The money in a pool, as `sendPrizeMail` finds it. -/
def totalMoney (s : Lotteries U) (lottery : Lottery) : Int := toInt (s.prize lottery + prizePer)

/-- The money in a pool, as `doOpenLottery` finds it. -/
def limitedMoney (s : Lotteries U) (lottery : Lottery) : Int :=
  min (totalMoney s lottery) maxPoolMoney

/-! ## The program -/

section Program

variable [DecidableEq U]

def addCounts (a b : Counts) : Counts := fun i => toInt (a i + b i)

/-- `savePrizeList`, on the file of winners. -/
def savePrizeList (user : U) (record : Counts) : List (U × Counts) → List (U × Counts)
  | [] => [(user, record)]
  | (winner, count) :: rest =>
    if winner = user then (winner, addCounts count record) :: rest
    else (winner, count) :: savePrizeList user record rest

/-- One line of the list of bets. -/
def countLine (prizeSeq : List UInt8) (tally : List (U × Counts) × Counts)
    (bet : Bet U lottery) : Option (List (U × Counts) × Counts) := do
  let record ← parseBet prizeSeq bet
  if ∃ i, 0 < record i then
    some (savePrizeList bet.user record tally.1, addCounts tally.2 record)
  else some tally

/-- `sendPrizeMail` -/
def sendPrizeMail (lottery : Lottery) (totalCount : Counts) (s : Lotteries U)
    (record : U × Counts) : Lotteries U :=
  let money := totalMoney s lottery
  (List.finRange 5).foldl
    (fun s i =>
      if 0 < record.2 i ∧ 0 < totalCount i then
        let perPrize := (prizeRate i * money).tdiv (100 * totalCount i)
        s.give record.1 (toInt (perPrize * record.2 i))
      else s)
    s

/-- `remainMoney -= totalMoney * prizeRate[i]`, for a class that was won. -/
def takeShare (money : Int) (totalCount : Fin 5 → Int) (remain : Int) (i : Fin 5) : Int :=
  if 0 < totalCount i then (100 * remain - money * prizeRate i).tdiv 100 else remain

/-- What remains of a pool when the shares of the classes that were won are taken off. -/
def remainMoney (money : Int) (totalCount : Fin 5 → Int) : Int :=
  (List.finRange 5).foldl (takeShare money totalCount) money

/-- `doOpenLottery`, on the list of bets if there is one. -/
def doOpenLottery (lottery : Lottery) (drawn : Draw) (entered : List UInt8)
    (list : Option (List (Bet U lottery))) (s : Lotteries U) : Option (Int × Lotteries U) :=
  match list with
  | none => some (-1, s)
  | some bets => do
    let (prizeList, totalCount) ← bets.foldlM (countLine (decidingSeq drawn entered lottery))
      ([], fun _ => 0)
    let money := limitedMoney s lottery
    match lottery with
    | .select36 => some (0, { s with prize367 := money })
    | .soccer =>
      let paid := prizeList.foldl (sendPrizeMail .soccer totalCount) s
      some (0, { paid with prizeSoccer := remainMoney money totalCount })

end Program

/-! ## What should be paid -/

section Spec

/-- The winning bets of class `i`. -/
def won (prizeSeq : List UInt8) (bets : List (Bet U lottery)) (i : Fin 5) : Nat :=
  (bets.map fun bet => bet.wins prizeSeq i).sum

variable [DecidableEq U]

/-- The winning bets of class `i` of one user. -/
def wonBy (prizeSeq : List UInt8) (bets : List (Bet U lottery)) (u : U) (i : Fin 5) : Nat :=
  (bets.map fun bet => if bet.user = u then bet.wins prizeSeq i else 0).sum

/-- The prize of one bet of class `i`, when `n` bets of the class win. -/
def prizeFor (money : Int) (n : Nat) (i : Fin 5) : Int := prizeRate i * money / (100 * n)

/-- What a user should get. -/
def prizeMoney (money : Int) (prizeSeq : List UInt8) (bets : List (Bet U lottery)) (u : U) : Int :=
  ∑ i, wonBy prizeSeq bets u i * prizeFor money (won prizeSeq bets i) i

/-- Everyone is paid from the money in the pool, and the pool falls as it should. -/
structure PaidOut [Fintype U] (prizeSeq : List UInt8) (bets : List (Bet U lottery))
    (s s' : Lotteries U) : Prop where
  paid : ∀ u, s'.cash u = s.cash u + prizeMoney (limitedMoney s lottery) prizeSeq bets u
  total : ∑ u, (s'.cash u - s.cash u) ≤ limitedMoney s lottery - s'.prize lottery
  pool : s'.prize lottery =
    remainMoney (limitedMoney s lottery) fun i => won prizeSeq bets i

/-- When the prizes can be paid: in 36-7 when there is nothing to pay, and in soccer when
the limit changes the prize of no class that was won, and nobody's cash leaves `int`. -/
def Payable (prizeSeq : List UInt8) (bets : List (Bet U lottery)) (s : Lotteries U) : Prop :=
  match lottery with
  | .select36 => (∀ i, won prizeSeq bets i = 0) ∨ limitedMoney s .select36 = 0
  | .soccer =>
    (∀ i, 0 < won prizeSeq bets i →
      (prizeRate i * totalMoney s .soccer).tdiv (100 * won prizeSeq bets i) =
        prizeFor (limitedMoney s .soccer) (won prizeSeq bets i) i) ∧
      ∀ u, IntRange (s.cash u + prizeMoney (limitedMoney s .soccer) prizeSeq bets u)

end Spec

/-! ## The list of winners -/

section Tally

variable {prizeSeq : List UInt8}

theorem won_append (bets : List (Bet U lottery)) (bet : Bet U lottery) (i : Fin 5) :
    won prizeSeq (bets ++ [bet]) i = won prizeSeq bets i + bet.wins prizeSeq i := by
  rw [won, won, List.map_append, List.sum_append]
  simp

theorem won_mono (bets rest : List (Bet U lottery)) (i : Fin 5) :
    won prizeSeq bets i ≤ won prizeSeq (bets ++ rest) i := by
  rw [won, won, List.map_append, List.sum_append]
  omega

variable [DecidableEq U]

theorem wonBy_append (bets : List (Bet U lottery)) (bet : Bet U lottery) (u : U) (i : Fin 5) :
    wonBy prizeSeq (bets ++ [bet]) u i =
      wonBy prizeSeq bets u i + if bet.user = u then bet.wins prizeSeq i else 0 := by
  rw [wonBy, wonBy, List.map_append, List.sum_append]
  simp

theorem wonBy_le_won (prizeSeq : List UInt8) (bets : List (Bet U lottery)) (u : U) (i : Fin 5) :
    wonBy prizeSeq bets u i ≤ won prizeSeq bets i := by
  rw [wonBy, won]
  apply List.sum_le_sum
  intro bet _
  split <;> omega

/-- Every winning bet of a class is some user's. -/
theorem sum_wonBy [Fintype U] (bets : List (Bet U lottery)) (i : Fin 5) :
    ∑ u, wonBy prizeSeq bets u i = won prizeSeq bets i := by
  induction bets using List.reverseRecOn with
  | nil => simp [wonBy, won]
  | append_singleton bets bet ih =>
    simp only [wonBy_append, won_append, Finset.sum_add_distrib, ih, Finset.sum_ite_eq,
      Finset.mem_univ, if_true]

/-- The list of winners has each user once, with his winning bets. -/
structure Tallied (prizeSeq : List UInt8) (prizeList : List (U × Counts)) (totalCount : Counts)
    (bets : List (Bet U lottery)) : Prop where
  nodup : (prizeList.map Prod.fst).Nodup
  record : ∀ r ∈ prizeList, ∀ i, r.2 i = wonBy prizeSeq bets r.1 i
  missing : ∀ u, u ∉ prizeList.map Prod.fst → ∀ i, wonBy prizeSeq bets u i = 0
  total : ∀ i, totalCount i = won prizeSeq bets i

theorem Tallied.nil : Tallied prizeSeq ([] : List (U × Counts)) (fun _ => 0)
    ([] : List (Bet U lottery)) where
  nodup := by simp
  record := by simp
  missing := by simp [wonBy]
  total := by simp [won]

theorem savePrizeList_fst (user : U) (record : Counts) (prizeList : List (U × Counts)) :
    (savePrizeList user record prizeList).map Prod.fst =
      if user ∈ prizeList.map Prod.fst then prizeList.map Prod.fst
      else prizeList.map Prod.fst ++ [user] := by
  induction prizeList with
  | nil => rfl
  | cons r rest ih =>
    obtain ⟨winner, count⟩ := r
    rw [savePrizeList]
    by_cases hwinner : winner = user
    · rw [if_pos hwinner, hwinner]
      simp
    · rw [if_neg hwinner, List.map_cons, ih, List.map_cons]
      simp only [List.mem_cons, Ne.symm hwinner, false_or]
      split <;> rfl

theorem mem_savePrizeList {user : U} {record : Counts} {prizeList : List (U × Counts)}
    (hnodup : (prizeList.map Prod.fst).Nodup) {r : U × Counts}
    (hr : r ∈ savePrizeList user record prizeList) :
    (r.1 ≠ user ∧ r ∈ prizeList) ∨
      (∃ count, (user, count) ∈ prizeList ∧ r = (user, addCounts count record)) ∨
        (user ∉ prizeList.map Prod.fst ∧ r = (user, record)) := by
  induction prizeList with
  | nil =>
    rw [savePrizeList, List.mem_singleton] at hr
    exact .inr (.inr ⟨by simp, hr⟩)
  | cons winner rest ih =>
    obtain ⟨winner, count⟩ := winner
    rw [List.map_cons, List.nodup_cons] at hnodup
    rw [savePrizeList] at hr
    by_cases hwinner : winner = user
    · subst hwinner
      rw [if_pos rfl, List.mem_cons] at hr
      obtain rfl | hmem := hr
      · exact .inr (.inl ⟨count, List.mem_cons_self, rfl⟩)
      · have hne : r.1 ≠ winner := by
          intro heq
          exact hnodup.1 (List.mem_map.mpr ⟨r, hmem, heq⟩)
        exact .inl ⟨hne, List.mem_cons_of_mem _ hmem⟩
    · rw [if_neg hwinner, List.mem_cons] at hr
      obtain rfl | hmem := hr
      · exact .inl ⟨hwinner, List.mem_cons_self⟩
      · obtain ⟨hne, hmem⟩ | ⟨old, hold, hr⟩ | ⟨hnot, hr⟩ := ih hnodup.2 hmem
        · exact .inl ⟨hne, List.mem_cons_of_mem _ hmem⟩
        · exact .inr (.inl ⟨old, List.mem_cons_of_mem _ hold, hr⟩)
        · have hnone : user ∉ winner :: rest.map Prod.fst := by
            rw [List.mem_cons, not_or]
            exact ⟨Ne.symm hwinner, hnot⟩
          exact .inr (.inr ⟨hnone, hr⟩)

theorem counts_of_lt {n : Nat} (h : n < 2 ^ 31) : toInt n = n :=
  toInt_of_range (Int.natCast_nonneg n) (by exact_mod_cast h)

/-- **One line** of the list of bets. -/
theorem Tallied.step {prizeList : List (U × Counts)} {totalCount : Counts}
    {bets : List (Bet U lottery)} (h : Tallied prizeSeq prizeList totalCount bets)
    {bet : Bet U lottery}
    (hparse : parseBet prizeSeq bet = some (counts fun i => bet.wins prizeSeq i))
    (hlt : ∀ i, won prizeSeq (bets ++ [bet]) i < 2 ^ 31) :
    ∃ prizeList' totalCount',
      countLine prizeSeq (prizeList, totalCount) bet = some (prizeList', totalCount') ∧
        Tallied prizeSeq prizeList' totalCount' (bets ++ [bet]) := by
  have hwins : (counts fun i => bet.wins prizeSeq i) = fun i => (bet.wins prizeSeq i : Int) := by
    funext i
    have hi := hlt i
    rw [won_append] at hi
    exact counts_of_lt (by omega)
  rw [countLine, hparse, hwins]
  dsimp only [Option.bind_eq_bind, Option.bind_some]
  split
  · refine ⟨_, _, rfl, ?_, ?_, ?_, ?_⟩
    · rw [savePrizeList_fst]
      split
      · exact h.nodup
      · rename_i hnot
        rw [List.nodup_append]
        refine ⟨h.nodup, List.nodup_singleton _, ?_⟩
        intro u hu v hv heq
        rw [List.mem_singleton] at hv
        exact hnot (hv ▸ heq ▸ hu)
    · intro r hr i
      have hle := wonBy_le_won prizeSeq (bets ++ [bet]) r.1 i
      have hi := hlt i
      obtain ⟨hne, hmem⟩ | ⟨old, hold, rfl⟩ | ⟨hnot, rfl⟩ := mem_savePrizeList h.nodup hr
      · rw [wonBy_append, if_neg (Ne.symm hne), h.record r hmem i]
        rfl
      · have hcount := h.record _ hold i
        rw [wonBy_append, if_pos rfl] at hle ⊢
        dsimp only [addCounts] at hcount hle ⊢
        rw [hcount, ← Nat.cast_add, counts_of_lt (by omega)]
      · rw [wonBy_append, if_pos rfl, h.missing _ hnot i, Nat.zero_add]
    · intro u hu i
      rw [savePrizeList_fst] at hu
      have hboth : u ∉ prizeList.map Prod.fst ∧ bet.user ≠ u := by
        split at hu
        · rename_i hmem
          exact ⟨hu, fun heq => hu (heq ▸ hmem)⟩
        · rw [List.mem_append, not_or, List.mem_singleton] at hu
          exact ⟨hu.1, Ne.symm hu.2⟩
      rw [wonBy_append, if_neg hboth.2, h.missing u hboth.1 i]
    · intro i
      have hi := hlt i
      rw [won_append] at hi ⊢
      rw [addCounts, h.total i, ← Nat.cast_add, counts_of_lt hi]
  · rename_i hnone
    have hzero : ∀ i, bet.wins prizeSeq i = 0 := by
      intro i
      rw [not_exists] at hnone
      have hi := hnone i
      omega
    refine ⟨_, _, rfl, h.nodup, ?_, ?_, ?_⟩
    · intro r hr i
      rw [wonBy_append, hzero i, ite_self, h.record r hr i]
      rfl
    · intro u hu i
      rw [wonBy_append, hzero i, ite_self, h.missing u hu i]
    · intro i
      rw [won_append, hzero i, h.total i]
      rfl

/-- **The list of bets**: the winners and the totals are those of all lines. -/
theorem Tallied.run {prizeList : List (U × Counts)} {totalCount : Counts}
    {bets rest : List (Bet U lottery)} (h : Tallied prizeSeq prizeList totalCount bets)
    (hparse : ∀ bet : Bet U lottery,
      parseBet prizeSeq bet = some (counts fun i => bet.wins prizeSeq i))
    (hlt : ∀ i, won prizeSeq (bets ++ rest) i < 2 ^ 31) :
    ∃ prizeList' totalCount',
      rest.foldlM (countLine prizeSeq) (prizeList, totalCount) = some (prizeList', totalCount') ∧
        Tallied prizeSeq prizeList' totalCount' (bets ++ rest) := by
  induction rest generalizing bets prizeList totalCount with
  | nil =>
    rw [List.append_nil]
    exact ⟨prizeList, totalCount, rfl, h⟩
  | cons bet rest ih =>
    have hsplit : bets ++ bet :: rest = bets ++ [bet] ++ rest := by simp
    rw [hsplit] at hlt ⊢
    obtain ⟨prizeList', totalCount', hline, htally⟩ := h.step (hparse bet) fun i =>
      Nat.lt_of_le_of_lt (won_mono (bets ++ [bet]) rest i) (hlt i)
    rw [List.foldlM_cons, hline]
    exact ih htally hlt

end Tally

/-! ## The payments -/

section Payments

/-- One user has got an amount, and the pools are as before. -/
structure Given (user : U) (amount : Int) (s s' : Lotteries U) : Prop where
  prize : s'.prize = s.prize
  others : ∀ u, u ≠ user → s'.cash u = s.cash u
  cash : s'.cash user = toInt (s.cash user + amount)

theorem Given.refl (user : U) (s : Lotteries U) : Given user 0 s s := by
  refine ⟨rfl, fun _ _ => rfl, ?_⟩
  rw [Int.add_zero, (s.cash_range user).toInt]

variable [DecidableEq U]

theorem Given.give {user : U} {amount : Int} {s s' : Lotteries U} (h : Given user amount s s')
    (more : Int) : Given user (amount + more) s (s'.give user (toInt more)) where
  prize := h.prize
  others u hu := (update_of_ne hu _ _).trans (h.others u hu)
  cash := by
    rw [Lotteries.give]
    dsimp only
    rw [update_self, h.cash, toInt_add_toInt, Int.add_comm (toInt _), toInt_add_toInt]
    congr 1
    omega

/-- What `sendPrizeMail` pays for class `i`. -/
def mailed (money : Int) (totalCount record : Counts) (i : Fin 5) : Int :=
  if 0 < record i ∧ 0 < totalCount i then
    (prizeRate i * money).tdiv (100 * totalCount i) * record i
  else 0

/-- **`sendPrizeMail`** pays one winner for every class. -/
theorem sendPrizeMail_given (lottery : Lottery) (totalCount : Counts) (s : Lotteries U)
    (record : U × Counts) :
    Given record.1 (∑ i, mailed (totalMoney s lottery) totalCount record.2 i) s
      (sendPrizeMail lottery totalCount s record) := by
  have hpass (classes : List (Fin 5)) {amount : Int} {s' : Lotteries U}
      (h : Given record.1 amount s s') :
      Given record.1 (amount + (classes.map (mailed (totalMoney s lottery) totalCount record.2)).sum)
        s (classes.foldl
          (fun s'' i =>
            if 0 < record.2 i ∧ 0 < totalCount i then
              let perPrize := (prizeRate i * totalMoney s lottery).tdiv (100 * totalCount i)
              s''.give record.1 (toInt (perPrize * record.2 i))
            else s'')
          s') := by
    induction classes generalizing amount s' with
    | nil => simpa using h
    | cons i classes ih =>
      rw [List.map_cons, List.sum_cons, ← Int.add_assoc, List.foldl_cons, mailed]
      apply ih
      split
      · exact h.give _
      · rw [Int.add_zero]
        exact h
  have hall := hpass (List.finRange 5) (Given.refl record.1 s)
  rw [Int.zero_add, ← Fin.sum_univ_def] at hall
  exact hall

/-- **All winners** are paid, each once. -/
theorem sendPrizeMail_run (lottery : Lottery) (totalCount : Counts)
    {prizeList : List (U × Counts)} (hnodup : (prizeList.map Prod.fst).Nodup) (s : Lotteries U) :
    (prizeList.foldl (sendPrizeMail lottery totalCount) s).prize = s.prize ∧
      (∀ u, u ∉ prizeList.map Prod.fst →
        (prizeList.foldl (sendPrizeMail lottery totalCount) s).cash u = s.cash u) ∧
      ∀ r ∈ prizeList, (prizeList.foldl (sendPrizeMail lottery totalCount) s).cash r.1 =
        toInt (s.cash r.1 + ∑ i, mailed (totalMoney s lottery) totalCount r.2 i) := by
  induction prizeList generalizing s with
  | nil => exact ⟨rfl, fun _ _ => rfl, by simp⟩
  | cons record rest ih =>
    rw [List.map_cons, List.nodup_cons] at hnodup
    have hgiven := sendPrizeMail_given lottery totalCount s record
    obtain ⟨hprize, hothers, hcash⟩ := ih hnodup.2 (sendPrizeMail lottery totalCount s record)
    have hmoney : totalMoney (sendPrizeMail lottery totalCount s record) lottery =
        totalMoney s lottery := by
      rw [totalMoney, totalMoney, hgiven.prize]
    rw [List.foldl_cons]
    refine ⟨hprize.trans hgiven.prize, ?_, ?_⟩
    · intro u hu
      rw [List.map_cons, List.mem_cons, not_or] at hu
      rw [hothers u hu.2, hgiven.others u hu.1]
    · intro r hr
      rw [List.mem_cons] at hr
      obtain rfl | hmem := hr
      · rw [hothers _ hnodup.1, hgiven.cash]
      · have hne : r.1 ≠ record.1 := by
          intro heq
          exact hnodup.1 (heq ▸ List.mem_map.mpr ⟨r, hmem, rfl⟩)
        rw [hcash r hmem, hgiven.others r.1 hne, hmoney]

end Payments

/-! ## What remains -/

section Remain

variable (money : Int) (totalCount : Fin 5 → Int)

theorem prizeRate_bounds (i : Fin 5) : 0 < prizeRate i ∧ prizeRate i ≤ 60 := by
  decide +revert

/-- A share is at least its whole part. -/
theorem takeShare_le (remain : Int) (i : Fin 5) : takeShare money totalCount remain i ≤
    remain - if 0 < totalCount i then prizeRate i * money / 100 else 0 := by
  rw [takeShare]
  split
  · have htdiv := Int.tdiv_eq_ediv (a := 100 * remain - money * prizeRate i) (b := 100)
    have hsign : (100 : Int).sign = 1 := rfl
    rw [htdiv, hsign, Int.mul_comm money]
    split <;> omega
  · omega

theorem foldl_takeShare_le (classes : List (Fin 5)) (remain : Int) :
    classes.foldl (takeShare money totalCount) remain ≤ remain -
      (classes.map fun i => if 0 < totalCount i then prizeRate i * money / 100 else 0).sum := by
  induction classes generalizing remain with
  | nil => simp
  | cons i classes ih =>
    have hstep := takeShare_le money totalCount remain i
    have hrest := ih (takeShare money totalCount remain i)
    rw [List.foldl_cons, List.map_cons, List.sum_cons]
    omega

/-- The pool falls by the whole part of each share at least. -/
theorem remainMoney_le : remainMoney money totalCount ≤ money -
    ∑ i, if 0 < totalCount i then prizeRate i * money / 100 else 0 := by
  rw [Fin.sum_univ_def]
  exact foldl_takeShare_le money totalCount (List.finRange 5) money

variable {money : Int} {totalCount : Fin 5 → Int}

theorem foldl_takeShare_lt (hpos : 0 < money) {classes : List (Fin 5)}
    (hwon : ∃ i ∈ classes, 0 < totalCount i) :
    classes.foldl (takeShare money totalCount) money < money := by
  induction classes with
  | nil => simp at hwon
  | cons i classes ih =>
    rw [List.foldl_cons]
    by_cases hi : 0 < totalCount i
    · have hrest := foldl_takeShare_le money totalCount classes
        (takeShare money totalCount money i)
      have hnonneg : 0 ≤
          (classes.map fun i => if 0 < totalCount i then prizeRate i * money / 100 else 0).sum := by
        apply List.sum_nonneg
        simp only [List.mem_map]
        rintro share ⟨j, -, rfl⟩
        have hrate := (prizeRate_bounds j).1
        split
        · positivity
        · omega
      have hstep : takeShare money totalCount money i < money := by
        have hrate := prizeRate_bounds i
        have hlo : 0 < money * prizeRate i := by
          have := hrate.1
          positivity
        have hhi : money * prizeRate i ≤ money * 60 := by
          apply Int.mul_le_mul_of_nonneg_left hrate.2
          omega
        rw [takeShare, if_pos hi, Int.tdiv_eq_ediv_of_nonneg (by omega)]
        omega
      omega
    · rw [takeShare, if_neg hi]
      apply ih
      obtain ⟨j, hj, hjwon⟩ := hwon
      rw [List.mem_cons] at hj
      obtain rfl | hmem := hj
      · exact absurd hjwon hi
      · exact ⟨j, hmem, hjwon⟩

theorem takeShare_neg (remain : Int) (i : Fin 5) :
    takeShare (-money) totalCount (-remain) i = -takeShare money totalCount remain i := by
  rw [takeShare, takeShare]
  split
  · rw [← Int.neg_tdiv]
    congr 1
    ring
  · rfl

theorem remainMoney_neg : remainMoney (-money) totalCount = -remainMoney money totalCount := by
  have hpass (classes : List (Fin 5)) (remain : Int) :
      classes.foldl (takeShare (-money) totalCount) (-remain) =
        -classes.foldl (takeShare money totalCount) remain := by
    induction classes generalizing remain with
    | nil => rfl
    | cons i classes ih => rw [List.foldl_cons, List.foldl_cons, takeShare_neg, ih]
  exact hpass (List.finRange 5) money

/-- A pool stays as it is only if no class was won, or it is empty. -/
theorem remainMoney_eq_self (money : Int) (totalCount : Fin 5 → Int) :
    remainMoney money totalCount = money ↔ (∀ i, totalCount i ≤ 0) ∨ money = 0 := by
  constructor
  · intro heq
    by_contra hnot
    rw [not_or, not_forall] at hnot
    obtain ⟨⟨i, hi⟩, hmoney⟩ := hnot
    have hwon : ∃ i ∈ List.finRange 5, 0 < totalCount i := ⟨i, List.mem_finRange i, by omega⟩
    rcases Int.lt_or_gt_of_ne hmoney with hneg | hpos
    · have hlt := foldl_takeShare_lt (by omega : 0 < -money) hwon
      rw [← remainMoney, remainMoney_neg, heq] at hlt
      omega
    · have hlt := foldl_takeShare_lt hpos hwon
      rw [← remainMoney, heq] at hlt
      omega
  · have hpass (hkeep : ∀ i, takeShare money totalCount money i = money)
        (classes : List (Fin 5)) :
        classes.foldl (takeShare money totalCount) money = money := by
      induction classes with
      | nil => rfl
      | cons i classes ih => rw [List.foldl_cons, hkeep i, ih]
    rintro (hnone | rfl)
    · refine hpass (fun i => ?_) _
      rw [takeShare, if_neg (by have := hnone i; omega)]
    · refine hpass (fun i => ?_) _
      rw [takeShare]
      split <;> simp

end Remain

/-! ## The run -/

section Payout

variable [DecidableEq U] {prizeSeq : List UInt8} {bets : List (Bet U lottery)}

/-- What `sendPrizeMail` pays a user, class by class. -/
def sentMoney (money : Int) (prizeSeq : List UInt8) (bets : List (Bet U lottery)) (u : U) : Int :=
  ∑ i, wonBy prizeSeq bets u i * (prizeRate i * money).tdiv (100 * won prizeSeq bets i)

theorem sum_mailed {u : U} {record totalCount : Counts} (money : Int)
    (hrecord : ∀ i, record i = wonBy prizeSeq bets u i)
    (htotal : ∀ i, totalCount i = won prizeSeq bets i) :
    ∑ i, mailed money totalCount record i = sentMoney money prizeSeq bets u := by
  rw [sentMoney]
  apply Finset.sum_congr rfl
  intro i _
  have hle := wonBy_le_won prizeSeq bets u i
  rw [mailed, hrecord i, htotal i]
  split
  · exact Int.mul_comm _ _
  · have hzero : wonBy prizeSeq bets u i = 0 := by omega
    rw [hzero, Nat.cast_zero, Int.zero_mul]

/-- **`doOpenLottery`** on a list of bets: what it leaves in the pool and what it pays. -/
theorem doOpenLottery_soccer (drawn : Draw) (entered : List UInt8) {bets : List (Bet U .soccer)}
    (hlt : ∀ i, won entered bets i < 2 ^ 31) (s : Lotteries U) :
    ∃ s', doOpenLottery .soccer drawn entered (some bets) s = some (0, s') ∧
      s'.prizeSoccer = remainMoney (limitedMoney s .soccer) (fun i => won entered bets i) ∧
      ∀ u, s'.cash u = toInt (s.cash u + sentMoney (totalMoney s .soccer) entered bets u) := by
  obtain ⟨prizeList, totalCount, hfold, htally⟩ :=
    Tallied.nil.run (parseBet_wins drawn entered) hlt
  obtain ⟨hprize, hothers, hcash⟩ :=
    sendPrizeMail_run .soccer totalCount htally.nodup s
  have htotal : totalCount = fun i => (won entered bets i : Int) := funext htally.total
  rw [doOpenLottery, hfold]
  refine ⟨_, rfl, congrArg (remainMoney _) htotal, ?_⟩
  intro u
  dsimp only
  by_cases hu : u ∈ prizeList.map Prod.fst
  · obtain ⟨r, hr, rfl⟩ := List.mem_map.mp hu
    rw [hcash r hr, sum_mailed _ (htally.record r hr) htally.total]
    rfl
  · have hzero : sentMoney (totalMoney s .soccer) entered bets u = 0 := by
      apply Finset.sum_eq_zero
      intro i _
      have hnone : wonBy entered bets u i = 0 := htally.missing u hu i
      rw [hnone, Nat.cast_zero, Int.zero_mul]
    rw [hothers u hu, hzero, Int.add_zero, (s.cash_range u).toInt]

theorem doOpenLottery_select36 (drawn : Draw) (entered : List UInt8)
    {bets : List (Bet U .select36)}
    (hlt : ∀ i, won (make367Seq drawn) bets i < 2 ^ 31) (s : Lotteries U) :
    doOpenLottery .select36 drawn entered (some bets) s =
      some (0, { s with prize367 := limitedMoney s .select36 }) := by
  obtain ⟨prizeList, totalCount, hfold, -⟩ :=
    Tallied.nil.run (parseBet_wins drawn entered) hlt
  rw [doOpenLottery, hfold]
  rfl

/-! ## What is paid in all -/

theorem mul_prizeFor_le {n : Nat} (hpos : 0 < n) (money : Int) (i : Fin 5) :
    n * prizeFor money n i ≤ prizeRate i * money / 100 := by
  rw [prizeFor, ← Int.ediv_ediv_of_nonneg (by omega)]
  exact Int.mul_ediv_self_le (by omega)

/-- The payments come to no more than the shares of the classes that were won. -/
theorem sum_prizeMoney_le [Fintype U] (prizeSeq : List UInt8) (bets : List (Bet U lottery))
    (money : Int) :
    ∑ u, prizeMoney money prizeSeq bets u ≤
      ∑ i, if 0 < (won prizeSeq bets i : Int) then prizeRate i * money / 100 else 0 := by
  simp only [prizeMoney]
  rw [Finset.sum_comm]
  apply Finset.sum_le_sum
  intro i _
  rw [← Finset.sum_mul, ← Nat.cast_sum, sum_wonBy]
  split
  · exact mul_prizeFor_le (by omega) money i
  · have hzero : won prizeSeq bets i = 0 := by omega
    rw [hzero, Nat.cast_zero, Int.zero_mul]

/-- When everyone is paid and the pool falls as it should, no more is paid than it falls. -/
theorem PaidOut.intro [Fintype U] {s s' : Lotteries U}
    (hpaid : ∀ u, s'.cash u = s.cash u + prizeMoney (limitedMoney s lottery) prizeSeq bets u)
    (hpool : s'.prize lottery =
      remainMoney (limitedMoney s lottery) fun i => won prizeSeq bets i) :
    PaidOut prizeSeq bets s s' := by
  refine ⟨hpaid, ?_, hpool⟩
  have hsum : ∑ u, (s'.cash u - s.cash u) =
      ∑ u, prizeMoney (limitedMoney s lottery) prizeSeq bets u := by
    apply Finset.sum_congr rfl
    intro u _
    rw [hpaid u]
    omega
  have hle := sum_prizeMoney_le prizeSeq bets (limitedMoney s lottery)
  have hfall := remainMoney_le (limitedMoney s lottery) fun i => (won prizeSeq bets i : Int)
  rw [hsum, hpool]
  omega

/-! ## What one user is paid -/

theorem prizeFor_le_tdiv {money limited : Int} (hle : limited ≤ money) (n : Nat) (i : Fin 5) :
    prizeFor limited n i ≤ (prizeRate i * money).tdiv (100 * n) := by
  have hrate := (prizeRate_bounds i).1
  have hmul : prizeRate i * limited ≤ prizeRate i * money :=
    Int.mul_le_mul_of_nonneg_left hle (by omega)
  rw [prizeFor, Int.tdiv_eq_ediv]
  rcases Nat.eq_zero_or_pos n with rfl | hpos
  · simp
  · have hdiv := Int.ediv_le_ediv (by omega : (0 : Int) < 100 * n) hmul
    have hsign : (100 * (n : Int)).sign = 1 := Int.sign_eq_one_of_pos (by omega)
    rw [hsign]
    split <;> omega

variable (prizeSeq bets) in
theorem prizeMoney_nonneg {money : Int} (h : 0 ≤ money) (u : U) :
    0 ≤ prizeMoney money prizeSeq bets u := by
  apply Finset.sum_nonneg
  intro i _
  have hrate := (prizeRate_bounds i).1
  rw [prizeFor]
  positivity

variable (prizeSeq bets) in
theorem prizeMoney_le_sentMoney {money limited : Int} (hle : limited ≤ money) (u : U) :
    prizeMoney limited prizeSeq bets u ≤ sentMoney money prizeSeq bets u := by
  apply Finset.sum_le_sum
  intro i _
  exact Int.mul_le_mul_of_nonneg_left (prizeFor_le_tdiv hle _ i) (by omega)

variable (prizeSeq bets) in
/-- No user is paid more than there is. -/
theorem sentMoney_bounds {money : Int} (h : 0 ≤ money) (u : U) :
    0 ≤ sentMoney money prizeSeq bets u ∧ sentMoney money prizeSeq bets u ≤ money := by
  have hprize : sentMoney money prizeSeq bets u = prizeMoney money prizeSeq bets u := by
    apply Finset.sum_congr rfl
    intro i _
    have hrate := (prizeRate_bounds i).1
    rw [prizeFor, Int.tdiv_eq_ediv_of_nonneg (by positivity)]
  have hshares : prizeMoney money prizeSeq bets u ≤ ∑ i, prizeRate i * money / 100 := by
    apply Finset.sum_le_sum
    intro i _
    have hle := wonBy_le_won prizeSeq bets u i
    have hrate := (prizeRate_bounds i).1
    rcases Nat.eq_zero_or_pos (won prizeSeq bets i) with hzero | hpos
    · rw [hzero, Nat.le_zero] at hle
      rw [hle, Nat.cast_zero, Int.zero_mul]
      positivity
    · have hmul : (wonBy prizeSeq bets u i : Int) * prizeFor money (won prizeSeq bets i) i ≤
          won prizeSeq bets i * prizeFor money (won prizeSeq bets i) i := by
        apply Int.mul_le_mul_of_nonneg_right (by omega)
        rw [prizeFor]
        positivity
      exact hmul.trans (mul_prizeFor_le hpos money i)
  have hall : ∑ i, prizeRate i * money / 100 ≤ money := by
    rw [Fin.sum_univ_five]
    simp only [prizeRate, Matrix.cons_val]
    omega
  exact ⟨hprize ▸ prizeMoney_nonneg prizeSeq bets h u, by omega⟩

theorem sentMoney_neg (money : Int) (u : U) :
    sentMoney (-money) prizeSeq bets u = -sentMoney money prizeSeq bets u := by
  rw [sentMoney, sentMoney, ← Finset.sum_neg_distrib]
  apply Finset.sum_congr rfl
  intro i _
  rw [Int.mul_neg, Int.neg_tdiv, Int.mul_neg]

theorem prizeFor_of_won {money limited : Int}
    (h : ∀ i, 0 < won prizeSeq bets i →
      (prizeRate i * money).tdiv (100 * won prizeSeq bets i) =
        prizeFor limited (won prizeSeq bets i) i) (u : U) :
    sentMoney money prizeSeq bets u = prizeMoney limited prizeSeq bets u := by
  apply Finset.sum_congr rfl
  intro i _
  have hle := wonBy_le_won prizeSeq bets u i
  rcases Nat.eq_zero_or_pos (won prizeSeq bets i) with hzero | hpos
  · have hnone : wonBy prizeSeq bets u i = 0 := by omega
    rw [hnone, Nat.cast_zero, Int.zero_mul, Int.zero_mul]
  · rw [h i hpos]

/-- A user's cash is right only if he was sent what he should get. -/
theorem sentMoney_eq {s : Lotteries U} {u : U}
    (h : toInt (s.cash u + sentMoney (totalMoney s lottery) prizeSeq bets u) =
      s.cash u + prizeMoney (limitedMoney s lottery) prizeSeq bets u) :
    sentMoney (totalMoney s lottery) prizeSeq bets u =
      prizeMoney (limitedMoney s lottery) prizeSeq bets u := by
  have hlimited : limitedMoney s lottery ≤ totalMoney s lottery := min_le_left _ _
  have hle := prizeMoney_le_sentMoney prizeSeq bets hlimited u
  have hcash := s.cash_range u
  have hrange := toInt_range (s.cash u + sentMoney (totalMoney s lottery) prizeSeq bets u)
  have hmoney : IntRange (totalMoney s lottery) := toInt_range _
  obtain ⟨n, hn⟩ := toInt_eq_add (s.cash u + sentMoney (totalMoney s lottery) prizeSeq bets u)
  rw [IntRange] at hcash hmoney
  rw [h] at hn hrange
  rcases Int.lt_or_le (totalMoney s lottery) 0 with hneg | hnonneg
  · have hbounds := sentMoney_bounds prizeSeq bets (by omega : 0 ≤ -totalMoney s lottery) u
    rw [sentMoney_neg] at hbounds
    omega
  · have hbounds := sentMoney_bounds prizeSeq bets hnonneg u
    have hlimit : 0 ≤ limitedMoney s lottery := le_min hnonneg (by decide)
    have hprize := prizeMoney_nonneg prizeSeq bets hlimit u
    omega

/-- The same for all users: every class that was won has the right prize. -/
theorem tdiv_eq_prizeFor [Fintype U] {money limited : Int} (hle : limited ≤ money)
    (h : ∀ u, sentMoney money prizeSeq bets u = prizeMoney limited prizeSeq bets u)
    {i : Fin 5} (hpos : 0 < won prizeSeq bets i) :
    (prizeRate i * money).tdiv (100 * won prizeSeq bets i) =
      prizeFor limited (won prizeSeq bets i) i := by
  rw [← sum_wonBy] at hpos
  obtain ⟨u, -, hu⟩ := Finset.exists_ne_zero_of_sum_ne_zero (Nat.ne_of_gt hpos)
  have hterms : ∀ j ∈ Finset.univ,
      (wonBy prizeSeq bets u j : Int) * prizeFor limited (won prizeSeq bets j) j ≤
        wonBy prizeSeq bets u j *
          (prizeRate j * money).tdiv (100 * won prizeSeq bets j) := by
    intro j _
    exact Int.mul_le_mul_of_nonneg_left (prizeFor_le_tdiv hle _ j) (by omega)
  have heq := (Finset.sum_eq_sum_iff_of_le hterms).mp (h u).symm i (Finset.mem_univ i)
  exact (Int.eq_of_mul_eq_mul_left (by omega) heq).symm

end Payout

/-- When a list of bets is opened, **everyone is paid** exactly if the prizes can be paid. -/
theorem doOpenLottery_paidOut [Fintype U] [DecidableEq U] (drawn : Draw) (entered : List UInt8)
    {bets : List (Bet U lottery)}
    (hlt : ∀ i, won (decidingSeq drawn entered lottery) bets i < 2 ^ 31) (s : Lotteries U) :
    ∃ s', doOpenLottery lottery drawn entered (some bets) s = some (0, s') ∧
      (PaidOut (decidingSeq drawn entered lottery) bets s s' ↔
        Payable (decidingSeq drawn entered lottery) bets s) := by
  cases lottery with
  | select36 =>
    refine ⟨_, doOpenLottery_select36 drawn entered hlt s, ?_⟩
    have hnone : (∀ i, ((won (make367Seq drawn) bets i : Nat) : Int) ≤ 0) ↔
        ∀ i, won (make367Seq drawn) bets i = 0 :=
      forall_congr' fun i => by omega
    have hremain := remainMoney_eq_self (limitedMoney s .select36)
      fun i => (won (make367Seq drawn) bets i : Int)
    rw [hnone] at hremain
    constructor
    · intro h
      exact hremain.mp h.pool.symm
    · intro h
      refine .intro (fun u => ?_) (hremain.mpr h).symm
      have hzero : prizeMoney (limitedMoney s .select36) (make367Seq drawn) bets u = 0 := by
        apply Finset.sum_eq_zero
        intro i _
        have hle := wonBy_le_won (make367Seq drawn) bets u i
        obtain hnone | hempty := h
        · have hi : wonBy (make367Seq drawn) bets u i = 0 := Nat.le_zero.mp (hnone i ▸ hle)
          rw [hi, Nat.cast_zero, Int.zero_mul]
        · rw [hempty, prizeFor, Int.mul_zero, Int.zero_ediv, Int.mul_zero]
      rw [decidingSeq, hzero, Int.add_zero]
  | soccer =>
    obtain ⟨s', hopen, hpool, hcash⟩ := doOpenLottery_soccer drawn entered hlt s
    refine ⟨s', hopen, ?_⟩
    constructor
    · intro h
      have hpaid (u : U) :
          toInt (s.cash u + sentMoney (totalMoney s .soccer) entered bets u) =
            s.cash u + prizeMoney (limitedMoney s .soccer) entered bets u :=
        (hcash u).symm.trans (h.paid u)
      refine ⟨fun i hpos => ?_, fun u => hpaid u ▸ toInt_range _⟩
      exact tdiv_eq_prizeFor (min_le_left _ _) (fun u => sentMoney_eq (hpaid u)) hpos
    · rintro ⟨hprize, hrange⟩
      refine .intro (fun u => ?_) hpool
      exact (hcash u).trans (prizeFor_of_won hprize u ▸ (hrange u).toInt)

/-- `user 01-02-03-04-05-06-07` -/
def jackpotBet : Bet Unit .select36 where
  user := ()
  text := make367Seq firstSeven
  valid := by decide

/-- `user 3-10` -/
def doubleBet : Bet Unit .soccer where
  user := ()
  text := [51, 45, 49, 48]
  valid := by decide

/-- Two pools of a million, and a user without cash. -/
def twoPools : Lotteries Unit where
  prize367 := 1000000
  prizeSoccer := 1000000
  treasury := 0
  cash _ := 0
  cash_range _ := by decide

theorem doOpenLottery_paidOut_double :
    ∃ s', doOpenLottery .soccer firstSeven [51, 49] (some [doubleBet]) twoPools = some (0, s') ∧
      (PaidOut [51, 49] [doubleBet] twoPools s' ↔ Payable [51, 49] [doubleBet] twoPools) :=
  doOpenLottery_paidOut firstSeven [51, 49] (by decide) twoPools

/-- A bet of 36-7 with all seven numbers is not paid. -/
theorem select36_not_paid :
    ∃ s', doOpenLottery .select36 firstSeven [] (some [jackpotBet]) twoPools = some (0, s') ∧
      prizeMoney (limitedMoney twoPools .select36) (make367Seq firstSeven) [jackpotBet] () =
        1200000 ∧
      s'.cash () = 0 ∧ ¬PaidOut (make367Seq firstSeven) [jackpotBet] twoPools s' := by
  refine ⟨_, rfl, by decide, rfl, fun h => ?_⟩
  have hpaid := h.paid ()
  revert hpaid
  decide

end Ytht
