import Ytht.Moneycenter.Bank

/-!
# Moneycenter.Casino

The casino: dice, the big players' room, and the 777.

What is lost goes to the prize pool, after tax.  With three equal dice the stake goes
there twice: once for the triple, and once because nobody has won.
-/

namespace Ytht

open Bytes

/-! ## Dice -/

/-- Three numbers of `getrandomint`. -/
structure Dice where
  t0 : Nat
  t1 : Nat
  t2 : Nat
  deriving DecidableEq

namespace Dice

/-- `t[i] % 6 + 1` -/
def die (r : Nat) : Nat := r % 6 + 1

/-- `(t[0] == t[1]) && (t[1] == t[2])` -/
def triple (d : Dice) : Bool := die d.t0 = die d.t1 && die d.t1 = die d.t2

def sum (d : Dice) : Nat := die d.t0 + die d.t1 + die d.t2

/-- `win` -/
def wins (d : Dice) (small : Bool) : Bool :=
  if d.triple then false else if d.sum ≤ 10 then small else !small

/-- `calc777` -/
def calc777 (t1 t2 t3 : Nat) : Int :=
  if t1 % 2 = 0 ∧ t2 % 2 = 0 ∧ t3 % 2 = 0 then 2
  else if t1 % 2 = 0 ∧ t2 % 2 = 0 ∧ t3 = 1 then 3
  else if t1 % 2 = 0 ∧ t2 = 1 ∧ t3 = 1 then 4
  else if t1 = 1 ∧ t2 = 1 ∧ t3 % 2 = 0 then 4
  else if t1 % 2 = 0 ∧ t2 = 3 ∧ t3 = 3 then 6
  else if t1 = 3 ∧ t2 = 3 ∧ t3 % 2 = 0 then 6
  else if t1 = 1 ∧ t2 = 1 ∧ t3 = 1 then 11
  else if t1 = 3 ∧ t2 = 3 ∧ t3 = 3 then 21
  else if t1 = 5 ∧ t2 = 5 ∧ t3 = 5 then 41
  else if t1 = 5 ∧ t2 = 7 ∧ t3 = 7 then 61
  else if t1 = 7 ∧ t2 = 7 ∧ t3 = 7 then 81
  else 0

theorem calc777_le (t1 t2 t3 : Nat) : calc777 t1 t2 t3 ≤ 81 := by
  have hite : ∀ {c : Prop} [Decidable c] {x y : Int}, x ≤ 81 → y ≤ 81 →
      (if c then x else y) ≤ 81 := by
    intro c _ x y hx hy
    split <;> assumption
  unfold calc777
  repeat refine hite (by decide) ?_
  decide

/-- `winrate` -/
def winrate (d : Dice) : Int := calc777 (d.t0 % 8) (d.t1 % 8) (d.t2 % 8)

end Dice

theorem afterTax_nonneg {income : Int} (h : 0 ≤ income) : 0 ≤ afterTax income := by
  unfold afterTax
  repeat' split
  all_goals first
    | exact h
    | exact Int.tdiv_nonneg (by omega) (by decide)

theorem afterTax_le (income : Int) : afterTax income ≤ income := by
  unfold afterTax
  repeat' split
  all_goals first
    | exact Int.le_refl _
    | rw [Int.tdiv_eq_ediv_of_nonneg (by omega)]
      omega

namespace Till

variable {t : Till} {now later input : Int} {small : Bool} {d : Dice}

/-! ## `money_dice` -/

/-- The tests before a stake is taken. -/
def mayStake (t : Till) (health num : Int) : Bool := health ≤ t.user.health && num ≤ t.user.cash

/-- The stake is paid. -/
def stake (t : Till) (num : Int) : Till :=
  { t with user := { t.user with cash := t.user.cash - num } }

/-- What a game brings from the prize pool and the treasury. -/
def win (t : Till) (cash prize treasury : Int) : Till :=
  { t with
    treasury := t.treasury + treasury
    prize777 := toInt (t.prize777 - prize)
    user := { t.user with cash := toInt (t.user.cash + cash) } }

/-- The end of a game of dice: who has not won pays, and with a triple he pays before
that. -/
def settleDice (t : Till) (d : Dice) (small : Bool) (num tripled : Int) (won : Till → Till) :
    Till :=
  let t := if d.triple then t.prizeTaxed tripled else t
  if d.wins small then won t else t.prizeTaxed num

/-- `money_dice '1'` -/
def dice (t : Till) (input now later : Int) (small : Bool) (d : Dice) : Till :=
  let num := userInputValue input 1000 200000
  let t := t.updateHealth now
  if t.mayStake 1 num then
    (((t.stake num).updateHealth later).tire 1).settleDice d small num num fun t =>
      t.win (2 * num) num 0
  else t

/-- No triple, and the prize pool stays in range. -/
def DiceFits (t : Till) (num : Int) (d : Dice) (small : Bool) : Prop :=
  d.triple = false ∧
    IntRange (if d.wins small then t.prize777 - num else t.prize777 + afterTax num)

instance (t : Till) (num : Int) (d : Dice) (small : Bool) : Decidable (t.DiceFits num d small) :=
  inferInstanceAs (Decidable (_ ∧ _))

theorem stake_ok {num : Int} (h : t.user.Ok) (hnum : 0 ≤ num) (hle : num ≤ t.user.cash) :
    (t.stake num).worth + num = t.worth ∧ (t.stake num).user.Ok := by
  have hlt := h.cash_lt
  refine ⟨?_, ⟨by dsimp only [stake]; omega, by dsimp only [stake]; omega, h.credit_nonneg,
    h.credit_lt, h.safemoney_nonneg, h.safemoney_lt⟩⟩
  rw [worth_eq, worth_eq t, stake]
  dsimp only
  omega

theorem prizeTaxed_ok {num : Int} (h : t.user.Ok) : (t.prizeTaxed num).user.Ok := h

theorem win_ok {cash prize : Int} (treasury : Int) (h : t.user.Ok) (hcash : 0 ≤ cash)
    (hlt : t.user.cash + cash < 2 ^ 31) (hprize : IntRange (t.prize777 - prize)) :
    (t.win cash prize treasury).worth = t.worth + cash - prize + treasury ∧
      (t.win cash prize treasury).user.Ok := by
  have hlo := h.cash_nonneg
  rw [win, hprize.toInt, toInt_of_range (by omega) hlt]
  refine ⟨?_, ⟨by dsimp only; omega, hlt, h.credit_nonneg, h.credit_lt, h.safemoney_nonneg,
    h.safemoney_lt⟩⟩
  rw [worth_eq, worth_eq t]
  dsimp only
  omega

/-- A game without a triple ends with what the stake has been worth. -/
theorem settleDice_ok {num cash prize treasury : Int} (tripled : Int) (h : t.user.Ok)
    (htriple : d.triple = false) (hcash : 0 ≤ cash) (hlt : t.user.cash + cash < 2 ^ 31)
    (hgain : cash - prize + treasury = num)
    (hrange : IntRange (if d.wins small then t.prize777 - prize else t.prize777 + afterTax num)) :
    (t.settleDice d small num tripled fun t => t.win cash prize treasury).worth = t.worth + num ∧
      (t.settleDice d small num tripled fun t => t.win cash prize treasury).user.Ok := by
  rw [settleDice, htriple, if_neg Bool.false_ne_true]
  split
  · next hwins =>
      rw [if_pos hwins] at hrange
      obtain ⟨hworth, hok⟩ := win_ok treasury h hcash hlt hrange
      exact ⟨by omega, hok⟩
  · next hwins =>
      rw [if_neg hwins] at hrange
      exact ⟨prizeTaxed_worth hrange, h⟩

theorem dice_keeps (h : t.user.Ok)
    (hfits : (t.updateHealth now).mayStake 1 (userInputValue input 1000 200000) →
      t.DiceFits (userInputValue input 1000 200000) d small) :
    Keeps t (t.dice input now later small d) := by
  rw [dice]
  have hlo : 1000 ≤ userInputValue input 1000 200000 := by
    rw [userInputValue]
    omega
  have hhi : userInputValue input 1000 200000 ≤ 200000 := by
    rw [userInputValue]
    omega
  generalize userInputValue input 1000 200000 = num at hfits hlo hhi ⊢
  have hkeeps := updateHealth_keeps h now
  refine hkeeps.trans ?_
  split
  · next hmay =>
      obtain ⟨htriple, hrange⟩ := hfits hmay
      rw [mayStake, Bool.and_eq_true, decide_eq_true_eq, decide_eq_true_eq] at hmay
      obtain ⟨hworth, hok⟩ := stake_ok hkeeps.ok (by omega) hmay.2
      have hlater := updateHealth_keeps hok later
      have htire := tire_keeps hlater.ok 1
      have hcash : ((((t.updateHealth now).stake num).updateHealth later).tire 1).user.cash ≤
          2000000000 := by
        change (((t.updateHealth now).stake num).updateHealth later).user.cash ≤ 2000000000
        rw [updateHealth_cash hok.cash_nonneg]
        omega
      obtain ⟨hend, hok'⟩ := settleDice_ok num htire.ok htriple
        (by omega : 0 ≤ 2 * num) (by omega) (by omega : 2 * num - num + 0 = num) hrange
      refine ⟨?_, hok'⟩
      rw [hend, htire.worth, hlater.worth, hworth]
  · exact .refl hkeeps.ok

/-! ## `money_big` -/

/-- The fee for the big players' room. -/
def enterBig (t : Till) : Till :=
  if t.user.cash < 200000 then t else (t.stake 100000).prizeTaxed 100000

/-- The prize pool stays in range. -/
def EnterBigFits (t : Till) : Prop :=
  200000 ≤ t.user.cash → IntRange (t.prize777 + afterTax 100000)

instance (t : Till) : Decidable (t.EnterBigFits) :=
  inferInstanceAs (Decidable (_ → _))

theorem enterBig_keeps (h : t.user.Ok) (hfits : t.EnterBigFits) : Keeps t t.enterBig := by
  rw [enterBig]
  split
  · exact .refl h
  · next hcash =>
      have hrange : IntRange ((t.stake 100000).prize777 + afterTax 100000) :=
        hfits (Int.not_lt.mp hcash)
      obtain ⟨hworth, hok⟩ := stake_ok h (by decide : (0 : Int) ≤ 100000) (by omega)
      refine ⟨?_, prizeTaxed_ok hok⟩
      rw [prizeTaxed_worth hrange, hworth]

/-- `money_big '1'`: stakes in units of ten thousand, and a tip for the house. -/
def big (t : Till) (input now : Int) (small : Bool) (d : Dice) : Till :=
  let num := userInputValue input 10 1000
  let t := t.updateHealth now
  if t.mayStake 3 (num * 10000) then
    ((t.stake (num * 10000)).tire 3).settleDice d small (10000 * num) (min (num * 10000) 10000000)
      fun t => t.win (19000 * num) (10000 * num) (1000 * num)
  else t

theorem big_keeps (h : t.user.Ok)
    (hfits : (t.updateHealth now).mayStake 3 (userInputValue input 10 1000 * 10000) →
      t.DiceFits (10000 * userInputValue input 10 1000) d small) :
    Keeps t (t.big input now small d) := by
  rw [big]
  have hlo : 10 ≤ userInputValue input 10 1000 := by
    rw [userInputValue]
    omega
  have hhi : userInputValue input 10 1000 ≤ 1000 := by
    rw [userInputValue]
    omega
  generalize userInputValue input 10 1000 = num at hfits hlo hhi ⊢
  have hkeeps := updateHealth_keeps h now
  refine hkeeps.trans ?_
  split
  · next hmay =>
      obtain ⟨htriple, hrange⟩ := hfits hmay
      rw [mayStake, Bool.and_eq_true, decide_eq_true_eq, decide_eq_true_eq] at hmay
      obtain ⟨hworth, hok⟩ := stake_ok hkeeps.ok (by omega) hmay.2
      have htire := tire_keeps hok 3
      have hcash : (t.updateHealth now).user.cash ≤ 2000000000 := by
        rw [updateHealth_cash h.cash_nonneg]
        omega
      have hlt : ((t.updateHealth now).stake (num * 10000)).user.cash + 19000 * num < 2 ^ 31 := by
        change (t.updateHealth now).user.cash - num * 10000 + 19000 * num < 2 ^ 31
        omega
      obtain ⟨hend, hok'⟩ := settleDice_ok (min (num * 10000) 10000000) htire.ok htriple
        (by omega : 0 ≤ 19000 * num) hlt
        (by omega : 19000 * num - 10000 * num + 1000 * num = 10000 * num) hrange
      refine ⟨?_, hok'⟩
      rw [hend, htire.worth]
      omega
  · exact .refl hkeeps.ok

/-! ## `money_777` -/

/-- `abs`, which leaves the least `int` as it is. -/
def cAbs (i : Int) : Int := if i < 0 then toInt (-i) else i

/-- The treasury and the prize pool, of which neither should be negative, help each
other. -/
def cover (t : Till) : Till :=
  let t := if t.prize777 < 0 then
    { t with treasury := t.treasury + t.prize777, prize777 := 0 } else t
  if 0 < t.prize777 ∧ t.treasury < 0 then
    let t := if cAbs (toInt t.treasury) ≤ t.prize777 then
      { t with prize777 := toInt (t.prize777 + t.treasury), treasury := 0 } else t
    if t.prize777 < cAbs (toInt t.treasury) then
      { t with treasury := t.treasury + t.prize777, prize777 := 0 }
    else t
  else t

/-- What the treasury lacks is taken from the prize pool as an `int`. -/
def CoverFits (t : Till) : Prop :=
  0 < t.prize777 ∧ t.treasury < 0 ∧ cAbs (toInt t.treasury) ≤ t.prize777 →
    IntRange (t.prize777 + t.treasury)

instance (t : Till) : Decidable (t.CoverFits) :=
  inferInstanceAs (Decidable (_ ∧ _ ∧ _ → _))

theorem cover_keeps (h : t.user.Ok) (hfits : t.CoverFits) : Keeps t t.cover := by
  suffices hsum : t.cover.treasury + t.cover.prize777 = t.treasury + t.prize777 ∧
      t.cover.user = t.user by
    refine ⟨?_, hsum.2 ▸ h⟩
    rw [worth, worth, hsum.1, hsum.2]
  rw [cover]
  by_cases hneg : t.prize777 < 0
  · rw [if_pos hneg, if_neg (by dsimp only; omega)]
    exact ⟨Int.add_zero _, rfl⟩
  · rw [if_neg hneg]
    split
    · next hboth =>
        dsimp only
        by_cases hlarge : cAbs (toInt t.treasury) ≤ t.prize777
        · have hrange := hfits ⟨hboth.1, hboth.2, hlarge⟩
          rw [if_pos hlarge, hrange.toInt]
          split
          · exact ⟨by dsimp only; omega, rfl⟩
          · exact ⟨by dsimp only; omega, rfl⟩
        · rw [if_neg hlarge, if_pos (Int.not_le.mp hlarge)]
          exact ⟨Int.add_zero _, rfl⟩
    · exact ⟨rfl, rfl⟩

/-- What happens each time before a game: a user who cannot prove who he is loses his
cash to the treasury. -/
def visit777 (t : Till) (arrested : Bool) : Till :=
  let t := t.cover
  if arrested then
    { t with treasury := t.treasury + t.user.cash, user := { t.user with cash := 0 } }
  else t

theorem visit777_keeps (h : t.user.Ok) (hfits : t.CoverFits) (arrested : Bool) :
    Keeps t (t.visit777 arrested) := by
  have hcover := cover_keeps h hfits
  refine hcover.trans ?_
  rw [visit777]
  split
  · have hok := hcover.ok
    refine ⟨?_, ⟨Int.le_refl 0, (by decide : (0 : Int) < 2 ^ 31), hok.credit_nonneg,
      hok.credit_lt, hok.safemoney_nonneg, hok.safemoney_lt⟩⟩
    rw [worth_eq, worth_eq t.cover]
    dsimp only
    omega
  · exact .refl hcover.ok

/-- `money_777 '3'`: cash for the prize pool. -/
def donate777 (t : Till) (input : Int) : Till :=
  if t.user.cash < 10000 then t
  else
    let num := userInputValue input 10000 t.user.cash
    (t.stake num).prizeTaxed num

/-- The prize pool stays in range. -/
def DonateFits (t : Till) (input : Int) : Prop :=
  10000 ≤ t.user.cash →
    IntRange (t.prize777 + afterTax (userInputValue input 10000 t.user.cash))

instance (t : Till) (input : Int) : Decidable (t.DonateFits input) :=
  inferInstanceAs (Decidable (_ → _))

theorem donate777_keeps (h : t.user.Ok) (hfits : t.DonateFits input) :
    Keeps t (t.donate777 input) := by
  rw [donate777]
  split
  · exact .refl h
  · next hcash =>
      have hrange := hfits (Int.not_lt.mp hcash)
      have hlo : 0 ≤ userInputValue input 10000 t.user.cash := by
        rw [userInputValue]
        omega
      have hhi : userInputValue input 10000 t.user.cash ≤ t.user.cash := by
        rw [userInputValue]
        omega
      dsimp only
      generalize userInputValue input 10000 t.user.cash = num at hrange hlo hhi ⊢
      have hrange : IntRange ((t.stake num).prize777 + afterTax num) := hrange
      obtain ⟨hworth, hok⟩ := stake_ok h hlo hhi
      refine ⟨?_, prizeTaxed_ok hok⟩
      rw [prizeTaxed_worth hrange, hworth]

/-- The great prize: half of the pool, after tax. -/
def jackpot (t : Till) : Till :=
  let num := min (t.prize777.tdiv 2) 1000000
  t.win (afterTax num) num (num - afterTax num)

/-- `bid` -/
def bidOf (high : Bool) : Int := if high then 200 else 50

/-- `money_777 '1'` and `'2'` -/
def play777 (t : Till) (high : Bool) (d : Dice) (now : Int) : Till :=
  if t.prize777 < 10000 ∨ t.user.cash < bidOf high then t
  else
    let t := ((t.stake (bidOf high)).updateHealth now).tire 1
    if d.winrate ≤ 0 then t.prizeTaxed (bidOf high)
    else
      let t := t.win (bidOf high * d.winrate) (bidOf high * (d.winrate - 1)) 0
      if d.winrate = 81 ∧ high then t.jackpot else t

/-- The prize pool stays in range. -/
def PlayFits (t : Till) (high : Bool) (d : Dice) : Prop :=
  IntRange t.prize777 ∧
    (10000 ≤ t.prize777 ∧ bidOf high ≤ t.user.cash ∧ d.winrate ≤ 0 →
      IntRange (t.prize777 + afterTax (bidOf high)))

instance (t : Till) (high : Bool) (d : Dice) : Decidable (t.PlayFits high d) :=
  inferInstanceAs (Decidable (_ ∧ (_ → _)))

theorem jackpot_ok (h : t.user.Ok) (hcash : 3000 ≤ t.user.cash) (hlt : t.user.cash ≤ 2001000000)
    (hprize : -6000 ≤ t.prize777) (hrange : IntRange t.prize777) :
    t.jackpot.worth = t.worth ∧ t.jackpot.user.Ok := by
  have hprizeLt := hrange.2
  have hhalf : -3000 ≤ t.prize777.tdiv 2 ∧ min t.prize777 0 ≤ t.prize777.tdiv 2 ∧
      t.prize777.tdiv 2 ≤ max t.prize777 0 := by
    have hsign : Int.sign 2 = 1 := rfl
    rw [Int.tdiv_eq_ediv, hsign]
    split <;> omega
  rw [jackpot]
  generalize hnum : min (t.prize777.tdiv 2) 1000000 = num
  have hle := afterTax_le num
  have hlo : -3000 ≤ afterTax num := by
    rcases Int.lt_or_le num 0 with hneg | hpos
    · have hsame : afterTax num = num := by
        unfold afterTax
        repeat rw [if_neg (by omega)]
      omega
    · have := afterTax_nonneg hpos
      omega
  have hcashRange : 0 ≤ t.user.cash + afterTax num ∧ t.user.cash + afterTax num < 2 ^ 31 := by
    omega
  have hprizeRange : IntRange (t.prize777 - num) := ⟨by omega, by omega⟩
  rw [win, hprizeRange.toInt, toInt_of_range hcashRange.1 hcashRange.2]
  refine ⟨?_, ⟨hcashRange.1, hcashRange.2, h.credit_nonneg, h.credit_lt, h.safemoney_nonneg,
    h.safemoney_lt⟩⟩
  rw [worth_eq, worth_eq t]
  dsimp only
  omega

theorem bidOf_cases (high : Bool) : bidOf high = 200 ∨ bidOf high = 50 := by
  cases high with
  | true => exact Or.inl rfl
  | false => exact Or.inr rfl

theorem play777_keeps {high : Bool} (h : t.user.Ok) (hfits : t.PlayFits high d) :
    Keeps t (t.play777 high d now) := by
  obtain ⟨hrange, hlose⟩ := hfits
  have hprizeLt := hrange.2
  rw [play777]
  split
  · exact .refl h
  · next hmay =>
      rw [not_or, Int.not_lt, Int.not_lt] at hmay
      have hbid := bidOf_cases high
      obtain ⟨hworth, hok⟩ := stake_ok h (by omega) hmay.2
      have hlater := updateHealth_keeps hok now
      have htire := tire_keeps hlater.ok 1
      have hcash : (((t.stake (bidOf high)).updateHealth now).tire 1).user.cash ≤ 2000000000 := by
        change ((t.stake (bidOf high)).updateHealth now).user.cash ≤ 2000000000
        rw [updateHealth_cash hok.cash_nonneg]
        omega
      have hprize : (((t.stake (bidOf high)).updateHealth now).tire 1).prize777 = t.prize777 := rfl
      have hsum : (((t.stake (bidOf high)).updateHealth now).tire 1).worth + bidOf high =
          t.worth := by
        rw [htire.worth, hlater.worth, hworth]
      have hokay := htire.ok
      dsimp only
      generalize ((t.stake (bidOf high)).updateHealth now).tire 1 = s at hcash hprize hsum hokay ⊢
      split
      · next hzero =>
          have hrange' := hlose ⟨hmay.1, hmay.2, hzero⟩
          rw [← hprize] at hrange'
          exact ⟨(prizeTaxed_worth hrange').trans hsum, hokay⟩
      · next hpos =>
          have hle : d.winrate ≤ 81 := Dice.calc777_le ..
          generalize d.winrate = winrate at hpos hle ⊢
          have hstakes : 0 ≤ bidOf high * winrate ∧ bidOf high * winrate ≤ 16200 ∧
              0 ≤ bidOf high * (winrate - 1) ∧ bidOf high * (winrate - 1) ≤ 16000 ∧
              bidOf high * winrate = bidOf high * (winrate - 1) + bidOf high := by
            rcases hbid with hbid | hbid <;> (rw [hbid]; omega)
          obtain ⟨hlo, hhi, hlo', hhi', hgain⟩ := hstakes
          have hcashLo := hokay.cash_nonneg
          have hwinRange : IntRange (s.prize777 - bidOf high * (winrate - 1)) :=
            ⟨by omega, by omega⟩
          obtain ⟨hwin, hokWin⟩ := win_ok 0 hokay hlo (by omega) hwinRange
          split
          · next hjackpot =>
              have hcashWin : (s.win (bidOf high * winrate) (bidOf high * (winrate - 1)) 0).user.cash =
                  s.user.cash + bidOf high * winrate := toInt_of_range (by omega) (by omega)
              have hprizeWin : (s.win (bidOf high * winrate) (bidOf high * (winrate - 1)) 0).prize777 =
                  s.prize777 - bidOf high * (winrate - 1) := hwinRange.toInt
              have hlarge : 3000 ≤ bidOf high * winrate := by
                rcases hbid with hbid | hbid <;> (rw [hbid]; omega)
              obtain ⟨hend, hokEnd⟩ := jackpot_ok hokWin (by omega) (by omega) (by omega)
                (hprizeWin ▸ hwinRange)
              exact ⟨by omega, hokEnd⟩
          · exact ⟨by omega, hokWin⟩

end Till

end Ytht
