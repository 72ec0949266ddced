import Ytht.Moneycenter.Till

/-!
# Moneycenter.Bank

The bank: saving, loans, transfers, and the safe.

Interest is booked without a look at the range of an `int`, and so is what a transfer
brings to the other account, since `update_health` only looks at the user who pays.  The
fee of a transfer is a fraction, which is cut off on both sides in the same direction
only while the treasury is not negative.
-/

namespace Ytht

open Bytes

/-- `userInputValue`: what is entered, in nine characters, not below `inf`, and not above
`sup`. -/
def userInputValue (input inf sup : Int) : Int := min (max (min input 999999999) inf) sup

def MAX_MONEY_NUM : Int := 300000000

namespace Till

variable {t : Till}

/-! ## Interest -/

/-- Interest is paid out of the treasury. -/
def addInterest (t : Till) (cal : Int) : Till :=
  { t with
    treasury := t.treasury - cal
    user := { t.user with interest := toInt (t.user.interest + cal) } }

/-! ## Saving -/

/-- `bank_saving '1'` -/
def deposit (t : Till) (rate num now : Int) : Till :=
  if 1 ≤ t.user.health ∧ num ≤ t.user.cash then
    let paid := { t with user := { t.user with cash := t.user.cash - num } }
    let paid := paid.addInterest (makeInterest t.user.credit t.user.depositTime rate now)
    let paid := { paid with
      user := { paid.user with depositTime := now, credit := toInt (paid.user.credit + num) } }
    (paid.updateHealth now).tire 1
  else t

/-- The interest fits. -/
def DepositFits (t : Till) (rate num now : Int) : Prop :=
  1 ≤ t.user.health ∧ num ≤ t.user.cash →
    IntRange (t.user.interest + makeInterest t.user.credit t.user.depositTime rate now)

instance (t : Till) (rate num now : Int) : Decidable (t.DepositFits rate num now) :=
  inferInstanceAs (Decidable (_ ∧ _ → _))

theorem deposit_keeps {rate num now : Int} (h : t.user.Ok) (hnum : 0 ≤ num)
    (hmax : num ≤ MAX_MONEY_NUM) (hfits : t.DepositFits rate num now) :
    Keeps t (t.deposit rate num now) := by
  rw [deposit]
  split
  · next hmay =>
      have hinterest := hfits hmay
      have hcashLt := h.cash_lt
      have hcreditLo := h.credit_nonneg
      have hcreditLt := h.credit_lt
      rw [MAX_MONEY_NUM] at hmax
      have hcash : Stored (t.user.cash - num) (t.user.cash - num) := .self (by omega) (by omega)
      dsimp only [addInterest]
      rw [hinterest.toInt]
      refine finish_keeps (t.user.cash - num) (t.user.credit + num) h ?_ ?_ ?_ ?_ now
      · exact hcash
      · exact ⟨rfl, by omega, by rw [maxSettled]; omega⟩
      · rfl
      · rw [worth, BankUser.worth]
        dsimp only
        omega
  · exact .refl h

/-- `bank_saving '2'`; with `take`, all interest is paid out. -/
def withdraw (t : Till) (rate num now : Int) (take : Bool) : Till :=
  if 1 ≤ t.user.health ∧ num ≤ t.user.credit then
    let paid := t.addInterest (makeInterest num t.user.depositTime rate now)
    let totalNum := if take then toInt (num + paid.user.interest) else num
    let paid := { paid with
      user := { paid.user with
        interest := if take then 0 else paid.user.interest
        credit := paid.user.credit - num
        cash := toInt (paid.user.cash + totalNum) } }
    (paid.updateHealth now).tire 1
  else t

/-- The interest fits, and what is paid out can be put right. -/
def WithdrawFits (t : Till) (rate num now : Int) (take : Bool) : Prop :=
  1 ≤ t.user.health ∧ num ≤ t.user.credit →
    let interest := t.user.interest + makeInterest num t.user.depositTime rate now
    IntRange interest ∧
      (take → 0 ≤ t.user.cash + num + interest ∧ t.user.cash + num + interest < maxSettled)

instance (t : Till) (rate num now : Int) (take : Bool) : Decidable (t.WithdrawFits rate num now take) :=
  inferInstanceAs (Decidable (_ ∧ _ → _ ∧ _))

theorem withdraw_keeps {rate num now : Int} {take : Bool} (h : t.user.Ok) (hnum : 0 ≤ num)
    (hmax : num ≤ MAX_MONEY_NUM) (hfits : t.WithdrawFits rate num now take) :
    Keeps t (t.withdraw rate num now take) := by
  rw [withdraw]
  split
  · next hmay =>
      obtain ⟨hinterest, htake⟩ := hfits hmay
      have hcashLo := h.cash_nonneg
      have hcashLt := h.cash_lt
      have hcreditLt := h.credit_lt
      rw [MAX_MONEY_NUM] at hmax
      have hcredit : Stored (t.user.credit - num) (t.user.credit - num) :=
        .self (by omega) (by omega)
      dsimp only [addInterest]
      rw [hinterest.toInt]
      generalize makeInterest num t.user.depositTime rate now = cal at htake ⊢
      cases take with
      | true =>
          obtain ⟨hlo, hhi⟩ := htake rfl
          rw [if_pos rfl, if_pos rfl, toInt_add_toInt, ← Int.add_assoc]
          refine finish_keeps (t.user.cash + num + (t.user.interest + cal))
            (t.user.credit - num) h ?_ ?_ ?_ ?_ now
          · exact ⟨rfl, hlo, hhi⟩
          · exact hcredit
          · rfl
          · rw [worth, BankUser.worth]
            dsimp only
            omega
      | false =>
          rw [if_neg Bool.false_ne_true, if_neg Bool.false_ne_true]
          refine finish_keeps (t.user.cash + num) (t.user.credit - num) h ?_ ?_ ?_ ?_ now
          · exact ⟨rfl, by omega, by rw [maxSettled]; omega⟩
          · exact hcredit
          · rfl
          · rw [worth, BankUser.worth]
            dsimp only
            omega
  · exact .refl h

/-! ## Loans -/

/-- What the bank lends to a user with this experience. -/
def maxLoanMoney (t : Till) (exp : Int) : Int := toInt (min (toInt (exp * 500)) t.treasury)

/-- `bank_loan '1'` -/
def borrow (t : Till) (exp input now : Int) : Till :=
  let num := userInputValue input 1000 (t.maxLoanMoney exp)
  if 1 ≤ t.user.health ∧ 1000 ≤ t.maxLoanMoney exp ∧ t.user.loan ≤ 0 then
    let lent := { t with
      treasury := t.treasury - num
      user := { t.user with
        loanTime := now
        loan := toInt (t.user.loan + num)
        cash := toInt (t.user.cash + num) } }
    (lent.updateHealth now).tire 1
  else t

theorem borrow_keeps {exp input now : Int} (h : t.user.Ok) :
    Keeps t (t.borrow exp input now) := by
  rw [borrow]
  split
  · next hmay =>
      have hcashLo := h.cash_nonneg
      have hcashLt := h.cash_lt
      have hlo : 1000 ≤ userInputValue input 1000 (t.maxLoanMoney exp) := by
        rw [userInputValue]
        omega
      have hhi : userInputValue input 1000 (t.maxLoanMoney exp) < 1000000000 := by
        rw [userInputValue]
        omega
      refine finish_keeps (t.user.cash + userInputValue input 1000 (t.maxLoanMoney exp))
        t.user.credit h ?_ ?_ ?_ ?_ now
      · exact ⟨rfl, by omega, by rw [maxSettled]; omega⟩
      · exact h.storedCredit
      · rfl
      · rw [worth, BankUser.worth]
        dsimp only
        omega
  · exact .refl h

/-- What a user owes, with one in a hundred on top when he pays early. -/
def debt (t : Till) (rate entered now : Int) : Int :=
  let totalNum := toInt (t.user.loan + makeInterest t.user.loan t.user.loanTime rate entered)
  if now < t.user.loanTime + 86400 * 3 then truncInt ((totalNum * 101).tdiv 100) else totalNum

/-- `bank_loan '2'`; the interest is computed when the user enters. -/
def repay (t : Till) (rate entered now : Int) : Till :=
  if 1 ≤ t.user.health ∧ t.user.loan ≠ 0 ∧ t.debt rate entered now ≤ t.user.cash then
    let paid := { t with
      treasury := t.treasury + t.debt rate entered now
      user := { t.user with
        cash := toInt (t.user.cash - t.debt rate entered now)
        loan := 0
        loanTime := 0 } }
    (paid.updateHealth now).tire 1
  else t

/-- A debt that has wrapped is not too far below zero. -/
def RepayFits (t : Till) (rate entered now : Int) : Prop :=
  1 ≤ t.user.health ∧ t.user.loan ≠ 0 ∧ t.debt rate entered now ≤ t.user.cash →
    t.user.cash - t.debt rate entered now < maxSettled

instance (t : Till) (rate entered now : Int) : Decidable (t.RepayFits rate entered now) :=
  inferInstanceAs (Decidable (_ ∧ _ ∧ _ → _))

theorem repay_keeps {rate entered now : Int} (h : t.user.Ok) (hfits : t.RepayFits rate entered now) :
    Keeps t (t.repay rate entered now) := by
  rw [repay]
  split
  · next hmay =>
      refine finish_keeps (t.user.cash - t.debt rate entered now) t.user.credit h ?_ ?_ ?_ ?_
        now
      · exact ⟨rfl, by omega, hfits hmay⟩
      · exact h.storedCredit
      · rfl
      · rw [worth, BankUser.worth]
        dsimp only
        omega
  · exact .refl h

/-! ## The safe -/

/-- What `secureMoney` does first. -/
def openSafe (t : Till) : Till :=
  if t.user.safemoney.tmod 500000 ≠ 0 then { t with user := { t.user with safemoney := 0 } } else t

theorem openSafe_eq (h : t.user.safemoney.tmod 500000 = 0) : t.openSafe = t := by
  rw [openSafe, if_neg (not_not.mpr h)]

/-- What a user with this experience may keep in the safe. -/
def maxSafe (exp : Int) : Int := toInt (exp.tdiv 50 * 500000)

/-- The tests of `secureMoney '1'`; `again` says that the user has hidden money today. -/
def mayHide (t : Till) (exp : Int) (again : Bool) : Bool :=
  1 ≤ t.user.health && !again && toInt (t.user.safemoney + 500000) ≤ maxSafe exp &&
    550000 ≤ t.user.cash

/-- `secureMoney '1'` -/
def hide (t : Till) (exp now : Int) (again : Bool) : Till :=
  let t := t.openSafe.updateHealth now
  if t.mayHide exp again then
    { t with
      treasury := t.treasury + 50000
      user := { t.user with
        cash := t.user.cash - 550000
        safemoney := toInt (t.user.safemoney + 500000)
        health := t.user.health - 1 } }
  else t

/-- The safe holds whole amounts, and has room for one more. -/
def HideFits (t : Till) (exp now : Int) (again : Bool) : Prop :=
  t.user.safemoney.tmod 500000 = 0 ∧
    ((t.openSafe.updateHealth now).mayHide exp again → t.user.safemoney + 500000 < 2 ^ 31)

instance (t : Till) (exp now : Int) (again : Bool) : Decidable (t.HideFits exp now again) :=
  inferInstanceAs (Decidable (_ ∧ (_ → _)))

@[simp] theorem updateHealth_safemoney (t : Till) (now : Int) :
    (t.updateHealth now).user.safemoney = t.user.safemoney := rfl

theorem hide_keeps {exp now : Int} {again : Bool} (h : t.user.Ok)
    (hfits : t.HideFits exp now again) : Keeps t (t.hide exp now again) := by
  obtain ⟨hwhole, hroom⟩ := hfits
  rw [openSafe_eq hwhole] at hroom
  rw [hide, openSafe_eq hwhole]
  have hkeeps := updateHealth_keeps h now
  refine hkeeps.trans ?_
  dsimp only
  split
  · next hmay =>
      have hlt := hroom hmay
      have hok := hkeeps.ok
      have hcashLt := hok.cash_lt
      have hsafe := hok.safemoney_nonneg
      rw [mayHide, Bool.and_eq_true, decide_eq_true_eq] at hmay
      rw [← updateHealth_safemoney t now] at hlt
      rw [toInt_of_range (by omega) hlt]
      constructor
      · rw [worth, worth, BankUser.worth, BankUser.worth]
        dsimp only
        omega
      · exact ⟨by dsimp only; omega, by dsimp only; omega, hok.credit_nonneg, hok.credit_lt,
          by dsimp only; omega, hlt⟩
  · exact .refl hkeeps.ok

/-- What can be taken out of the safe, in units of ten thousand. -/
def safeInput (t : Till) (input : Int) : Int :=
  userInputValue input 50 (t.user.safemoney.tdiv 500000 * 50)

/-- The tests of `secureMoney '2'`. -/
def mayTakeOut (t : Till) (input : Int) : Bool :=
  1 ≤ t.user.health && 0 ≤ t.safeInput input &&
    t.safeInput input * 10000 ≤ t.user.safemoney && (t.safeInput input).tmod 50 = 0

/-- `secureMoney '2'` -/
def takeOut (t : Till) (input now : Int) : Till :=
  let t := t.openSafe.updateHealth now
  if t.mayTakeOut input then
    { t with
      user := { t.user with
        cash := toInt (t.user.cash + t.safeInput input * 10000)
        safemoney := t.user.safemoney - t.safeInput input * 10000
        health := t.user.health - 1 } }
  else t

/-- The safe holds whole amounts, and the cash does not wrap: nothing puts it right. -/
def TakeOutFits (t : Till) (input now : Int) : Prop :=
  t.user.safemoney.tmod 500000 = 0 ∧
    ((t.openSafe.updateHealth now).mayTakeOut input →
      min t.user.cash 2000000000 + t.safeInput input * 10000 < 2 ^ 31)

instance (t : Till) (input now : Int) : Decidable (t.TakeOutFits input now) :=
  inferInstanceAs (Decidable (_ ∧ (_ → _)))

theorem takeOut_keeps {input now : Int} (h : t.user.Ok) (hfits : t.TakeOutFits input now) :
    Keeps t (t.takeOut input now) := by
  obtain ⟨hwhole, hroom⟩ := hfits
  rw [openSafe_eq hwhole] at hroom
  rw [takeOut, openSafe_eq hwhole]
  have hkeeps := updateHealth_keeps h now
  refine hkeeps.trans ?_
  dsimp only
  split
  · next hmay =>
      have hlt := hroom hmay
      have hok := hkeeps.ok
      have hsafeLt := hok.safemoney_lt
      simp only [mayTakeOut, Bool.and_eq_true, decide_eq_true_eq] at hmay
      rw [← updateHealth_cash h.cash_nonneg now] at hlt
      change (t.updateHealth now).user.cash + (t.updateHealth now).safeInput input * 10000 < _ at hlt
      have hcash := hok.cash_nonneg
      rw [toInt_of_range (by omega) hlt]
      constructor
      · rw [worth, worth, BankUser.worth, BankUser.worth]
        dsimp only
        omega
      · exact ⟨by dsimp only; omega, hlt, hok.credit_nonneg, hok.credit_lt, by dsimp only; omega,
          by dsimp only; omega⟩
  · exact .refl hkeeps.ok

/-- `secureMoney` with any other key. -/
theorem openSafe_keeps (h : t.user.Ok) (hwhole : t.user.safemoney.tmod 500000 = 0) :
    Keeps t t.openSafe := by
  rw [openSafe_eq hwhole]
  exact .refl h

/-! ## Transfers -/

/-- What a transfer costs: the amount and the fee, in ten thousandths of it. -/
def transferCost (num rate : Int) : Int := truncInt ((num * (10000 + rate)).tdiv 10000)

/-- The other account gets its interest and the amount; what is left of the treasury,
which gets the fee. -/
def receive (treasury : Int) (u : BankUser) (num transferRate rate now : Int) : Int × BankUser :=
  let cal := makeInterest u.credit u.depositTime rate now
  (((treasury - cal) * 10000 + num * transferRate).tdiv 10000,
    { u with
      interest := toInt (u.interest + cal)
      depositTime := now
      credit := toInt (u.credit + num) })

/-- `moneytransfer`, from cash or from the savings. -/
def transfer (t : Till) (u : BankUser) (transferRate rate num now : Int) (fromCash : Bool) :
    Till × BankUser :=
  let totalNum := transferCost num transferRate
  if fromCash then
    if t.user.cash < totalNum then (t, u)
    else
      let r := receive t.treasury u num transferRate rate now
      let paid := { t with
        treasury := r.1
        user := { t.user with cash := t.user.cash - totalNum } }
      ((paid.updateHealth now).tire 1, r.2)
  else
    if t.user.credit < totalNum then (t, u)
    else
      let paid := t.addInterest (makeInterest totalNum t.user.depositTime rate now)
      let r := receive paid.treasury u num transferRate rate now
      let paid := { paid with
        treasury := r.1
        user := { paid.user with credit := paid.user.credit - totalNum } }
      ((paid.updateHealth now).tire 1, r.2)

/-- What the other account gets fits, and the fee is cut off downwards. -/
def ReceiveFits (treasury : Int) (u : BankUser) (num transferRate rate now : Int) : Prop :=
  let cal := makeInterest u.credit u.depositTime rate now
  IntRange (u.interest + cal) ∧ u.credit + num < 2 ^ 31 ∧
    (num * transferRate % 10000 = 0 ∨ 0 ≤ (treasury - cal) * 10000 + num * transferRate)

instance (treasury : Int) (u : BankUser) (num transferRate rate now : Int) :
    Decidable (ReceiveFits treasury u num transferRate rate now) :=
  inferInstanceAs (Decidable (_ ∧ _ ∧ _))

/-- A transfer that goes through fits on both sides. -/
def TransferFits (t : Till) (u : BankUser) (transferRate rate num now : Int) (fromCash : Bool) :
    Prop :=
  let totalNum := transferCost num transferRate
  if fromCash then
    totalNum ≤ t.user.cash → ReceiveFits t.treasury u num transferRate rate now
  else
    totalNum ≤ t.user.credit →
      let cal := makeInterest totalNum t.user.depositTime rate now
      IntRange (t.user.interest + cal) ∧
        ReceiveFits (t.treasury - cal) u num transferRate rate now

instance (t : Till) (u : BankUser) (transferRate rate num now : Int) (fromCash : Bool) :
    Decidable (t.TransferFits u transferRate rate num now fromCash) :=
  inferInstanceAs (Decidable (if fromCash = true then _ → _ else _ → _ ∧ _))

theorem transferCost_eq {num rate : Int} (hnum : 0 ≤ num) (hmax : num ≤ MAX_MONEY_NUM)
    (hrate : 0 ≤ rate) (hrateLt : rate < 256) :
    transferCost num rate = num + num * rate / 10000 := by
  have hprod : 0 ≤ num * rate := Int.mul_nonneg hnum hrate
  have hle : num * rate ≤ 300000000 * 255 := Int.mul_le_mul hmax (by omega) hrate (by decide)
  have hsum : num * (10000 + rate) = num * 10000 + num * rate := Int.mul_add ..
  rw [MAX_MONEY_NUM] at hmax
  rw [transferCost, hsum, Int.tdiv_eq_ediv_of_nonneg (by omega), truncInt, if_pos]
  · omega
  · exact ⟨by omega, by omega⟩

/-- What the other account and the treasury get is the amount and the whole part of the
fee. -/
theorem receive_spec {treasury num transferRate rate now : Int} {u : BankUser} (h : u.Ok)
    (hnum : 0 ≤ num) (hfits : ReceiveFits treasury u num transferRate rate now) :
    (receive treasury u num transferRate rate now).1 +
        (receive treasury u num transferRate rate now).2.worth =
        treasury + u.worth + num + num * transferRate / 10000 ∧
      (receive treasury u num transferRate rate now).2.Ok := by
  obtain ⟨hinterest, hcredit, hfee⟩ := hfits
  have hcreditLo := h.credit_nonneg
  have htreasury : ((treasury - makeInterest u.credit u.depositTime rate now) * 10000 +
      num * transferRate).tdiv 10000 =
        treasury - makeInterest u.credit u.depositTime rate now + num * transferRate / 10000 := by
    generalize makeInterest u.credit u.depositTime rate now = cal at hfee ⊢
    rcases hfee with hwhole | hnonneg
    · have hexact : (treasury - cal) * 10000 + num * transferRate =
          (treasury - cal + num * transferRate / 10000) * 10000 := by omega
      rw [hexact, Int.mul_tdiv_cancel _ (by decide)]
    · rw [Int.tdiv_eq_ediv_of_nonneg hnonneg]
      omega
  rw [receive]
  dsimp only
  rw [htreasury, hinterest.toInt, toInt_of_range (by omega) hcredit]
  refine ⟨?_, ⟨h.cash_nonneg, h.cash_lt, by dsimp only; omega, hcredit, h.safemoney_nonneg,
    h.safemoney_lt⟩⟩
  rw [BankUser.worth, BankUser.worth]
  dsimp only
  omega

/-- **A transfer** loses no money. -/
theorem transfer_keeps {u : BankUser} {transferRate rate num now : Int} {fromCash : Bool}
    (h : t.user.Ok) (hu : u.Ok) (hnum : 0 ≤ num) (hmax : num ≤ MAX_MONEY_NUM)
    (hrate : 0 ≤ transferRate) (hrateLt : transferRate < 256)
    (hfits : t.TransferFits u transferRate rate num now fromCash) :
    (t.transfer u transferRate rate num now fromCash).1.worth +
        (t.transfer u transferRate rate num now fromCash).2.worth = t.worth + u.worth ∧
      (t.transfer u transferRate rate num now fromCash).1.user.Ok ∧
      (t.transfer u transferRate rate num now fromCash).2.Ok := by
  have hcost := transferCost_eq hnum hmax hrate hrateLt
  have hfee : 0 ≤ num * transferRate / 10000 :=
    Int.ediv_nonneg (Int.mul_nonneg hnum hrate) (by decide)
  have hcashLt := h.cash_lt
  have hcreditLt := h.credit_lt
  rw [TransferFits] at hfits
  rw [transfer]
  cases fromCash with
  | true =>
      rw [if_pos rfl] at hfits
      rw [if_pos rfl]
      split
      · exact ⟨rfl, h, hu⟩
      · next hmay =>
          obtain ⟨hsum, hok⟩ := receive_spec hu hnum (hfits (Int.not_lt.mp hmay))
          generalize receive t.treasury u num transferRate rate now = r at hsum hok ⊢
          have hcash : Stored (t.user.cash - transferCost num transferRate)
              (t.user.cash - transferCost num transferRate) := .self (by omega) (by omega)
          obtain ⟨hworth, huser⟩ := finish_stored (t := { t with
            treasury := r.1
            user := { t.user with cash := t.user.cash - transferCost num transferRate } })
            hcash h.storedCredit h.safemoney_nonneg h.safemoney_lt now
          refine ⟨?_, huser, hok⟩
          rw [hworth, worth_eq t]
          dsimp only
          omega
  | false =>
      rw [if_neg Bool.false_ne_true] at hfits
      rw [if_neg Bool.false_ne_true]
      split
      · exact ⟨rfl, h, hu⟩
      · next hmay =>
          obtain ⟨hinterest, hreceive⟩ := hfits (Int.not_lt.mp hmay)
          obtain ⟨hsum, hok⟩ := receive_spec hu hnum hreceive
          dsimp only [addInterest]
          rw [hinterest.toInt]
          generalize makeInterest (transferCost num transferRate) t.user.depositTime rate now = cal
            at hsum hok ⊢
          generalize receive (t.treasury - cal) u num transferRate rate now = r at hsum hok ⊢
          have hcredit : Stored (t.user.credit - transferCost num transferRate)
              (t.user.credit - transferCost num transferRate) := .self (by omega) (by omega)
          obtain ⟨hworth, huser⟩ := finish_stored (t := { t with
            treasury := r.1
            user := { t.user with
              interest := t.user.interest + cal
              credit := t.user.credit - transferCost num transferRate } })
            h.storedCash hcredit h.safemoney_nonneg h.safemoney_lt now
          refine ⟨?_, huser, hok⟩
          rw [hworth, worth_eq t]
          dsimp only
          omega

end Till

end Ytht
