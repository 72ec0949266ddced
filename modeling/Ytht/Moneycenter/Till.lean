import Ytht.Lib.Bytes

/-!
# Moneycenter.Till

The money that an operation of the money center moves: the treasury, the prize pool and
the fields of the user.  `update_health` puts what a user has above two thousand millions
into the treasury, and takes a wrapped `int` back to what it should have been, up to
`maxSettled`.
-/

namespace Ytht

open Bytes

/-! ## The user -/

/-- What the bank and the casino use of `struct mcUserInfo`. -/
structure BankUser where
  cash : Int
  credit : Int
  loan : Int
  interest : Int
  safemoney : Int
  health : Int
  aliveTime : Int
  loanTime : Int
  depositTime : Int
  deriving DecidableEq

/-- The user's money. -/
def BankUser.worth (a : BankUser) : Int := a.cash + a.credit + a.interest + a.safemoney

/-- The amounts are not negative, and each fits into an `int`. -/
structure BankUser.Ok (a : BankUser) : Prop where
  cash_nonneg : 0 ≤ a.cash
  cash_lt : a.cash < 2 ^ 31
  credit_nonneg : 0 ≤ a.credit
  credit_lt : a.credit < 2 ^ 31
  safemoney_nonneg : 0 ≤ a.safemoney
  safemoney_lt : a.safemoney < 2 ^ 31

/-- What one user can reach: the treasury, the prize pool and his own money. -/
structure Till where
  treasury : Int
  prize777 : Int
  user : BankUser
  deriving DecidableEq

def Till.worth (t : Till) : Int := t.treasury + t.prize777 + t.user.worth

theorem Till.worth_eq (t : Till) : t.worth = t.treasury + t.prize777 +
    (t.user.cash + t.user.credit + t.user.interest + t.user.safemoney) := rfl

/-- No money is lost, and the user's amounts stay in order. -/
structure Keeps (t t' : Till) : Prop where
  worth : t'.worth = t.worth
  ok : t'.user.Ok

theorem Keeps.refl {t : Till} (h : t.user.Ok) : Keeps t t := ⟨rfl, h⟩

theorem Keeps.trans {t t' t'' : Till} (h : Keeps t t') (h' : Keeps t' t'') : Keeps t t'' :=
  ⟨h'.worth.trans h.worth, h'.ok⟩

/-! ## Conversions -/

/-- What becomes of a rational number, given by its integer part, when it is stored in an
`int`. -/
def truncInt (i : Int) : Int := if IntRange i then i else -2 ^ 31

/-- `makeInterest`, with the rate in ten thousandths. -/
def makeInterest (basicMoney lastTime rate now : Int) : Int :=
  if 0 < lastTime ∧ lastTime < now then
    let calHour := min ((now - lastTime) / 3600) 87600
    truncInt ((basicMoney * rate * calHour).tdiv 240000)
  else 0

/-- What `after_tax` returns. -/
def afterTax (income : Int) : Int :=
  if 5000000 < income then (365550000 + (income - 5000000) * 60).tdiv 100
  else if 1000000 < income then (85550000 + (income - 1000000) * 70).tdiv 100
  else if 500000 < income then (45550000 + (income - 500000) * 80).tdiv 100
  else if 100000 < income then (9550000 + (income - 100000) * 90).tdiv 100
  else if 10000 < income then (1000000 + (income - 10000) * 95).tdiv 100
  else income

/-- `mcEnv->prize777 += after_tax(income)` -/
def Till.prizeTaxed (t : Till) (income : Int) : Till :=
  { t with
    treasury := t.treasury + (income - afterTax income)
    prize777 := toInt (t.prize777 + afterTax income) }

theorem prizeTaxed_worth {t : Till} {income : Int}
    (hrange : IntRange (t.prize777 + afterTax income)) :
    (t.prizeTaxed income).worth = t.worth + income := by
  rw [Till.worth, Till.prizeTaxed, hrange.toInt, Till.worth]
  dsimp only
  omega

/-! ## `update_health` -/

/-- What `update_health` makes of the treasury and of one amount. -/
def settle (treasury amount : Int) : Int × Int :=
  if 2000000000 < amount then (treasury + (amount - 2000000000), 2000000000)
  else if amount < -1000000000 then
    (treasury + (294967296 + amount) + 2000000000, 2000000000)
  else (treasury, amount)

/-- The health of a user: a point for every 20 seconds. -/
def BankUser.rest (a : BankUser) (now : Int) : BankUser :=
  let addHealth := (now - a.aliveTime).tdiv 20
  { a with
    health := min (max a.health 0 + addHealth) 100
    aliveTime := a.aliveTime + addHealth * 20 }

/-- `update_health` -/
def Till.updateHealth (t : Till) (now : Int) : Till :=
  let user := t.user.rest now
  let cash := settle t.treasury user.cash
  let credit := settle cash.1 user.credit
  { t with
    treasury := credit.1
    user := { user with cash := cash.2, credit := credit.2 } }

/-- Up to here a wrapped amount is taken back to what it should be. -/
def maxSettled : Int := 3294967296

/-- An amount that is stored in a field, where it may have wrapped. -/
structure Stored (field amount : Int) : Prop where
  eq : field = toInt amount
  nonneg : 0 ≤ amount
  lt : amount < maxSettled

theorem Stored.self {amount : Int} (hlo : 0 ≤ amount) (hhi : amount < 2 ^ 31) :
    Stored amount amount :=
  ⟨(toInt_of_range hlo hhi).symm, hlo, by rw [maxSettled]; omega⟩

/-- An amount that may have wrapped is put right. -/
theorem settle_stored (treasury : Int) {field amount : Int} (h : Stored field amount) :
    (settle treasury field).1 + (settle treasury field).2 = treasury + amount ∧
      0 ≤ (settle treasury field).2 ∧ (settle treasury field).2 ≤ 2000000000 := by
  obtain ⟨rfl, hlo, hhi⟩ := h
  rw [maxSettled] at hhi
  rcases Int.lt_or_le amount (2 ^ 31) with hlt | hge
  · rw [toInt_of_range hlo hlt, settle]
    split
    · dsimp only
      omega
    · rw [if_neg (by omega)]
      dsimp only
      omega
  · rw [toInt_of_ge hge (by omega), settle, if_neg (by omega), if_pos (by omega)]
    dsimp only
    omega

/-- **`update_health`** loses no money, also when the cash and the credit have wrapped. -/
theorem updateHealth_stored {t : Till} {cash credit : Int} (hcash : Stored t.user.cash cash)
    (hcredit : Stored t.user.credit credit) (hsafe : 0 ≤ t.user.safemoney)
    (hsafeLt : t.user.safemoney < 2 ^ 31) (now : Int) :
    (t.updateHealth now).worth =
        t.treasury + t.prize777 + cash + credit + t.user.interest + t.user.safemoney ∧
      (t.updateHealth now).user.Ok ∧ (t.updateHealth now).user.cash ≤ 2000000000 := by
  obtain ⟨hsum, hnonneg, hle⟩ := settle_stored t.treasury hcash
  obtain ⟨hsum', hnonneg', hle'⟩ := settle_stored (settle t.treasury t.user.cash).1 hcredit
  rw [Till.updateHealth, Till.worth, BankUser.worth, BankUser.rest]
  dsimp only
  exact ⟨by omega, ⟨hnonneg, by dsimp only; omega, hnonneg', by dsimp only; omega, hsafe, hsafeLt⟩,
    hle⟩

theorem BankUser.Ok.storedCash {a : BankUser} (h : a.Ok) : Stored a.cash a.cash :=
  .self h.cash_nonneg h.cash_lt

theorem BankUser.Ok.storedCredit {a : BankUser} (h : a.Ok) : Stored a.credit a.credit :=
  .self h.credit_nonneg h.credit_lt

/-- `update_health` for a user whose amounts are in order. -/
theorem updateHealth_keeps {t : Till} (h : t.user.Ok) (now : Int) :
    Keeps t (t.updateHealth now) := by
  obtain ⟨hworth, hok, -⟩ := updateHealth_stored h.storedCash h.storedCredit h.safemoney_nonneg
    h.safemoney_lt now
  refine ⟨?_, hok⟩
  rw [hworth, Till.worth, BankUser.worth]
  omega

theorem settle_of_nonneg (treasury : Int) {amount : Int} (h : 0 ≤ amount) :
    (settle treasury amount).2 = min amount 2000000000 := by
  rw [settle]
  split
  · dsimp only
    omega
  · rw [if_neg (by omega)]
    dsimp only
    omega

theorem updateHealth_cash {t : Till} (h : 0 ≤ t.user.cash) (now : Int) :
    (t.updateHealth now).user.cash = min t.user.cash 2000000000 :=
  settle_of_nonneg t.treasury h

/-- `myInfo->health -= n` -/
def Till.tire (t : Till) (n : Int) : Till :=
  { t with user := { t.user with health := t.user.health - n } }

theorem tire_keeps {t : Till} (h : t.user.Ok) (n : Int) : Keeps t (t.tire n) :=
  ⟨rfl, ⟨h.cash_nonneg, h.cash_lt, h.credit_nonneg, h.credit_lt, h.safemoney_nonneg,
    h.safemoney_lt⟩⟩

/-- The end of an operation: what has wrapped is put right. -/
theorem finish_stored {t : Till} {cash credit : Int} (hcash : Stored t.user.cash cash)
    (hcredit : Stored t.user.credit credit) (hsafe : 0 ≤ t.user.safemoney)
    (hsafeLt : t.user.safemoney < 2 ^ 31) (now : Int) :
    ((t.updateHealth now).tire 1).worth =
        t.treasury + t.prize777 + cash + credit + t.user.interest + t.user.safemoney ∧
      ((t.updateHealth now).tire 1).user.Ok := by
  obtain ⟨hsum, hok, -⟩ := updateHealth_stored hcash hcredit hsafe hsafeLt now
  obtain ⟨hworth, hok⟩ := tire_keeps hok 1
  exact ⟨hworth.trans hsum, hok⟩

theorem finish_keeps {t t' : Till} (cash credit : Int) (h : t.user.Ok)
    (hcash : Stored t'.user.cash cash) (hcredit : Stored t'.user.credit credit)
    (hsafe : t'.user.safemoney = t.user.safemoney)
    (hworth : t'.treasury + t'.prize777 + cash + credit + t'.user.interest =
      t.worth - t.user.safemoney) (now : Int) :
    Keeps t ((t'.updateHealth now).tire 1) := by
  obtain ⟨hsum, hok⟩ := finish_stored hcash hcredit (hsafe ▸ h.safemoney_nonneg)
    (hsafe ▸ h.safemoney_lt) now
  refine ⟨?_, hok⟩
  rw [hsum, hsafe]
  omega

end Ytht
