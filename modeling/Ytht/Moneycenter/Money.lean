import Ytht.Lib.Ledger
import Ytht.Lib.Runs
import Ytht.Moneycenter.Casino

/-!
# Moneycenter.Money

The money of all users through any number of operations of the bank and the casino.
-/

namespace Ytht

open Bytes Function Ledger Runs

/-! ## Operations of one user -/

/-- An operation on a user's own money, with what he enters, the clock and the dice. -/
inductive TillOp
  | deposit (input now : Int)
  | withdraw (input now : Int) (take : Bool)
  | borrow (exp input now : Int)
  | repay (entered now : Int)
  | hide (exp now : Int) (again : Bool)
  | takeOut (input now : Int)
  | openSafe
  | dice (input now later : Int) (small : Bool) (d : Dice)
  | enterBig
  | big (input now : Int) (small : Bool) (d : Dice)
  | visit777 (arrested : Bool)
  | donate777 (input : Int)
  | play777 (high : Bool) (d : Dice) (now : Int)

namespace TillOp

variable (depositRate loanRate : Int)

def run (t : Till) : TillOp → Till
  | .deposit input now => t.deposit depositRate (userInputValue input 1000 MAX_MONEY_NUM) now
  | .withdraw input now take =>
      t.withdraw depositRate (userInputValue input 1000 MAX_MONEY_NUM) now take
  | .borrow exp input now => t.borrow exp input now
  | .repay entered now => t.repay loanRate entered now
  | .hide exp now again => t.hide exp now again
  | .takeOut input now => t.takeOut input now
  | .openSafe => t.openSafe
  | .dice input now later small d => t.dice input now later small d
  | .enterBig => t.enterBig
  | .big input now small d => t.big input now small d
  | .visit777 arrested => t.visit777 arrested
  | .donate777 input => t.donate777 input
  | .play777 high d now => t.play777 high d now

/-- No amount leaves the range of an `int` where nothing puts it right, no triple is
thrown, and the safe holds whole amounts. -/
def Fits (t : Till) : TillOp → Prop
  | .deposit input now => t.DepositFits depositRate (userInputValue input 1000 MAX_MONEY_NUM) now
  | .withdraw input now take =>
      t.WithdrawFits depositRate (userInputValue input 1000 MAX_MONEY_NUM) now take
  | .borrow _ _ _ => True
  | .repay entered now => t.RepayFits loanRate entered now
  | .hide exp now again => t.HideFits exp now again
  | .takeOut input now => t.TakeOutFits input now
  | .openSafe => t.user.safemoney.tmod 500000 = 0
  | .dice input now _ small d =>
      (t.updateHealth now).mayStake 1 (userInputValue input 1000 200000) →
        t.DiceFits (userInputValue input 1000 200000) d small
  | .enterBig => t.EnterBigFits
  | .big input now small d =>
      (t.updateHealth now).mayStake 3 (userInputValue input 10 1000 * 10000) →
        t.DiceFits (10000 * userInputValue input 10 1000) d small
  | .visit777 _ => t.CoverFits
  | .donate777 input => t.DonateFits input
  | .play777 high d _ => t.PlayFits high d

instance (t : Till) : (op : TillOp) → Decidable (op.Fits depositRate loanRate t)
  | .deposit input now => inferInstanceAs (Decidable (t.DepositFits depositRate
      (userInputValue input 1000 MAX_MONEY_NUM) now))
  | .withdraw input now take => inferInstanceAs (Decidable (t.WithdrawFits depositRate
      (userInputValue input 1000 MAX_MONEY_NUM) now take))
  | .borrow _ _ _ => isTrue trivial
  | .repay entered now => inferInstanceAs (Decidable (t.RepayFits loanRate entered now))
  | .hide exp now again => inferInstanceAs (Decidable (t.HideFits exp now again))
  | .takeOut input now => inferInstanceAs (Decidable (t.TakeOutFits input now))
  | .openSafe => inferInstanceAs (Decidable (_ = _))
  | .dice input _ _ small d => inferInstanceAs (Decidable (_ →
      t.DiceFits (userInputValue input 1000 200000) d small))
  | .enterBig => inferInstanceAs (Decidable t.EnterBigFits)
  | .big input _ small d => inferInstanceAs (Decidable (_ →
      t.DiceFits (10000 * userInputValue input 10 1000) d small))
  | .visit777 _ => inferInstanceAs (Decidable t.CoverFits)
  | .donate777 input => inferInstanceAs (Decidable (t.DonateFits input))
  | .play777 high d _ => inferInstanceAs (Decidable (t.PlayFits high d))

variable {depositRate loanRate}

theorem userInputValue_range {input inf sup : Int} (h : inf ≤ sup) :
    inf ≤ userInputValue input inf sup ∧ userInputValue input inf sup ≤ sup := by
  rw [userInputValue]
  omega

theorem run_keeps {t : Till} {op : TillOp} (h : t.user.Ok)
    (hfits : op.Fits depositRate loanRate t) : Keeps t (op.run depositRate loanRate t) := by
  have hinput : ∀ input, 1000 ≤ userInputValue input 1000 MAX_MONEY_NUM ∧
      userInputValue input 1000 MAX_MONEY_NUM ≤ MAX_MONEY_NUM := fun input =>
    userInputValue_range (by decide)
  cases op with
  | deposit input now =>
      have hlo := (hinput input).1
      exact Till.deposit_keeps h (by omega) (hinput input).2 hfits
  | withdraw input now take =>
      have hlo := (hinput input).1
      exact Till.withdraw_keeps h (by omega) (hinput input).2 hfits
  | borrow exp input now => exact Till.borrow_keeps h
  | repay entered now => exact Till.repay_keeps h hfits
  | hide exp now again => exact Till.hide_keeps h hfits
  | takeOut input now => exact Till.takeOut_keeps h hfits
  | openSafe => exact Till.openSafe_keeps h hfits
  | dice input now later small d => exact Till.dice_keeps h hfits
  | enterBig => exact Till.enterBig_keeps h hfits
  | big input now small d => exact Till.big_keeps h hfits
  | visit777 arrested => exact Till.visit777_keeps h hfits arrested
  | donate777 input => exact Till.donate777_keeps h hfits
  | play777 high d now => exact Till.play777_keeps h hfits

end TillOp

/-! ## All users -/

/-- The environment and the accounts; who has never been here has none. -/
structure MoneyCenter (U : Type) where
  treasury : Int
  prize777 : Int
  depositRate : UInt8
  loanRate : UInt8
  transferRate : UInt8
  users : U → Option BankUser

/-- What users do. -/
inductive MoneyOp (U : Type)
  | own (u : U) (op : TillOp)
  | transfer (u payee : U) (input now : Int) (fromCash : Bool)

/-- `initData(1, ...)` -/
def newcomer : BankUser := ⟨0, 50000, 0, 0, 0, 0, 0, 0, 0⟩

namespace MoneyCenter

variable {U : Type}

/-- What a user with this account can reach. -/
def till (s : MoneyCenter U) (a : BankUser) : Till := ⟨s.treasury, s.prize777, a⟩

/-- The account that a transfer goes to is made when there is none. -/
def openPayee (s : MoneyCenter U) (payee : U) : Int × BankUser :=
  match s.users payee with
  | some a => (s.treasury, a)
  | none => (s.treasury - 50000, newcomer)

section

variable [DecidableEq U]

/-- One user's money is put back. -/
def put (s : MoneyCenter U) (u : U) (t : Till) : MoneyCenter U :=
  { s with treasury := t.treasury, prize777 := t.prize777, users := update s.users u (some t.user) }

/-- One operation. -/
def step (s : MoneyCenter U) : MoneyOp U → Option (MoneyCenter U)
  | .own u op => (s.users u).map fun a =>
      s.put u (op.run s.depositRate.toNat s.loanRate.toNat (s.till a))
  | .transfer u payee input now fromCash =>
      match s.users u with
      | none => none
      | some a =>
          if a.health < 1 ∨ payee = u then some s
          else
            let opened := s.openPayee payee
            let r := Till.transfer ⟨opened.1, s.prize777, a⟩ opened.2 s.transferRate.toNat
              s.depositRate.toNat (userInputValue input 1000 MAX_MONEY_NUM) now fromCash
            some { s.put u r.1 with users := update (s.put u r.1).users payee (some r.2) }

end

/-- What is asked of an operation. -/
def Fits (s : MoneyCenter U) : MoneyOp U → Prop
  | .own u op => ∀ a ∈ s.users u, op.Fits s.depositRate.toNat s.loanRate.toNat (s.till a)
  | .transfer u payee input now fromCash => ∀ a ∈ s.users u, 1 ≤ a.health → payee ≠ u →
      Till.TransferFits ⟨(s.openPayee payee).1, s.prize777, a⟩ (s.openPayee payee).2 s.transferRate.toNat
        s.depositRate.toNat (userInputValue input 1000 MAX_MONEY_NUM) now fromCash

instance [DecidableEq U] (s : MoneyCenter U) : (op : MoneyOp U) → Decidable (s.Fits op)
  | .own u op => inferInstanceAs (Decidable (∀ a ∈ s.users u,
      op.Fits s.depositRate.toNat s.loanRate.toNat (s.till a)))
  | .transfer u payee input now fromCash => inferInstanceAs (Decidable (∀ a ∈ s.users u, _ → _ →
      Till.TransferFits ⟨(s.openPayee payee).1, s.prize777, a⟩ (s.openPayee payee).2 s.transferRate.toNat
        s.depositRate.toNat (userInputValue input 1000 MAX_MONEY_NUM) now fromCash))

/-- What a user has. -/
def worthOf (users : U → Option BankUser) (u : U) : Int := ((users u).map BankUser.worth).getD 0

/-- All the money. -/
def total [Fintype U] (s : MoneyCenter U) : Int :=
  s.treasury + s.prize777 + ∑ u, worthOf s.users u

/-- All accounts are in order. -/
def Ok (s : MoneyCenter U) : Prop := ∀ u, ∀ a ∈ s.users u, a.Ok

variable [DecidableEq U] [Fintype U] {s s' : MoneyCenter U} {u : U} {a b : BankUser}

omit [Fintype U] in
theorem worthOf_update (users : U → Option BankUser) (u : U) (a : BankUser) :
    worthOf (update users u (some a)) = update (worthOf users) u a.worth := by
  funext v
  by_cases hv : v = u
  · subst hv
    rw [worthOf, update_self, update_self]
    rfl
  · rw [worthOf, update_of_ne hv, update_of_ne hv, worthOf]

omit [Fintype U] in
theorem Ok.put {t : Till} (h : s.Ok) (ht : t.user.Ok) : (s.put u t).Ok := by
  intro v a ha
  rw [MoneyCenter.put] at ha
  dsimp only at ha
  by_cases hv : v = u
  · subst hv
    rw [update_self] at ha
    cases ha
    exact ht
  · rw [update_of_ne hv] at ha
    exact h v a ha

theorem put_total {t : Till} (hu : s.users u = some a) :
    (s.put u t).total - t.worth = s.total - (s.till a).worth := by
  have hold : worthOf s.users u = a.worth := by
    rw [worthOf, hu]
    rfl
  rw [total, total, MoneyCenter.put, till, Till.worth, Till.worth]
  dsimp only
  rw [worthOf_update, sum_update, hold]
  omega

/-- An operation on one's own money. -/
theorem own_keeps {t : Till} (h : s.Ok) (hu : s.users u = some a)
    (hkeeps : Keeps (s.till a) t) : (s.put u t).total = s.total ∧ (s.put u t).Ok := by
  have hput := put_total (t := t) hu
  rw [hkeeps.worth] at hput
  exact ⟨by omega, h.put hkeeps.ok⟩

theorem newcomer_ok : newcomer.Ok := by
  constructor <;> decide

omit [DecidableEq U] [Fintype U] in
/-- Making an account loses no money. -/
theorem openPayee_spec (h : s.Ok) (payee : U) :
    (s.openPayee payee).1 + (s.openPayee payee).2.worth = s.treasury + worthOf s.users payee ∧
      (s.openPayee payee).2.Ok := by
  rw [openPayee, worthOf]
  cases hpayee : s.users payee with
  | some b => exact ⟨rfl, h payee b hpayee⟩
  | none =>
      refine ⟨?_, newcomer_ok⟩
      have hworth : newcomer.worth = 50000 := rfl
      dsimp only
      rw [hworth, Option.map_none, Option.getD_none]
      omega

/-- **One operation** that meets the condition. -/
theorem step_keeps {op : MoneyOp U} (h : s.Ok) (hfits : s.Fits op) (hstep : s.step op = some s') :
    s'.total = s.total ∧ s'.Ok := by
  cases op with
  | own u op =>
      rw [step] at hstep
      obtain ⟨a, ha, rfl⟩ := Option.map_eq_some_iff.mp hstep
      exact own_keeps h ha (TillOp.run_keeps (h u a ha) (hfits a ha))
  | transfer u payee input now fromCash =>
      rw [step] at hstep
      split at hstep
      · contradiction
      · next a ha =>
          split at hstep
          · cases hstep
            exact ⟨rfl, h⟩
          · next hmay =>
              rw [not_or, Int.not_lt] at hmay
              obtain ⟨hopen, hokPayee⟩ := openPayee_spec h payee
              have hnum : 1000 ≤ userInputValue input 1000 MAX_MONEY_NUM ∧
                  userInputValue input 1000 MAX_MONEY_NUM ≤ MAX_MONEY_NUM :=
                TillOp.userInputValue_range (by decide)
              have hrate := UInt8.toNat_lt s.transferRate
              obtain ⟨hworth, hokUser, hokReceiver⟩ := Till.transfer_keeps (h u a ha) hokPayee
                (by omega) hnum.2 (Int.natCast_nonneg _) (by omega)
                (hfits a ha hmay.1 hmay.2)
              cases hstep
              generalize Till.transfer _ _ _ _ _ _ _ = r at hworth hokUser hokReceiver ⊢
              have hold : worthOf s.users u = a.worth := by
                rw [worthOf, ha]
                rfl
              constructor
              · rw [total, total, put]
                dsimp only
                rw [worthOf_update, worthOf_update, sum_update, sum_update,
                  update_of_ne hmay.2, hold]
                rw [Till.worth, Till.worth] at hworth
                dsimp only at hworth
                omega
              · intro v b hb
                dsimp only at hb
                by_cases hv : v = payee
                · subst hv
                  rw [update_self] at hb
                  cases hb
                  exact hokReceiver
                · rw [update_of_ne hv] at hb
                  exact h.put hokUser v b hb

end MoneyCenter

/-! ## Runs -/

open MoneyCenter

/-- One user with a thousand in cash, who can still play. -/
def gambler : MoneyCenter Unit :=
  ⟨10000000, 20000, 100, 100, 100, fun _ => some ⟨1000, 50000, 0, 0, 0, 100, 1000, 0, 0⟩⟩

end Ytht
