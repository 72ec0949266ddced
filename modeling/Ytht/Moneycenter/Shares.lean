import Mathlib.Algebra.Order.BigOperators.Group.Finset
import Ytht.Lib.Bytes
import Ytht.Lib.Ledger

/-!
# Moneycenter.Shares

What a user holds of the stocks, and `tradeArithmetic`, which moves shares from one
party to another.

A user has `STOCK_NUM` slots, and `getMyStock` takes the first one with the number of a
stock.  So a slot with the number of an earlier one is never used: `McUserInfo.Ok` says
that it holds nothing.
-/

namespace Ytht

open Bytes Function Ledger

/-! ## Slots -/

def STOCK_NUM : Nat := 10

/-- One slot: `struct myStockUnit`. -/
structure MyStockUnit where
  stockid : Nat
  num : Int
  deriving DecidableEq

/-- What the trade uses of `struct mcUserInfo`. -/
structure McUserInfo where
  cash : Int
  /-- It is stored in front of `stock`, where `stock[-1].num` would be. -/
  lastActiveTime : Int
  stock : Fin STOCK_NUM → MyStockUnit

/-- A slot is zeroed and gets the number of a stock. -/
def McUserInfo.clear (a : McUserInfo) (slot : Fin STOCK_NUM) (stockid : Nat) : McUserInfo :=
  { a with stock := update a.stock slot ⟨stockid, 0⟩ }

/-- The slot of a stock, or else the first that holds nothing, which then gets its
number; `none` is -1. -/
def getMyStock (a : McUserInfo) (stockid : Nat) : Option (Fin STOCK_NUM) × McUserInfo :=
  match Fin.find? fun i => (a.stock i).stockid = stockid with
  | some i => (some i, a)
  | none =>
      match Fin.find? fun i => (a.stock i).num ≤ 0 with
      | some slot => (some slot, a.clear slot stockid)
      | none => (none, a)

/-- The shares of a stock that a user holds in all his slots. -/
def McUserInfo.held (a : McUserInfo) (stockid : Nat) : Int :=
  ∑ i, if (a.stock i).stockid = stockid then (a.stock i).num else 0

/-- No slot is overdrawn, and one with the number of an earlier one is empty. -/
structure McUserInfo.Ok (a : McUserInfo) : Prop where
  nonneg : ∀ i, 0 ≤ (a.stock i).num
  first : ∀ i j, i < j → (a.stock i).stockid = (a.stock j).stockid → (a.stock j).num = 0

/-- The first slot with the number of a stock. -/
def McUserInfo.First (a : McUserInfo) (stockid : Nat) (i : Fin STOCK_NUM) : Prop :=
  (a.stock i).stockid = stockid ∧ ∀ j < i, (a.stock j).stockid ≠ stockid

/-- The number of shares in a slot is set. -/
def McUserInfo.setNum (a : McUserInfo) (i : Fin STOCK_NUM) (num : Int) : McUserInfo :=
  { a with stock := update a.stock i ⟨(a.stock i).stockid, num⟩ }

namespace McUserInfo

variable {a b : McUserInfo} {s r : Nat} {i j : Fin STOCK_NUM} {n : Int}

@[simp] theorem setNum_stockid : ((a.setNum i n).stock j).stockid = (a.stock j).stockid := by
  by_cases hj : j = i
  · subst hj
    simp [setNum]
  · simp [setNum, update_of_ne hj]

@[simp] theorem setNum_num_self : ((a.setNum i n).stock i).num = n := by simp [setNum]

theorem setNum_num_of_ne (hj : j ≠ i) : ((a.setNum i n).stock j).num = (a.stock j).num := by
  simp [setNum, update_of_ne hj]

theorem held_nonneg (ha : a.Ok) (s : Nat) : 0 ≤ a.held s := by
  refine Finset.sum_nonneg fun i _ => ?_
  split
  · exact ha.nonneg i
  · exact Int.le_refl 0

theorem First.setNum (h : a.First s i) (j : Fin STOCK_NUM) (n : Int) : (a.setNum j n).First s i :=
  ⟨setNum_stockid.trans h.1, fun k hk => by
    rw [setNum_stockid]
    exact h.2 k hk⟩

/-- All that a user holds of a stock is in its first slot. -/
theorem First.held (ha : a.Ok) (h : a.First s i) : a.held s = (a.stock i).num := by
  have hother : ∀ j ∈ Finset.univ, j ≠ i →
      (if (a.stock j).stockid = s then (a.stock j).num else 0) = 0 := by
    intro j _ hj
    split
    · next hs =>
        have hlt : i < j := by
          rcases Nat.lt_or_gt_of_ne (Fin.val_ne_of_ne hj) with hlt | hgt
          · exact absurd hs (h.2 j hlt)
          · exact hgt
        exact ha.first i j hlt (h.1.trans hs.symm)
    · rfl
  rw [McUserInfo.held, Finset.sum_eq_single i hother (fun hi => absurd (Finset.mem_univ i) hi),
    if_pos h.1]

theorem Ok.setNum (ha : a.Ok) (h : a.First s i) (hn : 0 ≤ n) : (a.setNum i n).Ok where
  nonneg j := by
    by_cases hj : j = i
    · subst hj
      rwa [setNum_num_self]
    · rw [setNum_num_of_ne hj]
      exact ha.nonneg j
  first j k hjk hid := by
    rw [setNum_stockid, setNum_stockid] at hid
    by_cases hk : k = i
    · subst hk
      exact absurd (hid.trans h.1) (h.2 j hjk)
    · rw [setNum_num_of_ne hk]
      exact ha.first j k hjk hid

/-- Setting the slot of a stock changes what is held of that, and of no other. -/
theorem held_setNum (ha : a.Ok) (h : a.First s i) (hn : 0 ≤ n) :
    (a.setNum i n).held = update a.held s n := by
  funext r
  by_cases hr : r = s
  · subst hr
    rw [update_self, (h.setNum i n).held (ha.setNum h hn), setNum_num_self]
  · rw [update_of_ne hr]
    refine Finset.sum_congr rfl fun j _ => ?_
    rw [setNum_stockid]
    by_cases hj : j = i
    · subst hj
      rw [if_neg, if_neg] <;> exact fun hid => hr (hid.symm.trans h.1)
    · rw [setNum_num_of_ne hj]

@[simp] theorem clear_self : (a.clear i s).stock i = ⟨s, 0⟩ := by simp [clear]

theorem clear_of_ne (hj : j ≠ i) : (a.clear i s).stock j = a.stock j := by
  simp [clear, update_of_ne hj]

theorem Ok.clear (ha : a.Ok) (hnew : ∀ j, (a.stock j).stockid ≠ s) : (a.clear i s).Ok where
  nonneg j := by
    by_cases hj : j = i
    · rw [hj, clear_self]
    · rw [clear_of_ne hj]
      exact ha.nonneg j
  first j k hjk hid := by
    by_cases hk : k = i
    · rw [hk, clear_self]
    · rw [clear_of_ne hk] at hid ⊢
      by_cases hj : j = i
      · rw [hj, clear_self] at hid
        exact absurd hid.symm (hnew k)
      · rw [clear_of_ne hj] at hid
        exact ha.first j k hjk hid

theorem first_clear (hnew : ∀ j, (a.stock j).stockid ≠ s) : (a.clear i s).First s i := by
  constructor
  · rw [clear_self]
  · intro j hj
    rw [clear_of_ne (Fin.ne_of_lt hj)]
    exact hnew j

theorem held_clear (hempty : (a.stock i).num = 0) : (a.clear i s).held = a.held := by
  funext r
  refine Finset.sum_congr rfl fun j _ => ?_
  by_cases hj : j = i
  · rw [hj, clear_self, hempty]
    simp
  · rw [clear_of_ne hj]

end McUserInfo

open McUserInfo (First held_nonneg)

/-- `getMyStock` finds the first slot of the stock, and moves no shares. -/
theorem getMyStock_spec {a b : McUserInfo} {s : Nat} {i : Fin STOCK_NUM} (ha : a.Ok)
    (h : getMyStock a s = (some i, b)) :
    b.Ok ∧ b.First s i ∧ b.held = a.held ∧ b.cash = a.cash := by
  rw [getMyStock] at h
  split at h
  · next j hfind =>
      cases h
      rw [Fin.find?_eq_some_iff] at hfind
      exact ⟨ha, ⟨of_decide_eq_true hfind.1, fun k hk => of_decide_eq_false (hfind.2 k hk)⟩,
        rfl, rfl⟩
  · next hnone =>
      rw [Fin.find?_eq_none_iff] at hnone
      have hnew : ∀ j, (a.stock j).stockid ≠ s := fun j => of_decide_eq_false (hnone j)
      split at h
      · next slot hfind =>
          cases h
          rw [Fin.find?_eq_some_iff] at hfind
          have hempty : (a.stock i).num = 0 :=
            Int.le_antisymm (of_decide_eq_true hfind.1) (ha.nonneg i)
          exact ⟨ha.clear hnew, McUserInfo.first_clear hnew, McUserInfo.held_clear hempty, rfl⟩
      · cases h

theorem getMyStock_of_first {a : McUserInfo} {s : Nat} {i : Fin STOCK_NUM} (h : a.First s i) :
    getMyStock a s = (some i, a) := by
  have hfind : (Fin.find? fun j => (a.stock j).stockid = s) = some i :=
    Fin.find?_eq_some_iff.mpr
      ⟨decide_eq_true h.1, fun j hj => decide_eq_false (h.2 j hj)⟩
  rw [getMyStock, hfind]

theorem getMyStock_none {a b : McUserInfo} {s : Nat} (h : getMyStock a s = (none, b)) : b = a := by
  rw [getMyStock] at h
  split at h
  · cases h
  · split at h
    · cases h
    · cases h
      rfl

/-! ## Trades -/

/-- What the trade uses of `struct BoardStock`. -/
structure BoardStock where
  boardname : List UInt8
  timeStamp : Nat
  totalStockNum : Int
  remainNum : Int
  status : Nat
  holderNum : Int
  deriving DecidableEq

/-- The seller, who has sold all, is no holder any more; the buyer, who had nothing, is a
new one. -/
def BoardStock.countHolders (bs : BoardStock) (sellerNum buyerNum : Int) : BoardStock :=
  let bs := if sellerNum ≤ 0 then { bs with holderNum := bs.holderNum - 1 } else bs
  if buyerNum ≤ 0 then { bs with holderNum := bs.holderNum + 1 } else bs

theorem BoardStock.countHolders_eq (bs : BoardStock) (sellerNum buyerNum : Int) :
    bs.countHolders sellerNum buyerNum = { bs with holderNum :=
      bs.holderNum - (if sellerNum ≤ 0 then 1 else 0) + if buyerNum ≤ 0 then 1 else 0 } := by
  unfold countHolders
  split <;> split <;> simp

/-- `tradeType` -/
inductive TradeType
  | buy
  | sell
  deriving DecidableEq

/-- `struct TradeRecord`; the user `none` is `_SYS_`. -/
structure TradeRecord (U F : Type) where
  userid : Option U
  stockid : Nat
  tradeType : TradeType
  price : F
  num : Int

/-- What the machine makes of the `float` expressions of a trade. -/
structure Prices (F : Type) where
  /-- `p < q` -/
  below : F → F → Bool
  /-- `cash < price` -/
  cashBelow : Int → F → Bool
  /-- `cash < num * price` -/
  cashBelowCost : Int → Int → F → Bool
  /-- `cash / price`, as an `int` -/
  canBuy : Int → F → Int
  /-- `num * price`, as an `int` -/
  cost : Int → F → Int
  /-- `cash + 0.999 * money`, as an `int` -/
  credited : Int → Int → Int

variable {U F : Type} [DecidableEq U] (pr : Prices F)

/-- The accounts of the users, and the one that is made up for the system. -/
abbrev Accounts (U : Type) := Option U → McUserInfo

/-- The cash of a party is set. -/
def Accounts.setCash (acct : Accounts U) (p : Option U) (cash : Int) : Accounts U :=
  update acct p { acct p with cash := cash }

/-- The shares in a slot of a party are set. -/
def Accounts.setNum (acct : Accounts U) (p : Option U) (i : Fin STOCK_NUM) (num : Int) :
    Accounts U :=
  update acct p ((acct p).setNum i num)

/-- What `tradeArithmetic` leaves of its arguments, and the number of shares it returns. -/
structure Traded (U F : Type) where
  bs : BoardStock
  trbuy : TradeRecord U F
  trsell : TradeRecord U F
  acct : Accounts U
  num : Int

/-- The end of `tradeArithmetic`: money and shares change hands. -/
def moveShares (bs : BoardStock) (trbuy trsell : TradeRecord U F) (acct : Accounts U)
    (buyer seller : Option U) (idx slot : Fin STOCK_NUM) (tradeNum : Int) : Traded U F :=
  let tradeMoney := pr.cost tradeNum trsell.price
  let acct := acct.setCash buyer (toInt ((acct buyer).cash - tradeMoney))
  let acct := acct.setNum seller idx (((acct seller).stock idx).num - tradeNum)
  let bs := bs.countHolders ((acct seller).stock idx).num ((acct buyer).stock slot).num
  -- the slot already has the number of the stock
  let acct := acct.setNum buyer slot (((acct buyer).stock slot).num + tradeNum)
  let acct := acct.setCash seller (pr.credited (acct seller).cash tradeMoney)
  ⟨bs, { trbuy with num := trbuy.num - tradeNum }, { trsell with num := trsell.num - tradeNum },
    acct, tradeNum⟩

/-- `tradeArithmetic`: the buyer and the seller may be the same user. -/
def tradeArithmetic (bs : BoardStock) (trbuy trsell : TradeRecord U F) (acct : Accounts U)
    (buyer seller : Option U) : Traded U F :=
  if pr.cashBelow (acct buyer).cash trsell.price || pr.below trbuy.price trsell.price then
    ⟨bs, trbuy, trsell, acct, 0⟩
  else
    match getMyStock (acct seller) trsell.stockid with
    | (none, _) => ⟨bs, trbuy, trsell, acct, 0⟩
    | (some idx, a) =>
        let acct := update acct seller a
        let tradeNum := min (min (min trbuy.num trsell.num)
          (pr.canBuy (acct buyer).cash trsell.price)) ((acct seller).stock idx).num
        if tradeNum ≤ 0 then ⟨bs, trbuy, trsell, acct, 0⟩
        else
          match getMyStock (acct buyer) trbuy.stockid with
          | (none, _) => ⟨bs, trbuy, trsell, acct, 0⟩
          | (some slot, a) =>
              moveShares pr bs trbuy trsell (update acct buyer a) buyer seller idx slot tradeNum

/-- All accounts are in order. -/
def Accounts.Ok (acct : Accounts U) : Prop := ∀ p, (acct p).Ok

/-- What all parties hold of a stock. -/
def Accounts.held (acct : Accounts U) (stockid : Nat) (p : Option U) : Int :=
  (acct p).held stockid

namespace Accounts

variable {acct : Accounts U} {p q : Option U} {s r : Nat} {i : Fin STOCK_NUM} {n : Int}

theorem Ok.update {a : McUserInfo} (h : acct.Ok) (ha : a.Ok) : Ok (update acct p a) := by
  intro q
  by_cases hq : q = p
  · subst hq
    rwa [update_self]
  · rw [update_of_ne hq]
    exact h q

theorem held_update {a : McUserInfo} (ha : a.held = (acct p).held) :
    held (update acct p a) = acct.held := by
  funext s q
  by_cases hq : q = p
  · subst hq
    rw [held, update_self, ha, held]
  · rw [held, update_of_ne hq, held]

theorem ok_setCash (h : acct.Ok) (cash : Int) : (acct.setCash p cash).Ok :=
  h.update ⟨(h p).nonneg, (h p).first⟩

theorem held_setCash (cash : Int) : (acct.setCash p cash).held = acct.held := held_update rfl

theorem First.setCash (h : (acct q).First s i) (cash : Int) :
    ((acct.setCash p cash) q).First s i := by
  rw [Accounts.setCash]
  by_cases hq : q = p
  · subst hq
    rwa [update_self]
  · rwa [update_of_ne hq]

theorem First.setNum {j : Fin STOCK_NUM} (h : (acct q).First s i) :
    ((acct.setNum p j n) q).First s i := by
  rw [Accounts.setNum]
  by_cases hq : q = p
  · subst hq
    rw [update_self]
    exact McUserInfo.First.setNum h j n
  · rwa [update_of_ne hq]

theorem Ok.setNum (h : acct.Ok) (hi : (acct p).First s i) (hn : 0 ≤ n) : (acct.setNum p i n).Ok :=
  h.update ((h p).setNum hi hn)

/-- Setting a slot changes what is held of one stock by one party. -/
theorem held_setNum (h : acct.Ok) (hi : (acct p).First s i) (hn : 0 ≤ n) :
    (acct.setNum p i n).held = update acct.held s (update (acct.held s) p n) := by
  have hset := McUserInfo.held_setNum (h p) hi hn
  funext r q
  rw [held, Accounts.setNum]
  by_cases hq : q = p
  · subst hq
    rw [update_self, hset]
    by_cases hr : r = s
    · subst hr
      rw [update_self, update_self, update_self]
    · rw [update_of_ne hr, update_of_ne hr, held]
  · rw [update_of_ne hq]
    by_cases hr : r = s
    · subst hr
      rw [update_self, update_of_ne hq, held]
    · rw [update_of_ne hr, held]

omit [DecidableEq U] in
theorem num_eq_held (h : acct.Ok) (hi : (acct p).First s i) :
    ((acct p).stock i).num = acct.held s p :=
  (hi.held (h p)).symm

end Accounts

section Spec

open Accounts

variable {pr} {acct : Accounts U} {bs : BoardStock} {trbuy trsell : TradeRecord U F}
  {buyer seller : Option U} {s k : Nat} {r : Traded U F}

/-- What a trade of shares of one stock does: shares are paid by the seller to the
buyer, and `holderNum` follows the number of parties that hold some. -/
structure Moves [Fintype U] (pr : Prices F) (s : Nat) (bs : BoardStock)
    (trbuy trsell : TradeRecord U F) (acct : Accounts U) (buyer seller : Option U)
    (r : Traded U F) : Prop where
  ok : r.acct.Ok
  nonneg : 0 ≤ r.num
  le_held : r.num ≤ acct.held s seller
  held : r.acct.held = update acct.held s (pay (acct.held s) seller buyer r.num)
  bs_eq : r.bs = { bs with holderNum :=
    bs.holderNum + (holders (r.acct.held s) - holders (acct.held s)) }
  trbuy_eq : r.trbuy = { trbuy with num := trbuy.num - r.num }
  trsell_eq : r.trsell = { trsell with num := trsell.num - r.num }
  priced : 0 < r.num → pr.cashBelow (acct buyer).cash trsell.price = false ∧
    pr.below trbuy.price trsell.price = false ∧
    r.num ≤ min trbuy.num (pr.canBuy (acct buyer).cash trsell.price)

variable [Fintype U]

theorem Moves.refused (h : acct.Ok) : Moves pr s bs trbuy trsell acct buyer seller
    ⟨bs, trbuy, trsell, acct, 0⟩ where
  ok := h
  nonneg := Int.le_refl 0
  le_held := held_nonneg (h seller) s
  held := by
    have hpay : pay (acct.held s) seller buyer 0 = acct.held s := by
      rw [pay, Int.sub_zero, update_eq_self, Int.add_zero, update_eq_self]
    rw [hpay, update_eq_self]
  bs_eq := by rw [Int.sub_self, Int.add_zero]
  trbuy_eq := by rw [Int.sub_zero]
  trsell_eq := by rw [Int.sub_zero]
  priced h := by contradiction

/-- What `getMyStock` has done to the accounts makes no difference. -/
theorem Moves.of_held {acct' : Accounts U} {r : Traded U F} (hheld : acct'.held = acct.held)
    (hcash : (acct' buyer).cash = (acct buyer).cash)
    (h : Moves pr s bs trbuy trsell acct' buyer seller r) :
    Moves pr s bs trbuy trsell acct buyer seller r where
  ok := h.ok
  nonneg := h.nonneg
  le_held := hheld ▸ h.le_held
  held := hheld ▸ h.held
  bs_eq := hheld ▸ h.bs_eq
  trbuy_eq := h.trbuy_eq
  trsell_eq := h.trsell_eq
  priced hpos := hcash ▸ h.priced hpos

theorem moveShares_spec {idx slot : Fin STOCK_NUM} {t : Int} (h : acct.Ok)
    (hidx : (acct seller).First s idx) (hslot : (acct buyer).First s slot) (ht : 0 < t)
    (hle : t ≤ acct.held s seller)
    (hpriced : pr.cashBelow (acct buyer).cash trsell.price = false ∧
      pr.below trbuy.price trsell.price = false ∧
      t ≤ min trbuy.num (pr.canBuy (acct buyer).cash trsell.price)) :
    Moves pr s bs trbuy trsell acct buyer seller
      (moveShares pr bs trbuy trsell acct buyer seller idx slot t) := by
  have hnonneg : ∀ p, 0 ≤ acct.held s p := fun p => held_nonneg (h p) s
  -- the buyer has paid
  let cash := toInt ((acct buyer).cash - pr.cost t trsell.price)
  let paid := acct.setCash buyer cash
  have hpaid : paid.Ok := ok_setCash h cash
  have hpaidHeld : paid.held = acct.held := held_setCash cash
  have hpaidIdx : (paid seller).First s idx := First.setCash hidx cash
  have hpaidNum : ((paid seller).stock idx).num = acct.held s seller := by
    rw [num_eq_held hpaid hpaidIdx, hpaidHeld]
  -- the seller has given up the shares
  have hrest : (0 : Int) ≤ ((paid seller).stock idx).num - t := by omega
  let given := paid.setNum seller idx (((paid seller).stock idx).num - t)
  have hgiven : given.Ok := hpaid.setNum hpaidIdx hrest
  have hgivenHeld : given.held =
      update acct.held s (update (acct.held s) seller (acct.held s seller - t)) := by
    rw [held_setNum hpaid hpaidIdx hrest, hpaidNum, hpaidHeld]
  have hgivenSlot : (given buyer).First s slot := First.setNum (First.setCash hslot cash)
  have hgivenIdx : ((given seller).stock idx).num = acct.held s seller - t := by
    rw [num_eq_held hgiven (First.setNum hpaidIdx), hgivenHeld, update_self, update_self]
  have hgivenNum : ((given buyer).stock slot).num =
      update (acct.held s) seller (acct.held s seller - t) buyer := by
    rw [num_eq_held hgiven hgivenSlot, hgivenHeld, update_self]
  -- the buyer has taken them
  have hrestNum : 0 ≤ update (acct.held s) seller (acct.held s seller - t) buyer :=
    rest_nonneg hnonneg hle
  have htaken : 0 ≤ ((given buyer).stock slot).num + t := by omega
  have hpay : (given.setNum buyer slot (((given buyer).stock slot).num + t)).held =
      update acct.held s (pay (acct.held s) seller buyer t) := by
    rw [held_setNum hgiven hgivenSlot htaken, hgivenNum, hgivenHeld, update_self, update_idem, pay]
  have hholders := holders_pay hnonneg ht hle buyer
  exact {
    ok := ok_setCash (hgiven.setNum hgivenSlot htaken) _
    nonneg := ht.le
    le_held := hle
    held := (held_setCash _).trans hpay
    bs_eq := by
      have hsame : (moveShares pr bs trbuy trsell acct buyer seller idx slot t).acct.held s =
          pay (acct.held s) seller buyer t := by
        rw [moveShares, held_setCash]
        exact (congrFun hpay s).trans (update_self ..)
      have hcount : (moveShares pr bs trbuy trsell acct buyer seller idx slot t).bs =
          bs.countHolders ((given seller).stock idx).num ((given buyer).stock slot).num := rfl
      rw [hsame, hholders, hcount, hgivenIdx, hgivenNum, BoardStock.countHolders_eq]
      congr 1
      omega
    trbuy_eq := rfl
    trsell_eq := rfl
    priced := fun _ => hpriced }

/-- **`tradeArithmetic`** makes a trade of shares of one stock, or none. -/
theorem tradeArithmetic_spec (h : acct.Ok) (hbuy : trbuy.stockid = s) (hsell : trsell.stockid = s) :
    Moves pr s bs trbuy trsell acct buyer seller
      (tradeArithmetic pr bs trbuy trsell acct buyer seller) := by
  rw [tradeArithmetic]
  split
  · exact .refused h
  · next hprice =>
      rw [Bool.or_eq_true, not_or, Bool.not_eq_true, Bool.not_eq_true] at hprice
      split
      · exact .refused h
      · next idx a hidx =>
          rw [hsell] at hidx
          obtain ⟨ha, hfirst, haheld, hacash⟩ := getMyStock_spec (h seller) hidx
          have hok : Accounts.Ok (update acct seller a) := h.update ha
          have hheld : Accounts.held (update acct seller a) = acct.held := held_update haheld
          have hcash : (update acct seller a buyer).cash = (acct buyer).cash := by
            by_cases hb : buyer = seller
            · subst hb
              rw [update_self, hacash]
            · rw [update_of_ne hb]
          dsimp only
          split
          · exact .of_held hheld hcash (.refused hok)
          · next hpos =>
              split
              · exact .of_held hheld hcash (.refused hok)
              · next slot b hslot =>
                  rw [hbuy] at hslot
                  obtain ⟨hb, hbfirst, hbheld, hbcash⟩ := getMyStock_spec (hok buyer) hslot
                  have hidx' : ((update (update acct seller a) buyer b) seller).First s idx := by
                    by_cases hne : seller = buyer
                    · subst hne
                      rw [update_self, getMyStock_of_first hfirst] at hslot
                      cases hslot
                      rwa [update_self]
                    · rwa [update_of_ne hne, update_self]
                  have hheld' : Accounts.held (update (update acct seller a) buyer b) = acct.held :=
                    (held_update hbheld).trans hheld
                  have hcash' : (update (update acct seller a) buyer b buyer).cash =
                      (acct buyer).cash := by
                    rw [update_self, hbcash, hcash]
                  have hnum : ((update acct seller a seller).stock idx).num =
                      acct.held s seller := by
                    rw [← hheld]
                    exact num_eq_held hok (by rwa [update_self])
                  refine .of_held hheld' hcash' (moveShares_spec (hok.update hb) hidx'
                    (by rwa [update_self]) (Int.not_le.mp hpos) ?_ ?_)
                  · rw [hheld', ← hnum]
                    exact Int.min_le_right ..
                  · rw [hcash', ← hcash]
                    refine ⟨by rw [hcash]; exact hprice.1, hprice.2, le_min ?_ ?_⟩ <;> omega

/-- The books of a stock: no share is lost, and the holders are counted. -/
structure Books (bs : BoardStock) (h : U → Int) : Prop where
  remain_nonneg : 0 ≤ bs.remainNum
  conserved : bs.remainNum + ∑ u, h u = bs.totalStockNum
  holderNum : bs.holderNum = holders h

/-- What a trade does to the sum and to the number of the users who hold shares. -/
theorem Moves.users (h : Moves pr s bs trbuy trsell acct buyer seller r) :
    (∑ u, r.acct.held s (some u)) + r.acct.held s none =
        (∑ u, acct.held s (some u)) + acct.held s none ∧
      r.bs.holderNum - holders (fun u => r.acct.held s (some u)) -
          (if 0 < r.acct.held s none then 1 else 0) =
        bs.holderNum - holders (fun u => acct.held s (some u)) -
          (if 0 < acct.held s none then 1 else 0) := by
  have hheld : r.acct.held s = pay (acct.held s) seller buyer r.num := by
    rw [h.held, update_self]
  have hsum : ∑ p, r.acct.held s p = ∑ p, acct.held s p := by
    rw [hheld, sum_pay]
  have hholders : r.bs.holderNum =
      bs.holderNum + (holders (r.acct.held s) - holders (acct.held s)) := by
    rw [h.bs_eq]
  rw [Fintype.sum_option, Fintype.sum_option] at hsum
  rw [holders_option, holders_option] at hholders
  constructor <;> omega

theorem Moves.held_of_ne (h : Moves pr s bs trbuy trsell acct buyer seller r) (hk : k ≠ s) :
    r.acct.held k = acct.held k := by
  rw [h.held, update_of_ne hk]

theorem Moves.trbuy_stockid (h : Moves pr s bs trbuy trsell acct buyer seller r) :
    r.trbuy.stockid = trbuy.stockid := by
  rw [h.trbuy_eq]

theorem Moves.trbuy_userid (h : Moves pr s bs trbuy trsell acct buyer seller r) :
    r.trbuy.userid = trbuy.userid := by
  rw [h.trbuy_eq]

theorem Moves.trsell_stockid (h : Moves pr s bs trbuy trsell acct buyer seller r) :
    r.trsell.stockid = trsell.stockid := by
  rw [h.trsell_eq]

theorem Moves.trsell_userid (h : Moves pr s bs trbuy trsell acct buyer seller r) :
    r.trsell.userid = trsell.userid := by
  rw [h.trsell_eq]

/-- A trade between users. -/
theorem Moves.books {a b : U} (h : Moves pr s bs trbuy trsell acct (some a) (some b) r)
    (hbooks : Books bs fun u => acct.held s (some u)) :
    Books r.bs fun u => r.acct.held s (some u) := by
  obtain ⟨hsum, hholders⟩ := h.users
  have hnone : r.acct.held s none = acct.held s none := by
    rw [h.held, update_self, pay_of_ne (Option.some_ne_none b).symm (Option.some_ne_none a).symm]
  have hremain : r.bs.remainNum = bs.remainNum := by rw [h.bs_eq]
  have htotal : r.bs.totalStockNum = bs.totalStockNum := by rw [h.bs_eq]
  rw [hnone] at hsum hholders
  constructor
  · rw [hremain]
    exact hbooks.remain_nonneg
  · have := hbooks.conserved
    omega
  · have := hbooks.holderNum
    omega

/-- The system sells: it holds shares before and after. -/
theorem Moves.books_sysSells {a : U} (h : Moves pr s bs trbuy trsell acct (some a) none r)
    (hnone : acct.held s none = bs.remainNum) (hbooks : Books bs fun u => acct.held s (some u))
    (hstays : 0 < r.num → r.num < bs.remainNum) :
    Books { r.bs with remainNum := r.bs.remainNum - r.num } fun u => r.acct.held s (some u) := by
  obtain ⟨hsum, hholders⟩ := h.users
  have hleft : r.acct.held s none = bs.remainNum - r.num := by
    rw [h.held, update_self, pay_giver (Option.some_ne_none a).symm, hnone]
  have hremain : r.bs.remainNum = bs.remainNum := by rw [h.bs_eq]
  have htotal : r.bs.totalStockNum = bs.totalStockNum := by rw [h.bs_eq]
  have hle := h.le_held
  have hnonneg := h.nonneg
  rw [hnone] at hsum hholders hle
  rw [hleft] at hsum hholders
  constructor
  · dsimp only
    omega
  · have := hbooks.conserved
    dsimp only
    omega
  · have := hbooks.holderNum
    dsimp only
    split at hholders <;> split at hholders <;> omega

/-- The system buys: it holds shares before. -/
theorem Moves.books_sysBuys {a : U} (h : Moves pr s bs trbuy trsell acct none (some a) r)
    (hnone : acct.held s none = bs.remainNum) (hbooks : Books bs fun u => acct.held s (some u))
    (hstays : 0 < r.num → 0 < bs.remainNum) :
    Books { r.bs with remainNum := r.bs.remainNum + r.num } fun u => r.acct.held s (some u) := by
  obtain ⟨hsum, hholders⟩ := h.users
  have hleft : r.acct.held s none = bs.remainNum + r.num := by
    rw [h.held, update_self, pay_taker (Option.some_ne_none a), hnone]
  have hremain : r.bs.remainNum = bs.remainNum := by rw [h.bs_eq]
  have htotal : r.bs.totalStockNum = bs.totalStockNum := by rw [h.bs_eq]
  have hnonneg := h.nonneg
  have hbefore := hbooks.remain_nonneg
  rw [hnone] at hsum hholders
  rw [hleft] at hsum hholders
  constructor
  · dsimp only
    omega
  · have := hbooks.conserved
    dsimp only
    omega
  · have := hbooks.holderNum
    dsimp only
    split at hholders <;> split at hholders <;> omega

end Spec

end Ytht
