import Mathlib.Algebra.Order.Floor.Ring
import Mathlib.Data.Rat.Floor
import Ytht.Lib.Tally
import Ytht.Moneycenter.Stock
import Ytht.Moneycenter.Till

/-!
# Moneycenter.Trade

The orders of the stock market, from `tradeInteractive` to the end of their lives.

An order may be executed piece by piece: against several orders of a waiting list, then by
the system, then from the waiting list by the orders of others.  Each piece is one call of
`tradeArithmetic`, which looks at the limits, the cash and the shares once more.  It does
not look at what becomes of the seller's cash, which may no longer be an `int`
(`Call.Fits`).
-/

namespace Ytht

open Bytes Function Ledger Runs Tally

variable {U F G : Type}

/-! ## Prices -/

/-- The price of an order with the number of the order, which the trades do not look at. -/
structure Offer where
  price : ℚ
  serial : Nat
  deriving DecidableEq

/-- What a rational number becomes in an `int`. -/
def truncRat (q : ℚ) : Int := truncInt (if 0 ≤ q then ⌊q⌋ else -⌊-q⌋)

/-- Prices that are exact. -/
def exactPrices : Prices ℚ where
  below p q := p < q
  cashBelow cash price := (cash : ℚ) < price
  cashBelowCost cash num price := (cash : ℚ) < num * price
  canBuy cash price := if price = 0 then -2 ^ 31 else truncRat (cash / price)
  cost num price := truncRat (num * price)
  credited cash money := truncRat (cash + 999 / 1000 * money)

/-- Prices that carry something else. -/
def Prices.comap (pr : Prices F) (f : G → F) : Prices G where
  below p q := pr.below (f p) (f q)
  cashBelow cash price := pr.cashBelow cash (f price)
  cashBelowCost cash num price := pr.cashBelowCost cash num (f price)
  canBuy cash price := pr.canBuy cash (f price)
  cost num price := pr.cost num (f price)
  credited := pr.credited

def offerPrices : Prices Offer := exactPrices.comap Offer.price

/-! ## Prices that carry something -/

section Carried

open Market

variable [DecidableEq U] {pr : Prices G} (f : F → G)

def TradeRecord.map (tr : TradeRecord U F) : TradeRecord U G :=
  ⟨tr.userid, tr.stockid, tr.tradeType, f tr.price, tr.num⟩

def Traded.map (r : Traded U F) : Traded U G :=
  ⟨r.bs, r.trbuy.map f, r.trsell.map f, r.acct, r.num⟩

def Market.Deal.map (d : Deal U F) : Deal U G := ⟨d.bs, d.mytr.map f, d.acct⟩

def Market.TradeInput.map (input : TradeInput U F) : TradeInput U G :=
  ⟨input.user, input.tradeType, input.inputNum, f input.inputPrice, f input.sysPrice, input.loads⟩

def Market.map (m : Market U F) : Market U G :=
  ⟨m.stocks, fun type s => (m.queue type s).map (TradeRecord.map f), m.users⟩

theorem tradeArithmetic_map (bs : BoardStock) (trbuy trsell : TradeRecord U F) (acct : Accounts U)
    (buyer seller : Option U) :
    (tradeArithmetic (pr.comap f) bs trbuy trsell acct buyer seller).map f =
      tradeArithmetic pr bs (trbuy.map f) (trsell.map f) acct buyer seller := by
  have hsell : (trsell.map f).stockid = trsell.stockid := rfl
  have hbuy : (trbuy.map f).stockid = trbuy.stockid := rfl
  rw [tradeArithmetic, tradeArithmetic, hsell, hbuy]
  split
  · next hrefused => exact (if_pos hrefused).symm
  · next hprice =>
    refine Eq.trans ?_ (if_neg hprice).symm
    cases getMyStock (acct seller) trsell.stockid with
    | mk idx a =>
        cases idx with
        | none => rfl
        | some idx =>
            dsimp only
            split
            · next hnone => exact (if_pos hnone).symm
            · next hsome =>
              refine Eq.trans ?_ (if_neg hsome).symm
              cases getMyStock (update acct seller a buyer) trbuy.stockid with
              | mk slot b => cases slot <;> rfl

theorem tradeRecord_map (loads : U → Bool) (d : Deal U F) (utr : TradeRecord U F) :
    ((tradeRecord (pr.comap f) loads d utr).1.map f,
        (tradeRecord (pr.comap f) loads d utr).2.map f) =
      tradeRecord pr loads (d.map f) (utr.map f) := by
  have huser : (utr.map f).userid = utr.userid := rfl
  have htype : (d.map f).mytr.tradeType = d.mytr.tradeType := rfl
  rw [tradeRecord, tradeRecord, huser, htype]
  cases utr.userid with
  | none => rfl
  | some u =>
      dsimp only
      split
      · next hskip => exact (if_pos hskip).symm
      · next htrade =>
        refine Eq.trans ?_ (if_neg htrade).symm
        cases d.mytr.tradeType with
        | buy =>
            have harith : _ = tradeArithmetic pr (d.map f).bs (d.map f).mytr (utr.map f)
              (d.map f).acct (d.map f).mytr.userid (some u) :=
                tradeArithmetic_map f d.bs d.mytr utr d.acct _ _
            dsimp only
            rw [← harith]
            rfl
        | sell =>
            have harith : _ = tradeArithmetic pr (d.map f).bs (utr.map f) (d.map f).mytr
              (d.map f).acct (some u) (d.map f).mytr.userid :=
                tradeArithmetic_map f d.bs utr d.mytr d.acct _ _
            dsimp only
            rw [← harith]
            rfl

theorem tradeWithUser_map (loads : U → Bool) (list : List (TradeRecord U F)) (d : Deal U F) :
    ((tradeWithUser (pr.comap f) loads d list).1.map f,
        (tradeWithUser (pr.comap f) loads d list).2.map (TradeRecord.map f)) =
      tradeWithUser pr loads (d.map f) (list.map (TradeRecord.map f)) := by
  induction list generalizing d with
  | nil => rfl
  | cons utr list ih =>
      have hnum : (d.map f).mytr.num = d.mytr.num := rfl
      rw [tradeWithUser, List.map_cons, tradeWithUser, hnum]
      split
      · rfl
      · rw [← tradeRecord_map]
        dsimp only
        rw [← ih]
        rfl

omit [DecidableEq U] in
theorem sysPriceFor_map (d : Deal U F) (sysPrice : F) :
    f (sysPriceFor (pr.comap f) d sysPrice) = sysPriceFor pr (d.map f) (f sysPrice) := by
  have htype : (d.map f).mytr.tradeType = d.mytr.tradeType := rfl
  rw [sysPriceFor, sysPriceFor, htype]
  cases d.mytr.tradeType <;> exact apply_ite f ..

omit [DecidableEq U] in
theorem sysOrder_map (d : Deal U F) (sysPrice : F) :
    (sysOrder (pr.comap f) d sysPrice).map f = sysOrder pr (d.map f) (f sysPrice) := by
  have hprice := @sysPriceFor_map U F G pr f d sysPrice
  rw [TradeRecord.map, sysOrder, hprice]
  rfl

theorem tradeWithSys_map (d : Deal U F) (sysPrice : F) :
    (tradeWithSys (pr.comap f) d sysPrice).map f = tradeWithSys pr (d.map f) (f sysPrice) := by
  have hnum : (d.map f).mytr.num = d.mytr.num := rfl
  have htype : (d.map f).mytr.tradeType = d.mytr.tradeType := rfl
  rw [tradeWithSys, tradeWithSys, hnum, htype]
  split
  · rfl
  · rw [← sysOrder_map]
    cases d.mytr.tradeType with
    | buy =>
        have harith : _ = tradeArithmetic pr (d.map f).bs (d.map f).mytr
          ((sysOrder (pr.comap f) d sysPrice).map f)
          (update (d.map f).acct none (sysTrader (d.map f).mytr.stockid (d.map f).bs.remainNum))
          (d.map f).mytr.userid none :=
                      tradeArithmetic_map f d.bs d.mytr (sysOrder (pr.comap f) d sysPrice) _ _ _
        dsimp only
        rw [← harith]
        rfl
    | sell =>
        have harith : _ = tradeArithmetic pr (d.map f).bs
          ((sysOrder (pr.comap f) d sysPrice).map f) (d.map f).mytr
          (update (d.map f).acct none (sysTrader (d.map f).mytr.stockid (d.map f).bs.remainNum))
          none (d.map f).mytr.userid :=
                      tradeArithmetic_map f d.bs (sysOrder (pr.comap f) d sysPrice) d.mytr _ _ _
        dsimp only
        rw [← harith]
        rfl

theorem orderPlace_map (list : List (TradeRecord U F)) (mytr : TradeRecord U F) :
    orderPlace (list.map (TradeRecord.map f)) (mytr.map f) = orderPlace list mytr := by
  rw [orderPlace, orderPlace, List.findIdx?_map, List.findIdx?_map]
  rfl

theorem addToWaitingList_map (list : List (TradeRecord U F)) (mytr : TradeRecord U F) :
    (addToWaitingList list mytr).map (TradeRecord.map f) =
      addToWaitingList (list.map (TradeRecord.map f)) (mytr.map f) := by
  rw [addToWaitingList, addToWaitingList, List.length_map, orderPlace_map]
  split
  · rfl
  · split
    · exact List.map_set
    · exact List.map_append

omit [DecidableEq U] in
theorem setQueue_map (m : Market U F) (type : TradeType) (s : Nat)
    (list : List (TradeRecord U F)) :
    (m.setQueue type s list).map f =
      (m.map f).setQueue type s (list.map (TradeRecord.map f)) := by
  rw [Market.map, setQueue, setQueue]
  congr 1
  funext type' s'
  by_cases htype : type' = type
  · subst htype
    by_cases hs : s' = s
    · subst hs
      simp
    · simp [hs, Market.map]
  · simp [htype, Market.map]

theorem doTrade_map (m : Market U F) (bs : BoardStock) (stockid : Nat) (input : TradeInput U F) :
    (m.doTrade (pr.comap f) bs stockid input).map f =
      (m.map f).doTrade pr bs stockid (input.map f) := by
  have huser : _ = (m.map f).userDeal pr bs stockid (input.map f) :=
    tradeWithUser_map f input.loads (m.queue input.tradeType.other stockid)
      ⟨bs, order stockid input, partyAccounts m.users⟩
  have hlist : ((m.map f).userDeal pr bs stockid (input.map f)).2 =
      (m.userDeal (pr.comap f) bs stockid input).2.map (TradeRecord.map f) :=
    (congrArg Prod.snd huser).symm
  have hsys : tradeWithSys pr ((m.map f).userDeal pr bs stockid (input.map f)).1
      (input.map f).sysPrice =
        (tradeWithSys (pr.comap f) (m.userDeal (pr.comap f) bs stockid input).1
          input.sysPrice).map f := by
    rw [← huser]
    exact (tradeWithSys_map f ..).symm
  rw [doTrade, doTrade, hsys, hlist]
  split
  · next hqueue =>
    refine Eq.trans ?_ (if_pos hqueue).symm
    have hqueue : ∀ (m : Market U F) (type : TradeType) (s : Nat),
        (m.queue type s).map (TradeRecord.map f) = (m.map f).queue type s := fun _ _ _ => rfl
    rw [setQueue_map, addToWaitingList_map, hqueue, setQueue_map]
    rfl
  · next hdone =>
    refine Eq.trans ?_ (if_neg hdone).symm
    rw [setQueue_map]
    rfl

theorem tradeInteractive_map (m : Market U F) (bs : BoardStock) (stockid : Nat)
    (input : TradeInput U F) :
    (m.tradeInteractive (pr.comap f) bs stockid input).map f =
      (m.map f).tradeInteractive pr bs stockid (input.map f) := by
  rw [tradeInteractive, tradeInteractive]
  split
  · next hmay => exact (doTrade_map f ..).trans (if_pos hmay).symm
  · next hmay => exact (if_neg hmay).symm

end Carried
/-! ## Calls -/

/-- A call of `tradeArithmetic`. -/
structure Call (U : Type) where
  bs : BoardStock
  trbuy : TradeRecord U Offer
  trsell : TradeRecord U Offer
  acct : Accounts U
  buyer : Option U
  seller : Option U

section Calls

variable [DecidableEq U]

def Call.result (c : Call U) : Traded U Offer :=
  tradeArithmetic offerPrices c.bs c.trbuy c.trsell c.acct c.buyer c.seller

end Calls

/-! ## The cash of the parties -/

section Cash

variable [DecidableEq U] {pr : Prices F} {acct : Accounts U} {bs : BoardStock}
  {trbuy trsell : TradeRecord U F} {buyer seller p : Option U} {s : Nat} {i : Fin STOCK_NUM}
  {n : Int}

/-- How many shares the orders, the cash of the buyer and the shares of the seller allow. -/
def tradable (pr : Prices F) (trbuy trsell : TradeRecord U F) (cash held : Int) : Int :=
  min (min (min trbuy.num trsell.num) (pr.canBuy cash trsell.price)) held

/-- The buyer pays, and then the seller gets his part. -/
def paidCash (pr : Prices F) (cash : Option U → Int) (buyer seller : Option U) (num : Int)
    (price : F) : Option U → Int :=
  let money := pr.cost num price
  let paid := update cash buyer (toInt (cash buyer - money))
  update paid seller (pr.credited (paid seller) money)

def Accounts.cash (acct : Accounts U) (p : Option U) : Int := (acct p).cash

theorem cash_setNum : (acct.setNum p i n).cash = acct.cash := by
  funext q
  rw [Accounts.cash, Accounts.setNum]
  by_cases hq : q = p
  · subst hq
    rw [update_self]
    rfl
  · rw [update_of_ne hq]
    rfl

theorem cash_setCash : (acct.setCash p n).cash = update acct.cash p n := by
  funext q
  rw [Accounts.cash, Accounts.setCash]
  by_cases hq : q = p
  · subst hq
    rw [update_self, update_self]
  · rw [update_of_ne hq, update_of_ne hq]
    rfl

theorem cash_update {a : McUserInfo} (ha : a.cash = (acct p).cash) :
    Accounts.cash (update acct p a) = acct.cash := by
  funext q
  rw [Accounts.cash]
  by_cases hq : q = p
  · subst hq
    rw [update_self, ha]
    rfl
  · rw [update_of_ne hq]
    rfl

theorem moveShares_cash {idx slot : Fin STOCK_NUM} :
    (moveShares pr bs trbuy trsell acct buyer seller idx slot n).acct.cash =
      paidCash pr acct.cash buyer seller n trsell.price := by
  have hcash : ∀ a : Accounts U, (a seller).cash = a.cash seller := fun _ => rfl
  simp only [moveShares, hcash, cash_setCash, cash_setNum]
  rfl

theorem update_paid {cash : Option U → Int} {money part total : Int}
    (h : seller = p → total = update cash buyer (cash buyer - money) p + part) :
    update (update cash buyer (cash buyer - money)) seller total p =
      cash p - (if buyer = p then money else 0) + if seller = p then part else 0 := by
  have hpaid : update cash buyer (cash buyer - money) p =
      cash p - if buyer = p then money else 0 := by
    by_cases hbuyer : buyer = p
    · rw [hbuyer, update_self, if_pos rfl]
    · rw [update_of_ne (Ne.symm hbuyer), if_neg hbuyer, Int.sub_zero]
  by_cases hseller : seller = p
  · rw [h hseller, hpaid, hseller, update_self, if_pos rfl]
  · rw [update_of_ne (Ne.symm hseller), hpaid, if_neg hseller, Int.add_zero]

/-- What a call does to the cash, and how many shares it moves if any. -/
structure Pays (pr : Prices F) (s : Nat) (trbuy trsell : TradeRecord U F) (acct : Accounts U)
    (buyer seller : Option U) (r : Traded U F) : Prop where
  slot : 0 < r.num → (getMyStock (acct buyer) s).1 ≠ none
  num : 0 < r.num → r.num = tradable pr trbuy trsell (acct buyer).cash (acct.held s seller)
  cash : r.acct.cash = if r.num = 0 then acct.cash
    else paidCash pr acct.cash buyer seller r.num trsell.price

theorem Pays.refused {acct' : Accounts U} (h : acct'.cash = acct.cash) :
    Pays pr s trbuy trsell acct buyer seller ⟨bs, trbuy, trsell, acct', 0⟩ where
  slot hpos := absurd hpos (lt_irrefl 0)
  num hpos := absurd hpos (lt_irrefl 0)
  cash := by rw [if_pos rfl, h]

theorem tradeArithmetic_pays (h : acct.Ok) (hbuy : trbuy.stockid = s) (hsell : trsell.stockid = s) :
    Pays pr s trbuy trsell acct buyer seller
      (tradeArithmetic pr bs trbuy trsell acct buyer seller) := by
  rw [tradeArithmetic]
  split
  · exact .refused rfl
  · split
    · exact .refused rfl
    · next idx a hidx =>
        rw [hsell] at hidx
        obtain ⟨ha, hfirst, haheld, hacash⟩ := getMyStock_spec (h seller) hidx
        have hok : Accounts.Ok (update acct seller a) := h.update ha
        have hheld : Accounts.held (update acct seller a) = acct.held := Accounts.held_update haheld
        have hcash : Accounts.cash (update acct seller a) = acct.cash := cash_update hacash
        have hnum : ((update acct seller a seller).stock idx).num = acct.held s seller := by
          rw [← hheld]
          exact Accounts.num_eq_held hok (by rwa [update_self])
        have hbuyer : (update acct seller a buyer).cash = (acct buyer).cash := congrFun hcash buyer
        dsimp only
        rw [hnum, hbuyer]
        split
        · exact .refused hcash
        · next hpos =>
            split
            · exact .refused hcash
            · next slot b hslot =>
                rw [hbuy] at hslot
                obtain ⟨-, -, -, hbcash⟩ := getMyStock_spec (hok buyer) hslot
                have hcash' : Accounts.cash (update (update acct seller a) buyer b) = acct.cash :=
                  (cash_update hbcash).trans hcash
                refine ⟨fun _ => ?_, fun _ => rfl, ?_⟩
                · by_cases hself : buyer = seller
                  · rw [hself, hidx]
                    exact Option.some_ne_none _
                  · rw [update_of_ne hself] at hslot
                    rw [hslot]
                    exact Option.some_ne_none _
                · rw [moveShares_cash, hcash', if_neg]
                  · rfl
                  · show tradable pr trbuy trsell (acct buyer).cash (acct.held s seller) ≠ 0
                    unfold tradable
                    omega

end Cash

/-! ## Exact amounts -/

section Exact

variable {q price : ℚ} {cash money num : Int}

theorem truncRat_of_nonneg (hq : 0 ≤ q) (hlt : q < 2 ^ 31) : truncRat q = ⌊q⌋ := by
  have hfloor : 0 ≤ ⌊q⌋ := Int.floor_nonneg.mpr hq
  have hfloorLt : ⌊q⌋ < 2 ^ 31 := Int.floor_lt.mpr (by exact_mod_cast hlt)
  rw [truncRat, if_pos hq, truncInt, if_pos ⟨by omega, hfloorLt⟩]

theorem le_of_le_truncRat (hnum : 0 < num) (h : num ≤ truncRat q) : (num : ℚ) ≤ q := by
  rw [truncRat, truncInt] at h
  rcases le_or_gt 0 q with hq | hq
  · rw [if_pos hq] at h
    split at h
    · exact Int.le_floor.mp h
    · omega
  · have hfloor : 0 ≤ ⌊-q⌋ := Int.floor_nonneg.mpr (by linarith)
    rw [if_neg (not_le.mpr hq)] at h
    split at h <;> omega

/-- Who can buy shares can pay for them. -/
theorem mul_le_of_canBuy (hcash : 0 ≤ cash) (hnum : 0 < num)
    (hcan : num ≤ exactPrices.canBuy cash price) : 0 < price ∧ num * price ≤ (cash : ℚ) := by
  have hcan' : num ≤ if price = 0 then -2 ^ 31 else truncRat (cash / price) := hcan
  split at hcan'
  · omega
  · have hle := le_of_le_truncRat hnum hcan'
    have hnum' : (0 : ℚ) < num := by exact_mod_cast hnum
    have hcash' : (0 : ℚ) ≤ cash := by exact_mod_cast hcash
    have hpos : 0 < price := by
      by_contra hneg
      have hquot : (cash : ℚ) / price ≤ 0 := div_nonpos_of_nonneg_of_nonpos hcash' (not_lt.mp hneg)
      linarith
    exact ⟨hpos, (le_div_iff₀ hpos).mp hle⟩

/-- What the shares cost is no more than the cash. -/
theorem cost_eq (hnum : 0 < num) (hprice : 0 < price) (hle : num * price ≤ (cash : ℚ))
    (hlt : cash < 2 ^ 31) :
    exactPrices.cost num price = ⌊num * price⌋ ∧ 0 ≤ ⌊num * price⌋ ∧ ⌊num * price⌋ ≤ cash := by
  have hnum' : (0 : ℚ) < num := by exact_mod_cast hnum
  have hlt' : (cash : ℚ) < 2 ^ 31 := by exact_mod_cast hlt
  have hpos : 0 ≤ num * price := (mul_pos hnum' hprice).le
  refine ⟨truncRat_of_nonneg hpos (lt_of_le_of_lt hle hlt'), Int.floor_nonneg.mpr hpos, ?_⟩
  exact_mod_cast (Int.floor_le (num * price)).trans hle

/-- The seller's part. -/
def proceeds (money : Int) : Int := ⌊(999 / 1000 : ℚ) * money⌋

theorem proceeds_nonneg (hmoney : 0 ≤ money) : 0 ≤ proceeds money := by
  have hmoney' : (0 : ℚ) ≤ money := by exact_mod_cast hmoney
  exact Int.floor_nonneg.mpr (by positivity)

theorem proceeds_le (hmoney : 0 ≤ money) : proceeds money ≤ money := by
  have hmoney' : (0 : ℚ) ≤ money := by exact_mod_cast hmoney
  have hle : (999 / 1000 : ℚ) * money ≤ money := by linarith
  exact_mod_cast (Int.floor_le _).trans hle

theorem credited_eq (hcash : 0 ≤ cash) (hmoney : 0 ≤ money)
    (hfits : cash + proceeds money < 2 ^ 31) :
    exactPrices.credited cash money = cash + proceeds money := by
  have hcash' : (0 : ℚ) ≤ cash := by exact_mod_cast hcash
  have hmoney' : (0 : ℚ) ≤ money := by exact_mod_cast hmoney
  have hfloor : ⌊(cash : ℚ) + 999 / 1000 * money⌋ = cash + proceeds money :=
    Int.floor_intCast_add ..
  have hlt : (cash : ℚ) + 999 / 1000 * money < 2 ^ 31 := by
    have hnext : (cash : ℚ) + 999 / 1000 * money < ((cash + proceeds money + 1 : Int) : ℚ) := by
      rw [← hfloor]
      exact_mod_cast Int.lt_floor_add_one ((cash : ℚ) + 999 / 1000 * money)
    have hbound : ((cash + proceeds money + 1 : Int) : ℚ) ≤ 2 ^ 31 := by exact_mod_cast hfits
    linarith
  rw [← hfloor]
  exact truncRat_of_nonneg (by positivity) hlt

end Exact

/-! ## What a trade does -/

namespace Call

variable [DecidableEq U] (c : Call U)

/-- The stock. -/
def stockid : Nat := c.trsell.stockid

/-- The limit of the seller, at which both sides settle. -/
def price : ℚ := c.trsell.price.price

/-- What the buyer pays. -/
def money : Int := ⌊c.result.num * c.price⌋

/-- The trade keeps to the limits and to what the parties have, and they settle. -/
structure Settled : Prop where
  limit : c.price ≤ c.trbuy.price.price
  le_buy : c.result.num ≤ c.trbuy.num
  le_sell : c.result.num ≤ c.trsell.num
  le_held : c.result.num ≤ c.acct.held c.stockid c.seller
  shares : c.result.acct.held c.stockid =
    pay (c.acct.held c.stockid) c.seller c.buyer c.result.num
  cash : ∀ u, c.result.acct.cash (some u) = c.acct.cash (some u) -
    (if c.buyer = some u then c.money else 0) + if c.seller = some u then proceeds c.money else 0

/-- How many shares can change hands. -/
def shares : Int :=
  tradable offerPrices c.trbuy c.trsell (c.acct.cash c.buyer) (c.acct.held c.stockid c.seller)

/-- There is a trade. -/
def Deals : Prop :=
  0 < c.shares ∧ c.price ≤ c.trbuy.price.price ∧ c.price ≤ c.acct.cash c.buyer ∧
    (getMyStock (c.acct c.buyer) c.stockid).1 ≠ none

instance : Decidable c.Deals := inferInstanceAs (Decidable (_ ∧ _ ∧ _ ∧ _))

/-- What the buyer comes to hold and what the user who sells comes to have are `int`s; the
shares are numbers of any size here, and stay below this bound. -/
def Fits : Prop :=
  c.Deals → c.buyer ≠ c.seller →
    c.acct.held c.stockid c.buyer + c.shares < 2 ^ 31 ∧
      (c.seller ≠ none → c.acct.cash c.seller + proceeds ⌊c.shares * c.price⌋ < 2 ^ 31)

instance : Decidable c.Fits := inferInstanceAs (Decidable (_ → _ → _ ∧ _))

end Call

/-- The accounts are in order, what a party holds is an `int`, and so is the cash of a user,
who has no debts. -/
structure Accounts.Solvent (acct : Accounts U) : Prop where
  ok : acct.Ok
  cash : ∀ u, 0 ≤ acct.cash (some u) ∧ acct.cash (some u) < 2 ^ 31
  held_lt : ∀ s p, acct.held s p < 2 ^ 31

namespace Call

variable [DecidableEq U] [Fintype U] {c : Call U}

theorem moves (h : c.acct.Ok) (hstock : c.trbuy.stockid = c.stockid) :
    Moves offerPrices c.stockid c.bs c.trbuy c.trsell c.acct c.buyer c.seller c.result :=
  tradeArithmetic_spec h hstock rfl

theorem remainNum_eq (h : c.acct.Ok) (hstock : c.trbuy.stockid = c.stockid) :
    c.result.bs.remainNum = c.bs.remainNum := by
  rw [(moves h hstock).bs_eq]

omit [Fintype U] in
theorem pays (h : c.acct.Ok) (hstock : c.trbuy.stockid = c.stockid) :
    Pays offerPrices c.stockid c.trbuy c.trsell c.acct c.buyer c.seller c.result :=
  tradeArithmetic_pays h hstock rfl

theorem deals (h : c.acct.Ok) (hstock : c.trbuy.stockid = c.stockid) (hpos : 0 < c.result.num) :
    c.Deals ∧ c.result.num = c.shares := by
  have hpays := pays h hstock
  obtain ⟨hcash, hlimit, -⟩ := (moves h hstock).priced hpos
  have hnum : c.result.num = c.shares := hpays.num hpos
  refine ⟨⟨hnum ▸ hpos, ?_, ?_, hpays.slot hpos⟩, hnum⟩
  · exact not_lt.mp (of_decide_eq_false hlimit)
  · exact not_lt.mp (of_decide_eq_false hcash)

/-- The seller's part fits, also when he sells to himself. -/
theorem part_fits (h : c.acct.Solvent) (hstock : c.trbuy.stockid = c.stockid) (hfits : c.Fits)
    (hpos : 0 < c.result.num) (hmoney : 0 ≤ c.money) {u : U} (hseller : c.seller = some u) :
    update c.acct.cash c.buyer (c.acct.cash c.buyer - c.money) c.seller + proceeds c.money <
      2 ^ 31 := by
  obtain ⟨hdeals, hshares⟩ := deals h.ok hstock hpos
  have hpart := proceeds_le hmoney
  by_cases hself : c.buyer = c.seller
  · have hlt := (h.cash u).2
    rw [hself, update_self, hseller]
    omega
  · have hlt := (hfits hdeals hself).2 (hseller ▸ Option.some_ne_none u)
    rw [update_of_ne (Ne.symm hself)]
    rw [← hshares] at hlt
    exact hlt

/-- The cash of the users after a trade that fits. -/
theorem cash_settled (h : c.acct.Solvent) (hstock : c.trbuy.stockid = c.stockid)
    (hbuyer : 0 ≤ c.acct.cash c.buyer ∧ c.acct.cash c.buyer < 2 ^ 31) (hfits : c.Fits)
    (hpos : 0 < c.result.num) :
    0 ≤ c.money ∧ c.money ≤ c.acct.cash c.buyer ∧
      ∀ u, c.result.acct.cash (some u) = c.acct.cash (some u) -
        (if c.buyer = some u then c.money else 0) +
        if c.seller = some u then proceeds c.money else 0 := by
  obtain ⟨-, -, hcan⟩ := (moves h.ok hstock).priced hpos
  have hcan' : c.result.num ≤ exactPrices.canBuy (c.acct.cash c.buyer) c.price :=
    hcan.trans (min_le_right _ _)
  obtain ⟨hprice, hle⟩ := mul_le_of_canBuy hbuyer.1 hpos hcan'
  obtain ⟨hcost, hmoney, hmoneyLe⟩ := cost_eq hpos hprice hle hbuyer.2
  change exactPrices.cost c.result.num c.price = c.money at hcost
  change 0 ≤ c.money at hmoney
  change c.money ≤ c.acct.cash c.buyer at hmoneyLe
  refine ⟨hmoney, hmoneyLe, fun u => ?_⟩
  have hcash : c.result.acct.cash =
      paidCash offerPrices c.acct.cash c.buyer c.seller c.result.num c.trsell.price := by
    rw [(pays h.ok hstock).cash, if_neg (by omega)]
  have hleft : toInt (c.acct.cash c.buyer - c.money) = c.acct.cash c.buyer - c.money :=
    toInt_of_range (by omega) (by omega)
  have hpaid : c.result.acct.cash =
      update (update c.acct.cash c.buyer (c.acct.cash c.buyer - c.money)) c.seller
        (exactPrices.credited (update c.acct.cash c.buyer (c.acct.cash c.buyer - c.money) c.seller)
          c.money) := by
    rw [hcash, ← hleft, ← hcost]
    rfl
  rw [hpaid]
  refine update_paid fun hseller => ?_
  have hnonneg : 0 ≤ update c.acct.cash c.buyer (c.acct.cash c.buyer - c.money) c.seller := by
    by_cases hself : c.seller = c.buyer
    · rw [hself, update_self]
      omega
    · rw [update_of_ne hself, hseller]
      exact (h.cash u).1
  rw [credited_eq hnonneg hmoney (part_fits h hstock hfits hpos hmoney hseller), hseller]

/-- What the parties hold after a trade that fits. -/
theorem held_settled (h : c.acct.Solvent) (hstock : c.trbuy.stockid = c.stockid)
    (hfits : c.Fits) (s : Nat) (p : Option U) : c.result.acct.held s p < 2 ^ 31 := by
  have hmoves := moves h.ok hstock
  have hnonneg := hmoves.nonneg
  have hlt := h.held_lt s p
  by_cases hs : s = c.stockid
  · subst hs
    rw [hmoves.held, update_self]
    by_cases hself : c.buyer = c.seller
    · rw [hself, pay_self]
      exact hlt
    · by_cases hp : p = c.buyer
      · rw [hp, pay_taker (Ne.symm hself)]
        rcases Int.lt_or_eq_of_le hnonneg with hpos | hzero
        · obtain ⟨hdeals, hshares⟩ := deals h.ok hstock hpos
          rw [hshares]
          exact (hfits hdeals hself).1
        · have hbuyer := h.held_lt c.stockid c.buyer
          omega
      · by_cases hgiver : p = c.seller
        · rw [hgiver, pay_giver (Ne.symm hself)]
          have hseller := h.held_lt c.stockid c.seller
          omega
        · rw [pay_of_ne hgiver hp]
          exact hlt
  · rw [hmoves.held_of_ne hs]
    exact hlt

theorem settled (h : c.acct.Solvent) (hstock : c.trbuy.stockid = c.stockid)
    (hbuyer : 0 ≤ c.acct.cash c.buyer ∧ c.acct.cash c.buyer < 2 ^ 31) (hfits : c.Fits)
    (hpos : 0 < c.result.num) : c.Settled := by
  have hmoves := moves h.ok hstock
  obtain ⟨hdeals, hshares⟩ := deals h.ok hstock hpos
  have hle : c.result.num ≤ min c.trbuy.num c.trsell.num := by
    rw [hshares]
    exact (min_le_left _ _).trans (min_le_left _ _)
  exact {
    limit := hdeals.2.1
    le_buy := hle.trans (min_le_left _ _)
    le_sell := hle.trans (min_le_right _ _)
    le_held := hmoves.le_held
    shares := by rw [hmoves.held, update_self]
    cash := (cash_settled h hstock hbuyer hfits hpos).2.2 }

/-- **One call** that fits leaves everybody solvent. -/
theorem solvent (h : c.acct.Solvent) (hstock : c.trbuy.stockid = c.stockid)
    (hbuyer : 0 ≤ c.acct.cash c.buyer ∧ c.acct.cash c.buyer < 2 ^ 31) (hfits : c.Fits) :
    c.result.acct.Solvent := by
  have hmoves := moves h.ok hstock
  refine ⟨hmoves.ok, fun u => ?_, held_settled h hstock hfits⟩
  have hcash := h.cash u
  rcases Int.lt_or_eq_of_le hmoves.nonneg with hpos | hzero
  · obtain ⟨hmoney, hle, hall⟩ := cash_settled h hstock hbuyer hfits hpos
    have hnonneg := proceeds_nonneg hmoney
    have hpart := proceeds_le hmoney
    rw [hall u]
    by_cases hpays : c.buyer = some u
    · rw [hpays] at hle
      rw [if_pos hpays]
      split <;> omega
    · rw [if_neg hpays]
      split
      · next hsells =>
        have hlt := part_fits h hstock hfits hpos hmoney hsells
        rw [hsells, update_of_ne (Ne.symm hpays)] at hlt
        omega
      · omega
  · rw [(pays h.ok hstock).cash, if_pos hzero.symm]
    exact hcash

end Call

/-! ## The calls of an order -/

section Orders

open Market

variable [DecidableEq U]

/-- The call for one record of the waiting list. -/
def recordCall (loads : U → Bool) (d : Deal U Offer) (utr : TradeRecord U Offer) :
    Option (Call U) :=
  match utr.userid with
  | none => none
  | some u =>
      if utr.num ≤ 0 ∨ loads u = false then none
      else
        match d.mytr.tradeType with
        | .buy => some ⟨d.bs, d.mytr, utr, d.acct, d.mytr.userid, some u⟩
        | .sell => some ⟨d.bs, utr, d.mytr, d.acct, some u, d.mytr.userid⟩

/-- The calls of `tradeWithUser`. -/
def userCalls (loads : U → Bool) (d : Deal U Offer) : List (TradeRecord U Offer) → List (Call U)
  | [] => []
  | utr :: list =>
      if d.mytr.num ≤ 0 then []
      else
        (recordCall loads d utr).toList ++
          userCalls loads (tradeRecord offerPrices loads d utr).1 list

/-- The call of `tradeWithSys`. -/
def sysCall (d : Deal U Offer) (sysPrice : Offer) : Option (Call U) :=
  if d.mytr.num ≤ 0 then none
  else
    let systr := sysOrder offerPrices d sysPrice
    let acct := update d.acct none (sysTrader d.mytr.stockid d.bs.remainNum)
    match d.mytr.tradeType with
    | .buy => some ⟨d.bs, d.mytr, systr, acct, d.mytr.userid, none⟩
    | .sell => some ⟨d.bs, systr, d.mytr, acct, none, d.mytr.userid⟩

/-- An order of a user is executed. -/
def fill (tr : TradeRecord U Offer) (num : Int) : List (Int × Int) :=
  if tr.userid.isSome then [((tr.price.serial : Int), num)] else []

/-- The orders that a call executes; the system has none. -/
def Call.fills (c : Call U) : List (Int × Int) :=
  fill c.trbuy c.result.num ++ fill c.trsell c.result.num

def fills (calls : List (Call U)) : List (Int × Int) := calls.flatMap Call.fills

/-- How much of an order the calls have executed. -/
def executed (calls : List (Call U)) (serial : Nat) : Int := net (fills calls) serial

theorem fills_append (calls more : List (Call U)) :
    fills (calls ++ more) = fills calls ++ fills more := List.flatMap_append ..

theorem fills_singleton (c : Call U) : fills [c] = c.fills := List.flatMap_singleton ..

/-- What a call makes of the order `mytr` and of a record of the waiting list. -/
structure CallOf (d : Deal U Offer) (utr : TradeRecord U Offer) (c : Call U)
    (r : Deal U Offer × TradeRecord U Offer) : Prop where
  acct : c.acct = d.acct
  buyer : c.buyer ≠ none
  stockid : d.mytr.stockid = utr.stockid → c.trbuy.stockid = c.stockid ∧ c.stockid = utr.stockid
  le : c.Settled → c.result.num ≤ d.mytr.num ∧ c.result.num ≤ utr.num
  after : d.acct.Ok → d.mytr.stockid = utr.stockid →
    r.1.bs.remainNum = d.bs.remainNum ∧ r.1.acct = c.result.acct ∧
      r.1.mytr = { d.mytr with num := d.mytr.num - c.result.num } ∧
      r.2 = { utr with num := utr.num - c.result.num }
  fills : c.fills = fill d.mytr c.result.num ++ fill utr c.result.num ∨
    c.fills = fill utr c.result.num ++ fill d.mytr c.result.num

theorem recordCall_none {loads : U → Bool} {d : Deal U Offer} {utr : TradeRecord U Offer}
    (h : recordCall loads d utr = none) : tradeRecord offerPrices loads d utr = (d, utr) := by
  rw [recordCall] at h
  rw [tradeRecord]
  cases huser : utr.userid with
  | none => rfl
  | some u =>
      rw [huser] at h
      dsimp only at h ⊢
      by_cases hskip : utr.num ≤ 0 ∨ loads u = false
      · rw [if_pos hskip]
      · rw [if_neg hskip] at h
        cases htype : d.mytr.tradeType with
        | buy =>
            rw [htype] at h
            contradiction
        | sell =>
            rw [htype] at h
            contradiction

theorem recordCall_some [Fintype U] {loads : U → Bool} {d : Deal U Offer}
    {utr : TradeRecord U Offer} {c : Call U} (hmytr : d.mytr.userid ≠ none)
    (h : recordCall loads d utr = some c) :
    CallOf d utr c (tradeRecord offerPrices loads d utr) := by
  rw [recordCall] at h
  rw [tradeRecord]
  cases huser : utr.userid with
  | none =>
      rw [huser] at h
      contradiction
  | some u =>
      rw [huser] at h
      dsimp only at h ⊢
      by_cases hskip : utr.num ≤ 0 ∨ loads u = false
      · rw [if_pos hskip] at h
        contradiction
      · rw [if_neg hskip] at h ⊢
        cases htype : d.mytr.tradeType with
        | buy =>
            rw [htype] at h
            cases h
            refine ⟨rfl, hmytr, fun hs => ⟨hs, rfl⟩, fun h => ⟨h.le_buy, h.le_sell⟩,
              fun hok hs => ?_, Or.inl rfl⟩
            have hmoves := Call.moves (c := ⟨d.bs, d.mytr, utr, d.acct, d.mytr.userid, some u⟩)
              hok hs
            have hremain := Call.remainNum_eq
              (c := ⟨d.bs, d.mytr, utr, d.acct, d.mytr.userid, some u⟩) hok hs
            exact ⟨hremain, rfl, hmoves.trbuy_eq, hmoves.trsell_eq⟩
        | sell =>
            rw [htype] at h
            cases h
            refine ⟨rfl, Option.some_ne_none u, fun hs => ⟨hs.symm, hs⟩,
              fun h => ⟨h.le_sell, h.le_buy⟩, fun hok hs => ?_, Or.inr rfl⟩
            have hmoves := Call.moves (c := ⟨d.bs, utr, d.mytr, d.acct, some u, d.mytr.userid⟩)
              hok hs.symm
            have hremain := Call.remainNum_eq
              (c := ⟨d.bs, utr, d.mytr, d.acct, some u, d.mytr.userid⟩) hok hs.symm
            exact ⟨hremain, rfl, hmoves.trsell_eq, hmoves.trbuy_eq⟩

omit [DecidableEq U] in
theorem mem_fill {tr : TradeRecord U Offer} {num : Int} {f : Int × Int} (h : f ∈ fill tr num) :
    f.1 = tr.price.serial := by
  unfold fill at h
  split at h
  · rw [List.mem_singleton.mp h]
  · contradiction

omit [DecidableEq U] in
theorem net_fill {tr : TradeRecord U Offer} {num : Int} (h : tr.userid ≠ none) :
    net (fill tr num) tr.price.serial = num := by
  rw [fill, if_pos (Option.isSome_iff_ne_none.mpr h), net_cons, if_pos rfl, net_nil, Int.add_zero]

/-- What the calls have left so far of an order that waits. -/
structure Waiting (quota : Int → Int) (serial s : Nat) (calls : List (Call U))
    (utr : TradeRecord U Offer) : Prop where
  stockid : utr.stockid = s
  user : utr.userid ≠ none
  older : utr.price.serial < serial
  left : Left quota (fills calls) utr.price.serial utr.num

/-- What the calls have left so far of an order that is being executed. -/
structure Underway (quota : Int → Int) (serial s : Nat) (calls : List (Call U))
    (d : Deal U Offer) : Prop where
  solvent : d.acct.Solvent
  remain : 0 ≤ d.bs.remainNum ∧ d.bs.remainNum < 2 ^ 31
  stockid : d.mytr.stockid = s
  user : d.mytr.userid ≠ none
  mine : d.mytr.price.serial = serial
  left : Left quota (fills calls) d.mytr.price.serial d.mytr.num
  settled : ∀ c ∈ calls, 0 < c.result.num → c.Settled
  filled : ∀ k, net (fills calls) k ≤ quota k

section CallOf

variable {d : Deal U Offer} {utr : TradeRecord U Offer}

theorem CallOf.mem_fills {c : Call U} {r : Deal U Offer × TradeRecord U Offer}
    (h : CallOf d utr c r) {f : Int × Int} (hf : f ∈ c.fills) :
    f.1 = d.mytr.price.serial ∨ f.1 = utr.price.serial := by
  have hmem : f ∈ fill d.mytr c.result.num ∨ f ∈ fill utr c.result.num := by
    rcases h.fills with hfills | hfills
    · rwa [hfills, List.mem_append] at hf
    · rwa [hfills, List.mem_append, or_comm] at hf
  exact hmem.imp mem_fill mem_fill

/-- A trade fills both orders. -/
theorem CallOf.net_fills {c : Call U} {r : Deal U Offer × TradeRecord U Offer}
    (h : CallOf d utr c r) (hmytr : d.mytr.userid ≠ none) (hutr : utr.userid ≠ none)
    (hne : d.mytr.price.serial ≠ utr.price.serial) :
    net c.fills d.mytr.price.serial = c.result.num ∧
      net c.fills utr.price.serial = c.result.num := by
  have hmine : net (fill utr c.result.num) d.mytr.price.serial = 0 :=
    net_eq_zero fun f hf => by
      rw [mem_fill hf]
      exact_mod_cast hne.symm
  have hyour : net (fill d.mytr c.result.num) utr.price.serial = 0 :=
    net_eq_zero fun f hf => by
      rw [mem_fill hf]
      exact_mod_cast hne
  rcases h.fills with hfills | hfills <;> rw [hfills, net_append, net_append, net_fill hmytr,
    net_fill hutr, hmine, hyour] <;> simp

end CallOf

section Loop

variable [Fintype U] {quota : Int → Int} {serial s : Nat} {calls : List (Call U)}
  {d : Deal U Offer} {utr : TradeRecord U Offer} {loads : U → Bool}

/-- Nothing is filled beyond its quota when every order that is filled has something left. -/
theorem filled_append {more : List (Int × Int)} {changes : List (Int × Int)}
    (h : ∀ k, net changes k ≤ quota k)
    (hmore : ∀ k, (∀ f ∈ more, f.1 ≠ k) ∨ ∃ left, Left quota (changes ++ more) k left) (k : Int) :
    net (changes ++ more) k ≤ quota k := by
  rcases hmore k with hother | ⟨left, hleft⟩
  · rw [net_append, net_eq_zero hother, Int.add_zero]
    exact h k
  · exact hleft.net_le

omit [Fintype U] in
/-- A call that fills the order and perhaps another one. -/
theorem Underway.call {d' : Deal U Offer} {c : Call U} (h : Underway quota serial s calls d)
    (hsolvent : d'.acct.Solvent) (hremain : 0 ≤ d'.bs.remainNum ∧ d'.bs.remainNum < 2 ^ 31)
    (hmytr : d'.mytr = { d.mytr with num := d.mytr.num - c.result.num })
    (hsettled : 0 < c.result.num → c.Settled)
    (hnet : net c.fills d.mytr.price.serial = c.result.num) (hle : c.result.num ≤ d.mytr.num)
    (hothers : ∀ f ∈ c.fills, f.1 = d.mytr.price.serial ∨
      ∃ left, Left quota (fills calls ++ c.fills) f.1 left) :
    Underway quota serial s (calls ++ [c]) d' := by
  have hleft := h.left.spend hnet hle
  refine ⟨hsolvent, hremain, ?_, ?_, ?_, ?_, fun c' hc' hpos => ?_, ?_⟩
  · rw [hmytr]
    exact h.stockid
  · rw [hmytr]
    exact h.user
  · rw [hmytr]
    exact h.mine
  · rw [hmytr, fills_append, fills_singleton]
    exact hleft
  · rcases List.mem_append.mp hc' with hold | hnew
    · exact h.settled c' hold hpos
    · rw [List.mem_singleton.mp hnew] at hpos ⊢
      exact hsettled hpos
  · rw [fills_append, fills_singleton]
    refine filled_append h.filled fun k => ?_
    by_cases hfilled : ∃ f ∈ c.fills, f.1 = k
    · obtain ⟨f, hf, rfl⟩ := hfilled
      rcases hothers f hf with hmine | hother
      · rw [hmine]
        exact Or.inr ⟨_, hleft⟩
      · exact Or.inr hother
    · exact Or.inl fun f hf hk => hfilled ⟨f, hf, hk⟩

/-- **One record** of the waiting list. -/
theorem Underway.record (h : Underway quota serial s calls d)
    (hutr : Waiting quota serial s calls utr)
    (hfits : ∀ c ∈ recordCall loads d utr, c.Fits) :
    Underway quota serial s (calls ++ (recordCall loads d utr).toList)
        (tradeRecord offerPrices loads d utr).1 ∧
      Waiting quota serial s (calls ++ (recordCall loads d utr).toList)
        (tradeRecord offerPrices loads d utr).2 ∧
      ∃ num, (tradeRecord offerPrices loads d utr).2 = { utr with num := num } := by
  cases hcall : recordCall loads d utr with
  | none =>
      rw [recordCall_none hcall, Option.toList_none, List.append_nil]
      exact ⟨h, hutr, utr.num, rfl⟩
  | some c =>
      have hof := recordCall_some h.user hcall
      have hsame : d.mytr.stockid = utr.stockid := h.stockid.trans hutr.stockid.symm
      obtain ⟨hstock, -⟩ := hof.stockid hsame
      obtain ⟨hremain, hacct, hmytr, hyours⟩ := hof.after h.solvent.ok hsame
      have hfit : c.Fits := hfits c hcall
      have hsolvent : c.acct.Solvent := hof.acct ▸ h.solvent
      have hbuyer : 0 ≤ c.acct.cash c.buyer ∧ c.acct.cash c.buyer < 2 ^ 31 := by
        obtain ⟨v, hv⟩ := Option.ne_none_iff_exists'.mp hof.buyer
        rw [hv]
        exact hsolvent.cash v
      have hsettled : 0 < c.result.num → c.Settled := Call.settled hsolvent hstock hbuyer hfit
      have hle : c.result.num ≤ d.mytr.num ∧ c.result.num ≤ utr.num := by
        rcases Int.lt_or_eq_of_le (Call.moves hsolvent.ok hstock).nonneg with hpos | hzero
        · exact hof.le (hsettled hpos)
        · exact ⟨hzero ▸ h.left.nonneg, hzero ▸ hutr.left.nonneg⟩
      have hne : d.mytr.price.serial ≠ utr.price.serial := by
        rw [h.mine]
        exact Nat.ne_of_gt hutr.older
      obtain ⟨hnetMine, hnetYours⟩ := hof.net_fills h.user hutr.user hne
      have hleft := hutr.left.spend hnetYours hle.2
      rw [Option.toList_some]
      refine ⟨h.call ?_ ?_ hmytr hsettled hnetMine hle.1 fun f hf => ?_, ?_, _, hyours⟩
      · rw [hacct]
        exact Call.solvent hsolvent hstock hbuyer hfit
      · rw [hremain]
        exact h.remain
      · rcases hof.mem_fills hf with hmine | hyour
        · exact Or.inl hmine
        · rw [hyour]
          exact Or.inr ⟨_, hleft⟩
      · rw [hyours]
        refine ⟨hutr.stockid, hutr.user, hutr.older, ?_⟩
        rw [fills_append, fills_singleton]
        exact hleft

omit [Fintype U] in
/-- Calls that fill other orders. -/
theorem Waiting.other {more : List (Call U)} (h : Waiting quota serial s calls utr)
    (hmore : ∀ f ∈ fills more, f.1 ≠ utr.price.serial) :
    Waiting quota serial s (calls ++ more) utr := by
  refine ⟨h.stockid, h.user, h.older, ?_⟩
  rw [fills_append]
  exact h.left.other hmore

theorem mem_fills_record (huser : d.mytr.userid ≠ none) {f : Int × Int}
    (hf : f ∈ fills (recordCall loads d utr).toList) :
    f.1 = d.mytr.price.serial ∨ f.1 = utr.price.serial := by
  cases hcall : recordCall loads d utr with
  | none =>
      rw [hcall] at hf
      contradiction
  | some c =>
      rw [hcall, Option.toList_some, fills_singleton] at hf
      exact (recordCall_some huser hcall).mem_fills hf

/-- **The waiting list**, record by record. -/
theorem Underway.withUser {list : List (TradeRecord U Offer)}
    (h : Underway quota serial s calls d) (hlist : ∀ utr ∈ list, Waiting quota serial s calls utr)
    (hserials : (list.map fun tr => tr.price.serial).Nodup)
    (hfits : ∀ c ∈ userCalls loads d list, c.Fits) :
    Underway quota serial s (calls ++ userCalls loads d list)
        (tradeWithUser offerPrices loads d list).1 ∧
      (∀ utr ∈ (tradeWithUser offerPrices loads d list).2,
        Waiting quota serial s (calls ++ userCalls loads d list) utr) ∧
      ((tradeWithUser offerPrices loads d list).2.map fun tr => (tr.userid, tr.price.serial)) =
        list.map (fun tr => (tr.userid, tr.price.serial)) ∧
      ∀ f ∈ fills (userCalls loads d list),
        f.1 = serial ∨ ∃ utr ∈ list, f.1 = utr.price.serial := by
  induction list generalizing d calls with
  | nil =>
      rw [userCalls, List.append_nil]
      exact ⟨h, hlist, rfl, fun f hf => by contradiction⟩
  | cons utr list ih =>
      rw [userCalls] at hfits ⊢
      rw [tradeWithUser]
      split
      · rw [List.append_nil]
        exact ⟨h, hlist, rfl, fun f hf => by contradiction⟩
      · next hmore =>
        rw [if_neg hmore, List.forall_mem_append] at hfits
        rw [List.forall_mem_cons] at hlist
        rw [List.map_cons, List.nodup_cons] at hserials
        have hserial : ∀ utr' ∈ list, utr'.price.serial ≠ utr.price.serial :=
          fun utr' hmem heq => hserials.1 (heq ▸ List.mem_map_of_mem hmem)
        have hmine := h.mine
        have hfilled := fun f => @mem_fills_record U _ _ d utr loads h.user f
        obtain ⟨hd, hutr, num, hnum⟩ := h.record hlist.1 fun c hc => hfits.1 c (by simpa using hc)
        have hrest : ∀ utr' ∈ list,
            Waiting quota serial s (calls ++ (recordCall loads d utr).toList) utr' := by
          intro utr' hmem
          refine (hlist.2 utr' hmem).other fun f hf hsame => ?_
          have holder := (hlist.2 utr' hmem).older
          have hne := hserial utr' hmem
          rcases hfilled f hf with heq | heq <;> omega
        obtain ⟨hd', hlist', hsame, hfills⟩ := ih hd hrest hserials.2 hfits.2
        dsimp only
        rw [← List.append_assoc]
        refine ⟨hd', ?_, ?_, fun f hf => ?_⟩
        · rw [List.forall_mem_cons]
          refine ⟨hutr.other fun f hf heq => ?_, hlist'⟩
          rw [hnum] at heq
          dsimp only at heq
          have holder := hlist.1.older
          rcases hfills f hf with hown | ⟨utr', hmem, hother⟩
          · omega
          · have hne := hserial utr' hmem
            omega
        · rw [List.map_cons, List.map_cons, hsame, hnum]
        · rw [fills_append, List.mem_append] at hf
          rcases hf with hf | hf
          · rcases hfilled f hf with heq | heq
            · exact Or.inl (heq.trans (congrArg _ hmine))
            · exact Or.inr ⟨utr, List.mem_cons_self, heq⟩
          · rcases hfills f hf with heq | ⟨utr', hmem, heq⟩
            · exact Or.inl heq
            · exact Or.inr ⟨utr', List.mem_cons_of_mem _ hmem, heq⟩

omit [DecidableEq U] [Fintype U] in
theorem sysTrader_held_of_ne {k : Nat} {num : Int} (h : k ≠ s) : (sysTrader s num).held k = 0 := by
  refine Finset.sum_eq_zero fun i _ => ?_
  by_cases hi : i.val = 0
  · have hslot : (sysTrader s num).stock i = ⟨s, num⟩ := if_pos hi
    rw [hslot, if_neg (Ne.symm h)]
  · have hslot : (sysTrader s num).stock i = ⟨0, 0⟩ := if_neg hi
    rw [hslot]
    exact ite_self 0

omit [DecidableEq U] [Fintype U] in
theorem sysTrader_cash {num : Int} :
    0 ≤ (sysTrader s num).cash ∧ (sysTrader s num).cash < 2 ^ 31 := by
  have hcash : (sysTrader s num).cash = 1000000000 := rfl
  omega

/-- What the call of `tradeWithSys` makes of the order. -/
structure SysCallOf (d : Deal U Offer) (c : Call U) (d' : Deal U Offer) : Prop where
  acct : c.acct = update d.acct none (sysTrader d.mytr.stockid d.bs.remainNum)
  stockid : c.trbuy.stockid = c.stockid ∧ c.stockid = d.mytr.stockid
  parties : (c.buyer = d.mytr.userid ∧ c.seller = none) ∨
    (c.buyer = none ∧ c.seller = d.mytr.userid)
  le : c.Settled → c.result.num ≤ d.mytr.num
  fills : c.fills = fill d.mytr c.result.num
  after : c.acct.Ok → d'.acct = c.result.acct ∧
    d'.mytr = { d.mytr with num := d.mytr.num - c.result.num } ∧
    d'.bs.remainNum = if c.seller = none then d.bs.remainNum - c.result.num
      else d.bs.remainNum + c.result.num

omit [Fintype U] in
theorem sysCall_none {sysPrice : Offer} (h : sysCall d sysPrice = none) :
    tradeWithSys offerPrices d sysPrice = d := by
  rw [sysCall] at h
  rw [tradeWithSys]
  by_cases hdone : d.mytr.num ≤ 0
  · rw [if_pos hdone]
  · rw [if_neg hdone] at h
    cases htype : d.mytr.tradeType with
    | buy =>
        rw [htype] at h
        contradiction
    | sell =>
        rw [htype] at h
        contradiction

theorem sysCall_some {sysPrice : Offer} {c : Call U} (huser : d.mytr.userid ≠ none)
    (h : sysCall d sysPrice = some c) : SysCallOf d c (tradeWithSys offerPrices d sysPrice) := by
  rw [sysCall] at h
  rw [tradeWithSys]
  by_cases hdone : d.mytr.num ≤ 0
  · rw [if_pos hdone] at h
    contradiction
  · rw [if_neg hdone] at h ⊢
    cases htype : d.mytr.tradeType with
    | buy =>
        rw [htype] at h
        cases h
        refine ⟨rfl, ⟨rfl, rfl⟩, Or.inl ⟨rfl, rfl⟩, fun h => h.le_buy, List.append_nil _,
          fun hok => ?_⟩
        have hmoves := Call.moves (c := ⟨d.bs, d.mytr, sysOrder offerPrices d sysPrice,
          update d.acct none (sysTrader d.mytr.stockid d.bs.remainNum), d.mytr.userid, none⟩)
          hok rfl
        have hremain := Call.remainNum_eq (c := ⟨d.bs, d.mytr, sysOrder offerPrices d sysPrice,
          update d.acct none (sysTrader d.mytr.stockid d.bs.remainNum), d.mytr.userid, none⟩)
          hok rfl
        exact ⟨rfl, hmoves.trbuy_eq, congrArg (· - _) hremain⟩
    | sell =>
        rw [htype] at h
        cases h
        refine ⟨rfl, ⟨rfl, rfl⟩, Or.inr ⟨rfl, rfl⟩, fun h => h.le_sell, List.nil_append _,
          fun hok => ?_⟩
        have hmoves := Call.moves (c := ⟨d.bs, sysOrder offerPrices d sysPrice, d.mytr,
          update d.acct none (sysTrader d.mytr.stockid d.bs.remainNum), none, d.mytr.userid⟩)
          hok rfl
        have hremain := Call.remainNum_eq (c := ⟨d.bs, sysOrder offerPrices d sysPrice, d.mytr,
          update d.acct none (sysTrader d.mytr.stockid d.bs.remainNum), none, d.mytr.userid⟩)
          hok rfl
        refine ⟨rfl, hmoves.trsell_eq, ?_⟩
        rw [if_neg huser]
        exact congrArg (· + _) hremain

/-- What the system holds after its call. -/
theorem SysCallOf.remain {d' : Deal U Offer} {c : Call U} (h : SysCallOf d c d')
    (huser : d.mytr.userid ≠ none) (hok : c.acct.Ok) (hremain : 0 ≤ d.bs.remainNum) :
    d'.bs.remainNum = c.result.acct.held c.stockid none := by
  have hmoves := Call.moves hok h.stockid.1
  have hheld : c.acct.held c.stockid none = d.bs.remainNum := by
    rw [h.acct, Accounts.held, update_self, h.stockid.2, sysTrader_held _ hremain]
  rw [(h.after hok).2.2, hmoves.held, update_self]
  rcases h.parties with ⟨hbuyer, hseller⟩ | ⟨hbuyer, hseller⟩
  · rw [if_pos hseller, hseller, pay_giver (by rw [hbuyer]; exact huser.symm), hheld]
  · rw [if_neg (hseller.trans_ne huser), hbuyer, pay_taker (by rw [hseller]; exact huser), hheld]

omit [Fintype U] in
/-- The account that is made up for the system. -/
theorem Underway.sysAccounts (h : Underway quota serial s calls d) :
    Accounts.Solvent (update d.acct none (sysTrader d.mytr.stockid d.bs.remainNum)) where
  ok := h.solvent.ok.update (sysTrader_ok _ h.remain.1)
  cash u := h.solvent.cash u
  held_lt k p := by
    cases p with
    | some u => exact h.solvent.held_lt k (some u)
    | none =>
        rw [Accounts.held, update_self]
        by_cases hk : k = d.mytr.stockid
        · rw [hk, sysTrader_held _ h.remain.1]
          exact h.remain.2
        · rw [sysTrader_held_of_ne hk]
          decide

/-- **The system** trades what is left. -/
theorem Underway.withSys {sysPrice : Offer} (h : Underway quota serial s calls d)
    (hfits : ∀ c ∈ sysCall d sysPrice, c.Fits) :
    Underway quota serial s (calls ++ (sysCall d sysPrice).toList)
      (tradeWithSys offerPrices d sysPrice) := by
  cases hcall : sysCall d sysPrice with
  | none =>
      rw [sysCall_none hcall, Option.toList_none, List.append_nil]
      exact h
  | some c =>
      have hof := sysCall_some h.user hcall
      have hsolvent : c.acct.Solvent := hof.acct ▸ h.sysAccounts
      have hstock := hof.stockid.1
      have hfit : c.Fits := hfits c hcall
      have hbuyer : 0 ≤ c.acct.cash c.buyer ∧ c.acct.cash c.buyer < 2 ^ 31 := by
        rcases hof.parties with ⟨hbuyer, -⟩ | ⟨hbuyer, -⟩
        · obtain ⟨v, hv⟩ := Option.ne_none_iff_exists'.mp h.user
          rw [hbuyer, hv]
          exact hsolvent.cash v
        · rw [hbuyer, hof.acct, Accounts.cash, update_self]
          exact sysTrader_cash
      have hsettled : 0 < c.result.num → c.Settled := Call.settled hsolvent hstock hbuyer hfit
      have hafter : c.result.acct.Solvent := Call.solvent hsolvent hstock hbuyer hfit
      have hle : c.result.num ≤ d.mytr.num := by
        rcases Int.lt_or_eq_of_le (Call.moves hsolvent.ok hstock).nonneg with hpos | hzero
        · exact hof.le (hsettled hpos)
        · exact hzero ▸ h.left.nonneg
      obtain ⟨hacct, hmytr, -⟩ := hof.after hsolvent.ok
      rw [Option.toList_some]
      refine h.call (hacct ▸ hafter) ?_ hmytr hsettled ?_ hle fun f hf => ?_
      · rw [hof.remain h.user hsolvent.ok h.remain.1]
        exact ⟨McUserInfo.held_nonneg (hafter.ok none) _, hafter.held_lt _ none⟩
      · rw [hof.fills, net_fill h.user]
      · rw [hof.fills] at hf
        exact Or.inl (mem_fill hf)

end Loop

end Orders

end Ytht
