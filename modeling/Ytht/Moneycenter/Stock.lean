import Mathlib.Data.List.GetD
import Ytht.Lib.Runs
import Ytht.Moneycenter.Shares

/-!
# Moneycenter.Stock

The stock market: listing, delisting and trading.

Shares of a stock are held by the users and, as `remainNum`, by the system.  A stock
that is listed in the place of a delisted one finds the shares of the old one in the
users' slots, and `tradeArithmetic` counts the system among the holders when it comes to
hold its first share or gives up its last; `Sound` leaves both out.
-/

namespace Ytht

open Bytes Function Ledger Runs

variable {U F : Type}

/-! ## The market -/

def TradeType.other : TradeType → TradeType
  | buy => sell
  | sell => buy

/-- The stocks, the waiting lists, and the users. -/
structure Market (U F : Type) where
  stocks : List BoardStock
  /-- the file `<stockid>.buy` or `<stockid>.sell` -/
  queue : TradeType → Nat → List (TradeRecord U F)
  users : U → McUserInfo

namespace Market

/-- `deleteList` -/
def deleteList (m : Market U F) (stockid : Nat) : Market U F :=
  { m with queue := fun type => update (m.queue type) stockid [] }

/-! ## Listing -/

/-- `num = money / price`, of a value in units of ten millions and a score in thousandths:
the number of shares, or what a value that does not fit becomes as an `int`. -/
def issued (money score : Int) : Int :=
  let num := (money * 10000000 * 1000).tdiv score
  if score ≠ 0 ∧ -2 ^ 31 ≤ num ∧ num < 2 ^ 31 then num else -2 ^ 31

/-- The loop of `tryPutStock`: no board of that name may be listed, and the first free
place is taken. -/
def freePlace (boardname : List UInt8) (stocks : List BoardStock) : Option Nat :=
  if stocks.any fun bs => bs.boardname = boardname ∧ bs.timeStamp ≠ 0 then none
  else stocks.findIdx? fun bs => bs.timeStamp = 0

/-- `tryPutStock`, among the `n` stocks that are loaded, and what follows it. -/
def putStock (m : Market U F) (n : Nat) (bs : BoardStock) : Market U F :=
  match freePlace bs.boardname (m.stocks.take n) with
  | some slot => { m with stocks := m.stocks.set slot bs }
  | none => { m with stocks := m.stocks ++ [bs] }

/-- What `newStock` lists. -/
def listing (boardname : List UInt8) (money score : Int) (now : Nat) : BoardStock :=
  { boardname := boardname
    timeStamp := now
    totalStockNum := issued money score
    remainNum := issued money score
    status := 0
    holderNum := 0 }

/-- `newStock` -/
def newStock (m : Market U F) (n : Nat) (boardname : List UInt8) (money score : Int) (now : Nat) :
    Market U F :=
  m.putStock n (listing boardname money score now)

/-- A stock is given up: `stockAdmin '3'`. -/
def delist (m : Market U F) (stockid : Nat) : Market U F :=
  { m with stocks := m.stocks.modify stockid fun bs => { bs with timeStamp := 0, status := 3 } }
    |>.deleteList stockid

theorem delist_queue (m : Market U F) (stockid : Nat) (type : TradeType) :
    (m.delist stockid).queue type = update (m.queue type) stockid [] := rfl

/-! ## Trading -/

/-- A trade in progress: the stock, the order, and the accounts. -/
structure Deal (U F : Type) where
  bs : BoardStock
  mytr : TradeRecord U F
  acct : Accounts U

/-- The trader that is made up for the system. -/
def sysTrader (stockid : Nat) (remainNum : Int) : McUserInfo where
  cash := 1000000000
  lastActiveTime := 0
  stock i := if i.val = 0 then ⟨stockid, remainNum⟩ else ⟨0, 0⟩

/-- The accounts of the users; that of the system is made up later. -/
def partyAccounts (users : U → McUserInfo) : Accounts U
  | some u => users u
  | none => sysTrader 0 0

/-- A waiting list is replaced. -/
def setQueue (m : Market U F) (type : TradeType) (stockid : Nat) (list : List (TradeRecord U F)) :
    Market U F :=
  { m with queue := update m.queue type (update (m.queue type) stockid list) }

section Trading

variable [DecidableEq U] (pr : Prices F)

/-- One record of the waiting list. -/
def tradeRecord (loads : U → Bool) (d : Deal U F) (utr : TradeRecord U F) :
    Deal U F × TradeRecord U F :=
  match utr.userid with
  | none => (d, utr)
  | some u =>
      if utr.num ≤ 0 ∨ loads u = false then (d, utr)
      else
        match d.mytr.tradeType with
        | .buy =>
            let r := tradeArithmetic pr d.bs d.mytr utr d.acct d.mytr.userid (some u)
            (⟨r.bs, r.trbuy, r.acct⟩, r.trsell)
        | .sell =>
            let r := tradeArithmetic pr d.bs utr d.mytr d.acct (some u) d.mytr.userid
            (⟨r.bs, r.trsell, r.acct⟩, r.trbuy)

/-- The loop of `tradeWithUser`; the `mc.save` of some users may not be there. -/
def tradeWithUser (loads : U → Bool) (d : Deal U F) :
    List (TradeRecord U F) → Deal U F × List (TradeRecord U F)
  | [] => (d, [])
  | utr :: list =>
      if d.mytr.num ≤ 0 then (d, utr :: list)
      else
        let r := tradeRecord pr loads d utr
        let rest := tradeWithUser loads r.1 list
        (rest.1, r.2 :: rest.2)

/-- `MAX_XY` for a buyer, `MIN_XY` for a seller. -/
def sysPriceFor (d : Deal U F) (sysPrice : F) : F :=
  match d.mytr.tradeType with
  | .buy => if pr.below sysPrice d.mytr.price then d.mytr.price else sysPrice
  | .sell => if pr.below d.mytr.price sysPrice then d.mytr.price else sysPrice

/-- The order that is made up for the system. -/
def sysOrder (d : Deal U F) (sysPrice : F) : TradeRecord U F where
  userid := none
  stockid := d.mytr.stockid
  tradeType := d.mytr.tradeType.other
  price := sysPriceFor pr d sysPrice
  num :=
    match d.mytr.tradeType with
    | .buy => d.bs.remainNum
    | .sell => d.mytr.num

/-- `tradeWithSys` -/
def tradeWithSys (d : Deal U F) (sysPrice : F) : Deal U F :=
  if d.mytr.num ≤ 0 then d
  else
    let systr := sysOrder pr d sysPrice
    let acct := update d.acct none (sysTrader d.mytr.stockid d.bs.remainNum)
    match d.mytr.tradeType with
    | .buy =>
        let r := tradeArithmetic pr d.bs d.mytr systr acct d.mytr.userid none
        ⟨{ r.bs with remainNum := r.bs.remainNum - r.num }, r.trbuy, r.acct⟩
    | .sell =>
        let r := tradeArithmetic pr d.bs systr d.mytr acct none d.mytr.userid
        ⟨{ r.bs with remainNum := r.bs.remainNum + r.num }, r.trsell, r.acct⟩

/-- The place of an order in a waiting list: that of the user's old order, or the first
one that is used up. -/
def orderPlace (list : List (TradeRecord U F)) (mytr : TradeRecord U F) : Option Nat :=
  match list.findIdx? fun tr => tr.userid = mytr.userid with
  | some i => some i
  | none => list.findIdx? fun tr => tr.num ≤ 0

/-- `addToWaitingList` -/
def addToWaitingList (list : List (TradeRecord U F)) (mytr : TradeRecord U F) :
    List (TradeRecord U F) :=
  if 128 < list.length then list
  else
    match orderPlace list mytr with
    | some slot => list.set slot mytr
    | none => list ++ [mytr]

/-- What a user enters for a trade. -/
structure TradeInput (U F : Type) where
  user : U
  tradeType : TradeType
  inputNum : Int
  inputPrice : F
  sysPrice : F
  /-- whose `mc.save` can be loaded -/
  loads : U → Bool

/-- `myInfo->stock[idx].num`, also for an `idx` of -1 -/
def numAt (a : McUserInfo) : Option (Fin STOCK_NUM) → Int
  | some idx => (a.stock idx).num
  | none => a.lastActiveTime

/-- The tests that `tradeInteractive` makes before it trades. -/
def mayTrade (bs : BoardStock) (a : McUserInfo) (idx : Option (Fin STOCK_NUM))
    (input : TradeInput U F) : Bool :=
  match input.tradeType with
  | .buy => idx.isSome && bs.status ≠ 3 &&
      !pr.cashBelowCost a.cash input.inputNum input.inputPrice
  | .sell => 0 < numAt a idx && bs.status ≠ 3 && input.inputNum ≤ numAt a idx

/-- The order of a user. -/
def order (stockid : Nat) (input : TradeInput U F) : TradeRecord U F :=
  ⟨some input.user, stockid, input.tradeType, input.inputPrice, input.inputNum⟩

/-- The trade with the other users. -/
def userDeal (m : Market U F) (bs : BoardStock) (stockid : Nat) (input : TradeInput U F) :
    Deal U F × List (TradeRecord U F) :=
  tradeWithUser pr input.loads ⟨bs, order stockid input, partyAccounts m.users⟩
    (m.queue input.tradeType.other stockid)

/-- The trade itself: with users, then with the system; the rest is queued. -/
def doTrade (m : Market U F) (bs : BoardStock) (stockid : Nat) (input : TradeInput U F) :
    Market U F :=
  let r := m.userDeal pr bs stockid input
  let d := tradeWithSys pr r.1 input.sysPrice
  let m := { m with
    stocks := m.stocks.set stockid d.bs
    users := fun u => d.acct (some u) }
  let m := m.setQueue input.tradeType.other stockid r.2
  if 100 ≤ d.mytr.num then
    m.setQueue input.tradeType stockid
      (addToWaitingList (m.queue input.tradeType stockid) d.mytr)
  else m

/-- What `getMyStock` makes of the account of the user who trades. -/
def enterStock (m : Market U F) (stockid : Nat) (u : U) : Option (Fin STOCK_NUM) × Market U F :=
  let r := getMyStock (m.users u) stockid
  (r.1, { m with users := update m.users u r.2 })

/-- `tradeInteractive` -/
def tradeInteractive (m : Market U F) (bs : BoardStock) (stockid : Nat) (input : TradeInput U F) :
    Market U F :=
  let r := m.enterStock stockid input.user
  if mayTrade pr bs (r.2.users input.user) r.1 input then r.2.doTrade pr bs stockid input else r.2

/-- A trade with the system is refused, or the system holds shares before it and after
it, or none at all. -/
def StaysIn (d : Deal U F) (sysPrice : F) : TradeType → Prop
  | .buy =>
      pr.cashBelow (d.acct d.mytr.userid).cash (sysPriceFor pr d sysPrice) = true ∨
        pr.below d.mytr.price (sysPriceFor pr d sysPrice) = true ∨ d.bs.remainNum = 0 ∨
        min d.mytr.num (pr.canBuy (d.acct d.mytr.userid).cash (sysPriceFor pr d sysPrice)) <
          d.bs.remainNum
  | .sell =>
      pr.cashBelow 1000000000 d.mytr.price = true ∨
        pr.below (sysPriceFor pr d sysPrice) d.mytr.price = true ∨
        pr.canBuy 1000000000 d.mytr.price ≤ 0 ∨ 0 < d.bs.remainNum

instance (d : Deal U F) (sysPrice : F) : (type : TradeType) → Decidable (StaysIn pr d sysPrice type)
  | .buy => inferInstanceAs (Decidable (_ ∨ _ ∨ _ ∨ _))
  | .sell => inferInstanceAs (Decidable (_ ∨ _ ∨ _ ∨ _))

/-- What is left for the system to trade does not change whether it holds shares. -/
def SystemStays (d : Deal U F) (sysPrice : F) : Prop :=
  0 < d.mytr.num → StaysIn pr d sysPrice d.mytr.tradeType

instance (d : Deal U F) (sysPrice : F) : Decidable (SystemStays pr d sysPrice) :=
  inferInstanceAs (Decidable (_ → _))

/-! ## Steps -/

/-- What users do; `n` is the number of stocks when they entered the market. -/
inductive StockOp (U F : Type)
  | newStock (n : Nat) (boardname : List UInt8) (money score : Int) (now : Nat)
  | delist (stockid : Nat)
  | trade (stockid : Nat) (input : TradeInput U F)

/-- One operation; the dialogs let no other values through. -/
def step (m : Market U F) : StockOp U F → Option (Market U F)
  | .newStock n boardname money score now =>
      if n ≤ m.stocks.length ∧ 1 ≤ money ∧ money ≤ 10 then
        some (m.newStock n boardname money score now)
      else none
  | .delist stockid =>
      if stockid < m.stocks.length ∧ stockid < 100 then some (m.delist stockid) else none
  | .trade stockid input =>
      if stockid < 100 ∧ 100 ≤ input.inputNum then
        m.stocks[stockid]?.map fun bs => m.tradeInteractive pr bs stockid input
      else none

/-- The market when its file is made: one place, which is free, and users who hold
nothing. -/
def start (cash lastActiveTime : U → Int) : Market U F where
  stocks := [⟨[], 0, 0, 0, 0, 0⟩]
  queue _ _ := []
  users u := ⟨cash u, lastActiveTime u, fun _ => ⟨0, 0⟩⟩

/-- The number of shares fits, and nobody holds shares of a stock that was listed in the
same place; a trade with the system neither begins nor ends its holding. -/
def Sound (m : Market U F) : StockOp U F → Prop
  | .newStock n boardname money score _ =>
      0 < score ∧ money * 10000000 * 1000 < 2 ^ 31 * score ∧
        ∀ slot ∈ freePlace boardname (m.stocks.take n), ∀ u, (m.users u).held slot = 0
  | .delist _ => True
  | .trade stockid input =>
      ∀ bs ∈ m.stocks[stockid]?,
        let r := m.enterStock stockid input.user
        mayTrade pr bs (r.2.users input.user) r.1 input →
          SystemStays pr (r.2.userDeal pr bs stockid input).1 input.sysPrice

instance [Fintype U] (m : Market U F) : (op : StockOp U F) → Decidable (m.Sound pr op)
  | .newStock n boardname _ _ _ =>
      inferInstanceAs (Decidable (_ ∧ _ ∧
        ∀ slot ∈ freePlace boardname (m.stocks.take n), ∀ u, (m.users u).held slot = 0))
  | .delist _ => isTrue trivial
  | .trade stockid _ => inferInstanceAs (Decidable (∀ bs ∈ m.stocks[stockid]?, _ → _))

end Trading

/-! ## What the books say -/

/-- What the users hold of a stock. -/
def held (users : U → McUserInfo) (s : Nat) (u : U) : Int := (users u).held s

section Deals

variable [DecidableEq U] [Fintype U] {pr : Prices F} {d : Deal U F} {acct : Accounts U}
  {utr : TradeRecord U F} {s : Nat}
  {loads : U → Bool} {list : List (TradeRecord U F)} {sysPrice : F}

/-! ## A trade in progress -/

/-- What a trade of one stock keeps. -/
structure Deal.Ok (acct : Accounts U) (s : Nat) (d : Deal U F) : Prop where
  ok : d.acct.Ok
  others : ∀ k ≠ s, ∀ u, d.acct.held k (some u) = acct.held k (some u)
  books : Books d.bs fun u => d.acct.held s (some u)
  stockid : d.mytr.stockid = s
  user : d.mytr.userid ≠ none

theorem Deal.Ok.record (h : d.Ok acct s) (hutr : utr.stockid = s) :
    (tradeRecord pr loads d utr).1.Ok acct s ∧ (tradeRecord pr loads d utr).2.stockid = s := by
  obtain ⟨me, hme⟩ := Option.ne_none_iff_exists'.mp h.user
  rw [tradeRecord]
  cases utr.userid with
  | none => exact ⟨h, hutr⟩
  | some u =>
      dsimp only
      split
      · exact ⟨h, hutr⟩
      · cases d.mytr.tradeType with
        | buy =>
            rw [hme]
            have hmoves : Moves pr s d.bs d.mytr utr d.acct (some me) (some u) _ :=
              tradeArithmetic_spec h.ok h.stockid hutr
            exact ⟨⟨hmoves.ok, fun k hk u => by rw [hmoves.held_of_ne hk, h.others k hk],
              hmoves.books h.books, hmoves.trbuy_stockid.trans h.stockid,
              hmoves.trbuy_userid.trans_ne h.user⟩, hmoves.trsell_stockid.trans hutr⟩
        | sell =>
            rw [hme]
            have hmoves : Moves pr s d.bs utr d.mytr d.acct (some u) (some me) _ :=
              tradeArithmetic_spec h.ok hutr h.stockid
            exact ⟨⟨hmoves.ok, fun k hk u => by rw [hmoves.held_of_ne hk, h.others k hk],
              hmoves.books h.books, hmoves.trsell_stockid.trans h.stockid,
              hmoves.trsell_userid.trans_ne h.user⟩, hmoves.trbuy_stockid.trans hutr⟩

/-- The trade with the other users, order by order. -/
theorem Deal.Ok.withUser (h : d.Ok acct s) (hlist : ∀ utr ∈ list, utr.stockid = s) :
    (tradeWithUser pr loads d list).1.Ok acct s ∧
      ∀ utr ∈ (tradeWithUser pr loads d list).2, utr.stockid = s := by
  induction list generalizing d with
  | nil => exact ⟨h, hlist⟩
  | cons utr list ih =>
      rw [List.forall_mem_cons] at hlist
      rw [tradeWithUser]
      split
      · exact ⟨h, List.forall_mem_cons.mpr hlist⟩
      · obtain ⟨hd, hutr⟩ := Deal.Ok.record h hlist.1
        obtain ⟨hd', hrest⟩ := ih hd hlist.2
        exact ⟨hd', List.forall_mem_cons.mpr ⟨hutr, hrest⟩⟩

/-! ## The trade with the system -/

theorem sysTrader_ok (s : Nat) {n : Int} (hn : 0 ≤ n) : (sysTrader s n).Ok where
  nonneg i := by
    rw [sysTrader]
    dsimp only
    split
    · exact hn
    · exact Int.le_refl 0
  first i j hij _ := by
    have hj : j.val ≠ 0 := Nat.ne_of_gt (Nat.zero_lt_of_lt hij)
    simp only [sysTrader, if_neg hj]

theorem sysTrader_held (s : Nat) {n : Int} (hn : 0 ≤ n) : (sysTrader s n).held s = n := by
  have hfirst : (sysTrader s n).First s ⟨0, by decide⟩ :=
    ⟨rfl, fun j hj => absurd hj (Nat.not_lt_zero _)⟩
  rw [hfirst.held (sysTrader_ok s hn)]
  rfl

/-- The account of the system is made up, and its trade keeps the books. -/
theorem Deal.Ok.withSys (h : d.Ok acct s) (hstays : SystemStays pr d sysPrice) :
    (tradeWithSys pr d sysPrice).Ok acct s := by
  obtain ⟨me, hme⟩ := Option.ne_none_iff_exists'.mp h.user
  have hremain := h.books.remain_nonneg
  let sys : Accounts U := update d.acct none (sysTrader d.mytr.stockid d.bs.remainNum)
  have hok : sys.Ok := h.ok.update (sysTrader_ok _ hremain)
  have hsome : ∀ u, sys (some u) = d.acct (some u) := fun u =>
    update_of_ne (Option.some_ne_none u) ..
  have hheld : ∀ k u, sys.held k (some u) = d.acct.held k (some u) := by
    intro k u
    rw [Accounts.held, hsome]
    rfl
  have hsys : sys none = sysTrader d.mytr.stockid d.bs.remainNum := update_self ..
  have hnone : sys.held s none = d.bs.remainNum := by
    rw [Accounts.held, hsys, h.stockid, sysTrader_held s hremain]
  have hbooks : Books d.bs fun u => sys.held s (some u) := by
    simpa only [hheld] using h.books
  have hcash : (sys (some me)).cash = (d.acct (some me)).cash := by rw [hsome]
  have hother : ∀ {acct' : Accounts U}, (∀ k ≠ s, acct'.held k = sys.held k) →
      ∀ k ≠ s, ∀ u, acct'.held k (some u) = acct.held k (some u) := by
    intro acct' hsame k hk u
    rw [hsame k hk, hheld, h.others k hk]
  rw [tradeWithSys]
  split
  · exact h
  · next hnum =>
      have hstays := hstays (Int.not_le.mp hnum)
      cases htype : d.mytr.tradeType with
      | buy =>
          rw [htype, StaysIn, hme] at hstays
          rw [hme]
          have hmoves : Moves pr s d.bs d.mytr (sysOrder pr d sysPrice) sys (some me) none _ :=
            tradeArithmetic_spec hok h.stockid h.stockid
          refine ⟨hmoves.ok, hother fun k hk => hmoves.held_of_ne hk,
            hmoves.books_sysSells hnone hbooks fun hpos => ?_,
            hmoves.trbuy_stockid.trans h.stockid, hmoves.trbuy_userid.trans_ne h.user⟩
          obtain ⟨hcashBelow, hbelow, hle⟩ := hmoves.priced hpos
          have hheldLe := hmoves.le_held
          rw [hnone] at hheldLe
          rw [hcash] at hcashBelow hle
          rcases hstays with hrefused | hrefused | hzero | hlt
          · exact absurd (hcashBelow.symm.trans hrefused) Bool.false_ne_true
          · exact absurd (hbelow.symm.trans hrefused) Bool.false_ne_true
          · omega
          · exact Int.lt_of_le_of_lt hle hlt
      | sell =>
          rw [htype, StaysIn] at hstays
          rw [hme]
          have hmoves : Moves pr s d.bs (sysOrder pr d sysPrice) d.mytr sys none (some me) _ :=
            tradeArithmetic_spec hok h.stockid h.stockid
          refine ⟨hmoves.ok, hother fun k hk => hmoves.held_of_ne hk,
            hmoves.books_sysBuys hnone hbooks fun hpos => ?_,
            hmoves.trsell_stockid.trans h.stockid, hmoves.trsell_userid.trans_ne h.user⟩
          obtain ⟨hcashBelow, hbelow, hle⟩ := hmoves.priced hpos
          have hsysCash : (sys none).cash = 1000000000 := by rw [hsys, sysTrader]
          rw [hsysCash] at hcashBelow hle
          rcases hstays with hrefused | hrefused | hzero | hlt
          · exact absurd (hcashBelow.symm.trans hrefused) Bool.false_ne_true
          · exact absurd (hbelow.symm.trans hrefused) Bool.false_ne_true
          · have := hle.trans (Int.min_le_right ..)
            omega
          · exact hlt

end Deals

/-! ## Every operation keeps the books -/

/-- The books of all stocks. -/
structure Ok [Fintype U] (m : Market U F) : Prop where
  accounts : ∀ u, (m.users u).Ok
  unlisted : ∀ s, m.stocks.length ≤ s → ∀ u, (m.users u).held s = 0
  queues : ∀ type s, ∀ tr ∈ m.queue type s, tr.stockid = s
  books : ∀ s bs, m.stocks[s]? = some bs → Books bs fun u => (m.users u).held s

section Listing

variable [Fintype U] {m : Market U F} {bs : BoardStock} {stockid n : Nat}
  {boardname : List UInt8} {money score : Int}

theorem books_zero {h : U → Int} (hzero : ∀ u, h u = 0) (hnum : bs.remainNum = bs.totalStockNum)
    (hnonneg : 0 ≤ bs.totalStockNum) (hholder : bs.holderNum = 0) : Books bs h where
  remain_nonneg := hnum ▸ hnonneg
  conserved := by
    rw [Finset.sum_eq_zero fun u _ => hzero u, hnum, Int.add_zero]
  holderNum := by
    rw [hholder, holders_eq_sum, Finset.sum_eq_zero]
    intro u _
    rw [hzero u]
    rfl

theorem held_newcomer (cash lastActiveTime : Int) (s : Nat) :
    (⟨cash, lastActiveTime, fun _ => ⟨0, 0⟩⟩ : McUserInfo).held s = 0 :=
  Finset.sum_eq_zero fun _ _ => ite_self 0

theorem start_ok (cash lastActiveTime : U → Int) :
    (start cash lastActiveTime : Market U F).Ok where
  accounts u := ⟨fun _ => Int.le_refl 0, fun _ _ _ _ => rfl⟩
  unlisted s _ u := held_newcomer ..
  queues type s tr htr := by contradiction
  books s bs hbs := by
    have hmem := List.mem_of_getElem? hbs
    rw [start, List.mem_singleton] at hmem
    subst hmem
    exact books_zero (fun u => held_newcomer ..) rfl (Int.le_refl 0) rfl

/-- With a positive score that is not too low, the number of shares is what it should
be. -/
theorem issued_nonneg (hmoney : 0 ≤ money) (hscore : 0 < score)
    (hfits : money * 10000000 * 1000 < 2 ^ 31 * score) : 0 ≤ issued money score := by
  have hdiv : (money * 10000000 * 1000).tdiv score = money * 10000000 * 1000 / score :=
    Int.tdiv_eq_ediv_of_nonneg (by omega)
  have hlt : money * 10000000 * 1000 / score < 2 ^ 31 := Int.ediv_lt_of_lt_mul hscore hfits
  have hle : 0 ≤ money * 10000000 * 1000 / score := Int.ediv_nonneg (by omega) hscore.le
  rw [issued, hdiv, if_pos ⟨by omega, by omega, hlt⟩]
  exact hle

theorem Ok.newStock (h : m.Ok) (hmoney : 1 ≤ money) (hscore : 0 < score)
    (hfits : money * 10000000 * 1000 < 2 ^ 31 * score)
    (hfree : ∀ slot ∈ freePlace boardname (m.stocks.take n), ∀ u, (m.users u).held slot = 0)
    (now : Nat) : (m.newStock n boardname money score now).Ok := by
  have hnonneg := issued_nonneg (by omega) hscore hfits
  have hnew : ∀ {g : U → Int}, (∀ u, g u = 0) → Books (listing boardname money score now) g :=
    fun hzero => books_zero hzero rfl hnonneg rfl
  rw [Market.newStock, putStock]
  split
  · next slot hslot =>
      refine ⟨h.accounts, fun s hs u => h.unlisted s ?_ u, h.queues, fun s bs hbs => ?_⟩
      · rwa [List.length_set] at hs
      · rw [List.getElem?_set] at hbs
        split at hbs
        · next heq =>
            subst heq
            split at hbs
            · cases hbs
              exact hnew (hfree slot hslot)
            · contradiction
        · exact h.books s bs hbs
  · refine ⟨h.accounts, fun s hs u => h.unlisted s ?_ u, h.queues, fun s bs hbs => ?_⟩
    · rw [List.length_append, List.length_singleton] at hs
      omega
    · rcases Nat.lt_or_ge s m.stocks.length with hlt | hge
      · rw [List.getElem?_append_left hlt] at hbs
        exact h.books s bs hbs
      · rw [List.getElem?_append_right hge] at hbs
        have hmem := List.mem_of_getElem? hbs
        rw [List.mem_singleton] at hmem
        subst hmem
        exact hnew (h.unlisted s hge)

theorem Ok.delist (h : m.Ok) (stockid : Nat) : (m.delist stockid).Ok where
  accounts := h.accounts
  unlisted s hs u := h.unlisted s (by rwa [Market.delist, deleteList, List.length_modify] at hs) u
  queues type s tr htr := by
    rw [delist_queue] at htr
    by_cases hs : s = stockid
    · subst hs
      rw [update_self] at htr
      contradiction
    · rw [update_of_ne hs] at htr
      exact h.queues type s tr htr
  books s bs hbs := by
    rw [Market.delist, deleteList, List.getElem?_modify] at hbs
    cases hold : m.stocks[s]? with
    | none =>
        rw [hold] at hbs
        contradiction
    | some bs' =>
        have hbooks := h.books s bs' hold
        rw [hold] at hbs
        split at hbs
        · cases hbs
          exact ⟨hbooks.remain_nonneg, hbooks.conserved, hbooks.holderNum⟩
        · cases hbs
          exact hbooks

theorem Ok.setQueue (h : m.Ok) (type : TradeType) {s : Nat}
    {list : List (TradeRecord U F)} (hlist : ∀ tr ∈ list, tr.stockid = s) :
    (m.setQueue type s list).Ok where
  accounts := h.accounts
  unlisted := h.unlisted
  queues type' s' tr htr := by
    rw [Market.setQueue] at htr
    dsimp only at htr
    by_cases htype : type' = type
    · subst htype
      rw [update_self] at htr
      by_cases hs : s' = s
      · subst hs
        rw [update_self] at htr
        exact hlist tr htr
      · rw [update_of_ne hs] at htr
        exact h.queues type' s' tr htr
    · rw [update_of_ne htype] at htr
      exact h.queues type' s' tr htr
  books := h.books

end Listing

theorem partyAccounts_ok {m : Market U F} (h : ∀ u, (m.users u).Ok) : (partyAccounts m.users).Ok
  | some u => h u
  | none => sysTrader_ok 0 (Int.le_refl 0)

/-- What the trade with the users and the system leaves. -/
theorem Ok.setDeal [Fintype U] {m : Market U F} {d : Deal U F} {s : Nat} (h : m.Ok)
    (hs : s < m.stocks.length) (hd : d.Ok (partyAccounts m.users) s) :
    ({ m with stocks := m.stocks.set s d.bs, users := fun u => d.acct (some u) } : Market U F).Ok where
  accounts u := hd.ok (some u)
  unlisted k hk u := by
    rw [List.length_set] at hk
    have hne : k ≠ s := by omega
    exact (hd.others k hne u).trans (h.unlisted k hk u)
  queues := h.queues
  books k bs hbs := by
    rw [List.getElem?_set] at hbs
    split at hbs
    · next heq =>
        subst heq
        cases hbs
        exact hd.books
    · next hne =>
        have hsame : (fun u => (d.acct (some u)).held k) = fun u => (m.users u).held k :=
          funext fun u => hd.others k (Ne.symm hne) u
        dsimp only
        rw [hsame]
        exact h.books k bs hbs

section Trading

theorem mem_addToWaitingList [DecidableEq U] {list : List (TradeRecord U F)} {mytr tr : TradeRecord U F}
    (h : tr ∈ addToWaitingList list mytr) :
    tr ∈ list ∨ tr = mytr := by
  rw [addToWaitingList] at h
  split at h
  · exact Or.inl h
  · split at h
    · exact (List.mem_or_eq_of_mem_set h)
    · rwa [List.mem_append, List.mem_singleton] at h

variable [DecidableEq U] [Fintype U] {pr : Prices F} {m : Market U F} {d : Deal U F}
  {bs : BoardStock} {input : TradeInput U F} {s stockid : Nat}

/-- `getMyStock` changes no holding. -/
theorem Ok.enterStock (h : m.Ok) (stockid : Nat) (u : U) : (m.enterStock stockid u).2.Ok := by
  rw [Market.enterStock]
  cases hget : getMyStock (m.users u) stockid with
  | mk idx a =>
      have ha : a.Ok ∧ a.held = (m.users u).held := by
        cases idx with
        | none =>
            rw [getMyStock_none hget]
            exact ⟨h.accounts u, rfl⟩
        | some i =>
            obtain ⟨hok, -, hheld, -⟩ := getMyStock_spec (h.accounts u) hget
            exact ⟨hok, hheld⟩
      have hsame : ∀ s, (fun v => (update m.users u a v).held s) = fun v => (m.users v).held s := by
        intro s
        funext v
        by_cases hv : v = u
        · subst hv
          rw [update_self, ha.2]
        · rw [update_of_ne hv]
      refine ⟨fun v => ?_, fun s hs v => ?_, h.queues, fun s bs hbs => ?_⟩
      · dsimp only
        by_cases hv : v = u
        · subst hv
          rw [update_self]
          exact ha.1
        · rw [update_of_ne hv]
          exact h.accounts v
      · exact (congrFun (hsame s) v).trans (h.unlisted s hs v)
      · rw [hsame s]
        exact h.books s bs hbs

/-- A user trades with the other users, and then with the system. -/
theorem Ok.doTrade (h : m.Ok) (hbs : m.stocks[stockid]? = some bs)
    (hstays : SystemStays pr (m.userDeal pr bs stockid input).1 input.sysPrice) :
    (m.doTrade pr bs stockid input).Ok := by
  have hlt : stockid < m.stocks.length := (List.getElem?_eq_some_iff.mp hbs).1
  have hbegin : Deal.Ok (partyAccounts m.users) stockid
      ⟨bs, order stockid input, partyAccounts m.users⟩ :=
    ⟨partyAccounts_ok h.accounts, fun _ _ _ => rfl, h.books stockid bs hbs, rfl, Option.some_ne_none _⟩
  obtain ⟨huser, hlist⟩ := hbegin.withUser (h.queues input.tradeType.other stockid)
  have hsys := Deal.Ok.withSys huser hstays
  have hmarket := (h.setDeal hlt hsys).setQueue input.tradeType.other hlist
  rw [Market.doTrade]
  split
  · refine hmarket.setQueue input.tradeType fun tr htr => ?_
    rcases mem_addToWaitingList htr with hold | rfl
    · exact hmarket.queues _ _ tr hold
    · exact hsys.stockid
  · exact hmarket

/-- **One operation** that meets the condition. -/
theorem Ok.step {m' : Market U F} {op : StockOp U F} (h : m.Ok) (hsound : m.Sound pr op)
    (hstep : m.step pr op = some m') : m'.Ok := by
  cases op with
  | newStock n boardname money score now =>
      obtain ⟨hscore, hfits, hfree⟩ := hsound
      rw [Market.step] at hstep
      split at hstep
      · next hdialog =>
          cases hstep
          exact h.newStock hdialog.2.1 hscore hfits hfree now
      · contradiction
  | delist stockid =>
      rw [Market.step] at hstep
      split at hstep
      · cases hstep
        exact h.delist stockid
      · contradiction
  | trade stockid input =>
      rw [Market.step] at hstep
      split at hstep
      · obtain ⟨bs, hbs, rfl⟩ := Option.map_eq_some_iff.mp hstep
        have hstays := hsound bs hbs
        rw [tradeInteractive]
        dsimp only at hstays ⊢
        split
        · next hmay => exact (h.enterStock stockid input.user).doTrade hbs (hstays hmay)
        · exact h.enterStock stockid input.user
      · contradiction

end Trading

end Market

/-! ## Runs -/

open Market

/-- **The stock market.**  While nobody holds shares of a stock that was listed in the
place of a new one, the number of shares fits, and the system neither sells its last
share nor buys its first, no share of a listed stock is lost: what the system and the
users hold sums up to the number of shares, nothing is overdrawn, no user has a stock in
two slots, and `holderNum` is the number of users who hold shares. -/
theorem stock_run {U F : Type} [DecidableEq U] [Fintype U] {pr : Prices F}
    {cash lastActiveTime : U → Int} {ops : List (StockOp U F)} {m : Market U F}
    (h : Run (when (Sound pr) (Market.step pr)) (start cash lastActiveTime) ops m) :
    (∀ s bs, m.stocks[s]? = some bs → bs.timeStamp ≠ 0 →
      bs.remainNum + ∑ u, (m.users u).held s = bs.totalStockNum ∧ 0 ≤ bs.remainNum ∧
        bs.holderNum = holders fun u => (m.users u).held s) ∧
    ∀ u i, 0 ≤ ((m.users u).stock i).num ∧
      ∀ j, i ≠ j → ((m.users u).stock i).stockid = ((m.users u).stock j).stockid →
        ((m.users u).stock i).num = 0 ∨ ((m.users u).stock j).num = 0 := by
  have hok : m.Ok := h.invariant_when Market.Ok (start_ok cash lastActiveTime)
    fun m op m' hm hsound hstep => hm.step hsound hstep
  refine ⟨fun s bs hbs _ => ?_, fun u i => ⟨(hok.accounts u).nonneg i, fun j hne hid => ?_⟩⟩
  · have hbooks := hok.books s bs hbs
    exact ⟨hbooks.conserved, hbooks.remain_nonneg, hbooks.holderNum⟩
  · rcases lt_or_gt_of_ne hne with hlt | hgt
    · exact Or.inr ((hok.accounts u).first i j hlt hid)
    · exact Or.inl ((hok.accounts u).first j i hgt hid.symm)

/-- Prices in whole units of money. -/
def wholePrices : Prices Int where
  below p q := p < q
  cashBelow cash price := cash < price
  cashBelowCost cash num price := cash < num * price
  canBuy cash price := if price = 0 then -2 ^ 31 else cash.tdiv price
  cost num price := num * price
  credited cash money := (1000 * cash + 999 * money).tdiv 1000

/-- A user with a thousand buys a hundred shares at one each. -/
def buyHundred : TradeInput Unit Int := ⟨(), .buy, 100, 1, 1, fun _ => true⟩

theorem stock_run_one_trade : ∃ m : Market Unit Int,
    Run (when (Sound wholePrices) (Market.step wholePrices)) (start (fun _ => 1000) fun _ => 1)
      [.newStock 1 [65] 1 1000 1, .trade 0 buyHundred] m ∧
    (m.users ()).held 0 = 100 ∧
    (∀ s bs, m.stocks[s]? = some bs → bs.timeStamp ≠ 0 →
      bs.remainNum + ∑ u, (m.users u).held s = bs.totalStockNum ∧ 0 ≤ bs.remainNum ∧
        bs.holderNum = holders fun u => (m.users u).held s) ∧
    ∀ u i, 0 ≤ ((m.users u).stock i).num ∧
      ∀ j, i ≠ j → ((m.users u).stock i).stockid = ((m.users u).stock j).stockid →
        ((m.users u).stock i).num = 0 ∨ ((m.users u).stock j).num = 0 := by
  have hexec : ∃ m ∈ exec (when (Sound wholePrices) (Market.step wholePrices))
      (start (fun _ => 1000) fun _ => 1) [.newStock 1 [65] 1 1000 1, .trade 0 buyHundred],
      (m.users ()).held 0 = 100 := by
    decide +kernel
  obtain ⟨m, hm, hheld⟩ := hexec
  exact ⟨m, Run.of_exec hm, hheld, stock_run (Run.of_exec hm)⟩

/-- A stock is listed in the place of a delisted one: what the user held of the old one
he now holds of the new one, of which the system holds all shares. -/
theorem stock_relisted : ∃ m : Market Unit Int,
    Run (Market.step wholePrices) (start (fun _ => 1000) fun _ => 1)
      [.newStock 1 [65] 1 1000 1, .trade 0 buyHundred, .delist 0, .newStock 1 [66] 1 1000 2] m ∧
    ∃ bs, m.stocks[0]? = some bs ∧ bs.boardname = [66] ∧ bs.timeStamp ≠ 0 ∧
      bs.remainNum + ∑ u, (m.users u).held 0 ≠ bs.totalStockNum := by
  have hexec : ∃ m ∈ exec (Market.step wholePrices) (start (fun _ => 1000) fun _ => 1)
      [.newStock 1 [65] 1 1000 1, .trade 0 buyHundred, .delist 0, .newStock 1 [66] 1 1000 2],
      ∃ bs ∈ m.stocks[0]?, bs.boardname = [66] ∧ bs.timeStamp ≠ 0 ∧
        bs.remainNum + ∑ u, (m.users u).held 0 ≠ bs.totalStockNum := by
    decide +kernel
  obtain ⟨m, hm, hlost⟩ := hexec
  exact ⟨m, Run.of_exec hm, hlost⟩

end Ytht
