import Ytht.Moneycenter.Trade

/-!
# Moneycenter.Floor

Runs of the stock market, order after order.

Each call of `tradeInteractive` places an order, and the orders are numbered as they come.
The history keeps the sizes of the orders and the calls of `tradeArithmetic`.  Between two
orders the users may do anything else, as long as nobody gets into debt.  While the trades
fit, every order is executed within its limit and its size (`orders_run`).
-/

namespace Ytht

open Bytes Function Ledger Runs Tally Market

variable {U : Type}

/-! ## Waiting lists -/

/-- One of the waiting lists is replaced. -/
def setList (queue : TradeType → Nat → List (TradeRecord U Offer)) (type : TradeType) (s : Nat)
    (list : List (TradeRecord U Offer)) : TradeType → Nat → List (TradeRecord U Offer) :=
  update queue type (update (queue type) s list)

section Lists

variable {queue : TradeType → Nat → List (TradeRecord U Offer)} {type type' : TradeType}
  {s s' : Nat} {list : List (TradeRecord U Offer)}

@[simp] theorem setList_self : setList queue type s list type s = list := by
  rw [setList, update_self, update_self]

theorem setList_of_ne (h : ¬ (type' = type ∧ s' = s)) :
    setList queue type s list type' s' = queue type' s' := by
  rw [setList]
  by_cases htype : type' = type
  · rw [htype, update_self, update_of_ne fun hs => h ⟨htype, hs⟩]
  · rw [update_of_ne htype]

end Lists

variable [DecidableEq U]

/-- The waiting lists hold what is left of older orders, one for each user, and each order
is in one list. -/
structure Queues (quota : Int → Int) (serial : Nat) (calls : List (Call U))
    (queue : TradeType → Nat → List (TradeRecord U Offer)) : Prop where
  waiting : ∀ type s, ∀ utr ∈ queue type s, Waiting quota serial s calls utr
  serials : ∀ type s, ((queue type s).map fun tr => tr.price.serial).Nodup
  users : ∀ type s, ((queue type s).map fun tr => tr.userid).Nodup
  apart : ∀ type s type' s', ∀ x ∈ queue type s, ∀ y ∈ queue type' s',
    x.price.serial = y.price.serial → type = type' ∧ s = s'

theorem nodup_addToWaitingList {β : Type} {key : TradeRecord U Offer → β}
    {list : List (TradeRecord U Offer)} {mytr : TradeRecord U Offer} (h : (list.map key).Nodup)
    (hnew : key mytr ∉ list.map key) : ((addToWaitingList list mytr).map key).Nodup := by
  rw [addToWaitingList]
  split
  · exact h
  · split
    · rw [List.map_set]
      exact h.set hnew
    · rw [List.map_append, List.map_singleton]
      exact List.concat_eq_append ▸ h.concat hnew

/-- A new order takes the place of the user's old one. -/
theorem users_addToWaitingList {list : List (TradeRecord U Offer)} {mytr : TradeRecord U Offer}
    (h : (list.map fun tr => tr.userid).Nodup) :
    ((addToWaitingList list mytr).map fun tr => tr.userid).Nodup := by
  cases hfind : list.findIdx? fun tr => tr.userid = mytr.userid with
  | none =>
      refine nodup_addToWaitingList h fun hold => ?_
      obtain ⟨tr, hmem, huser⟩ := List.mem_map.mp hold
      exact absurd huser (by simpa using List.findIdx?_eq_none_iff.mp hfind tr hmem)
  | some slot =>
      obtain ⟨hlt, huser, -⟩ := List.findIdx?_eq_some_iff_getElem.mp hfind
      have hplace : orderPlace list mytr = some slot := by rw [orderPlace, hfind]
      rw [addToWaitingList, hplace]
      split
      · exact h
      · have hsame : (list.set slot mytr).map (fun tr => tr.userid) =
            list.map fun tr => tr.userid := by
          rw [List.map_set, ← of_decide_eq_true huser]
          exact List.ext_getElem (by simp) fun i _ _ => by
            rw [List.getElem_set]
            split
            · next heq =>
              subst heq
              rw [List.getElem_map]
            · rfl
        rwa [hsame]

namespace Queues

variable {quota quota' : Int → Int} {serial serial' s : Nat} {calls more : List (Call U)}
  {queue : TradeType → Nat → List (TradeRecord U Offer)} {type : TradeType}
  {list : List (TradeRecord U Offer)} {mytr : TradeRecord U Offer}

theorem mono (h : Queues quota serial calls queue) (hquota : ∀ k, quota k ≤ quota' k)
    (hserial : serial ≤ serial') : Queues quota' serial' calls queue where
  waiting type s utr hutr :=
    have hold := h.waiting type s utr hutr
    ⟨hold.stockid, hold.user, hold.older.trans_le hserial, hold.left.mono (hquota _)⟩
  serials := h.serials
  users := h.users
  apart := h.apart

/-- Calls that fill no order of the lists. -/
theorem other (h : Queues quota serial calls queue) (hmore : ∀ f ∈ fills more, f.1 = serial) :
    Queues quota serial (calls ++ more) queue where
  waiting type s utr hutr := by
    have hold := h.waiting type s utr hutr
    refine hold.other fun f hf heq => ?_
    have hlt := hold.older
    have hmine := hmore f hf
    omega
  serials := h.serials
  users := h.users
  apart := h.apart

/-- Calls that fill orders of one of the lists. -/
theorem filled (h : Queues quota serial calls queue)
    (hlist : ∀ utr ∈ list, Waiting quota serial s (calls ++ more) utr)
    (hsame : (list.map fun tr => (tr.userid, tr.price.serial)) =
      (queue type s).map fun tr => (tr.userid, tr.price.serial))
    (hmore : ∀ f ∈ fills more, f.1 = serial ∨ ∃ utr ∈ queue type s, f.1 = utr.price.serial) :
    Queues quota serial (calls ++ more) (setList queue type s list) := by
  have hserials : (list.map fun tr => tr.price.serial) =
      (queue type s).map fun tr => tr.price.serial := by
    have hsnd := congrArg (List.map Prod.snd) hsame
    rwa [List.map_map, List.map_map] at hsnd
  have husers : (list.map fun tr => tr.userid) = (queue type s).map fun tr => tr.userid := by
    have hfst := congrArg (List.map Prod.fst) hsame
    rwa [List.map_map, List.map_map] at hfst
  have hold : ∀ type' s', ∀ x ∈ setList queue type s list type' s',
      ∃ y ∈ queue type' s', y.price.serial = x.price.serial := by
    intro type' s' x hx
    by_cases hset : type' = type ∧ s' = s
    · obtain ⟨rfl, rfl⟩ := hset
      rw [setList_self] at hx
      have hmem := List.mem_map_of_mem (f := fun tr => tr.price.serial) hx
      rw [hserials] at hmem
      exact List.mem_map.mp hmem
    · rw [setList_of_ne hset] at hx
      exact ⟨x, hx, rfl⟩
  refine ⟨fun type' s' utr hutr => ?_, fun type' s' => ?_, fun type' s' => ?_,
    fun t₁ s₁ t₂ s₂ x hx y hy heq => ?_⟩
  · by_cases hset : type' = type ∧ s' = s
    · obtain ⟨rfl, rfl⟩ := hset
      rw [setList_self] at hutr
      exact hlist utr hutr
    · rw [setList_of_ne hset] at hutr
      have hwait := h.waiting type' s' utr hutr
      refine hwait.other fun f hf heq => ?_
      rcases hmore f hf with hmine | ⟨tr, htr, hyours⟩
      · have hlt := hwait.older
        omega
      · exact hset (h.apart type' s' type s utr hutr tr htr (by omega))
  · by_cases hset : type' = type ∧ s' = s
    · obtain ⟨rfl, rfl⟩ := hset
      rw [setList_self, hserials]
      exact h.serials type' s'
    · rw [setList_of_ne hset]
      exact h.serials type' s'
  · by_cases hset : type' = type ∧ s' = s
    · obtain ⟨rfl, rfl⟩ := hset
      rw [setList_self, husers]
      exact h.users type' s'
    · rw [setList_of_ne hset]
      exact h.users type' s'
  · obtain ⟨x', hx', hxeq⟩ := hold t₁ s₁ x hx
    obtain ⟨y', hy', hyeq⟩ := hold t₂ s₂ y hy
    exact h.apart t₁ s₁ t₂ s₂ x' hx' y' hy' (by omega)

/-- A new order joins one of the lists. -/
theorem add (h : Queues quota serial calls queue)
    (hmytr : Waiting quota (serial + 1) s calls mytr) (hserial : mytr.price.serial = serial) :
    Queues quota (serial + 1) calls
      (setList queue type s (addToWaitingList (queue type s) mytr)) := by
  have hmem : ∀ type' s',
      ∀ x ∈ setList queue type s (addToWaitingList (queue type s) mytr) type' s',
      x ∈ queue type' s' ∨ (x = mytr ∧ type' = type ∧ s' = s) := by
    intro type' s' x hx
    by_cases hset : type' = type ∧ s' = s
    · obtain ⟨rfl, rfl⟩ := hset
      rw [setList_self] at hx
      exact (mem_addToWaitingList hx).imp_right fun hx => ⟨hx, rfl, rfl⟩
    · rw [setList_of_ne hset] at hx
      exact Or.inl hx
  have hold : ∀ type' s', ∀ x ∈ queue type' s', x.price.serial < serial :=
    fun type' s' x hx => (h.waiting type' s' x hx).older
  refine ⟨fun type' s' utr hutr => ?_, fun type' s' => ?_, fun type' s' => ?_,
    fun t₁ s₁ t₂ s₂ x hx y hy heq => ?_⟩
  · rcases hmem type' s' utr hutr with hutr | ⟨rfl, rfl, rfl⟩
    · have hwait := h.waiting type' s' utr hutr
      exact ⟨hwait.stockid, hwait.user, hwait.older.trans (Nat.lt_succ_self serial), hwait.left⟩
    · exact hmytr
  · by_cases hset : type' = type ∧ s' = s
    · obtain ⟨rfl, rfl⟩ := hset
      rw [setList_self]
      refine nodup_addToWaitingList (h.serials type' s') fun hnew => ?_
      obtain ⟨tr, htr, heq⟩ := List.mem_map.mp hnew
      have hlt := hold type' s' tr htr
      omega
    · rw [setList_of_ne hset]
      exact h.serials type' s'
  · by_cases hset : type' = type ∧ s' = s
    · obtain ⟨rfl, rfl⟩ := hset
      rw [setList_self]
      exact users_addToWaitingList (h.users type' s')
    · rw [setList_of_ne hset]
      exact h.users type' s'
  · rcases hmem t₁ s₁ x hx with hxold | ⟨rfl, rfl, rfl⟩
    · rcases hmem t₂ s₂ y hy with hyold | ⟨rfl, rfl, rfl⟩
      · exact h.apart t₁ s₁ t₂ s₂ x hxold y hyold heq
      · have hlt := hold t₁ s₁ x hxold
        omega
    · rcases hmem t₂ s₂ y hy with hyold | ⟨rfl, rfl, rfl⟩
      · have hlt := hold t₂ s₂ y hyold
        omega
      · exact ⟨rfl, rfl⟩

/-- The lists of one stock are deleted. -/
theorem delete (h : Queues quota serial calls queue) (stockid : Nat) :
    Queues quota serial calls fun type => update (queue type) stockid [] := by
  have hmem : ∀ type' s', ∀ x ∈ update (queue type') stockid [] s', x ∈ queue type' s' := by
    intro type' s' x hx
    by_cases hs : s' = stockid
    · rw [hs, update_self] at hx
      contradiction
    · rwa [update_of_ne hs] at hx
  refine ⟨fun type' s' utr hutr => h.waiting type' s' utr (hmem type' s' utr hutr),
    fun type' s' => ?_, fun type' s' => ?_, fun t₁ s₁ t₂ s₂ x hx y hy =>
      h.apart t₁ s₁ t₂ s₂ x (hmem t₁ s₁ x hx) y (hmem t₂ s₂ y hy)⟩
  · by_cases hs : s' = stockid
    · rw [hs, update_self]
      exact List.nodup_nil
    · rw [update_of_ne hs]
      exact h.serials type' s'
  · by_cases hs : s' = stockid
    · rw [hs, update_self]
      exact List.nodup_nil
    · rw [update_of_ne hs]
      exact h.users type' s'

end Queues

/-! ## Runs -/

/-- The account of a user who has no debts. -/
structure Purse where
  account : McUserInfo
  ok : account.Ok
  cash_nonneg : 0 ≤ account.cash
  cash_lt : account.cash < 2 ^ 31
  held_lt : ∀ s, account.held s < 2 ^ 31

/-- A stock that the system does not owe. -/
structure Quoted where
  bs : BoardStock
  remain : 0 ≤ bs.remainNum ∧ bs.remainNum < 2 ^ 31

/-- What a user enters, with the number of the order. -/
def numbered (input : TradeInput U ℚ) (serial : Nat) : TradeInput U Offer where
  user := input.user
  tradeType := input.tradeType
  inputNum := input.inputNum
  inputPrice := ⟨input.inputPrice, serial⟩
  sysPrice := ⟨input.sysPrice, serial⟩
  loads := input.loads

/-- The numbers make no difference to a trade. -/
theorem trade_price (m : Market U Offer) (bs : BoardStock) (stockid : Nat)
    (input : TradeInput U ℚ) (serial : Nat) :
    (m.tradeInteractive offerPrices bs stockid (numbered input serial)).map Offer.price =
      (m.map Offer.price).tradeInteractive exactPrices bs stockid input :=
  tradeInteractive_map Offer.price ..

/-- The market, the sizes of the orders, and the calls that have been made. -/
structure Floor (U : Type) where
  market : Market U Offer
  placed : List Int
  calls : List (Call U)

inductive FloorEvent (U : Type)
  | trade (stockid : Nat) (input : TradeInput U ℚ)
  /-- the users do something else -/
  | elsewhere (accounts : U → Purse)
  | deleteList (stockid : Nat)

/-- The calls of `doTrade`. -/
def orderCalls (m : Market U Offer) (bs : BoardStock) (stockid : Nat)
    (input : TradeInput U Offer) : List (Call U) :=
  userCalls input.loads ⟨bs, order stockid input, partyAccounts m.users⟩
      (m.queue input.tradeType.other stockid) ++
    (sysCall (m.userDeal offerPrices bs stockid input).1 input.sysPrice).toList

/-- The calls of `tradeInteractive`. -/
def tradeCalls (m : Market U Offer) (bs : BoardStock) (stockid : Nat)
    (input : TradeInput U Offer) : List (Call U) :=
  let r := m.enterStock stockid input.user
  if mayTrade offerPrices bs (r.2.users input.user) r.1 input then
    orderCalls r.2 bs stockid input
  else []

namespace Floor

/-- The floor before the first order. -/
def start (stocks : List Quoted) (accounts : U → Purse) : Floor U where
  market := ⟨stocks.map Quoted.bs, fun _ _ => [], fun u => (accounts u).account⟩
  placed := []
  calls := []

def step (f : Floor U) : FloorEvent U → Option (Floor U)
  | .trade stockid input =>
      if stockid < 100 ∧ 100 ≤ input.inputNum then
        f.market.stocks[stockid]?.map fun bs =>
          let input := numbered input f.placed.length
          { market := f.market.tradeInteractive offerPrices bs stockid input
            placed := f.placed ++ [input.inputNum]
            calls := f.calls ++ tradeCalls f.market bs stockid input }
      else none
  | .elsewhere accounts =>
      some { f with market := { f.market with users := fun u => (accounts u).account } }
  | .deleteList stockid => some { f with market := f.market.deleteList stockid }

/-- Every trade that the event makes fits. -/
def Fits (f : Floor U) : FloorEvent U → Prop
  | .trade stockid input =>
      ∀ bs ∈ f.market.stocks[stockid]?,
        ∀ c ∈ tradeCalls f.market bs stockid (numbered input f.placed.length), c.Fits
  | .elsewhere _ => True
  | .deleteList _ => True

instance (f : Floor U) : (e : FloorEvent U) → Decidable (f.Fits e)
  | .trade _ _ => inferInstanceAs (Decidable (∀ bs ∈ f.market.stocks[_]?, ∀ c ∈ _, Call.Fits c))
  | .elsewhere _ => isTrue trivial
  | .deleteList _ => isTrue trivial

/-- How many shares the orders are for. -/
def quantity (placed : List Int) (k : Int) : Int := placed.getD k.toNat 0

/-- Everybody is solvent, the lists hold what is left of the orders, and the calls have kept
to the limits and to the sizes. -/
structure Ok (f : Floor U) : Prop where
  solvent : (partyAccounts f.market.users).Solvent
  remain : ∀ bs ∈ f.market.stocks, 0 ≤ bs.remainNum ∧ bs.remainNum < 2 ^ 31
  queues : Queues (quantity f.placed) f.placed.length f.calls f.market.queue
  settled : ∀ c ∈ f.calls, 0 < c.result.num → c.Settled
  filled : ∀ k, net (fills f.calls) k ≤ quantity f.placed k
  fresh : ∀ x ∈ fills f.calls, x.1 < f.placed.length

section Quantity

variable {placed : List Int} {n k : Int}

theorem quantity_last : quantity (placed ++ [n]) placed.length = n := by
  rw [quantity, Int.toNat_natCast, List.getD_append_right _ _ _ _ (Nat.le_refl _), Nat.sub_self]
  rfl

theorem quantity_le (hn : 0 ≤ n) : quantity placed k ≤ quantity (placed ++ [n]) k := by
  unfold quantity
  rcases Nat.lt_or_ge k.toNat placed.length with hlt | hge
  · rw [List.getD_append _ _ _ _ hlt]
  · rw [List.getD_append_right _ _ _ _ hge, List.getD_eq_default _ _ hge]
    cases k.toNat - placed.length with
    | zero => exact hn
    | succ i => exact Int.le_refl 0

end Quantity

omit [DecidableEq U] in
/-- The account of the system is made up for each trade. -/
theorem solvent_users {users : U → McUserInfo} (hok : ∀ u, (users u).Ok)
    (hcash : ∀ u, 0 ≤ (users u).cash ∧ (users u).cash < 2 ^ 31)
    (hheld : ∀ u s, (users u).held s < 2 ^ 31) : (partyAccounts users).Solvent where
  ok p := by
    cases p with
    | some u => exact hok u
    | none => exact sysTrader_ok 0 (Int.le_refl 0)
  cash := hcash
  held_lt s p := by
    cases p with
    | some u => exact hheld u s
    | none =>
        have hzero : (sysTrader 0 0).held s = 0 := by
          by_cases hs : s = 0
          · rw [hs, sysTrader_held 0 (Int.le_refl 0)]
          · exact sysTrader_held_of_ne hs
        show (sysTrader 0 0).held s < 2 ^ 31
        omega

omit [DecidableEq U] in
theorem solvent_purses (accounts : U → Purse) :
    (partyAccounts fun u => (accounts u).account).Solvent :=
  solvent_users (fun u => (accounts u).ok)
    (fun u => ⟨(accounts u).cash_nonneg, (accounts u).cash_lt⟩) fun u => (accounts u).held_lt

theorem start_ok (stocks : List Quoted) (accounts : U → Purse) : (start stocks accounts).Ok where
  solvent := solvent_purses accounts
  remain bs hbs := by
    obtain ⟨quoted, -, rfl⟩ := List.mem_map.mp hbs
    exact quoted.remain
  queues := ⟨fun _ _ utr h => absurd h List.not_mem_nil, fun _ _ => List.nodup_nil,
    fun _ _ => List.nodup_nil, fun _ _ _ _ x h => absurd h List.not_mem_nil⟩
  settled c h := absurd h List.not_mem_nil
  filled k := Int.le_refl 0
  fresh x h := absurd h List.not_mem_nil

variable [Fintype U] {f : Floor U} {bs : BoardStock} {stockid : Nat} {input : TradeInput U Offer}

theorem mem_fills_sys {d : Deal U Offer} {sysPrice : Offer} (huser : d.mytr.userid ≠ none)
    {x : Int × Int} (hx : x ∈ fills (sysCall d sysPrice).toList) : x.1 = d.mytr.price.serial := by
  cases hcall : sysCall d sysPrice with
  | none =>
      rw [hcall] at hx
      contradiction
  | some c =>
      rw [hcall, Option.toList_some, fills_singleton, (sysCall_some huser hcall).fills] at hx
      exact mem_fill hx

omit [Fintype U] in
/-- `getMyStock` changes no cash and no holding. -/
theorem Ok.enterStock (h : f.Ok) (stockid : Nat) (u : U) :
    Ok { f with market := (f.market.enterStock stockid u).2 } where
  solvent := by
    have hnew : (getMyStock (f.market.users u) stockid).2.Ok ∧
        (getMyStock (f.market.users u) stockid).2.held = (f.market.users u).held ∧
        (getMyStock (f.market.users u) stockid).2.cash = (f.market.users u).cash := by
      cases hget : getMyStock (f.market.users u) stockid with
      | mk idx a =>
          cases idx with
          | none =>
              rw [getMyStock_none hget]
              exact ⟨h.solvent.ok (some u), rfl, rfl⟩
          | some i =>
              obtain ⟨hok, -, hheld, hcash⟩ := getMyStock_spec (h.solvent.ok (some u)) hget
              exact ⟨hok, hheld, hcash⟩
    obtain ⟨hok, hheld, hcash⟩ := hnew
    have hsame : ∀ v, (f.market.enterStock stockid u).2.users v =
        if v = u then (getMyStock (f.market.users u) stockid).2 else f.market.users v :=
      fun v => update_apply ..
    refine solvent_users (fun v => ?_) (fun v => ?_) fun v s => ?_
    · rw [hsame]
      split
      · exact hok
      · exact h.solvent.ok (some v)
    · rw [hsame]
      split
      · rw [hcash]
        exact h.solvent.cash u
      · exact h.solvent.cash v
    · rw [hsame]
      split
      · rw [hheld]
        exact h.solvent.held_lt s (some u)
      · exact h.solvent.held_lt s (some v)
  remain := h.remain
  queues := h.queues
  settled := h.settled
  filled := h.filled
  fresh := h.fresh

omit [Fintype U] in
/-- A new order, of which nothing is executed yet. -/
theorem Ok.underway (h : f.Ok) (hbs : f.market.stocks[stockid]? = some bs)
    (hnum : 0 ≤ input.inputNum) (hserial : input.inputPrice.serial = f.placed.length) :
    Underway (quantity (f.placed ++ [input.inputNum])) f.placed.length stockid f.calls
      ⟨bs, order stockid input, partyAccounts f.market.users⟩ where
  solvent := h.solvent
  remain := h.remain bs (List.mem_of_getElem? hbs)
  stockid := rfl
  user := Option.some_ne_none _
  mine := hserial
  left := by
    have hnone : net (fills f.calls) f.placed.length = 0 :=
      net_eq_zero fun x hx => (h.fresh x hx).ne
    have hleft : Left (quantity (f.placed ++ [input.inputNum])) (fills f.calls) f.placed.length
        input.inputNum := ⟨hnum, by rw [hnone, quantity_last, Int.zero_add]⟩
    exact hserial ▸ hleft
  settled := h.settled
  filled k := (h.filled k).trans (quantity_le hnum)

omit [Fintype U] in
/-- What the calls of an order leave. -/
theorem Ok.leave {d : Deal U Offer} {more : List (Call U)} {n : Int}
    {queue : TradeType → Nat → List (TradeRecord U Offer)} (h : f.Ok)
    (hd : Underway (quantity (f.placed ++ [n])) f.placed.length stockid (f.calls ++ more) d)
    (hqueue : Queues (quantity (f.placed ++ [n])) (f.placed.length + 1) (f.calls ++ more) queue)
    (hfresh : ∀ x ∈ fills more, x.1 < f.placed.length + 1) :
    Ok { market := ⟨f.market.stocks.set stockid d.bs, queue, fun u => d.acct (some u)⟩
         placed := f.placed ++ [n]
         calls := f.calls ++ more } where
  solvent := solvent_users (fun u => hd.solvent.ok (some u)) hd.solvent.cash
    fun u s => hd.solvent.held_lt s (some u)
  remain bs hbs := by
    rcases List.mem_or_eq_of_mem_set hbs with hold | rfl
    · exact h.remain bs hold
    · exact hd.remain
  queues := by
    rw [List.length_append, List.length_singleton]
    exact hqueue
  settled := hd.settled
  filled := hd.filled
  fresh x hx := by
    rw [fills_append, List.mem_append] at hx
    rw [List.length_append, List.length_singleton, Nat.cast_add, Nat.cast_one]
    rcases hx with hold | hnew
    · have hlt := h.fresh x hold
      omega
    · exact hfresh x hnew

/-- **An order**: the users trade, then the system, and the rest is queued. -/
theorem Ok.doTrade (h : f.Ok) (hbs : f.market.stocks[stockid]? = some bs)
    (hnum : 0 ≤ input.inputNum) (hserial : input.inputPrice.serial = f.placed.length)
    (hfits : ∀ c ∈ orderCalls f.market bs stockid input, c.Fits) :
    Ok { market := f.market.doTrade offerPrices bs stockid input
         placed := f.placed ++ [input.inputNum]
         calls := f.calls ++ orderCalls f.market bs stockid input } := by
  have hqueues := h.queues.mono (fun k => quantity_le (k := k) hnum) (Nat.le_refl f.placed.length)
  rw [orderCalls, List.forall_mem_append] at hfits
  obtain ⟨huser, hlist, hsame, hfills⟩ := (h.underway hbs hnum hserial).withUser
    (hqueues.waiting input.tradeType.other stockid) (hqueues.serials _ _) hfits.1
  have hsys := huser.withSys fun c hc => hfits.2 c (Option.mem_toList.mpr hc)
  have hfillsSys := fun x => @mem_fills_sys U _ _ _ input.sysPrice huser.user x
  have hmine := huser.mine
  have hlists := (hqueues.filled hlist hsame hfills).other fun x hx =>
    (hfillsSys x hx).trans (congrArg _ hmine)
  rw [List.append_assoc] at hsys hlists
  have hfresh : ∀ x ∈ fills (orderCalls f.market bs stockid input), x.1 < f.placed.length + 1 := by
    intro x hx
    rw [orderCalls, fills_append, List.mem_append] at hx
    rcases hx with hx | hx
    · rcases hfills x hx with heq | ⟨utr, hutr, heq⟩
      · omega
      · have holder := (h.queues.waiting _ _ utr hutr).older
        omega
    · have heq := hfillsSys x hx
      omega
  rw [Market.doTrade]
  split
  · refine h.leave hsys (hlists.add ?_ hsys.mine) hfresh
    exact ⟨hsys.stockid, hsys.user, hsys.mine.trans_lt (Nat.lt_succ_self _), hsys.left⟩
  · exact h.leave hsys (hlists.mono (fun _ => Int.le_refl _) (Nat.le_succ _)) hfresh

omit [Fintype U] in
/-- An order that is refused. -/
theorem Ok.refused {n : Int} (h : f.Ok) (hnum : 0 ≤ n) :
    Ok { f with placed := f.placed ++ [n], calls := f.calls ++ [] } where
  solvent := h.solvent
  remain := h.remain
  queues := by
    rw [List.append_nil, List.length_append, List.length_singleton]
    exact h.queues.mono (fun _ => quantity_le hnum) (Nat.le_succ _)
  settled := by
    rw [List.append_nil]
    exact h.settled
  filled k := by
    rw [List.append_nil]
    exact (h.filled k).trans (quantity_le hnum)
  fresh x hx := by
    rw [List.append_nil] at hx
    have hlt := h.fresh x hx
    rw [List.length_append, List.length_singleton, Nat.cast_add]
    omega

/-- `tradeInteractive` -/
theorem Ok.trade (h : f.Ok) (input : TradeInput U Offer) (hbs : f.market.stocks[stockid]? = some bs)
    (hnum : 0 ≤ input.inputNum) (hserial : input.inputPrice.serial = f.placed.length)
    (hfits : ∀ c ∈ tradeCalls f.market bs stockid input, c.Fits) :
    Ok { market := f.market.tradeInteractive offerPrices bs stockid input
         placed := f.placed ++ [input.inputNum]
         calls := f.calls ++ tradeCalls f.market bs stockid input } := by
  have henter := h.enterStock stockid input.user
  rw [tradeCalls] at hfits ⊢
  rw [tradeInteractive]
  split
  · next hmay =>
    rw [if_pos hmay] at hfits
    exact henter.doTrade hbs hnum hserial hfits
  · exact henter.refused hnum

/-- **One event** whose trades fit. -/
theorem Ok.step {f' : Floor U} {e : FloorEvent U} (h : f.Ok) (hfits : f.Fits e)
    (hstep : f.step e = some f') : f'.Ok := by
  cases e with
  | trade stockid input =>
      rw [Floor.step] at hstep
      split at hstep
      · next hlimits =>
        obtain ⟨bs, hbs, rfl⟩ := Option.map_eq_some_iff.mp hstep
        have hnum : 0 ≤ input.inputNum := by omega
        exact h.trade (numbered input f.placed.length) hbs hnum rfl (hfits bs hbs)
      · contradiction
  | elsewhere accounts =>
      cases hstep
      exact { h with solvent := solvent_purses accounts }
  | deleteList stockid =>
      cases hstep
      exact { h with queues := h.queues.delete stockid }

/-- Orders are executed within their limits. -/
structure Right (f : Floor U) : Prop where
  settled : ∀ c ∈ f.calls, 0 < c.result.num → c.Settled
  executed_le : ∀ k num, f.placed[k]? = some num → executed f.calls k ≤ num
  cash_nonneg : ∀ u, 0 ≤ (f.market.users u).cash
  num_nonneg : ∀ u i, 0 ≤ ((f.market.users u).stock i).num
  one_order : ∀ type s, (f.market.queue type s).Pairwise fun x y =>
    0 < x.num → 0 < y.num → x.userid ≠ y.userid

omit [Fintype U] in
theorem Ok.right (h : f.Ok) : f.Right where
  settled := h.settled
  executed_le k num hk := by
    have hfilled := h.filled k
    rwa [quantity, Int.toNat_natCast, List.getD_eq_getElem?_getD, hk] at hfilled
  cash_nonneg u := (h.solvent.cash u).1
  num_nonneg u i := (h.solvent.ok (some u)).nonneg i
  one_order type s :=
    (List.pairwise_map.mp (h.queues.users type s)).imp fun hne _ _ => hne

end Floor

open Floor

/-- **Orders** are executed within their limits in every run whose trades fit. -/
theorem orders_run [Fintype U] {stocks : List Quoted} {accounts : U → Purse}
    {events : List (FloorEvent U)} {f : Floor U}
    (h : Run (when Fits Floor.step) (start stocks accounts) events f) : f.Right :=
  (h.invariant_when Floor.Ok (start_ok stocks accounts)
    fun _ _ _ hf hfits hstep => hf.step hfits hstep).right

/-- A user who holds shares of the first stock. -/
def holder (cash num : Int) (hcash : 0 ≤ cash ∧ cash < 2 ^ 31) (hnum : 0 ≤ num ∧ num < 2 ^ 31) :
    Purse where
  account := { sysTrader 0 num with cash := cash }
  ok := ⟨(sysTrader_ok 0 hnum.1).nonneg, (sysTrader_ok 0 hnum.1).first⟩
  cash_nonneg := hcash.1
  cash_lt := hcash.2
  held_lt s := by
    show (sysTrader 0 num).held s < 2 ^ 31
    by_cases hs : s = 0
    · rw [hs, sysTrader_held 0 hnum.1]
      exact hnum.2
    · rw [sysTrader_held_of_ne hs]
      decide

/-- Five of ten million shares are the system's. -/
def halfSold : Quoted := ⟨⟨[65], 1, 10000000, 5000000, 0, 1⟩, by decide⟩

/-- One user has five million shares and two thousand million, and another one has two hundred
million. -/
def twoPurses : Bool → Purse
  | true => holder 2000000000 5000000 (by decide) (by decide)
  | false => holder 200000000 0 (by decide) (by decide)

def sellAtThirty (num : Int) : FloorEvent Bool :=
  .trade 0 ⟨true, .sell, num, 30, 28, fun _ => true⟩

def buyAtThirty (num : Int) : FloorEvent Bool :=
  .trade 0 ⟨false, .buy, num, 30, 31, fun _ => true⟩

theorem orders_run_hundred : ∃ f : Floor Bool,
    Run (when Fits Floor.step) (start [halfSold] twoPurses) [sellAtThirty 100, buyAtThirty 100] f ∧
      executed f.calls 0 = 100 ∧ (f.market.users true).cash = 2000002997 ∧ f.Right := by
  have hexec : ∃ f ∈ exec (when Fits Floor.step) (start [halfSold] twoPurses)
      [sellAtThirty 100, buyAtThirty 100],
      executed f.calls 0 = 100 ∧ (f.market.users true).cash = 2000002997 := by
    decide +kernel
  obtain ⟨f, hf, hfilled, hcash⟩ := hexec
  exact ⟨f, Run.of_exec hf, hfilled, hcash, orders_run (Run.of_exec hf)⟩

/-- The seller of five million shares comes to have less than nothing. -/
theorem seller_overflows : ∃ f : Floor Bool,
    Run Floor.step (start [halfSold] twoPurses) [sellAtThirty 5000000, buyAtThirty 5000000] f ∧
      (f.market.users true).cash = -2 ^ 31 ∧ ¬ f.Right := by
  have hexec : ∃ f ∈ exec Floor.step (start [halfSold] twoPurses)
      [sellAtThirty 5000000, buyAtThirty 5000000], (f.market.users true).cash = -2 ^ 31 := by
    decide +kernel
  obtain ⟨f, hf, hcash⟩ := hexec
  refine ⟨f, Run.of_exec hf, hcash, fun hright => ?_⟩
  have hnonneg := hright.cash_nonneg true
  omega

end Ytht
