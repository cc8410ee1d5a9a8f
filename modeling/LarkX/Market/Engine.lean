import LarkX.Evaluate.Market

/-!
# The market engine

`market_engine.cpp`: at the start of every block each dirty market is matched once. The engine
walks the order books of the *database* (`bidItr`, `shortItr`, `collateralItr` downwards from
the end of the market, `askItr` upwards from its start) and writes what it trades to a pending
state of its own, which is applied to the state of the block when matching ends. When matching
throws, that state is dropped and the error is recorded in the status of the market.

An iterator is the list of the entries it has not passed yet.
-/

namespace LarkX

/-! ### Orders and trades -/

/-- `order_type_enum`, without the null order. -/
inductive OrderType
  | bidOrder
  | askOrder
  | shortOrder
  | coverOrder
  deriving DecidableEq, Repr

/-- `market_order`. The collateral and the expiration are those of a margin position and are
read for cover orders only. -/
structure MarketOrder where
  type : OrderType
  marketIndex : MarketIndexKey
  state : OrderRecord
  collateral : ℤ := 0
  expiration : ℕ := 0
  deriving DecidableEq, Repr

namespace MarketOrder

/-- `get_price()`. -/
def getPrice (o : MarketOrder) : Price :=
  o.marketIndex.orderPrice

/-- `get_owner()`. -/
def getOwner (o : MarketOrder) : Address :=
  o.marketIndex.owner

/-- `get_balance()`: bids and covers are in the quote asset, asks and shorts in the base. -/
def getBalance (o : MarketOrder) : Asset :=
  match o.type with
  | .bidOrder | .coverOrder => ⟨o.state.balance, o.getPrice.quoteAssetId⟩
  | .askOrder | .shortOrder => ⟨o.state.balance, o.getPrice.baseAssetId⟩

/-- `get_quantity()`. -/
def getQuantity (o : MarketOrder) : Fallible Asset :=
  match o.type with
  | .bidOrder => o.getBalance.mulPrice o.getPrice
  | .askOrder | .shortOrder => return o.getBalance
  | .coverOrder => return ⟨(wrap64 (o.collateral * 3)).tdiv 4, 0⟩

/-- `get_quote_quantity()`. -/
def getQuoteQuantity (o : MarketOrder) : Fallible Asset :=
  match o.type with
  | .bidOrder | .coverOrder => return o.getBalance
  | .askOrder | .shortOrder => o.getBalance.mulPrice o.getPrice

/-- The order with another balance. -/
def setBalance (o : MarketOrder) (balance : ℤ) : MarketOrder :=
  { o with state := { o.state with balance } }

end MarketOrder

/-- `market_transaction`: one trade. -/
structure MarketTransaction where
  bidOwner : Address
  askOwner : Address
  bidPrice : Price
  askPrice : Price
  bidPaid : Asset := {}
  bidReceived : Asset := {}
  /-- Set when the bid is a short. -/
  shortCollateral : Asset := {}
  askPaid : Asset := {}
  askReceived : Asset := {}
  feesCollected : Asset := {}
  deriving DecidableEq, Repr

/-- `push_market_transaction`: the checks on a trade. -/
def checkMarketTransaction (mtrx : MarketTransaction) : Fallible Unit :=
  if mtrx.askPaid.amount ≠ 0 ∨ mtrx.askReceived.amount ≠ 0 ∨ mtrx.bidReceived.assetId ≠ 0 ∨
      mtrx.bidPaid.amount ≠ 0 then do
    require (0 ≤ mtrx.bidPaid.amount) (.assertion "mtrx.bid_paid.amount >= 0")
    require (0 ≤ mtrx.askPaid.amount) (.assertion "mtrx.ask_paid.amount >= 0")
    require (0 ≤ mtrx.bidReceived.amount) (.assertion "mtrx.bid_received.amount >= 0")
    require (0 ≤ mtrx.askReceived.amount) (.assertion "mtrx.ask_received.amount>= 0")
    require (mtrx.bidPaid.ge mtrx.askReceived) (.assertion "mtrx.bid_paid >= mtrx.ask_received")
    require (mtrx.askPaid.ge mtrx.bidReceived) (.assertion "mtrx.ask_paid >= mtrx.bid_received")
    require (0 ≤ mtrx.feesCollected.amount) (.assertion "mtrx.fees_collected.amount >= 0")
  else return ()

/-- An iterator over an order book. -/
abbrev BookIterator (α : Type) := List (MarketIndexKey × α)

/-- `market_engine`, with the locals of `execute` that live across the loop. -/
structure MarketEngine where
  pendingState : ChainInterface
  quoteId : ℤ
  baseId : ℤ
  quoteAsset : AssetRecord
  baseAsset : AssetRecord
  feedPrice : Option Price := none
  currentBid : Option MarketOrder := none
  currentAsk : Option MarketOrder := none
  currentCollatRecord : CollateralRecord := {}
  ordersFilled : ℤ := 0
  lastOrdersFilled : ℤ := -1
  tradingVolume : Asset := {}
  bidItr : BookIterator OrderRecord := []
  askItr : BookIterator OrderRecord := []
  shortItr : BookIterator OrderRecord := []
  collateralItr : BookIterator CollateralRecord := []

namespace MarketEngine

/-- The market of the engine. -/
def pair (e : MarketEngine) : AssetPair :=
  ⟨e.quoteId, e.baseId⟩

/-! ### Walking the books -/

/-- `get_next_short()`. -/
def getNextShort (e : MarketEngine) : MarketEngine × Bool :=
  match e.shortItr with
  | (key, r) :: rest =>
    if key.assetPair = e.pair then
      ({ e with currentBid := some ⟨.shortOrder, key, r, 0, 0⟩, shortItr := rest }, true)
    else (e, false)
  | [] => (e, false)

/-- The part of `get_next_bid` that looks for a new order: the next bid, unless it is below the
feed price and there is a short. -/
def fetchBid (e : MarketEngine) : MarketEngine :=
  let e := { e with ordersFilled := e.ordersFilled + 1, currentBid := none }
  match e.bidItr with
  | (key, r) :: rest =>
    if key.assetPair = e.pair then
      let taken := { e with currentBid := some ⟨.bidOrder, key, r, 0, 0⟩, bidItr := rest }
      if e.feedPrice.any (key.orderPrice.lt ·) then
        let (e', found) := e.getNextShort
        if found then e' else taken
      else taken
    else e.getNextShort.1
  | [] => e.getNextShort.1

/-- `get_next_bid()`: the current bid is kept while anything is left of it. -/
def getNextBid (e : MarketEngine) : Fallible MarketEngine :=
  match e.currentBid with
  | some bid => do
    let quantity ← bid.getQuantity
    if 0 < quantity.amount then return e else return e.fetchBid
  | none => return e.fetchBid

/-- The next ask of the book; the iterator moves on also past an order of another market. -/
def fetchAsk (e : MarketEngine) : MarketEngine :=
  match e.askItr with
  | (key, r) :: rest =>
    if key.assetPair = e.pair then
      { e with currentAsk := some ⟨.askOrder, key, r, 0, 0⟩, askItr := rest }
    else { e with askItr := rest }
  | [] => e

/-- A margin position that may be called: the feed price is below its call price, or it has
expired. -/
def isCallable (e : MarketEngine) (callPrice : Price) (r : CollateralRecord) : Bool :=
  e.feedPrice.any (·.lt callPrice) || decide (r.expiration ≤ e.pendingState.now)

/-- The part of `get_next_ask` that looks for a new order: margin calls come before all other
asks, and the first position that is not called ends the margin calls of this run. -/
def fetchCoverOrAsk (e : MarketEngine) : MarketEngine :=
  let e := { e with ordersFilled := e.ordersFilled + 1, currentAsk := none }
  if e.currentBid.isSome then
    match e.collateralItr with
    | (key, r) :: rest =>
      if key.assetPair = e.pair then
        let e := { e with currentCollatRecord := r }
        if e.isCallable key.orderPrice r then
          { e with
            currentAsk := some ⟨.coverOrder, key, { balance := r.payoffBalance },
              r.collateralBalance, r.expiration⟩
            collateralItr := rest }
        else { e with collateralItr := [] }.fetchAsk
      else { e with collateralItr := [] }.fetchAsk
    | [] => e.fetchAsk
  else e.fetchAsk

/-- `get_next_ask()`. -/
def getNextAsk (e : MarketEngine) : MarketEngine :=
  match e.currentAsk with
  | some ask => if 0 < ask.state.balance then e else e.fetchCoverOrAsk
  | none => e.fetchCoverOrAsk

/-! ### Settling a trade -/

variable (crypto : Crypto)

/-- Run a change of the pending state of the engine. -/
def withState (e : MarketEngine) (c : ChainInterface) : MarketEngine :=
  { e with pendingState := c }

/-- Funds that leave the market go to the balance of their owner. -/
def payOut (e : MarketEngine) (owner : Address) (funds : Asset) : MarketEngine :=
  let id := crypto.conditionAddress (.ofSignature owner funds.assetId 0)
  let payout := (e.pendingState.getBalanceRecord id).getD
    (.ofOwner owner ⟨0, funds.assetId⟩ 0)
  e.withState (e.pendingState.storeBalanceRecord crypto { payout with
    balance := wrap64 (payout.balance + funds.amount)
    lastUpdate := e.pendingState.now
    depositDate := e.pendingState.now })

/-- The collateral a short puts up: what would be left of it goes in as well when it is too
small to bother covering. The comparison is between unsigned values. -/
def shortCollateralOf (e : MarketEngine) (bid : MarketOrder) (shortCollateral : Asset) :
    Fallible Asset := do
  let remaining ← bid.getBalance.sub shortCollateral
  if (remaining.amount % 2 ^ 64).toNat < e.baseAsset.precision / 100 ∧
      shortCollateral.amount < bid.state.balance then
    shortCollateral.add remaining
  else return shortCollateral

/-- `pay_current_short`: the proceeds and the collateral of the short become a margin position.
A trade that pays nothing ends early, without storing the short. -/
def payCurrentShort (e : MarketEngine) (bid : MarketOrder) (mtrx : MarketTransaction) :
    Fallible MarketEngine := do
  require (bid.type = .shortOrder) (.assertion "_current_bid->type == short_order")
  let shortCollateral ← e.shortCollateralOf bid mtrx.shortCollateral
  let e := { e with quoteAsset := { e.quoteAsset with
    currentShareSupply := wrap64 (e.quoteAsset.currentShareSupply + mtrx.bidPaid.amount) } }
  let collateral ← shortCollateral.add mtrx.askPaid
  let bid' := bid.setBalance (wrap64 (bid.state.balance - shortCollateral.amount))
  if mtrx.bidPaid.amount ≤ 0 then do
    require (0 ≤ mtrx.bidPaid.amount) (.assertion "mtrx.bid_paid.amount >= 0")
    return { e with currentBid := some bid' }
  else do
    let callCollateral : Asset :=
      ⟨EvaluationState.callCollateral collateral.amount, collateral.assetId⟩
    let coverPrice ← mtrx.bidPaid.divAsset callCollateral
    let coverIndex : MarketIndexKey := ⟨coverPrice, bid.getOwner⟩
    let r := (e.pendingState.getCollateralRecord coverIndex).getD {}
    let r : CollateralRecord :=
      { collateralBalance := wrap64 (r.collateralBalance + collateral.amount)
        payoffBalance := wrap64 (r.payoffBalance + mtrx.bidPaid.amount)
        interestRate := bid.getPrice
        expiration := e.pendingState.now + btsBlockchainMaxShortPeriodSec }
    require (0 ≤ r.payoffBalance) (.assertion "ocover_record->payoff_balance >= 0")
    require (0 ≤ r.collateralBalance) (.assertion "ocover_record->collateral_balance >= 0")
    require (r.interestRate.baseAssetId < r.interestRate.quoteAssetId)
      (.assertion "ocover_record->interest_rate")
    require (0 ≤ bid'.state.balance) (.assertion "_current_bid->state.balance >= 0")
    let e := e.withState (e.pendingState.storeCollateralRecord coverIndex r)
    let e := e.withState (e.pendingState.storeShortRecord bid'.marketIndex bid'.state)
    return { e with currentBid := some bid' }

/-- `pay_current_bid`: a rest too small to buy anything is collected as fees. -/
def payCurrentBid (e : MarketEngine) (bid : MarketOrder) (mtrx : MarketTransaction) :
    Fallible MarketEngine := do
  require (bid.type = .bidOrder) (.assertion "_current_bid->type == bid_order")
  let bid := bid.setBalance (wrap64 (bid.state.balance - mtrx.bidPaid.amount))
  require (0 ≤ bid.state.balance) (.assertion "_current_bid->state.balance >= 0")
  let e := e.payOut crypto mtrx.bidOwner ⟨mtrx.bidReceived.amount, e.baseId⟩
  let quantity ← bid.getQuoteQuantity
  let rest ← quantity.mulPrice bid.getPrice
  let (e, bid) := if rest.amount = 0 then
      ({ e with quoteAsset := { e.quoteAsset with
          collectedFees := wrap64 (e.quoteAsset.collectedFees + quantity.amount) } },
        bid.setBalance 0)
    else (e, bid)
  let e := e.withState (e.pendingState.storeBidRecord bid.marketIndex bid.state)
  return { e with currentBid := some bid }

/-- `get_current_cover_age()`, as an unsigned 32-bit value. -/
def getCurrentCoverAge (e : MarketEngine) (ask : MarketOrder) : ℤ :=
  (btsBlockchainMaxShortPeriodSec - ((ask.expiration : ℤ) - e.pendingState.now)) % 2 ^ 32

/-- `get_current_cover_debt()`. -/
def getCurrentCoverDebt (e : MarketEngine) (ask : MarketOrder) : Fallible Asset := do
  let interest ← getInterestOwed crypto ask.getBalance e.currentCollatRecord.interestRate
    (e.getCurrentCoverAge ask)
  interest.add ask.getBalance

/-- The collateral that is left when a margin position is paid off goes back to its owner,
less a fee of 5% when it was called before it expired. -/
def returnCollateral (e : MarketEngine) (ask : MarketOrder) (mtrx : MarketTransaction) :
    Fallible (MarketEngine × MarketTransaction) :=
  if e.pendingState.now < e.currentCollatRecord.expiration then do
    let fee := (wrap64 (ask.collateral * 5000)).tdiv 100000
    require (mtrx.feesCollected.amount = 0) (.assertion "mtrx.fees_collected.amount == 0")
    let feesCollected ← mtrx.feesCollected.add ⟨fee, e.baseId⟩
    let e := e.payOut crypto ask.getOwner ⟨wrap64 (ask.collateral - fee), e.baseId⟩
    return (e, { mtrx with feesCollected })
  else return (e.payOut crypto ask.getOwner ⟨ask.collateral, e.baseId⟩, mtrx)

/-- A margin position without collateral is closed at the expense of the fees. -/
def closeAtLoss (e : MarketEngine) (ask : MarketOrder) : MarketEngine × MarketOrder :=
  if ask.collateral = 0 then
    ({ e with quoteAsset := { e.quoteAsset with
        collectedFees := wrap64 (e.quoteAsset.collectedFees - ask.state.balance) } },
      ask.setBalance 0)
  else (e, ask)

/-- A margin position that is paid off gives its collateral back. -/
def closePaidOff (e : MarketEngine) (ask : MarketOrder) (mtrx : MarketTransaction) :
    Fallible (MarketEngine × MarketOrder × MarketTransaction) :=
  if ask.state.balance = 0 ∧ 0 < ask.collateral then do
    let (e, mtrx) ← e.returnCollateral crypto ask mtrx
    return (e, { ask with collateral := 0 }, mtrx)
  else return (e, ask, mtrx)

/-- `pay_current_cover`. -/
def payCurrentCover (e : MarketEngine) (ask : MarketOrder) (mtrx : MarketTransaction) :
    Fallible (MarketEngine × MarketTransaction) := do
  require (ask.type = .coverOrder) (.assertion "_current_ask->type == cover_order")
  require (e.currentCollatRecord.interestRate.baseAssetId <
    e.currentCollatRecord.interestRate.quoteAssetId)
    (.assertion "_current_collat_record.interest_rate")
  let principle : Asset := ⟨e.currentCollatRecord.payoffBalance, e.quoteAsset.id⟩
  let totalDebt ← e.getCurrentCoverDebt crypto ask
  let (principlePaid, interestPaid) ← EvaluationState.splitPayment crypto mtrx.askReceived
    principle totalDebt e.currentCollatRecord.interestRate (e.getCurrentCoverAge ask)
  let ask := ask.setBalance (if mtrx.askReceived.ge totalDebt then 0
    else wrap64 (ask.state.balance - principlePaid.amount))
  require (0 ≤ principlePaid.amount) (.assertion "principle_paid.amount >= 0")
  require (0 ≤ interestPaid.amount) (.assertion "interest_paid.amount >= 0")
  require (0 ≤ ask.state.balance) (.assertion "_current_ask->state.balance >= 0")
  let ask : MarketOrder :=
    { ask with collateral := wrap64 (ask.collateral - mtrx.askPaid.amount) }
  require (0 ≤ ask.collateral) (.assertion "*_current_ask->collateral >= 0")
  let e := { e with quoteAsset := { e.quoteAsset with
    currentShareSupply := wrap64 (e.quoteAsset.currentShareSupply - principlePaid.amount)
    collectedFees := wrap64 (e.quoteAsset.collectedFees + interestPaid.amount) } }
  let (e, ask) := e.closeAtLoss ask
  let (e, ask, mtrx) ← e.closePaidOff crypto ask mtrx
  let r := { e.currentCollatRecord with
    collateralBalance := ask.collateral
    payoffBalance := ask.state.balance }
  let e := e.withState (e.pendingState.storeCollateralRecord ask.marketIndex r)
  return ({ e with currentAsk := some ask, currentCollatRecord := r }, mtrx)

/-- `pay_current_ask`: a rest too small to sell is collected as fees, by the asset the caller
names. -/
def payCurrentAsk (e : MarketEngine) (ask : MarketOrder) (mtrx : MarketTransaction)
    (feesToQuote : Bool) : Fallible MarketEngine := do
  require (ask.type = .askOrder) (.assertion "_current_ask->type == ask_order")
  let ask := ask.setBalance (wrap64 (ask.state.balance - mtrx.askPaid.amount))
  require (0 ≤ ask.state.balance) (.assertion "_current_ask->state.balance >= 0")
  let e := e.payOut crypto mtrx.askOwner ⟨mtrx.askReceived.amount, e.quoteId⟩
  let quantity ← ask.getQuantity
  let rest ← quantity.mulPrice ask.getPrice
  let (e, ask) := if rest.amount = 0 then
      (if feesToQuote then
        { e with quoteAsset := { e.quoteAsset with
          collectedFees := wrap64 (e.quoteAsset.collectedFees + quantity.amount) } }
      else
        { e with baseAsset := { e.baseAsset with
          collectedFees := wrap64 (e.baseAsset.collectedFees + quantity.amount) } },
        ask.setBalance 0)
    else (e, ask)
  let e := e.withState (e.pendingState.storeAskRecord ask.marketIndex ask.state)
  return { e with currentAsk := some ask }

/-! ### Matching -/

/-- `minimum_ask()`: nine tenths of the feed price. -/
def minimumAsk (feed : Price) : Price :=
  { feed with ratio := feed.ratio * 9 % 2 ^ 128 / 10 }

/-- The price a bid trades at: shorts execute at the feed price, or at their price limit when
it is lower, and are skipped (`none`) without a feed price or when the limit is below the
ask. -/
def bidPrice (e : MarketEngine) (bid ask : MarketOrder) : Fallible (Option Price) :=
  if bid.type = .shortOrder then do
    require (e.quoteAsset.isMarketIssued = true) (.assertion "quote_asset->is_market_issued()")
    match e.feedPrice, bid.state.shortPriceLimit with
    | none, _ => return none
    | some feed, none => return some feed
    | some feed, some limit =>
      if limit.lt ask.getPrice then return none else return some (Price.min limit feed)
  else return some bid.getPrice

/-- Whether a margin position is called at this bid: not without a feed price, not below the
minimum ask, and not before its call price is reached unless it has expired. -/
def isCalled (e : MarketEngine) (ask : MarketOrder) (bidPrice : Price) : Fallible Bool := do
  require (e.quoteAsset.isMarketIssued = true) (.assertion "quote_asset->is_market_issued()")
  match e.feedPrice with
  | none => return false
  | some feed =>
    return !((ask.getPrice.lt bidPrice &&
        decide (e.pendingState.now < e.currentCollatRecord.expiration)) ||
      bidPrice.lt (minimumAsk feed))

/-- The rate of the collateral of a short: half the feed price. -/
def collateralRate (feed : Price) : Price :=
  { feed with ratio := feed.ratio / 2 }

/-- A margin position is called by a short. -/
def tradeShortCover (e : MarketEngine) (bid ask : MarketOrder) (mtrx : MarketTransaction) :
    Fallible (MarketEngine × MarketTransaction) := do
  let feed ← orThrow e.feedPrice (.assertion "_feed_price.valid()")
  let coverCollateral : Asset := ⟨ask.collateral, e.baseId⟩
  let maxUsdCoverCanAfford ← coverCollateral.mulPrice mtrx.bidPrice
  let coverDebt ← e.getCurrentCoverDebt crypto ask
  let usdForShortSale ← bid.getBalance.mulPrice (collateralRate feed)
  let usdExchanged := (usdForShortSale.min maxUsdCoverCanAfford).min coverDebt
  let askPaid ← if usdExchanged.amount = maxUsdCoverCanAfford.amount then pure coverCollateral
    else usdExchanged.mulPrice mtrx.askPrice
  let shortCollateral ← if usdExchanged.amount = usdForShortSale.amount then pure bid.getBalance
    else usdExchanged.mulPrice (collateralRate feed)
  let mtrx := { mtrx with
    askReceived := usdExchanged, askPaid, bidReceived := askPaid, bidPaid := usdExchanged,
    shortCollateral }
  let e ← e.payCurrentShort bid mtrx
  e.payCurrentCover crypto ask mtrx

/-- A margin position is called by a bid. -/
def tradeBidCover (e : MarketEngine) (bid ask : MarketOrder) (mtrx : MarketTransaction) :
    Fallible (MarketEngine × MarketTransaction) := do
  let coverCollateral : Asset := ⟨ask.collateral, e.baseId⟩
  let maxUsdCoverCanAfford ← coverCollateral.mulPrice mtrx.bidPrice
  let coverDebt ← e.getCurrentCoverDebt crypto ask
  let usdForSale := bid.getBalance
  let usdExchanged := (usdForSale.min maxUsdCoverCanAfford).min coverDebt
  let askPaid ← if usdExchanged.amount = maxUsdCoverCanAfford.amount then pure coverCollateral
    else usdExchanged.mulPrice mtrx.askPrice
  let mtrx := { mtrx with
    askReceived := usdExchanged, askPaid, bidReceived := askPaid, bidPaid := usdExchanged }
  let e ← e.payCurrentBid crypto bid mtrx
  e.payCurrentCover crypto ask mtrx

/-- A short buys from an ask. -/
def tradeShortAsk (e : MarketEngine) (bid ask : MarketOrder) (mtrx : MarketTransaction) :
    Fallible (MarketEngine × MarketTransaction) := do
  let feed ← orThrow e.feedPrice (.assertion "_feed_price.valid()")
  let askQuantityUsd ← ask.getQuoteQuantity
  let shortQuantityUsd ← bid.getBalance.mulPrice (collateralRate feed)
  let usdExchanged := shortQuantityUsd.min askQuantityUsd
  let (askPaid, shortCollateral) ← if usdExchanged.amount = shortQuantityUsd.amount then do
      let paid ← usdExchanged.mulPrice mtrx.askPrice
      pure (paid, bid.getBalance)
    else do
      let collateral ← usdExchanged.mulPrice (collateralRate feed)
      pure (ask.getBalance, collateral)
  let mtrx := { mtrx with
    askReceived := usdExchanged, askPaid, bidReceived := askPaid, bidPaid := usdExchanged,
    shortCollateral }
  let e ← e.payCurrentShort bid mtrx
  let e ← e.payCurrentAsk crypto ask mtrx true
  return (e, mtrx)

/-- A bid buys from an ask, each at the price it asked for; the overlap is collected as
fees. -/
def tradeBidAsk (e : MarketEngine) (bid ask : MarketOrder) (mtrx : MarketTransaction) :
    Fallible (MarketEngine × MarketTransaction) := do
  let bidQuantityXts ← bid.getQuantity
  let askQuantityXts ← ask.getQuantity
  let quantityXts := bidQuantityXts.min askQuantityXts
  let askReceived ← quantityXts.mulPrice mtrx.askPrice
  let bidPaid ← quantityXts.mulPrice mtrx.bidPrice
  let bidPaid := if quantityXts.amount = bidQuantityXts.amount then bid.getBalance else bidPaid
  let askPaid := if quantityXts.amount = askQuantityXts.amount then ask.getBalance
    else quantityXts
  let feesCollected ← bidPaid.sub askReceived
  let mtrx := { mtrx with askReceived, bidPaid, askPaid, bidReceived := quantityXts, feesCollected }
  let e ← e.payCurrentBid crypto bid mtrx
  let e ← e.payCurrentAsk crypto ask mtrx false
  return (e, mtrx)

/-- One trade, by the types of the two orders. -/
def trade (e : MarketEngine) (bid ask : MarketOrder) (mtrx : MarketTransaction) :
    Fallible (MarketEngine × MarketTransaction) :=
  match ask.type, bid.type with
  | .coverOrder, .shortOrder => e.tradeShortCover crypto bid ask mtrx
  | .coverOrder, .bidOrder => e.tradeBidCover crypto bid ask mtrx
  | .askOrder, .shortOrder => e.tradeShortAsk crypto bid ask mtrx
  | .askOrder, .bidOrder => e.tradeBidAsk crypto bid ask mtrx
  | _, _ => return (e, mtrx)

/-- What follows a trade: its checks, the trading volume in the base asset of the chain, and
the fees. -/
def collect (e : MarketEngine) (mtrx : MarketTransaction) : Fallible MarketEngine := do
  checkMarketTransaction mtrx
  let tradingVolume ←
    if mtrx.askReceived.assetId = 0 then e.tradingVolume.add mtrx.askReceived
    else if mtrx.bidReceived.assetId = 0 then e.tradingVolume.add mtrx.bidReceived
    else pure e.tradingVolume
  let e := { e with tradingVolume }
  if mtrx.feesCollected.assetId = e.baseAsset.id then
    return { e with baseAsset := { e.baseAsset with
      collectedFees := wrap64 (e.baseAsset.collectedFees + mtrx.feesCollected.amount) } }
  else if mtrx.feesCollected.assetId = e.quoteAsset.id then
    return { e with quoteAsset := { e.quoteAsset with
      collectedFees := wrap64 (e.quoteAsset.collectedFees + mtrx.feesCollected.amount) } }
  else return e

/-- Match the current bid with the current ask. The result also says whether the loop goes
on: it ends at the first spread that no margin call crosses. -/
def matchCurrent (e : MarketEngine) (bid ask : MarketOrder) : Fallible (MarketEngine × Bool) := do
  match ← e.bidPrice bid ask with
  | none => return ({ e with currentBid := none }, true)
  | some bidPrice => do
    let mtrx : MarketTransaction :=
      { bidOwner := bid.getOwner, askOwner := ask.getOwner, bidPrice, askPrice := ask.getPrice }
    if ask.type = .coverOrder then do
      if ← e.isCalled ask bidPrice then do
        -- a forced cover sells at whatever price the buyer wants
        let (e, mtrx) ← e.trade crypto bid ask { mtrx with askPrice := bidPrice }
        let e ← e.collect mtrx
        return (e, true)
      else return ({ e with currentAsk := none }, true)
    else if bidPrice.lt ask.getPrice then return (e, false)
    else do
      let (e, mtrx) ← e.trade crypto bid ask mtrx
      let e ← e.collect mtrx
      return (e, true)

/-- One round of the loop: `while( get_next_bid() && get_next_ask() )` and its body. -/
def matchRound (e : MarketEngine) : Fallible (MarketEngine × Bool) := do
  let e ← e.getNextBid
  match e.currentBid with
  | none => return (e, false)
  | some bid =>
    let e := e.getNextAsk
    match e.currentAsk with
    | none => return (e, false)
    | some ask => do
      require (e.ordersFilled ≠ e.lastOrdersFilled)
        (.assertion "We appear caught in an order matching loop!")
      { e with lastOrdersFilled := e.ordersFilled }.matchCurrent crypto bid ask

/-- The entries the iterators have not passed. -/
def entriesLeft (e : MarketEngine) : ℕ :=
  e.bidItr.length + e.askItr.length + e.shortItr.length + e.collateralItr.length

/-- The loop. Every round but the first passes an entry of a book (`matchLoop_succ`), so the
entries bound the number of rounds. -/
def matchLoop : ℕ → MarketEngine → Fallible MarketEngine
  | 0, e => return e
  | rounds + 1, e => do
    let (e, goOn) ← e.matchRound crypto
    if goOn then matchLoop rounds e else return e

/-! ### A run of the engine -/

/-- The entries before a key, from the last one down. -/
def entriesBefore {α : Type} (book : Table MarketIndexKey α) (key : MarketIndexKey) :
    BookIterator α :=
  (book.toList.filter fun e => compare e.1 key == .lt).reverse

/-- The entries from a key on. -/
def entriesFrom {α : Type} (book : Table MarketIndexKey α) (key : MarketIndexKey) :
    BookIterator α :=
  book.toList.filter fun e => compare e.1 key != .lt

/-- `price( 0, quote, base )`, which asserts the order of the ids. -/
def zeroPrice (quote base : ℤ) : Fallible Price := do
  require (base < quote) (.assertion "${quote} > ${base}")
  return { ratio := 0, quoteAssetId := quote, baseAssetId := base }

/-- `execute` up to the feed price: the assets and the iterators. -/
def openMarket (c : ChainInterface) (quoteId baseId : ℤ) : Fallible MarketEngine := do
  let quoteAsset ← orThrow (c.push.getAssetRecord quoteId) (.assertion "quote_asset.valid()")
  let baseAsset ← orThrow (c.push.getAssetRecord baseId) (.assertion "base_asset.valid()")
  let nextPair ← if baseId + 1 = quoteId then zeroPrice (quoteId + 1) 0
    else zeroPrice quoteId (baseId + 1)
  let firstPrice ← zeroPrice quoteId baseId
  let asks := entriesFrom c.db.asks ⟨firstPrice, 0⟩
  let feedPrice ← c.getMedianDelegatePrice quoteId baseId
  return {
    pendingState := c.push
    quoteId, baseId, quoteAsset, baseAsset, feedPrice
    tradingVolume := ⟨0, baseId⟩
    bidItr := entriesBefore c.db.bids ⟨nextPair, 0⟩
    askItr := if asks = [] then c.db.asks.toList else asks
    shortItr := entriesBefore c.db.shorts ⟨nextPair, 0⟩
    collateralItr := entriesBefore c.db.collateral ⟨nextPair, 0⟩ }

/-- Market-issued assets are not matched before their first median feed. -/
def checkFeed (e : MarketEngine) : Fallible Unit :=
  if e.quoteAsset.isMarketIssued then
    let stat := e.pendingState.getMarketStatus e.pair
    require (¬((stat.bind MarketStatus.lastValidFeedPrice).isNone ∧ e.feedPrice.isNone))
      (.insufficientFeeds e.quoteId)
  else return ()

/-- `update_market_history`: the history is kept for reading only, but its update asks for the
next orders, which may throw. -/
def updateMarketHistory (e : MarketEngine) : Fallible Unit :=
  if 0 < e.tradingVolume.amount then do
    let _ ← e.getNextBid
    return ()
  else return ()

/-- The new status of the market, from the one a state holds. -/
def marketStatusOf (c : ChainInterface) (quoteId baseId : ℤ) : Fallible MarketStatus :=
  match c.getMarketStatus ⟨quoteId, baseId⟩ with
  | some stat => return stat
  | none => MarketStatus.ofMarket quoteId baseId

/-- `execute` from the feed price on: matching, fees, status, and the changes applied to the
state below. -/
def matchMarket (e : MarketEngine) : Fallible ChainInterface := do
  e.checkFeed
  -- the first orders are fetched before the loop, so margin calls have a bid to check against
  let e ← e.getNextBid
  let e := e.getNextAsk
  let e ← e.matchLoop crypto (e.entriesLeft + 2)
  let c := e.pendingState.storeAssetRecord e.quoteAsset
  let c := c.storeAssetRecord e.baseAsset
  let stat ← marketStatusOf c e.quoteId e.baseId
  let c := c.storeMarketStatus { stat.updateFeedPrice e.feedPrice with lastError := none }
  e.updateMarketHistory
  c.applyChanges crypto

/-- The `catch` of `execute`: the status of the market records the error. -/
def recordError (c : ChainInterface) (quoteId baseId : ℤ) (feedPrice : Option Price)
    (error : Error) : Fallible ChainInterface := do
  let stat ← marketStatusOf c quoteId baseId
  return c.storeMarketStatus { stat.updateFeedPrice feedPrice with lastError := some error }

/-- `market_engine( pending_state ).execute( quote_id, base_id )`. -/
def execute (c : ChainInterface) (quoteId baseId : ℤ) : Fallible ChainInterface :=
  match openMarket c quoteId baseId with
  | .error error => recordError c quoteId baseId none error
  | .ok e =>
    match e.matchMarket crypto with
    | .ok c' => return c'
    | .error error => recordError c quoteId baseId e.feedPrice error

end MarketEngine

/-- `chain_database_impl::execute_markets`: the markets the database remembers as dirty. -/
def executeMarkets (crypto : Crypto) (c : ChainInterface) : Fallible ChainInterface :=
  { c with overlays := [] }.getDirtyMarkets.toList.foldlM (fun c (e : AssetPair × Unit) => do
    require (e.1.base < e.1.quote) (.assertion "market_pair.first > market_pair.second")
    MarketEngine.execute crypto c e.1.quote e.1.base) c

end LarkX
