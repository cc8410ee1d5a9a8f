import LarkX.Evaluate.State

/-!
# Market operations

`market_operations.cpp`: placing and withdrawing bids, asks and shorts, covering a margin
position and adding to its collateral, and `feed_operations.cpp`. The three kinds of order
move their funds the same way (`moveOrderFunds`); what differs are the checks before and
after.
-/

namespace LarkX

/-! ### Interest -/

/-- `market_engine::get_interest_owed`. -/
def getInterestOwed (crypto : Crypto) (principle : Asset) (apr : Price) (ageSeconds : ℤ) :
    Fallible Asset := do
  let aprN ← Asset.mulPrice ⟨btsBlockchainMaxShares, apr.baseAssetId⟩ apr
  return ⟨wrap64 (crypto.interestOwed principle.amount aprN.amount btsBlockchainMaxShares
    ageSeconds), principle.assetId⟩

/-- `market_engine::get_interest_paid`. -/
def getInterestPaid (crypto : Crypto) (totalAmountPaid : Asset) (apr : Price) (ageSeconds : ℤ) :
    Fallible Asset := do
  let aprN ← Asset.mulPrice ⟨btsBlockchainMaxShares, apr.baseAssetId⟩ apr
  return ⟨wrap64 (crypto.interestPaid totalAmountPaid.amount aprN.amount btsBlockchainMaxShares
    ageSeconds), totalAmountPaid.assetId⟩

namespace EvaluationState

variable (crypto : Crypto)

/-! ### Orders -/

/-- The funds of an order: a negative amount withdraws from the order that is there, a
positive one deposits. `llabs` of the least 64-bit value is that value. -/
def moveOrderFunds (s : EvaluationState) (current : Option OrderRecord) (deltaAmount : Asset) :
    Fallible EvaluationState := do
  require (deltaAmount.amount ≠ 0) .zeroAmount
  if deltaAmount.amount < 0 then do
    let r ← orThrow current .unknownMarketOrder
    require (wrap64 |deltaAmount.amount| ≤ r.balance) .insufficientFunds
    s.addBalance deltaAmount.neg
  else s.subBalance 0 deltaAmount

/-- The order after its funds have moved. -/
def updatedOrder (current : Option OrderRecord) (now : ℕ) (amount : ℤ) : OrderRecord :=
  let r := current.getD {}
  { r with lastUpdate := now, balance := wrap64 (r.balance + amount) }

/-- `bid_operation::evaluate`. -/
def bid (s : EvaluationState) (amount : ℤ) (bidIndex : MarketIndexKey) :
    Fallible EvaluationState := do
  require (bidIndex.orderPrice.ratio ≠ 0) .zeroPrice
  require (s.checkSignature bidIndex.owner = true) (.missingSignature bidIndex.owner)
  let deltaAmount : Asset := ⟨amount, bidIndex.orderPrice.quoteAssetId⟩
  s.validateAsset deltaAmount
  let current := s.currentState.getBidRecord bidIndex
  let s ← s.moveOrderFunds current deltaAmount
  let r := updatedOrder current s.currentState.now amount
  return s.withState (s.currentState.storeBidRecord bidIndex r)

/-- `ask_operation::evaluate`: unlike a bid, it asserts the balance that results. -/
def ask (s : EvaluationState) (amount : ℤ) (askIndex : MarketIndexKey) :
    Fallible EvaluationState := do
  require (askIndex.orderPrice.ratio ≠ 0) .zeroPrice
  require (s.checkSignature askIndex.owner = true) (.missingSignature askIndex.owner)
  let deltaAmount : Asset := ⟨amount, askIndex.orderPrice.baseAssetId⟩
  s.validateAsset deltaAmount
  let current := s.currentState.getAskRecord askIndex
  let s ← s.moveOrderFunds current deltaAmount
  let r := updatedOrder current s.currentState.now amount
  require (0 ≤ r.balance) (.assertion "current_ask->balance >= 0")
  return s.withState (s.currentState.storeAskRecord askIndex r)

/-- `short_operation::evaluate`: only a withdrawal asks for the signature of the owner. -/
def short (s : EvaluationState) (amount : ℤ) (shortIndex : MarketIndexKey)
    (shortPriceLimit : Option Price) : Fallible EvaluationState := do
  let price := shortIndex.orderPrice
  require (price.ratio < 10 * 2 ^ 64) (.assertion "Interest rate must be less than 1000% APR")
  require (price.baseAssetId < price.quoteAssetId)
    (.assertion "Interest rate price must have valid base and quote IDs")
  let deltaAmount : Asset := ⟨amount, price.baseAssetId⟩
  require (deltaAmount.assetId = 0) (.assertion "delta_amount.asset_id == 0")
  s.validateAsset deltaAmount
  let assetToShort ← orThrow (s.currentState.getAssetRecord price.quoteAssetId)
    (.assertion "asset_to_short.valid()")
  require (assetToShort.isMarketIssued = true)
    (.assertion "${symbol} is not a market issued asset")
  let current := s.currentState.getShortRecord shortIndex
  require (amount ≠ 0) .zeroAmount
  require (0 ≤ amount ∨ s.checkSignature shortIndex.owner = true)
    (.missingSignature shortIndex.owner)
  let s ← s.moveOrderFunds current deltaAmount
  let r : OrderRecord := { updatedOrder current s.currentState.now amount with shortPriceLimit }
  require (0 ≤ r.balance) (.assertion "current_short->balance >= 0")
  return s.withState (s.currentState.storeShortRecord shortIndex r)

/-! ### Margin positions -/

/-- `( collateral_balance * 2 ) / 3`: the collateral the call price is taken from. -/
def callCollateral (collateralBalance : ℤ) : ℤ :=
  (wrap64 (collateralBalance * 2)).tdiv 3

/-- How a payment splits into principal and interest. -/
def splitPayment (deltaAmount principle totalDebt : Asset) (interestRate : Price)
    (elapsedSec : ℤ) : Fallible (Asset × Asset) :=
  if deltaAmount.ge totalDebt then do
    let interestPaid ← deltaAmount.sub principle
    return (principle, interestPaid)
  else do
    let interestPaid ← getInterestPaid crypto deltaAmount interestRate elapsedSec
    let principlePaid ← deltaAmount.sub interestPaid
    return (principlePaid, interestPaid)

/-- `cover_operation::evaluate`. -/
def cover (s : EvaluationState) (amount : ℤ) (coverIndex : MarketIndexKey)
    (newCoverPrice : Option Price) : Fallible EvaluationState := do
  require (coverIndex.orderPrice.ratio ≠ 0) .zeroPrice
  require (amount ≠ 0 ∨ newCoverPrice.isSome = true) .zeroAmount
  require (0 ≤ amount) (.negativeDeposit amount)
  let deltaAmount : Asset := ⟨amount, coverIndex.orderPrice.quoteAssetId⟩
  require (s.checkSignature coverIndex.owner = true) (.missingSignature coverIndex.owner)
  let s ← s.subBalance 0 deltaAmount
  let position ← orThrow (s.currentState.getCollateralRecord coverIndex) .unknownMarketOrder
  let assetToCover ← orThrow (s.currentState.getAssetRecord coverIndex.orderPrice.quoteAssetId)
    (.assertion "asset_to_cover.valid()")
  let elapsedSec : ℤ :=
    max 0 (s.currentState.now - (position.expiration - btsBlockchainMaxShortPeriodSec))
  let principle : Asset := ⟨position.payoffBalance, deltaAmount.assetId⟩
  let interestOwed ← getInterestOwed crypto principle position.interestRate elapsedSec
  let totalDebt ← interestOwed.add principle
  let (principlePaid, interestPaid) ←
    splitPayment crypto deltaAmount principle totalDebt position.interestRate elapsedSec
  let position := { position with
    payoffBalance :=
      if deltaAmount.ge totalDebt then 0
      else wrap64 (position.payoffBalance - principlePaid.amount) }
  require (0 ≤ principlePaid.amount) (.assertion "principle_paid.amount >= 0")
  require (0 ≤ interestPaid.amount) (.assertion "interest_paid.amount >= 0")
  require (0 ≤ position.payoffBalance) (.assertion "current_cover->payoff_balance >= 0")
  let assetToCover := { assetToCover with
    currentShareSupply := wrap64 (assetToCover.currentShareSupply - principlePaid.amount)
    collectedFees := wrap64 (assetToCover.collectedFees + interestPaid.amount) }
  let s := s.withState (s.currentState.storeAssetRecord assetToCover)
  let s := s.withState (s.currentState.storeCollateralRecord coverIndex {})
  require (position.interestRate.baseAssetId < position.interestRate.quoteAssetId)
    (.assertion "Rejecting cover order with invalid interest rate.")
  if 0 < position.payoffBalance then do
    let newCallPrice ← Asset.divAsset ⟨position.payoffBalance, deltaAmount.assetId⟩
      ⟨callCollateral position.collateralBalance, coverIndex.orderPrice.baseAssetId⟩
    -- a cover price of the owner's choice is taken when it is above the call price
    let price := (newCoverPrice.filter fun p => newCallPrice.lt p).getD newCallPrice
    return s.withState (s.currentState.storeCollateralRecord ⟨price, coverIndex.owner⟩ position)
  else s.addBalance ⟨position.collateralBalance, coverIndex.orderPrice.baseAssetId⟩

/-- `add_collateral_operation::evaluate`. -/
def addCollateral (s : EvaluationState) (amount : ℤ) (coverIndex : MarketIndexKey) :
    Fallible EvaluationState := do
  require (coverIndex.orderPrice.ratio ≠ 0) .zeroPrice
  require (amount ≠ 0) .zeroAmount
  require (0 ≤ amount) (.negativeDeposit amount)
  let deltaAmount : Asset := ⟨amount, coverIndex.orderPrice.baseAssetId⟩
  let s ← s.subBalance 0 deltaAmount
  let position ← orThrow (s.currentState.getCollateralRecord coverIndex) .unknownMarketOrder
  let position := { position with
    collateralBalance := wrap64 (position.collateralBalance + deltaAmount.amount) }
  let s := s.withState (s.currentState.storeCollateralRecord coverIndex {})
  let newCallPrice ← Asset.divAsset
    ⟨position.payoffBalance, coverIndex.orderPrice.quoteAssetId⟩
    ⟨callCollateral position.collateralBalance, coverIndex.orderPrice.baseAssetId⟩
  return s.withState
    (s.currentState.storeCollateralRecord ⟨newCallPrice, coverIndex.owner⟩ position)

/-! ### Feeds -/

/-- `update_feed_operation::evaluate`: the market of the feed against the base asset becomes
dirty. -/
def updateFeed (s : EvaluationState) (feed : FeedIndex) (value : FeedValue) :
    Fallible EvaluationState := do
  let active ← s.currentState.isActiveDelegate feed.delegateId
  require (active = true)
    (.assertion "eval_state._current_state->is_active_delegate( feed.delegate_id )")
  let r ← orThrow (s.currentState.getAccountRecord feed.delegateId)
    (.unknownAccountId feed.delegateId)
  require (s.checkSignature (crypto.keyAddress r.activeKey) = true)
    (.assertion "eval_state.check_signature(...)")
  let now := s.currentState.now
  let c := s.currentState.setFeed { feed, value, lastUpdate := now }
  let c ← c.setMarketDirty ⟨feed.feedId, 0⟩
  return s.withState c

end EvaluationState

end LarkX
