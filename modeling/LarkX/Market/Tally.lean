import LarkX.Market.InHand
import LarkX.State.Reckoning

/-!
# What a trade does to the sums

The transaction of a trade is settled before anything is paid (`Settles`), and then each side is
paid by it (`trade_eq_ok`). Every payment moves the sum of a reckoning by the amounts of the
transaction, computed as residues: the side of the bid takes the quote asset out and puts the base
asset in, the side of the ask the reverse, and the fees are what is left between the two. When the
parts fit (`Evenly`), a trade moves no sum but for a debt that is closed at a loss
(`trade_tally`).
-/

namespace LarkX

/-- The position a short opens with what `mtrx` pays it is kept under a key. -/
def MarketEngine.OpensAt (e : MarketEngine) (bid : MarketOrder) (mtrx : MarketTransaction)
    (key : MarketIndexKey) : Prop :=
  ∃ shortCollateral collateral, e.shortCollateralOf bid mtrx.shortCollateral = .ok shortCollateral ∧
    shortCollateral.add mtrx.askPaid = .ok collateral ∧ e.Opens bid mtrx collateral key

/-- Whatever is left of an ask is enough to sell, or nothing. -/
def MarketOrder.KeepsRest (ask : MarketOrder) (paid : ℤ) : Prop :=
  ∀ rest, Asset.mulPrice ⟨wrap64 (ask.state.balance - paid), ask.getPrice.baseAssetId⟩ ask.getPrice =
    .ok rest → rest.amount = 0 → wrap64 (ask.state.balance - paid) = 0

namespace MarketEngine

variable {crypto : Crypto} {e e₁ e₂ e' : MarketEngine} {bid ask : MarketOrder}
  {mtrx mtrx' : MarketTransaction} {r : Reckoning}

/-! ### The transaction of a trade -/

/-- The transaction of two orders, from what is known before anything is paid. -/
inductive Settles (crypto : Crypto) (e : MarketEngine) (bid ask : MarketOrder)
    (mtrx : MarketTransaction) : MarketTransaction → Prop
  | shortCover {feed : Price} {forSale maxAfford coverDebt usd askPaid shortCollateral : Asset}
      (hask : ask.type = .coverOrder) (hbid : bid.type = .shortOrder) (hfeed : e.feedPrice = some feed)
      (hsale : bid.getBalance.mulPrice (collateralRate feed) = .ok forSale)
      (hamounts : CoverAmounts crypto e ask mtrx forSale maxAfford coverDebt askPaid)
      (husd : usd = (forSale.min maxAfford).min coverDebt)
      (hputs : PutsUp feed bid forSale usd shortCollateral) :
      Settles crypto e bid ask mtrx (mtrx.filled usd askPaid shortCollateral)
  | bidCover {maxAfford coverDebt usd askPaid : Asset}
      (hask : ask.type = .coverOrder) (hbid : bid.type = .bidOrder)
      (hamounts : CoverAmounts crypto e ask mtrx bid.getBalance maxAfford coverDebt askPaid)
      (husd : usd = (bid.getBalance.min maxAfford).min coverDebt) :
      Settles crypto e bid ask mtrx (mtrx.filled usd askPaid mtrx.shortCollateral)
  | shortAsk {feed : Price} {forSale wanted usd askPaid shortCollateral : Asset}
      (hask : ask.type = .askOrder) (hbid : bid.type = .shortOrder) (hfeed : e.feedPrice = some feed)
      (hsale : bid.getBalance.mulPrice (collateralRate feed) = .ok forSale)
      (hwanted : ask.getQuoteQuantity = .ok wanted) (husd : usd = forSale.min wanted)
      (hputs : PutsUp feed bid forSale usd shortCollateral)
      (hpaid : usd.amount = forSale.amount ∧ usd.mulPrice mtrx.askPrice = .ok askPaid ∨
        usd.amount ≠ forSale.amount ∧ askPaid = ask.getBalance) :
      Settles crypto e bid ask mtrx (mtrx.filled usd askPaid shortCollateral)
  | bidAsk {bidQuantity askQuantity quantity askReceived bidPaid : Asset} {mtrx' : MarketTransaction}
      (hask : ask.type = .askOrder) (hbid : bid.type = .bidOrder)
      (hbidQuantity : bid.getQuantity = .ok bidQuantity)
      (haskQuantity : ask.getQuantity = .ok askQuantity) (hquantity : quantity = bidQuantity.min askQuantity)
      (hreceived : quantity.mulPrice mtrx.askPrice = .ok askReceived)
      (hbidReceived' : mtrx'.bidReceived = quantity) (haskReceived' : mtrx'.askReceived = askReceived)
      (haskPaid' : mtrx'.askPaid = if quantity.amount = askQuantity.amount then ask.getBalance
        else quantity)
      (hbidPaid' : mtrx'.bidPaid =
        if quantity.amount = bidQuantity.amount then bid.getBalance else bidPaid)
      (hbidPaid : quantity.mulPrice mtrx.bidPrice = .ok bidPaid)
      (hfees' : mtrx'.bidPaid.sub askReceived = .ok mtrx'.feesCollected) :
      Settles crypto e bid ask mtrx mtrx'

/-- The side of the bid is paid. -/
def PaysBid (crypto : Crypto) (e : MarketEngine) (bid : MarketOrder) (mtrx : MarketTransaction)
    (e₁ : MarketEngine) : Prop :=
  bid.type = .bidOrder ∧ e.payCurrentBid crypto bid mtrx = .ok e₁ ∨
    bid.type = .shortOrder ∧ mtrx.bidReceived = mtrx.askPaid ∧ e.payCurrentShort bid mtrx = .ok e₁

/-- The side of the ask is paid. -/
def PaysAsk (crypto : Crypto) (e : MarketEngine) (bid ask : MarketOrder) (mtrx : MarketTransaction)
    (e₁ : MarketEngine) (mtrx' : MarketTransaction) : Prop :=
  ask.type = .coverOrder ∧ e.payCurrentCover crypto ask mtrx = .ok (e₁, mtrx') ∨
    ask.type = .askOrder ∧ mtrx' = mtrx ∧
      e.payCurrentAsk crypto ask mtrx (decide (bid.type = .shortOrder)) = .ok e₁

/-- **A trade settles its transaction, and then pays the two sides by it.** -/
theorem trade_eq_ok (htypes : Paired bid ask)
    (h : e.trade crypto bid ask mtrx = .ok (e', mtrx')) : ∃ settled e₁,
      Settles crypto e bid ask mtrx settled ∧ PaysBid crypto e bid settled e₁ ∧
        PaysAsk crypto e₁ bid ask settled e' mtrx' := by
  obtain ⟨hask, hbid, h⟩ | ⟨hask, hbid, h⟩ | ⟨hask, hbid, h⟩ | ⟨hask, hbid, h⟩ := trade_cases htypes h
  · obtain ⟨feed, forSale, maxAfford, coverDebt, usd, askPaid, shortCollateral, e₁, hfeed, hsale,
      hamounts, husd, hputs, hshort, hcover⟩ := tradeShortCover_eq_ok h
    exact ⟨_, e₁, .shortCover hask hbid hfeed hsale hamounts husd hputs, Or.inr ⟨hbid, rfl, hshort⟩,
      Or.inl ⟨hask, hcover⟩⟩
  · obtain ⟨maxAfford, coverDebt, usd, askPaid, e₁, hamounts, husd, hpay, hcover⟩ :=
      tradeBidCover_eq_ok h
    exact ⟨_, e₁, .bidCover hask hbid hamounts husd, Or.inl ⟨hbid, hpay⟩, Or.inl ⟨hask, hcover⟩⟩
  · obtain ⟨feed, forSale, wanted, usd, askPaid, shortCollateral, e₁, hfeed, hsale, hwanted, husd,
      hputs, hpaid, rfl, hshort, hpay⟩ := tradeShortAsk_eq_ok h
    refine ⟨_, e₁, .shortAsk hask hbid hfeed hsale hwanted husd hputs hpaid,
      Or.inr ⟨hbid, rfl, hshort⟩, Or.inr ⟨hask, rfl, ?_⟩⟩
    rw [decide_eq_true hbid]
    exact hpay
  · obtain ⟨bidQuantity, askQuantity, quantity, askReceived, bidPaid, e₁, hbidQuantity, haskQuantity,
      hquantity, hreceived, hpaid, hbidReceived', haskReceived', hbidPaid', haskPaid', hfees', -, -,
      hpayBid, hpayAsk⟩ := tradeBidAsk_eq_ok h
    refine ⟨mtrx', e₁, .bidAsk hask hbid hbidQuantity haskQuantity hquantity hreceived hbidReceived'
      haskReceived' haskPaid' hbidPaid' hpaid hfees', Or.inl ⟨hbid, hpayBid⟩, Or.inr ⟨hask, rfl, ?_⟩⟩
    rw [decide_eq_false (by rw [hbid]; decide)]
    exact hpayAsk

/-- The amounts of a settled transaction: what one side pays the other receives, but for the fees. -/
structure Balanced (e : MarketEngine) (bid : MarketOrder) (mtrx : MarketTransaction) : Prop where
  base : mtrx.bidReceived.amount = mtrx.askPaid.amount
  quote : mtrx.bidPaid.amount = mtrx.askReceived.amount + mtrx.feesCollected.amount
  fees : mtrx.feesCollected = {} ∨
    mtrx.feesCollected.assetId = e.quoteId ∧ bid.type = .bidOrder
  bidPaid : mtrx.bidPaid.assetId = e.quoteId
  collateral : bid.type = .shortOrder → mtrx.shortCollateral.assetId = e.baseId

/-- An amount at a price of the market is in the other asset. -/
theorem PricedIn.mulPrice_base {p : Price} {a a' : Asset} (h : PricedIn e p)
    (hid : a.assetId = e.baseId) (hmul : a.mulPrice p = .ok a') : a'.assetId = e.quoteId := by
  rw [((Asset.mulPrice_base (hid.trans h.base.symm)).1 hmul).2]
  exact h.quote

theorem PricedIn.mulPrice_quote {p : Price} {a a' : Asset} (h : PricedIn e p)
    (hids : e.baseId < e.quoteId) (hid : a.assetId = e.quoteId) (hmul : a.mulPrice p = .ok a') :
    a'.assetId = e.baseId := by
  rw [((Asset.mulPrice_quote (hid.trans h.quote.symm) (h.ne hids)).1 hmul).2]
  exact h.base

/-- Bids are paid in the quote asset. -/
theorem PricedIn.bid_assetId {o : MarketOrder} (h : PricedIn e o.getPrice)
    (htype : o.type = .bidOrder) : o.getBalance.assetId = e.quoteId := by
  unfold MarketOrder.getBalance
  rw [htype]
  exact h.quote

/-- Asks and shorts are paid in the base asset. -/
theorem PricedIn.base_assetId {o : MarketOrder} (h : PricedIn e o.getPrice)
    (htype : o.type = .askOrder ∨ o.type = .shortOrder) : o.getBalance.assetId = e.baseId := by
  unfold MarketOrder.getBalance
  rcases htype with htype | htype
  · rw [htype]
    exact h.base
  · rw [htype]
    exact h.base

/-- Half the feed price is a price of the market. -/
theorem OnMarket.collateralRate (h : OnMarket e) {feed : Price} (hfeed : e.feedPrice = some feed) :
    PricedIn e (collateralRate feed) := by
  have hfeedIn := PricedIn.of_assetPair (h.feed feed hfeed)
  exact ⟨hfeedIn.quote, hfeedIn.base⟩

/-- The collateral of a short is in the base asset. -/
theorem PutsUp.assetId {feed : Price} {forSale usd shortCollateral : Asset}
    (h : PutsUp feed bid forSale usd shortCollateral) (hids : e.baseId < e.quoteId)
    (hrate : PricedIn e (MarketEngine.collateralRate feed)) (hbase : bid.getBalance.assetId = e.baseId)
    (hquote : usd.assetId = e.quoteId) : shortCollateral.assetId = e.baseId := by
  obtain ⟨-, rfl⟩ | ⟨-, hmul⟩ := h
  · exact hbase
  · exact hrate.mulPrice_quote hids hquote hmul

/-- What is paid for a margin position is paid in the quote asset. -/
theorem CoverAmounts.assetId {forSale maxAfford coverDebt askPaid : Asset}
    (h : CoverAmounts crypto e ask mtrx forSale maxAfford coverDebt askPaid)
    (htype : ask.type = .coverOrder) (hask : PricedIn e ask.getPrice) (hprice : PricedIn e mtrx.bidPrice)
    (hsale : forSale.assetId = e.quoteId) :
    ((forSale.min maxAfford).min coverDebt).assetId = e.quoteId := by
  refine Asset.min_assetId (Asset.min_assetId hsale (hprice.mulPrice_base rfl h.max)) ?_
  exact (getCurrentCoverDebt_assetId htype h.debt).trans hask.quote

/-- **The transaction of two orders of the market balances.** -/
theorem Settles.balanced (h : OnMarket e) (hbid : e.currentBid = some bid)
    (hask : e.currentAsk = some ask) {price askPrice : Price} (hprice : price.assetPair = e.pair)
    (hsettles : Settles crypto e bid ask (openTransaction bid ask price askPrice) mtrx) :
    Balanced e bid mtrx := by
  have hids := h.ordered
  have hpriceIn := PricedIn.of_assetPair hprice
  have hbidIn := PricedIn.of_assetPair (h.bid bid hbid).2
  have haskIn := PricedIn.of_assetPair (h.ask ask hask).2
  cases hsettles with
  | @shortCover feed forSale maxAfford coverDebt usd askPaid shortCollateral haskType hbidType hfeed
      hsale hamounts husd hputs =>
    have hrate := h.collateralRate hfeed
    have hbase := hbidIn.base_assetId (Or.inr hbidType)
    have husdId : usd.assetId = e.quoteId :=
      husd ▸ hamounts.assetId haskType haskIn hpriceIn (hrate.mulPrice_base hbase hsale)
    exact ⟨rfl, (add_zero _).symm, Or.inl rfl, husdId, fun _ => hputs.assetId hids hrate hbase husdId⟩
  | @bidCover maxAfford coverDebt usd askPaid haskType hbidType hamounts husd =>
    have husdId : usd.assetId = e.quoteId :=
      husd ▸ hamounts.assetId haskType haskIn hpriceIn (hbidIn.bid_assetId hbidType)
    exact ⟨rfl, (add_zero _).symm, Or.inl rfl, husdId,
      fun hshort => absurd (hbidType.symm.trans hshort) (by decide)⟩
  | @shortAsk feed forSale wanted usd askPaid shortCollateral haskType hbidType hfeed hsale hwanted husd
      hputs hpaid =>
    have hrate := h.collateralRate hfeed
    have hbase := hbidIn.base_assetId (Or.inr hbidType)
    have hwanted' : ask.getBalance.mulPrice ask.getPrice = .ok wanted := by
      unfold MarketOrder.getQuoteQuantity at hwanted
      rwa [haskType] at hwanted
    have husdId : usd.assetId = e.quoteId :=
      husd ▸ Asset.min_assetId (hrate.mulPrice_base hbase hsale)
        (haskIn.mulPrice_base (haskIn.base_assetId (Or.inl haskType)) hwanted')
    exact ⟨rfl, (add_zero _).symm, Or.inl rfl, husdId, fun _ => hputs.assetId hids hrate hbase husdId⟩
  | @bidAsk bidQuantity askQuantity quantity askReceived bidPaid _ haskType hbidType hbidQuantity
      haskQuantity hquantity hreceived hbidReceived' haskReceived' haskPaid' hbidPaid' hbidPaid hfees' =>
    have hbidQuantity' : bid.getBalance.mulPrice bid.getPrice = .ok bidQuantity := by
      unfold MarketOrder.getQuantity at hbidQuantity
      rwa [hbidType] at hbidQuantity
    have haskQuantity' : ask.getBalance = askQuantity := by
      unfold MarketOrder.getQuantity at haskQuantity
      rw [haskType] at haskQuantity
      exact Except.ok.inj haskQuantity
    have hquantityId : quantity.assetId = e.baseId :=
      hquantity ▸ Asset.min_assetId
        (hbidIn.mulPrice_quote hids (hbidIn.bid_assetId hbidType) hbidQuantity')
        (haskQuantity' ▸ haskIn.base_assetId (Or.inl haskType))
    have hpaidId : mtrx.bidPaid.assetId = e.quoteId := by
      rw [hbidPaid']
      split_ifs
      · exact hbidIn.bid_assetId hbidType
      · exact hpriceIn.mulPrice_base hquantityId hbidPaid
    obtain ⟨-, hfeesId, hfees, -⟩ := Asset.sub_eq_ok hfees'
    refine ⟨?_, ?_, Or.inr ⟨hfeesId.trans hpaidId, hbidType⟩, hpaidId,
      fun hshort => absurd (hbidType.symm.trans hshort) (by decide)⟩
    · rw [hbidReceived', haskPaid']
      split_ifs with hall
      · rw [hall, haskQuantity']
      · rfl
    · rw [haskReceived', hfees]
      ring

/-! ### The sums of the engine -/

/-- The sum of a reckoning over the pending state, with the fees and the supply the engine holds in
memory. -/
def tally (r : Reckoning) (e : MarketEngine) : Word :=
  (r.weigh e.pendingState.flat : Word) + r.base * e.baseAsset.collectedFees +
    r.quote * e.quoteAsset.collectedFees + r.supply * e.quoteAsset.currentShareSupply

/-- What the sums of an engine rest on: records are kept under their own keys, the assets are those
of the market, and the reckoning is one of the market. -/
structure Accountable (crypto : Crypto) (r : Reckoning) (e : MarketEngine) : Prop where
  keyed : e.pendingState.flat.Keyed crypto
  quote : e.quoteAsset.id = e.quoteId
  base : e.baseAsset.id = e.baseId
  pair : r.pair = e.pair

theorem Accountable.sameWalk (h : Accountable crypto r e) (hp : e.pendingState.IsPending)
    (hwalk : SameWalk crypto e e') : Accountable crypto r e' :=
  ⟨hwalk.state.keyed hp h.keyed, hwalk.quote.id.trans (h.quote.trans hwalk.quoteId.symm),
    hwalk.base.id.trans (h.base.trans hwalk.baseId.symm), h.pair.trans hwalk.pair.symm⟩

theorem Accountable.balance_base (h : Accountable crypto r e) : r.balanceOf e.baseId = r.base := by
  rw [← r.balance_base, h.pair]
  rfl

theorem Accountable.balance_quote (h : Accountable crypto r e) : r.balanceOf e.quoteId = r.quote := by
  rw [← r.balance_quote, h.pair]
  rfl

/-- The balance of an owner is under its own condition. -/
theorem credited_condition (hideal : Function.Injective crypto.conditionAddress)
    {c : ChainInterface} (hkeyed : c.flat.Keyed crypto) (owner : Address) (funds : Asset) :
    (credited crypto c owner funds).condition = .ofSignature owner funds.assetId 0 := by
  unfold credited
  dsimp only
  rw [ChainInterface.getBalanceRecord_eq]
  cases hr : c.flat.balances[crypto.conditionAddress (.ofSignature owner funds.assetId 0)]? with
  | none => rfl
  | some r => exact hideal (hkeyed.balances _ r hr)

/-- **Paying out** adds the funds to the sum. -/
theorem weigh_credited (hideal : Function.Injective crypto.conditionAddress) {c : ChainInterface}
    (hkeyed : c.flat.Keyed crypto) (owner : Address) (funds : Asset) :
    (r.weigh (c.flat.write crypto (.balance (credited crypto c owner funds))) : Word) =
      r.weigh c.flat + r.balanceOf funds.assetId * funds.amount := by
  have hcondition := credited_condition hideal hkeyed owner funds
  have hasset : (credited crypto c owner funds).assetId = funds.assetId :=
    congrArg WithdrawCondition.assetId hcondition
  rw [r.weigh_balance, hcondition, hasset]
  unfold credited
  rw [ChainInterface.getBalanceRecord_eq]
  cases hr : c.flat.balances[crypto.conditionAddress (.ofSignature owner funds.assetId 0)]? with
  | none =>
    simp only [Option.getD_none, Option.elim_none, BalanceRecord.ofOwner]
    push_cast
    rw [wrap64_cast]
    push_cast
    ring
  | some r' =>
    have hasset' : r'.assetId = funds.assetId :=
      congrArg WithdrawCondition.assetId (hideal (hkeyed.balances _ r' hr))
    simp only [Option.getD_some, Option.elim_some, hasset']
    push_cast
    rw [wrap64_cast]
    push_cast
    ring

/-- What is left of an order is kept or collected. -/
theorem Sweeps.cast {price : Price} {left : Asset} {fees kept fees' : ℤ}
    (h : Sweeps price left fees kept fees') :
    (kept : Word) + (fees' : Word) = (left.amount : Word) + (fees : Word) := by
  cases h with
  | swept hrest hzero hkept hfees =>
    rw [hkept, hfees, wrap64_cast, Int.cast_zero, Int.cast_add]
    ring
  | kept hrest hne hkept hfees => rw [hkept, hfees]

/-- Nothing that is worth keeping is collected. -/
theorem Sweeps.keeps {fees kept fees' paid : ℤ} (hrest : ask.KeepsRest paid)
    (h : Sweeps ask.getPrice ⟨wrap64 (ask.state.balance - paid), ask.getPrice.baseAssetId⟩ fees kept
      fees') :
    kept = wrap64 (ask.state.balance - paid) ∧ (fees' : Word) = (fees : Word) ∧
      (IsInt64 fees → fees' = fees) := by
  cases h with
  | swept hmul hzero hkept hfees =>
    have hnone := hrest _ hmul hzero
    rw [hfees, hnone, add_zero]
    exact ⟨hkept, wrap64_cast fees, wrap64_eq_self⟩
  | kept hmul hne hkept hfees => exact ⟨hkept, congrArg _ hfees, fun _ => hfees⟩

/-- The position a short adds to gains the collateral and the debt. -/
theorem weigh_position {coverIndex : MarketIndexKey} (hkey : coverIndex.assetPair = r.pair)
    (collateral paid : ℤ) :
    (r.weigh (e.pendingState.flat.write crypto
      (.collateral coverIndex (e.position bid coverIndex collateral paid))) : Word) =
        r.weigh e.pendingState.flat + r.base * collateral + r.debt * paid := by
  rw [r.weigh_collateral hkey]
  unfold position
  rw [ChainInterface.getCollateralRecord_eq]
  cases e.pendingState.flat.collateral[coverIndex]? with
  | none =>
    simp only [Option.getD_none, Option.elim_none]
    push_cast
    rw [wrap64_cast, wrap64_cast]
    push_cast
    ring
  | some p =>
    simp only [Option.getD_some, Option.elim_some]
    push_cast
    rw [wrap64_cast, wrap64_cast]
    push_cast
    ring

/-! ### The parts of a payment -/

/-- Funds that are paid out are added to the sum. -/
theorem tally_payOut (hideal : Function.Injective crypto.conditionAddress)
    (hp : e.pendingState.IsPending) (hkeyed : e.pendingState.flat.Keyed crypto) (owner : Address)
    (funds : Asset) : tally r (e.payOut crypto owner funds) =
      tally r e + r.balanceOf funds.assetId * funds.amount := by
  rw [payOut_eq hp]
  unfold tally withState
  dsimp only
  rw [ChainInterface.flat_write hp, weigh_credited hideal hkeyed]
  ring

/-- A margin position is stored as the engine has it in hand. -/
def StoredAs (e : MarketEngine) (ask : MarketOrder) : Prop :=
  ∃ p, e.pendingState.getCollateralRecord ask.marketIndex = some p ∧
    p.collateralBalance = ask.collateral ∧ p.payoffBalance = ask.state.balance

/-- A margin position is written back. -/
theorem tally_afterCover (hp : e.pendingState.IsPending) (hkey : ask.marketIndex.assetPair = r.pair)
    (hstored : e.StoredAs ask) (left owed : ℤ) : tally r (e.afterCover crypto ask left owed) =
      tally r e + r.base * ((left : Word) - ask.collateral) +
        r.debt * ((owed : Word) - ask.state.balance) := by
  obtain ⟨p, hstored, hcollateral, hpayoff⟩ := hstored
  rw [ChainInterface.getCollateralRecord_eq] at hstored
  unfold tally afterCover
  dsimp only
  rw [ChainInterface.flat_write hp, r.weigh_collateral hkey, hstored, Option.elim_some, Option.elim_some,
    hcollateral, hpayoff]
  push_cast
  ring

theorem tally_repaid (e : MarketEngine) (principlePaid interestPaid : ℤ) :
    tally r (e.repaid principlePaid interestPaid) =
      tally r e + r.quote * interestPaid - r.supply * principlePaid := by
  unfold tally repaid
  dsimp only
  rw [wrap64_cast, wrap64_cast]
  push_cast
  ring

theorem tally_charged (e : MarketEngine) (owed : ℤ) :
    tally r (e.charged owed) = tally r e - r.quote * owed := by
  unfold tally charged
  dsimp only
  rw [wrap64_cast]
  push_cast
  ring

/-! ### Paying the bid -/

section Payments

variable (hideal : Function.Injective crypto.conditionAddress) (hp : e.pendingState.IsPending)
  (hacc : Accountable crypto r e)

include hideal hp hacc

theorem payCurrentBid_tally (hin : InHand (some bid) e) (hkey : bid.marketIndex.assetPair = r.pair)
    (hpay : e.payCurrentBid crypto bid mtrx = .ok e') :
    tally r e' = tally r e + r.base * mtrx.bidReceived.amount - r.quote * mtrx.bidPaid.amount := by
  obtain ⟨htype, -, kept, fees, hsweeps, rfl⟩ := payCurrentBid_eq_ok hp hpay
  have hcredit := weigh_credited (r := r) hideal hacc.keyed mtrx.bidOwner
    ⟨mtrx.bidReceived.amount, e.baseId⟩
  have hstored := hin.bid_stored htype
  have hcast := hsweeps.cast
  rw [hacc.balance_base] at hcredit
  rw [wrap64_cast] at hcast
  unfold tally
  rw [afterBid_flat hp, r.weigh_bid hkey]
  simp only [afterBid]
  change ((r.weigh _ + r.quote * (kept - (e.pendingState.flat.bids[bid.marketIndex]?).elim 0 _) : ℤ) :
    Word) + _ + _ + _ = _
  rw [hstored, Option.elim_some]
  push_cast at hcast ⊢
  rw [hcredit]
  linear_combination (r.quote : Word) * hcast

omit hideal in
theorem payCurrentShort_tally (hin : InHand (some bid) e) (hkey : bid.marketIndex.assetPair = r.pair)
    (hids : e.baseId < e.quoteId)
    (hquote : mtrx.bidPaid.assetId = e.quoteId) (hbase : mtrx.shortCollateral.assetId = e.baseId)
    (hidle : mtrx.bidPaid.amount = 0 → r.base * mtrx.askPaid.amount = 0)
    (hpay : e.payCurrentShort bid mtrx = .ok e') :
    tally r e' = tally r e + r.base * mtrx.askPaid.amount - r.quote * mtrx.bidPaid.amount := by
  have heven : (r.quote : Word) + r.debt + r.supply = 0 := by exact_mod_cast congrArg Int.cast r.even
  obtain ⟨htype, shortCollateral, collateral, hput, hadd, ⟨hzero, rfl⟩ |
    ⟨-, -, coverIndex, hopens, rfl⟩⟩ := payCurrentShort_eq_ok crypto hp hpay
  · have hbaseZero : (r.base : Word) * mtrx.askPaid.amount = 0 := by exact_mod_cast congrArg Int.cast (hidle hzero)
    unfold tally
    simp only [afterIdleShort, issued, add_zero, wrap64_cast, hbaseZero, hzero, Int.cast_zero, mul_zero,
      sub_zero]
  · obtain ⟨-, hcollateralId, hamount, -⟩ := Asset.add_eq_ok hadd
    have hcoverKey : coverIndex.assetPair = r.pair := by
      have hprice := hopens.price
      rw [hcollateralId, (shortCollateralOf_eq_ok hput).1, hbase,
        show mtrx.bidPaid = ⟨mtrx.bidPaid.amount, e.quoteId⟩ from congrArg (Asset.mk _) hquote] at hprice
      unfold MarketIndexKey.assetPair
      rw [(divAsset_market hids hprice).2, hacc.pair]
      rfl
    have hposition := @weigh_position crypto e bid r coverIndex hcoverKey collateral.amount
      mtrx.bidPaid.amount
    have hstored := hin.short_stored htype
    have hflat : ((e.issued mtrx.bidPaid.amount).afterShort crypto bid coverIndex collateral.amount
        mtrx.bidPaid.amount (wrap64 (bid.state.balance - shortCollateral.amount))).pendingState.flat =
          _ := flat_write_write hp _ _
    unfold tally
    rw [hflat, r.weigh_short hkey]
    change ((r.weigh _ + r.base * (wrap64 _ - (e.pendingState.flat.shorts[bid.marketIndex]?).elim 0 _) :
      ℤ) : Word) + _ + _ + _ = _
    rw [hstored, Option.elim_some]
    simp only [afterShort, issued]
    push_cast
    rw [wrap64_cast, wrap64_cast]
    change (r.weigh (e.pendingState.flat.write crypto (.collateral coverIndex
      (e.position bid coverIndex collateral.amount mtrx.bidPaid.amount))) : Word) + _ + _ + _ + _ = _
    rw [hposition, hamount]
    push_cast
    linear_combination (mtrx.bidPaid.amount : Word) * heven

/-! ### Paying the ask -/

theorem payCurrentAsk_tally {hand : Option MarketOrder} (hin : InHand hand e)
    (hask : e.currentAsk = some ask) (hkey : ask.marketIndex.assetPair = r.pair) {feesToQuote : Bool}
    (hrest : feesToQuote = true → ask.KeepsRest mtrx.askPaid.amount)
    (hpay : e.payCurrentAsk crypto ask mtrx feesToQuote = .ok e') :
    tally r e' = tally r e - r.base * mtrx.askPaid.amount + r.quote * mtrx.askReceived.amount := by
  obtain ⟨htype, -, kept, quoteFees, baseFees, rfl, hsweeps, hother⟩ :=
    payCurrentAsk_eq_ok hp hpay
  have hcredit := weigh_credited (r := r) hideal hacc.keyed mtrx.askOwner
    ⟨mtrx.askReceived.amount, e.quoteId⟩
  rw [hacc.balance_quote] at hcredit
  have hstored := hin.ask_stored hask htype
  -- wherever the rest is collected, what is kept and the fees of the base asset make up for it
  have hfees : (quoteFees : Word) = e.quoteAsset.collectedFees ∧ (kept : Word) + (baseFees : Word) =
      ask.state.balance - mtrx.askPaid.amount + e.baseAsset.collectedFees := by
    cases feesToQuote with
    | true =>
      rw [if_pos rfl] at hother
      obtain ⟨rfl, hkeeps, -⟩ := Sweeps.keeps (hrest rfl) hsweeps
      refine ⟨hkeeps, ?_⟩
      rw [wrap64_cast, hother, Int.cast_sub]
    | false =>
      rw [if_neg Bool.false_ne_true] at hother
      have hcast := hsweeps.cast
      rw [wrap64_cast, Int.cast_sub] at hcast
      exact ⟨congrArg _ hother, hcast⟩
  unfold tally
  rw [afterAsk_flat hp, r.weigh_ask hkey]
  simp only [afterAsk]
  change ((r.weigh _ + r.base * (kept - (e.pendingState.flat.asks[ask.marketIndex]?).elim 0 _) : ℤ) :
    Word) + _ + _ + _ = _
  rw [hstored, Option.elim_some, hfees.1]
  push_cast
  rw [hcredit]
  linear_combination (r.base : Word) * hfees.2

omit hideal hp hacc in
/-- A payment is principal and interest, and what is owed is the debt less the principal. -/
theorem Repays.amounts {totalDebt principlePaid interestPaid : Asset} {left owed : ℤ}
    (hrepays : Repays crypto e ask mtrx totalDebt principlePaid interestPaid left owed)
    (hcover : e.currentCollatRecord.payoffBalance = ask.state.balance) :
    principlePaid.amount + interestPaid.amount = mtrx.askReceived.amount ∧
      (owed : Word) = ask.state.balance - principlePaid.amount := by
  have hsplit := hrepays.split
  have howed := hrepays.owed_eq
  unfold EvaluationState.splitPayment at hsplit
  split_ifs at hsplit howed with hfull
  · simp only [bind_eq_ok, pure_eq_ok, Prod.mk.injEq] at hsplit
    obtain ⟨interest, hsub, rfl, rfl⟩ := hsplit
    obtain ⟨-, -, hamount, -⟩ := Asset.sub_eq_ok hsub
    refine ⟨?_, ?_⟩
    · rw [hamount]
      ring
    · rw [howed, hcover, sub_self, Int.cast_zero]
  · simp only [bind_eq_ok, pure_eq_ok, Prod.mk.injEq] at hsplit
    obtain ⟨interest, -, principle, hsub, rfl, rfl⟩ := hsplit
    obtain ⟨-, -, hamount, -⟩ := Asset.sub_eq_ok hsub
    refine ⟨?_, ?_⟩
    · rw [hamount]
      ring
    · rw [howed, wrap64_cast, Int.cast_sub]

/-- **Paying a margin position.** The fee on the collateral that is returned is still to be
collected, and a debt that is closed at a loss leaves the supply without cover. -/
theorem payCurrentCover_tally {hand : Option MarketOrder} (hin : InHand hand e)
    (hask : e.currentAsk = some ask) (hkey : ask.marketIndex.assetPair = r.pair)
    (hstored : e.StoredAs ask)
    (hpay : e.payCurrentCover crypto ask mtrx = .ok (e', mtrx')) : ∃ lost fee : ℤ,
      tally r e' = tally r e - r.base * (mtrx.askPaid.amount + fee) +
        r.quote * mtrx.askReceived.amount + r.supply * lost ∧
      mtrx'.feesCollected = ⟨mtrx.feesCollected.amount + fee, mtrx.feesCollected.assetId⟩ ∧
      (fee = 0 ∨ mtrx.feesCollected.assetId = e.baseId) ∧
      ∃ totalDebt principlePaid interestPaid left owed,
        Repays crypto e ask mtrx totalDebt principlePaid interestPaid left owed ∧
        (left = 0 ∧ lost = owed ∨ lost = 0) := by
  have heven : (r.quote : Word) + r.debt + r.supply = 0 := by exact_mod_cast congrArg Int.cast r.even
  obtain ⟨htype, totalDebt, principlePaid, interestPaid, left, owed, hrepays, hcloses⟩ :=
    payCurrentCover_eq_ok hp hpay
  obtain ⟨hpaid, howed⟩ := hrepays.amounts (hin.cover ask hask htype)
  have hleft : (left : Word) = ask.collateral - mtrx.askPaid.amount := by
    rw [hrepays.left_eq, wrap64_cast, Int.cast_sub]
  have hreceived : (principlePaid.amount : Word) + interestPaid.amount = mtrx.askReceived.amount := by
    rw [← hpaid, Int.cast_add]
  have hrepaid := tally_repaid (r := r) e principlePaid.amount interestPaid.amount
  set e₁ := e.repaid principlePaid.amount interestPaid.amount with he₁
  have hp₁ : e₁.pendingState.IsPending := hp
  have hstored₁ : e₁.StoredAs ask := hstored
  cases hcloses with
  | atLoss hzero =>
    refine ⟨owed, 0, ?_, by rw [add_zero], Or.inl rfl, totalDebt, principlePaid, interestPaid, left,
      owed, hrepays, Or.inl ⟨hzero, rfl⟩⟩
    rw [tally_afterCover (e := e₁.charged owed) hp₁ hkey hstored₁, tally_charged, hrepaid]
    rw [hzero] at hleft
    push_cast at hleft ⊢
    linear_combination (r.base : Word) * hleft - ((principlePaid.amount : Word) + owed) * heven +
      (r.debt : Word) * howed + (r.quote : Word) * hreceived
  | @paidOff feesCollected hpos hzero hid hfees hbase =>
    refine ⟨0, e.coverFee left, ?_, ?_, ?_, totalDebt, principlePaid, interestPaid, left, owed, hrepays,
      Or.inr rfl⟩
    · have hkeyed₁ : e₁.pendingState.flat.Keyed crypto := hacc.keyed
      have hout := tally_payOut (r := r) hideal hp₁ hkeyed₁ ask.getOwner
        ⟨wrap64 (left - e₁.coverFee left), e₁.baseId⟩
      have hwrites := payOut_writes crypto hp₁ ask.getOwner ⟨wrap64 (left - e₁.coverFee left), e₁.baseId⟩
      have hstored₂ : (e₁.payOut crypto ask.getOwner ⟨wrap64 (left - e₁.coverFee left),
          e₁.baseId⟩).StoredAs ask := by
        obtain ⟨p, hget, hrest⟩ := hstored₁
        refine ⟨p, ?_, hrest⟩
        rw [payOut_eq hp₁]
        unfold withState
        dsimp only
        rw [ChainInterface.getCollateralRecord_eq, ChainInterface.flat_write hp₁]
        rw [ChainInterface.getCollateralRecord_eq] at hget
        exact hget
      have hbalance : r.balanceOf e₁.baseId = r.base := hacc.balance_base
      have hfee : e₁.coverFee left = e.coverFee left := rfl
      rw [tally_afterCover (hwrites.isPending hp₁) hkey hstored₂, hout, hrepaid]
      dsimp only
      rw [hbalance, wrap64_cast, hfee]
      rw [hzero] at howed
      push_cast at howed ⊢
      linear_combination (r.base : Word) * hleft + (r.debt : Word) * howed -
        (principlePaid.amount : Word) * heven + (r.quote : Word) * hreceived
    · rw [← hid]
      exact congrArg (Asset.mk · _) hfees
    · by_cases hcalled : e.pendingState.now < e.currentCollatRecord.expiration
      · exact Or.inr (hbase hcalled)
      · exact Or.inl (if_neg hcalled)
  | kept hpos howed' =>
    refine ⟨0, 0, ?_, by rw [add_zero], Or.inl rfl, totalDebt, principlePaid, interestPaid, left, owed,
      hrepays, Or.inr rfl⟩
    rw [tally_afterCover hp₁ hkey hstored₁, hrepaid]
    push_cast
    linear_combination (r.base : Word) * hleft + (r.debt : Word) * howed -
      (principlePaid.amount : Word) * heven + (r.quote : Word) * hreceived

end Payments

/-! ### A whole trade -/

/-- The fees of a trade are added to the sum of the asset they are in. -/
theorem Collects.tally (hacc : Accountable crypto r e) (h : Collects e mtrx e') :
    tally r e' = tally r e + if mtrx.feesCollected.assetId = e.baseId then
        (r.base : Word) * mtrx.feesCollected.amount
      else if mtrx.feesCollected.assetId = e.quoteId then r.quote * mtrx.feesCollected.amount else 0 := by
  have hbase := h.baseFees
  have hquote := h.quoteFees
  obtain ⟨volume, quoteFees, baseFees, rfl⟩ := h.rest
  rw [hacc.base] at hbase hquote
  rw [hacc.quote] at hquote
  unfold MarketEngine.tally
  dsimp only at hbase hquote ⊢
  rw [hbase, hquote]
  by_cases hb : mtrx.feesCollected.assetId = e.baseId
  · rw [if_pos hb, if_pos hb, if_neg fun h => h.1 hb, wrap64_cast]
    push_cast
    ring
  · rw [if_neg hb, if_neg hb]
    by_cases hq : mtrx.feesCollected.assetId = e.quoteId
    · rw [if_pos ⟨hb, hq⟩, if_pos hq, wrap64_cast]
      push_cast
      ring
    · rw [if_neg fun h => hq h.2, if_neg hq, add_zero]

/-- When a trade is even: an ask keeps what is left of it, unless it buys from a bid; a margin position
is stored as it was read, and a short that calls it does not add to it. -/
structure Evenly (e : MarketEngine) (bid ask : MarketOrder) (mtrx : MarketTransaction) : Prop where
  rest : bid.type = .shortOrder → ask.type = .askOrder → ask.KeepsRest mtrx.askPaid.amount
  stored : ask.type = .coverOrder → e.StoredAs ask
  apart : bid.type = .shortOrder → ask.type = .coverOrder → ∀ key, e.OpensAt bid mtrx key →
    key ≠ ask.marketIndex

/-- What paying the bid leaves to the other side. -/
structure PaidBid (crypto : Crypto) (e e₁ : MarketEngine) : Prop where
  walk : SameWalk crypto e e₁
  only : OnlyBid e e₁

theorem PaysBid.paid (hp : e.pendingState.IsPending) (h : PaysBid crypto e bid mtrx e₁) :
    PaidBid crypto e e₁ := by
  obtain ⟨-, hpay⟩ | ⟨-, -, hpay⟩ := h
  · exact ⟨payCurrentBid_sameWalk hp hpay, (payCurrentBid_usesUp hp hpay).1⟩
  · exact ⟨payCurrentShort_sameWalk crypto hp hpay, (payCurrentShort_usesUp crypto hp hpay).1⟩

/-- A margin position that is stored as it was read stays so while the bid is paid. -/
theorem PaysBid.storedAs (hp : e.pendingState.IsPending) (hstored : e.StoredAs ask)
    (hapart : bid.type = .shortOrder → ∀ key, e.OpensAt bid mtrx key → key ≠ ask.marketIndex)
    (h : PaysBid crypto e bid mtrx e₁) : e₁.StoredAs ask := by
  obtain ⟨p, hget, hp'⟩ := hstored
  refine ⟨p, ?_, hp'⟩
  rw [ChainInterface.getCollateralRecord_eq] at hget ⊢
  obtain ⟨-, hpay⟩ | ⟨htype, -, hpay⟩ := h
  · obtain ⟨-, -, kept, fees, -, rfl⟩ := payCurrentBid_eq_ok hp hpay
    rw [afterBid_flat hp]
    exact hget
  · obtain ⟨-, shortCollateral, collateral, hput, hadd, ⟨-, rfl⟩ | ⟨-, -, coverIndex, hopens, rfl⟩⟩ :=
      payCurrentShort_eq_ok crypto hp hpay
    · exact hget
    · have hflat : ((e.issued mtrx.bidPaid.amount).afterShort crypto bid coverIndex collateral.amount
          mtrx.bidPaid.amount (wrap64 (bid.state.balance - shortCollateral.amount))).pendingState.flat =
            _ := flat_write_write hp _ _
      have hne := hapart htype coverIndex ⟨shortCollateral, collateral, hput, hadd, hopens⟩
      rw [hflat]
      exact (Table.getElem?_insert_of_ne _ _ hne.symm).trans hget

/-- The bid is in hand also after it was paid, or it is a short that traded for nothing. -/
theorem PaysBid.inHand (hp : e.pendingState.IsPending) (hin : InHand (some bid) e)
    (h : PaysBid crypto e bid mtrx e₁) : InHand none e₁ := by
  obtain ⟨-, hpay⟩ | ⟨-, -, hpay⟩ := h
  · exact (hin.payCurrentBid hp hpay).release
  · exact (hin.payCurrentShort crypto hp hpay).1

/-- What a margin position owes does not depend on the bid. -/
theorem Repays.of_paidBid {totalDebt principlePaid interestPaid : Asset} {left owed : ℤ}
    (hpaid : PaidBid crypto e e₁)
    (h : Repays crypto e₁ ask mtrx totalDebt principlePaid interestPaid left owed) :
    Repays crypto e ask mtrx totalDebt principlePaid interestPaid left owed := by
  have hage : e₁.getCurrentCoverAge ask = e.getCurrentCoverAge ask := by
    unfold getCurrentCoverAge
    rw [hpaid.only.now]
  have hdebt : e₁.getCurrentCoverDebt crypto ask = e.getCurrentCoverDebt crypto ask := by
    unfold getCurrentCoverDebt
    rw [hpaid.only.collat, hage]
  have hrate := h.rate
  have htotal := h.debt
  have hsplit := h.split
  rw [hpaid.only.collat] at hrate hsplit
  rw [hdebt] at htotal
  rw [hage, hpaid.walk.quote.id] at hsplit
  exact { h with rate := hrate, debt := htotal, split := hsplit }

/-- What the fees of a trade add to the sums: they are in the quote asset, with what the repayment
adds in the base asset. -/
theorem collected_tally {fees : Asset} {fee quoteId baseId : ℤ} (base quote : ℤ)
    (hne : baseId ≠ quoteId) (hquote : fees = {} ∨ fees.assetId = quoteId)
    (hbase : fee = 0 ∨ fees.assetId = baseId) :
    (if fees.assetId = baseId then (base : Word) * ((fees.amount + fee : ℤ) : Word)
      else if fees.assetId = quoteId then quote * ((fees.amount + fee : ℤ) : Word) else 0) =
      base * fee + quote * fees.amount := by
  by_cases hb : fees.assetId = baseId
  · have hzero : fees.amount = 0 := by
      obtain hnone | hq := hquote
      · rw [hnone]
      · exact absurd (hb.symm.trans hq) hne
    rw [if_pos hb, hzero]
    push_cast
    ring
  · rw [if_neg hb, hbase.resolve_right hb]
    by_cases hq : fees.assetId = quoteId
    · rw [if_pos hq]
      push_cast
      ring
    · rw [if_neg hq, hquote.resolve_right hq]
      push_cast
      ring

section Trade

variable (hideal : Function.Injective crypto.conditionAddress) (h : OnMarket e)
  (hacc : Accountable crypto r e) (hin : InHand (some bid) e)

include hideal h hacc hin in
/-- **The side of the bid** takes what it pays out of the sum of the quote asset. -/
theorem PaysBid.tally (hbid : e.currentBid = some bid) (hbalanced : Balanced e bid mtrx)
    (hidle : bid.type = .shortOrder → mtrx.bidPaid.amount = 0 → r.base * mtrx.askPaid.amount = 0)
    (hpay : PaysBid crypto e bid mtrx e₁) :
    tally r e₁ = tally r e + r.base * mtrx.askPaid.amount - r.quote * mtrx.bidPaid.amount := by
  have hkey : bid.marketIndex.assetPair = r.pair := (h.bid bid hbid).2.trans hacc.pair.symm
  obtain ⟨htype, hpay⟩ | ⟨htype, -, hpay⟩ := hpay
  · rw [payCurrentBid_tally hideal h.pending hacc hin hkey hpay, hbalanced.base]
  · exact payCurrentShort_tally h.pending hacc hin hkey h.ordered hbalanced.bidPaid
      (hbalanced.collateral htype) (hidle htype) hpay

include hideal in
/-- **The side of the ask** takes what it pays out of the sum of the base asset. -/
theorem PaysAsk.tally {hand : Option MarketOrder} (hp : e.pendingState.IsPending)
    (hacc : Accountable crypto r e) (hin : InHand hand e) (hask : e.currentAsk = some ask)
    (hkey : ask.marketIndex.assetPair = r.pair)
    (hrest : bid.type = .shortOrder → ask.type = .askOrder → ask.KeepsRest mtrx.askPaid.amount)
    (hstored : ask.type = .coverOrder → e.StoredAs ask)
    (hpay : PaysAsk crypto e bid ask mtrx e₁ mtrx') : ∃ lost fee : ℤ,
      tally r e₁ = tally r e - r.base * (mtrx.askPaid.amount + fee) +
        r.quote * mtrx.askReceived.amount + r.supply * lost ∧
      mtrx'.feesCollected = ⟨mtrx.feesCollected.amount + fee, mtrx.feesCollected.assetId⟩ ∧
      (fee = 0 ∨ mtrx.feesCollected.assetId = e.baseId) ∧
      (lost = 0 ∨ ask.type = .coverOrder ∧ ∃ totalDebt principlePaid interestPaid,
        Repays crypto e ask mtrx totalDebt principlePaid interestPaid 0 lost) := by
  obtain ⟨htype, hpay⟩ | ⟨htype, rfl, hpay⟩ := hpay
  · obtain ⟨lost, fee, htally, hfees, hfee, totalDebt, principlePaid, interestPaid, left, owed, hrepays,
      hlost⟩ := payCurrentCover_tally hideal hp hacc hin hask hkey (hstored htype) hpay
    refine ⟨lost, fee, htally, hfees, hfee, hlost.symm.imp_right ?_⟩
    rintro ⟨rfl, rfl⟩
    exact ⟨htype, totalDebt, principlePaid, interestPaid, hrepays⟩
  · refine ⟨0, 0, ?_, by rw [add_zero], Or.inl rfl, Or.inl rfl⟩
    rw [payCurrentAsk_tally hideal hp hacc hin hask hkey
      (fun hshort => hrest (of_decide_eq_true hshort) htype) hpay]
    push_cast
    ring

include hideal h hacc hin in
/-- **A trade moves no sum** when it is even, but for a debt that is closed at a loss. -/
theorem trade_tally (hbid : e.currentBid = some bid) (hask : e.currentAsk = some ask)
    {price askPrice : Price} (hprice : price.assetPair = e.pair)
    (heven : ∀ mtrx, Settles crypto e bid ask (openTransaction bid ask price askPrice) mtrx →
      Evenly e bid ask mtrx ∧
        (bid.type = .shortOrder → mtrx.bidPaid.amount = 0 → r.base * mtrx.askPaid.amount = 0))
    (htrade : e.trade crypto bid ask (openTransaction bid ask price askPrice) = .ok (e₁, mtrx'))
    (hcollect : Collects e₁ mtrx' e') : ∃ mtrx lost,
      Settles crypto e bid ask (openTransaction bid ask price askPrice) mtrx ∧
      MarketEngine.tally r e' = MarketEngine.tally r e + r.supply * (lost : ℤ) ∧
      (lost = 0 ∨ ask.type = .coverOrder ∧ ∃ totalDebt principlePaid interestPaid,
        Repays crypto e ask mtrx totalDebt principlePaid interestPaid 0 lost) := by
  obtain ⟨mtrx, e₂, hsettles, hpayBid, hpayAsk⟩ := trade_eq_ok (h.paired hbid hask) htrade
  obtain ⟨⟨hrest, hstored, hapart⟩, hidle⟩ := heven mtrx hsettles
  have hbalanced := hsettles.balanced h hbid hask hprice
  have hpaid := hpayBid.paid h.pending
  have hp₂ := hpaid.walk.isPending h.pending
  have hacc₂ := hacc.sameWalk h.pending hpaid.walk
  have hkey : ask.marketIndex.assetPair = r.pair := (h.ask ask hask).2.trans hacc.pair.symm
  have hbidSide := hpayBid.tally hideal h hacc hin hbid hbalanced hidle
  obtain ⟨lost, fee, haskSide, hfees, hfee, hlost⟩ := PaysAsk.tally hideal hp₂ hacc₂
    (hpayBid.inHand h.pending hin) (hpaid.only.ask.trans hask) hkey hrest
    (fun htype => hpayBid.storedAs h.pending (hstored htype) fun hshort => hapart hshort htype) hpayAsk
  have hwalk := trade_sameWalk h.pending (h.paired hbid hask) htrade
  have hquoteFees : mtrx.feesCollected = {} ∨ mtrx.feesCollected.assetId = e₁.quoteId := by
    rw [hwalk.quoteId]
    exact hbalanced.fees.imp_right And.left
  have hbaseFees : fee = 0 ∨ mtrx.feesCollected.assetId = e₁.baseId := by
    rw [hwalk.baseId, ← hpaid.walk.baseId]
    exact hfee
  have hne : e₁.baseId ≠ e₁.quoteId := by
    rw [hwalk.baseId, hwalk.quoteId]
    exact h.ordered.ne
  have hcollected := collected_tally r.base r.quote hne hquoteFees hbaseFees
  have hpaidAmount : (mtrx.bidPaid.amount : Word) = mtrx.askReceived.amount + mtrx.feesCollected.amount := by
    rw [hbalanced.quote, Int.cast_add]
  refine ⟨mtrx, lost, hsettles, ?_, hlost.imp_right ?_⟩
  · rw [hcollect.tally (hacc.sameWalk h.pending hwalk), haskSide, hbidSide, hfees, hcollected]
    linear_combination -(r.quote : Word) * hpaidAmount
  · rintro ⟨htype, totalDebt, principlePaid, interestPaid, hrepays⟩
    exact ⟨htype, totalDebt, principlePaid, interestPaid, hrepays.of_paidBid hpaid⟩

end Trade

end MarketEngine

end LarkX
