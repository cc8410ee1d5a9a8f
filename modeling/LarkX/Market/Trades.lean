import LarkX.Market.Writes

/-!
# What a trade does

One lemma for each function that settles a trade: when it returns, which checks have passed and
what the engine is afterwards, with the writes to the pending state in order. The lemmas on the
four kinds of trade put these together with the amounts the kind settles.

A rest that is too small to trade is swept into fees in the same way for bids and asks
(`Sweeps`).
-/

namespace LarkX

/-- A conversion succeeds when its result fits in 63 bits. -/
private theorem convert_eq_ok {x id : ℤ} {r : Asset} :
    (do
      require (bigintLog2 x < 128) Error.additionOverflow
      let amount ← bigintToInt64 x
      return (⟨amount, id⟩ : Asset)) = Except.ok r ↔ x.natAbs < 2 ^ 63 ∧ r = ⟨x, id⟩ := by
  simp only [bind_eq_ok, require_eq_ok, pure_eq_ok, bigintToInt64_eq_ok]
  constructor
  · rintro ⟨-, -, amount, ⟨hlt, rfl⟩, rfl⟩
    exact ⟨hlt, rfl⟩
  · rintro ⟨hlt, rfl⟩
    have hle : bigintLog2 x ≤ 63 := bigintLog2_le_iff.2 hlt
    exact ⟨(), by omega, x, ⟨hlt, rfl⟩, rfl⟩

/-- The amount of the quote asset at a price, for an amount of the base asset. -/
theorem Asset.mulPrice_base {a r : Asset} {p : Price} (hid : a.assetId = p.baseAssetId) :
    a.mulPrice p = .ok r ↔ ((a.amount * p.ratio).tdiv btsPricePrecision).natAbs < 2 ^ 63 ∧
      r = ⟨(a.amount * p.ratio).tdiv btsPricePrecision, p.quoteAssetId⟩ := by
  unfold Asset.mulPrice
  rw [if_pos hid]
  exact convert_eq_ok

/-- The amount of the base asset at a price, for an amount of the quote asset. -/
theorem Asset.mulPrice_quote {a r : Asset} {p : Price} (hid : a.assetId = p.quoteAssetId)
    (hne : p.quoteAssetId ≠ p.baseAssetId) :
    a.mulPrice p = .ok r ↔ ((a.amount * btsPricePrecision).tdiv p.ratio).natAbs < 2 ^ 63 ∧
      r = ⟨(a.amount * btsPricePrecision).tdiv p.ratio, p.baseAssetId⟩ := by
  unfold Asset.mulPrice
  rw [if_neg (hid ▸ hne), if_pos hid]
  exact convert_eq_ok

/-- Division of what is not negative rounds down, and the quotient fits when it is small. -/
private theorem tdiv_fits {x y : ℤ} (hx : 0 ≤ x) (hy : 0 ≤ y) :
    x.tdiv y = x / y ∧ ((x.tdiv y).natAbs < 2 ^ 63 ↔ x / y < 2 ^ 63) := by
  have heq : x.tdiv y = x / y := Int.tdiv_eq_ediv_of_nonneg hx
  have hnonneg : 0 ≤ x / y := Int.ediv_nonneg hx hy
  refine ⟨heq, ?_⟩
  rw [heq]
  omega

theorem Asset.mulPrice_base_of_nonneg {x : ℤ} {r : Asset} {p : Price} (hx : 0 ≤ x) :
    Asset.mulPrice ⟨x, p.baseAssetId⟩ p = .ok r ↔ x * p.ratio / btsPricePrecision < 2 ^ 63 ∧
      r = ⟨x * p.ratio / btsPricePrecision, p.quoteAssetId⟩ := by
  obtain ⟨heq, hfits⟩ := tdiv_fits (x := x * p.ratio) (y := btsPricePrecision)
    (mul_nonneg hx (Int.natCast_nonneg _)) (Int.natCast_nonneg _)
  rw [Asset.mulPrice_base rfl, hfits, heq]

theorem Asset.mulPrice_quote_of_nonneg {x : ℤ} {r : Asset} {p : Price} (hx : 0 ≤ x)
    (hne : p.quoteAssetId ≠ p.baseAssetId) :
    Asset.mulPrice ⟨x, p.quoteAssetId⟩ p = .ok r ↔ x * btsPricePrecision / p.ratio < 2 ^ 63 ∧
      r = ⟨x * btsPricePrecision / p.ratio, p.baseAssetId⟩ := by
  obtain ⟨heq, hfits⟩ := tdiv_fits (x := x * btsPricePrecision) (y := p.ratio)
    (mul_nonneg hx (Int.natCast_nonneg _)) (Int.natCast_nonneg _)
  rw [Asset.mulPrice_quote rfl hne, hfits, heq]

/-- Nothing is worth nothing. -/
theorem Asset.mulPrice_zero {a r : Asset} {p : Price} (hzero : a.amount = 0)
    (h : a.mulPrice p = .ok r) : r.amount = 0 := by
  unfold Asset.mulPrice at h
  simp only [hzero, zero_mul, Int.zero_tdiv, ite_eq_ok, bind_eq_ok, pure_eq_ok, throw_eq_ok] at h
  obtain ⟨-, -, -, amount, hamount, rfl⟩ | ⟨-, ⟨-, -, -, amount, hamount, rfl⟩ | ⟨-, hfalse⟩⟩ := h
  · exact (bigintToInt64_eq_ok.1 hamount).2.symm
  · exact (bigintToInt64_eq_ok.1 hamount).2.symm
  · exact hfalse.elim

/-- The lower of two amounts is one of them. -/
theorem Asset.min_eq (l r : Asset) : l.min r = l ∨ l.min r = r := by
  unfold Asset.min
  split
  · exact Or.inr rfl
  · exact Or.inl rfl

/-- The lower of two amounts is not above either. -/
theorem Asset.min_le (l r : Asset) : (l.min r).amount ≤ l.amount ∧ (l.min r).amount ≤ r.amount := by
  unfold Asset.min
  split
  · exact ⟨by omega, le_rfl⟩
  · exact ⟨le_rfl, by omega⟩

/-- The lower of two amounts of an asset is one of the asset. -/
theorem Asset.min_assetId {l r : Asset} {id : ℤ} (hl : l.assetId = id) (hr : r.assetId = id) :
    (l.min r).assetId = id := by
  obtain heq | heq := Asset.min_eq l r
  · rw [heq, hl]
  · rw [heq, hr]

/-- The balance of an order, whatever its asset. -/
theorem MarketOrder.getBalance_amount (o : MarketOrder) : o.getBalance.amount = o.state.balance := by
  unfold MarketOrder.getBalance
  cases o.type <;> rfl

/-- The transaction of a trade in which all of `usd` goes from the bid to the ask. -/
def MarketTransaction.filled (mtrx : MarketTransaction) (usd askPaid shortCollateral : Asset) :
    MarketTransaction :=
  { mtrx with
    askReceived := usd
    askPaid
    bidReceived := askPaid
    bidPaid := usd
    shortCollateral }

namespace MarketEngine

open ChainInterface (Writes)

variable {crypto : Crypto} {e e₁ e₂ e' : MarketEngine} {bid ask : MarketOrder}
  {mtrx mtrx' : MarketTransaction}

/-! ### What a trade leaves alone -/

/-- The way through the books is the same: market, feed, counters and iterators, and everything
below the pending state. -/
structure SameWalk (crypto : Crypto) (e e' : MarketEngine) : Prop where
  quoteId : e'.quoteId = e.quoteId
  baseId : e'.baseId = e.baseId
  quote : SameAsset e.quoteAsset e'.quoteAsset
  base : SameAsset e.baseAsset e'.baseAsset
  feed : e'.feedPrice = e.feedPrice
  state : Writes crypto (fun _ _ => True) e.pendingState e'.pendingState
  ordersFilled : e'.ordersFilled = e.ordersFilled
  lastOrdersFilled : e'.lastOrdersFilled = e.lastOrdersFilled
  bidItr : e'.bidItr = e.bidItr
  askItr : e'.askItr = e.askItr
  shortItr : e'.shortItr = e.shortItr
  collateralItr : e'.collateralItr = e.collateralItr

theorem SameWalk.refl (crypto : Crypto) (e : MarketEngine) : SameWalk crypto e e :=
  ⟨rfl, rfl, .refl _, .refl _, rfl, .refl, rfl, rfl, rfl, rfl, rfl, rfl⟩

theorem SameWalk.trans (h : SameWalk crypto e e₁) (h' : SameWalk crypto e₁ e₂) :
    SameWalk crypto e e₂ :=
  ⟨h'.quoteId.trans h.quoteId, h'.baseId.trans h.baseId, h.quote.trans h'.quote,
    h.base.trans h'.base, h'.feed.trans h.feed, h.state.trans h'.state, h'.ordersFilled.trans h.ordersFilled,
    h'.lastOrdersFilled.trans h.lastOrdersFilled, h'.bidItr.trans h.bidItr,
    h'.askItr.trans h.askItr, h'.shortItr.trans h.shortItr, h'.collateralItr.trans h.collateralItr⟩

theorem SameWalk.pair (h : SameWalk crypto e e') : e'.pair = e.pair := by
  unfold MarketEngine.pair
  rw [h.quoteId, h.baseId]

theorem SameWalk.isPending (h : SameWalk crypto e e') (hp : e.pendingState.IsPending) :
    e'.pendingState.IsPending :=
  h.state.isPending hp

theorem SameWalk.now (h : SameWalk crypto e e') : e'.pendingState.now = e.pendingState.now :=
  h.state.sameBelow.now

/-! ### Parts of a trade -/

/-- The balance record of an owner after funds were paid to it. -/
def credited (crypto : Crypto) (c : ChainInterface) (owner : Address) (funds : Asset) :
    BalanceRecord :=
  let payout := (c.getBalanceRecord (crypto.conditionAddress (.ofSignature owner funds.assetId 0))).getD
    (.ofOwner owner ⟨0, funds.assetId⟩ 0)
  { payout with
    balance := wrap64 (payout.balance + funds.amount)
    lastUpdate := c.now
    depositDate := c.now }

theorem payOut_eq (hp : e.pendingState.IsPending) (owner : Address) (funds : Asset) :
    e.payOut crypto owner funds =
      e.withState (e.pendingState.write crypto (.balance (credited crypto e.pendingState owner funds))) := by
  unfold payOut
  dsimp only
  rw [ChainInterface.storeBalanceRecord_eq hp]
  rfl

theorem payOut_writes (crypto : Crypto) (hp : e.pendingState.IsPending) (owner : Address)
    (funds : Asset) : Writes crypto (fun _ _ => True) e.pendingState
      (e.payOut crypto owner funds).pendingState :=
  payOut_eq hp owner funds ▸ .single trivial

/-- What is left of an order after a trade: too small a rest goes to the fees. -/
inductive Sweeps (price : Price) (left : Asset) (fees kept fees' : ℤ) : Prop
  | swept {rest : Asset} (hrest : left.mulPrice price = .ok rest) (hzero : rest.amount = 0)
      (hkept : kept = 0) (hfees : fees' = wrap64 (fees + left.amount))
  | kept {rest : Asset} (hrest : left.mulPrice price = .ok rest) (hne : rest.amount ≠ 0)
      (hkept : kept = left.amount) (hfees : fees' = fees)

/-- The rest was converted. -/
theorem Sweeps.rest {price : Price} {left : Asset} {fees kept fees' : ℤ}
    (h : Sweeps price left fees kept fees') : ∃ rest, left.mulPrice price = .ok rest := by
  cases h with
  | swept hrest => exact ⟨_, hrest⟩
  | kept hrest => exact ⟨_, hrest⟩

/-! ### Bids and asks -/

/-- A bid after a trade. -/
def afterBid (crypto : Crypto) (e : MarketEngine) (bid : MarketOrder) (mtrx : MarketTransaction)
    (kept fees : ℤ) : MarketEngine :=
  { e with
    pendingState := (e.pendingState.write crypto (.balance
      (credited crypto e.pendingState mtrx.bidOwner ⟨mtrx.bidReceived.amount, e.baseId⟩))).write crypto
        (.bid bid.marketIndex { bid.state with balance := kept })
    quoteAsset := { e.quoteAsset with collectedFees := fees }
    currentBid := some (bid.setBalance kept) }

/-- Two writes, one after the other. -/
theorem flat_write_write {c : ChainInterface} (hp : c.IsPending) (w w' : Write) :
    ((c.write crypto w).write crypto w').flat = (c.flat.write crypto w).write crypto w' := by
  rw [ChainInterface.flat_write ((ChainInterface.sameBelow_write ..).pending hp),
    ChainInterface.flat_write hp]

theorem afterBid_flat (hp : e.pendingState.IsPending) (kept fees : ℤ) :
    (e.afterBid crypto bid mtrx kept fees).pendingState.flat =
      (e.pendingState.flat.write crypto (.balance (credited crypto e.pendingState mtrx.bidOwner
        ⟨mtrx.bidReceived.amount, e.baseId⟩))).write crypto
          (.bid bid.marketIndex { bid.state with balance := kept }) :=
  flat_write_write hp _ _

/-- **`pay_current_bid`.** -/
theorem payCurrentBid_eq_ok (hp : e.pendingState.IsPending)
    (h : e.payCurrentBid crypto bid mtrx = .ok e') :
    bid.type = .bidOrder ∧ 0 ≤ wrap64 (bid.state.balance - mtrx.bidPaid.amount) ∧
      ∃ kept fees, Sweeps bid.getPrice
        ⟨wrap64 (bid.state.balance - mtrx.bidPaid.amount), bid.getPrice.quoteAssetId⟩
        e.quoteAsset.collectedFees kept fees ∧ e' = e.afterBid crypto bid mtrx kept fees := by
  simp only [payCurrentBid, bind_eq_ok, require_eq_ok, pure_eq_ok, payOut_eq hp] at h
  obtain ⟨-, htype, -, hleft, quantity, hquantity, rest, hrest, rfl⟩ := h
  have hq : quantity = ⟨wrap64 (bid.state.balance - mtrx.bidPaid.amount),
      bid.getPrice.quoteAssetId⟩ := by
    simp only [MarketOrder.getQuoteQuantity, MarketOrder.getBalance, MarketOrder.setBalance, htype,
      pure_eq_ok] at hquantity
    exact hquantity.symm
  subst hq
  refine ⟨htype, hleft, ?_⟩
  have hp₁ : (e.pendingState.write crypto (.balance (credited crypto e.pendingState mtrx.bidOwner
      ⟨mtrx.bidReceived.amount, e.baseId⟩))).IsPending :=
    (ChainInterface.sameBelow_write ..).pending hp
  by_cases hzero : rest.amount = 0
  · refine ⟨_, _, .swept hrest hzero rfl rfl, ?_⟩
    simp only [if_pos hzero, withState, ChainInterface.storeBidRecord_eq crypto hp₁]
    rfl
  · refine ⟨_, _, .kept hrest hzero rfl rfl, ?_⟩
    simp only [if_neg hzero, withState, ChainInterface.storeBidRecord_eq crypto hp₁]
    rfl

/-- An ask after a trade. -/
def afterAsk (crypto : Crypto) (e : MarketEngine) (ask : MarketOrder) (mtrx : MarketTransaction)
    (kept : ℤ) (quoteFees baseFees : ℤ) : MarketEngine :=
  { e with
    pendingState := (e.pendingState.write crypto (.balance
      (credited crypto e.pendingState mtrx.askOwner ⟨mtrx.askReceived.amount, e.quoteId⟩))).write crypto
        (.ask ask.marketIndex { ask.state with balance := kept })
    quoteAsset := { e.quoteAsset with collectedFees := quoteFees }
    baseAsset := { e.baseAsset with collectedFees := baseFees }
    currentAsk := some (ask.setBalance kept) }

theorem afterAsk_flat (hp : e.pendingState.IsPending) (kept quoteFees baseFees : ℤ) :
    (e.afterAsk crypto ask mtrx kept quoteFees baseFees).pendingState.flat =
      (e.pendingState.flat.write crypto (.balance (credited crypto e.pendingState mtrx.askOwner
        ⟨mtrx.askReceived.amount, e.quoteId⟩))).write crypto
          (.ask ask.marketIndex { ask.state with balance := kept }) :=
  flat_write_write hp _ _

/-- **`pay_current_ask`.** The rest is swept into the fees of the asset the caller names. -/
theorem payCurrentAsk_eq_ok (hp : e.pendingState.IsPending) {feesToQuote : Bool}
    (h : e.payCurrentAsk crypto ask mtrx feesToQuote = .ok e') :
    ask.type = .askOrder ∧ 0 ≤ wrap64 (ask.state.balance - mtrx.askPaid.amount) ∧
      ∃ kept quoteFees baseFees, e' = e.afterAsk crypto ask mtrx kept quoteFees baseFees ∧
        Sweeps ask.getPrice
          ⟨wrap64 (ask.state.balance - mtrx.askPaid.amount), ask.getPrice.baseAssetId⟩
          (if feesToQuote then e.quoteAsset.collectedFees else e.baseAsset.collectedFees) kept
          (if feesToQuote then quoteFees else baseFees) ∧
        (if feesToQuote then baseFees = e.baseAsset.collectedFees
          else quoteFees = e.quoteAsset.collectedFees) := by
  simp only [payCurrentAsk, bind_eq_ok, require_eq_ok, pure_eq_ok, payOut_eq hp] at h
  obtain ⟨-, htype, -, hleft, quantity, hquantity, rest, hrest, rfl⟩ := h
  have hq : quantity = ⟨wrap64 (ask.state.balance - mtrx.askPaid.amount),
      ask.getPrice.baseAssetId⟩ := by
    simp only [MarketOrder.getQuantity, MarketOrder.getBalance, MarketOrder.setBalance, htype,
      pure_eq_ok] at hquantity
    exact hquantity.symm
  subst hq
  refine ⟨htype, hleft, ?_⟩
  have hp₁ : (e.pendingState.write crypto (.balance (credited crypto e.pendingState mtrx.askOwner
      ⟨mtrx.askReceived.amount, e.quoteId⟩))).IsPending :=
    (ChainInterface.sameBelow_write ..).pending hp
  by_cases hzero : rest.amount = 0
  · cases feesToQuote with
    | true =>
      refine ⟨0, _, e.baseAsset.collectedFees, ?_, .swept hrest hzero rfl rfl, rfl⟩
      simp only [if_pos hzero, if_true, withState, ChainInterface.storeAskRecord_eq crypto hp₁]
      rfl
    | false =>
      refine ⟨0, e.quoteAsset.collectedFees, _, ?_, .swept hrest hzero rfl rfl, rfl⟩
      simp only [if_pos hzero, Bool.false_eq_true, if_false, withState,
        ChainInterface.storeAskRecord_eq crypto hp₁]
      rfl
  · refine ⟨wrap64 (ask.state.balance - mtrx.askPaid.amount), e.quoteAsset.collectedFees,
      e.baseAsset.collectedFees, ?_, ?_, ?_⟩
    · simp only [if_neg hzero, withState, ChainInterface.storeAskRecord_eq crypto hp₁]
      rfl
    · refine .kept hrest hzero rfl ?_
      cases feesToQuote <;> rfl
    · cases feesToQuote <;> rfl

/-! ### Shorts -/

/-- A short after a trade that pays nothing: it is not stored. -/
def afterIdleShort (e : MarketEngine) (bid : MarketOrder) (left : ℤ) : MarketEngine :=
  { e with currentBid := some (bid.setBalance left) }

/-- The margin position a short opens or adds to. -/
def position (e : MarketEngine) (bid : MarketOrder) (coverIndex : MarketIndexKey)
    (collateral paid : ℤ) : CollateralRecord :=
  let r := (e.pendingState.getCollateralRecord coverIndex).getD {}
  { collateralBalance := wrap64 (r.collateralBalance + collateral)
    payoffBalance := wrap64 (r.payoffBalance + paid)
    interestRate := bid.getPrice
    expiration := e.pendingState.now + btsBlockchainMaxShortPeriodSec }

/-- A short after a trade. -/
def afterShort (crypto : Crypto) (e : MarketEngine) (bid : MarketOrder)
    (coverIndex : MarketIndexKey) (collateral paid left : ℤ) : MarketEngine :=
  { e with
    pendingState := (e.pendingState.write crypto (.collateral coverIndex
      (e.position bid coverIndex collateral paid))).write crypto
        (.short bid.marketIndex { bid.state with balance := left })
    currentBid := some (bid.setBalance left) }

/-- The engine after an amount of the quote asset was issued. -/
def issued (e : MarketEngine) (amount : ℤ) : MarketEngine :=
  { e with quoteAsset := { e.quoteAsset with
    currentShareSupply := wrap64 (e.quoteAsset.currentShareSupply + amount) } }

/-- The margin position of a trade: its key and the amounts in it are in range. -/
structure Opens (e : MarketEngine) (bid : MarketOrder) (mtrx : MarketTransaction)
    (collateral : Asset) (coverIndex : MarketIndexKey) : Prop where
  price : mtrx.bidPaid.divAsset
    ⟨EvaluationState.callCollateral collateral.amount, collateral.assetId⟩ = .ok coverIndex.orderPrice
  owner : coverIndex.owner = bid.getOwner
  payoff : 0 ≤ (e.position bid coverIndex collateral.amount mtrx.bidPaid.amount).payoffBalance
  collateral : 0 ≤ (e.position bid coverIndex collateral.amount mtrx.bidPaid.amount).collateralBalance

/-- **`pay_current_short`.** -/
theorem payCurrentShort_eq_ok (crypto : Crypto) (hp : e.pendingState.IsPending)
    (h : e.payCurrentShort bid mtrx = .ok e') :
    bid.type = .shortOrder ∧ ∃ shortCollateral collateral,
      e.shortCollateralOf bid mtrx.shortCollateral = .ok shortCollateral ∧
      shortCollateral.add mtrx.askPaid = .ok collateral ∧
      ((mtrx.bidPaid.amount = 0 ∧ e' = (e.issued 0).afterIdleShort bid
          (wrap64 (bid.state.balance - shortCollateral.amount))) ∨
        (0 < mtrx.bidPaid.amount ∧
          0 ≤ wrap64 (bid.state.balance - shortCollateral.amount) ∧
          ∃ coverIndex, e.Opens bid mtrx collateral coverIndex ∧
            e' = (e.issued mtrx.bidPaid.amount).afterShort crypto bid coverIndex collateral.amount
              mtrx.bidPaid.amount (wrap64 (bid.state.balance - shortCollateral.amount)))) := by
  simp only [payCurrentShort, bind_eq_ok, require_eq_ok, ite_eq_ok, pure_eq_ok] at h
  obtain ⟨-, htype, shortCollateral, hcollateral, collateral, hadd, h⟩ := h
  refine ⟨htype, shortCollateral, collateral, hcollateral, hadd, ?_⟩
  obtain ⟨hle, -, hnonneg, rfl⟩ | ⟨hpos, price, hprice, -, hpayoff, -, hcoll, -, -, -, hleft, rfl⟩ := h
  · have hzero : mtrx.bidPaid.amount = 0 := le_antisymm hle hnonneg
    refine Or.inl ⟨hzero, ?_⟩
    rw [hzero]
    rfl
  · refine Or.inr ⟨not_le.1 hpos, hleft, ⟨price, bid.getOwner⟩, ⟨hprice, rfl, hpayoff, hcoll⟩, ?_⟩
    have hp₁ : (e.pendingState.write crypto (.collateral ⟨price, bid.getOwner⟩
        (e.position bid ⟨price, bid.getOwner⟩ collateral.amount mtrx.bidPaid.amount))).IsPending :=
      (ChainInterface.sameBelow_write ..).pending hp
    refine congrArg (fun c => ({ e.issued mtrx.bidPaid.amount with
      pendingState := c
      currentBid := some (bid.setBalance (wrap64 (bid.state.balance - shortCollateral.amount))) } :
        MarketEngine)) ?_
    simp only [withState, ChainInterface.storeCollateralRecord_eq crypto hp]
    exact ChainInterface.storeShortRecord_eq crypto hp₁ ..

/-! ### Margin positions -/

/-- A margin position after a trade. -/
def afterCover (crypto : Crypto) (e : MarketEngine) (ask : MarketOrder) (left owed : ℤ) :
    MarketEngine :=
  let r := { e.currentCollatRecord with collateralBalance := left, payoffBalance := owed }
  { e with
    pendingState := e.pendingState.write crypto (.collateral ask.marketIndex r)
    currentAsk := some { ask.setBalance owed with collateral := left }
    currentCollatRecord := r }

/-- The engine after a payment of principal and interest. -/
def repaid (e : MarketEngine) (principlePaid interestPaid : ℤ) : MarketEngine :=
  { e with quoteAsset := { e.quoteAsset with
    currentShareSupply := wrap64 (e.quoteAsset.currentShareSupply - principlePaid)
    collectedFees := wrap64 (e.quoteAsset.collectedFees + interestPaid) } }

/-- The engine after a debt was charged to the fees. -/
def charged (e : MarketEngine) (owed : ℤ) : MarketEngine :=
  { e with quoteAsset := { e.quoteAsset with
    collectedFees := wrap64 (e.quoteAsset.collectedFees - owed) } }

/-- The fee on collateral that is returned. -/
def coverFee (e : MarketEngine) (left : ℤ) : ℤ :=
  if e.pendingState.now < e.currentCollatRecord.expiration then (wrap64 (left * 5000)).tdiv 100000
  else 0

/-- What becomes of a margin position with `left` of the collateral and `owed` of the debt after a
payment. -/
inductive Closes (crypto : Crypto) (e : MarketEngine) (ask : MarketOrder) (mtrx : MarketTransaction)
    (left owed : ℤ) : MarketEngine → MarketTransaction → Prop
  | atLoss (hleft : left = 0) :
      Closes crypto e ask mtrx left owed ((e.charged owed).afterCover crypto ask 0 0) mtrx
  | paidOff {feesCollected : Asset} (hleft : 0 < left) (howed : owed = 0)
      (hid : feesCollected.assetId = mtrx.feesCollected.assetId)
      (hfees : feesCollected.amount = mtrx.feesCollected.amount + e.coverFee left)
      (hbase : e.pendingState.now < e.currentCollatRecord.expiration →
        mtrx.feesCollected.assetId = e.baseId) :
      Closes crypto e ask mtrx left owed
        ((e.payOut crypto ask.getOwner ⟨wrap64 (left - e.coverFee left), e.baseId⟩).afterCover
          crypto ask 0 0)
        { mtrx with feesCollected }
  | kept (hleft : 0 < left) (howed : 0 < owed) :
      Closes crypto e ask mtrx left owed (e.afterCover crypto ask left owed) mtrx

private theorem returnCollateral_eq_ok
    (hrange : IsInt64 ask.collateral) (h : e.returnCollateral crypto ask mtrx = .ok (e', mtrx')) :
    e' = e.payOut crypto ask.getOwner
        ⟨wrap64 (ask.collateral - e.coverFee ask.collateral), e.baseId⟩ ∧
      ∃ feesCollected : Asset, mtrx' = { mtrx with feesCollected } ∧
        feesCollected.assetId = mtrx.feesCollected.assetId ∧
        feesCollected.amount = mtrx.feesCollected.amount + e.coverFee ask.collateral ∧
        (e.pendingState.now < e.currentCollatRecord.expiration →
          mtrx.feesCollected.assetId = e.baseId) := by
  unfold coverFee
  simp only [returnCollateral, ite_eq_ok, bind_eq_ok, pure_eq_ok, require_eq_ok,
    Prod.mk.injEq] at h
  obtain ⟨hcalled, -, -, feesCollected, hfees, rfl, rfl⟩ | ⟨hexpired, rfl, rfl⟩ := h
  · obtain ⟨hid, hid', hamount, -⟩ := Asset.add_eq_ok hfees
    rw [if_pos hcalled]
    exact ⟨rfl, feesCollected, rfl, hid', hamount, fun _ => hid⟩
  · rw [if_neg hexpired, sub_zero, add_zero, wrap64_eq_self hrange]
    exact ⟨rfl, mtrx.feesCollected, rfl, rfl, rfl, fun h => absurd h hexpired⟩

/-- A margin position of a trade: how the payment splits, and what is left. -/
structure Repays (crypto : Crypto) (e : MarketEngine) (ask : MarketOrder) (mtrx : MarketTransaction)
    (totalDebt principlePaid interestPaid : Asset) (left owed : ℤ) : Prop where
  rate : e.currentCollatRecord.interestRate.baseAssetId <
    e.currentCollatRecord.interestRate.quoteAssetId
  debt : e.getCurrentCoverDebt crypto ask = .ok totalDebt
  split : EvaluationState.splitPayment crypto mtrx.askReceived
    ⟨e.currentCollatRecord.payoffBalance, e.quoteAsset.id⟩ totalDebt
    e.currentCollatRecord.interestRate (e.getCurrentCoverAge ask) = .ok (principlePaid, interestPaid)
  owed_eq : owed = if mtrx.askReceived.ge totalDebt then 0
    else wrap64 (ask.state.balance - principlePaid.amount)
  left_eq : left = wrap64 (ask.collateral - mtrx.askPaid.amount)
  principle_nonneg : 0 ≤ principlePaid.amount
  interest_nonneg : 0 ≤ interestPaid.amount
  owed_nonneg : 0 ≤ owed
  left_nonneg : 0 ≤ left

/-- A margin position is stored as it is in the engine. -/
private def storeCover (e : MarketEngine) (ask : MarketOrder) : MarketEngine :=
  let r := { e.currentCollatRecord with
    collateralBalance := ask.collateral
    payoffBalance := ask.state.balance }
  { e with
    pendingState := e.pendingState.storeCollateralRecord ask.marketIndex r
    currentAsk := some ask
    currentCollatRecord := r }

private theorem storeCover_eq (hp : e.pendingState.IsPending) (ask : MarketOrder) (left owed : ℤ) :
    e.storeCover { ask.setBalance owed with collateral := left } = e.afterCover crypto ask left owed := by
  let r := { e.currentCollatRecord with collateralBalance := left, payoffBalance := owed }
  exact congrArg (fun c => ({ e with
    pendingState := c
    currentAsk := some { ask.setBalance owed with collateral := left }
    currentCollatRecord := r } : MarketEngine))
      (ChainInterface.storeCollateralRecord_eq crypto hp ask.marketIndex r)

/-- The two ways a margin position is closed, one after the other. -/
private theorem closes_of (hp : e.pendingState.IsPending) {left owed : ℤ} (hrange : IsInt64 left)
    (hleft : 0 ≤ left) (howed : 0 ≤ owed) {ask₁ : MarketOrder} {mtrx₁ : MarketTransaction}
    (hclose : (e.closeAtLoss { ask.setBalance owed with collateral := left }).1.closePaidOff crypto
      (e.closeAtLoss { ask.setBalance owed with collateral := left }).2 mtrx = .ok (e₁, ask₁, mtrx₁)) :
    Closes crypto e ask mtrx left owed (e₁.storeCover ask₁) mtrx₁ := by
  rcases hleft.eq_or_lt with rfl | hpos
  · rw [closeAtLoss, if_pos rfl, closePaidOff, if_neg fun h => lt_irrefl _ h.2, pure_eq_ok] at hclose
    cases hclose
    exact (storeCover_eq (e := e.charged owed) hp ask 0 0).symm ▸ .atLoss rfl
  · rw [closeAtLoss, if_neg hpos.ne'] at hclose
    rcases howed.eq_or_lt with rfl | howed'
    · rw [closePaidOff, if_pos ⟨rfl, hpos⟩, bind_eq_ok] at hclose
      obtain ⟨⟨e₂, mtrx₂⟩, hreturn, hclose⟩ := hclose
      rw [pure_eq_ok] at hclose
      cases hclose
      obtain ⟨rfl, feesCollected, rfl, hid, hamount, hbase⟩ := returnCollateral_eq_ok hrange hreturn
      exact (storeCover_eq (e := e.payOut crypto ask.getOwner _) 
        ((payOut_writes crypto hp _ _).isPending hp) ask 0 0).symm ▸
        .paidOff hpos rfl hid hamount hbase
    · rw [closePaidOff, if_neg fun h => howed'.ne' h.1, pure_eq_ok] at hclose
      cases hclose
      exact (storeCover_eq hp ask left owed).symm ▸ .kept hpos howed'

/-- **`pay_current_cover`.** -/
theorem payCurrentCover_eq_ok (hp : e.pendingState.IsPending)
    (h : e.payCurrentCover crypto ask mtrx = .ok (e', mtrx')) :
    ask.type = .coverOrder ∧ ∃ totalDebt principlePaid interestPaid left owed,
      Repays crypto e ask mtrx totalDebt principlePaid interestPaid left owed ∧
      Closes crypto (e.repaid principlePaid.amount interestPaid.amount) ask mtrx left owed e' mtrx' := by
  simp only [payCurrentCover, bind_eq_ok, require_eq_ok, pure_eq_ok, Prod.mk.injEq] at h
  obtain ⟨-, htype, -, hrate, totalDebt, hdebt, ⟨principlePaid, interestPaid⟩, hsplit, -, hprinciple,
    -, hinterest, -, howed, -, hleft, ⟨e₁, ask₁, mtrx₁⟩, hclose, rfl, rfl⟩ := h
  refine ⟨htype, totalDebt, principlePaid, interestPaid, _, _,
    ⟨hrate, hdebt, hsplit, rfl, rfl, hprinciple, hinterest, howed, hleft⟩, ?_⟩
  exact closes_of (e := e.repaid principlePaid.amount interestPaid.amount) hp
    (isInt64_wrap64 (ask.collateral - mtrx.askPaid.amount)) hleft howed hclose

/-! ### The four kinds of trade -/

/-- The amounts of a margin call: what is for sale, what the collateral affords, what is owed. -/
structure CoverAmounts (crypto : Crypto) (e : MarketEngine) (ask : MarketOrder)
    (mtrx : MarketTransaction) (forSale maxAfford coverDebt askPaid : Asset) : Prop where
  max : Asset.mulPrice ⟨ask.collateral, e.baseId⟩ mtrx.bidPrice = .ok maxAfford
  debt : e.getCurrentCoverDebt crypto ask = .ok coverDebt
  paid : ((forSale.min maxAfford).min coverDebt).amount = maxAfford.amount ∧
      askPaid = ⟨ask.collateral, e.baseId⟩ ∨
    ((forSale.min maxAfford).min coverDebt).amount ≠ maxAfford.amount ∧
      ((forSale.min maxAfford).min coverDebt).mulPrice mtrx.askPrice = .ok askPaid

/-- The collateral a short puts up for `usd` of the `forSale` it can sell. -/
def PutsUp (feed : Price) (bid : MarketOrder) (forSale usd shortCollateral : Asset) : Prop :=
  usd.amount = forSale.amount ∧ shortCollateral = bid.getBalance ∨
    usd.amount ≠ forSale.amount ∧ usd.mulPrice (collateralRate feed) = .ok shortCollateral

/-- **A margin position is called by a short.** -/
theorem tradeShortCover_eq_ok (h : e.tradeShortCover crypto bid ask mtrx = .ok (e', mtrx')) :
    ∃ feed forSale maxAfford coverDebt usd askPaid shortCollateral e₁,
      e.feedPrice = some feed ∧ bid.getBalance.mulPrice (collateralRate feed) = .ok forSale ∧
      CoverAmounts crypto e ask mtrx forSale maxAfford coverDebt askPaid ∧
      usd = (forSale.min maxAfford).min coverDebt ∧ PutsUp feed bid forSale usd shortCollateral ∧
      e.payCurrentShort bid (mtrx.filled usd askPaid shortCollateral) = .ok e₁ ∧
      e₁.payCurrentCover crypto ask (mtrx.filled usd askPaid shortCollateral) = .ok (e', mtrx') := by
  simp only [tradeShortCover, ite_bind, bind_eq_ok, orThrow_eq_ok] at h
  obtain ⟨feed, hfeed, maxAfford, hmax, coverDebt, hdebt, forSale, hsale, askPaid, hpaid,
    shortCollateral, hcollateral, e₁, hshort, hcover⟩ := h
  simp only [ite_eq_ok, pure_eq_ok] at hpaid hcollateral
  exact ⟨feed, forSale, maxAfford, coverDebt, _, askPaid, shortCollateral, e₁, hfeed, hsale,
    ⟨hmax, hdebt, hpaid.imp_left (And.imp_right Eq.symm)⟩, rfl,
    hcollateral.imp_left (And.imp_right Eq.symm), hshort, hcover⟩

/-- **A margin position is called by a bid.** -/
theorem tradeBidCover_eq_ok (h : e.tradeBidCover crypto bid ask mtrx = .ok (e', mtrx')) :
    ∃ maxAfford coverDebt usd askPaid e₁,
      CoverAmounts crypto e ask mtrx bid.getBalance maxAfford coverDebt askPaid ∧
      usd = (bid.getBalance.min maxAfford).min coverDebt ∧
      e.payCurrentBid crypto bid (mtrx.filled usd askPaid mtrx.shortCollateral) = .ok e₁ ∧
      e₁.payCurrentCover crypto ask (mtrx.filled usd askPaid mtrx.shortCollateral) =
        .ok (e', mtrx') := by
  simp only [tradeBidCover, ite_bind, bind_eq_ok] at h
  obtain ⟨maxAfford, hmax, coverDebt, hdebt, askPaid, hpaid, e₁, hbid, hcover⟩ := h
  simp only [ite_eq_ok, pure_eq_ok] at hpaid
  exact ⟨maxAfford, coverDebt, _, askPaid, e₁, ⟨hmax, hdebt, hpaid.imp_left (And.imp_right Eq.symm)⟩,
    rfl, hbid, hcover⟩

/-- **A short buys from an ask.** -/
theorem tradeShortAsk_eq_ok (h : e.tradeShortAsk crypto bid ask mtrx = .ok (e', mtrx')) :
    ∃ feed forSale wanted usd askPaid shortCollateral e₁,
      e.feedPrice = some feed ∧ bid.getBalance.mulPrice (collateralRate feed) = .ok forSale ∧
      ask.getQuoteQuantity = .ok wanted ∧ usd = forSale.min wanted ∧
      PutsUp feed bid forSale usd shortCollateral ∧
      (usd.amount = forSale.amount ∧ usd.mulPrice mtrx.askPrice = .ok askPaid ∨
        usd.amount ≠ forSale.amount ∧ askPaid = ask.getBalance) ∧
      mtrx' = mtrx.filled usd askPaid shortCollateral ∧
      e.payCurrentShort bid mtrx' = .ok e₁ ∧ e₁.payCurrentAsk crypto ask mtrx' true = .ok e' := by
  simp only [tradeShortAsk, bind_eq_ok, orThrow_eq_ok, pure_eq_ok, ite_eq_ok, Prod.mk.injEq] at h
  obtain ⟨feed, hfeed, wanted, hwanted, forSale, hsale, h⟩ := h
  obtain ⟨husd, askPaid, hpaid, _, rfl, e₁, hshort, e₂, hask, rfl, rfl⟩ |
    ⟨husd, shortCollateral, hcollateral, _, rfl, e₁, hshort, e₂, hask, rfl, rfl⟩ := h
  · exact ⟨feed, forSale, wanted, _, askPaid, bid.getBalance, e₁, hfeed, hsale, hwanted, rfl,
      Or.inl ⟨husd, rfl⟩, Or.inl ⟨husd, hpaid⟩, rfl, hshort, hask⟩
  · exact ⟨feed, forSale, wanted, _, ask.getBalance, shortCollateral, e₁, hfeed, hsale, hwanted, rfl,
      Or.inr ⟨husd, hcollateral⟩, Or.inr ⟨husd, rfl⟩, rfl, hshort, hask⟩

/-- **A bid buys from an ask.** -/
theorem tradeBidAsk_eq_ok (h : e.tradeBidAsk crypto bid ask mtrx = .ok (e', mtrx')) :
    ∃ bidQuantity askQuantity quantity askReceived bidPaid e₁,
      bid.getQuantity = .ok bidQuantity ∧ ask.getQuantity = .ok askQuantity ∧
      quantity = bidQuantity.min askQuantity ∧ quantity.mulPrice mtrx.askPrice = .ok askReceived ∧
      quantity.mulPrice mtrx.bidPrice = .ok bidPaid ∧ mtrx'.bidReceived = quantity ∧
      mtrx'.askReceived = askReceived ∧
      mtrx'.bidPaid = (if quantity.amount = bidQuantity.amount then bid.getBalance else bidPaid) ∧
      mtrx'.askPaid = (if quantity.amount = askQuantity.amount then ask.getBalance else quantity) ∧
      mtrx'.bidPaid.sub askReceived = .ok mtrx'.feesCollected ∧
      mtrx'.bidOwner = mtrx.bidOwner ∧ mtrx'.askOwner = mtrx.askOwner ∧
      e.payCurrentBid crypto bid mtrx' = .ok e₁ ∧ e₁.payCurrentAsk crypto ask mtrx' false = .ok e' := by
  simp only [tradeBidAsk, bind_eq_ok, pure_eq_ok, Prod.mk.injEq] at h
  obtain ⟨bidQuantity, hbidq, askQuantity, haskq, askReceived, hreceived, bidPaid, hpaid, fees, hfees,
    e₁, hbid, e₂, hask, rfl, rfl⟩ := h
  exact ⟨bidQuantity, askQuantity, _, askReceived, bidPaid, e₁, hbidq, haskq, rfl, hreceived, hpaid,
    rfl, rfl, rfl, rfl, hfees, rfl, rfl, hbid, hask⟩

/-- A current bid is a bid or a short, a current ask an ask or a margin position. -/
structure Paired (bid ask : MarketOrder) : Prop where
  bid : bid.type = .bidOrder ∨ bid.type = .shortOrder
  ask : ask.type = .askOrder ∨ ask.type = .coverOrder

/-- The trade of two orders is one of the four kinds. -/
theorem trade_cases (htypes : Paired bid ask)
    (h : e.trade crypto bid ask mtrx = .ok (e', mtrx')) :
    (ask.type = .coverOrder ∧ bid.type = .shortOrder ∧
        e.tradeShortCover crypto bid ask mtrx = .ok (e', mtrx')) ∨
      (ask.type = .coverOrder ∧ bid.type = .bidOrder ∧
        e.tradeBidCover crypto bid ask mtrx = .ok (e', mtrx')) ∨
      (ask.type = .askOrder ∧ bid.type = .shortOrder ∧
        e.tradeShortAsk crypto bid ask mtrx = .ok (e', mtrx')) ∨
      (ask.type = .askOrder ∧ bid.type = .bidOrder ∧
        e.tradeBidAsk crypto bid ask mtrx = .ok (e', mtrx')) := by
  unfold trade at h
  rcases htypes.ask with hask | hask <;> rcases htypes.bid with hbid | hbid <;>
    simp only [hask, hbid] at h <;> simp [hask, hbid, h]

/-! ### The fees of a trade -/

/-- The trading volume after a trade, in the base asset of the chain. -/
def volumeAfter (e : MarketEngine) (mtrx : MarketTransaction) : Fallible Asset :=
  if mtrx.askReceived.assetId = 0 then e.tradingVolume.add mtrx.askReceived
  else if mtrx.bidReceived.assetId = 0 then e.tradingVolume.add mtrx.bidReceived
  else pure e.tradingVolume

/-- The engine after the fees and the volume of a trade were booked. -/
structure Collects (e : MarketEngine) (mtrx : MarketTransaction) (e' : MarketEngine) : Prop where
  check : checkMarketTransaction mtrx = .ok ()
  volume : e.volumeAfter mtrx = .ok e'.tradingVolume
  rest : ∃ volume quoteFees baseFees, e' = { e with
    tradingVolume := volume
    quoteAsset := { e.quoteAsset with collectedFees := quoteFees }
    baseAsset := { e.baseAsset with collectedFees := baseFees } }
  baseFees : e'.baseAsset.collectedFees = if mtrx.feesCollected.assetId = e.baseAsset.id then
    wrap64 (e.baseAsset.collectedFees + mtrx.feesCollected.amount) else e.baseAsset.collectedFees
  quoteFees : e'.quoteAsset.collectedFees =
    if mtrx.feesCollected.assetId ≠ e.baseAsset.id ∧ mtrx.feesCollected.assetId = e.quoteAsset.id then
      wrap64 (e.quoteAsset.collectedFees + mtrx.feesCollected.amount)
    else e.quoteAsset.collectedFees

theorem collect_eq : e.collect mtrx = (do
    checkMarketTransaction mtrx
    let tradingVolume ← e.volumeAfter mtrx
    let e := { e with tradingVolume }
    if mtrx.feesCollected.assetId = e.baseAsset.id then
      return { e with baseAsset := { e.baseAsset with
        collectedFees := wrap64 (e.baseAsset.collectedFees + mtrx.feesCollected.amount) } }
    else if mtrx.feesCollected.assetId = e.quoteAsset.id then
      return { e with quoteAsset := { e.quoteAsset with
        collectedFees := wrap64 (e.quoteAsset.collectedFees + mtrx.feesCollected.amount) } }
    else return e) := by
  simp only [collect, volumeAfter, ite_bind]

/-- **What follows a trade.** -/
theorem collect_eq_ok (h : e.collect mtrx = .ok e') : Collects e mtrx e' := by
  rw [collect_eq] at h
  simp only [bind_eq_ok, ite_eq_ok, pure_eq_ok] at h
  obtain ⟨_, hcheck, volume, hvolume, ⟨hbase, rfl⟩ | ⟨hbase, ⟨hquote, rfl⟩ | ⟨hquote, rfl⟩⟩⟩ := h
  · exact ⟨hcheck, hvolume, ⟨volume, _, _, rfl⟩, (if_pos hbase).symm, (if_neg fun h => h.1 hbase).symm⟩
  · exact ⟨hcheck, hvolume, ⟨volume, _, _, rfl⟩, (if_neg hbase).symm, (if_pos ⟨hbase, hquote⟩).symm⟩
  · exact ⟨hcheck, hvolume, ⟨volume, _, _, rfl⟩, (if_neg hbase).symm, (if_neg fun h => hquote h.2).symm⟩

/-- Only the checks and the volume can stop what follows a trade. -/
theorem collect_returns (hcheck : checkMarketTransaction mtrx = .ok ())
    (hvolume : ∃ volume, e.volumeAfter mtrx = .ok volume) : ∃ e', e.collect mtrx = .ok e' := by
  obtain ⟨volume, hvolume⟩ := hvolume
  rw [collect_eq, hcheck, ok_bind, hvolume, ok_bind]
  dsimp only
  split_ifs
  · exact ⟨_, rfl⟩
  · exact ⟨_, rfl⟩
  · exact ⟨_, rfl⟩

/-! ### What stays the same in a trade -/

theorem payCurrentBid_sameWalk (hp : e.pendingState.IsPending)
    (h : e.payCurrentBid crypto bid mtrx = .ok e') : SameWalk crypto e e' := by
  obtain ⟨-, -, kept, fees, -, rfl⟩ := payCurrentBid_eq_ok hp h
  exact ⟨rfl, rfl, ⟨rfl, rfl, rfl, rfl⟩, ⟨rfl, rfl, rfl, rfl⟩, rfl, (Writes.single trivial).tail trivial,
    rfl, rfl, rfl, rfl, rfl, rfl⟩

theorem payCurrentAsk_sameWalk (hp : e.pendingState.IsPending) {feesToQuote : Bool}
    (h : e.payCurrentAsk crypto ask mtrx feesToQuote = .ok e') : SameWalk crypto e e' := by
  obtain ⟨-, -, kept, quoteFees, baseFees, rfl, -, -⟩ := payCurrentAsk_eq_ok hp h
  exact ⟨rfl, rfl, ⟨rfl, rfl, rfl, rfl⟩, ⟨rfl, rfl, rfl, rfl⟩, rfl, (Writes.single trivial).tail trivial,
    rfl, rfl, rfl, rfl, rfl, rfl⟩

theorem payCurrentShort_sameWalk (crypto : Crypto) (hp : e.pendingState.IsPending)
    (h : e.payCurrentShort bid mtrx = .ok e') : SameWalk crypto e e' := by
  obtain ⟨-, shortCollateral, collateral, -, -, ⟨-, rfl⟩ | ⟨-, -, coverIndex, -, rfl⟩⟩ :=
    payCurrentShort_eq_ok crypto hp h
  · exact ⟨rfl, rfl, ⟨rfl, rfl, rfl, rfl⟩, ⟨rfl, rfl, rfl, rfl⟩, rfl, .refl, rfl, rfl, rfl, rfl, rfl, rfl⟩
  · exact ⟨rfl, rfl, ⟨rfl, rfl, rfl, rfl⟩, ⟨rfl, rfl, rfl, rfl⟩, rfl,
      (Writes.single trivial).tail trivial,
      rfl, rfl, rfl, rfl, rfl, rfl⟩

theorem payCurrentCover_sameWalk (hp : e.pendingState.IsPending)
    (h : e.payCurrentCover crypto ask mtrx = .ok (e', mtrx')) : SameWalk crypto e e' := by
  obtain ⟨-, totalDebt, principlePaid, interestPaid, left, owed, -, hcloses⟩ :=
    payCurrentCover_eq_ok hp h
  cases hcloses with
  | atLoss => exact ⟨rfl, rfl, ⟨rfl, rfl, rfl, rfl⟩, ⟨rfl, rfl, rfl, rfl⟩, rfl, .single trivial, rfl, rfl, rfl, rfl, rfl, rfl⟩
  | paidOff =>
    have hout := payOut_writes crypto
      (e := e.repaid principlePaid.amount interestPaid.amount) hp ask.getOwner
    exact ⟨rfl, rfl, ⟨rfl, rfl, rfl, rfl⟩, ⟨rfl, rfl, rfl, rfl⟩, rfl, (hout _).tail trivial,
      rfl, rfl, rfl, rfl, rfl, rfl⟩
  | kept => exact ⟨rfl, rfl, ⟨rfl, rfl, rfl, rfl⟩, ⟨rfl, rfl, rfl, rfl⟩, rfl, .single trivial, rfl, rfl, rfl, rfl, rfl, rfl⟩

theorem trade_sameWalk (hp : e.pendingState.IsPending) (htypes : Paired bid ask)
    (h : e.trade crypto bid ask mtrx = .ok (e', mtrx')) : SameWalk crypto e e' := by
  obtain ⟨-, -, h⟩ | ⟨-, -, h⟩ | ⟨-, -, h⟩ | ⟨-, -, h⟩ := trade_cases htypes h
  · obtain ⟨feed, forSale, maxAfford, coverDebt, usd, askPaid, shortCollateral, e₁, -, -, -, -, -,
      hshort, hcover⟩ := tradeShortCover_eq_ok h
    have hfirst := payCurrentShort_sameWalk crypto hp hshort
    exact hfirst.trans (payCurrentCover_sameWalk (hfirst.isPending hp) hcover)
  · obtain ⟨maxAfford, coverDebt, usd, askPaid, e₁, -, -, hbid, hcover⟩ := tradeBidCover_eq_ok h
    have hfirst := payCurrentBid_sameWalk hp hbid
    exact hfirst.trans (payCurrentCover_sameWalk (hfirst.isPending hp) hcover)
  · obtain ⟨feed, forSale, wanted, usd, askPaid, shortCollateral, e₁, -, -, -, -, -, -, -,
      hshort, hask⟩ := tradeShortAsk_eq_ok h
    have hfirst := payCurrentShort_sameWalk crypto hp hshort
    exact hfirst.trans (payCurrentAsk_sameWalk (hfirst.isPending hp) hask)
  · obtain ⟨bidQuantity, askQuantity, quantity, askReceived, bidPaid, e₁, -, -, -, -, -, -, -, -, -,
      -, -, -, hbid, hask⟩ := tradeBidAsk_eq_ok h
    have hfirst := payCurrentBid_sameWalk hp hbid
    exact hfirst.trans (payCurrentAsk_sameWalk (hfirst.isPending hp) hask)

theorem Collects.sameWalk (crypto : Crypto) (h : Collects e mtrx e') : SameWalk crypto e e' := by
  obtain ⟨volume, quoteFees, baseFees, rfl⟩ := h.rest
  exact ⟨rfl, rfl, ⟨rfl, rfl, rfl, rfl⟩, ⟨rfl, rfl, rfl, rfl⟩, rfl, .refl, rfl, rfl, rfl, rfl, rfl, rfl⟩

end MarketEngine

end LarkX
