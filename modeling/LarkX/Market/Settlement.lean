import LarkX.Market.Rounds

/-!
# A bid meets an ask

The settlement of a bid and an ask whose prices cross. The quantity that changes hands is what
the bid can buy at its own price or what the ask has, whichever is less; three conversions
truncate, two of them are overridden when an order is exhausted, and a rest too small to trade is
swept into the fees. The step returns exactly when its conversions fit in 63 bits
(`matchCurrent_settles_iff`), and then keeps both limit prices and both assets (`Settled`).
-/

namespace LarkX

namespace MarketEngine

variable {crypto : Crypto} {e e' : MarketEngine} {bid ask : MarketOrder}

/-- A bid and an ask of one market whose prices cross, with something left of both. -/
structure Meet (e : MarketEngine) (bid ask : MarketOrder) : Prop where
  pending : e.pendingState.IsPending
  ids : 0 ≤ e.baseId ∧ e.baseId < e.quoteId
  quoteAsset : e.quoteAsset.id = e.quoteId
  baseAsset : e.baseAsset.id = e.baseId
  volume : e.tradingVolume.assetId = e.baseId ∧ 0 ≤ e.tradingVolume.amount ∧
    IsInt64 e.tradingVolume.amount
  bidType : bid.type = .bidOrder
  askType : ask.type = .askOrder
  bidPair : bid.getPrice.assetPair = e.pair
  askPair : ask.getPrice.assetPair = e.pair
  askRatio : 0 < ask.getPrice.ratio
  crosses : ask.getPrice.ratio ≤ bid.getPrice.ratio
  bidBalance : 0 < bid.state.balance ∧ IsInt64 bid.state.balance
  askBalance : 0 < ask.state.balance ∧ IsInt64 ask.state.balance
  fees : IsInt64 e.quoteAsset.collectedFees ∧ IsInt64 e.baseAsset.collectedFees

/-! ### The amounts -/

/-- What a bid buys at its own price. -/
def bidQuantity (bid : MarketOrder) : ℤ :=
  bid.state.balance * btsPricePrecision / bid.getPrice.ratio

/-- The quantity of a trade. -/
def quantityOf (bid ask : MarketOrder) : ℤ :=
  Min.min (bidQuantity bid) ask.state.balance

/-- What the seller receives. -/
def askReceivedOf (bid ask : MarketOrder) : ℤ :=
  quantityOf bid ask * ask.getPrice.ratio / btsPricePrecision

/-- What the buyer pays: all it has when it buys all it can. -/
def bidPaidOf (bid ask : MarketOrder) : ℤ :=
  if quantityOf bid ask = bidQuantity bid then bid.state.balance
  else quantityOf bid ask * bid.getPrice.ratio / btsPricePrecision

/-- The conversions of a trade fit in 63 bits, and so does the volume of the run. -/
structure Fits (e : MarketEngine) (bid ask : MarketOrder) : Prop where
  quantity : bidQuantity bid < 2 ^ 63
  rest : (ask.state.balance - quantityOf bid ask) * ask.getPrice.ratio / btsPricePrecision < 2 ^ 63
  volume : e.baseId = 0 → e.tradingVolume.amount + quantityOf bid ask ≤ int64Max

/-- The bounds on the amounts of a trade. -/
structure Bounds (bid ask : MarketOrder) : Prop where
  quantity_nonneg : 0 ≤ quantityOf bid ask
  quantity_le : quantityOf bid ask ≤ ask.state.balance
  quantity_le_bid : quantityOf bid ask ≤ bidQuantity bid
  received_nonneg : 0 ≤ askReceivedOf bid ask
  received_le : askReceivedOf bid ask ≤ bidPaidOf bid ask
  paid_le : bidPaidOf bid ask ≤ bid.state.balance
  converted_le : quantityOf bid ask * bid.getPrice.ratio / btsPricePrecision ≤ bid.state.balance
  bidRest_le : (bid.state.balance - bidPaidOf bid ask) * btsPricePrecision / bid.getPrice.ratio ≤
    bidQuantity bid

theorem Meet.bounds (h : Meet e bid ask) : Bounds bid ask := by
  have hprec : (0 : ℤ) < btsPricePrecision := by decide
  have hratio : (0 : ℤ) < bid.getPrice.ratio := by
    have hlt := h.askRatio.trans_le h.crosses
    exact_mod_cast hlt
  have hcrosses : (ask.getPrice.ratio : ℤ) ≤ bid.getPrice.ratio := by exact_mod_cast h.crosses
  have hbid := h.bidBalance.1
  have hnonneg : 0 ≤ quantityOf bid ask :=
    le_min (Int.ediv_nonneg (by positivity) hratio.le) h.askBalance.1.le
  have hle : quantityOf bid ask ≤ bidQuantity bid := min_le_left ..
  have hconverted : quantityOf bid ask * bid.getPrice.ratio / btsPricePrecision ≤ bid.state.balance := by
    refine Int.ediv_le_of_le_mul hprec ?_
    calc quantityOf bid ask * bid.getPrice.ratio
        ≤ bidQuantity bid * bid.getPrice.ratio := mul_le_mul_of_nonneg_right hle hratio.le
      _ ≤ bid.state.balance * btsPricePrecision := Int.ediv_mul_le _ hratio.ne'
  have hreceived : askReceivedOf bid ask ≤ quantityOf bid ask * bid.getPrice.ratio / btsPricePrecision :=
    Int.ediv_le_ediv hprec (mul_le_mul_of_nonneg_left hcrosses hnonneg)
  have hpaid : quantityOf bid ask * bid.getPrice.ratio / btsPricePrecision ≤ bidPaidOf bid ask ∧
      bidPaidOf bid ask ≤ bid.state.balance := by
    unfold bidPaidOf
    split_ifs
    · exact ⟨hconverted, le_rfl⟩
    · exact ⟨le_rfl, hconverted⟩
  have hreceived_nonneg : 0 ≤ askReceivedOf bid ask :=
    Int.ediv_nonneg (mul_nonneg hnonneg (Int.natCast_nonneg _)) hprec.le
  refine ⟨hnonneg, min_le_right .., hle, hreceived_nonneg, hreceived.trans hpaid.1, hpaid.2,
    hconverted, ?_⟩
  refine Int.ediv_le_ediv hratio (mul_le_mul_of_nonneg_right ?_ hprec.le)
  have := hreceived.trans hpaid.1
  omega

/-! ### When the step returns -/

theorem Meet.bidIds (h : Meet e bid ask) : PricedIn e bid.getPrice :=
  .of_assetPair h.bidPair

theorem Meet.askIds (h : Meet e bid ask) : PricedIn e ask.getPrice :=
  .of_assetPair h.askPair

theorem Meet.bid_getQuantity (h : Meet e bid ask) {r : Asset} :
    bid.getQuantity = .ok r ↔ bidQuantity bid < 2 ^ 63 ∧ r = ⟨bidQuantity bid, e.baseId⟩ := by
  have hbalance : bid.getBalance = ⟨bid.state.balance, bid.getPrice.quoteAssetId⟩ := by
    unfold MarketOrder.getBalance
    rw [h.bidType]
  unfold MarketOrder.getQuantity
  rw [h.bidType]
  dsimp only
  rw [hbalance, Asset.mulPrice_quote_of_nonneg h.bidBalance.1.le (h.bidIds.ne h.ids.2),
    h.bidIds.base]
  rfl

theorem Meet.ask_getQuantity (h : Meet e bid ask) :
    ask.getQuantity = .ok ⟨ask.state.balance, e.baseId⟩ := by
  unfold MarketOrder.getQuantity MarketOrder.getBalance
  rw [h.askType, ← h.askIds.base]
  rfl

theorem Meet.matchCurrent_eq (h : Meet e bid ask) :
    e.matchCurrent crypto bid ask = (do
      let (e, mtrx) ← e.tradeBidAsk crypto bid ask
        (openTransaction bid ask bid.getPrice ask.getPrice)
      let e ← e.collect mtrx
      return (e, true)) := by
  have hlt : bid.getPrice.lt ask.getPrice = false := by
    rw [← Bool.not_eq_true, Price.lt_iff_of_assetPair (h.bidPair.trans h.askPair.symm)]
    exact not_lt.2 h.crosses
  unfold matchCurrent MarketEngine.bidPrice trade
  simp only [h.bidType, h.askType, hlt, reduceCtorEq, if_false, pure_bind]
  rfl

/-- The transaction of a bid and an ask with its amounts. -/
def settlement (e : MarketEngine) (bid ask : MarketOrder) : MarketTransaction :=
  { openTransaction bid ask bid.getPrice ask.getPrice with
    bidPaid := ⟨bidPaidOf bid ask, e.quoteId⟩
    bidReceived := ⟨quantityOf bid ask, e.baseId⟩
    askPaid := ⟨quantityOf bid ask, e.baseId⟩
    askReceived := ⟨askReceivedOf bid ask, e.quoteId⟩
    feesCollected := ⟨bidPaidOf bid ask - askReceivedOf bid ask, e.quoteId⟩ }

/-- **The amounts of the step**: everything up to the payments is a conversion. -/
theorem Meet.tradeBidAsk_eq (h : Meet e bid ask) (hfits : bidQuantity bid < 2 ^ 63) :
    e.tradeBidAsk crypto bid ask (openTransaction bid ask bid.getPrice ask.getPrice) = (do
      let e₁ ← e.payCurrentBid crypto bid (settlement e bid ask)
      let e₂ ← e₁.payCurrentAsk crypto ask (settlement e bid ask) false
      return (e₂, settlement e bid ask)) := by
  have hb := h.bounds
  have hmax := h.bidBalance.2
  unfold IsInt64 int64Max at hmax
  have hquantity : Asset.min ⟨bidQuantity bid, e.baseId⟩ ⟨ask.state.balance, e.baseId⟩ =
      ⟨quantityOf bid ask, e.baseId⟩ := by
    unfold Asset.min quantityOf
    dsimp only
    split_ifs with hlt
    · rw [min_eq_right hlt.le]
    · rw [min_eq_left (not_lt.1 hlt)]
  have hreceived : Asset.mulPrice ⟨quantityOf bid ask, e.baseId⟩ ask.getPrice =
      .ok ⟨askReceivedOf bid ask, e.quoteId⟩ := by
    rw [← h.askIds.base, Asset.mulPrice_base_of_nonneg hb.quantity_nonneg, h.askIds.quote]
    have := hb.received_le.trans hb.paid_le
    unfold askReceivedOf at this
    exact ⟨by omega, rfl⟩
  have hpaid : Asset.mulPrice ⟨quantityOf bid ask, e.baseId⟩ bid.getPrice =
      .ok ⟨quantityOf bid ask * bid.getPrice.ratio / btsPricePrecision, e.quoteId⟩ := by
    rw [← h.bidIds.base, Asset.mulPrice_base_of_nonneg hb.quantity_nonneg, h.bidIds.quote]
    have := hb.converted_le
    exact ⟨by omega, rfl⟩
  have hbalance : bid.getBalance = ⟨bid.state.balance, e.quoteId⟩ := by
    unfold MarketOrder.getBalance
    rw [h.bidType, ← h.bidIds.quote]
  have haskBalance : ask.getBalance = ⟨ask.state.balance, e.baseId⟩ := by
    unfold MarketOrder.getBalance
    rw [h.askType, ← h.askIds.base]
  have hoverride : (if quantityOf bid ask = bidQuantity bid then bid.getBalance
      else ⟨quantityOf bid ask * bid.getPrice.ratio / btsPricePrecision, e.quoteId⟩) =
        ⟨bidPaidOf bid ask, e.quoteId⟩ := by
    unfold bidPaidOf
    split_ifs
    · exact hbalance
    · rfl
  have haskPaid : (if quantityOf bid ask = ask.state.balance then ask.getBalance
      else ⟨quantityOf bid ask, e.baseId⟩) = ⟨quantityOf bid ask, e.baseId⟩ := by
    split_ifs with hall
    · rw [haskBalance, hall]
    · rfl
  have hfees : Asset.sub ⟨bidPaidOf bid ask, e.quoteId⟩ ⟨askReceivedOf bid ask, e.quoteId⟩ =
      .ok ⟨bidPaidOf bid ask - askReceivedOf bid ask, e.quoteId⟩ := by
    simp only [Asset.sub, bind_eq_ok, require_eq_ok, pure_eq_ok]
    refine ⟨(), trivial, (), ?_, trivial⟩
    have := hb.received_nonneg
    have := hb.received_le
    unfold int64Min
    omega
  have hok := h.bid_getQuantity.2 ⟨hfits, rfl⟩
  unfold tradeBidAsk
  simp only [openTransaction, hok, h.ask_getQuantity, ok_bind, hquantity, hreceived, hpaid, hoverride,
    haskPaid, hfees]
  rfl

/-- What is left of the bid and of the ask fits in 64 bits. -/
theorem Meet.left_eq (h : Meet e bid ask) :
    wrap64 (bid.state.balance - bidPaidOf bid ask) = bid.state.balance - bidPaidOf bid ask ∧
      wrap64 (ask.state.balance - quantityOf bid ask) = ask.state.balance - quantityOf bid ask := by
  have hb := h.bounds
  have hpaid := hb.received_nonneg.trans hb.received_le
  have hbid := h.bidBalance.2
  have hask := h.askBalance.2
  refine ⟨wrap64_eq_self ?_, wrap64_eq_self ?_⟩
  · have := hb.paid_le
    unfold IsInt64 int64Min int64Max at *
    omega
  · have := hb.quantity_nonneg
    have := hb.quantity_le
    unfold IsInt64 int64Min int64Max at *
    omega

theorem Meet.bidRest (h : Meet e bid ask) (hfits : bidQuantity bid < 2 ^ 63) :
    ∃ rest, Asset.mulPrice ⟨wrap64 (bid.state.balance - bidPaidOf bid ask),
      bid.getPrice.quoteAssetId⟩ bid.getPrice = .ok rest := by
  have hb := h.bounds
  have hleft : 0 ≤ bid.state.balance - bidPaidOf bid ask := sub_nonneg.2 hb.paid_le
  rw [h.left_eq.1]
  exact ⟨_, (Asset.mulPrice_quote_of_nonneg hleft (h.bidIds.ne h.ids.2)).2
    ⟨hb.bidRest_le.trans_lt hfits, rfl⟩⟩

theorem Meet.askRest (h : Meet e bid ask) {rest : Asset} :
    Asset.mulPrice ⟨wrap64 (ask.state.balance - quantityOf bid ask), ask.getPrice.baseAssetId⟩
      ask.getPrice = .ok rest ↔
      (ask.state.balance - quantityOf bid ask) * ask.getPrice.ratio / btsPricePrecision < 2 ^ 63 ∧
        rest = ⟨(ask.state.balance - quantityOf bid ask) * ask.getPrice.ratio / btsPricePrecision,
          ask.getPrice.quoteAssetId⟩ := by
  rw [h.left_eq.2, Asset.mulPrice_base_of_nonneg (sub_nonneg.2 h.bounds.quantity_le)]

/-- The checks of a bid that is paid hold when its rest converts. -/
theorem payCurrentBid_returns {mtrx : MarketTransaction} (htype : bid.type = .bidOrder)
    (hleft : 0 ≤ wrap64 (bid.state.balance - mtrx.bidPaid.amount))
    (hrest : ∃ rest, Asset.mulPrice ⟨wrap64 (bid.state.balance - mtrx.bidPaid.amount),
      bid.getPrice.quoteAssetId⟩ bid.getPrice = .ok rest) :
    ∃ e', e.payCurrentBid crypto bid mtrx = .ok e' := by
  obtain ⟨rest, hrest⟩ := hrest
  simp only [payCurrentBid, bind_eq_ok, require_eq_ok, pure_eq_ok]
  refine ⟨_, (), htype, (), hleft, _, ?_, rest, hrest, rfl⟩
  simp only [MarketOrder.getQuoteQuantity, MarketOrder.getBalance, MarketOrder.setBalance, htype]
  rfl

/-- The checks of an ask that is paid hold when its rest converts. -/
theorem payCurrentAsk_returns {mtrx : MarketTransaction} (feesToQuote : Bool)
    (htype : ask.type = .askOrder) (hleft : 0 ≤ wrap64 (ask.state.balance - mtrx.askPaid.amount))
    (hrest : ∃ rest, Asset.mulPrice ⟨wrap64 (ask.state.balance - mtrx.askPaid.amount),
      ask.getPrice.baseAssetId⟩ ask.getPrice = .ok rest) :
    ∃ e', e.payCurrentAsk crypto ask mtrx feesToQuote = .ok e' := by
  obtain ⟨rest, hrest⟩ := hrest
  simp only [payCurrentAsk, bind_eq_ok, require_eq_ok, pure_eq_ok]
  refine ⟨_, (), htype, (), hleft, _, ?_, rest, hrest, rfl⟩
  simp only [MarketOrder.getQuantity, MarketOrder.getBalance, MarketOrder.setBalance, htype]
  rfl

/-- The checks on the transaction hold. -/
theorem Meet.check (h : Meet e bid ask) :
    checkMarketTransaction (settlement e bid ask) = .ok () := by
  have hb := h.bounds
  have hpaid := hb.received_nonneg.trans hb.received_le
  unfold checkMarketTransaction
  simp only [ite_eq_ok, bind_eq_ok, require_eq_ok, pure_eq_ok]
  rw [and_iff_left trivial]
  refine (Classical.em _).imp (fun hne => ⟨hne, (), hpaid, (), hb.quantity_nonneg, (),
    hb.quantity_nonneg, (), hb.received_nonneg, (), ⟨rfl, hb.received_le⟩, (), ⟨rfl, le_rfl⟩, ?_⟩) id
  exact sub_nonneg.2 hb.received_le

/-- Adding an amount that is not negative returns when the sum fits in 64 bits. -/
theorem add_returns_iff {a o : Asset} (hid : a.assetId = o.assetId) (ha : IsInt64 a.amount)
    (ho : 0 ≤ o.amount) : (∃ r, a.add o = .ok r) ↔ a.amount + o.amount ≤ int64Max := by
  unfold IsInt64 at ha
  simp only [Asset.add, bind_eq_ok, require_eq_ok, pure_eq_ok]
  constructor
  · rintro ⟨_, -, -, -, hov, -⟩
    omega
  · intro hle
    exact ⟨_, (), hid, (), by omega, rfl⟩

/-- The volume of the run is added to when the base asset is that of the chain. -/
theorem Meet.volumeAfter (h : Meet e bid ask) {e₁ : MarketEngine}
    (hsame : e₁.tradingVolume = e.tradingVolume) :
    (∃ volume, e₁.volumeAfter (settlement e bid ask) = .ok volume) ↔
      (e.baseId = 0 → e.tradingVolume.amount + quantityOf bid ask ≤ int64Max) := by
  have hquote : (settlement e bid ask).askReceived.assetId ≠ 0 := by
    have hids := h.ids
    change e.quoteId ≠ 0
    omega
  unfold MarketEngine.volumeAfter
  rw [hsame, if_neg hquote]
  by_cases hbase : e.baseId = 0
  · rw [if_pos (show (settlement e bid ask).bidReceived.assetId = 0 from hbase)]
    have hadd := add_returns_iff (o := (settlement e bid ask).bidReceived) h.volume.1 h.volume.2.2
      h.bounds.quantity_nonneg
    rw [hadd]
    exact ⟨fun hle _ => hle, fun hle => hle hbase⟩
  · rw [if_neg (show (settlement e bid ask).bidReceived.assetId ≠ 0 from hbase)]
    exact ⟨fun _ h => absurd h hbase, fun _ => ⟨_, rfl⟩⟩

/-- The payments of a step leave its volume alone. -/
theorem pays_volume {mtrx : MarketTransaction} {e₁ e₂ : MarketEngine} {feesToQuote : Bool}
    (hp : e.pendingState.IsPending) (hbid : e.payCurrentBid crypto bid mtrx = .ok e₁)
    (hask : e₁.payCurrentAsk crypto ask mtrx feesToQuote = .ok e₂) :
    e₂.tradingVolume = e.tradingVolume := by
  have hwalk := payCurrentBid_sameWalk hp hbid
  obtain ⟨-, -, _, _, _, rfl, -⟩ := payCurrentAsk_eq_ok (hwalk.isPending hp) hask
  obtain ⟨-, -, _, _, -, rfl⟩ := payCurrentBid_eq_ok hp hbid
  rfl

/-- **The step returns exactly when its amounts fit.** -/
theorem Meet.returns_iff (h : Meet e bid ask) :
    (∃ e', e.matchCurrent crypto bid ask = .ok (e', true)) ↔ Fits e bid ask := by
  rw [h.matchCurrent_eq]
  constructor
  · rintro ⟨e', hstep⟩
    simp only [bind_eq_ok, pure_eq_ok] at hstep
    obtain ⟨⟨e₂, mtrx⟩, htrade, e₃, hcollect, -⟩ := hstep
    have hquantity : bidQuantity bid < 2 ^ 63 := by
      obtain ⟨bidQuantity, -, -, -, -, -, hquantity, -⟩ := tradeBidAsk_eq_ok htrade
      exact (h.bid_getQuantity.1 hquantity).1
    rw [h.tradeBidAsk_eq hquantity] at htrade
    simp only [bind_eq_ok, pure_eq_ok, Prod.mk.injEq] at htrade
    obtain ⟨e₁, hbid, _, hask, rfl, rfl⟩ := htrade
    have hvolume := pays_volume h.pending hbid hask
    have hwalk := payCurrentBid_sameWalk h.pending hbid
    obtain ⟨-, -, kept, quoteFees, baseFees, -, hsweeps, -⟩ :=
      payCurrentAsk_eq_ok (hwalk.isPending h.pending) hask
    refine ⟨hquantity, ?_, ?_⟩
    · obtain ⟨rest, hrest⟩ := hsweeps.rest
      exact (h.askRest.1 hrest).1
    · exact (h.volumeAfter hvolume).1 ⟨_, (collect_eq_ok hcollect).volume⟩
  · intro hfits
    have hb := h.bounds
    have hbidLeft : 0 ≤ wrap64 (bid.state.balance - bidPaidOf bid ask) := by
      rw [h.left_eq.1]
      exact sub_nonneg.2 hb.paid_le
    have haskLeft : 0 ≤ wrap64 (ask.state.balance - quantityOf bid ask) := by
      rw [h.left_eq.2]
      exact sub_nonneg.2 hb.quantity_le
    obtain ⟨e₁, hbid⟩ : ∃ e₁, e.payCurrentBid crypto bid (settlement e bid ask) = .ok e₁ :=
      payCurrentBid_returns h.bidType hbidLeft (h.bidRest hfits.quantity)
    obtain ⟨e₂, hask⟩ : ∃ e₂, e₁.payCurrentAsk crypto ask (settlement e bid ask) false = .ok e₂ :=
      payCurrentAsk_returns false h.askType haskLeft ⟨_, h.askRest.2 ⟨hfits.rest, rfl⟩⟩
    obtain ⟨e₃, hcollect⟩ := collect_returns h.check
      ((h.volumeAfter (pays_volume h.pending hbid hask)).2 hfits.volume)
    refine ⟨e₃, ?_⟩
    rw [h.tradeBidAsk_eq hfits.quantity, hbid, ok_bind, hask, ok_bind]
    change (e₂.collect (settlement e bid ask) >>= fun e => pure (e, true)) = _
    rw [hcollect, ok_bind]
    rfl

/-! ### What the step does -/

/-- The pending state after the step: the buyer is credited and the bid stored, then the seller
and the ask. -/
def settledState (crypto : Crypto) (e : MarketEngine) (bid ask : MarketOrder) (bidKept askKept : ℤ) :
    ChainInterface :=
  let c := (e.pendingState.write crypto (.balance (credited crypto e.pendingState bid.getOwner
    ⟨quantityOf bid ask, e.baseId⟩))).write crypto
      (.bid bid.marketIndex { bid.state with balance := bidKept })
  (c.write crypto (.balance (credited crypto c ask.getOwner
    ⟨askReceivedOf bid ask, e.quoteId⟩))).write crypto
      (.ask ask.marketIndex { ask.state with balance := askKept })

/-- The settlement of a bid and an ask of which `bidKept` and `askKept` are left. -/
structure Settled (crypto : Crypto) (e : MarketEngine) (bid ask : MarketOrder) (bidKept askKept : ℤ)
    (e' : MarketEngine) : Prop where
  state : e'.pendingState = settledState crypto e bid ask bidKept askKept
  currentBid : e'.currentBid = some (bid.setBalance bidKept)
  currentAsk : e'.currentAsk = some (ask.setBalance askKept)
  /-- Neither order gives more than it has. -/
  bidTaken : 0 ≤ bidKept ∧ 0 ≤ bidPaidOf bid ask ∧ bidPaidOf bid ask + bidKept ≤ bid.state.balance
  askTaken : 0 ≤ askKept ∧ 0 ≤ quantityOf bid ask ∧ quantityOf bid ask + askKept ≤ ask.state.balance
  /-- The buyer loses less than one share of the base asset is worth at its price. -/
  buyer : (bid.state.balance - bidKept) * btsPricePrecision <
    (quantityOf bid ask + 1) * bid.getPrice.ratio
  /-- The seller loses less than two shares of the quote asset at its price. -/
  seller : (ask.state.balance - askKept) * ask.getPrice.ratio <
    (askReceivedOf bid ask + 2) * btsPricePrecision
  /-- What leaves an order and does not reach the other party is booked as fees. -/
  quoteFees : e'.quoteAsset = { e.quoteAsset with collectedFees := wrap64 (e.quoteAsset.collectedFees +
    (bid.state.balance - bidKept - askReceivedOf bid ask)) }
  baseFees : e'.baseAsset = { e.baseAsset with collectedFees := wrap64 (e.baseAsset.collectedFees +
    (ask.state.balance - askKept - quantityOf bid ask)) }

/-- Two wrapped additions are one. -/
theorem wrap64_wrap64_add (x y z : ℤ) : wrap64 (wrap64 (x + y) + z) = wrap64 (x + (y + z)) := by
  unfold wrap64
  omega

/-- What is kept of a rest is all or nothing of it. -/
theorem Sweeps.kept_bounds {price : Price} {left : Asset} {fees kept fees' : ℤ}
    (h : Sweeps price left fees kept fees') (hleft : 0 ≤ left.amount) :
    0 ≤ kept ∧ kept ≤ left.amount := by
  cases h with
  | swept hrest hzero hkept hfees => exact ⟨hkept.ge, hkept.le.trans hleft⟩
  | kept hrest hne hkept hfees => exact ⟨hkept ▸ hleft, hkept.le⟩

/-- What is not kept of a rest goes to the fees. -/
theorem Sweeps.fees_eq {price : Price} {left : Asset} {fees kept fees' : ℤ}
    (h : Sweeps price left fees kept fees') (hrange : IsInt64 fees) :
    fees' = wrap64 (fees + (left.amount - kept)) := by
  cases h with
  | swept hrest hzero hkept hfees => rw [hfees, hkept, sub_zero]
  | kept hrest hne hkept hfees => rw [hfees, hkept, sub_self, add_zero, wrap64_eq_self hrange]

/-- What is worth nothing is less than one share of the other asset. -/
private theorem lt_of_ediv_eq_zero {x y : ℤ} (hy : 0 < y) (h : x / y = 0) : x < y := by
  have hlt := Int.lt_ediv_add_one_mul_self x hy
  rwa [h, zero_add, one_mul] at hlt

/-- The buyer gives up all it has for all it can buy, or no more than the price of what it gets. -/
theorem Meet.paid_cases (h : Meet e bid ask) :
    bidPaidOf bid ask = bid.state.balance ∧
        bid.state.balance * btsPricePrecision < (quantityOf bid ask + 1) * bid.getPrice.ratio ∨
      bidPaidOf bid ask * btsPricePrecision ≤ quantityOf bid ask * bid.getPrice.ratio := by
  have hratio : (0 : ℤ) < bid.getPrice.ratio := by
    have hlt := h.askRatio.trans_le h.crosses
    exact_mod_cast hlt
  unfold bidPaidOf
  split_ifs with hall
  · refine Or.inl ⟨rfl, ?_⟩
    rw [hall]
    exact Int.lt_ediv_add_one_mul_self _ hratio
  · exact Or.inr (Int.ediv_mul_le _ (by decide))

/-- **The limit of the buyer.** -/
theorem Meet.buyer (h : Meet e bid ask) {fees kept fees' : ℤ}
    (hsweeps : Sweeps bid.getPrice ⟨wrap64 (bid.state.balance - bidPaidOf bid ask),
      bid.getPrice.quoteAssetId⟩ fees kept fees') :
    (bid.state.balance - kept) * btsPricePrecision <
      (quantityOf bid ask + 1) * bid.getPrice.ratio := by
  have hratio : (0 : ℤ) < bid.getPrice.ratio := by
    have hlt := h.askRatio.trans_le h.crosses
    exact_mod_cast hlt
  have hleft : 0 ≤ bid.state.balance - bidPaidOf bid ask := sub_nonneg.2 h.bounds.paid_le
  rw [h.left_eq.1] at hsweeps
  have hpaid := h.paid_cases
  cases hsweeps with
  | kept hrest hne hkept hfees =>
    rw [hkept, sub_sub_cancel]
    obtain ⟨heq, hlt⟩ | hle := hpaid
    · rwa [heq]
    · linarith
  | swept hrest hzero hkept hfees =>
    rw [hkept, sub_zero]
    obtain ⟨-, hlt⟩ | hle := hpaid
    · exact hlt
    · obtain ⟨-, rfl⟩ := (Asset.mulPrice_quote_of_nonneg hleft (h.bidIds.ne h.ids.2)).1 hrest
      have hdust := lt_of_ediv_eq_zero hratio hzero
      linarith

/-- **The limit of the seller.** -/
theorem Meet.seller (h : Meet e bid ask) {fees kept fees' : ℤ}
    (hsweeps : Sweeps ask.getPrice ⟨wrap64 (ask.state.balance - quantityOf bid ask),
      ask.getPrice.baseAssetId⟩ fees kept fees') :
    (ask.state.balance - kept) * ask.getPrice.ratio <
      (askReceivedOf bid ask + 2) * btsPricePrecision := by
  have hprec : (0 : ℤ) < btsPricePrecision := by decide
  have hreceived : quantityOf bid ask * ask.getPrice.ratio <
      (askReceivedOf bid ask + 1) * btsPricePrecision := Int.lt_ediv_add_one_mul_self _ hprec
  have hleft : 0 ≤ ask.state.balance - quantityOf bid ask := sub_nonneg.2 h.bounds.quantity_le
  rw [h.left_eq.2] at hsweeps
  cases hsweeps with
  | kept hrest hne hkept hfees =>
    rw [hkept, sub_sub_cancel]
    linarith
  | swept hrest hzero hkept hfees =>
    rw [hkept, sub_zero]
    obtain ⟨-, rfl⟩ := (Asset.mulPrice_base_of_nonneg hleft).1 hrest
    have hdust := lt_of_ediv_eq_zero hprec hzero
    linarith

/-- **The step keeps both limit prices and both assets.** -/
theorem Meet.settled (h : Meet e bid ask) {goOn : Bool}
    (hstep : e.matchCurrent crypto bid ask = .ok (e', goOn)) :
    goOn = true ∧ ∃ bidKept askKept, Settled crypto e bid ask bidKept askKept e' := by
  rw [h.matchCurrent_eq] at hstep
  simp only [bind_eq_ok, pure_eq_ok, Prod.mk.injEq] at hstep
  obtain ⟨⟨e₂, mtrx⟩, htrade, e₃, hcollect, rfl, rfl⟩ := hstep
  have hquantity : bidQuantity bid < 2 ^ 63 := by
    obtain ⟨bidQuantity, -, -, -, -, -, hquantity, -⟩ := tradeBidAsk_eq_ok htrade
    exact (h.bid_getQuantity.1 hquantity).1
  rw [h.tradeBidAsk_eq hquantity] at htrade
  simp only [bind_eq_ok, pure_eq_ok, Prod.mk.injEq] at htrade
  obtain ⟨e₁, hbid, _, hask, rfl, rfl⟩ := htrade
  have hwalk := payCurrentBid_sameWalk h.pending hbid
  obtain ⟨-, -, askKept, quoteFees, baseFees, rfl, haskSweeps, hsame⟩ :=
    payCurrentAsk_eq_ok (hwalk.isPending h.pending) hask
  obtain ⟨-, -, bidKept, fees, hbidSweeps, rfl⟩ := payCurrentBid_eq_ok h.pending hbid
  have hcollects := collect_eq_ok hcollect
  obtain ⟨volume, quoteFees', baseFees', rfl⟩ := hcollects.rest
  have hb := h.bounds
  have hleft := h.left_eq
  have hids : e.quoteId ≠ e.baseAsset.id ∧ e.quoteAsset.id = e.quoteId :=
    ⟨h.baseAsset ▸ h.ids.2.ne', h.quoteAsset⟩
  simp only [settlement] at hbidSweeps haskSweeps
  refine ⟨rfl, bidKept, askKept, ⟨rfl, rfl, rfl, ?_, ?_, h.buyer hbidSweeps, h.seller haskSweeps, ?_, ?_⟩⟩
  · have hkept := hbidSweeps.kept_bounds (by rw [hleft.1]; exact sub_nonneg.2 hb.paid_le)
    rw [hleft.1] at hkept
    exact ⟨hkept.1, hb.received_nonneg.trans hb.received_le, by linarith [hkept.2]⟩
  · have hkept := haskSweeps.kept_bounds (by rw [hleft.2]; exact sub_nonneg.2 hb.quantity_le)
    rw [hleft.2] at hkept
    exact ⟨hkept.1, hb.quantity_nonneg, by linarith [hkept.2]⟩
  · refine congrArg (fun fees => { e.quoteAsset with collectedFees := fees }) ?_
    have hbooked : quoteFees' = wrap64 (quoteFees + (bidPaidOf bid ask - askReceivedOf bid ask)) :=
      hcollects.quoteFees.trans (if_pos ⟨hids.1, hids.2.symm⟩)
    obtain rfl : quoteFees = fees := hsame
    rw [hbooked, hbidSweeps.fees_eq h.fees.1, hleft.1, wrap64_wrap64_add]
    congr 2
    ring
  · refine congrArg (fun fees => { e.baseAsset with collectedFees := fees }) ?_
    have hbooked : baseFees' = baseFees := hcollects.baseFees.trans (if_neg hids.1)
    have hswept : baseFees = _ := haskSweeps.fees_eq h.fees.2
    rw [hbooked, hswept, hleft.2]
    congr 2
    ring

/-- An engine of an empty market, to match two orders in. -/
def bareEngine : MarketEngine where
  pendingState := { overlays := [{}], db := {}, now := 0, headBlockNum := 0 }
  quoteId := 1
  baseId := 0
  quoteAsset := { id := 1 }
  baseAsset := { id := 0 }

/-- A bid of the bare engine. -/
def bareBid (ratio : ℕ) (balance : ℤ) : MarketOrder :=
  bidOf ⟨⟨ratio, 1, 0⟩, 7⟩ { balance }

/-- An ask of the bare engine. -/
def bareAsk (ratio : ℕ) (balance : ℤ) : MarketOrder :=
  askOf ⟨⟨ratio, 1, 0⟩, 8⟩ { balance }

private theorem meet_bare {bidRatio askRatio : ℕ} {bidBalance askBalance : ℤ} (hratio : 0 < askRatio)
    (hcrosses : askRatio ≤ bidRatio) (hbid : 0 < bidBalance ∧ IsInt64 bidBalance)
    (hask : 0 < askBalance ∧ IsInt64 askBalance) :
    Meet bareEngine (bareBid bidRatio bidBalance) (bareAsk askRatio askBalance) where
  pending := List.cons_ne_nil _ _
  ids := by decide
  quoteAsset := rfl
  baseAsset := rfl
  volume := by decide
  bidType := rfl
  askType := rfl
  bidPair := rfl
  askPair := rfl
  askRatio := hratio
  crosses := hcrosses
  bidBalance := hbid
  askBalance := hask
  fees := by decide

end MarketEngine

end LarkX
