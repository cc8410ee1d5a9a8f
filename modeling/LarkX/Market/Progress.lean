import LarkX.Market.Rounds

/-!
# The loop makes progress

Every trade uses up one of its two orders (`trade_usesUp`): the amount that changes hands is the
least of what the parties can give, and whoever gives the least ends with nothing, however the
conversions round. A round that goes on therefore leaves at most one live order
(`matchRound_usesUp`), so the next one takes a new entry from a book: the entries of the market
that are left and the live orders, `ordersLeft`, get fewer with every round (`Rounds.ordersLeft_add_le`).
-/

namespace LarkX

namespace MarketEngine

variable {crypto : Crypto} {e e₁ e₂ e' : MarketEngine} {bid ask : MarketOrder} {goOn : Bool}
  {mtrx mtrx' : MarketTransaction}

/-! ### A trade uses up an order -/

/-- Two orders are one order at two times. -/
structure SameOrder (o o' : MarketOrder) : Prop where
  type : o'.type = o.type
  marketIndex : o'.marketIndex = o.marketIndex

theorem Sweeps.kept_eq_zero {price : Price} {left : Asset} {fees kept fees' : ℤ}
    (h : Sweeps price left fees kept fees') (hleft : left.amount = 0) : kept = 0 := by
  cases h with
  | swept hrest hzero hkept hfees => exact hkept
  | kept hrest hne hkept hfees => rw [hkept, hleft]

/-- What paying a bid or a short leaves alone. -/
structure OnlyBid (e e' : MarketEngine) : Prop where
  ask : e'.currentAsk = e.currentAsk
  collat : e'.currentCollatRecord = e.currentCollatRecord
  now : e'.pendingState.now = e.pendingState.now

theorem payCurrentBid_usesUp (hp : e.pendingState.IsPending)
    (h : e.payCurrentBid crypto bid mtrx = .ok e') :
    OnlyBid e e' ∧ ∃ bid', e'.currentBid = some bid' ∧ SameOrder bid bid' ∧
      (mtrx.bidPaid.amount = bid.state.balance → bid'.state.balance = 0) := by
  have hnow := (payCurrentBid_sameWalk hp h).now
  obtain ⟨-, -, kept, fees, hsweeps, rfl⟩ := payCurrentBid_eq_ok hp h
  refine ⟨⟨rfl, rfl, hnow⟩, bid.setBalance kept, rfl, ⟨rfl, rfl⟩, fun hall => ?_⟩
  refine hsweeps.kept_eq_zero ?_
  rw [hall, sub_self]
  rfl

theorem payCurrentAsk_usesUp (hp : e.pendingState.IsPending) {feesToQuote : Bool}
    (h : e.payCurrentAsk crypto ask mtrx feesToQuote = .ok e') :
    e'.currentBid = e.currentBid ∧ ∃ ask', e'.currentAsk = some ask' ∧ SameOrder ask ask' ∧
      (mtrx.askPaid.amount = ask.state.balance → ask'.state.balance = 0) := by
  obtain ⟨-, -, kept, quoteFees, baseFees, rfl, hsweeps, -⟩ := payCurrentAsk_eq_ok hp h
  refine ⟨rfl, ask.setBalance kept, rfl, ⟨rfl, rfl⟩, fun hall => ?_⟩
  refine hsweeps.kept_eq_zero ?_
  rw [hall, sub_self]
  rfl

/-- A short that puts up all it has puts up no more. -/
theorem shortCollateralOf_all {shortCollateral : Asset}
    (h : e.shortCollateralOf bid bid.getBalance = .ok shortCollateral) :
    shortCollateral.amount = bid.state.balance := by
  simp only [shortCollateralOf, bind_eq_ok, ite_eq_ok, pure_eq_ok] at h
  obtain ⟨remaining, -, ⟨⟨-, hlt⟩, -⟩ | ⟨-, rfl⟩⟩ := h
  · exact absurd bid.getBalance_amount hlt.ne
  · exact bid.getBalance_amount

theorem payCurrentShort_usesUp (crypto : Crypto) (hp : e.pendingState.IsPending)
    (h : e.payCurrentShort bid mtrx = .ok e') :
    OnlyBid e e' ∧ ∃ bid', e'.currentBid = some bid' ∧ SameOrder bid bid' ∧
      (mtrx.shortCollateral = bid.getBalance → bid'.state.balance = 0) := by
  have hnow := (payCurrentShort_sameWalk crypto hp h).now
  obtain ⟨-, shortCollateral, collateral, hcollateral, -, hcases⟩ :=
    payCurrentShort_eq_ok crypto hp h
  have hall : mtrx.shortCollateral = bid.getBalance →
      wrap64 (bid.state.balance - shortCollateral.amount) = 0 := by
    intro hall
    rw [hall] at hcollateral
    rw [shortCollateralOf_all hcollateral, sub_self]
    rfl
  obtain ⟨-, rfl⟩ | ⟨-, -, coverIndex, -, rfl⟩ := hcases
  · exact ⟨⟨rfl, rfl, hnow⟩, bid.setBalance _, rfl, ⟨rfl, rfl⟩, hall⟩
  · exact ⟨⟨rfl, rfl, hnow⟩, bid.setBalance _, rfl, ⟨rfl, rfl⟩, hall⟩

theorem payCurrentCover_usesUp (hp : e.pendingState.IsPending)
    (h : e.payCurrentCover crypto ask mtrx = .ok (e', mtrx')) :
    e'.currentBid = e.currentBid ∧ ∃ ask', e'.currentAsk = some ask' ∧ SameOrder ask ask' ∧
      (mtrx.askPaid.amount = ask.collateral → ask'.state.balance = 0) ∧
      (∀ debt, e.getCurrentCoverDebt crypto ask = .ok debt → mtrx.askReceived.ge debt →
        ask'.state.balance = 0) := by
  obtain ⟨-, totalDebt, principlePaid, interestPaid, left, owed, hrepays, hcloses⟩ :=
    payCurrentCover_eq_ok hp h
  have howed : ∀ debt, e.getCurrentCoverDebt crypto ask = .ok debt → mtrx.askReceived.ge debt →
      owed = 0 := by
    intro debt hdebt hge
    rw [hrepays.debt] at hdebt
    cases hdebt
    rw [hrepays.owed_eq, if_pos hge]
  have hleft : mtrx.askPaid.amount = ask.collateral → left = 0 := by
    intro hall
    rw [hrepays.left_eq, hall, sub_self]
    rfl
  cases hcloses with
  | atLoss => exact ⟨rfl, _, rfl, ⟨rfl, rfl⟩, fun _ => rfl, fun _ _ _ => rfl⟩
  | paidOff => exact ⟨rfl, _, rfl, ⟨rfl, rfl⟩, fun _ => rfl, fun _ _ _ => rfl⟩
  | kept hpos howed' =>
    exact ⟨rfl, _, rfl, ⟨rfl, rfl⟩, fun hall => absurd (hleft hall) hpos.ne',
      fun debt hdebt hge => absurd (howed debt hdebt hge) howed'.ne'⟩

/-- **A margin position whose part is the least of the amounts is closed.** -/
theorem CoverAmounts.closed {forSale maxAfford coverDebt askPaid usd : Asset}
    (h : CoverAmounts crypto e ask mtrx forSale maxAfford coverDebt askPaid)
    (husd : usd = (forSale.min maxAfford).min coverDebt) :
    usd = forSale ∨ askPaid.amount = ask.collateral ∨ usd.ge coverDebt := by
  rcases Asset.min_eq (forSale.min maxAfford) coverDebt with hmin | hmin
  · rcases Asset.min_eq forSale maxAfford with hmin' | hmin'
    · exact Or.inl (husd.trans (hmin.trans hmin'))
    · obtain ⟨-, rfl⟩ | ⟨hne, -⟩ := h.paid
      · exact Or.inr (Or.inl rfl)
      · exact absurd (congrArg Asset.amount (hmin.trans hmin')) hne
  · have heq := husd.trans hmin
    exact Or.inr (Or.inr ⟨congrArg Asset.assetId heq, (congrArg Asset.amount heq).ge⟩)

/-- The two orders after a trade: the same orders, one of them used up. -/
def UsedUp (bid ask : MarketOrder) (e' : MarketEngine) : Prop :=
  ∃ bid' ask', e'.currentBid = some bid' ∧ e'.currentAsk = some ask' ∧ SameOrder bid bid' ∧
    SameOrder ask ask' ∧ (bid'.state.balance = 0 ∨ ask'.state.balance = 0)

/-- A short that sells all it can puts up all it has. -/
theorem PutsUp.all {feed : Price} {forSale usd shortCollateral : Asset}
    (h : PutsUp feed bid forSale usd shortCollateral) (hall : usd.amount = forSale.amount) :
    shortCollateral = bid.getBalance := by
  obtain ⟨-, heq⟩ | ⟨hne, -⟩ := h
  · exact heq
  · exact absurd hall hne

theorem tradeShortCover_usesUp (hp : e.pendingState.IsPending)
    (h : e.tradeShortCover crypto bid ask mtrx = .ok (e', mtrx')) : UsedUp bid ask e' := by
  obtain ⟨feed, forSale, maxAfford, coverDebt, usd, askPaid, shortCollateral, e₁, hfeed, hsale,
    hamounts, husd, hputs, hshort, hcover⟩ := tradeShortCover_eq_ok h
  have hfirst := payCurrentShort_sameWalk crypto hp hshort
  obtain ⟨honly, bid', hbid', hsameBid, hbidZero⟩ := payCurrentShort_usesUp crypto hp hshort
  obtain ⟨hkeep, ask', hask', hsameAsk, hpaidZero, howedZero⟩ :=
    payCurrentCover_usesUp (hfirst.isPending hp) hcover
  refine ⟨bid', ask', hkeep.trans hbid', hask', hsameBid, hsameAsk, ?_⟩
  rcases hamounts.closed husd with hsold | hpaid | hge
  · exact Or.inl (hbidZero (hputs.all (congrArg Asset.amount hsold)))
  · exact Or.inr (hpaidZero hpaid)
  · refine Or.inr (howedZero coverDebt ?_ hge)
    rw [← hamounts.debt]
    unfold getCurrentCoverDebt getCurrentCoverAge
    rw [honly.collat, honly.now]

theorem tradeBidCover_usesUp (hp : e.pendingState.IsPending)
    (h : e.tradeBidCover crypto bid ask mtrx = .ok (e', mtrx')) : UsedUp bid ask e' := by
  obtain ⟨maxAfford, coverDebt, usd, askPaid, e₁, hamounts, husd, hpay, hcover⟩ :=
    tradeBidCover_eq_ok h
  have hfirst := payCurrentBid_sameWalk hp hpay
  obtain ⟨honly, bid', hbid', hsameBid, hbidZero⟩ := payCurrentBid_usesUp hp hpay
  obtain ⟨hkeep, ask', hask', hsameAsk, hpaidZero, howedZero⟩ :=
    payCurrentCover_usesUp (hfirst.isPending hp) hcover
  refine ⟨bid', ask', hkeep.trans hbid', hask', hsameBid, hsameAsk, ?_⟩
  rcases hamounts.closed husd with hsold | hpaid | hge
  · exact Or.inl (hbidZero ((congrArg Asset.amount hsold).trans bid.getBalance_amount))
  · exact Or.inr (hpaidZero hpaid)
  · refine Or.inr (howedZero coverDebt ?_ hge)
    rw [← hamounts.debt]
    unfold getCurrentCoverDebt getCurrentCoverAge
    rw [honly.collat, honly.now]

theorem tradeShortAsk_usesUp (hp : e.pendingState.IsPending)
    (h : e.tradeShortAsk crypto bid ask mtrx = .ok (e', mtrx')) : UsedUp bid ask e' := by
  obtain ⟨feed, forSale, wanted, usd, askPaid, shortCollateral, e₁, -, -, -, -, hputs, hpaid, rfl,
    hshort, hpay⟩ := tradeShortAsk_eq_ok h
  have hfirst := payCurrentShort_sameWalk crypto hp hshort
  obtain ⟨-, bid', hbid', hsameBid, hbidZero⟩ := payCurrentShort_usesUp crypto hp hshort
  obtain ⟨hkeep, ask', hask', hsameAsk, haskZero⟩ :=
    payCurrentAsk_usesUp (hfirst.isPending hp) hpay
  refine ⟨bid', ask', hkeep.trans hbid', hask', hsameBid, hsameAsk, ?_⟩
  obtain ⟨hall, -⟩ | ⟨-, rfl⟩ := hpaid
  · exact Or.inl (hbidZero (hputs.all hall))
  · exact Or.inr (haskZero ask.getBalance_amount)

theorem tradeBidAsk_usesUp (hp : e.pendingState.IsPending)
    (h : e.tradeBidAsk crypto bid ask mtrx = .ok (e', mtrx')) : UsedUp bid ask e' := by
  obtain ⟨bidQuantity, askQuantity, quantity, askReceived, bidPaid, e₁, -, -, hquantity, -, -, -, -,
    hbidPaid, haskPaid, -, -, -, hpayBid, hpayAsk⟩ := tradeBidAsk_eq_ok h
  have hfirst := payCurrentBid_sameWalk hp hpayBid
  obtain ⟨-, bid', hbid', hsameBid, hbidZero⟩ := payCurrentBid_usesUp hp hpayBid
  obtain ⟨hkeep, ask', hask', hsameAsk, haskZero⟩ :=
    payCurrentAsk_usesUp (hfirst.isPending hp) hpayAsk
  refine ⟨bid', ask', hkeep.trans hbid', hask', hsameBid, hsameAsk, ?_⟩
  rcases Asset.min_eq bidQuantity askQuantity with hmin | hmin
  · refine Or.inl (hbidZero ?_)
    rw [hbidPaid, if_pos (congrArg Asset.amount (hquantity.trans hmin)), bid.getBalance_amount]
  · refine Or.inr (haskZero ?_)
    rw [haskPaid, if_pos (congrArg Asset.amount (hquantity.trans hmin)), ask.getBalance_amount]

/-- **A trade uses up the bid or the ask.** -/
theorem trade_usesUp (hp : e.pendingState.IsPending) (htypes : Paired bid ask)
    (h : e.trade crypto bid ask mtrx = .ok (e', mtrx')) : UsedUp bid ask e' := by
  obtain ⟨-, -, h⟩ | ⟨-, -, h⟩ | ⟨-, -, h⟩ | ⟨-, -, h⟩ := trade_cases htypes h
  · exact tradeShortCover_usesUp hp h
  · exact tradeBidCover_usesUp hp h
  · exact tradeShortAsk_usesUp hp h
  · exact tradeBidAsk_usesUp hp h

/-! ### A round uses up an order -/

/-- The current bid is discarded or has nothing left. -/
def BidSpent (e : MarketEngine) : Prop :=
  e.currentBid = none ∨ ∃ bid, e.currentBid = some bid ∧ bid.state.balance = 0

/-- The current ask is discarded or has nothing left. -/
def AskSpent (e : MarketEngine) : Prop :=
  e.currentAsk = none ∨ ∃ ask, e.currentAsk = some ask ∧ ask.state.balance = 0

theorem not_bidLive_of_balance (hbid : e.currentBid = some bid)
    (htype : bid.type = .bidOrder ∨ bid.type = .shortOrder) (hzero : bid.state.balance = 0) :
    ¬e.BidLive := by
  rintro ⟨bid', quantity, hbid', hquantity, hpos⟩
  rw [hbid] at hbid'
  cases hbid'
  have hbalance : bid.getBalance.amount = 0 := bid.getBalance_amount.trans hzero
  unfold MarketOrder.getQuantity at hquantity
  rcases htype with htype | htype
  · rw [htype] at hquantity
    exact absurd (Asset.mulPrice_zero hbalance hquantity) hpos.ne'
  · rw [htype] at hquantity
    cases hquantity
    exact absurd hbalance hpos.ne'

theorem not_askLive_of_balance (hask : e.currentAsk = some ask) (hzero : ask.state.balance = 0) :
    ¬e.AskLive := by
  rintro ⟨ask', hask', hpos⟩
  rw [hask] at hask'
  cases hask'
  exact hpos.ne' hzero

theorem not_bidLive_of_none (h : e.currentBid = none) : ¬e.BidLive := by
  rintro ⟨bid, quantity, hbid, -⟩
  rw [h] at hbid
  cases hbid

theorem not_askLive_of_none (h : e.currentAsk = none) : ¬e.AskLive := by
  rintro ⟨ask, hask, -⟩
  rw [h] at hask
  cases hask

theorem OnMarket.not_bidLive (h : OnMarket e) (hspent : e.BidSpent) : ¬e.BidLive := by
  obtain hnone | ⟨bid, hbid, hzero⟩ := hspent
  · exact not_bidLive_of_none hnone
  · exact not_bidLive_of_balance hbid (h.bid bid hbid).1 hzero

theorem AskSpent.not_askLive (hspent : e.AskSpent) : ¬e.AskLive := by
  obtain hnone | ⟨ask, hask, hzero⟩ := hspent
  · exact not_askLive_of_none hnone
  · exact not_askLive_of_balance hask hzero

/-- After a trade the orders are still of the market, and one is spent. -/
theorem OnMarket.usedUp (h : OnMarket e) (hbid : e.currentBid = some bid)
    (hask : e.currentAsk = some ask) (hwalk : SameWalk crypto e e') (hused : UsedUp bid ask e') :
    OnMarket e' ∧ (e'.BidSpent ∨ e'.AskSpent) := by
  obtain ⟨bid', ask', hbid', hask', hsameBid, hsameAsk, hzero⟩ := hused
  obtain ⟨hbidType, hbidPair⟩ := h.bid bid hbid
  obtain ⟨haskType, haskPair⟩ := h.ask ask hask
  rw [← hsameBid.type] at hbidType
  rw [← hsameAsk.type] at haskType
  have hbidPrice : bid'.getPrice.assetPair = e'.pair := by
    rw [hwalk.pair, ← hbidPair]
    unfold MarketOrder.getPrice
    rw [hsameBid.marketIndex]
  have haskPrice : ask'.getPrice.assetPair = e'.pair := by
    rw [hwalk.pair, ← haskPair]
    unfold MarketOrder.getPrice
    rw [hsameAsk.marketIndex]
  refine ⟨⟨hwalk.isPending h.pending, ?_, ?_, ?_, ?_⟩, ?_⟩
  · rw [hwalk.baseId, hwalk.quoteId]
    exact h.ordered
  · rw [hwalk.feed, hwalk.pair]
    exact h.feed
  · intro o ho
    rw [hbid'] at ho
    cases ho
    exact ⟨hbidType, hbidPrice⟩
  · intro o ho
    rw [hask'] at ho
    cases ho
    exact ⟨haskType, haskPrice⟩
  · exact hzero.imp (fun h => Or.inr ⟨bid', hbid', h⟩) (fun h => Or.inr ⟨ask', hask', h⟩)

/-- **What matching two orders of the market leaves**: orders of the market, and when the loop
goes on one of them is spent. -/
theorem OnMarket.matches (h : OnMarket e) (hbid : e.currentBid = some bid)
    (hask : e.currentAsk = some ask) (hmatch : Matches crypto e bid ask e' goOn) :
    OnMarket e' ∧ SameWalk crypto e e' ∧ (goOn = true → e'.BidSpent ∨ e'.AskSpent) := by
  cases hmatch with
  | skipBid =>
    refine ⟨{ h with bid := fun o ho => by cases ho }, ?_, fun _ => Or.inl (Or.inl rfl)⟩
    exact { SameWalk.refl crypto e with }
  | skipAsk =>
    refine ⟨{ h with ask := fun o ho => by cases ho }, ?_, fun _ => Or.inr (Or.inl rfl)⟩
    exact { SameWalk.refl crypto e with }
  | spread => exact ⟨h, .refl crypto e, fun h => by cases h⟩
  | traded hprice hcross htrade hcollect =>
    have hwalk := (trade_sameWalk h.pending (h.paired hbid hask) htrade).trans (hcollect.sameWalk crypto)
    have hused := trade_usesUp h.pending (h.paired hbid hask) htrade
    obtain ⟨volume, quoteFees, baseFees, rfl⟩ := hcollect.rest
    obtain ⟨hafter, hlive⟩ := h.usedUp hbid hask hwalk hused
    exact ⟨hafter, hwalk, fun _ => hlive⟩

/-! ### The entries of the market that are left -/

/-- The entries of the market that the iterators have not passed. -/
def entriesOfMarket (e : MarketEngine) : ℕ :=
  inMarket e.pair e.bidItr + inMarket e.pair e.askItr + inMarket e.pair e.shortItr +
    inMarket e.pair e.collateralItr

/-- The orders a run can still match: entries of the market, and live orders. -/
def ordersLeft (e : MarketEngine) : ℕ :=
  e.entriesOfMarket + (if e.BidLive then 1 else 0) + (if e.AskLive then 1 else 0)

/-- A bid that is fetched leaves one entry fewer. -/
theorem FetchesBid.entriesOfMarket (h : FetchesBid e e') :
    e'.entriesOfMarket + (if e'.currentBid.isSome then 1 else 0) = e.entriesOfMarket := by
  unfold MarketEngine.entriesOfMarket
  cases h with
  | @bid key r rest hitr hpair =>
    have hcount : inMarket e.pair ((key, r) :: rest) = _ := inMarket_cons hpair
    rw [hitr, hcount]
    change inMarket e.pair rest + inMarket e.pair e.askItr + inMarket e.pair e.shortItr +
      inMarket e.pair e.collateralItr + 1 = _
    omega
  | @short key r rest hitr hpair =>
    have hcount : inMarket e.pair ((key, r) :: rest) = _ := inMarket_cons hpair
    rw [hitr, hcount]
    change inMarket e.pair e.bidItr + inMarket e.pair e.askItr + inMarket e.pair rest +
      inMarket e.pair e.collateralItr + 1 = _
    omega
  | none => rfl

theorem Abandons.inMarket_le {collateralItr : BookIterator CollateralRecord}
    (h : e.Abandons collateralItr) :
    inMarket e.pair collateralItr ≤ inMarket e.pair e.collateralItr := by
  cases hbid : e.currentBid with
  | none => rw [h.kept hbid]
  | some bid =>
    rw [h.dropped (hbid ▸ rfl)]
    exact Nat.zero_le _

/-- An ask that is fetched leaves one entry fewer. -/
theorem FetchesAsk.entriesOfMarket (h : FetchesAsk e e') :
    e'.entriesOfMarket + (if e'.currentAsk.isSome then 1 else 0) ≤ e.entriesOfMarket := by
  unfold MarketEngine.entriesOfMarket
  cases h with
  | @cover key r rest hbid hitr hpair hcall =>
    have hcount : inMarket e.pair ((key, r) :: rest) = _ := inMarket_cons hpair
    rw [hitr, hcount]
    change inMarket e.pair e.bidItr + inMarket e.pair e.askItr + inMarket e.pair e.shortItr +
      inMarket e.pair rest + 1 ≤ _
    omega
  | @ask key r rest collateralItr collat hcovers hitr hpair =>
    have hcount : inMarket e.pair ((key, r) :: rest) = _ := inMarket_cons hpair
    have hdropped := hcovers.inMarket_le
    rw [hitr, hcount]
    change inMarket e.pair e.bidItr + inMarket e.pair rest + inMarket e.pair e.shortItr +
      inMarket e.pair collateralItr + 1 ≤ _
    omega
  | @none collateralItr collat hcovers hasks =>
    have hdropped := hcovers.inMarket_le
    have htail := inMarket_sublist e.pair (List.tail_sublist e.askItr)
    change inMarket e.pair e.bidItr + inMarket e.pair e.askItr.tail + inMarket e.pair e.shortItr +
      inMarket e.pair collateralItr + 0 ≤ _
    omega

theorem FetchesBid.askLive_iff (h : FetchesBid e e') : e'.AskLive ↔ e.AskLive := by
  cases h <;> exact Iff.rfl

theorem FetchesAsk.bidLive_iff (h : FetchesAsk e e') : e'.BidLive ↔ e.BidLive := by
  cases h <;> exact Iff.rfl

theorem BidLive.isSome (h : e.BidLive) : e.currentBid.isSome = true := by
  obtain ⟨bid, -, hbid, -⟩ := h
  rw [hbid]
  rfl

theorem AskLive.isSome (h : e.AskLive) : e.currentAsk.isSome = true := by
  obtain ⟨ask, hask, -⟩ := h
  rw [hask]
  rfl

/-- A search for a bid takes a live bid or an entry of a book. -/
theorem getNextBid_ordersLeft (h : e.getNextBid = .ok e') :
    e'.ordersLeft ≤ e.ordersLeft ∧ (e'.AskLive ↔ e.AskLive) ∧ (e'.currentBid.isSome = true →
      e'.entriesOfMarket + 1 ≤ e.entriesOfMarket + if e.BidLive then 1 else 0) := by
  unfold ordersLeft
  obtain ⟨hlive, rfl⟩ | ⟨hlive, hfetch⟩ := getNextBid_eq_ok h
  · exact ⟨le_rfl, Iff.rfl, fun _ => (if_pos hlive).symm ▸ le_rfl⟩
  · have hentries := hfetch.entriesOfMarket
    have hask := hfetch.askLive_iff
    have hsome := BidLive.isSome (e := e')
    refine ⟨?_, hask, fun h => ?_⟩
    · simp only [hask, if_neg hlive]
      split_ifs at hentries ⊢ with h₁ h₂ <;> grind
    · rw [if_pos h] at hentries
      omega

/-- A search for an ask takes a live ask or an entry of a book. -/
theorem getNextAsk_ordersLeft (e : MarketEngine) :
    e.getNextAsk.ordersLeft ≤ e.ordersLeft ∧ (e.getNextAsk.BidLive ↔ e.BidLive) ∧
      (e.getNextAsk.currentAsk.isSome = true →
        e.getNextAsk.entriesOfMarket + 1 ≤ e.entriesOfMarket + if e.AskLive then 1 else 0) := by
  unfold ordersLeft
  obtain ⟨hlive, heq⟩ | ⟨hlive, hfetch⟩ := getNextAsk_cases e
  · rw [heq]
    exact ⟨le_rfl, Iff.rfl, fun _ => (if_pos hlive).symm ▸ le_rfl⟩
  · have hentries := hfetch.entriesOfMarket
    have hbid := hfetch.bidLive_iff
    have hsome := AskLive.isSome (e := e.getNextAsk)
    refine ⟨?_, hbid, fun h => ?_⟩
    · simp only [hbid, if_neg hlive]
      split_ifs at hentries ⊢ with h₁ h₂ <;> grind
    · rw [if_pos h] at hentries
      omega

/-- **The body of the loop takes two orders.** -/
theorem Enters.entriesOfMarket (h : Enters e e₁ bid ask) :
    e₁.entriesOfMarket + 2 ≤ e.ordersLeft := by
  obtain ⟨⟨e₀, hnext, hbid, rfl⟩, hask⟩ := h
  obtain ⟨-, hlive, hbids⟩ := getNextBid_ordersLeft hnext
  obtain ⟨-, -, hasks⟩ := getNextAsk_ordersLeft e₀
  have hbids := hbids (hbid ▸ rfl)
  have hasks := hasks (hask ▸ rfl)
  unfold ordersLeft
  simp only [hlive] at hasks
  omega

theorem SameWalk.entriesOfMarket (h : SameWalk crypto e e') :
    e'.entriesOfMarket = e.entriesOfMarket := by
  unfold MarketEngine.entriesOfMarket
  rw [h.pair, h.bidItr, h.askItr, h.shortItr, h.collateralItr]

/-! ### The count of the orders that are fetched -/

/-- An order was fetched since the last round, or one will be. -/
def Counted (e : MarketEngine) : Prop :=
  e.lastOrdersFilled < e.ordersFilled ∨
    e.lastOrdersFilled = e.ordersFilled ∧ (¬e.BidLive ∨ ¬e.AskLive)

theorem FetchesBid.ordersFilled (h : FetchesBid e e') :
    e'.ordersFilled = e.ordersFilled + 1 ∧ e'.lastOrdersFilled = e.lastOrdersFilled := by
  cases h <;> exact ⟨rfl, rfl⟩

theorem FetchesAsk.ordersFilled (h : FetchesAsk e e') :
    e'.ordersFilled = e.ordersFilled + 1 ∧ e'.lastOrdersFilled = e.lastOrdersFilled := by
  cases h <;> exact ⟨rfl, rfl⟩

/-- **The assertion against an order matching loop holds.** -/
theorem Enters.counted (h : Enters e e₁ bid ask) (hcounted : Counted e) :
    e₁.lastOrdersFilled < e₁.ordersFilled := by
  obtain ⟨⟨e₀, hnext, -, rfl⟩, -⟩ := h
  obtain ⟨hbid, rfl⟩ | ⟨-, hfetch⟩ := getNextBid_eq_ok hnext
  · obtain ⟨hask, heq⟩ | ⟨-, hfetch'⟩ := getNextAsk_cases e₀
    · rw [heq]
      obtain hlt | ⟨-, hdead | hdead⟩ := hcounted
      · exact hlt
      · exact absurd hbid hdead
      · exact absurd hask hdead
    · obtain ⟨hfilled, hlast⟩ := hfetch'.ordersFilled
      rw [hfilled, hlast]
      obtain hlt | ⟨heq, -⟩ := hcounted <;> omega
  · obtain ⟨hfilled, hlast⟩ := hfetch.ordersFilled
    have hlt : e₀.lastOrdersFilled < e₀.ordersFilled := by
      rw [hfilled, hlast]
      obtain hlt | ⟨heq, -⟩ := hcounted <;> omega
    obtain ⟨-, heq⟩ | ⟨-, hfetch'⟩ := getNextAsk_cases e₀
    · rwa [heq]
    · obtain ⟨hfilled', hlast'⟩ := hfetch'.ordersFilled
      omega

/-! ### A run of the loop -/

/-- What holds at the start of a round. -/
structure Progresses (e : MarketEngine) : Prop where
  onMarket : OnMarket e
  counted : Counted e

/-- **A round that goes on**: one of the orders is spent, and there is less left to match. -/
theorem Progresses.round (h : Progresses e) (hround : e.matchRound crypto = .ok (e', true)) :
    Progresses e' ∧ (e'.BidSpent ∨ e'.AskSpent) ∧ e'.ordersLeft + 1 ≤ e.ordersLeft ∧
      2 ≤ e.ordersLeft := by
  cases matchRound_eq_ok hround with
  | @body e₁ _ bid ask _ henters hfilled hmatch =>
    obtain ⟨h₁, hbid⟩ := henters.onMarket h.onMarket
    obtain ⟨hafter, hwalk, hspent⟩ :=
      OnMarket.matches (e := e₁.counted) { h₁ with } hbid henters.ask hmatch
    have hspent := hspent rfl
    have hlive : ¬e'.BidLive ∨ ¬e'.AskLive := hspent.imp hafter.not_bidLive AskSpent.not_askLive
    have henter := henters.entriesOfMarket
    refine ⟨⟨hafter, Or.inr ⟨?_, hlive⟩⟩, hspent, ?_, by omega⟩
    · rw [hwalk.lastOrdersFilled, hwalk.ordersFilled]
      rfl
    · have hentries : e'.entriesOfMarket = e₁.entriesOfMarket := hwalk.entriesOfMarket
      change e'.entriesOfMarket + (if e'.BidLive then 1 else 0) + (if e'.AskLive then 1 else 0) + 1 ≤ _
      split_ifs with hbidLive haskLive <;> grind

theorem Rounds.progresses {n : ℕ} (h : Progresses e) (hrounds : Rounds crypto n e e') :
    Progresses e' ∧ (0 < n → e'.BidSpent ∨ e'.AskSpent) ∧ e'.ordersLeft + n ≤ e.ordersLeft := by
  induction hrounds with
  | refl e => exact ⟨h, fun h => absurd h (lt_irrefl 0), le_rfl⟩
  | step hrounds hround ih =>
    obtain ⟨h₁, -, hle⟩ := ih h
    obtain ⟨h₂, hspent, hle', -⟩ := h₁.round hround
    exact ⟨h₂, fun _ => hspent, by omega⟩

/-- A loop that has rounds enough for what is left is not cut short. -/
theorem Progresses.matchLoop_eq (h : Progresses e) {n m : ℕ} (hn : e.ordersLeft < n + 2)
    (hm : e.ordersLeft < m + 2) : matchLoop crypto (n + 1) e = matchLoop crypto (m + 1) e := by
  induction n using Nat.strong_induction_on generalizing e m with
  | _ n ih =>
    rw [matchLoop, matchLoop]
    cases hround : e.matchRound crypto with
    | error error => rfl
    | ok result =>
      obtain ⟨e', goOn⟩ := result
      cases goOn with
      | false => rfl
      | true =>
        obtain ⟨h', -, hle, htwo⟩ := h.round hround
        obtain ⟨n, rfl⟩ := Nat.exists_eq_add_of_le' (show 1 ≤ n by omega)
        obtain ⟨m, rfl⟩ := Nat.exists_eq_add_of_le' (show 1 ≤ m by omega)
        exact ih n (Nat.lt_succ_self n) h' (by omega) (by omega)

/-- The orders of a market: its bids, asks, shorts and margin positions in the database. -/
def ordersOfMarket (c : ChainInterface) (pair : AssetPair) : ℕ :=
  inMarket pair c.db.bids.toList + inMarket pair c.db.asks.toList +
    inMarket pair c.db.shorts.toList + inMarket pair c.db.collateral.toList

/-- An engine that is opened stands before all orders of its market. -/
theorem openMarket_ordersLeft {c : ChainInterface} {quoteId baseId : ℤ}
    (h : openMarket c quoteId baseId = .ok e) :
    Progresses e ∧ e.ordersLeft ≤ ordersOfMarket c ⟨quoteId, baseId⟩ := by
  obtain ⟨hopened, -⟩ := openMarket_eq_ok h
  have hends := openMarket_atEnds h
  have hids : e.quoteId = quoteId ∧ e.baseId = baseId := by
    injection hopened.pair with hquote hbase
    exact ⟨hquote, hbase⟩
  have hbid : ¬e.BidLive := not_bidLive_of_none hopened.bid
  have hask : ¬e.AskLive := not_askLive_of_none hopened.ask
  refine ⟨⟨⟨?_, ?_, ?_, ?_, ?_⟩, Or.inl ?_⟩, ?_⟩
  · rw [hopened.pendingState]
    exact List.cons_ne_nil _ _
  · rw [hids.1, hids.2]
    exact hends.ordered
  · intro p hp
    have hfeed := hends.feed
    rw [hp] at hfeed
    rw [ChainInterface.getMedianDelegatePrice_assetPair hfeed, hopened.pair]
  · intro o ho
    rw [hopened.bid] at ho
    cases ho
  · intro o ho
    rw [hopened.ask] at ho
    cases ho
  · rw [hends.ordersFilled, hends.lastOrdersFilled]
    decide
  · unfold ordersLeft entriesOfMarket ordersOfMarket
    rw [if_neg hbid, if_neg hask, hopened.pair, hends.bidItr, hends.shortItr, hends.collateralItr]
    have hbids := inMarket_entriesBefore ⟨quoteId, baseId⟩ c.db.bids ⟨nextPair quoteId baseId, 0⟩
    have hshorts := inMarket_entriesBefore ⟨quoteId, baseId⟩ c.db.shorts ⟨nextPair quoteId baseId, 0⟩
    have hcovers :=
      inMarket_entriesBefore ⟨quoteId, baseId⟩ c.db.collateral ⟨nextPair quoteId baseId, 0⟩
    have hasks : inMarket ⟨quoteId, baseId⟩ e.askItr ≤ inMarket ⟨quoteId, baseId⟩ c.db.asks.toList := by
      obtain heq | ⟨-, heq⟩ := hends.askItr
      · rw [heq]
        exact inMarket_entriesFrom ..
      · rw [heq]
    omega

/-- The loop of a run starts after the first orders were fetched. -/
def Starts (c : ChainInterface) (quoteId baseId : ℤ) (e : MarketEngine) : Prop :=
  ∃ e₀ e₁, openMarket c quoteId baseId = .ok e₀ ∧ e₀.getNextBid = .ok e₁ ∧ e = e₁.getNextAsk

theorem Starts.progresses {c : ChainInterface} {quoteId baseId : ℤ} (h : Starts c quoteId baseId e) :
    Progresses e ∧ e.ordersLeft ≤ ordersOfMarket c ⟨quoteId, baseId⟩ := by
  obtain ⟨e₀, e₁, hopen, hnext, rfl⟩ := h
  obtain ⟨h₀, hle⟩ := openMarket_ordersLeft hopen
  have hends := openMarket_atEnds hopen
  have hlt : e₀.lastOrdersFilled < e₀.ordersFilled := by
    rw [hends.ordersFilled, hends.lastOrdersFilled]
    decide
  have hlt₁ : e₁.lastOrdersFilled < e₁.ordersFilled := by
    obtain ⟨-, rfl⟩ | ⟨-, hfetch⟩ := getNextBid_eq_ok hnext
    · exact hlt
    · obtain ⟨hfilled, hlast⟩ := hfetch.ordersFilled
      omega
  refine ⟨⟨(h₀.onMarket.getNextBid hnext).getNextAsk, Or.inl ?_⟩, ?_⟩
  · obtain ⟨-, heq⟩ | ⟨-, hfetch⟩ := getNextAsk_cases e₁
    · rwa [heq]
    · obtain ⟨hfilled, hlast⟩ := hfetch.ordersFilled
      omega
  · exact ((getNextAsk_ordersLeft e₁).1.trans (getNextBid_ordersLeft hnext).1).trans hle

theorem ordersLeft_le (e : MarketEngine) : e.ordersLeft ≤ e.entriesLeft + 2 := by
  have hcount : ∀ {α : Type} (itr : BookIterator α), inMarket e.pair itr ≤ itr.length :=
    fun itr => List.countP_le_length
  have hbids := hcount e.bidItr
  have hasks := hcount e.askItr
  have hshorts := hcount e.shortItr
  have hcovers := hcount e.collateralItr
  unfold ordersLeft entriesOfMarket entriesLeft
  split_ifs <;> omega

/-- **The matching loop makes progress.** Each round that goes on spends one of its two orders,
the assertion against an order matching loop holds whenever the body of the loop is entered, and
the body is entered at most as often as there are orders in the market. The loop of the model is
given rounds enough: with more it does the same. -/
theorem matchLoop_progress (crypto : Crypto) {c : ChainInterface} {quoteId baseId : ℤ}
    {e : MarketEngine} (hstart : Starts c quoteId baseId e) :
    (∀ n e', Rounds crypto n e e' → (0 < n → e'.BidSpent ∨ e'.AskSpent) ∧
      ∀ e₁ bid ask, Enters e' e₁ bid ask → e₁.ordersFilled ≠ e₁.lastOrdersFilled ∧
        n + 1 ≤ ordersOfMarket c ⟨quoteId, baseId⟩) ∧
    ∀ rounds, e.entriesLeft + 2 ≤ rounds →
      matchLoop crypto rounds e = matchLoop crypto (e.entriesLeft + 2) e := by
  obtain ⟨h, hle⟩ := hstart.progresses
  refine ⟨fun n e' hrounds => ?_, fun rounds hrounds => ?_⟩
  · obtain ⟨h', hspent, hleft⟩ := hrounds.progresses h
    refine ⟨hspent, fun e₁ bid ask henters => ⟨(henters.counted h'.counted).ne', ?_⟩⟩
    have hentries := henters.entriesOfMarket
    omega
  · have hleft := ordersLeft_le e
    obtain ⟨n, rfl⟩ := Nat.exists_eq_add_of_le' (show 1 ≤ rounds by omega)
    exact h.matchLoop_eq (by omega) (by omega)

/-- A bid of 100 for 50 shares meets an ask of 30: the ask is used up. -/
def smallMarket : ChainInterface :=
  marketChain { id := 1, issuerAccountId := 3 } { id := 0 } .null
    [(⟨⟨2 * btsPricePrecision, 1, 0⟩, 7⟩, { balance := 100 })]
    [(⟨⟨btsPricePrecision, 1, 0⟩, 8⟩, { balance := 30 })] [] []

theorem matchLoop_progress_smallMarket : ∃ e, Starts smallMarket 1 0 e ∧
    (∃ e', Rounds .transparent 1 e e') ∧ ∀ n e', Rounds .transparent n e e' →
      (0 < n → e'.BidSpent ∨ e'.AskSpent) ∧
      ∀ e₁ bid ask, Enters e' e₁ bid ask → e₁.ordersFilled ≠ e₁.lastOrdersFilled ∧ n + 1 ≤ 2 := by
  have hrun : (((openMarket smallMarket 1 0 >>= getNextBid) >>= fun e =>
      e.getNextAsk.matchRound .transparent) >>= fun r =>
        require (r.2 = true) .outOfBounds).isOk = true := by decide +kernel
  obtain ⟨_, hrun⟩ := exists_eq_ok hrun
  simp only [bind_eq_ok, require_eq_ok] at hrun
  obtain ⟨⟨e', goOn⟩, ⟨e₁, ⟨e₀, hopen, hnext⟩, hround⟩, -, rfl⟩ := hrun
  have hstart : Starts smallMarket 1 0 e₁.getNextAsk := ⟨e₀, e₁, hopen, hnext, rfl⟩
  have horders : ordersOfMarket smallMarket ⟨1, 0⟩ = 2 := by decide +kernel
  exact ⟨e₁.getNextAsk, hstart, ⟨e', .step (.refl _) hround⟩,
    horders ▸ (matchLoop_progress .transparent hstart).1⟩

end MarketEngine

end LarkX
