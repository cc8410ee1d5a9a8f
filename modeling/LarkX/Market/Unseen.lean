import LarkX.Market.Completed

/-!
# What matching does not see

Matching reads the time, the balances and the margin positions of the pending state of the
engine, and stores to six of its tables. A change `T` of that state which is in the way of none
of these (`Unseen`) is carried through every step of the loop: the engine over the changed state
(`e.under T`) does what `e` does, and ends over the changed result (`matchLoop_under`).
-/

namespace LarkX

namespace MarketEngine

/-- A change of the pending state that matching neither sees nor disturbs. -/
structure Unseen (crypto : Crypto) (T : ChainInterface → ChainInterface) : Prop where
  now : ∀ c, (T c).now = c.now
  balance : ∀ c id, (T c).getBalanceRecord id = c.getBalanceRecord id
  collateral : ∀ c key, (T c).getCollateralRecord key = c.getCollateralRecord key
  storeAsset : ∀ c r, (T c).storeAssetRecord r = T (c.storeAssetRecord r)
  storeBalance : ∀ c r, (T c).storeBalanceRecord crypto r = T (c.storeBalanceRecord crypto r)
  storeBid : ∀ c key r, (T c).storeBidRecord key r = T (c.storeBidRecord key r)
  storeAsk : ∀ c key r, (T c).storeAskRecord key r = T (c.storeAskRecord key r)
  storeShort : ∀ c key r, (T c).storeShortRecord key r = T (c.storeShortRecord key r)
  storeCollateral : ∀ c key r,
    (T c).storeCollateralRecord key r = T (c.storeCollateralRecord key r)

/-- The engine over a changed pending state. -/
def under (T : ChainInterface → ChainInterface) (e : MarketEngine) : MarketEngine :=
  { e with pendingState := T e.pendingState }

variable {crypto : Crypto} {T : ChainInterface → ChainInterface} (e : MarketEngine)

/-- Both engines take the same branch. -/
theorem ite_under {p q : Prop} [Decidable p] [Decidable q] (h : p ↔ q) {x y x' y' : MarketEngine}
    (hx : x' = x.under T) (hy : y' = y.under T) :
    (if p then x' else y') = (if q then x else y).under T := by
  by_cases hq : q
  · rw [if_pos hq, if_pos (h.2 hq), hx]
  · rw [if_neg hq, if_neg (mt h.1 hq), hy]

/-! ### Walking the books -/

theorem getNextShort_under :
    (e.under T).getNextShort = (e.getNextShort.1.under T, e.getNextShort.2) := by
  have hitr : (e.under T).shortItr = e.shortItr := rfl
  unfold getNextShort
  rw [hitr]
  cases e.shortItr with
  | nil => rfl
  | cons entry rest =>
    by_cases h : entry.1.assetPair = e.pair
    · have h' : entry.1.assetPair = (e.under T).pair := h
      dsimp only
      rw [if_pos h, if_pos h']
      rfl
    · have h' : ¬ entry.1.assetPair = (e.under T).pair := h
      dsimp only
      rw [if_neg h, if_neg h']

theorem fetchBid_under : (e.under T).fetchBid = e.fetchBid.under T := by
  obtain ⟨c, q, b, qa, ba, feed, bid, ask, col, filled, last, vol, bids, asks, shorts, cols⟩ := e
  have hnext := getNextShort_under (T := T)
    ⟨c, q, b, qa, ba, feed, none, ask, col, filled + 1, last, vol, bids, asks, shorts, cols⟩
  have hshort := congrArg Prod.fst hnext
  have hfound := congrArg (fun s : MarketEngine × Bool => s.2 = true) hnext
  cases bids with
  | nil => exact hshort
  | cons entry rest =>
    exact ite_under Iff.rfl (ite_under Iff.rfl (ite_under (iff_of_eq hfound) hshort rfl) rfl) hshort

theorem fetchAsk_under : (e.under T).fetchAsk = e.fetchAsk.under T := by
  obtain ⟨c, q, b, qa, ba, feed, bid, ask, col, filled, last, vol, bids, asks, shorts, cols⟩ := e
  cases asks with
  | nil => rfl
  | cons entry rest => exact ite_under Iff.rfl rfl rfl

theorem isCallable_under (hnow : ∀ c, (T c).now = c.now) (callPrice : Price)
    (r : CollateralRecord) : (e.under T).isCallable callPrice r = e.isCallable callPrice r := by
  simp only [isCallable, under, hnow]

theorem fetchCoverOrAsk_under (hnow : ∀ c, (T c).now = c.now) :
    (e.under T).fetchCoverOrAsk = e.fetchCoverOrAsk.under T := by
  obtain ⟨c, q, b, qa, ba, feed, bid, ask, col, filled, last, vol, bids, asks, shorts, cols⟩ := e
  have hask : ∀ col cols, _ := fun col cols => fetchAsk_under (T := T)
    ⟨c, q, b, qa, ba, feed, bid, none, col, filled + 1, last, vol, bids, asks, shorts, cols⟩
  refine ite_under Iff.rfl ?_ (hask _ _)
  cases cols with
  | nil => exact hask _ _
  | cons entry rest =>
    have hcall := congrArg (· = true) (isCallable_under (T := T)
      ⟨c, q, b, qa, ba, feed, bid, none, entry.2, filled + 1, last, vol, bids, asks, shorts,
        entry :: rest⟩ hnow entry.1.orderPrice entry.2)
    exact ite_under Iff.rfl (ite_under (iff_of_eq hcall) rfl (hask _ _)) (hask _ _)

theorem getNextAsk_under (hnow : ∀ c, (T c).now = c.now) :
    (e.under T).getNextAsk = e.getNextAsk.under T := by
  obtain ⟨c, q, b, qa, ba, feed, bid, ask, col, filled, last, vol, bids, asks, shorts, cols⟩ := e
  cases ask with
  | none => exact fetchCoverOrAsk_under _ hnow
  | some ask => exact ite_under Iff.rfl rfl (fetchCoverOrAsk_under _ hnow)

theorem getNextBid_under : (e.under T).getNextBid = under T <$> e.getNextBid := by
  unfold getNextBid
  have hbid : (e.under T).currentBid = e.currentBid := rfl
  rw [hbid, fetchBid_under]
  cases e.currentBid with
  | none => rfl
  | some bid =>
    simp only [map_bind]
    refine bind_congr fun quantity => ?_
    split_ifs <;> rfl

/-! ### Settling a trade -/

section Unseen

variable (hT : Unseen crypto T)
include hT

theorem payOut_under (owner : Address) (funds : Asset) :
    (e.under T).payOut crypto owner funds = (e.payOut crypto owner funds).under T := by
  unfold payOut withState under
  dsimp only
  rw [hT.balance, hT.now, hT.storeBalance]

theorem payCurrentBid_under (bid : MarketOrder) (mtrx : MarketTransaction) :
    (e.under T).payCurrentBid crypto bid mtrx = under T <$> e.payCurrentBid crypto bid mtrx := by
  unfold payCurrentBid
  simp only [payOut_under e hT, map_bind, map_pure]
  refine bind_congr fun _ => bind_congr fun _ => bind_congr fun _ => bind_congr fun rest => ?_
  rw [show (e.under T).baseId = e.baseId from rfl]
  generalize e.payOut crypto mtrx.bidOwner ⟨mtrx.bidReceived.amount, e.baseId⟩ = e₁
  dsimp only [under, withState]
  split_ifs
  all_goals
    dsimp only
    rw [hT.storeBid]

theorem payCurrentAsk_under (ask : MarketOrder) (mtrx : MarketTransaction) (feesToQuote : Bool) :
    (e.under T).payCurrentAsk crypto ask mtrx feesToQuote =
      under T <$> e.payCurrentAsk crypto ask mtrx feesToQuote := by
  unfold payCurrentAsk
  simp only [payOut_under e hT, map_bind, map_pure]
  refine bind_congr fun _ => bind_congr fun _ => bind_congr fun _ => bind_congr fun rest => ?_
  rw [show (e.under T).quoteId = e.quoteId from rfl]
  generalize e.payOut crypto mtrx.askOwner ⟨mtrx.askReceived.amount, e.quoteId⟩ = e₁
  dsimp only [under, withState]
  split_ifs
  all_goals
    dsimp only
    rw [hT.storeAsk]

theorem payCurrentShort_under (bid : MarketOrder) (mtrx : MarketTransaction) :
    (e.under T).payCurrentShort bid mtrx = under T <$> e.payCurrentShort bid mtrx := by
  unfold payCurrentShort
  simp only [map_bind]
  refine bind_congr fun _ => bind_congr fun collateral => bind_congr fun total => ?_
  split_ifs
  · simp only [map_bind]
    rfl
  · simp only [map_bind]
    refine bind_congr fun coverPrice => ?_
    simp only [under, withState, hT.collateral, hT.now, hT.storeCollateral, hT.storeShort]
    rfl

theorem getCurrentCoverAge_under (ask : MarketOrder) :
    (e.under T).getCurrentCoverAge ask = e.getCurrentCoverAge ask := by
  simp only [getCurrentCoverAge, under, hT.now]

theorem getCurrentCoverDebt_under (ask : MarketOrder) :
    (e.under T).getCurrentCoverDebt crypto ask = e.getCurrentCoverDebt crypto ask := by
  unfold getCurrentCoverDebt
  rw [getCurrentCoverAge_under e hT]
  rfl

theorem returnCollateral_under (ask : MarketOrder) (mtrx : MarketTransaction) :
    (e.under T).returnCollateral crypto ask mtrx =
      Prod.map (under T) id <$> e.returnCollateral crypto ask mtrx := by
  unfold returnCollateral
  simp only [payOut_under e hT]
  by_cases hnow : e.pendingState.now < e.currentCollatRecord.expiration
  · have hnow' : (e.under T).pendingState.now < (e.under T).currentCollatRecord.expiration :=
      (hT.now _).trans_lt hnow
    rw [if_pos hnow, if_pos hnow']
    simp only [map_bind]
    rfl
  · have hnow' : ¬ (e.under T).pendingState.now < (e.under T).currentCollatRecord.expiration :=
      fun h => hnow ((hT.now _).symm.trans_lt h)
    rw [if_neg hnow, if_neg hnow']
    rfl

theorem closePaidOff_under (ask : MarketOrder) (mtrx : MarketTransaction) :
    (e.under T).closePaidOff crypto ask mtrx =
      Prod.map (under T) id <$> e.closePaidOff crypto ask mtrx := by
  unfold closePaidOff
  rw [returnCollateral_under e hT]
  split_ifs
  · simp only [map_bind, bind_map_left]
    rfl
  · rfl

omit hT in
theorem closeAtLoss_under (ask : MarketOrder) :
    (e.under T).closeAtLoss ask = Prod.map (under T) id (e.closeAtLoss ask) := by
  unfold closeAtLoss
  split_ifs <;> rfl

theorem payCurrentCover_under (ask : MarketOrder) (mtrx : MarketTransaction) :
    (e.under T).payCurrentCover crypto ask mtrx =
      Prod.map (under T) id <$> e.payCurrentCover crypto ask mtrx := by
  unfold payCurrentCover
  rw [getCurrentCoverDebt_under e hT]
  simp only [getCurrentCoverAge_under e hT, map_bind]
  refine bind_congr fun _ => bind_congr fun _ => bind_congr fun debt => bind_congr fun paid =>
    bind_congr fun _ => bind_congr fun _ => bind_congr fun _ => bind_congr fun _ => ?_
  have hclose : ∀ q : AssetRecord, closeAtLoss { e.under T with quoteAsset := q } =
      fun ask => Prod.map (under T) id (closeAtLoss { e with quoteAsset := q } ask) :=
    fun q => funext fun ask => closeAtLoss_under { e with quoteAsset := q } ask
  have hquote : (e.under T).quoteAsset = e.quoteAsset := rfl
  rw [hquote]
  simp only [hclose, Prod.map_fst, Prod.map_snd, id_eq, closePaidOff_under _ hT, bind_map_left]
  refine bind_congr fun closed => ?_
  simp only [map_pure]
  dsimp only [under, withState, Prod.map, id_eq]
  rw [hT.storeCollateral]

/-! ### Matching -/

omit hT in
theorem bidPrice_under (bid ask : MarketOrder) :
    (e.under T).bidPrice bid ask = e.bidPrice bid ask :=
  rfl

theorem isCalled_under (ask : MarketOrder) (bidPrice : Price) :
    (e.under T).isCalled ask bidPrice = e.isCalled ask bidPrice := by
  have hnow : (e.under T).pendingState.now = e.pendingState.now := hT.now _
  unfold isCalled
  simp only [hnow]
  rfl

theorem tradeShortCover_under (bid ask : MarketOrder) (mtrx : MarketTransaction) :
    (e.under T).tradeShortCover crypto bid ask mtrx =
      Prod.map (under T) id <$> e.tradeShortCover crypto bid ask mtrx := by
  unfold tradeShortCover
  rw [getCurrentCoverDebt_under e hT]
  simp only [payCurrentShort_under _ hT, payCurrentCover_under _ hT, map_bind, bind_map_left,
    map_ite]
  rfl

theorem tradeBidCover_under (bid ask : MarketOrder) (mtrx : MarketTransaction) :
    (e.under T).tradeBidCover crypto bid ask mtrx =
      Prod.map (under T) id <$> e.tradeBidCover crypto bid ask mtrx := by
  unfold tradeBidCover
  rw [getCurrentCoverDebt_under e hT]
  simp only [payCurrentBid_under _ hT, payCurrentCover_under _ hT, map_bind, bind_map_left, map_ite]
  rfl

theorem tradeShortAsk_under (bid ask : MarketOrder) (mtrx : MarketTransaction) :
    (e.under T).tradeShortAsk crypto bid ask mtrx =
      Prod.map (under T) id <$> e.tradeShortAsk crypto bid ask mtrx := by
  unfold tradeShortAsk
  simp only [payCurrentShort_under _ hT, payCurrentAsk_under _ hT, map_bind, bind_map_left, map_ite]
  rfl

theorem tradeBidAsk_under (bid ask : MarketOrder) (mtrx : MarketTransaction) :
    (e.under T).tradeBidAsk crypto bid ask mtrx =
      Prod.map (under T) id <$> e.tradeBidAsk crypto bid ask mtrx := by
  unfold tradeBidAsk
  simp only [payCurrentBid_under _ hT, payCurrentAsk_under _ hT, map_bind, bind_map_left]
  rfl

theorem trade_under (bid ask : MarketOrder) (mtrx : MarketTransaction) :
    (e.under T).trade crypto bid ask mtrx =
      Prod.map (under T) id <$> e.trade crypto bid ask mtrx := by
  unfold trade
  split
  · exact tradeShortCover_under e hT bid ask mtrx
  · exact tradeBidCover_under e hT bid ask mtrx
  · exact tradeShortAsk_under e hT bid ask mtrx
  · exact tradeBidAsk_under e hT bid ask mtrx
  · rfl

omit hT in
theorem collect_under (mtrx : MarketTransaction) :
    (e.under T).collect mtrx = under T <$> e.collect mtrx := by
  unfold collect
  simp only [map_bind, map_ite]
  rfl

theorem matchCurrent_under (bid ask : MarketOrder) :
    (e.under T).matchCurrent crypto bid ask =
      Prod.map (under T) id <$> e.matchCurrent crypto bid ask := by
  unfold matchCurrent
  rw [bidPrice_under, map_bind]
  refine bind_congr fun price => ?_
  cases price with
  | none => rfl
  | some price =>
    dsimp only
    split_ifs
    · rw [isCalled_under e hT, map_bind]
      refine bind_congr fun called => ?_
      split_ifs
      · rw [trade_under e hT]
        simp only [bind_map_left, map_bind, Prod.map_fst, Prod.map_snd, id_eq, collect_under]
        rfl
      · rfl
    · rfl
    · rw [trade_under e hT]
      simp only [bind_map_left, map_bind, Prod.map_fst, Prod.map_snd, id_eq, collect_under]
      rfl

theorem matchRound_under :
    (e.under T).matchRound crypto = Prod.map (under T) id <$> e.matchRound crypto := by
  unfold matchRound
  rw [getNextBid_under, bind_map_left, map_bind]
  refine bind_congr fun e₁ => ?_
  rw [show (e₁.under T).currentBid = e₁.currentBid from rfl]
  cases e₁.currentBid with
  | none => rfl
  | some bid =>
    dsimp only
    rw [getNextAsk_under e₁ hT.now]
    generalize e₁.getNextAsk = e₂
    obtain ⟨c, q, b, qa, ba, feed, bid₂, ask, col, filled, last, vol, bids, asks, shorts, cols⟩ :=
      e₂
    cases ask with
    | none => rfl
    | some ask =>
      dsimp only [under]
      rw [map_bind]
      exact bind_congr fun _ => matchCurrent_under ⟨c, q, b, qa, ba, feed, bid₂, some ask, col,
        filled, filled, vol, bids, asks, shorts, cols⟩ hT bid ask

/-- **The loop** ends over the changed state, wherever it ends. -/
theorem matchLoop_under (rounds : ℕ) :
    (e.under T).matchLoop crypto rounds = under T <$> e.matchLoop crypto rounds := by
  induction rounds generalizing e with
  | zero => rfl
  | succ rounds ih =>
    rw [matchLoop, matchLoop, matchRound_under e hT, bind_map_left, map_bind]
    refine bind_congr fun r => ?_
    dsimp only [Prod.map_fst, Prod.map_snd, id_eq]
    rw [ih, map_ite]
    rfl

end Unseen

end MarketEngine

end LarkX
