import LarkX.Market.Engine
import LarkX.Evaluate.Writes
import LarkX.State.Layers

/-!
# What the market engine writes

The engine of a market writes to a pending state of its own: the two assets of the market,
balances of owners, orders of the market, margin positions at ordered prices, and the status of
the market (`EngineWrite`). `MarketEngine.Walks` is the invariant of a run of the engine; every
function of the engine keeps it, and so does the whole loop. The pending state is then applied
to the state below, so `execute` is a sequence of these writes there (`execute_writes`).
-/

namespace LarkX

/-- An ordered pair: the quote asset has the higher id. -/
def AssetPair.Ordered (p : AssetPair) : Prop :=
  p.base < p.quote

instance (p : AssetPair) : Decidable p.Ordered :=
  inferInstanceAs (Decidable (p.base < p.quote))

/-- A balance under the address of an owner alone: it votes for no slate. -/
def BalanceRecord.Plain (crypto : Crypto) (r : BalanceRecord) : Prop :=
  ∃ owner assetId, crypto.conditionAddress r.condition =
    crypto.conditionAddress (.ofSignature owner assetId 0)

/-- The writes of the engine of a market with the assets `quote` and `base`. -/
inductive EngineWrite (crypto : Crypto) (pair : AssetPair) (quote base : AssetRecord) :
    Write → Prop
  | asset {r : AssetRecord} (h : SameAsset quote r ∨ SameAsset base r) :
      EngineWrite crypto pair quote base (.asset r)
  | balance (r : BalanceRecord) (h : r.Plain crypto) :
      EngineWrite crypto pair quote base (.balance r)
  | bid {key : MarketIndexKey} (r : OrderRecord) (h : key.assetPair = pair) :
      EngineWrite crypto pair quote base (.bid key r)
  | ask {key : MarketIndexKey} (r : OrderRecord) (h : key.assetPair = pair) :
      EngineWrite crypto pair quote base (.ask key r)
  | short {key : MarketIndexKey} (r : OrderRecord) (h : key.assetPair = pair) :
      EngineWrite crypto pair quote base (.short key r)
  | collateral {key : MarketIndexKey} (r : CollateralRecord)
      (h : key.assetPair = pair ∨ key.assetPair.Ordered) :
      EngineWrite crypto pair quote base (.collateral key r)
  /-- The market of an order that is written becomes dirty. -/
  | dirty {p : AssetPair} (h : p = pair ∨ p.Ordered) : EngineWrite crypto pair quote base (.dirty p)
  | marketStatus {s : MarketStatus} (h : s.pair = pair) :
      EngineWrite crypto pair quote base (.marketStatus s)

theorem EngineWrite.closed (crypto : Crypto) (pair : AssetPair) (quote base : AssetRecord) :
    Overlay.Closed (EngineWrite crypto pair quote base) where
  newAccount r h := by cases h
  dirty w p hw hpair := by
    cases hw <;> rename_i h <;> cases hpair
    · exact .dirty (Or.inl h)
    · exact .dirty (Or.inl h)
    · exact .dirty (Or.inl h)
    · exact .dirty h
    · exact .dirty h
  transaction id r digest digest' h := by cases h

theorem SameAsset.refl (r : AssetRecord) : SameAsset r r :=
  ⟨rfl, rfl, rfl, rfl⟩

theorem SameAsset.trans {r₁ r₂ r₃ : AssetRecord} (h : SameAsset r₁ r₂) (h' : SameAsset r₂ r₃) :
    SameAsset r₁ r₃ :=
  ⟨h'.id.trans h.id, h'.symbol.trans h.symbol, h'.issuerAccountId.trans h.issuerAccountId,
    h'.maximumShareSupply.trans h.maximumShareSupply⟩

/-- Two records that come from one are the same asset. -/
theorem SameAsset.change {r₀ r r' : AssetRecord} (h : SameAsset r₀ r) (h' : SameAsset r₀ r') :
    SameAsset r r' :=
  ⟨h'.id.trans h.id.symm, h'.symbol.trans h.symbol.symm,
    h'.issuerAccountId.trans h.issuerAccountId.symm,
    h'.maximumShareSupply.trans h.maximumShareSupply.symm⟩

namespace MarketEngine

open ChainInterface (Writes)

/-- The engine `e` is on its way from `e₀`: the market is the same, its current orders are of
the market, and its pending state has been written to in the allowed ways. -/
structure Walks (crypto : Crypto) (e₀ e : MarketEngine) : Prop where
  pair : e.pair = e₀.pair
  quote : SameAsset e₀.quoteAsset e.quoteAsset
  base : SameAsset e₀.baseAsset e.baseAsset
  feed : e.feedPrice = e₀.feedPrice
  bid : ∀ o, e.currentBid = some o → o.marketIndex.assetPair = e₀.pair
  ask : ∀ o, e.currentAsk = some o → o.marketIndex.assetPair = e₀.pair
  pending : e₀.pendingState.IsPending
  keyed : e₀.pendingState.flat.Keyed crypto
  state : Writes crypto (fun _ w => EngineWrite crypto e₀.pair e₀.quoteAsset e₀.baseAsset w)
    e₀.pendingState e.pendingState

variable {crypto : Crypto} {e₀ e e' : MarketEngine}

/-! ### Walking the books -/

theorem Walks.getNextShort (h : Walks crypto e₀ e) : Walks crypto e₀ e.getNextShort.1 := by
  unfold MarketEngine.getNextShort
  split
  · split
    · rename_i key r rest _ hkey
      refine { h with bid := fun o ho => ?_ }
      cases ho
      exact hkey.trans h.pair
    · exact h
  · exact h

theorem Walks.fetchBid (h : Walks crypto e₀ e) : Walks crypto e₀ e.fetchBid := by
  have hnone : Walks crypto e₀ { e with ordersFilled := e.ordersFilled + 1, currentBid := none } :=
    { h with bid := fun o ho => by cases ho }
  unfold MarketEngine.fetchBid
  dsimp only
  split
  · rename_i key r rest _
    split
    · rename_i hkey
      have htaken : Walks crypto e₀ { e with
          ordersFilled := e.ordersFilled + 1
          currentBid := some ⟨.bidOrder, key, r, 0, 0⟩
          bidItr := rest } := by
        refine { h with bid := fun o ho => ?_ }
        cases ho
        exact hkey.trans h.pair
      split
      · split
        · exact hnone.getNextShort
        · exact htaken
      · exact htaken
    · exact hnone.getNextShort
  · exact hnone.getNextShort

theorem Walks.getNextBid (h : Walks crypto e₀ e) (hnext : e.getNextBid = .ok e') :
    Walks crypto e₀ e' := by
  unfold MarketEngine.getNextBid at hnext
  split at hnext
  · simp only [bind_eq_ok, ite_eq_ok, pure_eq_ok] at hnext
    obtain ⟨quantity, -, ⟨-, rfl⟩ | ⟨-, rfl⟩⟩ := hnext
    · exact h
    · exact h.fetchBid
  · rw [pure_eq_ok] at hnext
    exact hnext ▸ h.fetchBid

theorem Walks.fetchAsk (h : Walks crypto e₀ e) : Walks crypto e₀ e.fetchAsk := by
  unfold MarketEngine.fetchAsk
  split
  · split
    · rename_i hkey
      refine { h with ask := fun o ho => ?_ }
      cases ho
      exact hkey.trans h.pair
    · exact { h with }
  · exact h

theorem Walks.fetchCoverOrAsk (h : Walks crypto e₀ e) : Walks crypto e₀ e.fetchCoverOrAsk := by
  have hnone : Walks crypto e₀ { e with ordersFilled := e.ordersFilled + 1, currentAsk := none } :=
    { h with ask := fun o ho => by cases ho }
  unfold MarketEngine.fetchCoverOrAsk
  dsimp only
  split
  · split
    · split
      · rename_i hkey
        split
        · refine { h with ask := fun o ho => ?_ }
          cases ho
          exact hkey.trans h.pair
        · exact Walks.fetchAsk { hnone with }
      · exact Walks.fetchAsk { hnone with }
    · exact hnone.fetchAsk
  · exact hnone.fetchAsk

theorem Walks.getNextAsk (h : Walks crypto e₀ e) : Walks crypto e₀ e.getNextAsk := by
  unfold MarketEngine.getNextAsk
  split
  · split
    · exact h
    · exact h.fetchCoverOrAsk
  · exact h.fetchCoverOrAsk

/-! ### Settling a trade -/

theorem Walks.isPending (h : Walks crypto e₀ e) : e.pendingState.IsPending :=
  h.state.isPending h.pending

theorem Walks.write (h : Walks crypto e₀ e) {w : Write}
    (hw : EngineWrite crypto e₀.pair e₀.quoteAsset e₀.baseAsset w) :
    Walks crypto e₀ (e.withState (e.pendingState.write crypto w)) :=
  { h with state := h.state.tail hw }

theorem Walks.storeBid (h : Walks crypto e₀ e) {key : MarketIndexKey} (r : OrderRecord)
    (hkey : key.assetPair = e₀.pair) :
    Walks crypto e₀ (e.withState (e.pendingState.storeBidRecord key r)) :=
  ChainInterface.storeBidRecord_eq crypto h.isPending key r ▸ h.write (.bid r hkey)

theorem Walks.storeAsk (h : Walks crypto e₀ e) {key : MarketIndexKey} (r : OrderRecord)
    (hkey : key.assetPair = e₀.pair) :
    Walks crypto e₀ (e.withState (e.pendingState.storeAskRecord key r)) :=
  ChainInterface.storeAskRecord_eq crypto h.isPending key r ▸ h.write (.ask r hkey)

theorem Walks.storeShort (h : Walks crypto e₀ e) {key : MarketIndexKey} (r : OrderRecord)
    (hkey : key.assetPair = e₀.pair) :
    Walks crypto e₀ (e.withState (e.pendingState.storeShortRecord key r)) :=
  ChainInterface.storeShortRecord_eq crypto h.isPending key r ▸ h.write (.short r hkey)

theorem Walks.storeCollateral (h : Walks crypto e₀ e) {key : MarketIndexKey}
    (r : CollateralRecord) (hkey : key.assetPair = e₀.pair ∨ key.assetPair.Ordered) :
    Walks crypto e₀ (e.withState (e.pendingState.storeCollateralRecord key r)) :=
  ChainInterface.storeCollateralRecord_eq crypto h.isPending key r ▸ h.write (.collateral r hkey)

theorem Walks.payOut (h : Walks crypto e₀ e) (owner : Address) (funds : Asset) :
    Walks crypto e₀ (e.payOut crypto owner funds) := by
  unfold MarketEngine.payOut
  dsimp only
  rw [ChainInterface.storeBalanceRecord_eq h.isPending]
  refine h.write (.balance _ ⟨owner, funds.assetId, ?_⟩)
  -- a balance that is there is under its own address
  change crypto.conditionAddress ((e.pendingState.getBalanceRecord _).getD _).condition = _
  rw [ChainInterface.getBalanceRecord_eq]
  cases hr : e.pendingState.flat.balances[crypto.conditionAddress
      (.ofSignature owner funds.assetId 0)]? with
  | none => rfl
  | some r => exact (h.state.keyed h.pending h.keyed).balances _ r hr

/-- An asset of which only the supply and the fees change. -/
private theorem sameAsset_update {r₀ r : AssetRecord} (h : SameAsset r₀ r) (supply fees : ℤ) :
    SameAsset r₀ { r with currentShareSupply := supply, collectedFees := fees } :=
  ⟨h.id, h.symbol, h.issuerAccountId, h.maximumShareSupply⟩

theorem Walks.payCurrentShort (h : Walks crypto e₀ e) {bid : MarketOrder}
    {mtrx : MarketTransaction} (hbid : bid.marketIndex.assetPair = e₀.pair)
    (hpay : e.payCurrentShort bid mtrx = .ok e') : Walks crypto e₀ e' := by
  simp only [MarketEngine.payCurrentShort, bind_eq_ok, ite_eq_ok, pure_eq_ok] at hpay
  obtain ⟨-, -, shortCollateral, -, collateral, -, ⟨-, -, -, rfl⟩ | ⟨-, price, hprice, hpay⟩⟩ := hpay
  · exact { h with
      quote := sameAsset_update h.quote _ _
      bid := fun _ ho => Option.some.inj ho ▸ hbid }
  · obtain ⟨-, -, -, -, -, -, -, -, rfl⟩ := hpay
    have hordered : (MarketIndexKey.mk price bid.getOwner).assetPair.Ordered :=
      (EvaluationState.divAsset_eq_ok hprice).1
    exact { h with
      quote := sameAsset_update h.quote _ _
      bid := fun _ ho => Option.some.inj ho ▸ hbid
      state := ((h.storeCollateral _ (Or.inr hordered)).storeShort _ hbid).state }

theorem Walks.payCurrentBid (h : Walks crypto e₀ e) {bid : MarketOrder}
    {mtrx : MarketTransaction} (hbid : bid.marketIndex.assetPair = e₀.pair)
    (hpay : e.payCurrentBid crypto bid mtrx = .ok e') : Walks crypto e₀ e' := by
  simp only [MarketEngine.payCurrentBid, bind_eq_ok, pure_eq_ok] at hpay
  obtain ⟨-, -, -, -, quantity, -, rest, -, rfl⟩ := hpay
  have hout := h.payOut mtrx.bidOwner ⟨mtrx.bidReceived.amount, e.baseId⟩
  by_cases hrest : rest.amount = 0
  · simp only [if_pos hrest]
    exact { hout with
      quote := sameAsset_update hout.quote _ _
      bid := fun _ ho => Option.some.inj ho ▸ hbid
      state := (hout.storeBid _ hbid).state }
  · simp only [if_neg hrest]
    exact { hout with
      bid := fun _ ho => Option.some.inj ho ▸ hbid
      state := (hout.storeBid _ hbid).state }

theorem Walks.payCurrentAsk (h : Walks crypto e₀ e) {ask : MarketOrder}
    {mtrx : MarketTransaction} {feesToQuote : Bool} (hask : ask.marketIndex.assetPair = e₀.pair)
    (hpay : e.payCurrentAsk crypto ask mtrx feesToQuote = .ok e') : Walks crypto e₀ e' := by
  simp only [MarketEngine.payCurrentAsk, bind_eq_ok, pure_eq_ok] at hpay
  obtain ⟨-, -, -, -, quantity, -, rest, -, rfl⟩ := hpay
  have hout := h.payOut mtrx.askOwner ⟨mtrx.askReceived.amount, e.quoteId⟩
  by_cases hrest : rest.amount = 0
  · cases feesToQuote with
    | true =>
      simp only [if_pos hrest]
      exact { hout with
        quote := sameAsset_update hout.quote _ _
        ask := fun _ ho => Option.some.inj ho ▸ hask
        state := (hout.storeAsk _ hask).state }
    | false =>
      simp only [if_pos hrest]
      exact { hout with
        base := sameAsset_update hout.base _ _
        ask := fun _ ho => Option.some.inj ho ▸ hask
        state := (hout.storeAsk _ hask).state }
  · simp only [if_neg hrest]
    exact { hout with
      ask := fun _ ho => Option.some.inj ho ▸ hask
      state := (hout.storeAsk _ hask).state }

theorem Walks.returnCollateral (h : Walks crypto e₀ e) {ask : MarketOrder}
    {mtrx mtrx' : MarketTransaction}
    (hreturn : e.returnCollateral crypto ask mtrx = .ok (e', mtrx')) : Walks crypto e₀ e' := by
  simp only [MarketEngine.returnCollateral, bind_eq_ok, ite_eq_ok, pure_eq_ok,
    Prod.mk.injEq] at hreturn
  obtain ⟨-, -, -, feesCollected, -, rfl, -⟩ | ⟨-, rfl, -⟩ := hreturn
  · exact h.payOut _ _
  · exact h.payOut _ _

theorem Walks.closeAtLoss (h : Walks crypto e₀ e) {ask : MarketOrder}
    (hask : ask.marketIndex.assetPair = e₀.pair) :
    Walks crypto e₀ (e.closeAtLoss ask).1 ∧
      (e.closeAtLoss ask).2.marketIndex.assetPair = e₀.pair := by
  unfold MarketEngine.closeAtLoss
  split
  · exact ⟨{ h with quote := sameAsset_update h.quote _ _ }, hask⟩
  · exact ⟨h, hask⟩

theorem Walks.closePaidOff (h : Walks crypto e₀ e) {ask ask' : MarketOrder}
    {mtrx mtrx' : MarketTransaction} (hask : ask.marketIndex.assetPair = e₀.pair)
    (hclose : e.closePaidOff crypto ask mtrx = .ok (e', ask', mtrx')) :
    Walks crypto e₀ e' ∧ ask'.marketIndex.assetPair = e₀.pair := by
  simp only [MarketEngine.closePaidOff, bind_eq_ok, ite_eq_ok, pure_eq_ok,
    Prod.mk.injEq] at hclose
  obtain ⟨-, ⟨e₁, mtrx₁⟩, hreturn, rfl, rfl, -⟩ | ⟨-, rfl, rfl, -⟩ := hclose
  · exact ⟨h.returnCollateral hreturn, hask⟩
  · exact ⟨h, hask⟩

theorem Walks.payCurrentCover (h : Walks crypto e₀ e) {ask : MarketOrder}
    {mtrx mtrx' : MarketTransaction} (hask : ask.marketIndex.assetPair = e₀.pair)
    (hpay : e.payCurrentCover crypto ask mtrx = .ok (e', mtrx')) : Walks crypto e₀ e' := by
  simp only [MarketEngine.payCurrentCover, bind_eq_ok, pure_eq_ok, Prod.mk.injEq] at hpay
  obtain ⟨-, -, -, -, totalDebt, -, ⟨principle, interest⟩, -, -, -, -, -, -, -, -, -,
    ⟨e₁, ask₁, mtrx₁⟩, hclose, rfl, rfl⟩ := hpay
  have hpaid : Walks crypto e₀ { e with quoteAsset := { e.quoteAsset with
      currentShareSupply := wrap64 (e.quoteAsset.currentShareSupply - principle.amount)
      collectedFees := wrap64 (e.quoteAsset.collectedFees + interest.amount) } } :=
    { h with quote := sameAsset_update h.quote _ _ }
  have hclosed : Walks crypto e₀ e₁ ∧ ask₁.marketIndex.assetPair = e₀.pair := by
    refine Walks.closePaidOff (hpaid.closeAtLoss ?_).1 (hpaid.closeAtLoss ?_).2 hclose
    · exact hask
    · exact hask
  exact { hclosed.1 with
    ask := fun _ ho => Option.some.inj ho ▸ hclosed.2
    state := (hclosed.1.storeCollateral _ (Or.inl hclosed.2)).state }

/-! ### Matching -/

theorem Walks.trade (h : Walks crypto e₀ e) {bid ask : MarketOrder}
    {mtrx mtrx' : MarketTransaction} (hbid : bid.marketIndex.assetPair = e₀.pair)
    (hask : ask.marketIndex.assetPair = e₀.pair)
    (htrade : e.trade crypto bid ask mtrx = .ok (e', mtrx')) : Walks crypto e₀ e' := by
  unfold MarketEngine.trade at htrade
  split at htrade
  · simp only [tradeShortCover, ite_bind, bind_eq_ok] at htrade
    obtain ⟨_, -, _, -, _, -, _, -, _, -, _, -, e₁, hshort, hcover⟩ := htrade
    exact (h.payCurrentShort hbid hshort).payCurrentCover hask hcover
  · simp only [tradeBidCover, ite_bind, bind_eq_ok] at htrade
    obtain ⟨_, -, _, -, _, -, e₁, hpay, hcover⟩ := htrade
    exact (h.payCurrentBid hbid hpay).payCurrentCover hask hcover
  · simp only [tradeShortAsk, bind_eq_ok, ite_eq_ok, pure_eq_ok, Prod.mk.injEq] at htrade
    obtain ⟨_, -, _, -, _, -, ⟨-, _, -, _, -, e₁, hshort, e₂, haskPay, rfl, -⟩ |
      ⟨-, _, -, _, -, e₁, hshort, e₂, haskPay, rfl, -⟩⟩ := htrade
    · exact (h.payCurrentShort hbid hshort).payCurrentAsk hask haskPay
    · exact (h.payCurrentShort hbid hshort).payCurrentAsk hask haskPay
  · simp only [tradeBidAsk, bind_eq_ok, pure_eq_ok, Prod.mk.injEq] at htrade
    obtain ⟨_, -, _, -, _, -, _, -, _, -, e₁, hbidPay, e₂, haskPay, rfl, -⟩ := htrade
    exact (h.payCurrentBid hbid hbidPay).payCurrentAsk hask haskPay
  · simp only [pure_eq_ok, Prod.mk.injEq] at htrade
    exact htrade.1 ▸ h

theorem Walks.collect (h : Walks crypto e₀ e) {mtrx : MarketTransaction}
    (hcollect : e.collect mtrx = .ok e') : Walks crypto e₀ e' := by
  simp only [MarketEngine.collect, ite_bind, bind_eq_ok, ite_eq_ok, pure_eq_ok] at hcollect
  obtain ⟨_, -, _, -, ⟨-, rfl⟩ | ⟨-, ⟨-, rfl⟩ | ⟨-, rfl⟩⟩⟩ := hcollect
  · exact { h with base := sameAsset_update h.base _ _ }
  · exact { h with quote := sameAsset_update h.quote _ _ }
  · exact { h with }

theorem Walks.matchCurrent (h : Walks crypto e₀ e) {bid ask : MarketOrder} {goOn : Bool}
    (hbid : bid.marketIndex.assetPair = e₀.pair) (hask : ask.marketIndex.assetPair = e₀.pair)
    (hmatch : e.matchCurrent crypto bid ask = .ok (e', goOn)) : Walks crypto e₀ e' := by
  simp only [MarketEngine.matchCurrent, bind_eq_ok] at hmatch
  obtain ⟨price, -, hmatch⟩ := hmatch
  cases price with
  | none =>
    simp only [pure_eq_ok, Prod.mk.injEq] at hmatch
    exact hmatch.1 ▸ { h with bid := fun _ ho => by cases ho }
  | some price =>
    simp only [ite_eq_ok, bind_eq_ok, pure_eq_ok, Prod.mk.injEq] at hmatch
    obtain ⟨-, _, -, ⟨-, ⟨e₁, _⟩, htrade, e₂, hcollect, rfl, -⟩ | ⟨-, rfl, -⟩⟩ |
      ⟨-, ⟨-, rfl, -⟩ | ⟨-, ⟨e₁, _⟩, htrade, e₂, hcollect, rfl, -⟩⟩ := hmatch
    · exact (h.trade hbid hask htrade).collect hcollect
    · exact { h with ask := fun _ ho => by cases ho }
    · exact h
    · exact (h.trade hbid hask htrade).collect hcollect

theorem Walks.matchRound (h : Walks crypto e₀ e) {goOn : Bool}
    (hround : e.matchRound crypto = .ok (e', goOn)) : Walks crypto e₀ e' := by
  simp only [MarketEngine.matchRound, bind_eq_ok] at hround
  obtain ⟨e₁, hnext, hround⟩ := hround
  have h₁ := h.getNextBid hnext
  split at hround
  · simp only [pure_eq_ok, Prod.mk.injEq] at hround
    exact hround.1 ▸ h₁
  · rename_i bid hbid
    split at hround
    · simp only [pure_eq_ok, Prod.mk.injEq] at hround
      exact hround.1 ▸ h₁.getNextAsk
    · rename_i ask hask
      simp only [bind_eq_ok] at hround
      obtain ⟨_, -, hround⟩ := hround
      have h₂ : Walks crypto e₀ { e₁.getNextAsk with
          lastOrdersFilled := e₁.getNextAsk.ordersFilled } := { h₁.getNextAsk with }
      exact h₂.matchCurrent (h₁.bid bid hbid) (h₁.getNextAsk.ask ask hask) hround

theorem Walks.matchLoop (rounds : ℕ) (h : Walks crypto e₀ e)
    (hloop : MarketEngine.matchLoop crypto rounds e = .ok e') : Walks crypto e₀ e' := by
  induction rounds generalizing e with
  | zero =>
    simp only [MarketEngine.matchLoop, pure_eq_ok] at hloop
    exact hloop ▸ h
  | succ rounds ih =>
    simp only [MarketEngine.matchLoop, bind_eq_ok, ite_eq_ok, pure_eq_ok] at hloop
    obtain ⟨⟨e₁, goOn⟩, hround, ⟨-, hloop⟩ | ⟨-, rfl⟩⟩ := hloop
    · exact ih (h.matchRound hround) hloop
    · exact h.matchRound hround

/-- The orders of the market, the first ones fetched, and the whole loop. -/
private theorem Walks.matched (h : Walks crypto e₀ e) {e₁ : MarketEngine} {rounds : ℕ}
    (hnext : e.getNextBid = .ok e₁)
    (hloop : MarketEngine.matchLoop crypto rounds e₁.getNextAsk = .ok e') : Walks crypto e₀ e' :=
  (h.getNextBid hnext).getNextAsk.matchLoop rounds hloop

/-! ### A run of the engine -/

variable {c c' : ChainInterface} {quoteId baseId : ℤ}

/-- The engine of an ordered market whose assets exist. -/
structure Opened (c : ChainInterface) (quoteId baseId : ℤ) (e : MarketEngine) : Prop where
  pendingState : e.pendingState = c.push
  pair : e.pair = ⟨quoteId, baseId⟩
  quote : c.getAssetRecord quoteId = some e.quoteAsset
  base : c.getAssetRecord baseId = some e.baseAsset
  bid : e.currentBid = none
  ask : e.currentAsk = none

/-- An empty pending state reads as the state below it. -/
theorem getAssetRecord_push (c : ChainInterface) (id : ℤ) :
    c.push.getAssetRecord id = c.getAssetRecord id := by
  rw [ChainInterface.getAssetRecord_eq, ChainInterface.getAssetRecord_eq]
  change (Table.above (∅ : Table ℤ AssetRecord) c.flat.assets)[id]? = _
  rw [Table.empty_above]

theorem openMarket_eq_ok (h : openMarket c quoteId baseId = .ok e) :
    Opened c quoteId baseId e ∧ baseId < quoteId := by
  simp only [openMarket, ite_bind, bind_eq_ok, orThrow_eq_ok, pure_eq_ok,
    getAssetRecord_push] at h
  obtain ⟨quoteAsset, hquote, baseAsset, hbase, _, -, _, hprice, feed, -, rfl⟩ := h
  simp only [zeroPrice, bind_eq_ok, require_eq_ok] at hprice
  obtain ⟨_, hlt, -⟩ := hprice
  exact ⟨⟨rfl, rfl, hquote, hbase, rfl, rfl⟩, hlt⟩

theorem Opened.walks (hkeyed : c.flat.Keyed crypto) (h : Opened c quoteId baseId e) :
    Walks crypto e e where
  pair := rfl
  quote := .refl _
  base := .refl _
  feed := rfl
  bid o ho := by rw [h.bid] at ho; cases ho
  ask o ho := by rw [h.ask] at ho; cases ho
  pending := h.pendingState ▸ List.cons_ne_nil _ _
  keyed := h.pendingState ▸ Tables.Keyed.empty.above hkeyed
  state := .refl

/-- The writes of a run of the engine to the state below its own. -/
inductive MarketWrite (crypto : Crypto) (pair : AssetPair) (c : ChainInterface) : Write → Prop
  | asset {id : ℤ} {old r : AssetRecord} (hold : c.flat.assets[id]? = some old)
      (hsame : SameAsset old r) : MarketWrite crypto pair c (.asset r)
  | balance (r : BalanceRecord) (h : r.Plain crypto) : MarketWrite crypto pair c (.balance r)
  | bid {key : MarketIndexKey} (r : OrderRecord) (h : key.assetPair = pair) :
      MarketWrite crypto pair c (.bid key r)
  | ask {key : MarketIndexKey} (r : OrderRecord) (h : key.assetPair = pair) :
      MarketWrite crypto pair c (.ask key r)
  | short {key : MarketIndexKey} (r : OrderRecord) (h : key.assetPair = pair) :
      MarketWrite crypto pair c (.short key r)
  | collateral {key : MarketIndexKey} (r : CollateralRecord)
      (h : key.assetPair = pair ∨ key.assetPair.Ordered) : MarketWrite crypto pair c (.collateral key r)
  | dirty {p : AssetPair} (h : p = pair ∨ p.Ordered) : MarketWrite crypto pair c (.dirty p)
  /-- The dirty markets of the engine, as a property of the state below. -/
  | dirtyMarkets {d : KeySet AssetPair} (h : ∀ p, d[p]? = some () → p = pair ∨ p.Ordered) :
      MarketWrite crypto pair c (.property .dirtyMarkets (.markets d))
  | marketStatus {s : MarketStatus} (h : s.pair = pair) : MarketWrite crypto pair c (.marketStatus s)

/-- The two assets of the market are the ones the engine started with, up to their amounts. -/
private def AssetsOf (e : MarketEngine) (c : ChainInterface) : Prop :=
  (∃ r, c.flat.assets[e.quoteAsset.id]? = some r ∧ SameAsset e.quoteAsset r) ∧
    ∃ r, c.flat.assets[e.baseAsset.id]? = some r ∧ SameAsset e.baseAsset r

/-- Each write that stands in the state of the engine is a write to the state below. -/
private theorem engineWrite_marketWrite (hold : AssetsOf e c) {w : Write}
    (h : EngineWrite crypto e.pair e.quoteAsset e.baseAsset w) : MarketWrite crypto e.pair c w := by
  cases h with
  | asset h =>
    obtain ⟨⟨q, hq, hsq⟩, b, hb, hsb⟩ := hold
    rcases h with h | h
    · exact .asset hq (hsq.change h)
    · exact .asset hb (hsb.change h)
  | balance r h => exact .balance r h
  | bid r h => exact .bid r h
  | ask r h => exact .ask r h
  | short r h => exact .short r h
  | collateral r h => exact .collateral r h
  | dirty h => exact .dirty h
  | marketStatus h => exact .marketStatus h

/-- A write of the engine keeps the two assets what they are. -/
private theorem AssetsOf.write (hp : c.IsPending) (hne : e.quoteAsset.id ≠ e.baseAsset.id)
    (h : AssetsOf e c) {w : Write}
    (hasset : ∀ r, w = .asset r → SameAsset e.quoteAsset r ∨ SameAsset e.baseAsset r) :
    AssetsOf e (c.write crypto w) := by
  obtain ⟨⟨q, hq, hsq⟩, b, hb, hsb⟩ := h
  rw [AssetsOf, ChainInterface.flat_write hp]
  cases w with
  | asset r =>
    have hins : (c.flat.write crypto (.asset r)).assets = c.flat.assets.insert r.id r := rfl
    rw [hins]
    rcases hasset r rfl with hr | hr
    · rw [hr.id]
      exact ⟨⟨r, Table.getElem?_insert_same .., hr⟩, b,
        (Table.getElem?_insert_of_ne _ _ hne.symm).trans hb, hsb⟩
    · rw [hr.id]
      exact ⟨⟨q, (Table.getElem?_insert_of_ne _ _ hne).trans hq, hsq⟩, r,
        Table.getElem?_insert_same .., hr⟩
  | _ => exact ⟨⟨q, hq, hsq⟩, b, hb, hsb⟩

theorem marketStatusOf_pair {stat : MarketStatus} (hkeyed : c.flat.Keyed crypto)
    (h : marketStatusOf c quoteId baseId = .ok stat) : stat.pair = ⟨quoteId, baseId⟩ := by
  unfold marketStatusOf at h
  split at h
  · rename_i hget
    rw [pure_eq_ok] at h
    rw [ChainInterface.getMarketStatus_eq] at hget
    exact h ▸ hkeyed.marketStatuses _ _ hget
  · simp only [MarketStatus.ofMarket, bind_eq_ok, pure_eq_ok] at h
    obtain ⟨_, -, rfl⟩ := h
    rfl

/-- The assets stored at the end of a run. -/
private theorem Walks.assetsStored (h : Walks crypto e₀ e) :
    Writes crypto (fun _ w => EngineWrite crypto e₀.pair e₀.quoteAsset e₀.baseAsset w) e₀.pendingState
      ((e.pendingState.storeAssetRecord e.quoteAsset).storeAssetRecord e.baseAsset) := by
  have h₁ := h.state.tail (.asset (Or.inl h.quote))
  rw [← ChainInterface.storeAssetRecord_eq crypto h.isPending] at h₁
  have h₂ := h₁.tail (.asset (Or.inr h.base))
  rwa [← ChainInterface.storeAssetRecord_eq crypto (h₁.isPending h.pending)] at h₂

/-- **What a run of the engine writes** to the pending state of its own, once its orders are
matched. -/
theorem Opened.stored (hkeyed : c.flat.Keyed crypto) (hopened : Opened c quoteId baseId e)
    {e₁ e₂ : MarketEngine} (hnext : e.getNextBid = .ok e₁) {rounds : ℕ}
    (hloop : matchLoop crypto rounds e₁.getNextAsk = .ok e₂) {stat : MarketStatus}
    (hstat : marketStatusOf ((e₂.pendingState.storeAssetRecord e₂.quoteAsset).storeAssetRecord
      e₂.baseAsset) e₂.quoteId e₂.baseId = .ok stat) :
    Writes crypto (fun _ w => EngineWrite crypto e.pair e.quoteAsset e.baseAsset w) c.push
      (((e₂.pendingState.storeAssetRecord e₂.quoteAsset).storeAssetRecord
        e₂.baseAsset).storeMarketStatus
          { stat.updateFeedPrice e₂.feedPrice with lastError := none }) := by
  have hwalks := (hopened.walks hkeyed).matched hnext hloop
  have hassets := hwalks.assetsStored
  rw [hopened.pendingState] at hassets
  have hpush : c.push.IsPending := List.cons_ne_nil _ _
  have hpair : stat.pair = e.pair :=
    (marketStatusOf_pair (hassets.keyed hpush (Tables.Keyed.empty.above hkeyed)) hstat).trans
      hwalks.pair
  have hstored := hassets.tail (w := .marketStatus { stat.updateFeedPrice e₂.feedPrice with
    lastError := none }) (.marketStatus hpair)
  rwa [← ChainInterface.storeMarketStatus_eq crypto (hassets.isPending hpush)] at hstored

/-- **What a run of the engine writes** to the state below, once it is applied. -/
theorem matchMarket_writes (hp : c.IsPending) (hkeyed : c.flat.Keyed crypto)
    (hopen : openMarket c quoteId baseId = .ok e) (h : e.matchMarket crypto = .ok c') :
    Writes crypto (MarketWrite crypto ⟨quoteId, baseId⟩) c c' := by
  obtain ⟨hopened, hlt⟩ := openMarket_eq_ok hopen
  have hquote := hopened.quote
  have hbase := hopened.base
  rw [ChainInterface.getAssetRecord_eq] at hquote hbase
  have hne : e.quoteAsset.id ≠ e.baseAsset.id := by
    rw [hkeyed.assets _ _ hquote, hkeyed.assets _ _ hbase]
    exact hlt.ne'
  simp only [matchMarket, bind_eq_ok] at h
  obtain ⟨_, -, e₁, hnext, e₂, hloop, stat, hstat, _, -, happly⟩ := h
  have hstored := hopened.stored hkeyed hnext hloop hstat
  have hdown := ChainInterface.applyChanges_writes
    (EngineWrite.closed crypto e.pair e.quoteAsset e.baseAsset) hp hstored happly
  have hstart : AssetsOf e c := ⟨⟨_, hkeyed.assets _ _ hquote ▸ hquote, .refl _⟩,
    _, hkeyed.assets _ _ hbase ▸ hbase, .refl _⟩
  rw [← hopened.pair]
  refine (hdown.along (I := AssetsOf e) (fun c₁ w hp₁ hof hw => hof.write hp₁ hne ?_) hp
    hstart).mono fun c₁ w _ hw => ?_
  · rintro r rfl
    cases hw with
    | same hw =>
      cases hw with
      | asset hw => exact hw
  · obtain ⟨-, hof, hw⟩ := hw
    cases hw with
    | same hw => exact engineWrite_marketWrite hof hw
    | dirtyMarkets hd =>
      refine .dirtyMarkets fun p hget => ?_
      cases hd p hget with
      | dirty h => exact h

/-- What the record of an error writes. -/
theorem recordError_writes (hp : c.IsPending) (hkeyed : c.flat.Keyed crypto)
    {feedPrice : Option Price} {error : Error}
    (h : recordError c quoteId baseId feedPrice error = .ok c') :
    Writes crypto (MarketWrite crypto ⟨quoteId, baseId⟩) c c' := by
  simp only [recordError, bind_eq_ok, pure_eq_ok] at h
  obtain ⟨stat, hstat, rfl⟩ := h
  rw [ChainInterface.storeMarketStatus_eq crypto hp]
  have hpair := marketStatusOf_pair hkeyed hstat
  refine .single (.marketStatus ?_)
  exact hpair

/-- **What the engine writes**, whether matching returns or throws. -/
theorem execute_writes (hp : c.IsPending) (hkeyed : c.flat.Keyed crypto)
    (h : execute crypto c quoteId baseId = .ok c') :
    Writes crypto (MarketWrite crypto ⟨quoteId, baseId⟩) c c' := by
  unfold execute at h
  split at h
  · exact recordError_writes hp hkeyed h
  · rename_i e hopen
    split at h
    · rename_i hmatch
      rw [pure_eq_ok] at h
      exact h ▸ matchMarket_writes hp hkeyed hopen hmatch
    · exact recordError_writes hp hkeyed h

end MarketEngine

/-! ### The dirty markets -/

open ChainInterface (Writes)

variable {crypto : Crypto} {c c' : ChainInterface}

/-- The pair of each market that is executed is an entry of the dirty set of the database. -/
theorem executeMarkets_writes (hp : c.IsPending) (hkeyed : c.flat.Keyed crypto)
    (h : executeMarkets crypto c = .ok c') :
    Writes crypto (fun c₁ w => ∃ pair : AssetPair,
      { c with overlays := [] }.getDirtyMarkets[pair]? = some () ∧ pair.Ordered ∧
        MarketEngine.MarketWrite crypto pair c₁ w) c c' := by
  have key : Writes crypto (fun c₁ w => ∃ pair : AssetPair,
      { c with overlays := [] }.getDirtyMarkets[pair]? = some () ∧ pair.Ordered ∧
        MarketEngine.MarketWrite crypto pair c₁ w) c c' ∧ c'.flat.Keyed crypto := by
    refine foldlM_induction (P := fun c₁ => Writes crypto (fun c₁ w => ∃ pair : AssetPair,
      { c with overlays := [] }.getDirtyMarkets[pair]? = some () ∧ pair.Ordered ∧
        MarketEngine.MarketWrite crypto pair c₁ w) c c₁ ∧ c₁.flat.Keyed crypto) ?_ ⟨.refl, hkeyed⟩ h
    rintro c₁ ⟨pair, ⟨⟩⟩ c₂ hmem ⟨hw, hk⟩ hexec
    simp only [bind_eq_ok, require_eq_ok] at hexec
    obtain ⟨_, hlt, hexec⟩ := hexec
    have hstep := MarketEngine.execute_writes (hw.isPending hp) hk hexec
    refine ⟨hw.trans (hstep.mono fun _ w _ hm => ⟨pair, Table.mem_toList.1 hmem, hlt, hm⟩), ?_⟩
    exact hstep.keyed (hw.isPending hp) hk
  exact key.1

/-- **When every dirty market is ordered, `executeMarkets` returns.** An error of the engine is
kept in the status of the market. -/
theorem executeMarkets_returns
    (h : ∀ pair : AssetPair, { c with overlays := [] }.getDirtyMarkets[pair]? = some () →
      pair.Ordered) : ∃ c', executeMarkets crypto c = .ok c' := by
  refine (foldlM_eq_ok (P := fun _ => True) (fun c₁ e hmem _ => ?_) trivial).imp fun _ h => h.1
  have hlt : e.1.base < e.1.quote := h e.1 (Table.mem_toList.1 hmem)
  have hstatus : ∀ feed error, ∃ c₂,
      MarketEngine.recordError c₁ e.1.quote e.1.base feed error = .ok c₂ := by
    intro feed error
    have hstat : ∃ stat, MarketEngine.marketStatusOf c₁ e.1.quote e.1.base = .ok stat := by
      unfold MarketEngine.marketStatusOf
      split
      · exact ⟨_, rfl⟩
      · simp only [MarketStatus.ofMarket, bind_eq_ok, require_eq_ok, pure_eq_ok]
        exact ⟨_, (), hlt, rfl⟩
    obtain ⟨stat, hstat⟩ := hstat
    simp only [MarketEngine.recordError, bind_eq_ok, pure_eq_ok]
    exact ⟨_, stat, hstat, rfl⟩
  have hexec : ∃ c₂, MarketEngine.execute crypto c₁ e.1.quote e.1.base = .ok c₂ := by
    unfold MarketEngine.execute
    split
    · exact hstatus ..
    · split
      · exact ⟨_, rfl⟩
      · exact hstatus ..
  obtain ⟨c₂, hc₂⟩ := hexec
  refine ⟨c₂, ?_, trivial⟩
  simp only [bind_eq_ok, require_eq_ok]
  exact ⟨(), hlt, hc₂⟩

/-- Conversely, one market that is not ordered makes it throw. -/
theorem executeMarkets_ordered (h : executeMarkets crypto c = .ok c') {pair : AssetPair}
    (hdirty : { c with overlays := [] }.getDirtyMarkets[pair]? = some ()) : pair.Ordered := by
  obtain ⟨c₁, c₂, hround⟩ := foldlM_ok_of_mem h (Table.mem_toList.2 hdirty)
  simp only [bind_eq_ok, require_eq_ok] at hround
  obtain ⟨-, hlt, -⟩ := hround
  exact hlt

end LarkX
