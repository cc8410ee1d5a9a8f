import LarkX.Market.Conserved
import LarkX.Market.Unseen

/-!
# Markets that fail

`execute` in place: the engine has a pending state of its own, so what it stores reaches the state
below only when `apply_changes` runs, as its last statement; what `apply_changes` had stored before
it threw would stay. `executeInPlace` keeps this, and the trades of the engine with it, and
`executeMarketsInPlace` is the loop over the dirty markets.

A market that fails leaves the state with one more market status, and nothing else
(`executeInPlace_failed`): applying the state of an engine cannot throw, as it holds no transaction.
The other markets neither see that status nor disturb it (`foldlM_statusAt`).
-/

namespace LarkX

namespace ChainInterface

/-- The status of a market stored in one of the pending states, counted from the top. -/
def statusAt (layer : ℕ) (s : MarketStatus) (c : ChainInterface) : ChainInterface :=
  { c with overlays := c.overlays.modify layer (·.storeMarketStatus s) }

variable {crypto : Crypto} {c c' : ChainInterface} {s : MarketStatus}

theorem statusAt_zero (hp : c.IsPending) (s : MarketStatus) :
    c.statusAt 0 s = c.storeMarketStatus s := by
  obtain ⟨os, db, now, n⟩ := c
  cases os with
  | nil => exact absurd rfl hp
  | cons o os => rfl

/-! ### What a status changes -/

theorem statusAt_push (c : ChainInterface) (layer : ℕ) (s : MarketStatus) :
    (c.statusAt layer s).push = c.push.statusAt (layer + 1) s :=
  rfl

theorem update_statusAt_one (f : Ledger → Ledger) (g : Overlay → Overlay) :
    (c.statusAt 1 s).update f g = (c.update f g).statusAt 1 s := by
  obtain ⟨_ | ⟨o, os⟩, db, now, n⟩ := c <;> rfl

theorem update_statusAt_zero (f : Ledger → Ledger) {g : Overlay → Overlay}
    (hg : ∀ o, g (o.storeMarketStatus s) = (g o).storeMarketStatus s) :
    (c.statusAt 0 s).update f g = (c.update f g).statusAt 0 s := by
  obtain ⟨_ | ⟨o, os⟩, db, now, n⟩ := c
  · rfl
  · exact congrArg (fun o => (⟨o :: os, db, now, n⟩ : ChainInterface)) (hg o)

/-- Tables other than the market statuses read the same. -/
theorem lookup_statusAt {κ α : Type} [Ord κ] [Std.TransOrd κ] {table : Tables → Table κ α}
    (htable : ∀ o : Overlay, table (o.storeMarketStatus s).toTables = table o.toTables)
    (layer : ℕ) (k : κ) : (c.statusAt layer s).lookup table k = c.lookup table k := by
  obtain ⟨os, db, now, n⟩ := c
  change lookupIn table db k (os.modify layer _) = lookupIn table db k os
  induction os generalizing layer with
  | nil => cases layer <;> rfl
  | cons o os ih =>
    cases layer with
    | zero =>
      change lookupIn table db k (o.storeMarketStatus s :: os) = _
      rw [lookupIn, lookupIn, htable]
    | succ layer =>
      change lookupIn table db k (o :: os.modify layer _) = _
      rw [lookupIn, lookupIn, ih]

/-- Other markets read the same status. -/
theorem getMarketStatus_statusAt {pair : AssetPair} (hne : pair ≠ s.pair) (layer : ℕ) :
    (c.statusAt layer s).getMarketStatus pair = c.getMarketStatus pair := by
  obtain ⟨os, db, now, n⟩ := c
  change lookupIn Tables.marketStatuses db pair (os.modify layer _) = lookupIn _ db pair os
  induction os generalizing layer with
  | nil => cases layer <;> rfl
  | cons o os ih =>
    cases layer with
    | zero =>
      change lookupIn Tables.marketStatuses db pair (o.storeMarketStatus s :: os) = _
      have hget : (o.storeMarketStatus s).marketStatuses[pair]? = o.marketStatuses[pair]? :=
        Table.getElem?_insert_of_ne _ _ hne
      rw [lookupIn, lookupIn, hget]
    | succ layer =>
      change lookupIn Tables.marketStatuses db pair (o :: os.modify layer _) = _
      rw [lookupIn, lookupIn, ih]

/-- **Matching** does not see a status below the state of the engine. -/
theorem unseen_statusAt (crypto : Crypto) (s : MarketStatus) :
    MarketEngine.Unseen crypto (statusAt 1 s) where
  now _ := rfl
  balance _ _ := lookup_statusAt (fun _ => rfl) 1 _
  collateral _ _ := lookup_statusAt (fun _ => rfl) 1 _
  storeAsset _ _ := update_statusAt_one _ _
  storeBalance _ _ := update_statusAt_one _ _
  storeBid _ _ _ := update_statusAt_one _ _
  storeAsk _ _ _ := update_statusAt_one _ _
  storeShort _ _ _ := update_statusAt_one _ _
  storeCollateral _ _ _ := update_statusAt_one _ _

/-! ### Applying the state of an engine -/

/-- Folding the stores of a table over a state with the status. -/
private theorem foldl_statusAt {κ α : Type} [Ord κ] [Std.TransOrd κ] [Std.LawfulEqOrd κ]
    {t : Table κ α} {f : ChainInterface → κ → α → ChainInterface}
    (hf : ∀ c k v, t[k]? = some v → f (c.statusAt 0 s) k v = (f c k v).statusAt 0 s)
    (c : ChainInterface) : t.foldl f (c.statusAt 0 s) = (t.foldl f c).statusAt 0 s :=
  (Table.foldl_hom (statusAt 0 s) t (fun c k v h => (hf c k v h).symm) c).symm

theorem applyRecords_statusAt (o : Overlay) (c : ChainInterface) :
    applyRecords crypto o (c.statusAt 0 s) = (applyRecords crypto o c).statusAt 0 s := by
  unfold applyRecords
  dsimp only
  rw [foldl_statusAt (f := fun c p v => c.setProperty p v)
      fun _ _ _ _ => update_statusAt_zero _ fun _ => rfl,
    foldl_statusAt (f := fun c _ r => c.storeAssetRecord r)
      fun _ _ _ _ => update_statusAt_zero _ fun _ => rfl,
    foldl_statusAt (f := fun c _ r => c.storeAccountRecord crypto r)
      fun _ _ _ _ => update_statusAt_zero _ fun _ => rfl,
    foldl_statusAt (f := fun c _ r => c.storeBalanceRecord crypto r)
      fun _ _ _ _ => update_statusAt_zero _ fun _ => rfl,
    foldl_statusAt (f := fun c key r => c.storeBidRecord key r)
      fun _ _ _ _ => update_statusAt_zero _ fun _ => rfl,
    foldl_statusAt (f := fun c key r => c.storeAskRecord key r)
      fun _ _ _ _ => update_statusAt_zero _ fun _ => rfl,
    foldl_statusAt (f := fun c key r => c.storeShortRecord key r)
      fun _ _ _ _ => update_statusAt_zero _ fun _ => rfl,
    foldl_statusAt (f := fun c key r => c.storeCollateralRecord key r)
      fun _ _ _ _ => update_statusAt_zero _ fun _ => rfl]

/-- Statuses of two markets are stored in either order. -/
theorem storeMarketStatus_statusAt {s' : MarketStatus} (hne : s'.pair ≠ s.pair) :
    (c.statusAt 0 s).storeMarketStatus s' = (c.storeMarketStatus s').statusAt 0 s := by
  refine update_statusAt_zero _ fun o => ?_
  have hcomm := Table.insert_insert_comm o.marketStatuses s s' hne
  exact congrArg (fun t => { o with marketStatuses := t }) hcomm

theorem applyRest_statusAt {o : Overlay}
    (hne : ∀ (pair : AssetPair) s', o.marketStatuses[pair]? = some s' → s'.pair ≠ s.pair)
    (c : ChainInterface) :
    applyRest o (c.statusAt 0 s) = (applyRest o c).statusAt 0 s := by
  unfold applyRest
  dsimp only
  rw [foldl_statusAt (f := fun c id slate => c.storeDelegateSlate id slate)
      fun _ _ _ _ => update_statusAt_zero _ fun _ => rfl,
    foldl_statusAt (f := fun c _ r => c.storeSlotRecord r)
      fun _ _ _ _ => update_statusAt_zero _ fun _ => rfl,
    foldl_statusAt (f := fun c _ s => c.storeMarketStatus s)
      fun _ _ _ h => storeMarketStatus_statusAt (hne _ _ h),
    foldl_statusAt (f := fun c _ r => c.setFeed r)
      fun _ _ _ _ => update_statusAt_zero _ fun _ => rfl]
  exact update_statusAt_zero _ fun _ => rfl

/-- **A pending state without transactions** is applied without an error. -/
theorem applyChanges_of_no_transactions (crypto : Crypto) (h : c.top.transactions = ∅) :
    ∃ c', c.applyChanges crypto = .ok c' := by
  obtain ⟨_ | ⟨o, os⟩, db, now, n⟩ := c
  · exact ⟨_, rfl⟩
  · have ho : o.transactions = ∅ := h
    unfold applyChanges
    dsimp only
    rw [applyOverlay, applyTransactions, ho]
    exact ⟨_, rfl⟩

/-- It is applied over the status of a market it has nothing about. -/
theorem applyChanges_statusAt (crypto : Crypto) (h : c.top.transactions = ∅)
    (hne : ∀ (pair : AssetPair) s', c.top.marketStatuses[pair]? = some s' → s'.pair ≠ s.pair) :
    (c.statusAt 1 s).applyChanges crypto = statusAt 0 s <$> c.applyChanges crypto := by
  obtain ⟨_ | ⟨o, os⟩, db, now, n⟩ := c
  · rfl
  · have ho : o.transactions = ∅ := h
    change applyOverlay crypto o (statusAt 0 s ⟨os, db, now, n⟩) =
      statusAt 0 s <$> applyOverlay crypto o ⟨os, db, now, n⟩
    rw [applyOverlay, applyOverlay, applyTransactions, applyTransactions, ho,
      applyRecords_statusAt]
    exact congrArg Except.ok (applyRest_statusAt hne _)

end ChainInterface

namespace MarketEngine

open ChainInterface (Writes statusAt)

variable (crypto : Crypto)

/-! ### The trades of a run -/

/-- The trade `push_market_transaction` is called with in a round of two orders, if it is. -/
def pushedTrade (e : MarketEngine) (bid ask : MarketOrder) :
    Fallible (Option MarketTransaction) := do
  match ← e.bidPrice bid ask with
  | none => return none
  | some bidPrice => do
    let mtrx : MarketTransaction :=
      { bidOwner := bid.getOwner, askOwner := ask.getOwner, bidPrice, askPrice := ask.getPrice }
    if ask.type = .coverOrder then do
      if ← e.isCalled ask bidPrice then do
        let (_, mtrx) ← e.trade crypto bid ask { mtrx with askPrice := bidPrice }
        return some mtrx
      else return none
    else if bidPrice.lt ask.getPrice then return none
    else do
      let (_, mtrx) ← e.trade crypto bid ask mtrx
      return some mtrx

/-- What a round appends to `_market_transactions`. -/
def roundTrades (e : MarketEngine) : Fallible (List MarketTransaction) := do
  let e ← e.getNextBid
  match e.currentBid with
  | none => return []
  | some bid =>
    let e := e.getNextAsk
    match e.currentAsk with
    | none => return []
    | some ask => do
      let mtrx ← e.counted.pushedTrade crypto bid ask
      return mtrx.toList

/-- The loop, with the trades it appends to `_market_transactions`. -/
def matchLoopTrades : ℕ → MarketEngine → Fallible (MarketEngine × List MarketTransaction)
  | 0, e => return (e, [])
  | rounds + 1, e => do
    let (e', goOn) ← e.matchRound crypto
    let trades ← e.roundTrades crypto
    if goOn then do
      let (e', later) ← matchLoopTrades rounds e'
      return (e', trades ++ later)
    else return (e', trades)

/-- `execute` from the feed price up to `apply_changes`: the pending state of the engine, and its
trades. -/
def runMarket (e : MarketEngine) : Fallible (ChainInterface × List MarketTransaction) := do
  e.checkFeed
  let e ← e.getNextBid
  let e := e.getNextAsk
  let (e, trades) ← e.matchLoopTrades crypto (e.entriesLeft + 2)
  let c := e.pendingState.storeAssetRecord e.quoteAsset
  let c := c.storeAssetRecord e.baseAsset
  let stat ← marketStatusOf c e.quoteId e.baseId
  let c := c.storeMarketStatus { stat.updateFeedPrice e.feedPrice with lastError := none }
  e.updateMarketHistory
  return (c, trades)

/-- `execute`, with the state below as it stands when the engine throws. The result is that state
and the trades of the engine, none when `execute` returns false. -/
def executeInPlace (c : ChainInterface) (quoteId baseId : ℤ) :
    Fallible (ChainInterface × Option (List MarketTransaction)) :=
  match openMarket c quoteId baseId with
  | .error error => return (← recordError c quoteId baseId none error, none)
  | .ok e =>
    match e.runMarket crypto with
    | .error error => return (← recordError c quoteId baseId e.feedPrice error, none)
    | .ok (own, trades) =>
      match own.applyChanges crypto with
      | .ok c' => return (c', some trades)
      | .error error => do
        let left := ChainInterface.applyOverlayThrown crypto own.top own.below
        return (← recordError left quoteId baseId e.feedPrice error, none)

end MarketEngine

/-- A step of `execute_markets`: the trades of the markets that returned true are collected. -/
def executeMarketInPlace (crypto : Crypto)
    (s : ChainInterface × List MarketTransaction) (pair : AssetPair) :
    Fallible (ChainInterface × List MarketTransaction) := do
  require (pair.base < pair.quote) (.assertion "market_pair.first > market_pair.second")
  let (c, trades) ← MarketEngine.executeInPlace crypto s.1 pair.quote pair.base
  return (c, s.2 ++ trades.getD [])

/-- `execute_markets`, with the market transactions it sets. -/
def executeMarketsInPlace (crypto : Crypto) (c : ChainInterface) :
    Fallible (ChainInterface × List MarketTransaction) :=
  ({ c with overlays := [] }.getDirtyMarkets.toList.map Prod.fst).foldlM
    (executeMarketInPlace crypto) (c, [])

namespace MarketEngine

open ChainInterface (Writes statusAt)

variable {crypto : Crypto} {c c' : ChainInterface} {quoteId baseId : ℤ} {e e' : MarketEngine}
  {s : MarketStatus}

/-! ### The run in place is the run -/

/-- A trade that is made is pushed. -/
theorem Matches.pushedTrade {bid ask : MarketOrder} {goOn : Bool}
    (h : Matches crypto e bid ask e' goOn) : ∃ mtrx, e.pushedTrade crypto bid ask = .ok mtrx := by
  unfold MarketEngine.pushedTrade
  cases h with
  | skipBid hprice =>
    rw [hprice]
    exact ⟨none, rfl⟩
  | skipAsk hprice hcover hcalled =>
    rw [hprice, ok_bind]
    dsimp only
    rw [if_pos hcover, hcalled]
    exact ⟨none, rfl⟩
  | spread hprice hcover hlt =>
    rw [hprice, ok_bind]
    dsimp only
    rw [if_neg hcover, if_pos hlt]
    exact ⟨none, rfl⟩
  | @traded price askPrice mtrx e₁ e' hprice hask htrade hcollect =>
    rw [hprice, ok_bind]
    dsimp only
    obtain ⟨hcover, hcalled, rfl⟩ | ⟨hcover, hlt, rfl⟩ := hask
    · rw [if_pos hcover, hcalled, ok_bind, if_pos rfl]
      unfold openTransaction at htrade
      rw [htrade]
      exact ⟨some mtrx, rfl⟩
    · rw [if_neg hcover, if_neg (by rw [hlt]; exact Bool.false_ne_true)]
      unfold openTransaction at htrade
      rw [htrade]
      exact ⟨some mtrx, rfl⟩

theorem roundTrades_returns {goOn : Bool} (h : e.matchRound crypto = .ok (e', goOn)) :
    ∃ trades, e.roundTrades crypto = .ok trades := by
  unfold roundTrades
  cases matchRound_eq_ok h with
  | noBid hnext hbid =>
    rw [hnext, ok_bind, hbid]
    exact ⟨_, rfl⟩
  | @noAsk e₁ hnext hask =>
    rw [hnext, ok_bind]
    cases e₁.currentBid with
    | none => exact ⟨_, rfl⟩
    | some bid =>
      dsimp only
      rw [hask]
      exact ⟨_, rfl⟩
  | body henters hfilled hmatch =>
    obtain ⟨⟨e₀, hnext, hbid, rfl⟩, hask⟩ := henters
    obtain ⟨mtrx, hpushed⟩ := hmatch.pushedTrade
    rw [hnext, ok_bind, hbid]
    dsimp only
    rw [hask]
    dsimp only
    rw [hpushed]
    exact ⟨_, rfl⟩

theorem matchLoopTrades_fst (rounds : ℕ) (e : MarketEngine) :
    Prod.fst <$> matchLoopTrades crypto rounds e = matchLoop crypto rounds e := by
  induction rounds generalizing e with
  | zero => rfl
  | succ rounds ih =>
    rw [matchLoopTrades, matchLoop, map_bind]
    refine bind_congr_of_ok ?_
    rintro ⟨e', goOn⟩ hround
    obtain ⟨trades, htrades⟩ := roundTrades_returns hround
    dsimp only
    rw [htrades, ok_bind, map_ite, map_bind]
    split_ifs
    · rw [← ih, map_eq_bind_pure_comp]
      rfl
    · rfl

/-- **`matchMarket`** is a run, applied. -/
theorem runMarket_applied (e : MarketEngine) :
    (e.runMarket crypto >>= fun r => r.1.applyChanges crypto) = e.matchMarket crypto := by
  unfold runMarket matchMarket
  simp only [← matchLoopTrades_fst, bind_assoc, bind_map_left, pure_bind]

/-! ### Another market's status -/

section Unseen

variable {T : ChainInterface → ChainInterface} (hT : Unseen crypto T)
include hT

theorem pushedTrade_under (e : MarketEngine) (bid ask : MarketOrder) :
    (e.under T).pushedTrade crypto bid ask = e.pushedTrade crypto bid ask := by
  unfold pushedTrade
  rw [bidPrice_under]
  refine bind_congr fun price => ?_
  cases price with
  | none => rfl
  | some price =>
    dsimp only
    simp only [isCalled_under e hT, trade_under e hT, bind_map_left]
    rfl

theorem roundTrades_under (e : MarketEngine) :
    (e.under T).roundTrades crypto = e.roundTrades crypto := by
  unfold roundTrades
  rw [getNextBid_under, bind_map_left]
  refine bind_congr fun e₁ => ?_
  rw [show (e₁.under T).currentBid = e₁.currentBid from rfl]
  cases e₁.currentBid with
  | none => rfl
  | some bid =>
    dsimp only
    rw [getNextAsk_under e₁ hT.now,
      show (e₁.getNextAsk.under T).currentAsk = e₁.getNextAsk.currentAsk from rfl]
    cases e₁.getNextAsk.currentAsk with
    | none => rfl
    | some ask =>
      dsimp only
      rw [show (e₁.getNextAsk.under T).counted = e₁.getNextAsk.counted.under T from rfl,
        pushedTrade_under hT]

theorem matchLoopTrades_under (rounds : ℕ) (e : MarketEngine) :
    (e.under T).matchLoopTrades crypto rounds =
      Prod.map (under T) id <$> e.matchLoopTrades crypto rounds := by
  induction rounds generalizing e with
  | zero => rfl
  | succ rounds ih =>
    rw [matchLoopTrades, matchLoopTrades, matchRound_under e hT, bind_map_left, map_bind]
    refine bind_congr fun r => ?_
    rw [roundTrades_under hT]
    dsimp only [Prod.map_fst, Prod.map_snd, id_eq]
    rw [map_bind]
    refine bind_congr fun trades => ?_
    rw [ih, map_ite, bind_map_left, map_bind]
    rfl

end Unseen

theorem marketStatusOf_statusAt (hne : ⟨quoteId, baseId⟩ ≠ s.pair) (layer : ℕ) :
    marketStatusOf (c.statusAt layer s) quoteId baseId = marketStatusOf c quoteId baseId := by
  unfold marketStatusOf
  rw [ChainInterface.getMarketStatus_statusAt hne]

theorem recordError_statusAt (hkeyed : c.flat.Keyed crypto) (hne : ⟨quoteId, baseId⟩ ≠ s.pair)
    (feedPrice : Option Price) (error : Error) :
    recordError (c.statusAt 0 s) quoteId baseId feedPrice error =
      statusAt 0 s <$> recordError c quoteId baseId feedPrice error := by
  unfold recordError
  rw [marketStatusOf_statusAt hne, map_bind]
  refine bind_congr_of_ok fun stat hstat => ?_
  have hpair := marketStatusOf_pair hkeyed hstat
  exact congrArg Except.ok (ChainInterface.storeMarketStatus_statusAt (hpair ▸ hne))

theorem openMarket_statusAt (c : ChainInterface) (s : MarketStatus) (quoteId baseId : ℤ) :
    openMarket (c.statusAt 0 s) quoteId baseId =
      under (statusAt 1 s) <$> openMarket c quoteId baseId := by
  have hasset : ∀ id, (c.statusAt 0 s).push.getAssetRecord id = c.push.getAssetRecord id :=
    fun id => ChainInterface.lookup_statusAt (c := c.push) (fun _ => rfl) 1 id
  unfold openMarket
  rw [hasset, hasset]
  simp only [map_bind, map_ite]
  rfl

theorem checkFeed_statusAt (hne : e.pair ≠ s.pair) :
    (e.under (statusAt 1 s)).checkFeed = e.checkFeed := by
  have hstat : (e.pendingState.statusAt 1 s).getMarketStatus e.pair =
      e.pendingState.getMarketStatus e.pair := ChainInterface.getMarketStatus_statusAt hne 1
  unfold checkFeed
  change (if e.quoteAsset.isMarketIssued = true then
    require (¬((((e.pendingState.statusAt 1 s).getMarketStatus e.pair).bind
      MarketStatus.lastValidFeedPrice).isNone = true ∧ e.feedPrice.isNone = true)) _ else _) = _
  rw [hstat]
  rfl

theorem updateMarketHistory_under (T : ChainInterface → ChainInterface) (e : MarketEngine) :
    (e.under T).updateMarketHistory = e.updateMarketHistory := by
  unfold updateMarketHistory
  rw [getNextBid_under, bind_map_left]
  rfl

theorem runMarket_statusAt (hkeyed : c.flat.Keyed crypto)
    (hopen : openMarket c quoteId baseId = .ok e) (hne : ⟨quoteId, baseId⟩ ≠ s.pair) :
    (e.under (statusAt 1 s)).runMarket crypto =
      Prod.map (statusAt 1 s) id <$> e.runMarket crypto := by
  have hT := ChainInterface.unseen_statusAt crypto s
  obtain ⟨hopened, -⟩ := openMarket_eq_ok hopen
  unfold runMarket
  rw [checkFeed_statusAt (hopened.pair ▸ hne), map_bind]
  refine bind_congr fun _ => ?_
  rw [getNextBid_under, bind_map_left, map_bind]
  refine bind_congr_of_ok fun e₁ hnext => ?_
  dsimp only
  rw [getNextAsk_under e₁ hT.now, matchLoopTrades_under hT, bind_map_left, map_bind]
  refine bind_congr_of_ok ?_
  rintro ⟨e₂, trades⟩ hloop
  -- the loop stays on its market, so the status it reads is not the one that was stored
  have hpair : ⟨e₂.quoteId, e₂.baseId⟩ ≠ s.pair := by
    have hloop' : matchLoop crypto (e₁.getNextAsk.entriesLeft + 2) e₁.getNextAsk = .ok e₂ := by
      rw [← matchLoopTrades_fst]
      exact congrArg (Prod.fst <$> ·) hloop
    have hwalks := ((hopened.walks hkeyed).getNextBid hnext).getNextAsk.matchLoop _ hloop'
    exact fun h => hne ((hwalks.pair.trans hopened.pair).symm.trans h)
  dsimp only [Prod.map_fst, Prod.map_snd, id_eq]
  rw [updateMarketHistory_under]
  dsimp only [under]
  rw [hT.storeAsset, hT.storeAsset, marketStatusOf_statusAt hpair, map_bind]
  refine bind_congr fun stat => ?_
  rw [map_bind]
  refine bind_congr fun _ => ?_
  exact congrArg (fun c => Except.ok (c, trades)) (ChainInterface.update_statusAt_one _ _)

/-- The state of an engine before it is applied: no transactions, and the status of its own market
at most. -/
theorem runMarket_top (hkeyed : c.flat.Keyed crypto) (hopen : openMarket c quoteId baseId = .ok e)
    {own : ChainInterface} {trades : List MarketTransaction}
    (h : e.runMarket crypto = .ok (own, trades)) :
    own.top.transactions = ∅ ∧
      ∀ (pair : AssetPair) s, own.top.marketStatuses[pair]? = some s →
        s.pair = ⟨quoteId, baseId⟩ := by
  obtain ⟨hopened, -⟩ := openMarket_eq_ok hopen
  simp only [runMarket, bind_eq_ok, pure_eq_ok, Prod.mk.injEq] at h
  obtain ⟨_, -, e₁, hnext, ⟨e₂, _⟩, hloop, stat, hstat, _, -, rfl, -⟩ := h
  have hloop' : matchLoop crypto (e₁.getNextAsk.entriesLeft + 2) e₁.getNextAsk = .ok e₂ := by
    rw [← matchLoopTrades_fst, hloop]
    rfl
  have honly := (hopened.stored hkeyed hnext hloop' hstat).only
    (EngineWrite.closed crypto e.pair e.quoteAsset e.baseAsset)
  refine ⟨Table.ext fun id => ?_, fun pair s hs => ?_⟩
  · rw [Table.getElem?_empty']
    by_contra hne
    obtain ⟨r, hr⟩ := Option.ne_none_iff_exists'.1 hne
    cases honly _ (.transaction 0 hr)
  · cases honly _ (.marketStatus hs) with
    | marketStatus h => exact h.trans hopened.pair

/-- **Another market's status** is neither seen nor disturbed by a run. -/
theorem executeInPlace_statusAt (hkeyed : c.flat.Keyed crypto) (hne : ⟨quoteId, baseId⟩ ≠ s.pair) :
    executeInPlace crypto (c.statusAt 0 s) quoteId baseId =
      Prod.map (statusAt 0 s) id <$> executeInPlace crypto c quoteId baseId := by
  have herror : ∀ feedPrice error,
      (recordError (c.statusAt 0 s) quoteId baseId feedPrice error >>= fun c =>
        (pure (c, none) : Fallible (ChainInterface × Option (List MarketTransaction)))) =
      Prod.map (statusAt 0 s) id <$>
        (recordError c quoteId baseId feedPrice error >>= fun c => pure (c, none)) := by
    intro feedPrice error
    rw [recordError_statusAt hkeyed hne, bind_map_left, map_bind]
    rfl
  unfold executeInPlace
  rw [openMarket_statusAt]
  cases hopen : openMarket c quoteId baseId with
  | error error => exact herror none error
  | ok e =>
    have hrun := runMarket_statusAt hkeyed hopen hne
    dsimp only [Functor.map, Except.map]
    rw [hrun]
    cases hrun : e.runMarket crypto with
    | error error => exact herror e.feedPrice error
    | ok r =>
      obtain ⟨htop, hstatuses⟩ := runMarket_top hkeyed hopen hrun
      obtain ⟨c', happlied⟩ := ChainInterface.applyChanges_of_no_transactions crypto htop
      have happlied' := ChainInterface.applyChanges_statusAt crypto (s := s) htop
        fun pair s' h => hstatuses pair s' h ▸ hne
      dsimp only [Functor.map, Except.map, Prod.map] at happlied' ⊢
      rw [happlied', happlied]
      rfl

/-- **In place or not**, `execute` is the same: nothing reaches the state below before the run is
over, and applying it cannot throw. -/
theorem executeInPlace_fst (hkeyed : c.flat.Keyed crypto) :
    Prod.fst <$> executeInPlace crypto c quoteId baseId = execute crypto c quoteId baseId := by
  have herror : ∀ feedPrice error,
      Prod.fst <$> (recordError c quoteId baseId feedPrice error >>= fun c =>
        (pure (c, none) : Fallible (ChainInterface × Option (List MarketTransaction)))) =
      recordError c quoteId baseId feedPrice error := by
    intro feedPrice error
    rw [map_bind]
    exact bind_pure _
  unfold executeInPlace execute
  cases hopen : openMarket c quoteId baseId with
  | error error => exact herror none error
  | ok e =>
    dsimp only
    rw [← runMarket_applied]
    cases hrun : e.runMarket crypto with
    | error error => exact herror e.feedPrice error
    | ok r =>
      obtain ⟨htop, -⟩ := runMarket_top hkeyed hopen hrun
      obtain ⟨c', happlied⟩ := ChainInterface.applyChanges_of_no_transactions crypto htop
      dsimp only
      rw [ok_bind, happlied]
      rfl

/-- A run that returns false has recorded an error in the status of its market. -/
theorem executeInPlace_failed (hkeyed : c.flat.Keyed crypto)
    (h : executeInPlace crypto c quoteId baseId = .ok (c', none)) :
    ∃ stat : MarketStatus, stat.pair = ⟨quoteId, baseId⟩ ∧ c' = c.storeMarketStatus stat := by
  have herror : ∀ {feedPrice error},
      (recordError c quoteId baseId feedPrice error >>= fun c =>
        (pure (c, none) : Fallible (ChainInterface × Option (List MarketTransaction)))) =
          .ok (c', none) →
      ∃ stat : MarketStatus, stat.pair = ⟨quoteId, baseId⟩ ∧ c' = c.storeMarketStatus stat := by
    intro feedPrice error h
    simp only [recordError, bind_eq_ok, pure_eq_ok, Prod.mk.injEq, and_true] at h
    obtain ⟨_, ⟨stat, hstat, rfl⟩, rfl⟩ := h
    refine ⟨{ stat.updateFeedPrice feedPrice with lastError := some error }, ?_, rfl⟩
    have hpair := marketStatusOf_pair hkeyed hstat
    exact hpair
  unfold executeInPlace at h
  cases hopen : openMarket c quoteId baseId with
  | error error =>
    rw [hopen] at h
    exact herror h
  | ok e =>
    rw [hopen] at h
    dsimp only at h
    cases hrun : e.runMarket crypto with
    | error error =>
      rw [hrun] at h
      exact herror h
    | ok r =>
      obtain ⟨htop, -⟩ := runMarket_top hkeyed hopen hrun
      obtain ⟨c₁, happlied⟩ := ChainInterface.applyChanges_of_no_transactions crypto htop
      rw [hrun] at h
      dsimp only at h
      rw [happlied] at h
      cases h

end MarketEngine

/-! ### The dirty markets of a block -/

open ChainInterface (Writes statusAt)

variable {crypto : Crypto} {c c' : ChainInterface} {s : MarketStatus}

theorem executeMarketInPlace_writes (hp : c.IsPending) (hkeyed : c.flat.Keyed crypto)
    {pair : AssetPair} {trades trades' : List MarketTransaction}
    (h : executeMarketInPlace crypto (c, trades) pair = .ok (c', trades')) :
    c'.IsPending ∧ c'.flat.Keyed crypto := by
  simp only [executeMarketInPlace, bind_eq_ok, pure_eq_ok, Prod.mk.injEq] at h
  obtain ⟨_, -, ⟨c₁, _⟩, hexec, rfl, -⟩ := h
  have hfst : MarketEngine.execute crypto c pair.quote pair.base = .ok c₁ := by
    rw [← MarketEngine.executeInPlace_fst hkeyed, hexec]
    rfl
  have hw := MarketEngine.execute_writes hp hkeyed hfst
  exact ⟨hw.isPending hp, hw.keyed hp hkeyed⟩

theorem foldlM_executeMarketInPlace_pending (hp : c.IsPending) (hkeyed : c.flat.Keyed crypto)
    {rest : List AssetPair} {trades : List MarketTransaction}
    {r : ChainInterface × List MarketTransaction}
    (h : rest.foldlM (executeMarketInPlace crypto) (c, trades) = .ok r) : r.1.IsPending := by
  have hboth : r.1.IsPending ∧ r.1.flat.Keyed crypto := by
    refine foldlM_induction (P := fun r => r.1.IsPending ∧ r.1.flat.Keyed crypto) ?_ ⟨hp, hkeyed⟩ h
    rintro ⟨c₁, trades₁⟩ pair ⟨c₂, trades₂⟩ - ⟨hp₁, hkeyed₁⟩ hstep
    exact executeMarketInPlace_writes hp₁ hkeyed₁ hstep
  exact hboth.1

theorem executeMarketInPlace_statusAt (hkeyed : c.flat.Keyed crypto) {pair : AssetPair}
    (hne : pair ≠ s.pair) (trades : List MarketTransaction) :
    executeMarketInPlace crypto (c.statusAt 0 s, trades) pair =
      Prod.map (statusAt 0 s) id <$> executeMarketInPlace crypto (c, trades) pair := by
  unfold executeMarketInPlace
  rw [map_bind]
  refine bind_congr fun _ => ?_
  rw [MarketEngine.executeInPlace_statusAt hkeyed hne, bind_map_left, map_bind]
  rfl

/-- The markets of a list are executed over the status of another market. -/
theorem foldlM_statusAt {rest : List AssetPair} (hnot : s.pair ∉ rest) (hp : c.IsPending)
    (hkeyed : c.flat.Keyed crypto) (trades : List MarketTransaction) :
    rest.foldlM (executeMarketInPlace crypto) (c.statusAt 0 s, trades) =
      Prod.map (statusAt 0 s) id <$>
        rest.foldlM (executeMarketInPlace crypto) (c, trades) := by
  induction rest generalizing c trades with
  | nil => rfl
  | cons pair rest ih =>
    obtain ⟨hne, hnot⟩ := not_or.1 (mt List.mem_cons.2 hnot)
    rw [List.foldlM_cons, List.foldlM_cons, executeMarketInPlace_statusAt hkeyed (Ne.symm hne),
      bind_map_left, map_bind]
    refine bind_congr_of_ok ?_
    rintro ⟨c₁, trades₁⟩ hexec
    obtain ⟨hp₁, hkeyed₁⟩ := executeMarketInPlace_writes hp hkeyed hexec
    exact ih hnot hp₁ hkeyed₁ trades₁

/-- **A failed market leaves no trace**: when `execute` returns false, the state it was given has
one more status of that market, the market has no trades, and the markets that are still to be
executed go on as if it had not been tried. -/
theorem failed_market_traceless (hp : c.IsPending) (hkeyed : c.flat.Keyed crypto)
    {quoteId baseId : ℤ}
    (h : MarketEngine.executeInPlace crypto c quoteId baseId = .ok (c', none)) :
    ∃ stat : MarketStatus, stat.pair = ⟨quoteId, baseId⟩ ∧ c' = c.storeMarketStatus stat ∧
      ∀ rest : List AssetPair, ⟨quoteId, baseId⟩ ∉ rest → ∀ trades,
        rest.foldlM (executeMarketInPlace crypto) (c', trades) =
          Prod.map (·.storeMarketStatus stat) id <$>
            rest.foldlM (executeMarketInPlace crypto) (c, trades) := by
  obtain ⟨stat, hpair, rfl⟩ := MarketEngine.executeInPlace_failed hkeyed h
  refine ⟨stat, hpair, rfl, fun rest hnot trades => ?_⟩
  rw [← ChainInterface.statusAt_zero hp, foldlM_statusAt (hpair ▸ hnot) hp hkeyed]
  cases hrest : rest.foldlM (executeMarketInPlace crypto) (c, trades) with
  | error error => rfl
  | ok r =>
    have hr := foldlM_executeMarketInPlace_pending hp hkeyed hrest
    exact congrArg (fun c => Except.ok (c, r.2)) (ChainInterface.statusAt_zero hr stat)

/-- A bid of 100 buys 50 shares of an ask; the next bid is so low that what it asks for is more than
there can be, which is found out after the market has been stored. -/
def jammedMarket : ChainInterface :=
  (marketChain { id := 1, issuerAccountId := 3 } { id := 0 } .null
    [(⟨⟨2 * btsPricePrecision, 1, 0⟩, 7⟩, { balance := 100 }),
      (⟨⟨1, 1, 0⟩, 9⟩, { balance := 100 })]
    [(⟨⟨btsPricePrecision, 1, 0⟩, 8⟩, { balance := 60 })] [] []).push

theorem failed_market_traceless_jammedMarket : ∃ c' stat,
    MarketEngine.executeInPlace .transparent jammedMarket 1 0 = .ok (c', none) ∧
    stat.pair = ⟨1, 0⟩ ∧ c' = jammedMarket.storeMarketStatus stat ∧
      [⟨2, 0⟩].foldlM (executeMarketInPlace .transparent) (c', []) =
        Prod.map (·.storeMarketStatus stat) id <$>
          [⟨2, 0⟩].foldlM (executeMarketInPlace .transparent) (jammedMarket, []) := by
  have hrun : (MarketEngine.executeInPlace .transparent jammedMarket 1 0 >>= fun r =>
      require (r.2 = none) .outOfBounds).isOk = true := by decide +kernel
  obtain ⟨_, hrun⟩ := exists_eq_ok hrun
  simp only [bind_eq_ok, require_eq_ok] at hrun
  obtain ⟨⟨c', trades⟩, hexec, rfl⟩ := hrun
  obtain ⟨hp, hkeyed, -⟩ := MarketEngine.marketChain_ready .transparent
    { id := 1, issuerAccountId := 3 } { id := 0 } .null
    [(⟨⟨2 * btsPricePrecision, 1, 0⟩, 7⟩, { balance := 100 }), (⟨⟨1, 1, 0⟩, 9⟩, { balance := 100 })]
    [(⟨⟨btsPricePrecision, 1, 0⟩, 8⟩, { balance := 60 })] [] [] ⟨1, 0⟩ fun x hx => by cases hx
  obtain ⟨stat, hpair, hstored, hrest⟩ := failed_market_traceless hp hkeyed hexec
  exact ⟨c', stat, hexec, hpair, hstored, hrest [⟨2, 0⟩] (by decide) []⟩

end LarkX
