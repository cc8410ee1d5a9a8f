import LarkX.ForMathlib.Cursor
import LarkX.Market.Completed

/-!
# What a run leaves of the books

In a market of bids and asks only, a run walks the bids down and the asks up (`Walk`): what it lets
go of has nothing left, so the book it leaves is uncrossed (`execute_uncrosses`). It does so when
the walk starts in the market. `execute` starts it below `nextPair`, and where the ids of the two
assets follow each other there are other markets in between: one bid there hides all bids of the
market (`StrayBid`).
-/

namespace LarkX

/-- The entry of an order in its book. -/
def MarketOrder.entry (o : MarketOrder) : MarketIndexKey × OrderRecord :=
  (o.marketIndex, o.state)

namespace MarketEngine

open Table (Walk)

variable {crypto : Crypto} {c c' : ChainInterface} {quoteId baseId : ℤ}
  {e₀ e e₁ e' : MarketEngine} {bid ask : MarketOrder} {goOn : Bool}

/-! ### Where the walk starts -/

/-- A bid of another market between this one and the price from which `execute` walks down. -/
def StrayBid (c : ChainInterface) (quoteId baseId : ℤ) : Prop :=
  baseId + 1 = quoteId ∧ ∃ (key : MarketIndexKey) (r : OrderRecord), c.db.bids[key]? = some r ∧
    (key.orderPrice.quoteAssetId = quoteId ∧ quoteId ≤ key.orderPrice.baseAssetId ∨
      key.orderPrice.quoteAssetId = quoteId + 1 ∧ key.orderPrice.baseAssetId < 0)

/-- Without a stray bid, the walk down starts in the market. -/
theorem departs_bids (hids : baseId < quoteId) (hstray : ¬StrayBid c quoteId baseId) :
    Departs ⟨quoteId, baseId⟩ (entriesBefore c.db.bids ⟨nextPair quoteId baseId, 0⟩) := by
  refine (entriesBefore_sorted _ _).imp_of_mem fun {x y} hx _ hlt hout => ?_
  obtain ⟨hget, hbefore⟩ := mem_entriesBefore.1 hx
  rw [compare_first, lt_nextPair_iff hids] at hbefore
  have hle := assetPair_le hlt
  rw [Ne, MarketIndexKey.assetPair_eq_iff] at hout ⊢
  obtain hpair | hbelow | hbelow | ⟨hnext, hbetween⟩ := hbefore
  · exact absurd (MarketIndexKey.assetPair_eq_iff.1 hpair) hout
  · omega
  · omega
  · exact absurd ⟨hnext, x.1, x.2, hget, hbetween⟩ hstray

/-- A stray bid stands before all bids of the market. -/
theorem passed_of_strayBid (hids : baseId < quoteId) (hstray : StrayBid c quoteId baseId) :
    Passed ⟨quoteId, baseId⟩ (entriesBefore c.db.bids ⟨nextPair quoteId baseId, 0⟩) := by
  obtain ⟨hnext, key, r, hget, hbetween⟩ := hstray
  have hmem : (key, r) ∈ entriesBefore c.db.bids ⟨nextPair quoteId baseId, 0⟩ :=
    mem_entriesBefore.2 ⟨hget, compare_first.2 ((lt_nextPair_iff hids).2
      (Or.inr (Or.inr (Or.inr ⟨hnext, hbetween⟩))))⟩
  have hsorted := entriesBefore_sorted c.db.bids ⟨nextPair quoteId baseId, 0⟩
  intro x hx hpair
  rw [MarketIndexKey.assetPair_eq_iff] at hpair
  obtain ⟨rest, hrest⟩ := List.head?_eq_some_iff.1 hx
  rw [hrest] at hmem hsorted
  rcases List.mem_cons.1 hmem with rfl | hmem
  · dsimp only at hpair
    omega
  · have hle := assetPair_le ((List.pairwise_cons.1 hsorted).1 _ hmem)
    dsimp only at hle
    omega

/-- The walk up starts in the market. -/
theorem departs_asks (h : AtEnds c quoteId baseId e) : Departs ⟨quoteId, baseId⟩ e.askItr := by
  have hleave : ∀ {x y : MarketIndexKey × OrderRecord},
      compare x.1 ⟨firstPrice quoteId baseId, 0⟩ ≠ .lt → compare x.1 y.1 = .lt →
      x.1.assetPair ≠ ⟨quoteId, baseId⟩ → y.1.assetPair ≠ ⟨quoteId, baseId⟩ := by
    intro x y hfrom hlt hout
    rw [Ne, compare_first, Price.lt_iff] at hfrom
    rw [Ne, MarketIndexKey.assetPair_eq_iff] at hout ⊢
    have hle := assetPair_le hlt
    unfold firstPrice at hfrom
    dsimp only at hfrom
    omega
  obtain heq | ⟨hnone, heq⟩ := h.askItr
  · rw [heq]
    exact (entriesFrom_sorted _ _).imp_of_mem fun {x y} hx _ hlt hout =>
      hleave (mem_entriesFrom.1 hx).2 hlt hout
  · rw [heq]
    refine Std.ExtTreeMap.ordered_keys_toList.imp_of_mem fun {x y} _ hy _ _ hpair => ?_
    -- an ask of the market would have been found from the first price on
    have hfrom : y ∈ entriesFrom c.db.asks ⟨firstPrice quoteId baseId, 0⟩ := by
      refine mem_entriesFrom.2 ⟨Table.mem_toList.1 hy, ?_⟩
      rw [MarketIndexKey.assetPair_eq_iff] at hpair
      rw [Ne, compare_first, Price.lt_iff]
      unfold firstPrice
      dsimp only
      omega
    rw [hnone] at hfrom
    cases hfrom

/-! ### The walk -/

/-- A bid of which nothing is left. -/
def BidSettled (key : MarketIndexKey) (r : OrderRecord) : Prop :=
  ∀ quantity, (bidOf key r).getQuantity = .ok quantity → quantity.amount ≤ 0

/-- An ask of which nothing is left. -/
def AskSettled (_ : MarketIndexKey) (r : OrderRecord) : Prop :=
  r.balance ≤ 0

/-- A run in a market of bids and asks only, which walks both books from where `e₀` stands. -/
structure WalksBooks (c : ChainInterface) (e₀ e : MarketEngine) : Prop where
  onMarket : OnMarket e
  pair : e.pair = e₀.pair
  bidType : ∀ o, e.currentBid = some o → o.type = .bidOrder
  askType : ∀ o, e.currentAsk = some o → o.type = .askOrder
  shorts : ofMarket e.pair e.shortItr = []
  covers : ofMarket e.pair e.collateralItr = []
  bidsDepart : Departs e.pair e.bidItr
  asksDepart : Departs e.pair e.askItr
  bids : Walk BidSettled (fun x y => compare y x = .lt) (ofMarket e₀.pair e₀.bidItr) c.flat.bids
    e.pendingState.flat.bids (e.currentBid.map MarketOrder.entry) (ofMarket e.pair e.bidItr)
  asks : Walk AskSettled (fun x y => compare x y = .lt) (ofMarket e₀.pair e₀.askItr) c.flat.asks
    e.pendingState.flat.asks (e.currentAsk.map MarketOrder.entry) (ofMarket e.pair e.askItr)

theorem compare_irrefl (key : MarketIndexKey) : ¬compare key key = .lt := by
  rw [Std.LawfulEqOrd.compare_eq_iff_eq.2 rfl]
  exact fun h => by cases h

/-- An entry at the head of an iterator that has none of the market is not of the market. -/
private theorem not_head {α : Type} {pair : AssetPair} {itr rest : BookIterator α}
    {key : MarketIndexKey} {r : α} (h : ofMarket pair itr = []) (hitr : itr = (key, r) :: rest)
    (hpair : key.assetPair = pair) : False := by
  rw [hitr, ofMarket_cons hpair] at h
  cases h

namespace WalksBooks

theorem bidSettled (h : WalksBooks c e₀ e) (hlive : ¬e.BidLive) :
    ∀ x ∈ e.currentBid.map MarketOrder.entry, BidSettled x.1 x.2 := by
  intro x hx quantity hquantity
  obtain ⟨o, ho, rfl⟩ := Option.map_eq_some_iff.1 hx
  have htype := h.bidType o ho
  obtain ⟨type, key, r, collateral, expiration⟩ := o
  cases htype
  by_contra hpos
  exact hlive ⟨_, quantity, ho, hquantity, not_le.1 hpos⟩

theorem askSettled (hlive : ¬e.AskLive) :
    ∀ x ∈ e.currentAsk.map MarketOrder.entry, AskSettled x.1 x.2 := by
  intro x hx
  obtain ⟨o, ho, rfl⟩ := Option.map_eq_some_iff.1 hx
  by_contra hpos
  exact hlive ⟨o, ho, not_le.1 hpos⟩

/-- A search for a bid goes on in the book of bids, or finds that it is at its end. -/
theorem fetchesBid (h : WalksBooks c e₀ e) (hlive : ¬e.BidLive) (hfetch : FetchesBid e e') :
    WalksBooks c e₀ e' ∧ (e'.currentBid = none → ofMarket e'.pair e'.bidItr = []) := by
  have hmarket := h.onMarket.fetchesBid hfetch
  have hsettled := h.bidSettled hlive
  cases hfetch with
  | @bid key r rest hitr hpair =>
    have hdepart := h.bidsDepart
    have hbids := h.bids
    rw [hitr] at hdepart hbids
    rw [ofMarket_cons hpair] at hbids
    refine ⟨{ h with
      onMarket := hmarket
      bidType := fun o ho => Option.some.inj ho ▸ rfl
      bidsDepart := hdepart.tail
      bids := hbids.next compare_irrefl hsettled }, fun hnone => by cases hnone⟩
  | @short key r rest hitr hpair => exact (not_head h.shorts hitr hpair).elim
  | none hbid hshort =>
    refine ⟨{ h with
      onMarket := hmarket
      bidType := fun o ho => by cases ho
      bids := h.bids.release hsettled }, fun _ => h.bidsDepart.ofMarket_eq_nil hbid⟩

/-- A search for an ask goes on in the book of asks, or finds that it is at its end. -/
theorem fetchesAsk (h : WalksBooks c e₀ e) (hlive : ¬e.AskLive) (hfetch : FetchesAsk e e') :
    WalksBooks c e₀ e' ∧ (e'.currentAsk = none → ofMarket e'.pair e'.askItr = []) := by
  have hmarket := h.onMarket.fetchesAsk hfetch
  have hsettled := askSettled hlive
  have hcovers : ∀ {itr : BookIterator CollateralRecord}, e.Abandons itr →
      ofMarket e.pair itr = [] := by
    intro itr habandon
    cases hbid : e.currentBid with
    | none => rw [habandon.kept hbid, h.covers]
    | some bid =>
      rw [habandon.dropped (hbid ▸ rfl)]
      rfl
  cases hfetch with
  | @cover key r rest hbid hitr hpair hcall => exact (not_head h.covers hitr hpair).elim
  | @ask key r rest collateralItr collat habandon hitr hpair =>
    have hdepart := h.asksDepart
    have hasks := h.asks
    rw [hitr] at hdepart hasks
    rw [ofMarket_cons hpair] at hasks
    refine ⟨{ h with
      onMarket := hmarket
      askType := fun o ho => Option.some.inj ho ▸ rfl
      covers := hcovers habandon
      asksDepart := hdepart.tail
      asks := hasks.next compare_irrefl hsettled }, fun hnone => by cases hnone⟩
  | @none collateralItr collat habandon hasks =>
    have htail := ofMarket_tail hasks
    refine ⟨{ h with
      onMarket := hmarket
      askType := fun o ho => by cases ho
      covers := hcovers habandon
      asksDepart := h.asksDepart.sublist (List.tail_sublist _)
      asks := ?_ }, fun _ => htail.trans (h.asksDepart.ofMarket_eq_nil hasks)⟩
    have hrelease := h.asks.release hsettled
    rwa [← htail] at hrelease

end WalksBooks

/-- **A bid and an ask trade**: both are written back to their books. -/
private theorem tradeBidAsk_books {mtrx mtrx' : MarketTransaction} (hp : e.pendingState.IsPending)
    (h : e.tradeBidAsk crypto bid ask mtrx = .ok (e', mtrx')) :
    ∃ bidKept askKept, e'.currentBid = some (bid.setBalance bidKept) ∧
      e'.currentAsk = some (ask.setBalance askKept) ∧
      e'.pendingState.flat.bids = e.pendingState.flat.bids.insert bid.marketIndex
        (bid.setBalance bidKept).state ∧
      e'.pendingState.flat.asks = e.pendingState.flat.asks.insert ask.marketIndex
        (ask.setBalance askKept).state := by
  obtain ⟨bidQuantity, askQuantity, quantity, askReceived, bidPaid, e₁, -, -, -, -, -, -, -, -, -, -,
    -, -, hpayBid, hpayAsk⟩ := tradeBidAsk_eq_ok h
  have hp₁ := (payCurrentBid_sameWalk hp hpayBid).isPending hp
  obtain ⟨-, -, bidKept, fees, -, rfl⟩ := payCurrentBid_eq_ok hp hpayBid
  obtain ⟨-, -, askKept, quoteFees, baseFees, rfl, -⟩ := payCurrentAsk_eq_ok hp₁ hpayAsk
  refine ⟨bidKept, askKept, rfl, rfl, ?_, ?_⟩
  · rw [afterAsk_flat hp₁, afterBid_flat hp]
    rfl
  · rw [afterAsk_flat hp₁, afterBid_flat hp]
    rfl

namespace WalksBooks

theorem getNextBid (h : WalksBooks c e₀ e) (hnext : e.getNextBid = .ok e') :
    WalksBooks c e₀ e' ∧ (e'.currentBid = none → ofMarket e'.pair e'.bidItr = []) := by
  obtain ⟨hlive, rfl⟩ | ⟨hlive, hfetch⟩ := getNextBid_eq_ok hnext
  · refine ⟨h, fun hnone => ?_⟩
    have hsome := hlive.isSome
    rw [hnone] at hsome
    cases hsome
  · exact h.fetchesBid hlive hfetch

theorem getNextAsk (h : WalksBooks c e₀ e) :
    WalksBooks c e₀ e.getNextAsk ∧
      (e.getNextAsk.currentAsk = none → ofMarket e.getNextAsk.pair e.getNextAsk.askItr = []) := by
  obtain ⟨hlive, heq⟩ | ⟨hlive, hfetch⟩ := getNextAsk_cases e
  · rw [heq]
    refine ⟨h, fun hnone => ?_⟩
    have hsome := hlive.isSome
    rw [hnone] at hsome
    cases hsome
  · exact h.fetchesAsk hlive hfetch

theorem bidPrice (h : WalksBooks c e₀ e) (hbid : e.currentBid = some bid) :
    e.bidPrice bid ask = .ok (some bid.getPrice) := by
  have htype := h.bidType bid hbid
  unfold MarketEngine.bidPrice
  rw [if_neg (by rw [htype]; exact fun h => by cases h)]
  rfl

/-- Matching two orders writes both back, or stops at a spread. -/
theorem matchOrders (h : WalksBooks c e₀ e) (hbid : e.currentBid = some bid)
    (hask : e.currentAsk = some ask) (hmatch : Matches crypto e bid ask e' goOn) :
    WalksBooks c e₀ e' ∧ (goOn = false → e' = e ∧ bid.getPrice.lt ask.getPrice = true) := by
  have hbidPrice : e.bidPrice bid ask = _ := h.bidPrice hbid
  have hbidType := h.bidType bid hbid
  have haskType := h.askType ask hask
  have hcover : ask.type ≠ .coverOrder := by
    rw [haskType]
    exact fun h => by cases h
  obtain ⟨hmarket, hwalk, -⟩ := h.onMarket.matches hbid hask hmatch
  cases hmatch with
  | skipBid hprice =>
    rw [hbidPrice] at hprice
    cases hprice
  | skipAsk hprice hcover' hcalled => exact absurd hcover' hcover
  | spread hprice hcover' hlt =>
    rw [hbidPrice] at hprice
    cases hprice
    exact ⟨h, fun _ => ⟨rfl, hlt⟩⟩
  | @traded price askPrice mtrx e₁ e' hprice hcross htrade hcollect =>
    refine ⟨?_, fun h => by cases h⟩
    unfold MarketEngine.trade at htrade
    simp only [haskType, hbidType] at htrade
    obtain ⟨bidKept, askKept, hbid₁, hask₁, hbids, hasks⟩ :=
      tradeBidAsk_books h.onMarket.pending htrade
    obtain ⟨volume, quoteFees, baseFees, rfl⟩ := hcollect.rest
    have hbidWalk := h.bids
    rw [hbid] at hbidWalk
    have haskWalk := h.asks
    rw [hask] at haskWalk
    refine {
      onMarket := hmarket
      pair := hwalk.pair.trans h.pair
      bidType := fun o ho => ?_
      askType := fun o ho => ?_
      shorts := ?_
      covers := ?_
      bidsDepart := ?_
      asksDepart := ?_
      bids := ?_
      asks := ?_ }
    · obtain rfl : bid.setBalance bidKept = o := Option.some.inj (hbid₁.symm.trans ho)
      exact hbidType
    · obtain rfl : ask.setBalance askKept = o := Option.some.inj (hask₁.symm.trans ho)
      exact haskType
    · rw [hwalk.pair, hwalk.shortItr]
      exact h.shorts
    · rw [hwalk.pair, hwalk.collateralItr]
      exact h.covers
    · rw [hwalk.pair, hwalk.bidItr]
      exact h.bidsDepart
    · rw [hwalk.pair, hwalk.askItr]
      exact h.asksDepart
    · rw [hwalk.pair, hwalk.bidItr]
      change Walk _ _ _ _ e₁.pendingState.flat.bids (e₁.currentBid.map MarketOrder.entry) _
      rw [hbids, hbid₁]
      exact hbidWalk.write compare_irrefl
    · rw [hwalk.pair, hwalk.askItr]
      change Walk _ _ _ _ e₁.pendingState.flat.asks (e₁.currentAsk.map MarketOrder.entry) _
      rw [hasks, hask₁]
      exact haskWalk.write compare_irrefl

theorem enters (h : WalksBooks c e₀ e) (henters : Enters e e₁ bid ask) :
    WalksBooks c e₀ e₁ ∧ e₁.currentBid = some bid := by
  have hbid := (henters.onMarket h.onMarket).2
  obtain ⟨⟨e₂, hnext, -, rfl⟩, -⟩ := henters
  exact ⟨(h.getNextBid hnext).1.getNextAsk.1, hbid⟩

theorem matchRound (h : WalksBooks c e₀ e) (hround : e.matchRound crypto = .ok (e', goOn)) :
    WalksBooks c e₀ e' := by
  cases matchRound_eq_ok hround with
  | noBid hnext hbid => exact (h.getNextBid hnext).1
  | noAsk hnext hask => exact (h.getNextBid hnext).1.getNextAsk.1
  | @body e₁ _ bid ask _ henters hfilled hmatch =>
    obtain ⟨h₁, hbid⟩ := h.enters henters
    exact (matchOrders (e := e₁.counted) { h₁ with onMarket := { h₁.onMarket with } } hbid henters.ask
      hmatch).1

end WalksBooks

/-! ### The book that is left -/

/-- No bid of the market of which something is left is at or above an ask of which something is
left. -/
def Uncrossed (c : ChainInterface) (pair : AssetPair) : Prop :=
  ∀ (bid ask : MarketIndexKey) (r r' : OrderRecord) (quantity : Asset),
    bid.assetPair = pair → c.getBidRecord bid = some r →
    (bidOf bid r).getQuantity = .ok quantity → 0 < quantity.amount →
    ask.assetPair = pair → c.getAskRecord ask = some r' → 0 < r'.balance →
    bid.orderPrice.lt ask.orderPrice = true

/-- The walk starts in front of all orders of the market. -/
structure StartsBooks (c : ChainInterface) (e₀ : MarketEngine) : Prop where
  bids : ∀ key r, key.assetPair = e₀.pair → c.flat.bids[key]? = some r →
    ∃ x ∈ ofMarket e₀.pair e₀.bidItr, x.1 = key
  asks : ∀ key r, key.assetPair = e₀.pair → c.flat.asks[key]? = some r →
    ∃ x ∈ ofMarket e₀.pair e₀.askItr, x.1 = key

/-- **The round that ends a run leaves an uncrossed book.** Either there is no bid left, or no ask,
or the best of each do not meet. -/
theorem WalksBooks.uncrossed (h : WalksBooks c e₀ e) (hstart : StartsBooks c e₀)
    (hround : e.matchRound crypto = .ok (e', false)) : Uncrossed e'.pendingState e₀.pair := by
  intro bid ask r r' quantity hbidPair hbid hquantity hpos haskPair hask hbalance
  rw [ChainInterface.getBidRecord_eq] at hbid
  rw [ChainInterface.getAskRecord_eq] at hask
  have hbidLeft : ¬BidSettled bid r := fun hsettled => absurd (hsettled quantity hquantity) (by omega)
  have haskLeft : ¬AskSettled ask r' := fun hsettled => absurd hsettled hbalance.not_ge
  cases matchRound_eq_ok hround with
  | noBid hnext hnone =>
    obtain ⟨h', hnil⟩ := h.getNextBid hnext
    have hwhere := h'.bids.where_is hbid (fun w hw => hstart.bids bid w hbidPair hw)
    rw [hnil hnone, hnone] at hwhere
    obtain hahead | hhand | hsettled := hwhere
    · cases hahead
    · cases hhand
    · exact absurd hsettled hbidLeft
  | @noAsk e₁ hnext hnone =>
    obtain ⟨h', hnil⟩ := (h.getNextBid hnext).1.getNextAsk
    have hwhere := h'.asks.where_is hask (fun w hw => hstart.asks ask w haskPair hw)
    rw [hnil hnone, hnone] at hwhere
    obtain hahead | hhand | hsettled := hwhere
    · cases hahead
    · cases hhand
    · exact absurd hsettled haskLeft
  | @body e₁ _ bid₁ ask₁ _ henters hfilled hmatch =>
    obtain ⟨h₁, hbid₁⟩ := h.enters henters
    have h₂ : WalksBooks c e₀ e₁.counted := { h₁ with onMarket := { h₁.onMarket with } }
    obtain ⟨rfl, hspread⟩ := (h₂.matchOrders hbid₁ henters.ask hmatch).2 rfl
    have hbidWhere := h₁.bids.where_is hbid (fun w hw => hstart.bids bid w hbidPair hw)
    have haskWhere := h₁.asks.where_is hask (fun w hw => hstart.asks ask w haskPair hw)
    have hbidFirst := h₁.bids.first
    have haskFirst := h₁.asks.first
    rw [hbid₁] at hbidWhere hbidFirst
    rw [henters.ask] at haskWhere haskFirst
    -- the bid is not above the best one, the ask not below the best one
    have hbidLe : bid₁.getPrice.lt bid.orderPrice = false := by
      obtain hahead | hhand | hsettled := hbidWhere
      · exact not_lt_of_compare (hbidFirst _ rfl _ hahead)
      · obtain ⟨rfl, -⟩ := Prod.mk.inj (Option.some.inj hhand)
        exact Price.lt_irrefl _
      · exact absurd hsettled hbidLeft
    have haskLe : ask.orderPrice.lt ask₁.getPrice = false := by
      obtain hahead | hhand | hsettled := haskWhere
      · exact not_lt_of_compare (haskFirst _ rfl _ hahead)
      · obtain ⟨rfl, -⟩ := Prod.mk.inj (Option.some.inj hhand)
        exact Price.lt_irrefl _
      · exact absurd hsettled haskLeft
    have hpair₁ : bid₁.getPrice.assetPair = e₀.pair := (h₁.onMarket.bid _ hbid₁).2.trans h₁.pair
    have hpair₂ : ask₁.getPrice.assetPair = e₀.pair := (h₁.onMarket.ask _ henters.ask).2.trans h₁.pair
    rw [← Bool.not_eq_true, Price.lt_iff_of_assetPair (hpair₁.trans hbidPair.symm)] at hbidLe
    rw [← Bool.not_eq_true, Price.lt_iff_of_assetPair (haskPair.trans hpair₂.symm)] at haskLe
    rw [Price.lt_iff_of_assetPair (hpair₁.trans hpair₂.symm)] at hspread
    rw [Price.lt_iff_of_assetPair (hbidPair.trans haskPair.symm)]
    omega

/-! ### A whole run -/

/-- The market has no shorts and no margin positions. -/
structure OnlyBidsAndAsks (c : ChainInterface) (pair : AssetPair) : Prop where
  shorts : ∀ (key : MarketIndexKey) (r : OrderRecord), c.db.shorts[key]? = some r →
    key.assetPair ≠ pair
  collateral : ∀ (key : MarketIndexKey) (r : CollateralRecord), c.db.collateral[key]? = some r →
    key.assetPair ≠ pair

/-- No pending state below the engine holds a bid or an ask of the market. -/
def FreshBooks (c : ChainInterface) (pair : AssetPair) : Prop :=
  ∀ o ∈ c.overlays, ∀ key : MarketIndexKey, key.assetPair = pair →
    o.bids[key]? = none ∧ o.asks[key]? = none

theorem FreshBooks.flat {pair : AssetPair} (h : FreshBooks c pair) {key : MarketIndexKey}
    (hkey : key.assetPair = pair) :
    c.flat.bids[key]? = c.db.bids[key]? ∧ c.flat.asks[key]? = c.db.asks[key]? := by
  obtain ⟨os, db, now, n⟩ := c
  change (ChainInterface.flatOf db os).bids[key]? = _ ∧ (ChainInterface.flatOf db os).asks[key]? = _
  induction os with
  | nil => exact ⟨rfl, rfl⟩
  | cons o os ih =>
    obtain ⟨hbids, hasks⟩ := h o List.mem_cons_self key hkey
    obtain ⟨hbids', hasks'⟩ := ih fun o' ho' => h o' (List.mem_cons_of_mem _ ho')
    rw [ChainInterface.flatOf, Tables.above, Table.getElem?_above, Table.getElem?_above, hbids, hasks]
    exact ⟨hbids', hasks'⟩

theorem push_flat (c : ChainInterface) : c.push.flat = c.flat := by
  change Tables.above {} c.flat = c.flat
  simp only [Tables.above, Table.empty_above]

/-- The orders that changed in a run are orders of the market that it took from the books. -/
structure KeepsUnreached (c c' : ChainInterface) (e₀ e : MarketEngine) : Prop where
  bids : ∀ key, c'.getBidRecord key ≠ c.getBidRecord key →
    key.assetPair = e₀.pair ∧ ∃ x ∈ e₀.bidItr, x.1 = key ∧ x ∉ e.bidItr
  asks : ∀ key, c'.getAskRecord key ≠ c.getAskRecord key →
    key.assetPair = e₀.pair ∧ ∃ x ∈ e₀.askItr, x.1 = key ∧ x ∉ e.askItr

theorem WalksBooks.keepsUnreached (h : WalksBooks c e₀ e) :
    KeepsUnreached c e.pendingState e₀ e := by
  constructor
  · intro key hne
    rw [ChainInterface.getBidRecord_eq, ChainInterface.getBidRecord_eq] at hne
    obtain ⟨x, hx, rfl, hnot⟩ := h.bids.frame key hne
    obtain ⟨hmem, hpair⟩ := mem_ofMarket.1 hx
    exact ⟨hpair, x, hmem, rfl, fun hahead => hnot (mem_ofMarket.2 ⟨hahead, hpair.trans h.pair.symm⟩)⟩
  · intro key hne
    rw [ChainInterface.getAskRecord_eq, ChainInterface.getAskRecord_eq] at hne
    obtain ⟨x, hx, rfl, hnot⟩ := h.asks.frame key hne
    obtain ⟨hmem, hpair⟩ := mem_ofMarket.1 hx
    exact ⟨hpair, x, hmem, rfl, fun hahead => hnot (mem_ofMarket.2 ⟨hahead, hpair.trans h.pair.symm⟩)⟩

/-- An iterator that starts below `nextPair` has nothing of a market without entries. -/
private theorem ofMarket_entriesBefore_eq_nil {α : Type} {pair : AssetPair}
    {book : Table MarketIndexKey α}
    (h : ∀ (key : MarketIndexKey) (r : α), book[key]? = some r → key.assetPair ≠ pair)
    (key : MarketIndexKey) : ofMarket pair (entriesBefore book key) = [] := by
  refine List.eq_nil_iff_forall_not_mem.2 fun x hx => ?_
  obtain ⟨hmem, hpair⟩ := mem_ofMarket.1 hx
  exact h x.1 x.2 (mem_entriesBefore.1 hmem).1 hpair

/-- An engine that is opened stands in front of all bids and asks of its market. -/
private theorem startsBooks_of_open (hfresh : FreshBooks c ⟨quoteId, baseId⟩)
    (hopen : openMarket c quoteId baseId = .ok e₀) : StartsBooks c e₀ := by
  have hends := openMarket_atEnds hopen
  have hpair := (openMarket_eq_ok hopen).1.pair
  constructor
  · intro key r hkey hget
    rw [hpair] at hkey
    rw [(hfresh.flat hkey).1] at hget
    refine ⟨(key, r), mem_ofMarket.2 ⟨?_, hkey.trans hpair.symm⟩, rfl⟩
    rw [hends.bidItr]
    exact mem_entriesBefore.2 ⟨hget, compare_first.2 ((lt_nextPair_iff hends.ordered).2 (Or.inl hkey))⟩
  · intro key r hkey hget
    rw [hpair] at hkey
    rw [(hfresh.flat hkey).2] at hget
    refine ⟨(key, r), mem_ofMarket.2 ⟨?_, hkey.trans hpair.symm⟩, rfl⟩
    have hfrom : (key, r) ∈ entriesFrom c.db.asks ⟨firstPrice quoteId baseId, 0⟩ := by
      refine mem_entriesFrom.2 ⟨hget, ?_⟩
      rw [MarketIndexKey.assetPair_eq_iff] at hkey
      rw [Ne, compare_first, Price.lt_iff]
      unfold firstPrice
      dsimp only
      omega
    obtain heq | ⟨-, heq⟩ := hends.askItr
    · rw [heq]
      exact hfrom
    · rw [heq]
      exact Table.mem_toList.2 hget

/-- An engine that is opened in a market of bids and asks, without a stray bid. -/
private theorem walksBooks_of_open (hfresh : FreshBooks c ⟨quoteId, baseId⟩)
    (honly : OnlyBidsAndAsks c ⟨quoteId, baseId⟩) (hstray : ¬StrayBid c quoteId baseId)
    (hopen : openMarket c quoteId baseId = .ok e₀) : WalksBooks c e₀ e₀ := by
  have hends := openMarket_atEnds hopen
  have hopened := (openMarket_eq_ok hopen).1
  have hpair := hopened.pair
  have hflat : e₀.pendingState.flat = c.flat := hopened.pendingState ▸ push_flat c
  refine {
    onMarket := (openMarket_ordersLeft hopen).1.onMarket
    pair := rfl
    bidType := fun o ho => by rw [hopened.bid] at ho; cases ho
    askType := fun o ho => by rw [hopened.ask] at ho; cases ho
    shorts := ?_
    covers := ?_
    bidsDepart := ?_
    asksDepart := ?_
    bids := ?_
    asks := ?_ }
  · rw [hpair, hends.shortItr]
    exact ofMarket_entriesBefore_eq_nil honly.shorts _
  · rw [hpair, hends.collateralItr]
    exact ofMarket_entriesBefore_eq_nil honly.collateral _
  · rw [hpair, hends.bidItr]
    exact departs_bids hends.ordered hstray
  · rw [hpair]
    exact departs_asks hends
  · rw [hflat, hopened.bid, hpair, hends.bidItr]
    refine .refl (fun x hx => ?_) ((entriesBefore_sorted _ _).sublist List.filter_sublist)
    obtain ⟨hmem, hkey⟩ := mem_ofMarket.1 hx
    rw [(hfresh.flat hkey).1]
    exact (mem_entriesBefore.1 hmem).1
  · rw [hflat, hopened.ask, hpair]
    refine .refl (fun x hx => ?_) (List.Pairwise.sublist List.filter_sublist ?_)
    · obtain ⟨hmem, hkey⟩ := mem_ofMarket.1 hx
      rw [(hfresh.flat hkey).2]
      obtain heq | ⟨-, heq⟩ := hends.askItr
      · rw [heq] at hmem
        exact (mem_entriesFrom.1 hmem).1
      · rw [heq] at hmem
        exact Table.mem_toList.1 hmem
    · obtain heq | ⟨-, heq⟩ := hends.askItr
      · rw [heq]
        exact entriesFrom_sorted _ _
      · rw [heq]
        exact Std.ExtTreeMap.ordered_keys_toList

/-- The bids and asks of a completed run are those of the engine at its end. -/
private theorem Completes.getRecord (hp : c.IsPending)
    (h : Completes crypto c quoteId baseId e₀ e c') :
    (∀ key, c'.getBidRecord key = e.pendingState.getBidRecord key) ∧
      ∀ key, c'.getAskRecord key = e.pendingState.getAskRecord key := by
  obtain ⟨properties, marketStatuses, hflat⟩ := h.flat hp
  constructor
  · intro key
    rw [ChainInterface.getBidRecord_eq, ChainInterface.getBidRecord_eq, hflat]
  · intro key
    rw [ChainInterface.getAskRecord_eq, ChainInterface.getAskRecord_eq, hflat]

/-! ### A stray bid -/

/-- Behind a stray bid a run writes nothing. -/
private theorem Completes.pendingState_of_stray (honly : OnlyBidsAndAsks c ⟨quoteId, baseId⟩)
    (hstray : StrayBid c quoteId baseId) (h : Completes crypto c quoteId baseId e₀ e c') :
    e.pendingState = c.push := by
  obtain ⟨e₁, n, e₂, hnext, -, hrounds, hend⟩ := h.rounds
  have hends := openMarket_atEnds h.opened
  have hopened := (openMarket_eq_ok h.opened).1
  have h₀ : NoBids e₀ := by
    refine ⟨hopened.bid, ?_, ?_⟩
    · rw [hopened.pair, hends.bidItr]
      exact passed_of_strayBid hends.ordered hstray
    · rw [hopened.pair, hends.shortItr]
      intro x hx hpair
      exact honly.shorts x.1 x.2 (mem_entriesBefore.1 (List.mem_of_mem_head? hx)).1 hpair
  have h₁ := (h₀.getNextBid hnext).getNextAsk
  have hstate : e₁.getNextAsk.pendingState = c.push := by
    rw [getNextAsk_pendingState, getNextBid_pendingState hnext, hopened.pendingState]
  obtain ⟨h₂, hstate₂⟩ := hrounds.invariant
    (I := fun e => NoBids e ∧ e.pendingState = c.push)
    (fun e e' h hround => by cases (h.1.matchRound hround).1) ⟨h₁, hstate⟩
  exact (h₂.matchRound hend).2.trans hstate₂

/-! ### The book after `execute` -/

/-- **When `execute` returns true, a market of bids and asks is uncrossed**, and orders that were
not reached are unchanged: exactly when no stray bid hides the bids of the market, or they did not
cross the asks in the first place. -/
theorem execute_uncrosses (crypto : Crypto) {c c' : ChainInterface} {quoteId baseId : ℤ}
    {e₀ e : MarketEngine} (hp : c.IsPending) (hfresh : FreshBooks c ⟨quoteId, baseId⟩)
    (honly : OnlyBidsAndAsks c ⟨quoteId, baseId⟩)
    (h : Completes crypto c quoteId baseId e₀ e c') :
    (Uncrossed c' ⟨quoteId, baseId⟩ ∧ KeepsUnreached c c' e₀ e) ↔
      (¬StrayBid c quoteId baseId ∨ Uncrossed c ⟨quoteId, baseId⟩) := by
  obtain ⟨hbids, hasks⟩ := h.getRecord hp
  have hpair := (openMarket_eq_ok h.opened).1.pair
  by_cases hstray : StrayBid c quoteId baseId
  · have hstate := h.pendingState_of_stray honly hstray
    have hbidSame : ∀ key, c'.getBidRecord key = c.getBidRecord key := fun key => by
      rw [hbids, hstate, ChainInterface.getBidRecord_eq, push_flat, ChainInterface.getBidRecord_eq]
    have haskSame : ∀ key, c'.getAskRecord key = c.getAskRecord key := fun key => by
      rw [hasks, hstate, ChainInterface.getAskRecord_eq, push_flat, ChainInterface.getAskRecord_eq]
    have hcross : Uncrossed c' ⟨quoteId, baseId⟩ ↔ Uncrossed c ⟨quoteId, baseId⟩ := by
      unfold Uncrossed
      simp only [hbidSame, haskSame]
    have hkeeps : KeepsUnreached c c' e₀ e :=
      ⟨fun key hne => absurd (hbidSame key) hne, fun key hne => absurd (haskSame key) hne⟩
    rw [hcross]
    exact ⟨fun h => Or.inr h.1, fun h => ⟨h.resolve_left (not_not_intro hstray), hkeeps⟩⟩
  · have hstart := startsBooks_of_open hfresh h.opened
    obtain ⟨e₁, n, e₂, hnext, -, hrounds, hend⟩ := h.rounds
    have h₁ := ((walksBooks_of_open hfresh honly hstray h.opened).getNextBid hnext).1.getNextAsk.1
    have h₂ := hrounds.invariant (I := WalksBooks c e₀)
      (fun e e' h hround => h.matchRound hround) h₁
    have hcross := h₂.uncrossed hstart hend
    have hkeeps := (h₂.matchRound hend).keepsUnreached
    rw [hpair] at hcross
    refine ⟨fun _ => Or.inl hstray, fun _ => ⟨?_, ?_⟩⟩
    · unfold Uncrossed at hcross ⊢
      simpa only [hbids, hasks] using hcross
    · exact ⟨fun key hne => hkeeps.bids key (hbids key ▸ hne),
        fun key hne => hkeeps.asks key (hasks key ▸ hne)⟩

/-- A market without shorts and margin positions, in a new pending state. -/
private theorem marketChain_push (quote base : AssetRecord) (feed : FeedValue)
    (bids asks : List (MarketIndexKey × OrderRecord)) (pair : AssetPair) :
    (marketChain quote base feed bids asks [] []).push.IsPending ∧
      FreshBooks (marketChain quote base feed bids asks [] []).push pair ∧
      OnlyBidsAndAsks (marketChain quote base feed bids asks [] []).push pair := by
  have hempty : ∀ {α : Type} {key : MarketIndexKey} {r : α},
      (∅ : Table MarketIndexKey α)[key]? = some r → key.assetPair ≠ pair := by
    intro α key r h
    rw [Table.getElem?_empty'] at h
    cases h
  refine ⟨List.cons_ne_nil _ _, fun o ho key _ => ?_, fun key r h => hempty h, fun key r h => hempty h⟩
  obtain rfl := List.mem_singleton.1 ho
  exact ⟨Table.getElem?_empty' key, Table.getElem?_empty' key⟩

theorem execute_uncrosses_smallMarket : ∃ e₀ e c',
    Completes .transparent smallMarket.push 1 0 e₀ e c' ∧ Uncrossed c' ⟨1, 0⟩ ∧
      KeepsUnreached smallMarket.push c' e₀ e := by
  have hrun : (openMarket smallMarket.push 1 0 >>= fun e₀ =>
      e₀.matchMarket .transparent).isOk = true := by decide +kernel
  obtain ⟨c', hrun⟩ := exists_eq_ok hrun
  rw [bind_eq_ok] at hrun
  obtain ⟨e₀, hopen, hmatch⟩ := hrun
  obtain ⟨e, hcompletes⟩ := completes_of_matchMarket hopen hmatch
  obtain ⟨hp, hfresh, honly⟩ := marketChain_push _ _ _ _ _ ⟨1, 0⟩
  have hbids : ∀ x ∈ smallMarket.push.db.bids.toList, x.1.assetPair = ⟨1, 0⟩ := by decide +kernel
  have hstray : ¬StrayBid smallMarket.push 1 0 := by
    rintro ⟨-, key, r, hget, hbetween⟩
    have hpair := MarketIndexKey.assetPair_eq_iff.1 (hbids (key, r) (Table.mem_toList.2 hget))
    dsimp only at hpair
    omega
  exact ⟨e₀, e, c', hcompletes,
    (execute_uncrosses .transparent hp hfresh honly hcompletes).2 (Or.inl hstray)⟩

/-- The small market, with one bid of the market of the assets `2` and `-1`. -/
def strayMarket : ChainInterface :=
  (marketChain { id := 1, issuerAccountId := 3 } { id := 0 } .null
    [(⟨⟨2 * btsPricePrecision, 1, 0⟩, 7⟩, { balance := 100 }),
      (⟨⟨btsPricePrecision, 2, -1⟩, 7⟩, { balance := 1 })]
    [(⟨⟨btsPricePrecision, 1, 0⟩, 8⟩, { balance := 30 })] [] []).push

/-- `execute` returns true, and leaves the bid of 2 and the ask of 1 in the book. -/
theorem execute_uncrosses_strayMarket : ∃ e₀ e c', strayMarket.IsPending ∧
    FreshBooks strayMarket ⟨1, 0⟩ ∧ OnlyBidsAndAsks strayMarket ⟨1, 0⟩ ∧
    Completes .transparent strayMarket 1 0 e₀ e c' ∧ ¬Uncrossed c' ⟨1, 0⟩ := by
  have hrun : (openMarket strayMarket 1 0 >>= fun e₀ => e₀.matchMarket .transparent >>= fun c' =>
      require (c'.getBidRecord ⟨⟨2 * btsPricePrecision, 1, 0⟩, 7⟩ = some { balance := 100 } ∧
        c'.getAskRecord ⟨⟨btsPricePrecision, 1, 0⟩, 8⟩ = some { balance := 30 })
        .outOfBounds).isOk = true := by decide +kernel
  obtain ⟨_, hrun⟩ := exists_eq_ok hrun
  simp only [bind_eq_ok, require_eq_ok] at hrun
  obtain ⟨e₀, hopen, c', hmatch, hbid, hask⟩ := hrun
  obtain ⟨e, hcompletes⟩ := completes_of_matchMarket hopen hmatch
  obtain ⟨hp, hfresh, honly⟩ := marketChain_push _ _ _ _ _ ⟨1, 0⟩
  refine ⟨e₀, e, c', hp, hfresh, honly, hcompletes, fun huncrossed => ?_⟩
  have hquantity : (bidOf ⟨⟨2 * btsPricePrecision, 1, 0⟩, 7⟩ { balance := 100 }).getQuantity =
      .ok ⟨50, 0⟩ := by decide +kernel
  have hlt := huncrossed _ _ _ _ _ rfl hbid hquantity (by decide) rfl hask (by decide)
  exact absurd hlt (by decide +kernel)

end MarketEngine

end LarkX
