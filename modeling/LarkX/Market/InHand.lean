import LarkX.Market.Calls
import LarkX.Market.Uncrossed

/-!
# The orders in hand

The engine reads its orders from the database and keeps the current ones in memory, while it writes
what they trade to the pending state. The two agree (`InHand`): a bid, a short or an ask in hand is
what the pending state holds under its key, and so is every entry ahead. The one exception is a
short that trades for nothing: what is left of it in memory is not stored, but then nothing is left
of it (`AtBoundary`).

Margin positions are no part of this. A short of the run may add to a position that is read from
the database later.
-/

namespace LarkX

namespace MarketEngine

open Table (Cursor)

variable {crypto : Crypto} {c c' : ChainInterface} {quoteId baseId : ℤ}
  {e₀ e e₁ e' : MarketEngine} {bid ask : MarketOrder} {hand : Option MarketOrder} {goOn : Bool}
  {mtrx mtrx' : MarketTransaction}

/-- The entry of an order in hand, when it is of a type. -/
def handOf (type : OrderType) (hand : Option MarketOrder) : Option (MarketIndexKey × OrderRecord) :=
  (hand.filter fun o => decide (o.type = type)).map MarketOrder.entry

@[simp] theorem handOf_none (type : OrderType) : handOf type none = none := rfl

theorem handOf_some {type : OrderType} {o : MarketOrder} (h : o.type = type) :
    handOf type (some o) = some o.entry := by
  unfold handOf
  rw [Option.filter_some_pos (by exact decide_eq_true h), Option.map_some]

theorem handOf_of_ne {type type' : OrderType} {o : MarketOrder} (h : o.type = type')
    (hne : type' ≠ type) : handOf type (some o) = none := by
  unfold handOf
  rw [Option.filter_some_neg (by exact decide_eq_false (h ▸ hne)), Option.map_none]

/-- With `hand` as the current bid, the orders in hand and ahead are those of the pending state. -/
structure InHand (hand : Option MarketOrder) (e : MarketEngine) : Prop where
  bids : Cursor (fun x y => compare y x = .lt) e.pendingState.flat.bids (handOf .bidOrder hand)
    (ofMarket e.pair e.bidItr)
  shorts : Cursor (fun x y => compare y x = .lt) e.pendingState.flat.shorts (handOf .shortOrder hand)
    (ofMarket e.pair e.shortItr)
  asks : Cursor (fun x y => compare x y = .lt) e.pendingState.flat.asks
    (handOf .askOrder e.currentAsk) (ofMarket e.pair e.askItr)
  cover : ∀ o, e.currentAsk = some o → o.type = .coverOrder →
    e.currentCollatRecord.payoffBalance = o.state.balance
  fits : ∀ o, hand = some o → o.type = .shortOrder → IsInt64 o.state.balance
  shortsFit : ∀ x ∈ e.shortItr, IsInt64 x.2.balance

/-- Between two rounds: a current bid of which something is left is in hand. -/
structure AtBoundary (e : MarketEngine) : Prop where
  released : InHand none e
  live : e.BidLive → InHand e.currentBid e

namespace InHand

theorem release (h : InHand hand e) : InHand none e :=
  { h with
    bids := h.bids.release
    shorts := h.shorts.release
    fits := fun o ho => by cases ho }

theorem atBoundary (h : InHand e.currentBid e) : AtBoundary e :=
  ⟨h.release, fun _ => h⟩

/-- What the orders in hand are in the pending state. -/
theorem bid_stored (h : InHand (some bid) e) (htype : bid.type = .bidOrder) :
    e.pendingState.flat.bids[bid.marketIndex]? = some bid.state :=
  h.bids.held bid.entry (handOf_some htype)

theorem short_stored (h : InHand (some bid) e) (htype : bid.type = .shortOrder) :
    e.pendingState.flat.shorts[bid.marketIndex]? = some bid.state :=
  h.shorts.held bid.entry (handOf_some htype)

theorem ask_stored (h : InHand hand e) (hask : e.currentAsk = some ask)
    (htype : ask.type = .askOrder) : e.pendingState.flat.asks[ask.marketIndex]? = some ask.state :=
  h.asks.held ask.entry (by rw [hask]; exact handOf_some htype)

/-! ### Fetching -/

theorem fetchesBid (h : InHand none e) (hfetch : FetchesBid e e') : InHand e'.currentBid e' := by
  cases hfetch with
  | @bid key r rest hitr hpair =>
    have hbids := h.bids
    rw [hitr, ofMarket_cons hpair] at hbids
    exact { h with
      bids := hbids.next
      fits := fun o ho htype => by
        cases ho
        cases htype }
  | @short key r rest hitr hpair =>
    have hshorts := h.shorts
    rw [hitr, ofMarket_cons hpair] at hshorts
    have hfit := h.shortsFit
    rw [hitr] at hfit
    exact { h with
      shorts := hshorts.next
      fits := fun o ho _ => by
        cases ho
        exact hfit (key, r) List.mem_cons_self
      shortsFit := fun x hx => hfit x (List.mem_cons_of_mem _ hx) }
  | none => exact { h with fits := fun o ho => by cases ho }

theorem fetchesAsk (h : InHand hand e) (hfetch : FetchesAsk e e') : InHand hand e' := by
  cases hfetch with
  | cover =>
    exact { h with
      asks := h.asks.release
      cover := fun o ho _ => Option.some.inj ho ▸ rfl }
  | @ask key r rest collateralItr collat habandon hitr hpair =>
    have hasks := h.asks
    rw [hitr, ofMarket_cons hpair] at hasks
    exact { h with
      asks := hasks.next
      cover := fun o ho htype => by
        cases ho
        cases htype }
  | @none collateralItr collat habandon hasks =>
    have hrelease := h.asks.release
    rw [← ofMarket_tail hasks] at hrelease
    exact { h with
      asks := hrelease
      cover := fun o ho _ => by cases ho }

theorem getNextAsk (h : InHand hand e) : InHand hand e.getNextAsk := by
  obtain ⟨-, heq⟩ | ⟨-, hfetch⟩ := getNextAsk_cases e
  · rwa [heq]
  · exact h.fetchesAsk hfetch

end InHand

theorem AtBoundary.getNextBid (h : AtBoundary e) (hnext : e.getNextBid = .ok e') :
    InHand e'.currentBid e' := by
  obtain ⟨hlive, rfl⟩ | ⟨-, hfetch⟩ := getNextBid_eq_ok hnext
  · exact h.live hlive
  · exact h.released.fetchesBid hfetch

theorem AtBoundary.enters (h : AtBoundary e) (henters : Enters e e₁ bid ask) :
    InHand (some bid) e₁ := by
  obtain ⟨⟨e₀, hnext, hbid, rfl⟩, -⟩ := henters
  exact hbid ▸ (h.getNextBid hnext).getNextAsk

/-! ### Trading -/

namespace InHand

theorem payCurrentBid (hp : e.pendingState.IsPending) (h : InHand (some bid) e)
    (hpay : e.payCurrentBid crypto bid mtrx = .ok e') : InHand e'.currentBid e' := by
  obtain ⟨htype, -, kept, fees, -, rfl⟩ := payCurrentBid_eq_ok hp hpay
  have hflat : (e.afterBid crypto bid mtrx kept fees).pendingState.flat = _ :=
    afterBid_flat hp kept fees
  have hbids := h.bids
  rw [handOf_some htype] at hbids
  refine ⟨?_, ?_, ?_, h.cover, fun o ho hshort => ?_, h.shortsFit⟩
  · rw [hflat]
    have hwrite := hbids.write (w := (bid.setBalance kept).state) compare_irrefl
    exact (handOf_some (o := bid.setBalance kept) htype).symm ▸ hwrite
  · rw [hflat]
    have hnone : handOf .shortOrder (some (bid.setBalance kept)) = none :=
      handOf_of_ne htype (by decide)
    exact hnone.symm ▸ h.shorts.release
  · rw [hflat]
    exact h.asks
  · cases ho
    exact absurd (htype.symm.trans hshort) (by decide)

/-- A short that trades for nothing is not in hand any more, one that is paid is. -/
theorem payCurrentShort (crypto : Crypto) (hp : e.pendingState.IsPending) (h : InHand (some bid) e)
    (hpay : e.payCurrentShort bid mtrx = .ok e') :
    InHand none e' ∧ (0 < mtrx.bidPaid.amount → InHand e'.currentBid e') := by
  obtain ⟨htype, shortCollateral, collateral, -, -, ⟨hzero, rfl⟩ | ⟨-, -, coverIndex, -, rfl⟩⟩ :=
    payCurrentShort_eq_ok crypto hp hpay
  · exact ⟨{ h.release with }, fun hpos => absurd hzero hpos.ne'⟩
  · suffices hafter : InHand (some (bid.setBalance _)) _ from ⟨hafter.release, fun _ => hafter⟩
    have hrange := isInt64_wrap64 (bid.state.balance - shortCollateral.amount)
    generalize wrap64 (bid.state.balance - shortCollateral.amount) = left at hrange
    have hflat : (e.issued mtrx.bidPaid.amount |>.afterShort crypto bid coverIndex collateral.amount
        mtrx.bidPaid.amount left).pendingState.flat = _ := flat_write_write hp _ _
    have hshorts := h.shorts
    rw [handOf_some htype] at hshorts
    refine ⟨?_, ?_, ?_, h.cover, fun o ho _ => Option.some.inj ho ▸ hrange, h.shortsFit⟩
    · rw [hflat]
      have hnone : handOf .bidOrder (some (bid.setBalance left)) = none :=
        handOf_of_ne htype (by decide)
      exact hnone.symm ▸ h.bids.release
    · rw [hflat]
      have hwrite := hshorts.write (w := (bid.setBalance left).state) compare_irrefl
      exact (handOf_some (o := bid.setBalance left) htype).symm ▸ hwrite
    · rw [hflat]
      exact h.asks

theorem payCurrentAsk (hp : e.pendingState.IsPending) (h : InHand hand e)
    (hask : e.currentAsk = some ask) {feesToQuote : Bool}
    (hpay : e.payCurrentAsk crypto ask mtrx feesToQuote = .ok e') : InHand hand e' := by
  obtain ⟨htype, -, kept, quoteFees, baseFees, rfl, -, -⟩ := payCurrentAsk_eq_ok hp hpay
  have hflat : (e.afterAsk crypto ask mtrx kept quoteFees baseFees).pendingState.flat = _ :=
    afterAsk_flat hp kept quoteFees baseFees
  have hasks := h.asks
  rw [hask, handOf_some htype] at hasks
  refine ⟨?_, ?_, ?_, fun o ho hcover => ?_, h.fits, h.shortsFit⟩
  · rw [hflat]
    exact h.bids
  · rw [hflat]
    exact h.shorts
  · rw [hflat]
    have hwrite := hasks.write (w := (ask.setBalance kept).state) compare_irrefl
    exact (handOf_some (o := ask.setBalance kept) htype).symm ▸ hwrite
  · cases ho
    exact absurd (htype.symm.trans hcover) (by decide)

/-- A write of a margin position leaves the books of orders alone. -/
theorem afterCover (hp : e.pendingState.IsPending) (h : InHand hand e)
    (htype : ask.type = .coverOrder) (left owed : ℤ) :
    InHand hand (e.afterCover crypto ask left owed) := by
  have hflat : (e.afterCover crypto ask left owed).pendingState.flat = _ :=
    ChainInterface.flat_write hp _
  refine ⟨?_, ?_, ?_, fun o ho _ => Option.some.inj ho ▸ rfl, h.fits, h.shortsFit⟩
  · rw [hflat]
    exact h.bids
  · rw [hflat]
    exact h.shorts
  · rw [hflat]
    have hnone : handOf .askOrder (some { ask.setBalance owed with collateral := left }) = none :=
      handOf_of_ne htype (by decide)
    exact hnone.symm ▸ h.asks.release

theorem payOut (hp : e.pendingState.IsPending) (h : InHand hand e) (owner : Address) (funds : Asset) :
    InHand hand (e.payOut crypto owner funds) := by
  rw [payOut_eq hp]
  have hflat : (e.withState (e.pendingState.write crypto (.balance
      (credited crypto e.pendingState owner funds)))).pendingState.flat = _ :=
    ChainInterface.flat_write hp _
  refine ⟨?_, ?_, ?_, h.cover, h.fits, h.shortsFit⟩
  · rw [hflat]
    exact h.bids
  · rw [hflat]
    exact h.shorts
  · rw [hflat]
    exact h.asks

theorem payCurrentCover (hp : e.pendingState.IsPending) (h : InHand hand e)
    (hpay : e.payCurrentCover crypto ask mtrx = .ok (e', mtrx')) : InHand hand e' := by
  obtain ⟨htype, totalDebt, principlePaid, interestPaid, left, owed, -, hcloses⟩ :=
    payCurrentCover_eq_ok hp hpay
  have hrepaid : InHand hand (e.repaid principlePaid.amount interestPaid.amount) := { h with }
  have hp₁ : (e.repaid principlePaid.amount interestPaid.amount).pendingState.IsPending := hp
  generalize e.repaid principlePaid.amount interestPaid.amount = e₁ at hcloses hrepaid hp₁
  cases hcloses with
  | atLoss => exact InHand.afterCover (e := e₁.charged owed) hp₁ { hrepaid with } htype 0 0
  | paidOff =>
    exact (hrepaid.payOut hp₁ ask.getOwner _).afterCover
      ((payOut_writes crypto hp₁ _ _).isPending hp₁) htype 0 0
  | kept => exact hrepaid.afterCover hp₁ htype left owed

/-- A short that trades for nothing keeps all it has, or has nothing left. -/
theorem payCurrentShort_idle (crypto : Crypto) (hp : e.pendingState.IsPending)
    (h : InHand (some bid) e) {feed : Price} {forSale : Asset}
    (hputs : PutsUp feed bid forSale mtrx.bidPaid mtrx.shortCollateral)
    (hpay : e.payCurrentShort bid mtrx = .ok e') (hidle : mtrx.bidPaid.amount = 0) :
    ∃ bid', e'.currentBid = some bid' ∧ (bid'.state.balance = 0 ∨ InHand (some bid') e') := by
  obtain ⟨htype, put, collateral, hput, -, ⟨-, rfl⟩ | ⟨hpos, -⟩⟩ :=
    payCurrentShort_eq_ok crypto hp hpay
  · refine ⟨_, rfl, ?_⟩
    have hall : put.amount = bid.state.balance ∨ put.amount = 0 := by
      obtain ⟨-, hamount | hamount⟩ := shortCollateralOf_eq_ok hput
      · obtain ⟨-, heq⟩ | ⟨-, hmul⟩ := hputs
        · rw [hamount, heq, bid.getBalance_amount]
          exact Or.inl rfl
        · exact Or.inr (hamount.trans (Asset.mulPrice_zero hidle hmul))
      · exact Or.inl hamount
    obtain heq | hzero := hall
    · rw [heq, sub_self]
      exact Or.inl rfl
    · rw [hzero, sub_zero, wrap64_eq_self (h.fits bid rfl htype)]
      exact Or.inr { h with }
  · exact absurd hidle hpos.ne'

/-- **After a trade the orders in hand are those of the pending state again.** -/
theorem trade (h : OnMarket e) (hin : InHand (some bid) e) (hbid : e.currentBid = some bid)
    (hask : e.currentAsk = some ask) (htrade : e.trade crypto bid ask mtrx = .ok (e', mtrx')) :
    AtBoundary e' := by
  have hp := h.pending
  -- a short that has traded for nothing is in hand or spent, whatever the other side does
  have hidle : ∀ {e₁ : MarketEngine} {mtrx₁ : MarketTransaction} {feed : Price} {forSale : Asset},
      PutsUp feed bid forSale mtrx₁.bidPaid mtrx₁.shortCollateral →
      e.payCurrentShort bid mtrx₁ = .ok e₁ →
      (∀ hand, InHand hand e₁ → InHand hand e') → e'.currentBid = e₁.currentBid → AtBoundary e' := by
    intro e₁ mtrx₁ feed forSale hputs hshort hother hsame
    obtain ⟨hreleased, hpaid⟩ := hin.payCurrentShort crypto hp hshort
    refine ⟨hother none hreleased, fun hlive => ?_⟩
    rw [hsame]
    rcases eq_or_ne mtrx₁.bidPaid.amount 0 with hzero | hne
    · obtain ⟨bid', hbid', hspent | hkept⟩ := hin.payCurrentShort_idle crypto hp hputs hshort hzero
      · obtain ⟨-, bid'', hbid'', hsameBid, -⟩ := payCurrentShort_usesUp crypto hp hshort
        rw [hbid'] at hbid''
        cases hbid''
        refine absurd hlive (not_bidLive_of_balance (hsame.trans hbid') ?_ hspent)
        rw [hsameBid.type]
        exact (h.bid bid hbid).1
      · rw [hbid']
        exact hother _ hkept
    · refine hother _ (hpaid (lt_of_le_of_ne ?_ hne.symm))
      obtain ⟨-, -, -, -, -, ⟨hzero, -⟩ | ⟨hpos, -⟩⟩ := payCurrentShort_eq_ok crypto hp hshort
      · exact hzero.ge
      · exact hpos.le
  obtain ⟨-, -, h'⟩ | ⟨-, -, h'⟩ | ⟨-, -, h'⟩ | ⟨-, -, h'⟩ := trade_cases (h.paired hbid hask) htrade
  · obtain ⟨feed, forSale, maxAfford, coverDebt, usd, askPaid, shortCollateral, e₁, -, -, -, -, hputs,
      hshort, hcover⟩ := tradeShortCover_eq_ok h'
    have hp₁ := (payCurrentShort_sameWalk crypto hp hshort).isPending hp
    exact hidle hputs hshort (fun hand hin₁ => hin₁.payCurrentCover hp₁ hcover)
      (payCurrentCover_usesUp hp₁ hcover).1
  · obtain ⟨maxAfford, coverDebt, usd, askPaid, e₁, -, -, hpay, hcover⟩ := tradeBidCover_eq_ok h'
    have hp₁ := (payCurrentBid_sameWalk hp hpay).isPending hp
    have hin' := (hin.payCurrentBid hp hpay).payCurrentCover hp₁ hcover
    rw [← (payCurrentCover_usesUp hp₁ hcover).1] at hin'
    exact hin'.atBoundary
  · obtain ⟨feed, forSale, wanted, usd, askPaid, shortCollateral, e₁, -, -, -, -, hputs, -, rfl,
      hshort, hpay⟩ := tradeShortAsk_eq_ok h'
    have hp₁ := (payCurrentShort_sameWalk crypto hp hshort).isPending hp
    have hask₁ := (payCurrentShort_usesUp crypto hp hshort).1.ask.trans hask
    exact hidle hputs hshort (fun hand hin₁ => hin₁.payCurrentAsk hp₁ hask₁ hpay)
      (payCurrentAsk_usesUp hp₁ hpay).1
  · obtain ⟨bidQuantity, askQuantity, quantity, askReceived, bidPaid, e₁, -, -, -, -, -, -, -, -, -,
      -, -, -, hpayBid, hpayAsk⟩ := tradeBidAsk_eq_ok h'
    have hp₁ := (payCurrentBid_sameWalk hp hpayBid).isPending hp
    have hask₁ := (payCurrentBid_usesUp hp hpayBid).1.ask.trans hask
    have hin' := (hin.payCurrentBid hp hpayBid).payCurrentAsk hp₁ hask₁ hpayAsk
    rw [← (payCurrentAsk_usesUp hp₁ hpayAsk).1] at hin'
    exact hin'.atBoundary

end InHand

/-! ### Rounds -/

/-- **A round of the loop** leaves the orders in hand as the pending state holds them. -/
theorem AtBoundary.matchOrders (h : OnMarket e) (hin : InHand (some bid) e)
    (hbid : e.currentBid = some bid) (hask : e.currentAsk = some ask)
    (hmatch : Matches crypto e bid ask e' goOn) : AtBoundary e' := by
  cases hmatch with
  | skipBid =>
    refine ⟨{ hin.release with }, fun hlive => absurd hlive (not_bidLive_of_none rfl)⟩
  | skipAsk =>
    have hin' : InHand (some bid) { e with currentAsk := none } :=
      { hin with
        asks := hin.asks.release
        cover := fun o ho => by cases ho }
    exact InHand.atBoundary (e := { e with currentAsk := none }) (hbid.symm ▸ hin')
  | spread => exact InHand.atBoundary (hbid.symm ▸ hin)
  | traded hprice hcross htrade hcollect =>
    obtain ⟨hreleased, hlive⟩ := hin.trade h hbid hask htrade
    obtain ⟨volume, quoteFees, baseFees, rfl⟩ := hcollect.rest
    exact ⟨{ hreleased with }, fun hbidLive => { hlive hbidLive with }⟩

theorem AtBoundary.round (h : OnMarket e) (hin : AtBoundary e) (hround : Round crypto e e' goOn) :
    AtBoundary e' := by
  cases hround with
  | noBid hnext hbid => exact (hin.getNextBid hnext).atBoundary
  | @noAsk e₁ hnext hask =>
    have hin₁ := (hin.getNextBid hnext).getNextAsk
    rw [← getNextAsk_currentBid e₁] at hin₁
    exact hin₁.atBoundary
  | @body e₁ _ bid ask _ henters hfilled hmatch =>
    obtain ⟨h₁, hbid⟩ := henters.onMarket h
    exact AtBoundary.matchOrders (e := e₁.counted) { h₁ with } { hin.enters henters with } hbid
      henters.ask hmatch

/-! ### Where a run starts -/

/-- The books of orders the engine reads from the database are those of the pending state it is
opened on, and what a short holds is a 64-bit amount. -/
structure ReadsBooks (c : ChainInterface) (pair : AssetPair) : Prop where
  books : FreshBooks c pair
  shorts : ∀ o ∈ c.overlays, ∀ key : MarketIndexKey, key.assetPair = pair → o.shorts[key]? = none
  fits : ∀ (key : MarketIndexKey) (r : OrderRecord), c.db.shorts[key]? = some r → IsInt64 r.balance

theorem ReadsBooks.flat_shorts {pair : AssetPair} (h : ReadsBooks c pair) {key : MarketIndexKey}
    (hkey : key.assetPair = pair) : c.flat.shorts[key]? = c.db.shorts[key]? := by
  have hshorts := h.shorts
  clear h
  obtain ⟨os, db, now, n⟩ := c
  change (ChainInterface.flatOf db os).shorts[key]? = _
  induction os with
  | nil => rfl
  | cons o os ih =>
    have hnone := hshorts o List.mem_cons_self key hkey
    rw [ChainInterface.flatOf, Tables.above, Table.getElem?_above, hnone]
    exact ih fun o' ho' => hshorts o' (List.mem_cons_of_mem _ ho')

/-- An engine that is opened has the books of its market ahead, as they are stored. -/
theorem inHand_of_open (hreads : ReadsBooks c ⟨quoteId, baseId⟩)
    (hopen : openMarket c quoteId baseId = .ok e) : InHand none e := by
  have hends := openMarket_atEnds hopen
  have hopened := (openMarket_eq_ok hopen).1
  have hpair := hopened.pair
  have hflat : e.pendingState.flat = c.flat := hopened.pendingState ▸ push_flat c
  refine {
    bids := ?_
    shorts := ?_
    asks := ?_
    cover := fun o ho => by rw [hopened.ask] at ho; cases ho
    fits := fun o ho => by cases ho
    shortsFit := fun x hx => ?_ }
  · rw [hflat, hpair, hends.bidItr]
    refine .of_sorted (fun x hx => ?_) ((entriesBefore_sorted _ _).sublist List.filter_sublist)
    obtain ⟨hmem, hkey⟩ := mem_ofMarket.1 hx
    rw [(hreads.books.flat hkey).1]
    exact (mem_entriesBefore.1 hmem).1
  · rw [hflat, hpair, hends.shortItr]
    refine .of_sorted (fun x hx => ?_) ((entriesBefore_sorted _ _).sublist List.filter_sublist)
    obtain ⟨hmem, hkey⟩ := mem_ofMarket.1 hx
    rw [hreads.flat_shorts hkey]
    exact (mem_entriesBefore.1 hmem).1
  · rw [hflat, hopened.ask, hpair]
    refine .of_sorted (fun x hx => ?_) (List.Pairwise.sublist List.filter_sublist ?_)
    · obtain ⟨hmem, hkey⟩ := mem_ofMarket.1 hx
      rw [(hreads.books.flat hkey).2]
      obtain heq | ⟨-, heq⟩ := hends.askItr
      · rw [heq] at hmem
        exact (mem_entriesFrom.1 hmem).1
      · rw [heq] at hmem
        exact Table.mem_toList.1 hmem
    · obtain heq | ⟨-, heq⟩ := hends.askItr
      · rw [heq]
        exact entriesFrom_sorted _ _
      · rw [heq]
        exact Std.ExtTreeMap.ordered_keys_toList
  · rw [hends.shortItr] at hx
    exact hreads.fits x.1 x.2 (mem_entriesBefore.1 hx).1

/-- The loop of a run starts with the orders in hand as they are stored. -/
theorem AtBoundary.of_open (hreads : ReadsBooks c ⟨quoteId, baseId⟩)
    (hopen : openMarket c quoteId baseId = .ok e₀) (hnext : e₀.getNextBid = .ok e₁) :
    AtBoundary e₁.getNextAsk := by
  have hnone : e₀.currentBid = none := (openMarket_eq_ok hopen).1.bid
  have h₀ : AtBoundary e₀ := InHand.atBoundary (hnone.symm ▸ inHand_of_open hreads hopen)
  have h₁ := (h₀.getNextBid hnext).getNextAsk
  rw [← getNextAsk_currentBid e₁] at h₁
  exact h₁.atBoundary

end MarketEngine

end LarkX
