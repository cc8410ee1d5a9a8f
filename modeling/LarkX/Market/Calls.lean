import LarkX.Market.Rounds

/-!
# The call price of a new margin position

A short that is matched puts up collateral at half the feed price, and what it buys is added to
it. The position is kept under the price of its debt in two thirds of that collateral. With `x`
the debt at the feed price, the short puts up at least `⌊2x⌋` and buys at least `⌊x⌋`, whichever
of the amounts is the least and however the conversions round (`ShortPays.worth`); two thirds of
the sum are then worth the debt (`worth_le`), so the position is not called at the feed that
opened it.

Twice the collateral is computed in 64 bits and may wrap. `callPrice_le_iff` says when the price
is still not above the feed.
-/

namespace LarkX

namespace MarketEngine

variable {crypto : Crypto} {e e₁ e' : MarketEngine} {bid ask : MarketOrder}
  {mtrx mtrx' : MarketTransaction}

/-! ### Two thirds of the collateral -/

/-- **Two thirds of `⌊2x⌋ + ⌊x⌋` are at least `x`**, when they are anything at all. -/
theorem worth_le {debt feed put bought : ℤ} (hfeed : 0 < feed) (hdebt : 0 ≤ debt)
    (hput : 2 * debt < (put + 1) * feed) (hbought : debt < (bought + 1) * feed)
    (hpos : 0 < 2 * (put + bought) / 3) : debt ≤ 2 * (put + bought) / 3 * feed := by
  have hfloor := Int.ediv_mul_le debt hfeed.ne'
  have hlt := Int.lt_ediv_add_one_mul_self debt hfeed
  have hbought' : debt / feed ≤ bought := by
    have := lt_of_mul_lt_mul_right (hfloor.trans_lt hbought) hfeed.le
    omega
  have hput' : 2 * (debt / feed) ≤ put := by
    have hmul : 2 * (debt / feed) * feed < (put + 1) * feed := by linarith
    have := lt_of_mul_lt_mul_right hmul hfeed.le
    omega
  have hle : debt / feed + 1 ≤ 2 * (put + bought) / 3 := by
    have := Int.ediv_nonneg hdebt hfeed.le
    omega
  exact hlt.le.trans (mul_le_mul_of_nonneg_right hle hfeed.le)

/-- A quotient is not above a bound when the divisor times the bound covers the dividend. -/
theorem ediv_le_iff {x y z : ℤ} (hy : 0 < y) : x / y ≤ z ↔ x < (z + 1) * y := by
  rw [← Int.lt_add_one_iff, Int.ediv_lt_iff_lt_mul hy]

/-- Two thirds of what 64 bits keep of twice the collateral: negative when it does not fit. -/
theorem callCollateral_eq {c : ℤ} (hc : 0 ≤ c) (hrange : IsInt64 c) :
    (2 * c ≤ int64Max ∧ EvaluationState.callCollateral c = 2 * c / 3) ∨
      (int64Max < 2 * c ∧ EvaluationState.callCollateral c = -((2 ^ 64 - 2 * c) / 3)) := by
  unfold EvaluationState.callCollateral
  unfold IsInt64 int64Max at hrange
  rcases le_or_gt (2 * c) int64Max with hle | hgt
  · refine Or.inl ⟨hle, ?_⟩
    unfold int64Max at hle
    rw [wrap64_eq_self (by unfold IsInt64 int64Min int64Max; omega), mul_comm,
      Int.tdiv_eq_ediv_of_nonneg (by omega)]
  · refine Or.inr ⟨hgt, ?_⟩
    unfold int64Max at hgt
    have hwrap : wrap64 (c * 2) = -(2 ^ 64 - 2 * c) := by
      unfold wrap64
      omega
    rw [hwrap, Int.neg_tdiv, Int.tdiv_eq_ediv_of_nonneg (by omega)]

/-- The price of an amount of the quote asset in the base asset of the market. -/
theorem divAsset_market {x y quoteId baseId : ℤ} {price : Price} (hids : baseId < quoteId)
    (h : Asset.divAsset ⟨x, quoteId⟩ ⟨y, baseId⟩ = .ok price) :
    y ≠ 0 ∧ price = ⟨bigintToUint128 ((x * btsPricePrecision).tdiv y), quoteId, baseId⟩ := by
  simp only [Asset.divAsset, bind_eq_ok, require_eq_ok, pure_eq_ok, if_neg hids.not_gt] at h
  obtain ⟨-, -, -, hne, rfl⟩ := h
  exact ⟨hne, rfl⟩

/-- A quotient of shares is well within 128 bits. -/
theorem bigintToUint128_ediv {x k : ℤ} (hx : 0 ≤ x ∧ x < 2 ^ 63) (hk : 0 < k) :
    (bigintToUint128 (x * btsPricePrecision / k) : ℤ) = x * btsPricePrecision / k ∧
      bigintToUint128 (-(x * btsPricePrecision / k)) = bigintToUint128 (x * btsPricePrecision / k) := by
  have hnonneg : 0 ≤ x * btsPricePrecision / k :=
    Int.ediv_nonneg (mul_nonneg hx.1 (Int.natCast_nonneg _)) hk.le
  have hle : x * btsPricePrecision / k ≤ x * btsPricePrecision :=
    Int.ediv_le_self _ (mul_nonneg hx.1 (Int.natCast_nonneg _))
  have hprec : (btsPricePrecision : ℤ) = 1000000000000000000 := rfl
  have hlt : x * btsPricePrecision / k < 2 ^ 128 := by
    rw [hprec] at hle ⊢
    omega
  unfold bigintToUint128
  refine ⟨?_, by rw [Int.natAbs_neg]⟩
  rw [Nat.mod_eq_of_lt (by omega)]
  exact Int.natAbs_of_nonneg hnonneg

/-- **When the call price is not above the feed.** With the collateral worth the debt at the feed
price, only a wrapped product can put the price above it. -/
theorem callPrice_le_iff {paid c quoteId baseId : ℤ} {price feed : Price} (hids : baseId < quoteId)
    (hfeed : feed.assetPair = ⟨quoteId, baseId⟩) (hpaid : 0 < paid ∧ paid < 2 ^ 63) (hc : 0 ≤ c)
    (hrange : IsInt64 c)
    (hprice : Asset.divAsset ⟨paid, quoteId⟩ ⟨EvaluationState.callCollateral c, baseId⟩ = .ok price)
    (hworth : 0 < 2 * c / 3 → paid * btsPricePrecision ≤ 2 * c / 3 * feed.ratio) :
    feed.lt price = false ↔
      2 * c ≤ int64Max ∨ paid * btsPricePrecision < (feed.ratio + 1) * ((2 ^ 64 - 2 * c) / 3) := by
  obtain ⟨hne, rfl⟩ := divAsset_market hids hprice
  have hpaid' : 0 ≤ paid ∧ paid < 2 ^ 63 := ⟨hpaid.1.le, hpaid.2⟩
  have hdebt : 0 ≤ paid * btsPricePrecision := mul_nonneg hpaid.1.le (Int.natCast_nonneg _)
  rw [← Bool.not_eq_true, Price.lt_iff_of_assetPair hfeed, not_lt]
  dsimp only
  obtain ⟨hle, heq⟩ | ⟨hgt, heq⟩ := callCollateral_eq hc hrange
  · have hpos : 0 < 2 * c / 3 := by
      rw [heq] at hne
      omega
    have hratio := (bigintToUint128_ediv hpaid' hpos).1
    rw [heq, Int.tdiv_eq_ediv_of_nonneg hdebt]
    refine iff_of_true ?_ (Or.inl hle)
    have hquotient : paid * btsPricePrecision / (2 * c / 3) ≤ feed.ratio :=
      Int.ediv_le_of_le_mul hpos ((hworth hpos).trans_eq (mul_comm _ _))
    omega
  · have hpos : 0 < (2 ^ 64 - 2 * c) / 3 := by
      rw [heq] at hne
      unfold IsInt64 int64Max at hrange
      omega
    obtain ⟨hratio, hneg⟩ := bigintToUint128_ediv hpaid' hpos
    rw [heq, Int.tdiv_neg, Int.tdiv_eq_ediv_of_nonneg hdebt, hneg, or_iff_right hgt.not_ge,
      ← ediv_le_iff hpos, ← Int.ofNat_le, hratio]

/-! ### The collateral a short puts up -/

/-- What a short can sell is worth its balance at half the feed price. -/
theorem forSale_eq_ok {feed : Price} {forSale : Asset} (hbase : bid.getBalance.assetId = feed.baseAssetId)
    (hbalance : 0 ≤ bid.state.balance)
    (h : bid.getBalance.mulPrice (collateralRate feed) = .ok forSale) :
    bid.state.balance * (feed.ratio / 2 : ℕ) / btsPricePrecision < 2 ^ 63 ∧
      forSale = ⟨bid.state.balance * (feed.ratio / 2 : ℕ) / btsPricePrecision, feed.quoteAssetId⟩ := by
  have heq : bid.getBalance = ⟨bid.state.balance, (collateralRate feed).baseAssetId⟩ := by
    rw [← bid.getBalance_amount]
    exact congrArg (Asset.mk _) hbase
  rw [heq] at h
  exact (Asset.mulPrice_base_of_nonneg hbalance).1 h

/-- **A short puts up at least twice the worth of what it sells**, rounded down, and never more
than it has. -/
theorem PutsUp.worth {feed : Price} {usd forSale shortCollateral : Asset}
    (hputs : PutsUp feed bid forSale usd shortCollateral)
    (hbase : bid.getBalance.assetId = feed.baseAssetId) (hquote : usd.assetId = feed.quoteAssetId)
    (hids : feed.baseAssetId < feed.quoteAssetId) (hbalance : 0 ≤ bid.state.balance)
    (hsale : bid.getBalance.mulPrice (collateralRate feed) = .ok forSale)
    (husd : 0 ≤ usd.amount) (hle : usd.amount ≤ forSale.amount) :
    shortCollateral.assetId = feed.baseAssetId ∧ 0 ≤ shortCollateral.amount ∧
      shortCollateral.amount ≤ bid.state.balance ∧
      (0 < usd.amount → 2 * (usd.amount * btsPricePrecision) < (shortCollateral.amount + 1) * feed.ratio) := by
  obtain ⟨-, rfl⟩ := forSale_eq_ok hbase hbalance hsale
  have hprec : (0 : ℤ) < btsPricePrecision := by decide
  have hhalf : 2 * ((feed.ratio / 2 : ℕ) : ℤ) ≤ feed.ratio := by omega
  have hrate : (0 : ℤ) ≤ (feed.ratio / 2 : ℕ) := Int.natCast_nonneg _
  -- what is sold is covered by the whole balance at the collateral rate
  have hsold : usd.amount * btsPricePrecision ≤ bid.state.balance * (feed.ratio / 2 : ℕ) :=
    (mul_le_mul_of_nonneg_right hle hprec.le).trans (Int.ediv_mul_le _ hprec.ne')
  have hratePos : 0 < usd.amount → (0 : ℤ) < (feed.ratio / 2 : ℕ) := by
    intro hpos
    have hprod : 0 < bid.state.balance * (feed.ratio / 2 : ℕ) := (mul_pos hpos hprec).trans_le hsold
    exact pos_of_mul_pos_right hprod hbalance
  obtain ⟨-, rfl⟩ | ⟨-, hput⟩ := hputs
  · rw [bid.getBalance_amount]
    refine ⟨hbase, hbalance, le_rfl, fun hpos => ?_⟩
    have hdouble := mul_le_mul_of_nonneg_left hhalf hbalance
    linarith [hratePos hpos]
  · have heq : usd = ⟨usd.amount, (collateralRate feed).quoteAssetId⟩ := congrArg (Asset.mk _) hquote
    have hne : (collateralRate feed).quoteAssetId ≠ (collateralRate feed).baseAssetId := hids.ne'
    rw [heq, Asset.mulPrice_quote_of_nonneg husd hne] at hput
    obtain ⟨-, rfl⟩ := hput
    have hnonneg : 0 ≤ usd.amount * btsPricePrecision / (feed.ratio / 2 : ℕ) :=
      Int.ediv_nonneg (mul_nonneg husd hprec.le) hrate
    refine ⟨rfl, hnonneg, ?_, fun hpos => ?_⟩
    · rcases hrate.eq_or_lt with hzero | hpos
      · change usd.amount * btsPricePrecision / ((feed.ratio / 2 : ℕ) : ℤ) ≤ _
        rw [← hzero, Int.ediv_zero]
        exact hbalance
      · exact Int.ediv_le_of_le_mul hpos hsold
    · have hlt := Int.lt_ediv_add_one_mul_self (usd.amount * btsPricePrecision) (hratePos hpos)
      have hdouble := mul_le_mul_of_nonneg_left hhalf (add_nonneg hnonneg zero_le_one)
      change _ < (usd.amount * btsPricePrecision / ((feed.ratio / 2 : ℕ) : ℤ) + 1) * _
      linarith

/-- The dust rule adds to the collateral, up to all the short has. -/
theorem shortCollateralOf_eq_ok {put shortCollateral : Asset}
    (h : e.shortCollateralOf bid put = .ok shortCollateral) :
    shortCollateral.assetId = put.assetId ∧ (shortCollateral.amount = put.amount ∨
      shortCollateral.amount = bid.state.balance) := by
  simp only [shortCollateralOf, bind_eq_ok, ite_eq_ok, pure_eq_ok] at h
  obtain ⟨remaining, hsub, ⟨-, hadd⟩ | ⟨-, rfl⟩⟩ := h
  · obtain ⟨-, hid, hamount, -⟩ := Asset.add_eq_ok hadd
    obtain ⟨-, -, hremaining, -⟩ := Asset.sub_eq_ok hsub
    refine ⟨hid, Or.inr ?_⟩
    rw [hamount, hremaining, bid.getBalance_amount]
    ring
  · exact ⟨rfl, Or.inl rfl⟩

/-! ### What a short buys -/

/-- An amount that an amount of the base asset is worth is covered by it. -/
theorem mulPrice_base_le {a r : Asset} {p : Price} (hid : a.assetId = p.baseAssetId)
    (h : a.mulPrice p = .ok r) (hpos : 0 < r.amount) :
    r.amount * btsPricePrecision ≤ a.amount * p.ratio ∧ r.assetId = p.quoteAssetId ∧
      r.amount < 2 ^ 63 := by
  obtain ⟨hfits, rfl⟩ := (Asset.mulPrice_base hid).1 h
  dsimp only at hpos ⊢
  rcases le_or_gt 0 (a.amount * p.ratio) with hnonneg | hneg
  · rw [Int.tdiv_eq_ediv_of_nonneg hnonneg] at hpos hfits ⊢
    exact ⟨Int.ediv_mul_le _ (by decide), rfl, by omega⟩
  · have hneg' : (a.amount * p.ratio).tdiv btsPricePrecision ≤ 0 := by
      rw [← neg_neg (a.amount * (p.ratio : ℤ)), Int.neg_tdiv]
      exact neg_nonpos.2 (Int.tdiv_nonneg (by omega) (Int.natCast_nonneg _))
    exact absurd hpos hneg'.not_gt

/-- What an amount of the quote asset buys is worth it, but for the rounding. -/
theorem mulPrice_quote_lt {a r : Asset} {p : Price} (hid : a.assetId = p.quoteAssetId)
    (hne : p.quoteAssetId ≠ p.baseAssetId) (h : a.mulPrice p = .ok r) (hpos : 0 ≤ a.amount)
    (hratio : 0 < p.ratio) :
    a.amount * btsPricePrecision < (r.amount + 1) * p.ratio ∧ r.assetId = p.baseAssetId := by
  obtain ⟨-, rfl⟩ := (Asset.mulPrice_quote hid hne).1 h
  rw [Int.tdiv_eq_ediv_of_nonneg (mul_nonneg hpos (Int.natCast_nonneg _))]
  exact ⟨Int.lt_ediv_add_one_mul_self _ (by exact_mod_cast hratio), rfl⟩

/-- A price at which anything is worth something is not zero. -/
theorem pos_of_worth {worth amount : ℤ} {ratio : ℕ} (hpos : 0 < worth)
    (h : worth * btsPricePrecision ≤ amount * ratio) : 0 < ratio := by
  rcases Nat.eq_zero_or_pos ratio with rfl | hratio
  · have hprod : 0 < worth * btsPricePrecision := mul_pos hpos (by decide)
    rw [Nat.cast_zero, mul_zero] at h
    exact absurd h hprod.not_ge
  · exact hratio

/-- What `askPaid` shares of the base asset buy at a price: all of the `usd`, up to rounding. -/
def Buys (feed : Price) (usd askPaid : Asset) : Prop :=
  usd.amount * btsPricePrecision < (askPaid.amount + 1) * feed.ratio

/-- At a price that is not above the feed. -/
theorem Buys.of_le {feed price : Price} {usd askPaid : Asset} (hle : price.ratio ≤ feed.ratio)
    (hnonneg : 0 ≤ usd.amount) (h : Buys price usd askPaid) : Buys feed usd askPaid := by
  have hpos : 0 < askPaid.amount + 1 := by
    by_contra hneg
    have hprod : (askPaid.amount + 1) * (price.ratio : ℤ) ≤ 0 :=
      mul_nonpos_of_nonpos_of_nonneg (not_lt.1 hneg) (Int.natCast_nonneg _)
    have hdebt : 0 ≤ usd.amount * btsPricePrecision := mul_nonneg hnonneg (Int.natCast_nonneg _)
    unfold Buys at h
    omega
  exact h.trans_le (mul_le_mul_of_nonneg_left (by exact_mod_cast hle) hpos.le)

/-- A short trades at the feed price, or below it at its limit. -/
theorem OnMarket.short_price (h : OnMarket e) (hbid : e.currentBid = some bid)
    (hask : e.currentAsk = some ask) (htype : bid.type = .shortOrder) {price : Price}
    (hprice : e.bidPrice bid ask = .ok (some price)) :
    ∃ feed, e.feedPrice = some feed ∧ price.ratio ≤ feed.ratio := by
  have hpair := h.bidPrice hbid hask hprice
  unfold MarketEngine.bidPrice at hprice
  rw [if_pos htype, bind_eq_ok] at hprice
  obtain ⟨-, -, hprice⟩ := hprice
  cases hfeed : e.feedPrice with
  | none =>
    rw [hfeed] at hprice
    cases hprice
  | some feed =>
    refine ⟨feed, rfl, ?_⟩
    cases hlimit : bid.state.shortPriceLimit with
    | none =>
      simp only [hfeed, hlimit, pure_eq_ok, Option.some.injEq] at hprice
      exact hprice ▸ le_rfl
    | some limit =>
      simp only [hfeed, hlimit, ite_eq_ok, pure_eq_ok, reduceCtorEq, and_false, false_or,
        Option.some.injEq] at hprice
      obtain ⟨-, rfl⟩ := hprice
      obtain ⟨heq, -⟩ | ⟨heq, hle⟩ := Price.min_cases limit feed
      · rw [heq]
      · rw [heq] at hpair ⊢
        rw [← Bool.not_eq_true, Price.lt_iff_of_assetPair ((h.feed feed hfeed).trans hpair.symm)] at hle
        exact not_lt.1 hle

/-- The amounts of a trade with a short, at the feed price. -/
structure ShortPays (feed : Price) (bid : MarketOrder) (mtrx : MarketTransaction) (forSale : Asset) :
    Prop where
  sale : bid.getBalance.mulPrice (collateralRate feed) = .ok forSale
  puts : PutsUp feed bid forSale mtrx.bidPaid mtrx.shortCollateral
  le : mtrx.bidPaid.amount ≤ forSale.amount
  quote : mtrx.bidPaid.assetId = feed.quoteAssetId
  bought : 0 < mtrx.bidPaid.amount → Buys feed mtrx.bidPaid mtrx.askPaid

/-- What is owed on a margin position is owed in the quote asset. -/
theorem getCurrentCoverDebt_assetId {debt : Asset} (htype : ask.type = .coverOrder)
    (h : e.getCurrentCoverDebt crypto ask = .ok debt) :
    debt.assetId = ask.getPrice.quoteAssetId := by
  simp only [getCurrentCoverDebt, getInterestOwed, bind_eq_ok, pure_eq_ok] at h
  obtain ⟨interest, ⟨apr, -, rfl⟩, hadd⟩ := h
  obtain ⟨-, hid, -⟩ := Asset.add_eq_ok hadd
  rw [hid]
  unfold MarketOrder.getBalance
  rw [htype]

section ShortTrades

variable (h : OnMarket e) (hbid : e.currentBid = some bid) (hask : e.currentAsk = some ask)
  (htype : bid.type = .shortOrder) {price feed : Price}
  (hprice : e.bidPrice bid ask = .ok (some price)) (hfeed : e.feedPrice = some feed)

include h hbid htype hfeed in
theorem short_sale {forSale : Asset} (hsale : bid.getBalance.mulPrice (collateralRate feed) = .ok forSale) :
    bid.getBalance.assetId = feed.baseAssetId ∧ forSale.assetId = feed.quoteAssetId := by
  have hbidIn := PricedIn.of_assetPair (h.bid bid hbid).2
  have hfeedIn := PricedIn.of_assetPair (h.feed feed hfeed)
  have hbase : bid.getBalance.assetId = feed.baseAssetId := by
    unfold MarketOrder.getBalance
    rw [htype]
    exact hbidIn.base.trans hfeedIn.base.symm
  exact ⟨hbase, ((Asset.mulPrice_base (p := collateralRate feed) hbase).1 hsale).2 ▸ rfl⟩

include h hbid hask htype hprice hfeed in
/-- **A short that calls a margin position.** -/
theorem tradeShortCover_shortPays (hcover : ask.type = .coverOrder)
    (htrade : e.tradeShortCover crypto bid ask (openTransaction bid ask price price) = .ok (e', mtrx')) :
    ∃ mtrx forSale e₁, ShortPays feed bid mtrx forSale ∧ e.payCurrentShort bid mtrx = .ok e₁ ∧
      e₁.payCurrentCover crypto ask mtrx = .ok (e', mtrx') := by
  obtain ⟨feed', forSale, maxAfford, coverDebt, usd, askPaid, shortCollateral, e₁, hfeed', hsale,
    hamounts, husd, hputs, hshort, hpay⟩ := tradeShortCover_eq_ok htrade
  obtain rfl : feed = feed' := Option.some.inj (hfeed.symm.trans hfeed')
  have hpriceIn := PricedIn.of_assetPair (h.bidPrice hbid hask hprice)
  have hfeedIn := PricedIn.of_assetPair (h.feed feed hfeed)
  have haskIn := PricedIn.of_assetPair (h.ask ask hask).2
  have hmin := Asset.min_le forSale maxAfford
  have hmin' := Asset.min_le (forSale.min maxAfford) coverDebt
  rw [← husd] at hmin'
  have hquote : usd.assetId = feed.quoteAssetId := by
    have hmaxId : maxAfford.assetId = feed.quoteAssetId := by
      rw [((Asset.mulPrice_base hpriceIn.base.symm).1 hamounts.max).2]
      exact hpriceIn.quote.trans hfeedIn.quote.symm
    have hdebtId : coverDebt.assetId = feed.quoteAssetId :=
      (getCurrentCoverDebt_assetId hcover hamounts.debt).trans (haskIn.quote.trans hfeedIn.quote.symm)
    rw [husd]
    exact Asset.min_assetId (Asset.min_assetId (short_sale h hbid htype hfeed hsale).2 hmaxId) hdebtId
  refine ⟨_, forSale, e₁, ⟨hsale, hputs, hmin'.1.trans hmin.1, hquote, fun hpos => ?_⟩, hshort, hpay⟩
  obtain ⟨feed', hfeed'', hle⟩ := h.short_price hbid hask htype hprice
  obtain rfl : feed = feed' := Option.some.inj (hfeed.symm.trans hfeed'')
  refine Buys.of_le hle hpos.le ?_
  have hmaxPos : 0 < maxAfford.amount := hpos.trans_le (hmin'.1.trans hmin.2)
  obtain ⟨hworth, -, -⟩ := mulPrice_base_le hpriceIn.base.symm hamounts.max hmaxPos
  have hratio := pos_of_worth hmaxPos hworth
  obtain ⟨hall, rfl⟩ | ⟨-, hpaid⟩ := hamounts.paid
  · rw [← hall, ← husd] at hworth
    unfold Buys
    rw [add_mul, one_mul]
    exact hworth.trans_lt (lt_add_of_pos_right _ (by exact_mod_cast hratio))
  · rw [← husd] at hpaid
    exact (mulPrice_quote_lt (hquote.trans (hfeedIn.quote.trans hpriceIn.quote.symm))
      (hpriceIn.ne h.ordered) hpaid hpos.le hratio).1

include h hbid hask htype hprice hfeed in
/-- **A short that buys from an ask.** -/
theorem tradeShortAsk_shortPays (hcover : ask.type = .askOrder)
    (hcross : price.lt ask.getPrice = false)
    (htrade : e.tradeShortAsk crypto bid ask (openTransaction bid ask price ask.getPrice) =
      .ok (e', mtrx)) :
    ∃ forSale e₁, ShortPays feed bid mtrx forSale ∧ e.payCurrentShort bid mtrx = .ok e₁ ∧
      e₁.payCurrentAsk crypto ask mtrx true = .ok e' := by
  obtain ⟨feed', forSale, wanted, usd, askPaid, shortCollateral, e₁, hfeed', hsale, hwanted, husd,
    hputs, hpaid, rfl, hshort, hpay⟩ := tradeShortAsk_eq_ok htrade
  obtain rfl : feed = feed' := Option.some.inj (hfeed.symm.trans hfeed')
  have hpriceIn := PricedIn.of_assetPair (h.bidPrice hbid hask hprice)
  have hfeedIn := PricedIn.of_assetPair (h.feed feed hfeed)
  have haskIn := PricedIn.of_assetPair (h.ask ask hask).2
  have hmin := Asset.min_le forSale wanted
  rw [← husd] at hmin
  have hwanted' : ask.getBalance.mulPrice ask.getPrice = .ok wanted := by
    unfold MarketOrder.getQuoteQuantity at hwanted
    rwa [hcover] at hwanted
  have hbase : ask.getBalance.assetId = ask.getPrice.baseAssetId := by
    unfold MarketOrder.getBalance
    rw [hcover]
  have hquote : usd.assetId = feed.quoteAssetId := by
    have hwantedId : wanted.assetId = feed.quoteAssetId := by
      rw [((Asset.mulPrice_base hbase).1 hwanted').2]
      exact haskIn.quote.trans hfeedIn.quote.symm
    rw [husd]
    exact Asset.min_assetId (short_sale h hbid htype hfeed hsale).2 hwantedId
  refine ⟨forSale, e₁, ⟨hsale, hputs, hmin.1, hquote, fun hpos => ?_⟩, hshort, hpay⟩
  obtain ⟨feed', hfeed'', hle⟩ := h.short_price hbid hask htype hprice
  obtain rfl : feed = feed' := Option.some.inj (hfeed.symm.trans hfeed'')
  have hle' : ask.getPrice.ratio ≤ price.ratio := by
    rw [← Bool.not_eq_true, Price.lt_iff_of_assetPair ((h.bidPrice hbid hask hprice).trans
      (h.ask ask hask).2.symm)] at hcross
    exact not_lt.1 hcross
  refine Buys.of_le (hle'.trans hle) hpos.le ?_
  have hwantedPos : 0 < wanted.amount := hpos.trans_le hmin.2
  obtain ⟨hworth, -, -⟩ := mulPrice_base_le hbase hwanted' hwantedPos
  have hratio := pos_of_worth hwantedPos hworth
  obtain ⟨-, hpaid⟩ | ⟨hne, rfl⟩ := hpaid
  · exact (mulPrice_quote_lt (hquote.trans (hfeedIn.quote.trans haskIn.quote.symm))
      (haskIn.ne h.ordered) hpaid hpos.le hratio).1
  · have hall : usd = wanted := by
      rcases Asset.min_eq forSale wanted with heq | heq
      · exact absurd (congrArg Asset.amount (husd.trans heq)) hne
      · exact husd.trans heq
    rw [← hall] at hworth
    unfold Buys
    rw [add_mul, one_mul]
    exact hworth.trans_lt (lt_add_of_pos_right _ (by exact_mod_cast hratio))

end ShortTrades

/-! ### The position that is opened -/

/-- **The collateral of a short**: within its balance, and with what it buys worth the debt. -/
theorem ShortPays.collateral {feed : Price} {forSale shortCollateral collateral : Asset}
    (h : ShortPays feed bid mtrx forSale) (hbase : bid.getBalance.assetId = feed.baseAssetId)
    (hids : feed.baseAssetId < feed.quoteAssetId) (hbalance : 0 ≤ bid.state.balance)
    (hrange : IsInt64 bid.state.balance) (hpaid : 0 ≤ mtrx.bidPaid.amount)
    (hput : e.shortCollateralOf bid mtrx.shortCollateral = .ok shortCollateral)
    (hadd : shortCollateral.add mtrx.askPaid = .ok collateral) :
    0 ≤ shortCollateral.amount ∧ shortCollateral.amount ≤ bid.state.balance ∧
      collateral = ⟨shortCollateral.amount + mtrx.askPaid.amount, feed.baseAssetId⟩ ∧
      IsInt64 collateral.amount ∧ (0 < mtrx.bidPaid.amount → 0 ≤ collateral.amount ∧
        (0 < 2 * collateral.amount / 3 →
          mtrx.bidPaid.amount * btsPricePrecision ≤ 2 * collateral.amount / 3 * feed.ratio)) := by
  obtain ⟨hid, hnonneg, hle, hworth⟩ := h.puts.worth hbase h.quote hids hbalance h.sale hpaid h.le
  obtain ⟨hid', hamount⟩ := shortCollateralOf_eq_ok hput
  have hbounds : mtrx.shortCollateral.amount ≤ shortCollateral.amount ∧
      shortCollateral.amount ≤ bid.state.balance := by
    obtain heq | heq := hamount
    · exact ⟨heq.ge, heq.trans_le hle⟩
    · exact ⟨heq ▸ hle, heq.le⟩
  obtain ⟨-, hcid, hcamount, hcrange⟩ := Asset.add_eq_ok hadd
  have hcoll : collateral = ⟨shortCollateral.amount + mtrx.askPaid.amount, feed.baseAssetId⟩ := by
    rw [← hcamount, ← hid, ← hid', ← hcid]
  have hcollRange : IsInt64 collateral.amount := by
    refine hcrange ?_
    unfold IsInt64 int64Min int64Max at *
    omega
  refine ⟨hnonneg.trans hbounds.1, hbounds.2, hcoll, hcollRange, fun hpos => ?_⟩
  have hdebt : 0 ≤ mtrx.bidPaid.amount * btsPricePrecision :=
    mul_nonneg hpos.le (Int.natCast_nonneg _)
  have hput' := hworth hpos
  have hbought := h.bought hpos
  unfold Buys at hbought
  have hfeed : (0 : ℤ) < feed.ratio := by
    by_contra hzero
    have hzero' : (feed.ratio : ℤ) = 0 := by omega
    rw [hzero', mul_zero] at hbought
    omega
  have haskPaid : 0 ≤ mtrx.askPaid.amount := by
    have := pos_of_mul_pos_left (hdebt.trans_lt hbought) hfeed.le
    omega
  rw [hcamount]
  refine ⟨by omega, fun hthirds => worth_le hfeed hdebt ?_ hbought hthirds⟩
  refine hput'.trans_le (mul_le_mul_of_nonneg_right ?_ hfeed.le)
  omega

/-- Twice the collateral fits in 64 bits, or what it wraps to still covers the debt at the feed
price. -/
def CallPriceSound (feed : Price) (paid collateral : ℤ) : Prop :=
  2 * collateral ≤ int64Max ∨
    paid * btsPricePrecision < (feed.ratio + 1) * ((2 ^ 64 - 2 * collateral) / 3)

/-- A step in which a short is paid by `mtrx`, puts up `put`, and leaves the engine `e₁` to the other
side of the trade. -/
structure SettlesShort (crypto : Crypto) (e : MarketEngine) (bid ask : MarketOrder)
    (e' : MarketEngine) (feed : Price) (mtrx : MarketTransaction) (e₁ : MarketEngine) (put : ℤ) :
    Prop where
  feedPrice : e.feedPrice = some feed
  pay : e.payCurrentShort bid mtrx = .ok e₁
  rest : ∃ e₂ mtrx', (e₁.payCurrentAsk crypto ask mtrx true = .ok e₂ ∧ mtrx' = mtrx ∨
    e₁.payCurrentCover crypto ask mtrx = .ok (e₂, mtrx')) ∧ Collects e₂ mtrx' e'
  /-- The collateral taken is never more than the short has. -/
  taken : 0 ≤ put ∧ put ≤ bid.state.balance ∧
    e₁.currentBid = some (bid.setBalance (bid.state.balance - put))
  /-- The position is kept under the price of its debt in two thirds of the collateral that is
  added, and is not called at the feed exactly when that price is sound. -/
  position : 0 < mtrx.bidPaid.amount → ∃ coverIndex,
    e.Opens bid mtrx ⟨put + mtrx.askPaid.amount, e.baseId⟩ coverIndex ∧
    e₁ = (e.issued mtrx.bidPaid.amount).afterShort crypto bid coverIndex (put + mtrx.askPaid.amount)
      mtrx.bidPaid.amount (bid.state.balance - put) ∧
    (e₁.isCallable coverIndex.orderPrice (e.position bid coverIndex (put + mtrx.askPaid.amount)
      mtrx.bidPaid.amount) = false ↔
        CallPriceSound feed mtrx.bidPaid.amount (put + mtrx.askPaid.amount))

/-- A new position is called only for its price: it expires later. -/
theorem isCallable_position {coverIndex : MarketIndexKey} {collateral paid : ℤ} {feed : Price}
    (hfeed : e₁.feedPrice = some feed) (hnow : e₁.pendingState.now = e.pendingState.now) :
    e₁.isCallable coverIndex.orderPrice (e.position bid coverIndex collateral paid) =
      feed.lt coverIndex.orderPrice := by
  have hlater : ¬e.pendingState.now + btsBlockchainMaxShortPeriodSec ≤ e.pendingState.now := by
    unfold btsBlockchainMaxShortPeriodSec
    omega
  unfold isCallable position
  simp only [hfeed, hnow, hlater, Option.any_some, decide_false, Bool.or_false]

/-- **What paying a short does.** -/
theorem ShortPays.settles (h : OnMarket e) (hbid : e.currentBid = some bid)
    (htype : bid.type = .shortOrder) (hbalance : 0 ≤ bid.state.balance)
    (hrange : IsInt64 bid.state.balance) {feed : Price} (hfeed : e.feedPrice = some feed)
    {forSale : Asset} (hpays : ShortPays feed bid mtrx forSale)
    (hpay : e.payCurrentShort bid mtrx = .ok e₁)
    (hrest : ∃ e₂ mtrx', (e₁.payCurrentAsk crypto ask mtrx true = .ok e₂ ∧ mtrx' = mtrx ∨
      e₁.payCurrentCover crypto ask mtrx = .ok (e₂, mtrx')) ∧ Collects e₂ mtrx' e') :
    ∃ put, SettlesShort crypto e bid ask e' feed mtrx e₁ put := by
  have hfeedIn := PricedIn.of_assetPair (h.feed feed hfeed)
  have hids : feed.baseAssetId < feed.quoteAssetId := by
    rw [hfeedIn.quote, hfeedIn.base]
    exact h.ordered
  have hbase := (short_sale h hbid htype hfeed hpays.sale).1
  have hwalk := payCurrentShort_sameWalk crypto h.pending hpay
  have hfeed₁ : e₁.feedPrice = some feed := hwalk.feed.trans hfeed
  obtain ⟨-, shortCollateral, collateral, hput, hadd, hcases⟩ := payCurrentShort_eq_ok crypto h.pending hpay
  have hpaid : 0 ≤ mtrx.bidPaid.amount := hcases.elim (fun h => h.1.ge) (fun h => h.1.le)
  obtain ⟨hnonneg, hle, rfl, hcrange, hworth⟩ :=
    hpays.collateral hbase hids hbalance hrange hpaid hput hadd
  have hleft : wrap64 (bid.state.balance - shortCollateral.amount) =
      bid.state.balance - shortCollateral.amount := by
    refine wrap64_eq_self ?_
    unfold IsInt64 int64Min int64Max at *
    omega
  rw [hleft] at hcases
  refine ⟨shortCollateral.amount, hfeed, hpay, hrest, ⟨hnonneg, hle, ?_⟩, fun hpos => ?_⟩
  · obtain ⟨-, rfl⟩ | ⟨-, -, coverIndex, -, rfl⟩ := hcases
    · rfl
    · rfl
  · obtain ⟨hzero, -⟩ | ⟨-, -, coverIndex, hopens, heq⟩ := hcases
    · exact absurd hzero hpos.ne'
    · have hlt : mtrx.bidPaid.amount < 2 ^ 63 := by
        have hsale := (forSale_eq_ok hbase hbalance hpays.sale)
        have hle := hpays.le
        rw [hsale.2] at hle
        exact hle.trans_lt hsale.1
      have hprice := hopens.price
      rw [show mtrx.bidPaid = ⟨mtrx.bidPaid.amount, feed.quoteAssetId⟩ from
        congrArg (Asset.mk _) hpays.quote] at hprice
      refine ⟨coverIndex, hfeedIn.base ▸ hopens, heq, ?_⟩
      rw [isCallable_position hfeed₁ hwalk.now]
      exact callPrice_le_iff hids rfl ⟨hpos, hlt⟩ (hworth hpos).1 hcrange hprice (hworth hpos).2

/-- An engine with a short of a balance and an ask, both at a feed price of two. -/
def shortEngine (short ask : ℤ) : MarketEngine where
  pendingState := { overlays := [{}], db := {}, now := 0, headBlockNum := 0 }
  quoteId := 1
  baseId := 0
  quoteAsset := { id := 1, issuerAccountId := AssetRecord.marketIssuedAsset }
  baseAsset := { id := 0 }
  feedPrice := some ⟨2 * btsPricePrecision, 1, 0⟩
  currentBid := some (shortOf ⟨⟨1, 1, 0⟩, 7⟩ { balance := short })
  currentAsk := some (askOf ⟨⟨2 * btsPricePrecision, 1, 0⟩, 8⟩ { balance := ask })

private theorem onMarket_shortEngine (short ask : ℤ) : OnMarket (shortEngine short ask) where
  pending := List.cons_ne_nil _ _
  ordered := Int.zero_lt_one
  feed p hp := by cases hp; rfl
  bid o ho := by cases ho; exact ⟨Or.inr rfl, rfl⟩
  ask o ho := by cases ho; exact ⟨Or.inl rfl, rfl⟩

end MarketEngine

end LarkX
