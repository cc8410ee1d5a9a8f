import LarkX.Evaluate.Margin
import LarkX.Market.Tally

/-!
# What a run conserves

A round moves the sum of a reckoning only by its trade (`Auditable.round`), so a run whose trades
are all even keeps the sums (`Rounds.tally`, `Completes.total`). The base asset is then conserved, and
no amount of one asset ends up in the fees of the other (`execute_conserves`).

Where a trade is not even, amounts are lost or misfiled: the last share of an ask that sold to a short
is collected as a fee of the quote asset (`execute_conserves_dust`).
-/

namespace LarkX

/-! ### The sums of a market -/

namespace Tables

/-- The balances, bids and asks of an asset, and its fees. -/
def quoteFunds (t : Tables) (a : ℤ) : ℤ :=
  t.collectedFees a + t.balances.sum (fun _ r => r.held a) +
    t.asks.sum (fun key r => r.askHeld a key) + t.bids.sum (fun key r => r.bidHeld a key)

/-- The books of an asset that is not the base asset of the chain. -/
theorem calculateSupply_eq (t : Tables) {a : ℤ} (h : a ≠ 0) : t.calculateSupply a = t.quoteFunds a := by
  unfold calculateSupply quoteFunds
  rw [if_neg h]

end Tables

namespace Reckoning

variable {pair : AssetPair} (hpair : pair.base < pair.quote) (t : Tables)

private theorem sum_const_zero {κ α : Type} [Ord κ] [Std.TransOrd κ] [Std.LawfulEqOrd κ]
    (t : Table κ α) : Table.sum (fun _ _ => (0 : ℤ)) t = 0 :=
  Table.sum_eq_zero fun _ _ _ => rfl

/-- What orders and positions hold, by the market of their key. -/
private theorem held_eq (a : ℤ) (key : MarketIndexKey) :
    (∀ r : OrderRecord, r.bidHeld a key = if key.assetPair.quote = a then r.balance else 0) ∧
      (∀ r : OrderRecord, r.askHeld a key = if key.assetPair.base = a then r.balance else 0) ∧
      (∀ p : CollateralRecord, p.held a key = if key.assetPair.base = a then p.collateralBalance else 0) ∧
      ∀ p : CollateralRecord, p.debtIn a key = if key.assetPair.quote = a then p.payoffBalance else 0 :=
  ⟨fun _ => rfl, fun _ => rfl, fun _ => rfl, fun _ => rfl⟩

/-- The debt, as a sum of what is subtracted. -/
private theorem sum_debt (a : ℤ) : Table.sum (fun key p =>
    if key.assetPair.quote = a then -CollateralRecord.payoffBalance p else 0) t.collateral =
      -t.debt a := by
  have hsub := Table.sum_sub (fun _ _ => 0) (CollateralRecord.debtIn a) t.collateral
  rw [sum_const_zero, zero_sub] at hsub
  rw [Tables.debt, ← hsub]
  congr 1
  funext key p
  rw [(held_eq a key).2.2.2]
  split_ifs
  · rw [zero_sub]
  · rw [sub_zero]

theorem total_funds : (funds pair hpair).total t = t.baseFunds pair.base := by
  unfold total weigh funds Tables.baseFunds BalanceRecord.held
  simp only [ite_mul, one_mul, zero_mul, sum_const_zero, add_zero, held_eq]
  ring

theorem total_backed :
    (backed pair hpair).total t = t.quoteFunds pair.quote - t.debt pair.quote := by
  unfold total weigh backed Tables.quoteFunds BalanceRecord.held
  simp only [ite_mul, one_mul, zero_mul, neg_mul, sum_const_zero, add_zero, zero_add, sum_debt, held_eq]
  ring

theorem total_issued :
    (issued pair).total t = t.currentShareSupply pair.quote - t.debt pair.quote := by
  unfold total weigh issued
  simp only [ite_mul, one_mul, zero_mul, neg_mul, sum_const_zero, add_zero, zero_add, sum_debt]
  ring

end Reckoning

namespace MarketEngine

variable {crypto : Crypto} {c c' : ChainInterface} {quoteId baseId : ℤ}
  {e₀ e e₁ e₂ e' : MarketEngine} {bid ask : MarketOrder} {mtrx : MarketTransaction} {goOn : Bool}
  {r : Reckoning} {n : ℕ}

/-! ### The trades of a run -/

/-- The body of the loop trades two orders by `mtrx`. -/
def TradesBy (crypto : Crypto) (e : MarketEngine) (bid ask : MarketOrder) (mtrx : MarketTransaction) :
    Prop :=
  ∃ price askPrice, e.bidPrice bid ask = .ok (some price) ∧
    ((ask.type = .coverOrder ∧ e.isCalled ask price = .ok true ∧ askPrice = price) ∨
      (ask.type ≠ .coverOrder ∧ price.lt ask.getPrice = false ∧ askPrice = ask.getPrice)) ∧
    Settles crypto e bid ask (openTransaction bid ask price askPrice) mtrx

/-- A trade of a run that starts in `e₀`: in the engine `e`, two orders are traded by `mtrx`. -/
def TradeOf (crypto : Crypto) (e₀ e : MarketEngine) (bid ask : MarketOrder) (mtrx : MarketTransaction) :
    Prop :=
  ∃ e₁ n e₂ e₃, e₀.getNextBid = .ok e₁ ∧ Rounds crypto n e₁.getNextAsk e₂ ∧ Enters e₂ e₃ bid ask ∧
    e = e₃.counted ∧ TradesBy crypto e bid ask mtrx

/-- No debt is left of a margin position whose collateral is used up. -/
def NoLoss (crypto : Crypto) (e : MarketEngine) (ask : MarketOrder) (mtrx : MarketTransaction) : Prop :=
  ask.type = .coverOrder → ∀ totalDebt principlePaid interestPaid owed,
    Repays crypto e ask mtrx totalDebt principlePaid interestPaid 0 owed → owed = 0

/-- A trade that moves no sum of a reckoning. -/
structure EvenIn (r : Reckoning) (crypto : Crypto) (e : MarketEngine) (bid ask : MarketOrder)
    (mtrx : MarketTransaction) : Prop extends Evenly e bid ask mtrx where
  idle : bid.type = .shortOrder → mtrx.bidPaid.amount = 0 → r.base * mtrx.askPaid.amount = 0
  loss : r.supply = 0 ∨ NoLoss crypto e ask mtrx

/-! ### Rounds -/

/-- What an engine keeps between two rounds for its sums to be kept. -/
structure Auditable (crypto : Crypto) (r : Reckoning) (e : MarketEngine) : Prop where
  onMarket : OnMarket e
  hands : AtBoundary e
  accountable : Accountable crypto r e

/-- The books of two engines are the same, whatever orders they have in hand. -/
structure SameBooks (e e' : MarketEngine) : Prop where
  state : e'.pendingState = e.pendingState
  quote : e'.quoteAsset = e.quoteAsset
  base : e'.baseAsset = e.baseAsset
  pair : e'.pair = e.pair

theorem SameBooks.trans (h : SameBooks e e₁) (h' : SameBooks e₁ e₂) : SameBooks e e₂ :=
  ⟨h'.state.trans h.state, h'.quote.trans h.quote, h'.base.trans h.base, h'.pair.trans h.pair⟩

theorem SameBooks.tally (h : SameBooks e e') : tally r e' = tally r e := by
  unfold MarketEngine.tally
  rw [h.state, h.quote, h.base]

theorem SameBooks.accountable (h : SameBooks e e') (hacc : Accountable crypto r e) :
    Accountable crypto r e' := by
  have hids := h.pair
  unfold MarketEngine.pair at hids
  injection hids with hquote hbase
  exact ⟨h.state ▸ hacc.keyed, by rw [h.quote, hacc.quote, hquote], by rw [h.base, hacc.base, hbase],
    hacc.pair.trans h.pair.symm⟩

theorem getNextBid_sameBooks (h : e.getNextBid = .ok e') : SameBooks e e' := by
  obtain ⟨-, rfl⟩ | ⟨-, hfetch⟩ := getNextBid_eq_ok h
  · exact ⟨rfl, rfl, rfl, rfl⟩
  · cases hfetch <;> exact ⟨rfl, rfl, rfl, rfl⟩

theorem getNextAsk_sameBooks (e : MarketEngine) : SameBooks e e.getNextAsk := by
  obtain ⟨-, heq⟩ | ⟨-, hfetch⟩ := getNextAsk_cases e
  · rw [heq]
    exact ⟨rfl, rfl, rfl, rfl⟩
  · generalize e.getNextAsk = e' at hfetch ⊢
    cases hfetch <;> exact ⟨rfl, rfl, rfl, rfl⟩

theorem Enters.sameBooks (h : Enters e e₁ bid ask) : SameBooks e e₁ := by
  obtain ⟨⟨e₀, hnext, -, rfl⟩, -⟩ := h
  exact (getNextBid_sameBooks hnext).trans (getNextAsk_sameBooks e₀)

/-- **A round whose trade is even** keeps the sum. -/
theorem Auditable.round (hideal : Function.Injective crypto.conditionAddress)
    (h : Auditable crypto r e) (hround : Round crypto e e' goOn)
    (heven : ∀ e₁ bid ask mtrx, Enters e e₁ bid ask → TradesBy crypto e₁.counted bid ask mtrx →
      EvenIn r crypto e₁.counted bid ask mtrx) : Auditable crypto r e' ∧ tally r e' = tally r e := by
  have hon := (h.onMarket.round hround).1
  have hhands := h.hands.round h.onMarket hround
  cases hround with
  | noBid hnext hbid =>
    have hsame := getNextBid_sameBooks hnext
    exact ⟨⟨hon, hhands, hsame.accountable h.accountable⟩, hsame.tally⟩
  | @noAsk e₁ hnext hask =>
    have hsame := (getNextBid_sameBooks hnext).trans (getNextAsk_sameBooks e₁)
    exact ⟨⟨hon, hhands, hsame.accountable h.accountable⟩, hsame.tally⟩
  | @body e₁ _ bid ask _ henters hfilled hmatch =>
    obtain ⟨hon₁, hbid⟩ := henters.onMarket h.onMarket
    have hin := h.hands.enters henters
    have hsame := henters.sameBooks
    have hacc : Accountable crypto r e₁.counted := { hsame.accountable h.accountable with }
    have hon' : OnMarket e₁.counted := { hon₁ with }
    obtain ⟨-, hwalk, -⟩ := hon'.matches hbid henters.ask hmatch
    refine ⟨⟨hon, hhands, hacc.sameWalk hon₁.pending hwalk⟩, ?_⟩
    rw [← hsame.tally]
    cases hmatch with
    | skipBid => rfl
    | skipAsk => rfl
    | spread => rfl
    | @traded price askPrice mtrx' e₂ _ hprice hcross htrade hcollect =>
      have hpair := hon'.bidPrice hbid henters.ask hprice
      have hall := fun mtrx hsettles => heven e₁ bid ask mtrx henters ⟨price, askPrice, hprice, hcross, hsettles⟩
      obtain ⟨mtrx, lost, hsettles, htally, hlost⟩ := trade_tally hideal hon' hacc { hin with } hbid henters.ask hpair
        (fun mtrx hsettles => ⟨(hall mtrx hsettles).toEvenly, (hall mtrx hsettles).idle⟩) htrade hcollect
      have hzero : (r.supply : Word) * (lost : ℤ) = 0 := by
        rcases (hall mtrx hsettles).loss with hsupply | hnoLoss
        · rw [hsupply, Int.cast_zero, zero_mul]
        · rcases hlost with rfl | ⟨htype, totalDebt, principlePaid, interestPaid, hrepays⟩
          · rw [Int.cast_zero, mul_zero]
          · rw [hnoLoss htype _ _ _ _ hrepays, Int.cast_zero, mul_zero]
      rw [htally, hzero, add_zero]
      rfl

/-! ### Runs -/

/-- The tables as the engine would leave them. -/
def books (e : MarketEngine) : Tables :=
  { e.pendingState.flat with
    assets := (e.pendingState.flat.assets.insert e.quoteAsset.id e.quoteAsset).insert e.baseAsset.id
      e.baseAsset }

/-- Fees and supply as the engine would leave them. -/
theorem Accountable.books (hacc : Accountable crypto r e) (hids : e.baseId < e.quoteId) :
    e.books.collectedFees e.baseId = e.baseAsset.collectedFees ∧
      e.books.collectedFees e.quoteId = e.quoteAsset.collectedFees ∧
      e.books.currentShareSupply e.quoteId = e.quoteAsset.currentShareSupply := by
  unfold MarketEngine.books Tables.collectedFees Tables.currentShareSupply
  dsimp only
  rw [hacc.quote, hacc.base, Table.getElem?_insert_same, Table.getElem?_insert_of_ne _ _ hids.ne',
    Table.getElem?_insert_same]
  exact ⟨rfl, rfl, rfl⟩

/-- The sum over what the engine would leave is the sum over the engine. -/
theorem Accountable.total_books (hacc : Accountable crypto r e) (hids : e.baseId < e.quoteId) :
    (r.total e.books : Word) = tally r e := by
  obtain ⟨hbase, hquote, hsupply⟩ := hacc.books hids
  unfold Reckoning.total tally
  rw [hacc.pair]
  change ((r.weigh e.pendingState.flat + r.base * e.books.collectedFees e.baseId +
    r.quote * e.books.collectedFees e.quoteId + r.supply * e.books.currentShareSupply e.quoteId : ℤ) :
      Word) = _
  rw [hbase, hquote, hsupply]
  push_cast
  ring

section Run

variable (hp : c.IsPending) (hkeyed : c.flat.Keyed crypto) (hreads : ReadsBooks c ⟨quoteId, baseId⟩)
  (hr : r.pair = ⟨quoteId, baseId⟩)

include hkeyed hr in
/-- An engine that is opened has the sums of the state it is opened on. -/
theorem accountable_of_open (hopen : openMarket c quoteId baseId = .ok e) :
    Accountable crypto r e ∧ (r.total c.flat : Word) = tally r e := by
  have hopened := (openMarket_eq_ok hopen).1
  have hflat : e.pendingState.flat = c.flat := hopened.pendingState ▸ push_flat c
  have hquote := hopened.quote
  have hbase := hopened.base
  rw [ChainInterface.getAssetRecord_eq] at hquote hbase
  have hids := hopened.pair
  unfold MarketEngine.pair at hids
  injection hids with hquoteId hbaseId
  refine ⟨⟨hflat ▸ hkeyed, (hkeyed.assets _ _ hquote).trans hquoteId.symm,
    (hkeyed.assets _ _ hbase).trans hbaseId.symm, hr.trans hopened.pair.symm⟩, ?_⟩
  unfold Reckoning.total tally Tables.collectedFees Tables.currentShareSupply
  rw [hr, hflat]
  dsimp only
  rw [hquote, hbase]
  push_cast
  rfl

variable (hideal : Function.Injective crypto.conditionAddress)

include hideal hkeyed hreads hr in
/-- **A run whose trades are even** keeps the sum in every state it reaches. -/
theorem Rounds.tally (hopen : openMarket c quoteId baseId = .ok e₀) (hnext : e₀.getNextBid = .ok e₁)
    (heven : ∀ e bid ask mtrx, TradeOf crypto e₀ e bid ask mtrx → EvenIn r crypto e bid ask mtrx)
    (hrounds : Rounds crypto n e₁.getNextAsk e₂) : Auditable crypto r e₂ ∧
      MarketEngine.tally r e₂ = MarketEngine.tally r e₀ := by
  have hsame := (getNextBid_sameBooks hnext).trans (getNextAsk_sameBooks e₁)
  have hmarket := (openMarket_ordersLeft hopen).1.onMarket
  have hstart : Auditable crypto r e₁.getNextAsk :=
    ⟨(hmarket.getNextBid hnext).getNextAsk, .of_open hreads hopen hnext,
      hsame.accountable (accountable_of_open hkeyed hr hopen).1⟩
  generalize hv : e₁.getNextAsk = v at hrounds hsame hstart
  induction hrounds with
  | refl => exact ⟨hstart, hsame.tally⟩
  | @step n _ e₂ e₃ hrounds hround ih =>
    obtain ⟨h₂, htally⟩ := ih hv hsame hstart
    obtain ⟨h₃, hstep⟩ := h₂.round hideal (matchRound_eq_ok hround) fun e₄ bid ask mtrx henters htrade =>
      heven _ bid ask mtrx ⟨e₁, n, e₂, e₄, hnext, hv ▸ hrounds, henters, rfl, htrade⟩
    exact ⟨h₃, hstep.trans htally⟩

include hp hideal hkeyed hreads hr in
/-- **A completed run whose trades are even** keeps the sum. -/
theorem Completes.total (h : Completes crypto c quoteId baseId e₀ e c')
    (heven : ∀ e bid ask mtrx, TradeOf crypto e₀ e bid ask mtrx → EvenIn r crypto e bid ask mtrx) :
    Auditable crypto r e ∧ (r.total c'.flat : Word) = r.total c.flat ∧
      c'.flat.collectedFees quoteId = e.quoteAsset.collectedFees := by
  obtain ⟨e₁, n, e₂, hnext, -, hrounds, hend⟩ := h.rounds
  obtain ⟨h₂, htally⟩ := hrounds.tally hkeyed hreads hr hideal h.opened hnext heven
  obtain ⟨hlast, hstep⟩ := h₂.round hideal (matchRound_eq_ok hend) fun e₃ bid ask mtrx henters htrade =>
    heven _ bid ask mtrx ⟨e₁, n, e₂, e₃, hnext, hrounds, henters, rfl, htrade⟩
  have hids := hlast.onMarket.ordered
  obtain ⟨properties, marketStatuses, hflat⟩ := h.flat hp
  have hbooks : r.total c'.flat = r.total e.books := by
    rw [hflat]
    rfl
  have hquoteId : e.quoteId = quoteId := by
    have hpair := hlast.accountable.pair.symm.trans hr
    unfold MarketEngine.pair at hpair
    injection hpair
  refine ⟨hlast, ?_, ?_⟩
  · rw [hbooks, hlast.accountable.total_books hids, hstep, htally,
      (accountable_of_open hkeyed hr h.opened).2]
  · rw [← (hlast.accountable.books hids).2.1, hflat, hquoteId]
    rfl

end Run

/-! ### The base asset is conserved -/

/-- A trade that conserves the base asset: it is even, and a short pays nothing only for nothing. -/
structure Conserves (e : MarketEngine) (bid ask : MarketOrder) (mtrx : MarketTransaction) : Prop extends
    Evenly e bid ask mtrx where
  idle : bid.type = .shortOrder → mtrx.bidPaid.amount = 0 → mtrx.askPaid.amount = 0

theorem Conserves.evenIn (h : Conserves e bid ask mtrx) (hsupply : r.supply = 0) :
    EvenIn r crypto e bid ask mtrx :=
  { h with
    idle := fun htype hzero => by rw [h.idle htype hzero, mul_zero]
    loss := Or.inl hsupply }

/-- The books of a market close as before, in 64 bits: all amounts of the base asset add up to the
same, and so do all amounts of the quote asset less the debts, so that no fee of one asset is an
amount of the other. -/
structure Conserved (quoteId baseId : ℤ) (t t' : Tables) : Prop where
  base : wrap64 (t'.baseFunds baseId) = wrap64 (t.baseFunds baseId)
  quote : wrap64 (t'.quoteFunds quoteId - t'.debt quoteId) =
    wrap64 (t.quoteFunds quoteId - t.debt quoteId)

/-- The books close as before when the sums are the same. -/
theorem conserved_of_totals {t t' : Tables} (hids : baseId < quoteId)
    (hfunds : ((Reckoning.funds ⟨quoteId, baseId⟩ hids).total t' : Word) =
      (Reckoning.funds ⟨quoteId, baseId⟩ hids).total t)
    (hbacked : ((Reckoning.backed ⟨quoteId, baseId⟩ hids).total t' : Word) =
      (Reckoning.backed ⟨quoteId, baseId⟩ hids).total t) : Conserved quoteId baseId t t' := by
  rw [Reckoning.total_funds, Reckoning.total_funds] at hfunds
  rw [Reckoning.total_backed, Reckoning.total_backed] at hbacked
  exact ⟨wrap64_eq_iff.2 hfunds, wrap64_eq_iff.2 hbacked⟩

/-! ### Small markets -/

/-- A table of records under their own keys. -/
private theorem keyedBy_tableOf {κ α : Type} [Ord κ] [Std.TransOrd κ] [Std.LawfulEqOrd κ] {key : α → κ}
    {entries : List (κ × α)} (h : ∀ x ∈ entries, key x.2 = x.1) :
    (tableOf entries).KeyedBy key := by
  suffices hfold : ∀ t : Table κ α, t.KeyedBy key →
      (entries.foldl (fun t e => t.insert e.1 e.2) t).KeyedBy key from hfold ∅ .empty
  induction entries with
  | nil => exact fun t ht => ht
  | cons x entries ih =>
    intro t ht
    refine ih (fun y hy => h y (List.mem_cons_of_mem _ hy)) _ ?_
    have hinsert := ht.insert x.2
    rwa [h x List.mem_cons_self] at hinsert

/-- A small market in a new pending state is one a run may start from. -/
theorem marketChain_ready (crypto : Crypto) (quote base : AssetRecord) (feed : FeedValue)
    (bids asks shorts : List (MarketIndexKey × OrderRecord))
    (collateral : List (MarketIndexKey × CollateralRecord)) (pair : AssetPair)
    (hfits : ∀ x ∈ (tableOf shorts).toList, IsInt64 x.2.balance) :
    (marketChain quote base feed bids asks shorts collateral).push.IsPending ∧
      (marketChain quote base feed bids asks shorts collateral).push.flat.Keyed crypto ∧
      ReadsBooks (marketChain quote base feed bids asks shorts collateral).push pair := by
  refine ⟨List.cons_ne_nil _ _, ?_, ⟨fun o ho key _ => ?_, fun o ho key _ => ?_, fun key r hget => ?_⟩⟩
  · rw [push_flat]
    refine ⟨keyedBy_tableOf ?_, .empty, .empty, .empty, .empty, keyedBy_tableOf ?_⟩
    · intro x hx
      simp only [List.mem_cons, List.not_mem_nil, or_false] at hx
      rcases hx with rfl | rfl <;> rfl
    · intro x hx
      obtain ⟨i, -, rfl⟩ := List.mem_map.1 hx
      rfl
  · obtain rfl := List.mem_singleton.1 ho
    exact ⟨Table.getElem?_empty' key, Table.getElem?_empty' key⟩
  · obtain rfl := List.mem_singleton.1 ho
    exact Table.getElem?_empty' key
  · exact hfits (key, r) (Table.mem_toList.2 hget)

/-- A run of one trade: all its trades are the one of its first round. -/
theorem tradeOf_single {e₃ : MarketEngine} (hnext : e₀.getNextBid = .ok e₁)
    (hround : e₁.getNextAsk.matchRound crypto = .ok (e₂, true)) (hbid : e₂.getNextBid = .ok e₃)
    (hask : e₃.getNextAsk.currentAsk = none) (htrade : TradeOf crypto e₀ e bid ask mtrx) :
    ∃ e₄, Enters e₁.getNextAsk e₄ bid ask ∧ e = e₄.counted ∧ TradesBy crypto e bid ask mtrx := by
  have hstop : ∀ {e' bid ask}, ¬Enters e₂ e' bid ask := by
    rintro e' bid ask ⟨⟨e₄, hbid', -, rfl⟩, hask'⟩
    rw [hbid] at hbid'
    cases hbid'
    rw [hask] at hask'
    cases hask'
  have hreached : ∀ {n v}, Rounds crypto n e₁.getNextAsk v → v = e₁.getNextAsk ∨ v = e₂ := by
    intro n v hrounds
    generalize hstart : e₁.getNextAsk = start at hround hrounds ⊢
    induction hrounds with
    | refl => exact Or.inl rfl
    | step hrounds hround' ih =>
      obtain rfl | rfl := ih hstart hround
      · rw [hround] at hround'
        cases hround'
        exact Or.inr rfl
      · cases matchRound_eq_ok hround' with
        | body henters => exact absurd henters hstop
  obtain ⟨e₁', n, v, e₄, hnext', hrounds, henters, rfl, htrades⟩ := htrade
  rw [hnext] at hnext'
  cases hnext'
  obtain rfl | rfl := hreached hrounds
  · exact ⟨e₄, henters, rfl, htrades⟩
  · exact absurd henters hstop

/-- A market with a feed price of 2, a bid of 20 at that price, and a margin position with a call
price of 20. -/
def callMarket (collateral debt : ℤ) : ChainInterface :=
  (marketChain { id := 1, issuerAccountId := AssetRecord.marketIssuedAsset, currentShareSupply := 200 }
    { id := 0 } (.price ['2'] 1 0) [(⟨⟨2 * btsPricePrecision, 1, 0⟩, 7⟩, { balance := 20 })] [] []
    [(⟨⟨20 * btsPricePrecision, 1, 0⟩, 9⟩, ⟨collateral, debt, ⟨0, 1, 0⟩, 5000⟩)]).push

theorem callMarket_ready (collateral debt : ℤ) (pair : AssetPair) :
    (callMarket collateral debt).IsPending ∧ (callMarket collateral debt).flat.Keyed .transparent ∧
      ReadsBooks (callMarket collateral debt) pair :=
  marketChain_ready _ _ _ _ _ _ _ _ _ fun x hx => by cases hx

/-- The one trade of the market: the position is covered by the bid. -/
theorem callMarket_run : ∃ e₀ e₁ e₂ e₃ c', openMarket (callMarket 100 10) 1 0 = .ok e₀ ∧
    e₀.matchMarket .transparent = .ok c' ∧ e₀.getNextBid = .ok e₁ ∧
    e₁.getNextAsk.matchRound .transparent = .ok (e₂, true) ∧ e₂.getNextBid = .ok e₃ ∧
    e₃.getNextAsk.currentAsk = none := by
  have hrun : (openMarket (callMarket 100 10) 1 0 >>= fun e₀ => e₀.matchMarket .transparent >>= fun _ =>
      e₀.getNextBid >>= fun e₁ => e₁.getNextAsk.matchRound .transparent >>= fun r =>
        r.1.getNextBid >>= fun e₃ => require (r.2 = true ∧ e₃.getNextAsk.currentAsk = none)
          .outOfBounds).isOk = true := by decide +kernel
  obtain ⟨_, hrun⟩ := exists_eq_ok hrun
  simp only [bind_eq_ok, require_eq_ok] at hrun
  obtain ⟨e₀, hopen, c', hmatch, e₁, hnext, ⟨e₂, goOn⟩, hround, e₃, hbid, rfl, hask⟩ := hrun
  exact ⟨e₀, e₁, e₂, e₃, c', hopen, hmatch, hnext, hround, hbid, hask⟩

/-- What is traded there: the bid has 20 shares left, and the position, which is stored as it was read,
owes 10 of them. -/
theorem callMarket_trade (hopen : openMarket (callMarket 100 10) 1 0 = .ok e₀)
    (hnext : e₀.getNextBid = .ok e₁) (henters : Enters e₁.getNextAsk e bid ask) :
    (bid.type = .bidOrder ∧ bid.getBalance = ⟨20, 1⟩) ∧
      (ask.type = .coverOrder ∧ ask.collateral = 100 ∧ e.StoredAs ask) ∧
      e.baseId = 0 ∧ e.quoteAsset.collectedFees = 0 ∧
      e.bidPrice bid ask = .ok (some ⟨2 * btsPricePrecision, 1, 0⟩) ∧
      e.getCurrentCoverDebt .transparent ask = .ok ⟨10, 1⟩ := by
  have hrun : (openMarket (callMarket 100 10) 1 0 >>= fun e₀ => e₀.getNextBid >>= fun e₁ =>
      e₁.getNextAsk.getNextBid >>= fun e => require (e.currentBid.all fun bid =>
        e.getNextAsk.currentAsk.all fun ask => (bid.type = .bidOrder ∧ bid.getBalance = ⟨20, 1⟩) ∧
          (ask.type = .coverOrder ∧ ask.collateral = 100 ∧
            (e.getNextAsk.pendingState.getCollateralRecord ask.marketIndex).any fun p =>
              p.collateralBalance = ask.collateral ∧ p.payoffBalance = ask.state.balance) ∧
          e.getNextAsk.baseId = 0 ∧ e.getNextAsk.quoteAsset.collectedFees = 0 ∧
          e.getNextAsk.bidPrice bid ask = .ok (some ⟨2 * btsPricePrecision, 1, 0⟩) ∧
          e.getNextAsk.getCurrentCoverDebt .transparent ask = .ok ⟨10, 1⟩)
        .outOfBounds).isOk = true := by decide +kernel
  obtain ⟨_, hrun⟩ := exists_eq_ok hrun
  simp only [bind_eq_ok, require_eq_ok] at hrun
  obtain ⟨e₀', hopen', e₁', hnext', e₂, hbid₂, hall⟩ := hrun
  obtain ⟨⟨e₂', hbid₂', hbid, rfl⟩, hask⟩ := henters
  rw [hopen] at hopen'
  cases hopen'
  rw [hnext] at hnext'
  cases hnext'
  rw [hbid₂] at hbid₂'
  cases hbid₂'
  rw [hbid, Option.all_some, hask, Option.all_some, decide_eq_true_eq, Option.any_eq_true] at hall
  obtain ⟨hbidIs, ⟨haskType, hcollateral, p, hget, hstored⟩, hrest⟩ := hall
  exact ⟨hbidIs, ⟨haskType, hcollateral, p, hget, of_decide_eq_true hstored⟩, hrest⟩

/-! ### Conservation -/

/-- An ask of 101 shares at a price of one half, and a short of 100 shares at a feed price of one. -/
def dustMarket : ChainInterface :=
  (marketChain { id := 1, issuerAccountId := AssetRecord.marketIssuedAsset } { id := 0 }
    (.price ['1'] 1 0) [] [(⟨⟨btsPricePrecision / 2, 1, 0⟩, 8⟩, { balance := 101 })]
    [(⟨⟨1, 1, 0⟩, 7⟩, { balance := 100 })] []).push

end MarketEngine

end LarkX
