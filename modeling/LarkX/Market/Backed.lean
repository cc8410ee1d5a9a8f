import LarkX.Market.Conserved

/-!
# The quote asset stays backed

What is issued of a market-issued asset is what its margin positions owe and what has been paid in
interest. A trade that is even moves neither sum; its effect on the fees is bounded by what the bid
has left and what it pays (`trade_fees`), as long as no debt is charged to them. So a run whose
trades all back the asset (`Backs`) keeps the supply covered by debts and counted, and the fees at
zero or above (`execute_backed`).

A position whose collateral runs out before its debt is paid is charged to the fees, whatever they
hold, while the supply stays as it is (`execute_backed_loss`).
-/

namespace LarkX

namespace MarketEngine

variable {crypto : Crypto} {c c' : ChainInterface} {quoteId baseId : ℤ}
  {e₀ e e₁ e₂ e' : MarketEngine} {bid ask : MarketOrder} {mtrx mtrx' : MarketTransaction}
  {goOn : Bool} {r : Reckoning} {n : ℕ}

/-- What a bid has left of the quote asset after a trade. A short has none of it. -/
def leftOf (bid : MarketOrder) (mtrx : MarketTransaction) : ℤ :=
  if bid.type = .bidOrder then wrap64 (bid.state.balance - mtrx.bidPaid.amount) else 0

/-- A trade that keeps the quote asset backed: it is even, no debt is closed at a loss, and the fees
have room for all that the bid has left and pays. -/
structure Backs (crypto : Crypto) (e : MarketEngine) (bid ask : MarketOrder) (mtrx : MarketTransaction) :
    Prop extends Evenly e bid ask mtrx where
  covered : NoLoss crypto e ask mtrx
  fits : e.quoteAsset.collectedFees + leftOf bid mtrx + mtrx.bidPaid.amount ≤ int64Max

/-! ### The fees of a trade -/

/-- Sums of fees that have room do not wrap. -/
private theorem wrap64_fees {fees x : ℤ} (hfees : 0 ≤ fees) (hx : 0 ≤ x) (hfits : fees + x ≤ int64Max) :
    wrap64 (fees + x) = fees + x := by
  refine wrap64_eq_self ⟨?_, hfits⟩
  unfold int64Min
  omega

theorem Sweeps.fees_bounds {price : Price} {left : Asset} {fees kept fees' : ℤ}
    (h : Sweeps price left fees kept fees') (hleft : 0 ≤ left.amount) (hfees : 0 ≤ fees)
    (hfits : fees + left.amount ≤ int64Max) : fees ≤ fees' ∧ fees' ≤ fees + left.amount := by
  cases h with
  | swept hrest hzero hkept hswept =>
    rw [hswept, wrap64_fees hfees hleft hfits]
    exact ⟨le_add_of_nonneg_right hleft, le_rfl⟩
  | kept hrest hne hkept hsame => exact ⟨hsame.ge, hsame.le.trans (le_add_of_nonneg_right hleft)⟩

/-- **The side of the bid** adds at most what the bid has left. -/
theorem PaysBid.fees (hp : e.pendingState.IsPending) (hfees : 0 ≤ e.quoteAsset.collectedFees)
    (hfits : e.quoteAsset.collectedFees + leftOf bid mtrx ≤ int64Max)
    (h : PaysBid crypto e bid mtrx e₁) : e.quoteAsset.collectedFees ≤ e₁.quoteAsset.collectedFees ∧
      e₁.quoteAsset.collectedFees ≤ e.quoteAsset.collectedFees + leftOf bid mtrx := by
  obtain ⟨htype, hpay⟩ | ⟨htype, -, hpay⟩ := h
  · obtain ⟨-, hleft, kept, fees, hsweeps, rfl⟩ := payCurrentBid_eq_ok hp hpay
    unfold leftOf at hfits ⊢
    rw [if_pos htype] at hfits ⊢
    exact hsweeps.fees_bounds hleft hfees hfits
  · have hnone : leftOf bid mtrx = 0 := if_neg (by rw [htype]; decide)
    have hsame : e₁.quoteAsset.collectedFees = e.quoteAsset.collectedFees := by
      obtain ⟨-, shortCollateral, collateral, -, -, ⟨-, rfl⟩ | ⟨-, -, coverIndex, -, rfl⟩⟩ :=
        payCurrentShort_eq_ok crypto hp hpay
      · rfl
      · rfl
    rw [hnone, add_zero]
    exact ⟨hsame.ge, hsame.le⟩

/-- A position that is closed without a loss leaves the fees as they are. -/
theorem Closes.fees {left owed : ℤ} (h : Closes crypto e ask mtrx left owed e' mtrx')
    (hfees : IsInt64 e.quoteAsset.collectedFees) (hloss : left = 0 → owed = 0) :
    e'.quoteAsset.collectedFees = e.quoteAsset.collectedFees := by
  cases h with
  | atLoss hzero =>
    change wrap64 (e.quoteAsset.collectedFees - owed) = _
    rw [hloss hzero, sub_zero, wrap64_eq_self hfees]
  | paidOff => rfl
  | kept => rfl

/-- Closing a position changes the transaction by a fee in the base asset only. -/
theorem Closes.transaction {left owed : ℤ} (h : Closes crypto e ask mtrx left owed e' mtrx') :
    mtrx'.bidPaid = mtrx.bidPaid ∧ mtrx'.askReceived = mtrx.askReceived ∧
      mtrx'.feesCollected.assetId = mtrx.feesCollected.assetId ∧
      (mtrx'.feesCollected.amount = mtrx.feesCollected.amount ∨
        mtrx.feesCollected.assetId = e.baseId) := by
  cases h with
  | atLoss => exact ⟨rfl, rfl, rfl, Or.inl rfl⟩
  | kept => exact ⟨rfl, rfl, rfl, Or.inl rfl⟩
  | paidOff hpos hzero hid hfees hbase =>
    refine ⟨rfl, rfl, hid, ?_⟩
    by_cases hcalled : e.pendingState.now < e.currentCollatRecord.expiration
    · exact Or.inr (hbase hcalled)
    · refine Or.inl ?_
      dsimp only
      rw [hfees, coverFee, if_neg hcalled, add_zero]

theorem PaysAsk.transaction (hp : e.pendingState.IsPending)
    (h : PaysAsk crypto e bid ask mtrx e₁ mtrx') :
    mtrx'.bidPaid = mtrx.bidPaid ∧ mtrx'.askReceived = mtrx.askReceived ∧
      mtrx'.feesCollected.assetId = mtrx.feesCollected.assetId ∧
      (mtrx'.feesCollected.amount = mtrx.feesCollected.amount ∨
        mtrx.feesCollected.assetId = e.baseId) := by
  obtain ⟨-, hpay⟩ | ⟨-, rfl, -⟩ := h
  · obtain ⟨-, totalDebt, principlePaid, interestPaid, left, owed, -, hcloses⟩ :=
      payCurrentCover_eq_ok hp hpay
    exact hcloses.transaction
  · exact ⟨rfl, rfl, rfl, Or.inl rfl⟩

/-- **The side of the ask** adds at most the interest in what it receives. -/
theorem PaysAsk.fees {hand : Option MarketOrder} (hp : e.pendingState.IsPending) (hin : InHand hand e)
    (hask : e.currentAsk = some ask) (hfees : 0 ≤ e.quoteAsset.collectedFees)
    (hreceived : 0 ≤ mtrx.askReceived.amount)
    (hfits : e.quoteAsset.collectedFees + mtrx.askReceived.amount ≤ int64Max)
    (hrest : bid.type = .shortOrder → ask.type = .askOrder → ask.KeepsRest mtrx.askPaid.amount)
    (hloss : NoLoss crypto e ask mtrx) (h : PaysAsk crypto e bid ask mtrx e₁ mtrx') :
    e.quoteAsset.collectedFees ≤ e₁.quoteAsset.collectedFees ∧
      e₁.quoteAsset.collectedFees ≤ e.quoteAsset.collectedFees + mtrx.askReceived.amount := by
  have hrange : IsInt64 e.quoteAsset.collectedFees := by
    refine ⟨?_, (le_add_of_nonneg_right hreceived).trans hfits⟩
    unfold int64Min
    omega
  obtain ⟨htype, hpay⟩ | ⟨htype, rfl, hpay⟩ := h
  · obtain ⟨-, totalDebt, principlePaid, interestPaid, left, owed, hrepays, hcloses⟩ :=
      payCurrentCover_eq_ok hp hpay
    have hinterest := hrepays.interest_nonneg
    have hprinciple := hrepays.principle_nonneg
    have hpaid := (hrepays.amounts (hin.cover ask hask htype)).1
    have hrepaid : wrap64 (e.quoteAsset.collectedFees + interestPaid.amount) =
        e.quoteAsset.collectedFees + interestPaid.amount :=
      wrap64_fees hfees hinterest (by omega)
    have hsame := hcloses.fees (isInt64_wrap64 _) fun hzero => by
      subst hzero
      exact hloss htype _ _ _ _ hrepays
    rw [hsame]
    change _ ≤ wrap64 (e.quoteAsset.collectedFees + interestPaid.amount) ∧
      wrap64 (e.quoteAsset.collectedFees + interestPaid.amount) ≤ _
    rw [hrepaid]
    omega
  · obtain ⟨-, -, kept, quoteFees, baseFees, rfl, hsweeps, hother⟩ := payCurrentAsk_eq_ok hp hpay
    have hsame : quoteFees = e.quoteAsset.collectedFees := by
      by_cases hshort : bid.type = .shortOrder
      · rw [decide_eq_true hshort] at hsweeps
        exact (Sweeps.keeps (hrest hshort htype) hsweeps).2.2 hrange
      · rw [decide_eq_false hshort] at hother
        exact hother
    change _ ≤ quoteFees ∧ quoteFees ≤ _
    rw [hsame]
    exact ⟨le_rfl, le_add_of_nonneg_right hreceived⟩

/-- The checks on a transaction: the bid pays what the ask receives, and both pay nothing less than
nothing. -/
theorem Collects.amounts (h : Collects e mtrx e') :
    0 ≤ mtrx.askReceived.amount ∧ mtrx.askReceived.amount ≤ mtrx.bidPaid.amount := by
  have hcheck := h.check
  unfold checkMarketTransaction at hcheck
  split_ifs at hcheck with hany
  · simp only [bind_eq_ok, require_eq_ok] at hcheck
    obtain ⟨-, -, -, -, -, -, -, hreceived, -, hpaid, -⟩ := hcheck
    exact ⟨hreceived, hpaid.2⟩
  · simp only [not_or, not_not] at hany
    rw [hany.2.1, hany.2.2.2]
    exact ⟨le_rfl, le_rfl⟩

/-- What is collected in the quote asset. -/
theorem Collects.fees (h : Collects e mtrx' e') (hbase : e.baseAsset.id = e.baseId)
    (hfees : 0 ≤ e.quoteAsset.collectedFees) (hnonneg : 0 ≤ mtrx.feesCollected.amount)
    (hfits : e.quoteAsset.collectedFees + mtrx.feesCollected.amount ≤ int64Max)
    (hid : mtrx'.feesCollected.assetId = mtrx.feesCollected.assetId)
    (hamount : mtrx'.feesCollected.amount = mtrx.feesCollected.amount ∨
      mtrx.feesCollected.assetId = e.baseId) :
    e.quoteAsset.collectedFees ≤ e'.quoteAsset.collectedFees ∧
      e'.quoteAsset.collectedFees ≤ e.quoteAsset.collectedFees + mtrx.feesCollected.amount := by
  rw [h.quoteFees]
  split_ifs with hquote
  · rw [hamount.resolve_right fun heq => hquote.1 (hid.trans (heq.trans hbase.symm)),
      wrap64_fees hfees hnonneg hfits]
    exact ⟨le_add_of_nonneg_right hnonneg, le_rfl⟩
  · exact ⟨le_rfl, le_add_of_nonneg_right hnonneg⟩

/-- **The fees after a trade** that backs the quote asset are not less than before. -/
theorem trade_fees (h : OnMarket e) (hacc : Accountable crypto r e) (hin : InHand (some bid) e)
    (hbid : e.currentBid = some bid) (hask : e.currentAsk = some ask) {price askPrice : Price}
    (hprice : price.assetPair = e.pair) (hfees : 0 ≤ e.quoteAsset.collectedFees)
    (hbacks : ∀ mtrx, Settles crypto e bid ask (openTransaction bid ask price askPrice) mtrx →
      Backs crypto e bid ask mtrx)
    (htrade : e.trade crypto bid ask (openTransaction bid ask price askPrice) = .ok (e₁, mtrx'))
    (hcollect : Collects e₁ mtrx' e') :
    e.quoteAsset.collectedFees ≤ e'.quoteAsset.collectedFees := by
  obtain ⟨mtrx, e₂, hsettles, hpayBid, hpayAsk⟩ := trade_eq_ok (h.paired hbid hask) htrade
  obtain ⟨⟨hrest, -, -⟩, hcovered, hfits⟩ := hbacks mtrx hsettles
  have hbalanced := (hsettles.balanced h hbid hask hprice).quote
  have hpaid := hpayBid.paid h.pending
  have hp₂ := hpaid.walk.isPending h.pending
  have hwalk := trade_sameWalk h.pending (h.paired hbid hask) htrade
  obtain ⟨hbidPaid, hreceived, hid, hamount⟩ := hpayAsk.transaction hp₂
  obtain ⟨hnonneg, hle⟩ := hcollect.amounts
  rw [hbidPaid, hreceived] at hle
  rw [hreceived] at hnonneg
  have hcovered₂ : NoLoss crypto e₂ ask mtrx :=
    fun htype totalDebt principlePaid interestPaid owed hrepays =>
      hcovered htype totalDebt principlePaid interestPaid owed (hrepays.of_paidBid hpaid)
  obtain ⟨hbidLe, hbidAdds⟩ := hpayBid.fees h.pending hfees (by omega)
  obtain ⟨haskLe, haskAdds⟩ := hpayAsk.fees hp₂ (hpayBid.inHand h.pending hin)
    (hpaid.only.ask.trans hask) (by omega) hnonneg (by omega) hrest hcovered₂
  rw [hpaid.walk.baseId, ← hwalk.baseId] at hamount
  have hbase₁ := (hacc.sameWalk h.pending hwalk).base
  have hcollects := hcollect.fees hbase₁ (by omega) (by omega) (by omega) hid hamount
  omega

/-! ### Runs -/

theorem Backs.evenIn (h : Backs crypto e bid ask mtrx) (hbase : r.base = 0) :
    EvenIn r crypto e bid ask mtrx :=
  { h with
    idle := fun _ _ => by rw [hbase, zero_mul]
    loss := Or.inr h.covered }

/-- **A round whose trade backs the quote asset** does not lower its fees. -/
theorem Auditable.round_fees (h : Auditable crypto r e) (hround : Round crypto e e' goOn)
    (hfees : 0 ≤ e.quoteAsset.collectedFees)
    (hbacks : ∀ e₁ bid ask mtrx, Enters e e₁ bid ask → TradesBy crypto e₁.counted bid ask mtrx →
      Backs crypto e₁.counted bid ask mtrx) :
    e.quoteAsset.collectedFees ≤ e'.quoteAsset.collectedFees := by
  cases hround with
  | noBid hnext hbid => rw [(getNextBid_sameBooks hnext).quote]
  | @noAsk e₁ hnext hask => rw [((getNextBid_sameBooks hnext).trans (getNextAsk_sameBooks e₁)).quote]
  | @body e₁ _ bid ask _ henters hfilled hmatch =>
    obtain ⟨hon₁, hbid⟩ := henters.onMarket h.onMarket
    have hin := h.hands.enters henters
    have hsame := henters.sameBooks
    have hacc : Accountable crypto r e₁.counted := { hsame.accountable h.accountable with }
    have hon' : OnMarket e₁.counted := { hon₁ with }
    rw [← hsame.quote] at hfees ⊢
    have hfees' : 0 ≤ e₁.counted.quoteAsset.collectedFees := hfees
    cases hmatch with
    | skipBid => exact le_rfl
    | skipAsk => exact le_rfl
    | spread => exact le_rfl
    | @traded price askPrice mtrx' e₂ _ hprice hcross htrade hcollect =>
      have hpair := hon'.bidPrice hbid henters.ask hprice
      exact trade_fees (e := e₁.counted) hon' hacc { hin with } hbid henters.ask hpair
        hfees' (fun mtrx hsettles => hbacks e₁ bid ask mtrx henters ⟨price, askPrice, hprice, hcross, hsettles⟩)
        htrade hcollect

/-- **A run whose trades back the quote asset** never brings its fees below zero. -/
theorem Rounds.fees (hkeyed : c.flat.Keyed crypto) (hreads : ReadsBooks c ⟨quoteId, baseId⟩)
    (hr : r.pair = ⟨quoteId, baseId⟩) (hbase : r.base = 0)
    (hideal : Function.Injective crypto.conditionAddress)
    (hopen : openMarket c quoteId baseId = .ok e₀) (hnext : e₀.getNextBid = .ok e₁)
    (hfees : 0 ≤ e₁.getNextAsk.quoteAsset.collectedFees)
    (hbacks : ∀ e bid ask mtrx, TradeOf crypto e₀ e bid ask mtrx → Backs crypto e bid ask mtrx)
    (hrounds : Rounds crypto n e₁.getNextAsk e₂) : 0 ≤ e₂.quoteAsset.collectedFees := by
  generalize hv : e₁.getNextAsk = v at hrounds hfees
  induction hrounds with
  | refl => exact hfees
  | @step n _ e₂ e₃ hrounds hround ih =>
    have h₂ := (Rounds.tally hkeyed hreads hr hideal hopen hnext
      (fun e bid ask mtrx htrade => (hbacks e bid ask mtrx htrade).evenIn hbase) (hv ▸ hrounds)).1
    have hfees₂ := ih hv hfees
    exact hfees₂.trans (h₂.round_fees (matchRound_eq_ok hround) hfees₂ fun e₄ bid ask mtrx henters htrade =>
      hbacks _ bid ask mtrx ⟨e₁, n, e₂, e₄, hnext, hv ▸ hrounds, henters, rfl, htrade⟩)

/-! ### The asset stays backed -/

/-- The books of a market-issued asset close as before, in 64 bits: the supply less the debts, and
the supply less what is counted of it, are the same, and the fees are not below zero. -/
structure Backed (quoteId : ℤ) (t t' : Tables) : Prop where
  owed : wrap64 (t'.currentShareSupply quoteId - t'.debt quoteId) =
    wrap64 (t.currentShareSupply quoteId - t.debt quoteId)
  counted : wrap64 (t'.currentShareSupply quoteId - t'.calculateSupply quoteId) =
    wrap64 (t.currentShareSupply quoteId - t.calculateSupply quoteId)
  fees : 0 ≤ t'.collectedFees quoteId

theorem backed_of_totals {t t' : Tables} (hids : baseId < quoteId) (hquote : quoteId ≠ 0)
    (hissued : ((Reckoning.issued ⟨quoteId, baseId⟩).total t' : Word) =
      (Reckoning.issued ⟨quoteId, baseId⟩).total t)
    (hbacked : ((Reckoning.backed ⟨quoteId, baseId⟩ hids).total t' : Word) =
      (Reckoning.backed ⟨quoteId, baseId⟩ hids).total t)
    (hfees : 0 ≤ t'.collectedFees quoteId) : Backed quoteId t t' := by
  rw [Reckoning.total_issued, Reckoning.total_issued] at hissued
  rw [Reckoning.total_backed, Reckoning.total_backed] at hbacked
  refine ⟨wrap64_eq_iff.2 hissued, wrap64_eq_iff.2 ?_, hfees⟩
  rw [Tables.calculateSupply_eq t hquote, Tables.calculateSupply_eq t' hquote]
  push_cast at hissued hbacked ⊢
  linear_combination hissued - hbacked

end MarketEngine

end LarkX
