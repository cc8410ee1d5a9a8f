import LarkX.Evaluate.Books

/-!
# What each operation does

One inversion lemma for each operation: if its `evaluate` returns, then these records were
read, these amounts were booked and these records were written. The later modules use only
these lemmas, so a change of an operation is a change of its lemma here.
-/

namespace LarkX

namespace EvaluationState

variable {crypto : Crypto} {s s' : EvaluationState}

/-! ### Balance operations -/

/-- A deposit adds to the balance of its condition. -/
theorem deposit_eq_ok {amount : ℤ} {condition : WithdrawCondition}
    (h : s.deposit crypto amount condition = .ok s') :
    ∃ (s₁ : EvaluationState) (r r' : BalanceRecord),
      r = (s.currentState.getBalanceRecord (crypto.conditionAddress condition)).getD
        { condition } ∧
      0 < amount ∧ r'.condition = r.condition ∧ r'.genesisInfo = r.genesisInfo ∧
      r'.balance = wrap64 (r.balance + amount) ∧ Deposits s s₁ ⟨amount, r.assetId⟩ ∧
      SameBooks s₁ s' ∧ s'.currentState = s.currentState.storeBalanceRecord crypto r' := by
  simp only [deposit, ite_bind, bind_eq_ok, require_eq_ok, pure_eq_ok] at h
  obtain ⟨-, hpos, date, -, s₁, hsub, s₂, hvote, rfl⟩ := h
  have hd := subBalance_eq_ok hsub
  have hv := adjustVote_if_eq_ok hvote
  set r := (s.currentState.getBalanceRecord (crypto.conditionAddress condition)).getD
    { condition }
  refine ⟨s₁, r, { r with
      balance := wrap64 (r.balance + amount)
      lastUpdate := s.currentState.now
      depositDate := date },
    rfl, hpos, rfl, rfl, rfl, hd, hv.books.trans (sameBooks_withState _ _), ?_⟩
  change s₂.currentState.storeBalanceRecord crypto _ = _
  rw [hv.currentState, hd.currentState]

/-- The yield of a withdrawal: nothing, or a part of the fees of a market-issued asset. -/
theorem payYield_eq_ok {r r' : BalanceRecord} (h : s.payYield r = .ok (s', r')) :
    (s' = s ∧ r' = r) ∨
    ∃ (asset : AssetRecord) (y : ℤ), s.currentState.getAssetRecord r.assetId = some asset ∧
      asset.isMarketIssued = true ∧ 0 < y ∧ y < asset.collectedFees ∧
      s' = s.withState (s.currentState.storeAssetRecord
        { asset with collectedFees := wrap64 (asset.collectedFees - y) }) ∧
      r'.condition = r.condition ∧ r'.genesisInfo = r.genesisInfo ∧
      r'.balance = wrap64 (r.balance + y) := by
  simp only [payYield, bind_eq_ok, orThrow_eq_ok] at h
  obtain ⟨asset, hasset, h⟩ := h
  rw [ite_eq_ok] at h
  rcases h with ⟨hmarket, h⟩ | ⟨-, h⟩
  · rw [bind_eq_ok] at h
    obtain ⟨y, hy, h⟩ := h
    rw [ite_eq_ok] at h
    rcases h with ⟨hpos, h⟩ | ⟨-, h⟩
    · simp only [pure_eq_ok, Prod.mk.injEq] at h
      obtain ⟨rfl, rfl⟩ := h
      exact Or.inr ⟨asset, y, hasset, hmarket, hpos, (calculateYield_bounds hy).2 hpos,
        rfl, rfl, rfl, rfl⟩
    · simp only [pure_eq_ok, Prod.mk.injEq] at h
      exact Or.inl ⟨h.1.symm, h.2.symm⟩
  · simp only [pure_eq_ok, Prod.mk.injEq] at h
    exact Or.inl ⟨h.1.symm, h.2.symm⟩

/-- A withdrawal takes its amount from a balance, after the yield was added to it. -/
theorem withdraw_eq_ok {id : BalanceId} {amount : ℤ} {data : ClaimInputData}
    (h : s.withdraw crypto id amount data = .ok s') :
    ∃ (s₁ s₂ : EvaluationState) (r r₁ r' : BalanceRecord),
      s.currentState.getBalanceRecord id = some r ∧ 0 < amount ∧ amount ≤ r.balance ∧
      SameButVotes s s₁ ∧ s₁.payYield r = .ok (s₂, r₁) ∧ r'.condition = r₁.condition ∧
      r'.genesisInfo = r₁.genesisInfo ∧ r'.balance = wrap64 (r₁.balance - amount) ∧
      Withdraws (s₂.withState (s₂.currentState.storeBalanceRecord crypto r')) s'
        ⟨amount, r'.assetId⟩ := by
  simp only [withdraw, ite_bind, bind_eq_ok, require_eq_ok, orThrow_eq_ok] at h
  obtain ⟨-, hpos, r, hr, -, hle, -, -, s₁, hvote, ⟨s₂, r₁⟩, hyield, h⟩ := h
  exact ⟨s₁, s₂, r, r₁, { r₁ with
      balance := wrap64 (r₁.balance - amount)
      lastUpdate := s₂.currentState.now },
    hr, hpos, hle, adjustVote_if_eq_ok hvote, hyield, rfl, rfl, rfl, addBalance_eq_ok h⟩

/-- The checks of a claim, apart from the evaluation. -/
structure ClaimChecked (crypto : Crypto) (source : PtsAddress) (dest : PublicKey)
    (sig : Signature) (r : BalanceRecord) : Prop where
  signed : ∃ key, crypto.recover sig (crypto.claimHash source dest) false = some key ∧
    crypto.ptsAddress key true source.version = source
  base : r.assetId = 0
  genesis : r.genesisInfo.isSome = true

/-- A claim withdraws a whole genesis balance. -/
theorem claim_eq_ok {id : BalanceId} {amount : ℤ} {source : PtsAddress} {dest : PublicKey}
    {sig : Signature} (h : s.claim crypto id amount source dest sig = .ok s') :
    ∃ (s₁ : EvaluationState) (r r' : BalanceRecord),
      s.currentState.getBalanceRecord id = some r ∧ ClaimChecked crypto source dest sig r ∧
      r.balance = amount ∧ SameButVotes s s₁ ∧ r'.condition = r.condition ∧
      r'.genesisInfo = r.genesisInfo ∧ r'.balance = 0 ∧
      Withdraws (s₁.withState (s₁.currentState.storeBalanceRecord crypto r')) s' ⟨amount, 0⟩ := by
  simp only [claim, validateClaimSignature, checkClaimInput, withdrawClaimInput, ite_bind,
    bind_eq_ok, require_eq_ok, orThrow_eq_ok, pure_eq_ok] at h
  obtain ⟨-, ⟨key, hkey, hsigned⟩, r, ⟨r₀, hr, -, hbase, -, hgen, rfl⟩, s₁,
    ⟨-, hall, s₂, hvote, h⟩, -, -, rfl⟩ := h
  exact ⟨s₂, r₀, { r₀ with balance := 0, lastUpdate := s₂.currentState.now }, hr,
    ⟨⟨key, hkey, hsigned⟩, hbase, hgen⟩, hall, adjustVote_if_eq_ok hvote, rfl, rfl, rfl,
    addBalance_eq_ok h⟩

/-- A burn takes its amount from the supply of an asset the market does not issue. -/
theorem burn_eq_ok {amount : Asset} {accountId : ℤ} {message : List Char}
    (h : s.burn amount accountId message = .ok s') :
    ∃ asset : AssetRecord,
      s.currentState.getAssetRecord amount.assetId = some asset ∧
      asset.isMarketIssued = false ∧
      (amount.assetId ≠ 0 ∨ btsBlockchainMinBurnFee ≤ amount.amount) ∧
      Deposits (s.withState (s.currentState.storeAssetRecord { asset with
        currentShareSupply := wrap64 (asset.currentShareSupply - amount.amount) })) s' amount := by
  simp only [burn, bind_eq_ok, require_eq_ok, orThrow_eq_ok, pure_eq_ok] at h
  obtain ⟨-, -, -, hmin, asset, hasset, -, hmarket, s₁, hsub, -, -, rfl⟩ := h
  exact ⟨asset, hasset, hmarket, hmin, subBalance_eq_ok hsub⟩

/-- A slate is written once. -/
theorem defineDelegateSlate_eq_ok {slate : List ℤ}
    (h : s.defineDelegateSlate crypto slate = .ok s') :
    s' = s ∨ (s.currentState.getDelegateSlate (crypto.slateId slate) = none ∧
      s' = s.withState (s.currentState.storeDelegateSlate (crypto.slateId slate) slate)) := by
  simp only [defineDelegateSlate, bind_eq_ok, require_eq_ok] at h
  obtain ⟨-, -, h⟩ := h
  split at h
  · rw [pure_eq_ok] at h
    exact Or.inl h.symm
  · rename_i hnone
    simp only [bind_eq_ok, pure_eq_ok] at h
    obtain ⟨-, -, rfl⟩ := h
    exact Or.inr ⟨hnone, rfl⟩

/-! ### Account operations -/

theorem setActiveKey_eq_ok {r r' : AccountRecord} {now : ℕ} {key : PublicKey}
    (h : r.setActiveKey now key = .ok r') :
    r' = { r with activeKeyHistory := r.activeKeyHistory.insert now key } := by
  simp only [AccountRecord.setActiveKey, bind_eq_ok, pure_eq_ok] at h
  obtain ⟨-, -, rfl⟩ := h
  rfl

theorem requireDelegateFee_eq_ok {payRate : ℕ} (h : s.requireDelegateFee payRate = .ok s') :
    SameButVotes s s' := by
  rw [requireDelegateFee, bind_eq_ok] at h
  obtain ⟨fee, -, h⟩ := h
  exact requireFee_eq_ok h

/-- A registration writes the next id and an account under it, with a name no account has. -/
theorem registerAccount_eq_ok {name : Name} {publicData : ℕ} {ownerKey activeKey : PublicKey}
    {payRate : ℕ} {metaData : Option ℕ}
    (h : s.registerAccount crypto name publicData ownerKey activeKey payRate metaData = .ok s') :
    ∃ (last : ℤ) (r : AccountRecord), s.currentState.lastAccountId = .ok last ∧
      s.currentState.getAccountRecordByName name = none ∧ r.id = last + 1 ∧ r.name = name ∧
      r.ownerKey = ownerKey ∧ r.payBalance = 0 ∧
      r.activeKeyHistory = (∅ : Table ℕ PublicKey).insert s.currentState.now activeKey ∧
      SameBooks s s' ∧
      s'.currentState = (s.currentState.setProperty .lastAccountId
        (.int (last + 1))).storeAccountRecord crypto r := by
  simp only [registerAccount, ChainInterface.newAccountId, ite_bind, bind_eq_ok, require_eq_ok,
    pure_eq_ok] at h
  obtain ⟨-, -, -, -, s₁, hfee, -, -, -, hname, -, -, -, -, ⟨id, c⟩, ⟨last, hlast, hid⟩, r, hr,
    s₂, hpay, rfl⟩ := h
  obtain ⟨rfl, rfl⟩ := Prod.mk.injEq .. ▸ hid
  have hf := requireFee_eq_ok hfee
  have hp : SameButVotes (s₁.withState (s₁.currentState.setProperty .lastAccountId
      (.int (last + 1)))) s₂ := by
    rw [ite_eq_ok] at hpay
    rcases hpay with ⟨-, hpay⟩ | ⟨-, hpay⟩
    · exact requireDelegateFee_eq_ok hpay
    · rw [pure_eq_ok] at hpay
      exact hpay ▸ SameButVotes.refl _
  have hr' := setActiveKey_eq_ok hr
  subst hr'
  rw [hf.currentState] at hlast hname
  refine ⟨last, { id := last + 1, name, publicData, ownerKey, metaData
                  registrationDate := s.currentState.now
                  lastUpdate := s.currentState.now
                  activeKeyHistory := (∅ : Table ℕ PublicKey).insert s.currentState.now activeKey
                  delegateInfo := if payRate ≤ 100 then some { payRate } else none },
    hlast, Option.isNone_iff_eq_none.1 hname, rfl, rfl, rfl, ?_, rfl, ?_, ?_⟩
  · unfold AccountRecord.payBalance
    split <;> rfl
  · exact hf.books.trans ((sameBooks_withState _ _).trans
      (hp.books.trans (sameBooks_withState _ _)))
  · change s₂.currentState.storeAccountRecord crypto _ = _
    rw [hp.currentState]
    change (s₁.currentState.setProperty _ _).storeAccountRecord crypto _ = _
    rw [hf.currentState]

/-- The fields of an account no operation changes. -/
structure SameIdentity (r r' : AccountRecord) : Prop where
  id : r'.id = r.id
  name : r'.name = r.name
  ownerKey : r'.ownerKey = r.ownerKey

theorem SameIdentity.refl (r : AccountRecord) : SameIdentity r r :=
  ⟨rfl, rfl, rfl⟩

theorem SameIdentity.trans {r₁ r₂ r₃ : AccountRecord} (h : SameIdentity r₁ r₂)
    (h' : SameIdentity r₂ r₃) : SameIdentity r₁ r₃ :=
  ⟨h'.id.trans h.id, h'.name.trans h.name, h'.ownerKey.trans h.ownerKey⟩

/-- What an update may change of an account: not its identity or its pay, and its keys only
when a key is given. -/
structure Updated (activeKey : Option PublicKey) (r r' : AccountRecord) : Prop where
  identity : SameIdentity r r'
  payBalance : r'.payBalance = r.payBalance
  keys : activeKey = none → r'.activeKeyHistory = r.activeKeyHistory

theorem Updated.trans {key : Option PublicKey} {r₁ r₂ r₃ : AccountRecord} (h : Updated key r₁ r₂)
    (h' : Updated key r₂ r₃) : Updated key r₁ r₃ :=
  ⟨h.identity.trans h'.identity, h'.payBalance.trans h.payBalance,
    fun hk => (h'.keys hk).trans (h.keys hk)⟩

theorem changeActiveKey_eq_ok {r r' : AccountRecord} {activeKey : Option PublicKey}
    (h : s.changeActiveKey crypto r activeKey = .ok r') : Updated activeKey r r' := by
  unfold changeActiveKey at h
  split at h
  · rename_i key hkey
    simp only [bind_eq_ok] at h
    obtain ⟨-, -, -, -, h⟩ := h
    rw [setActiveKey_eq_ok h]
    refine ⟨⟨rfl, rfl, rfl⟩, rfl, fun hnone => ?_⟩
    rw [hnone] at hkey
    cases hkey
  · simp only [bind_eq_ok, pure_eq_ok] at h
    obtain ⟨-, -, rfl⟩ := h
    exact ⟨SameIdentity.refl _, rfl, fun _ => rfl⟩

theorem setUpdatedKey_eq_ok {r r' : AccountRecord} {activeKey : Option PublicKey}
    (h : s.setUpdatedKey crypto r activeKey = .ok r') : Updated activeKey r r' := by
  unfold setUpdatedKey at h
  split at h
  · simp only [bind_eq_ok, pure_eq_ok] at h
    obtain ⟨r₁, hr₁, -, -, rfl⟩ := h
    rw [setActiveKey_eq_ok hr₁]
    exact ⟨⟨rfl, rfl, rfl⟩, rfl, fun hnone => by cases hnone⟩
  · rw [pure_eq_ok] at h
    exact h ▸ ⟨SameIdentity.refl _, rfl, fun _ => rfl⟩

theorem changePayRate_eq_ok {r r' : AccountRecord} {payRate : ℕ} (activeKey : Option PublicKey)
    (h : s.changePayRate r payRate = .ok (s', r')) :
    SameButVotes s s' ∧ Updated activeKey r r' := by
  unfold changePayRate at h
  split at h
  · rename_i info hinfo
    simp only [bind_eq_ok, pure_eq_ok, Prod.mk.injEq] at h
    obtain ⟨-, -, -, -, rfl, rfl⟩ := h
    refine ⟨SameButVotes.refl _, ⟨rfl, rfl, rfl⟩, ?_, fun _ => rfl⟩
    unfold AccountRecord.payBalance
    rw [hinfo]
    rfl
  · rename_i hnone
    rw [ite_eq_ok] at h
    rcases h with ⟨-, h⟩ | ⟨-, h⟩
    · simp only [bind_eq_ok, pure_eq_ok, Prod.mk.injEq] at h
      obtain ⟨s₁, hfee, rfl, rfl⟩ := h
      refine ⟨requireDelegateFee_eq_ok hfee, ⟨rfl, rfl, rfl⟩, ?_, fun _ => rfl⟩
      unfold AccountRecord.payBalance
      rw [hnone]
      rfl
    · simp only [pure_eq_ok, Prod.mk.injEq] at h
      obtain ⟨rfl, rfl⟩ := h
      exact ⟨SameButVotes.refl _, SameIdentity.refl _, rfl, fun _ => rfl⟩

/-- An update writes the account it names, under the same name and owner. -/
theorem updateAccount_eq_ok {accountId : ℤ} {publicData : Option ℕ}
    {activeKey : Option PublicKey} {payRate : ℕ}
    (h : s.updateAccount crypto accountId publicData activeKey payRate = .ok s') :
    ∃ r r' : AccountRecord, s.currentState.getAccountRecord accountId = some r ∧
      Updated activeKey r r' ∧ SameBooks s s' ∧
      s'.currentState = s.currentState.storeAccountRecord crypto r' := by
  simp only [updateAccount, bind_eq_ok, orThrow_eq_ok, pure_eq_ok] at h
  obtain ⟨r, hr, -, -, r₁, hkey, ⟨s₁, r₂⟩, hpay, r₃, hset, rfl⟩ := h
  obtain ⟨hsame, hu₂⟩ := changePayRate_eq_ok activeKey hpay
  have hu₁ := changeActiveKey_eq_ok hkey
  have hu₃ := setUpdatedKey_eq_ok hset
  refine ⟨r, r₃, hr, ?_, hsame.books.trans (sameBooks_withState _ _), ?_⟩
  · have hdata : Updated activeKey r₁ { r₁ with publicData := publicData.getD r₁.publicData } :=
      ⟨⟨rfl, rfl, rfl⟩, rfl, fun _ => rfl⟩
    have htime : Updated activeKey r₂ { r₂ with lastUpdate := s₁.currentState.now } :=
      ⟨⟨rfl, rfl, rfl⟩, rfl, fun _ => rfl⟩
    exact (hu₁.trans hdata).trans (hu₂.trans (htime.trans hu₃))
  · change s₁.currentState.storeAccountRecord crypto r₃ = _
    rw [hsame.currentState]

/-- A withdrawal of pay takes it from the pay balance of a delegate. -/
theorem withdrawPay_eq_ok {amount accountId : ℤ}
    (h : s.withdrawPay crypto amount accountId = .ok s') :
    ∃ (s₁ : EvaluationState) (r : AccountRecord) (info : DelegateStats),
      s.currentState.getAccountRecord |accountId| = some r ∧ r.delegateInfo = some info ∧
      0 < amount ∧ amount ≤ info.payBalance ∧ SameButVotes s s₁ ∧
      Withdraws (s₁.withState (s₁.currentState.storeAccountRecord crypto { r with
        delegateInfo := some { info with payBalance := wrap64 (info.payBalance - amount) } })) s'
        ⟨amount, 0⟩ := by
  simp only [withdrawPay, bind_eq_ok, require_eq_ok, orThrow_eq_ok] at h
  obtain ⟨-, hpos, r, hr, -, -, info, hinfo, -, -, -, hle, h⟩ := h
  exact ⟨_, r, info, hr, hinfo, hpos, hle, addNetVotes_same _ _ _, addBalance_eq_ok h⟩

/-! ### Orders -/

/-- The funds of an order: withdrawn from an order that has them, or deposited. -/
theorem moveOrderFunds_eq_ok {current : Option OrderRecord} {x : Asset}
    (h : s.moveOrderFunds current x = .ok s') :
    (∃ r, current = some r ∧ x.amount < 0 ∧ wrap64 |x.amount| ≤ r.balance ∧
      Withdraws s s' x.neg) ∨ (0 < x.amount ∧ Deposits s s' x) := by
  simp only [moveOrderFunds, bind_eq_ok, require_eq_ok] at h
  obtain ⟨-, hne, h⟩ := h
  rw [ite_eq_ok] at h
  rcases h with ⟨hneg, h⟩ | ⟨hnot, h⟩
  · simp only [bind_eq_ok, orThrow_eq_ok, require_eq_ok] at h
    obtain ⟨r, hr, -, hle, h⟩ := h
    exact Or.inl ⟨r, hr, hneg, hle, addBalance_eq_ok h⟩
  · exact Or.inr ⟨by omega, subBalance_eq_ok h⟩

theorem moveOrderFunds_currentState {current : Option OrderRecord} {x : Asset}
    (h : s.moveOrderFunds current x = .ok s') : s'.currentState = s.currentState := by
  rcases moveOrderFunds_eq_ok h with ⟨_, _, _, _, h⟩ | ⟨_, h⟩
  · exact h.currentState
  · exact h.currentState

/-- The balance of an order after its funds have moved. -/
@[simp]
theorem updatedOrder_balance (current : Option OrderRecord) (now : ℕ) (amount : ℤ) :
    (updatedOrder current now amount).balance = wrap64 ((current.getD {}).balance + amount) :=
  rfl

theorem bid_eq_ok {amount : ℤ} {key : MarketIndexKey} (h : s.bid amount key = .ok s') :
    ∃ (s₁ : EvaluationState) (r : OrderRecord),
      s.moveOrderFunds (s.currentState.getBidRecord key)
        ⟨amount, key.orderPrice.quoteAssetId⟩ = .ok s₁ ∧
      r.balance = wrap64 (((s.currentState.getBidRecord key).getD {}).balance + amount) ∧
      s' = s₁.withState (s₁.currentState.storeBidRecord key r) := by
  simp only [bid, bind_eq_ok, pure_eq_ok] at h
  obtain ⟨-, -, -, -, -, -, s₁, hmove, rfl⟩ := h
  exact ⟨s₁, _, hmove, rfl, rfl⟩

theorem ask_eq_ok {amount : ℤ} {key : MarketIndexKey} (h : s.ask amount key = .ok s') :
    ∃ (s₁ : EvaluationState) (r : OrderRecord),
      s.moveOrderFunds (s.currentState.getAskRecord key)
        ⟨amount, key.orderPrice.baseAssetId⟩ = .ok s₁ ∧
      r.balance = wrap64 (((s.currentState.getAskRecord key).getD {}).balance + amount) ∧
      0 ≤ r.balance ∧ s' = s₁.withState (s₁.currentState.storeAskRecord key r) := by
  simp only [ask, bind_eq_ok, require_eq_ok, pure_eq_ok] at h
  obtain ⟨-, -, -, -, -, -, s₁, hmove, -, hnonneg, rfl⟩ := h
  exact ⟨s₁, _, hmove, rfl, hnonneg, rfl⟩

theorem short_eq_ok {amount : ℤ} {key : MarketIndexKey} {limit : Option Price}
    (h : s.short amount key limit = .ok s') :
    ∃ (s₁ : EvaluationState) (r : OrderRecord),
      s.moveOrderFunds (s.currentState.getShortRecord key)
        ⟨amount, key.orderPrice.baseAssetId⟩ = .ok s₁ ∧
      key.orderPrice.baseAssetId < key.orderPrice.quoteAssetId ∧
      key.orderPrice.baseAssetId = 0 ∧
      r.balance = wrap64 (((s.currentState.getShortRecord key).getD {}).balance + amount) ∧
      0 ≤ r.balance ∧ s' = s₁.withState (s₁.currentState.storeShortRecord key r) := by
  simp only [short, bind_eq_ok, require_eq_ok, pure_eq_ok] at h
  obtain ⟨-, -, -, hlt, -, hbase, -, -, -, -, -, -, -, -, -, -, s₁, hmove, -, hnonneg, rfl⟩ := h
  exact ⟨s₁, { updatedOrder (s.currentState.getShortRecord key) s₁.currentState.now amount with
    shortPriceLimit := limit }, hmove, hlt, hbase, rfl, hnonneg, rfl⟩

/-! ### Margin positions -/

/-- The price of a division is in the higher asset for the lower one. -/
theorem divAsset_eq_ok {x y : Asset} {p : Price} (h : x.divAsset y = .ok p) :
    p.baseAssetId < p.quoteAssetId ∧
      ((p.quoteAssetId = x.assetId ∧ p.baseAssetId = y.assetId) ∨
        (p.quoteAssetId = y.assetId ∧ p.baseAssetId = x.assetId)) := by
  simp only [Asset.divAsset, bind_eq_ok, require_eq_ok, pure_eq_ok] at h
  obtain ⟨-, hne, -, -, rfl⟩ := h
  dsimp only
  by_cases hlt : x.assetId < y.assetId
  · rw [if_pos hlt, if_pos hlt]
    exact ⟨hlt, Or.inr ⟨rfl, rfl⟩⟩
  · rw [if_neg hlt, if_neg hlt]
    exact ⟨lt_of_le_of_ne (not_lt.1 hlt) (Ne.symm hne), Or.inl ⟨rfl, rfl⟩⟩

/-- How a cover leaves the position: moved to a new price, or closed with its collateral
withdrawn. -/
inductive CoverEnd (crypto : Crypto) (key : MarketIndexKey) (newCoverPrice : Option Price)
    (position : CollateralRecord) (s s' : EvaluationState) : Prop
  | moved (price : Price)
      (hprice : newCoverPrice = some price ∨
        (price.baseAssetId < price.quoteAssetId ∧
          ((price.quoteAssetId = key.orderPrice.quoteAssetId ∧
              price.baseAssetId = key.orderPrice.baseAssetId) ∨
            (price.quoteAssetId = key.orderPrice.baseAssetId ∧
              price.baseAssetId = key.orderPrice.quoteAssetId))))
      (hpos : 0 < position.payoffBalance)
      (h : s' = s.withState (s.currentState.storeCollateralRecord ⟨price, key.owner⟩ position))
  | closed (hzero : position.payoffBalance = 0)
      (h : Withdraws s s' ⟨position.collateralBalance, key.orderPrice.baseAssetId⟩)

/-- A cover pays into the debt of a position: the principal leaves the supply, the interest is
collected as fees. -/
theorem cover_eq_ok {amount : ℤ} {key : MarketIndexKey} {newCoverPrice : Option Price}
    (h : s.cover crypto amount key newCoverPrice = .ok s') :
    ∃ (s₁ : EvaluationState) (position position' : CollateralRecord) (asset asset' : AssetRecord)
      (principle interest : ℤ),
      0 ≤ amount ∧ Deposits s s₁ ⟨amount, key.orderPrice.quoteAssetId⟩ ∧
      s.currentState.getCollateralRecord key = some position ∧
      s.currentState.getAssetRecord key.orderPrice.quoteAssetId = some asset ∧
      0 ≤ principle ∧ 0 ≤ interest ∧ principle + interest = amount ∧
      asset' = { asset with
        currentShareSupply := wrap64 (asset.currentShareSupply - principle)
        collectedFees := wrap64 (asset.collectedFees + interest) } ∧
      position'.collateralBalance = position.collateralBalance ∧
      0 ≤ position'.payoffBalance ∧
      CoverEnd crypto key newCoverPrice position' (s₁.withState
        ((s.currentState.storeAssetRecord asset').storeCollateralRecord key {})) s' := by
  simp only [cover, bind_eq_ok, require_eq_ok, orThrow_eq_ok] at h
  obtain ⟨-, -, -, -, -, hamount, -, -, s₁, hsub, position, hposition, asset, hasset, owed, -,
    debt, hdebt, ⟨principle, interest⟩, hsplit, -, hprinciple, -, hinterest, -, hpayoff, -, -, h⟩ := h
  have hd := subBalance_eq_ok hsub
  rw [hd.currentState] at hposition hasset
  dsimp only at hprinciple hinterest hpayoff h
  set payoff : ℤ := if Asset.ge ⟨amount, key.orderPrice.quoteAssetId⟩ debt then 0
    else wrap64 (position.payoffBalance - principle.amount)
  have hsum : principle.amount + interest.amount = amount := by
    unfold splitPayment at hsplit
    rw [ite_eq_ok] at hsplit
    rcases hsplit with ⟨-, hsplit⟩ | ⟨-, hsplit⟩
    · simp only [bind_eq_ok, pure_eq_ok, Prod.mk.injEq] at hsplit
      obtain ⟨paid, hpaid, rfl, rfl⟩ := hsplit
      have hrest := (Asset.sub_eq_ok hpaid).2.2.1
      dsimp only at hrest ⊢
      omega
    · simp only [bind_eq_ok, pure_eq_ok, Prod.mk.injEq] at hsplit
      obtain ⟨paid, -, rest, hrest, rfl, rfl⟩ := hsplit
      have hsub := (Asset.sub_eq_ok hrest).2.2.1
      dsimp only at hsub ⊢
      omega
  refine ⟨s₁, position, { position with payoffBalance := payoff }, asset, _, principle.amount,
    interest.amount, hamount, hd, hposition, hasset, hprinciple, hinterest, hsum, rfl, rfl,
    hpayoff, ?_⟩
  · rw [ite_eq_ok] at h
    rcases h with ⟨hpos, h⟩ | ⟨hnot, h⟩
    · simp only [bind_eq_ok, pure_eq_ok] at h
      obtain ⟨callPrice, hcall, rfl⟩ := h
      refine .moved _ ?_ hpos (by rw [← hd.currentState]; rfl)
      cases hnew : newCoverPrice.filter fun p => callPrice.lt p with
      | none => exact Or.inr (divAsset_eq_ok hcall)
      | some p =>
        rw [Option.filter_eq_some_iff] at hnew
        exact Or.inl hnew.1
    · refine .closed (le_antisymm (not_lt.1 hnot) hpayoff) ?_
      have := addBalance_eq_ok h
      rw [← hd.currentState]
      exact this

/-- Adding collateral moves the position to its new call price. -/
theorem addCollateral_eq_ok {amount : ℤ} {key : MarketIndexKey}
    (h : s.addCollateral amount key = .ok s') :
    ∃ (s₁ : EvaluationState) (position position' : CollateralRecord) (price : Price),
      0 < amount ∧ Deposits s s₁ ⟨amount, key.orderPrice.baseAssetId⟩ ∧
      s.currentState.getCollateralRecord key = some position ∧
      position'.collateralBalance = wrap64 (position.collateralBalance + amount) ∧
      price.baseAssetId < price.quoteAssetId ∧
      ((price.quoteAssetId = key.orderPrice.quoteAssetId ∧
          price.baseAssetId = key.orderPrice.baseAssetId) ∨
        (price.quoteAssetId = key.orderPrice.baseAssetId ∧
          price.baseAssetId = key.orderPrice.quoteAssetId)) ∧
      s' = s₁.withState ((s.currentState.storeCollateralRecord key {}).storeCollateralRecord
        ⟨price, key.owner⟩ position') := by
  simp only [addCollateral, bind_eq_ok, require_eq_ok, orThrow_eq_ok, pure_eq_ok] at h
  obtain ⟨-, -, -, hne, -, hamount, s₁, hsub, position, hposition, price, hprice, rfl⟩ := h
  have hd := subBalance_eq_ok hsub
  rw [hd.currentState] at hposition
  obtain ⟨hlt, hpair⟩ := divAsset_eq_ok hprice
  refine ⟨s₁, position, { position with
      collateralBalance := wrap64 (position.collateralBalance + amount) },
    price, by omega, hd, hposition, rfl, hlt, hpair, ?_⟩
  rw [← hd.currentState]
  rfl

/-! ### Feeds -/

/-- A feed is written, and its market against the base asset becomes dirty. -/
theorem updateFeed_eq_ok {feed : FeedIndex} {value : FeedValue}
    (h : s.updateFeed crypto feed value = .ok s') :
    ∃ (r : FeedRecord) (c : ChainInterface), r.feed = feed ∧ r.value = value ∧
      (s.currentState.setFeed r).setMarketDirty ⟨feed.feedId, 0⟩ = .ok c ∧
      s' = s.withState c := by
  simp only [updateFeed, bind_eq_ok, pure_eq_ok] at h
  obtain ⟨-, -, -, -, -, -, -, -, c, hc, rfl⟩ := h
  exact ⟨_, c, rfl, rfl, hc, rfl⟩

end EvaluationState

end LarkX
