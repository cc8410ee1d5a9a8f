import LarkX.Evaluate.Spec

/-!
# What an evaluation writes

`EvaluationWrite crypto ops c` are the writes that the evaluation of a transaction with the
operations `ops` may make when the chain state is `c`, with what is known of them there: an
asset or an account is written over an old record with the same identity, a new account has
the next id and a fresh name, an order is under the key its operation names. Every evaluation
is a sequence of such writes (`EvaluationState.evaluate_writes`), so an invariant of the chain
state needs one case for each of them.
-/

namespace LarkX

/-- What no evaluation changes of an asset. -/
structure SameAsset (r r' : AssetRecord) : Prop where
  id : r'.id = r.id
  symbol : r'.symbol = r.symbol
  issuerAccountId : r'.issuerAccountId = r.issuerAccountId
  maximumShareSupply : r'.maximumShareSupply = r.maximumShareSupply

/-- A price in the market of another price, in one of the two directions. -/
def SameMarket (p q : Price) : Prop :=
  (q.quoteAssetId = p.quoteAssetId ∧ q.baseAssetId = p.baseAssetId) ∨
    (q.quoteAssetId = p.baseAssetId ∧ q.baseAssetId = p.quoteAssetId)

/-- The writes of an evaluation. -/
inductive EvaluationWrite (crypto : Crypto) (ops : List Operation) (c : ChainInterface) :
    Write → Prop
  | asset {id : ℤ} {old r : AssetRecord} (hold : c.flat.assets[id]? = some old)
      (hsame : SameAsset old r) : EvaluationWrite crypto ops c (.asset r)
  | account {id : ℤ} {old r : AccountRecord} (hold : c.flat.accounts[id]? = some old)
      (hsame : EvaluationState.SameIdentity old r)
      (hkeys : r.activeKeyHistory = old.activeKeyHistory ∨ ∃ accountId publicData key payRate,
        Operation.updateAccount accountId publicData (some key) payRate ∈ ops) :
      EvaluationWrite crypto ops c (.account r)
  | newAccount {last : ℤ} {r : AccountRecord}
      (hop : ∃ publicData ownerKey activeKey payRate metaData,
        Operation.registerAccount r.name publicData ownerKey activeKey payRate metaData ∈ ops)
      (hlast : c.lastAccountId = .ok last) (hid : r.id = last + 1)
      (hname : c.getAccountRecordByName r.name = none) :
      EvaluationWrite crypto ops c (.newAccount r)
  | balance (r : BalanceRecord) : EvaluationWrite crypto ops c (.balance r)
  | bid {amount : ℤ} {key : MarketIndexKey} (r : OrderRecord)
      (hop : Operation.bid amount key ∈ ops) : EvaluationWrite crypto ops c (.bid key r)
  | ask {amount : ℤ} {key : MarketIndexKey} (r : OrderRecord)
      (hop : Operation.ask amount key ∈ ops) : EvaluationWrite crypto ops c (.ask key r)
  | short {key : MarketIndexKey} (r : OrderRecord)
      (hlt : key.orderPrice.baseAssetId < key.orderPrice.quoteAssetId) :
      EvaluationWrite crypto ops c (.short key r)
  /-- A margin position leaves its old price. -/
  | clearPosition {key : MarketIndexKey} {position : CollateralRecord}
      (hold : c.flat.collateral[key]? = some position) :
      EvaluationWrite crypto ops c (.collateral key {})
  /-- A margin position goes to the price a cover asks for. -/
  | coverPrice {amount : ℤ} {key : MarketIndexKey} {price : Price} (r : CollateralRecord)
      (hop : Operation.cover amount key (some price) ∈ ops) :
      EvaluationWrite crypto ops c (.collateral ⟨price, key.owner⟩ r)
  /-- A margin position goes to its new call price. -/
  | callPrice {key : MarketIndexKey} {price : Price} (r : CollateralRecord)
      (hlt : price.baseAssetId < price.quoteAssetId) (hmarket : SameMarket key.orderPrice price) :
      EvaluationWrite crypto ops c (.collateral ⟨price, key.owner⟩ r)
  | slate {slate : List ℤ} (hnone : c.flat.slates[crypto.slateId slate]? = none) :
      EvaluationWrite crypto ops c (.slate (crypto.slateId slate) slate)
  | feed {r : FeedRecord} (hop : Operation.updateFeed r.feed r.value ∈ ops) :
      EvaluationWrite crypto ops c (.feed r)
  | dirtyFeed {feed : FeedIndex} {value : FeedValue}
      (hop : Operation.updateFeed feed value ∈ ops) :
      EvaluationWrite crypto ops c (.dirty ⟨feed.feedId, 0⟩)

/-- More operations may write more. -/
theorem EvaluationWrite.mono {crypto : Crypto} {ops ops' : List Operation} {c : ChainInterface}
    {w : Write} (hsub : ops ⊆ ops') (h : EvaluationWrite crypto ops c w) :
    EvaluationWrite crypto ops' c w := by
  cases h with
  | asset hold hsame => exact .asset hold hsame
  | account hold hsame hkeys =>
    refine .account hold hsame (hkeys.imp_right ?_)
    rintro ⟨accountId, publicData, key, payRate, hop⟩
    exact ⟨accountId, publicData, key, payRate, hsub hop⟩
  | newAccount hop hlast hid hname =>
    obtain ⟨publicData, ownerKey, activeKey, payRate, metaData, hop⟩ := hop
    exact .newAccount ⟨publicData, ownerKey, activeKey, payRate, metaData, hsub hop⟩ hlast hid
      hname
  | balance r => exact .balance r
  | bid r hop => exact .bid r (hsub hop)
  | ask r hop => exact .ask r (hsub hop)
  | short r hlt => exact .short r hlt
  | clearPosition hold => exact .clearPosition hold
  | coverPrice r hop => exact .coverPrice r (hsub hop)
  | callPrice r hlt hmarket => exact .callPrice r hlt hmarket
  | slate hnone => exact .slate hnone
  | feed hop => exact .feed (hsub hop)
  | dirtyFeed hop => exact .dirtyFeed (hsub hop)

namespace EvaluationState

open ChainInterface (Writes)

variable {crypto : Crypto} {s s' : EvaluationState}

/-- The writes of one operation. -/
abbrev OperationWrites (crypto : Crypto) (op : Operation) (c c' : ChainInterface) : Prop :=
  Writes crypto (EvaluationWrite crypto [op]) c c'

/-! ### One lemma for each operation -/

theorem deposit_writes {amount : ℤ} {condition : WithdrawCondition}
    (hp : s.currentState.IsPending) (h : s.deposit crypto amount condition = .ok s') :
    OperationWrites crypto (.deposit amount condition) s.currentState s'.currentState := by
  obtain ⟨_, _, r', -, -, -, -, -, -, -, hstate⟩ := deposit_eq_ok h
  rw [hstate, ChainInterface.storeBalanceRecord_eq hp]
  exact .single (.balance r')

variable (crypto) in
theorem payYield_writes {r r' : BalanceRecord} (op : Operation) (hp : s.currentState.IsPending)
    (h : s.payYield r = .ok (s', r')) :
    OperationWrites crypto op s.currentState s'.currentState := by
  rcases payYield_eq_ok h with ⟨rfl, -⟩ | ⟨asset, y, hasset, -, -, -, rfl, -, -, -⟩
  · exact .refl
  · change OperationWrites crypto op s.currentState (s.currentState.storeAssetRecord _)
    rw [ChainInterface.storeAssetRecord_eq crypto hp]
    rw [ChainInterface.getAssetRecord_eq] at hasset
    exact .single (.asset hasset ⟨rfl, rfl, rfl, rfl⟩)

theorem withdraw_writes {id : BalanceId} {amount : ℤ} {data : ClaimInputData}
    (hp : s.currentState.IsPending) (h : s.withdraw crypto id amount data = .ok s') :
    OperationWrites crypto (.withdraw id amount data) s.currentState s'.currentState := by
  obtain ⟨s₁, s₂, r, r₁, r', -, -, -, hvotes, hyield, -, -, -, hwithdraws⟩ := withdraw_eq_ok h
  rw [← hvotes.currentState] at hp ⊢
  have hy := payYield_writes crypto (.withdraw id amount data) hp hyield
  rw [hwithdraws.currentState]
  refine hy.trans ?_
  change OperationWrites crypto _ s₂.currentState (s₂.currentState.storeBalanceRecord crypto r')
  rw [ChainInterface.storeBalanceRecord_eq (hy.isPending hp)]
  exact .single (.balance r')

theorem claim_writes {id : BalanceId} {amount : ℤ} {source : PtsAddress} {dest : PublicKey}
    {sig : Signature} (hp : s.currentState.IsPending)
    (h : s.claim crypto id amount source dest sig = .ok s') :
    OperationWrites crypto (.claim id amount source dest sig) s.currentState s'.currentState := by
  obtain ⟨s₁, r, r', -, -, -, hvotes, -, -, -, hwithdraws⟩ := claim_eq_ok h
  rw [hwithdraws.currentState]
  change OperationWrites crypto _ _ (s₁.currentState.storeBalanceRecord crypto r')
  rw [hvotes.currentState, ChainInterface.storeBalanceRecord_eq hp]
  exact .single (.balance r')

theorem burn_writes {amount : Asset} {accountId : ℤ} {message : List Char}
    {sig : Option Signature} (hp : s.currentState.IsPending)
    (h : s.burn amount accountId message = .ok s') :
    OperationWrites crypto (.burn amount accountId message sig) s.currentState
      s'.currentState := by
  obtain ⟨asset, hasset, -, -, hdeposits⟩ := burn_eq_ok h
  rw [hdeposits.currentState]
  change OperationWrites crypto _ s.currentState (s.currentState.storeAssetRecord _)
  rw [ChainInterface.storeAssetRecord_eq crypto hp]
  rw [ChainInterface.getAssetRecord_eq] at hasset
  exact .single (.asset hasset ⟨rfl, rfl, rfl, rfl⟩)

theorem registerAccount_writes {name : Name} {publicData : ℕ} {ownerKey activeKey : PublicKey}
    {payRate : ℕ} {metaData : Option ℕ} (hp : s.currentState.IsPending)
    (h : s.registerAccount crypto name publicData ownerKey activeKey payRate metaData = .ok s') :
    OperationWrites crypto (.registerAccount name publicData ownerKey activeKey payRate metaData)
      s.currentState s'.currentState := by
  obtain ⟨last, r, hlast, hname, hid, hrname, -, -, -, -, hstate⟩ := registerAccount_eq_ok h
  subst hrname
  rw [hstate, ← hid, ChainInterface.setProperty_eq crypto hp,
    ChainInterface.storeAccountRecord_eq ((ChainInterface.sameBelow_write ..).pending hp),
    ChainInterface.write_lastAccountId_account]
  exact .single (.newAccount ⟨publicData, ownerKey, activeKey, payRate, metaData,
    List.mem_singleton.2 rfl⟩ hlast hid hname)

theorem updateAccount_writes {accountId : ℤ} {publicData : Option ℕ}
    {activeKey : Option PublicKey} {payRate : ℕ} (hp : s.currentState.IsPending)
    (h : s.updateAccount crypto accountId publicData activeKey payRate = .ok s') :
    OperationWrites crypto (.updateAccount accountId publicData activeKey payRate)
      s.currentState s'.currentState := by
  obtain ⟨r, r', hr, hupdated, -, hstate⟩ := updateAccount_eq_ok h
  rw [hstate, ChainInterface.storeAccountRecord_eq hp]
  rw [ChainInterface.getAccountRecord_eq] at hr
  refine .single (.account hr hupdated.identity ?_)
  cases activeKey with
  | none => exact Or.inl (hupdated.keys rfl)
  | some key => exact Or.inr ⟨accountId, publicData, key, payRate, List.mem_singleton.2 rfl⟩

theorem withdrawPay_writes {amount accountId : ℤ} (hp : s.currentState.IsPending)
    (h : s.withdrawPay crypto amount accountId = .ok s') :
    OperationWrites crypto (.withdrawPay amount accountId) s.currentState s'.currentState := by
  obtain ⟨s₁, r, info, hr, -, -, -, hvotes, hwithdraws⟩ := withdrawPay_eq_ok h
  rw [hwithdraws.currentState]
  change OperationWrites crypto _ _ (s₁.currentState.storeAccountRecord crypto _)
  rw [hvotes.currentState, ChainInterface.storeAccountRecord_eq hp]
  rw [ChainInterface.getAccountRecord_eq] at hr
  exact .single (.account hr ⟨rfl, rfl, rfl⟩ (Or.inl rfl))

theorem defineDelegateSlate_writes {slate : List ℤ} (hp : s.currentState.IsPending)
    (h : s.defineDelegateSlate crypto slate = .ok s') :
    OperationWrites crypto (.defineDelegateSlate slate) s.currentState s'.currentState := by
  rcases defineDelegateSlate_eq_ok h with rfl | ⟨hnone, rfl⟩
  · exact .refl
  · change OperationWrites crypto _ _ (s.currentState.storeDelegateSlate _ _)
    rw [ChainInterface.storeDelegateSlate_eq crypto hp]
    rw [ChainInterface.getDelegateSlate_eq] at hnone
    exact .single (.slate hnone)

theorem bid_writes {amount : ℤ} {key : MarketIndexKey} (hp : s.currentState.IsPending)
    (h : s.bid amount key = .ok s') :
    OperationWrites crypto (.bid amount key) s.currentState s'.currentState := by
  obtain ⟨s₁, r, hmove, -, rfl⟩ := bid_eq_ok h
  change OperationWrites crypto _ _ (s₁.currentState.storeBidRecord key r)
  rw [moveOrderFunds_currentState hmove, ChainInterface.storeBidRecord_eq crypto hp]
  exact .single (.bid r (List.mem_singleton.2 rfl))

theorem ask_writes {amount : ℤ} {key : MarketIndexKey} (hp : s.currentState.IsPending)
    (h : s.ask amount key = .ok s') :
    OperationWrites crypto (.ask amount key) s.currentState s'.currentState := by
  obtain ⟨s₁, r, hmove, -, -, rfl⟩ := ask_eq_ok h
  change OperationWrites crypto _ _ (s₁.currentState.storeAskRecord key r)
  rw [moveOrderFunds_currentState hmove, ChainInterface.storeAskRecord_eq crypto hp]
  exact .single (.ask r (List.mem_singleton.2 rfl))

theorem short_writes {amount : ℤ} {key : MarketIndexKey} {limit : Option Price}
    (hp : s.currentState.IsPending) (h : s.short amount key limit = .ok s') :
    OperationWrites crypto (.short amount key limit) s.currentState s'.currentState := by
  obtain ⟨s₁, r, hmove, hlt, -, -, -, rfl⟩ := short_eq_ok h
  change OperationWrites crypto _ _ (s₁.currentState.storeShortRecord key r)
  rw [moveOrderFunds_currentState hmove, ChainInterface.storeShortRecord_eq crypto hp]
  exact .single (.short r hlt)

theorem cover_writes {amount : ℤ} {key : MarketIndexKey} {newCoverPrice : Option Price}
    (hp : s.currentState.IsPending) (h : s.cover crypto amount key newCoverPrice = .ok s') :
    OperationWrites crypto (.cover amount key newCoverPrice) s.currentState s'.currentState := by
  obtain ⟨s₁, position, position', asset, asset', principle, interest, -, -, hposition, hasset,
    -, -, -, rfl, -, -, hend⟩ := cover_eq_ok h
  rw [ChainInterface.getCollateralRecord_eq] at hposition
  rw [ChainInterface.getAssetRecord_eq] at hasset
  rw [ChainInterface.storeAssetRecord_eq crypto hp] at hend
  have hassetWrite : OperationWrites crypto (.cover amount key newCoverPrice) s.currentState
      (s.currentState.write crypto (.asset { asset with
        currentShareSupply := wrap64 (asset.currentShareSupply - principle)
        collectedFees := wrap64 (asset.collectedFees + interest) })) :=
    .single (.asset hasset ⟨rfl, rfl, rfl, rfl⟩)
  have hp₁ := hassetWrite.isPending hp
  rw [ChainInterface.storeCollateralRecord_eq crypto hp₁] at hend
  have hposition₁ : (s.currentState.write crypto (.asset { asset with
      currentShareSupply := wrap64 (asset.currentShareSupply - principle)
      collectedFees := wrap64 (asset.collectedFees + interest) })).flat.collateral[key]? =
        some position := by
    rw [ChainInterface.flat_write hp]
    exact hposition
  have hcleared := hassetWrite.tail (.clearPosition hposition₁)
  have hp₂ := hcleared.isPending hp
  cases hend with
  | moved price hprice hpos hstate =>
    rw [hstate]
    change OperationWrites crypto _ _ (ChainInterface.storeCollateralRecord _ _ _)
    refine (ChainInterface.storeCollateralRecord_eq crypto hp₂ _ _) ▸ hcleared.tail ?_
    rcases hprice with rfl | ⟨hlt, hmarket⟩
    · exact .coverPrice _ (List.mem_singleton.2 rfl)
    · exact .callPrice _ hlt hmarket
  | closed hzero hwithdraws =>
    rw [hwithdraws.currentState]
    exact hcleared

theorem addCollateral_writes {amount : ℤ} {key : MarketIndexKey} (hp : s.currentState.IsPending)
    (h : s.addCollateral amount key = .ok s') :
    OperationWrites crypto (.addCollateral amount key) s.currentState s'.currentState := by
  obtain ⟨s₁, position, position', price, -, -, hposition, -, hlt, hmarket, rfl⟩ :=
    addCollateral_eq_ok h
  rw [ChainInterface.getCollateralRecord_eq] at hposition
  change OperationWrites crypto _ _ (ChainInterface.storeCollateralRecord _ _ _)
  rw [ChainInterface.storeCollateralRecord_eq crypto hp]
  have hcleared : OperationWrites crypto (.addCollateral amount key) s.currentState _ :=
    .single (.clearPosition hposition)
  rw [ChainInterface.storeCollateralRecord_eq crypto (hcleared.isPending hp)]
  exact hcleared.tail (.callPrice _ hlt hmarket)

theorem updateFeed_writes {feed : FeedIndex} {value : FeedValue} (hp : s.currentState.IsPending)
    (h : s.updateFeed crypto feed value = .ok s') :
    OperationWrites crypto (.updateFeed feed value) s.currentState s'.currentState := by
  obtain ⟨r, c, rfl, rfl, hc, rfl⟩ := updateFeed_eq_ok h
  change OperationWrites crypto _ _ c
  rw [ChainInterface.setFeed_eq crypto hp] at hc
  rw [ChainInterface.setMarketDirty_eq_ok crypto hc]
  exact (Writes.single (.feed (List.mem_singleton.2 rfl))).tail
    (.dirtyFeed (List.mem_singleton.2 rfl))

/-- **Step.** Every operation makes such writes. -/
theorem evaluateOperation_writes {op : Operation} (hp : s.currentState.IsPending)
    (h : s.evaluateOperation crypto op = .ok s') :
    OperationWrites crypto op s.currentState s'.currentState := by
  cases op with
  | withdraw id amount data => exact withdraw_writes hp h
  | deposit amount condition => exact deposit_writes hp h
  | claim id amount source dest sig => exact claim_writes hp h
  | burn amount accountId message sig => exact burn_writes hp h
  | registerAccount => exact registerAccount_writes hp h
  | updateAccount => exact updateAccount_writes hp h
  | withdrawPay => exact withdrawPay_writes hp h
  | defineDelegateSlate => exact defineDelegateSlate_writes hp h
  | bid => exact bid_writes hp h
  | ask => exact ask_writes hp h
  | short => exact short_writes hp h
  | cover => exact cover_writes hp h
  | addCollateral => exact addCollateral_writes hp h
  | updateFeed => exact updateFeed_writes hp h
  | withdrawAll | removeCollateral | linkAccount | releaseEscrow | unknown => cases h

/-- **Run.** The operations of a transaction. -/
theorem evaluateOperations_writes {ops : List Operation} (hp : s.currentState.IsPending)
    (h : s.evaluateOperations crypto ops = .ok s') :
    Writes crypto (EvaluationWrite crypto ops) s.currentState s'.currentState := by
  refine foldlM_induction (P := fun s' : EvaluationState =>
    Writes crypto (EvaluationWrite crypto ops) s.currentState s'.currentState) ?_ .refl h
  intro s₁ op s₂ hop hs₁ hs₂
  exact hs₁.trans ((evaluateOperation_writes (hs₁.isPending hp) hs₂).mono
    fun _ _ _ => EvaluationWrite.mono fun _ ho => List.mem_singleton.1 ho ▸ hop)

/-! ### Fees and votes -/

theorem addAltFee_same {fee : ℤ × ℤ} (h : s.addAltFee fee = .ok s') : SameButVotes s s' := by
  simp only [addAltFee, bind_eq_ok, ite_eq_ok, require_eq_ok, pure_eq_ok] at h
  obtain ⟨-, -, ⟨-, rfl⟩ | ⟨-, r, -, ⟨-, price, -, h⟩ | ⟨-, rfl⟩⟩⟩ := h
  · exact SameButVotes.refl s
  · cases price with
    | none =>
      rw [pure_eq_ok] at h
      exact h ▸ SameButVotes.refl s
    | some medianPrice =>
      simp only [bind_eq_ok, pure_eq_ok] at h
      obtain ⟨paid, -, altFeesPaid, -, rfl⟩ := h
      exact ⟨⟨rfl, rfl, rfl⟩, rfl⟩
  · exact SameButVotes.refl s

/-- A positive balance is added to the fees of its asset; any other must be zero. -/
theorem collectFee_eq_ok {fee : ℤ × ℤ} (h : s.collectFee fee = .ok s') :
    0 ≤ fee.2 ∧ ((fee.2 = 0 ∧ s' = s) ∨ ∃ r : AssetRecord, 0 < fee.2 ∧
      s.currentState.getAssetRecord fee.1 = some r ∧
      s' = s.withState (s.currentState.storeAssetRecord
        { r with collectedFees := wrap64 (r.collectedFees + fee.2) })) := by
  simp only [collectFee, bind_eq_ok, ite_eq_ok, require_eq_ok, orThrow_eq_ok, pure_eq_ok] at h
  obtain ⟨-, hnonneg, ⟨hpos, r, hr, rfl⟩ | ⟨hnot, rfl⟩⟩ := h
  · exact ⟨hnonneg, Or.inr ⟨r, hpos, hr, rfl⟩⟩
  · exact ⟨hnonneg, Or.inl ⟨by omega, rfl⟩⟩

variable (crypto) in
theorem collectFee_writes (ops : List Operation) {fee : ℤ × ℤ} (hp : s.currentState.IsPending)
    (h : s.collectFee fee = .ok s') :
    Writes crypto (EvaluationWrite crypto ops) s.currentState s'.currentState := by
  obtain ⟨-, ⟨-, rfl⟩ | ⟨r, -, hr, rfl⟩⟩ := collectFee_eq_ok h
  · exact .refl
  · rw [ChainInterface.getAssetRecord_eq] at hr
    change Writes crypto _ _ (s.currentState.storeAssetRecord _)
    rw [ChainInterface.storeAssetRecord_eq crypto hp]
    exact .single (.asset hr ⟨rfl, rfl, rfl, rfl⟩)

/-- The first pass of `post_evaluate` changes nothing but the fees paid in other assets. -/
theorem addAltFees_same {fees : List (ℤ × ℤ)} (h : fees.foldlM addAltFee s = .ok s') :
    SameButVotes s s' := by
  refine foldlM_induction (P := fun s' => SameButVotes s s') ?_ (SameButVotes.refl s) h
  intro s₁ fee s₂ _ hs₁ hs₂
  have hsame := addAltFee_same hs₂
  exact ⟨hs₁.books.trans hsame.books, hsame.currentState.trans hs₁.currentState⟩

/-- `post_evaluate` collects the balance of every asset, that of the base asset included. -/
theorem postEvaluate_eq_ok (h : s.postEvaluate = .ok s') :
    ∃ s₁ : EvaluationState, s₁.currentState = s.currentState ∧
      s₁.balance = s.balance.insert 0 (s.balanceOf 0) ∧
      s₁.balance.toList.foldlM collectFee s₁ = .ok s' := by
  simp only [postEvaluate, bind_eq_ok] at h
  obtain ⟨s₁, halt, h⟩ := h
  have hsame := addAltFees_same halt
  exact ⟨s₁, hsame.currentState, hsame.books.balance, h⟩

variable (crypto) in
theorem postEvaluate_writes (ops : List Operation) (hp : s.currentState.IsPending)
    (h : s.postEvaluate = .ok s') :
    Writes crypto (EvaluationWrite crypto ops) s.currentState s'.currentState := by
  obtain ⟨s₁, hstate, -, h⟩ := postEvaluate_eq_ok h
  rw [← hstate] at hp ⊢
  refine foldlM_induction (P := fun s' : EvaluationState =>
    Writes crypto (EvaluationWrite crypto ops) s₁.currentState s'.currentState) ?_ .refl h
  intro s₂ fee s₃ _ hs₂ hs₃
  exact hs₂.trans (collectFee_writes crypto ops (hs₂.isPending hp) hs₃)

theorem adjustVotesFor_eq_ok {r r' : AccountRecord} {delta : ℤ}
    (h : r.adjustVotesFor delta = .ok r') :
    SameIdentity r r' ∧ r'.activeKeyHistory = r.activeKeyHistory ∧
      r'.payBalance = r.payBalance := by
  simp only [AccountRecord.adjustVotesFor, bind_eq_ok, orThrow_eq_ok, pure_eq_ok] at h
  obtain ⟨info, hinfo, rfl⟩ := h
  refine ⟨⟨rfl, rfl, rfl⟩, rfl, ?_⟩
  unfold AccountRecord.payBalance
  rw [hinfo]
  rfl

/-- The votes of a delegate are written to its account. -/
theorem updateDelegateVote_eq_ok {delVote : ℤ × ℤ}
    (h : s.updateDelegateVote crypto delVote = .ok s') :
    ∃ r r' : AccountRecord, s.currentState.getAccountRecord delVote.1 = some r ∧
      SameIdentity r r' ∧ r'.activeKeyHistory = r.activeKeyHistory ∧
      r'.payBalance = r.payBalance ∧
      s' = s.withState (s.currentState.storeAccountRecord crypto r') := by
  simp only [updateDelegateVote, bind_eq_ok, orThrow_eq_ok, pure_eq_ok] at h
  obtain ⟨r, hr, r', hvotes, rfl⟩ := h
  obtain ⟨hsame, hkeys, hpay⟩ := adjustVotesFor_eq_ok hvotes
  exact ⟨r, r', hr, hsame, hkeys, hpay, rfl⟩

theorem updateDelegateVotes_writes (ops : List Operation) (hp : s.currentState.IsPending)
    (h : s.updateDelegateVotes crypto = .ok s') :
    Writes crypto (EvaluationWrite crypto ops) s.currentState s'.currentState := by
  refine foldlM_induction (P := fun s' : EvaluationState =>
    Writes crypto (EvaluationWrite crypto ops) s.currentState s'.currentState) ?_ .refl h
  intro s₁ delVote s₂ _ hs₁ hs₂
  obtain ⟨r, r', hr, hsame, hkeys, -, rfl⟩ := updateDelegateVote_eq_ok hs₂
  rw [ChainInterface.getAccountRecord_eq] at hr
  change Writes crypto _ _ (s₁.currentState.storeAccountRecord crypto r')
  rw [ChainInterface.storeAccountRecord_eq (hs₁.isPending hp)]
  exact hs₁.tail (.account hr hsame (Or.inl hkeys))

/-! ### The transaction -/

variable {c : ChainInterface} {chainId : Digest} {trx : SignedTransaction} {skip canonical : Bool}

/-- The parts of an evaluation that returns. -/
theorem evaluate_eq_ok (h : evaluate crypto c chainId trx skip canonical = .ok s') :
    ∃ (signedKeys : List Address) (s₁ s₂ : EvaluationState),
      checkTransaction crypto c chainId trx = .ok () ∧
      (skip = false → recoverSignedKeys crypto (crypto.transactionDigest trx.toTransaction chainId)
        canonical trx.signatures = .ok signedKeys) ∧
      (initial c chainId trx skip signedKeys).evaluateOperations crypto trx.operations = .ok s₁ ∧
      s₁.postEvaluate = .ok s₂ ∧ s₂.updateDelegateVotes crypto = .ok s' := by
  simp only [evaluate, ite_bind, bind_eq_ok] at h
  obtain ⟨⟨⟩, hcheck, signedKeys, hkeys, s₁, hops, s₂, hpost, -, -, h⟩ := h
  refine ⟨signedKeys, s₁, s₂, hcheck, fun hskip => ?_, hops, hpost, h⟩
  rwa [if_neg (by rw [hskip]; exact Bool.false_ne_true)] at hkeys

/-- **The evaluation of a transaction is a sequence of such writes.** -/
theorem evaluate_writes (hp : c.IsPending)
    (h : evaluate crypto c chainId trx skip canonical = .ok s') :
    Writes crypto (EvaluationWrite crypto trx.operations) c s'.currentState := by
  obtain ⟨signedKeys, s₁, s₂, -, -, hops, hpost, hvotes⟩ := evaluate_eq_ok h
  have hw₁ : Writes crypto (EvaluationWrite crypto trx.operations) c s₁.currentState :=
    evaluateOperations_writes hp hops
  have hw₂ := hw₁.trans (postEvaluate_writes crypto trx.operations (hw₁.isPending hp) hpost)
  exact hw₂.trans (updateDelegateVotes_writes trx.operations (hw₂.isPending hp) hvotes)

end EvaluationState

end LarkX
