import LarkX.Chain.Block
import LarkX.Evaluate.Request
import LarkX.Market.Writes

/-!
# What a block writes

`BlockWrite` are the writes the evaluation of a block makes to its pending state: the
statistics and the pay of delegates, the slots up to the block, the writes of the market engine
and of the transactions, and four properties. `evaluateBlockChanges` is a sequence of them, so
an invariant of the chain state needs one case for each.
-/

namespace LarkX

/-- The writes of a block over the head `head`. -/
inductive BlockWrite (crypto : Crypto) (head : SignedBlockHeader) (b : FullBlock)
    (c : ChainInterface) : Write → Prop
  /-- The statistics and the pay of a delegate. -/
  | delegate {id : ℤ} {old r : AccountRecord} (hold : c.flat.accounts[id]? = some old)
      (hsame : EvaluationState.SameIdentity old r)
      (hkeys : r.activeKeyHistory = old.activeKeyHistory) : BlockWrite crypto head b c (.account r)
  | slot {r : SlotRecord}
      (h : r.startTime = b.timestamp ∨ r.startTime ∈ ChainInterface.missedSlots head b) :
      BlockWrite crypto head b c (.slot r)
  | confirmation (required : ℤ) :
      BlockWrite crypto head b c (.property .confirmationRequirement (.int required))
  /-- The fees and the supply the pay comes from. -/
  | asset {id : ℤ} {old r : AssetRecord} (hold : c.flat.assets[id]? = some old)
      (hsame : SameAsset old r) : BlockWrite crypto head b c (.asset r)
  | market {pair : AssetPair} {w : Write}
      (hdirty : c.database.getDirtyMarkets[pair]? = some ()) (hlt : pair.Ordered)
      (h : MarketEngine.MarketWrite crypto pair c w) : BlockWrite crypto head b c w
  | evaluation {trx : SignedTransaction} {w : Write} (htrx : trx ∈ b.userTransactions)
      (h : EvaluationWrite crypto trx.operations c w) : BlockWrite crypto head b c w
  | transaction {trx : SignedTransaction} {n : ℕ} {digest : Digest}
      (htrx : b.userTransactions[n]? = some trx) :
      BlockWrite crypto head b c (.transaction (crypto.transactionId trx)
        ⟨trx, ⟨b.blockNum, n⟩⟩ digest)
  | activeDelegates (ids : List ℤ) :
      BlockWrite crypto head b c (.property .activeDelegateListId (.ids ids))
  | randomSeed (seed : SecretHash) :
      BlockWrite crypto head b c (.property .lastRandomSeedId (.hash seed))

namespace ChainInterface

variable {crypto : Crypto} {c c' : ChainInterface} {head : SignedBlockHeader} {b : FullBlock}
  {blockSignee : PublicKey}

/-- Writes of a block. -/
abbrev BlockWrites (crypto : Crypto) (head : SignedBlockHeader) (b : FullBlock) :
    ChainInterface → ChainInterface → Prop :=
  Writes crypto (BlockWrite crypto head b)

/-! ### Production and pay -/

theorem getDelegate_eq_ok {id : ℤ} {r : AccountRecord} {info : DelegateStats}
    (h : c.getDelegate id = .ok (r, info)) :
    c.flat.accounts[id]? = some r ∧ r.delegateInfo = some info := by
  simp only [getDelegate, bind_eq_ok, orThrow_eq_ok, pure_eq_ok, Prod.mk.injEq] at h
  obtain ⟨r', hr, info', hinfo, rfl, rfl⟩ := h
  rw [getAccountRecord_eq] at hr
  exact ⟨hr, hinfo⟩

/-- A write that leaves the accounts. -/
theorem getDelegate_write (hp : c.IsPending) {w : Write}
    (hw : (c.flat.write crypto w).accounts = c.flat.accounts) (id : ℤ) :
    (c.write crypto w).getDelegate id = c.getDelegate id := by
  simp only [getDelegate, getAccountRecord_eq, flat_write hp, hw]

/-- A delegate that is stored with other statistics, and then its slot. -/
private theorem delegate_slot_writes (hp : c.IsPending) {id : ℤ} {r : AccountRecord}
    {info : DelegateStats} (hr : c.getDelegate id = .ok (r, info)) (info' : DelegateStats)
    {slot : SlotRecord}
    (hslot : slot.startTime = b.timestamp ∨ slot.startTime ∈ missedSlots head b) :
    BlockWrites crypto head b c ((c.storeAccountRecord crypto
      { r with delegateInfo := some info' }).storeSlotRecord slot) := by
  rw [storeAccountRecord_eq hp]
  have haccount : BlockWrites crypto head b c (c.write crypto (.account
      { r with delegateInfo := some info' })) :=
    .single (.delegate (getDelegate_eq_ok hr).1 ⟨rfl, rfl, rfl⟩ rfl)
  rw [storeSlotRecord_eq crypto (haccount.isPending hp)]
  exact haccount.tail (.slot hslot)

theorem updateProducer_writes (hp : c.IsPending)
    (h : c.updateProducer crypto b blockSignee = .ok c') : BlockWrites crypto head b c c' := by
  simp only [updateProducer, bind_eq_ok, pure_eq_ok] at h
  obtain ⟨signee, -, ⟨r, info⟩, hr, _, -, rfl⟩ := h
  exact delegate_slot_writes hp hr _ (Or.inl rfl)

theorem updateMissedSlot_writes (hp : c.IsPending) {active : List ℤ} {timestamp : ℕ}
    (ht : timestamp ∈ missedSlots head b)
    (h : c.updateMissedSlot crypto active timestamp = .ok c') :
    BlockWrites crypto head b c c' := by
  simp only [updateMissedSlot, bind_eq_ok, pure_eq_ok] at h
  obtain ⟨signee, -, ⟨r, info⟩, hr, rfl⟩ := h
  exact delegate_slot_writes hp hr _ (Or.inr ht)

theorem updateDelegateProductionInfo_writes (hp : c.IsPending)
    (h : c.updateDelegateProductionInfo crypto head b blockSignee = .ok c') :
    BlockWrites crypto head b c c' := by
  simp only [updateDelegateProductionInfo, bind_eq_ok, pure_eq_ok] at h
  obtain ⟨c₁, hproducer, _, -, required, -, active, -, c₂, hmissed, rfl⟩ := h
  have h₁ : BlockWrites crypto head b c c₁ := updateProducer_writes hp hproducer
  have h₂ : BlockWrites crypto head b c₁ c₂ :=
    Writes.foldlM (fun _ _ _ ht hp₂ _ h => updateMissedSlot_writes hp₂ ht h)
      (h₁.isPending hp) hmissed
  rw [setProperty_eq crypto ((h₁.trans h₂).isPending hp)]
  exact (h₁.trans h₂).tail (.confirmation _)

theorem payDelegate_writes (hp : c.IsPending)
    (h : c.payDelegate crypto blockSignee = .ok c') : BlockWrites crypto head b c c' := by
  simp only [payDelegate, bind_eq_ok, orThrow_eq_ok, pure_eq_ok] at h
  obtain ⟨signee, -, ⟨r, info⟩, hr, _, -, maxAvailable, -, base, hbase, base', hbase', rfl⟩ := h
  rw [getAssetRecord_eq] at hbase
  rw [storeAssetRecord_eq crypto hp] at hbase' ⊢
  have hfees : BlockWrites crypto head b c (c.write crypto (.asset
      { base with collectedFees := wrap64 (base.collectedFees - maxAvailable) })) :=
    .single (.asset hbase ⟨rfl, rfl, rfl, rfl⟩)
  have hp₁ := hfees.isPending hp
  obtain ⟨hold, -⟩ := getDelegate_eq_ok hr
  have hold₁ : (c.write crypto (.asset
      { base with collectedFees := wrap64 (base.collectedFees - maxAvailable) })).flat.accounts[
        signee.id]? = some r := by
    rw [flat_write hp]
    exact hold
  rw [storeAccountRecord_eq hp₁] at hbase' ⊢
  have hpay := hfees.tail (.delegate hold₁ (r := { r with delegateInfo := some { info with
    payBalance := wrap64 (info.payBalance + (info.payRate * maxAvailable).tdiv 100)
    votesFor := wrap64 (info.votesFor + (info.payRate * maxAvailable).tdiv 100) } })
    ⟨rfl, rfl, rfl⟩ rfl)
  rw [getAssetRecord_eq] at hbase'
  rw [storeAssetRecord_eq crypto (hpay.isPending hp)]
  exact hpay.tail (.asset hbase' ⟨rfl, rfl, rfl, rfl⟩)

/-! ### Markets and transactions -/

theorem executeMarkets_blockWrites (hp : c.IsPending) (hkeyed : c.flat.Keyed crypto)
    (h : executeMarkets crypto c = .ok c') : BlockWrites crypto head b c c' := by
  refine (executeMarkets_writes hp hkeyed h).mono fun c₁ w hbelow hw => ?_
  obtain ⟨pair, hdirty, hlt, hw⟩ := hw
  refine .market ?_ hlt hw
  rwa [database, hbelow.db, hbelow.now, hbelow.headBlockNum]

theorem applyTransaction_writes (hp : c.IsPending) {skip : Bool} {trx : SignedTransaction} {n : ℕ}
    (htrx : b.userTransactions[n]? = some trx)
    (h : c.applyTransaction crypto skip b.blockNum (trx, n) = .ok c') :
    BlockWrites crypto head b c c' := by
  simp only [applyTransaction, bind_eq_ok] at h
  obtain ⟨s, heval, hstore⟩ := h
  have heval' := EvaluationState.evaluate_writes hp heval
  have hw : BlockWrites crypto head b c s.currentState :=
    heval'.mono fun _ w _ hw => .evaluation (List.mem_of_getElem? htrx) hw
  obtain ⟨chainId, -, rfl⟩ := storeTransaction_eq_ok (hw.isPending hp) hstore
  refine hw.tail ?_
  rw [(EvaluationState.evaluate_request heval).1]
  exact .transaction htrx

theorem applyTransactionsOf_writes (hp : c.IsPending) {skip : Bool}
    (h : c.applyTransactionsOf crypto skip b = .ok c') : BlockWrites crypto head b c c' := by
  refine Writes.foldlM (fun c₁ e c₂ he hp₁ _ h => ?_) hp h
  obtain ⟨trx, n⟩ := e
  exact applyTransaction_writes hp₁ (List.mem_zipIdx_iff_getElem?.1 he) h

/-! ### The block -/

theorem updateActiveDelegateList_writes (hp : c.IsPending)
    (h : c.updateActiveDelegateList crypto b = .ok c') : BlockWrites crypto head b c c' := by
  simp only [updateActiveDelegateList, ite_eq_ok, bind_eq_ok, pure_eq_ok] at h
  obtain ⟨-, seed, -, rfl⟩ | ⟨-, rfl⟩ := h
  · rw [setActiveDelegates, setProperty_eq crypto hp]
    exact .single (.activeDelegates _)
  · exact .refl

theorem updateRandomSeed_writes (hp : c.IsPending) {secret : SecretHash}
    (h : c.updateRandomSeed crypto secret = .ok c') : BlockWrites crypto head b c c' := by
  simp only [updateRandomSeed, bind_eq_ok, pure_eq_ok] at h
  obtain ⟨seed, -, rfl⟩ := h
  rw [setProperty_eq crypto hp]
  exact .single (.randomSeed _)

/-- **The evaluation of a block is a sequence of such writes.** -/
theorem evaluateBlockChanges_writes (hp : c.IsPending) (hkeyed : c.flat.Keyed crypto)
    {skip : Bool} (h : c.evaluateBlockChanges crypto head skip b blockSignee = .ok c') :
    BlockWrites crypto head b c c' := by
  simp only [evaluateBlockChanges, bind_eq_ok] at h
  obtain ⟨c₁, hproduction, c₂, hpay, c₃, hmarkets, c₄, htransactions, c₅, hactive, hseed⟩ := h
  have h₁ : BlockWrites crypto head b c c₁ := updateDelegateProductionInfo_writes hp hproduction
  have h₂ := h₁.trans (payDelegate_writes (h₁.isPending hp) hpay)
  have h₃ := h₂.trans (executeMarkets_blockWrites (h₂.isPending hp) (h₂.keyed hp hkeyed) hmarkets)
  have h₄ := h₃.trans (applyTransactionsOf_writes (h₃.isPending hp) htransactions)
  have h₅ := h₄.trans (updateActiveDelegateList_writes (h₄.isPending hp) hactive)
  exact h₅.trans (updateRandomSeed_writes (h₅.isPending hp) hseed)

end ChainInterface

end LarkX
