import LarkX.Evaluate.Transaction
import LarkX.Market.Engine

/-!
# Evaluating a block

The steps of `chain_database_impl::extend_chain` between the receipt of a block and the write
of its changes: the header is verified, then a pending state over the database collects the
production statistics, the pay of the delegate, the trades of the dirty markets, the
transactions, the delegates of the next round and the random seed. Nothing here writes to the
database; `evaluateBlock` is the whole of it.

In this file `c` is the pending state of the block, a stack with one overlay, and `c.database`
the database below it. The header of the head block, which some of the steps read, is an
argument.
-/

namespace LarkX

namespace ChainInterface

/-- The database below the pending states. -/
def database (c : ChainInterface) : ChainInterface :=
  { c with overlays := [] }

/-! ### Delegates -/

/-- `get_delegate_record_for_signee`, on the database. -/
def getDelegateRecordForSignee (crypto : Crypto) (c : ChainInterface) (blockSignee : PublicKey) :
    Fallible AccountRecord := do
  let r ← orThrow (c.database.getAccountRecordByAddress (crypto.keyAddress blockSignee))
    (.assertion "delegate_record.valid()")
  require (r.isDelegate = true) (.assertion "delegate_record->is_delegate()")
  return r

/-- `get_slot_signee( timestamp, ordered_delegates )`, on the database. -/
def getSlotSignee (c : ChainInterface) (timestamp : ℕ) (orderedDelegates : List ℤ) :
    Fallible AccountRecord := do
  let pos := timestamp / btsBlockchainBlockIntervalSec % btsBlockchainNumDelegates
  let id ← orThrow orderedDelegates[pos]?
    (.assertion "delegate_pos < ordered_delegates.size()")
  let r ← orThrow (c.database.getAccountRecord id) (.assertion "delegate_record.valid()")
  require (r.isDelegate = true) (.assertion "delegate_record->is_delegate()")
  return r

/-- A delegate as the pending state has it, with its statistics. -/
def getDelegate (c : ChainInterface) (id : ℤ) : Fallible (AccountRecord × DelegateStats) := do
  let r ← orThrow (c.getAccountRecord id) (.assertion "delegate_record.valid()")
  let info ← orThrow r.delegateInfo (.assertion "delegate_record->is_delegate()")
  return (r, info)

/-! ### The header -/

/-- `verify_header`. The number and the time are compared with those of the head from block 2
on; `wall` is the local clock. -/
def verifyHeader (crypto : Crypto) (c : ChainInterface) (head : SignedBlockHeader)
    (headId : BlockId) (wall : ℕ) (b : FullBlock) (blockSignee : PublicKey) :
    Fallible Unit := do
  require (¬(1 < b.blockNum ∧ b.blockNum ≠ head.blockNum + 1)) .blockNumbersNotSequential
  require (b.previous = headId) .invalidPreviousBlockId
  require (b.timestamp % btsBlockchainBlockIntervalSec = 0) .invalidBlockTime
  require (¬(1 < b.blockNum ∧ b.timestamp ≤ head.timestamp)) .timeInPast
  require (b.timestamp ≤ wall + btsBlockchainBlockIntervalSec * 2) .timeInFuture
  let ids := crypto.userTransactionIds b
  require (crypto.transactionsDigest ids = b.transactionDigest) .invalidBlockDigest
  require ids.Nodup (.assertion "digest_data.validate_unique()")
  let active ← c.database.getActiveDelegates
  let expected ← c.getSlotSignee b.timestamp active
  require (blockSignee = expected.activeKey) .invalidDelegateSignee

/-! ### Production statistics -/

/-- The slots between the head and a block, which nobody filled. -/
def missedSlots (head : SignedBlockHeader) (b : FullBlock) : List ℕ :=
  if 0 < head.blockNum then
    let first := head.timestamp + btsBlockchainBlockIntervalSec
    (List.range ((b.timestamp - first + (btsBlockchainBlockIntervalSec - 1)) /
      btsBlockchainBlockIntervalSec)).map (first + btsBlockchainBlockIntervalSec * ·)
  else []

/-- The producer of a block: its secret is checked and its statistics are updated. -/
def updateProducer (crypto : Crypto) (c : ChainInterface) (b : FullBlock)
    (blockSignee : PublicKey) : Fallible ChainInterface := do
  let signee ← c.getDelegateRecordForSignee crypto blockSignee
  let (r, info) ← c.getDelegate signee.id
  require (info.blocksProduced = 0 ∨ crypto.secretHash b.previousSecret = info.nextSecretHash)
    (.assertion "hash_of_previous_secret == delegate_record->delegate_info->next_secret_hash")
  let info := { info with
    blocksProduced := info.blocksProduced + 1
    nextSecretHash := b.nextSecretHash
    lastBlockNumProduced := b.blockNum }
  let c := c.storeAccountRecord crypto { r with delegateInfo := some info }
  return c.storeSlotRecord ⟨b.timestamp, signee.id, some (crypto.blockId b.toSignedBlockHeader)⟩

/-- One missed slot. -/
def updateMissedSlot (crypto : Crypto) (active : List ℤ) (c : ChainInterface) (timestamp : ℕ) :
    Fallible ChainInterface := do
  let signee ← c.getSlotSignee timestamp active
  let (r, info) ← c.getDelegate signee.id
  let c := c.storeAccountRecord crypto
    { r with delegateInfo := some { info with blocksMissed := info.blocksMissed + 1 } }
  return c.storeSlotRecord ⟨timestamp, signee.id, none⟩

/-- The new confirmation requirement: two more for every missed slot, one less for the block,
within bounds. -/
def nextConfirmationRequirement (required : ℤ) (missed : ℕ) : ℤ :=
  min (3 * btsBlockchainNumDelegates) (max 1 (required + 2 * missed - 1))

/-- `update_delegate_production_info`. -/
def updateDelegateProductionInfo (crypto : Crypto) (c : ChainInterface)
    (head : SignedBlockHeader) (b : FullBlock) (blockSignee : PublicKey) :
    Fallible ChainInterface := do
  let c ← c.updateProducer crypto b blockSignee
  let prop ← c.getProperty .confirmationRequirement
  let required ← prop.asInt
  let active ← c.database.getActiveDelegates
  let missed := missedSlots head b
  let c ← missed.foldlM (updateMissedSlot crypto active) c
  return c.setProperty .confirmationRequirement
    (.int (nextConfirmationRequirement required missed.length))

/-! ### Pay -/

/-- `pay_delegate`: the pay comes out of the collected fees, and what the delegate does not
accept leaves the supply. -/
def payDelegate (crypto : Crypto) (c : ChainInterface) (blockSignee : PublicKey) :
    Fallible ChainInterface := do
  let signee ← c.getDelegateRecordForSignee crypto blockSignee
  let (r, info) ← c.getDelegate signee.id
  require (info.payRate ≤ 100) (.assertion "pay_rate_percent >= 0 && pay_rate_percent <= 100")
  let maxAvailablePaycheck ← c.getDelegatePayRate
  let acceptedPaycheck := (info.payRate * maxAvailablePaycheck).tdiv 100
  let base ← orThrow (c.getAssetRecord 0) (.assertion "pending_base_record.valid()")
  let c := c.storeAssetRecord
    { base with collectedFees := wrap64 (base.collectedFees - maxAvailablePaycheck) }
  let c := c.storeAccountRecord crypto { r with
    delegateInfo := some { info with
      payBalance := wrap64 (info.payBalance + acceptedPaycheck)
      votesFor := wrap64 (info.votesFor + acceptedPaycheck) } }
  let base ← orThrow (c.getAssetRecord 0) (.assertion "base_asset_record.valid()")
  return c.storeAssetRecord { base with
    currentShareSupply :=
      wrap64 (base.currentShareSupply - (maxAvailablePaycheck - acceptedPaycheck)) }

/-! ### Transactions -/

/-- One transaction of a block: evaluated, then stored with its location. -/
def applyTransaction (crypto : Crypto) (skipSignatures : Bool) (blockNum : ℕ)
    (c : ChainInterface) (entry : SignedTransaction × ℕ) : Fallible ChainInterface := do
  let s ← EvaluationState.evaluate crypto c c.db.chainId entry.1 skipSignatures
    (afterFork25 blockNum)
  s.currentState.storeTransaction crypto (crypto.transactionId entry.1)
    { trx := s.trx, chainLocation := ⟨blockNum, entry.2⟩ }

/-- `apply_transactions`. -/
def applyTransactionsOf (crypto : Crypto) (skipSignatures : Bool) (c : ChainInterface)
    (b : FullBlock) : Fallible ChainInterface :=
  b.userTransactions.zipIdx.foldlM (applyTransaction crypto skipSignatures b.blockNum) c

/-! ### The next round -/

/-- `get_delegates_by_vote( 0, BTS_BLOCKCHAIN_NUM_DELEGATES )`, on the database. -/
def nextRoundActiveDelegates (c : ChainInterface) : List ℤ :=
  (c.db.delegateVoteIndex.toList.map fun e => e.1.delegateId).take btsBlockchainNumDelegates

/-- `std::swap` of two positions. -/
def swapAt (l : List ℤ) (i j : ℕ) : List ℤ :=
  (l.set i (l[j]?.getD 0)).set j (l[i]?.getD 0)

/-- The shuffle of the delegates: each round hashes the seed, swaps four positions with
positions its words choose, and passes over the one after them. -/
def shuffleDelegates (crypto : Crypto) : ℕ → ℕ → ℕ → List ℤ → List ℤ
  | 0, _, _, l => l
  | rounds + 1, i, seed, l =>
    if i < l.length then
      let l' := (List.range 4).foldl (fun l' x =>
        if i + x < l.length then swapAt l' (i + x) (crypto.seedWord seed x % l.length) else l') l
      shuffleDelegates crypto rounds (i + 5) (crypto.seedHash seed) l'
    else l

/-- `update_active_delegate_list`: a new list at the end of every round. -/
def updateActiveDelegateList (crypto : Crypto) (c : ChainInterface) (b : FullBlock) :
    Fallible ChainInterface :=
  if b.blockNum % btsBlockchainNumDelegates = 0 then do
    let active := c.nextRoundActiveDelegates
    let seed ← c.getCurrentRandomSeed
    return c.setActiveDelegates
      (shuffleDelegates crypto active.length 0 (crypto.seedHash seed) active)
  else return c

/-- `update_random_seed`. -/
def updateRandomSeed (crypto : Crypto) (c : ChainInterface) (newSecret : SecretHash) :
    Fallible ChainInterface := do
  let seed ← c.getCurrentRandomSeed
  return c.setProperty .lastRandomSeedId (.hash (crypto.mixSeed newSecret seed))

/-! ### The block -/

/-- The steps of `extend_chain` on the pending state of a block, once its header is verified. -/
def evaluateBlockChanges (crypto : Crypto) (c : ChainInterface) (head : SignedBlockHeader)
    (skipSignatures : Bool) (b : FullBlock) (blockSignee : PublicKey) :
    Fallible ChainInterface := do
  let c ← c.updateDelegateProductionInfo crypto head b blockSignee
  let c ← c.payDelegate crypto blockSignee
  let c ← executeMarkets crypto c
  let c ← c.applyTransactionsOf crypto skipSignatures b
  let c ← c.updateActiveDelegateList crypto b
  c.updateRandomSeed crypto b.previousSecret

/-- The steps of `extend_chain` up to `save_undo_state`: the pending state of a block over the
database `c`. -/
def evaluateBlock (crypto : Crypto) (c : ChainInterface) (head : SignedBlockHeader)
    (headId : BlockId) (skipSignatures : Bool) (wall : ℕ) (b : FullBlock) :
    Fallible ChainInterface := do
  let blockSignee ← crypto.signee b.toSignedBlockHeader (afterFork25 b.blockNum)
  c.verifyHeader crypto head headId wall b blockSignee
  c.push.evaluateBlockChanges crypto head skipSignatures b blockSignee

end ChainInterface

end LarkX
