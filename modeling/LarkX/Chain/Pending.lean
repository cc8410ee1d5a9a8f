import LarkX.Chain.Genesis
import LarkX.Evaluate.Request
import LarkX.State.Layers
import LarkX.ForMathlib.Sieve

/-!
# Pending transactions

The transactions that wait for a block. A node evaluates a new one on the pending state that the
earlier ones have left (`storePendingTransaction`). After a block the pending state starts again
from the chain, and every transaction that still waits is evaluated again, in the order of the
digests (`revalidatePending`).

The digests have nothing to do with the order of arrival. So a transaction that spends what an
earlier one pays can be met first, and is discarded although it is valid. `revalidatesRight_iff`
says when revalidation keeps exactly what is still valid.
-/

namespace LarkX

open Std (TransCmp TransOrd LawfulEqOrd)

/-- `fee_index`: the highest fee is first, and the lowest id in ties. -/
structure FeeIndex where
  fees : ℤ := 0
  trx : TransactionId := 0
  deriving DecidableEq, Repr

instance : Ord FeeIndex :=
  ⟨compareLex (compareOn fun i => -i.fees) (compareOn FeeIndex.trx)⟩

instance : TransOrd FeeIndex :=
  inferInstanceAs (TransCmp
    (compareLex (compareOn fun i : FeeIndex => -i.fees) (compareOn FeeIndex.trx)))

instance : LawfulEqOrd FeeIndex :=
  Table.lawfulEqCmp_compareLex fun _ _ hfees htrx =>
    FeeIndex.mk.injEq .. ▸ ⟨neg_injective hfees, htrx⟩

/-- What `chain_database_impl` keeps about pending transactions. A missing `_pending_trx_state`
is an empty one: `evaluate_transaction` makes it before it reads it. -/
structure PendingPool where
  pendingTransactionDb : Table Digest SignedTransaction := ∅
  pendingFeeIndex : Table FeeIndex EvaluationState := ∅
  pendingTrxState : Overlay := {}
  relayFee : ℤ := btsBlockchainDefaultRelayFee

/-- `get_fees()` of an evaluation. -/
def EvaluationState.getFees (s : EvaluationState) : ℤ :=
  s.balanceOf 0

namespace PendingPool

variable (crypto : Crypto) (c : ChainInterface)

/-- `evaluate_transaction( trx, required_fees )` over the chain state `c`: the evaluation, and
the pending state after `apply_changes()`. -/
def evaluateTransaction (pendingTrxState : Overlay) (trx : SignedTransaction) (requiredFees : ℤ) :
    Fallible (EvaluationState × Overlay) := do
  let pendState := { c with overlays := pendingTrxState :: c.overlays }.push
  let s ← EvaluationState.evaluate crypto pendState c.db.chainId trx false
    (afterFork25 pendState.headBlockNum)
  let fees := wrap64 (s.getFees + s.altFeesPaid.amount)
  require (requiredFees ≤ fees) (.insufficientRelayFee fees requiredFees)
  let applied ← s.currentState.applyChanges crypto
  return (s, applied.top)

/-- The relay fee a new transaction is asked for: it grows with the square of what the queue is
too long by, in 64 bits. -/
def requiredRelayFee (pool : PendingPool) (overrideLimits : Bool) : ℤ :=
  if ¬overrideLimits ∧ btsBlockchainMaxPendingQueueSize < pool.pendingFeeIndex.size then
    let overage : ℤ := pool.pendingFeeIndex.size - btsBlockchainMaxPendingQueueSize
    wrap64 (pool.relayFee * overage * overage)
  else pool.relayFee

/-- `store_pending_transaction( trx, override_limits )`: a transaction that is stored already
gives no evaluation. -/
def storePendingTransaction (pool : PendingPool) (trx : SignedTransaction)
    (overrideLimits : Bool) : Fallible (Option EvaluationState × PendingPool) :=
  let id := crypto.transactionDigest trx.toTransaction c.db.chainId
  match pool.pendingTransactionDb[id]? with
  | some _ => return (none, pool)
  | none => do
    let (evalState, pendingTrxState) ← evaluateTransaction crypto c pool.pendingTrxState trx
      (pool.requiredRelayFee overrideLimits)
    let index : FeeIndex := ⟨evalState.getFees, crypto.transactionId trx⟩
    return (some evalState, { pool with
      pendingTransactionDb := pool.pendingTransactionDb.insert id trx
      pendingFeeIndex := pool.pendingFeeIndex.insert index evalState
      pendingTrxState })

/-- `clear_pending( blk )`, without the task it schedules, which is `revalidatePending`. -/
def clearPending (pool : PendingPool) (b : FullBlock) : PendingPool :=
  { pool with
    pendingTransactionDb := b.userTransactions.foldl (fun t trx =>
      t.erase (crypto.transactionDigest trx.toTransaction c.db.chainId)) pool.pendingTransactionDb
    pendingFeeIndex := ∅
    pendingTrxState := {} }

/-- One transaction of `revalidate_pending()`, with the list `trx_to_discard`. -/
def revalidateEntry (s : PendingPool × List Digest) (entry : Digest × SignedTransaction) :
    PendingPool × List Digest :=
  match evaluateTransaction crypto c s.1.pendingTrxState entry.2 s.1.relayFee with
  | .ok (evalState, pendingTrxState) =>
    let index : FeeIndex := ⟨evalState.getFees, crypto.transactionId entry.2⟩
    ({ s.1 with
      pendingFeeIndex := s.1.pendingFeeIndex.insert index evalState
      pendingTrxState }, s.2)
  | .error _ => (s.1, s.2 ++ [entry.1])

/-- `revalidate_pending()`: the transactions in the order of the database, by digest. -/
def revalidatePending (pool : PendingPool) : PendingPool :=
  let (pool, trxToDiscard) := pool.pendingTransactionDb.toList.foldl (revalidateEntry crypto c)
    ({ pool with pendingFeeIndex := ∅, pendingTrxState := {} }, [])
  { pool with
    pendingTransactionDb := trxToDiscard.foldl (fun t id => t.erase id) pool.pendingTransactionDb }

/-! ### What revalidation is for -/

/-- A transaction is accepted on a pending state when it can be evaluated there for the relay
fee; the pending state takes its changes. -/
def accept (relayFee : ℤ) (pendingTrxState : Overlay) (entry : Digest × SignedTransaction) :
    Option Overlay :=
  match evaluateTransaction crypto c pendingTrxState entry.2 relayFee with
  | .ok (_, pendingTrxState) => some pendingTrxState
  | .error _ => none

/-- The transactions that are still valid one after another, in the order they had been
accepted in. -/
def stillValid (relayFee : ℤ) (accepted : List (Digest × SignedTransaction)) :
    List (Digest × SignedTransaction) :=
  Sieve.passed (accept crypto c relayFee) {} accepted

/-- A transaction is in the pending database. -/
def Stored (pool : PendingPool) (entry : Digest × SignedTransaction) : Prop :=
  pool.pendingTransactionDb[entry.1]? = some entry.2

instance (pool : PendingPool) : DecidablePred pool.Stored :=
  fun _ => inferInstanceAs (Decidable (_ = _))

/-- No two pending transactions have the same `signed_transaction::id()`. -/
def IdsDistinct (pool : PendingPool) : Prop :=
  (pool.pendingTransactionDb.toList.map fun entry => crypto.transactionId entry.2).Nodup

instance (pool : PendingPool) : Decidable (pool.IdsDistinct crypto) :=
  inferInstanceAs (Decidable (List.Nodup _))

/-- The fee index holds the transactions of the pending database. -/
def SameTransactions (pool : PendingPool) : Prop :=
  ∀ trx, (∃ id, pool.Stored (id, trx)) ↔
    ∃ (i : FeeIndex) (s : EvaluationState), pool.pendingFeeIndex[i]? = some s ∧ s.trx = trx

/-- Revalidation does what it is for: what had been accepted remains if it is still valid after
what remains of those accepted before it, and only that; nothing is new; and the fee index agrees
with the database. -/
structure RevalidatesRight (pool : PendingPool) (accepted : List (Digest × SignedTransaction)) :
    Prop where
  remains : ∀ before entry after, accepted = before ++ entry :: after →
    ((pool.revalidatePending crypto c).Stored entry ↔
      Sieve.Passes (accept crypto c pool.relayFee) {}
        (before.filter (pool.revalidatePending crypto c).Stored) entry)
  known : ∀ entry, (pool.revalidatePending crypto c).Stored entry → pool.Stored entry
  indexed : (pool.revalidatePending crypto c).SameTransactions

/-- The order of the digests agrees with the order of acceptance: a transaction can be evaluated
after the valid ones with lower digests exactly when it is valid in the order of acceptance. -/
def DigestOrderAgrees (pool : PendingPool) (accepted : List (Digest × SignedTransaction)) : Prop :=
  ∀ lower entry higher, pool.pendingTransactionDb.toList = lower ++ entry :: higher →
    (entry ∈ stillValid crypto c pool.relayFee accepted ↔
      Sieve.Passes (accept crypto c pool.relayFee) {}
        (lower.filter (· ∈ stillValid crypto c pool.relayFee accepted)) entry)

variable {crypto c} {pool : PendingPool} {accepted l : List (Digest × SignedTransaction)}
  {entry : Digest × SignedTransaction} {discard : List Digest}

/-! ### The loop -/

theorem evaluateTransaction_trx {pending pending' : Overlay} {trx : SignedTransaction} {fee : ℤ}
    {s : EvaluationState}
    (h : evaluateTransaction crypto c pending trx fee = .ok (s, pending')) : s.trx = trx := by
  simp only [evaluateTransaction, bind_eq_ok, require_eq_ok, pure_eq_ok] at h
  obtain ⟨s', heval, -, -, _, -, heq⟩ := h
  cases heq
  exact (EvaluationState.evaluate_request heval).1

/-- What the loop of `revalidate_pending()` makes of a pool along the transactions `l`: the
refused ones are to be discarded, the others are in the fee index, and what was there stays under
the ids that do not occur. -/
structure Revalidated (crypto : Crypto) (c : ChainInterface) (pool : PendingPool)
    (discard : List Digest) (l : List (Digest × SignedTransaction)) (pool' : PendingPool)
    (discard' : List Digest) : Prop where
  db : pool'.pendingTransactionDb = pool.pendingTransactionDb
  discarded : discard' = discard ++
    (Sieve.refused (accept crypto c pool.relayFee) pool.pendingTrxState l).map Prod.fst
  indexed : ∀ (i : FeeIndex) s, pool'.pendingFeeIndex[i]? = some s →
    pool.pendingFeeIndex[i]? = some s ∨
      ∃ e ∈ Sieve.passed (accept crypto c pool.relayFee) pool.pendingTrxState l, e.2 = s.trx
  kept : ∀ (i : FeeIndex) s, pool.pendingFeeIndex[i]? = some s →
    (∀ e ∈ l, crypto.transactionId e.2 ≠ i.trx) → pool'.pendingFeeIndex[i]? = some s
  entered : (l.map fun e => crypto.transactionId e.2).Nodup →
    ∀ e ∈ Sieve.passed (accept crypto c pool.relayFee) pool.pendingTrxState l,
      ∃ (i : FeeIndex) (s : EvaluationState), pool'.pendingFeeIndex[i]? = some s ∧ s.trx = e.2

/-- A transaction that is refused. -/
theorem Revalidated.refuse {pool' : PendingPool} {discard' : List Digest}
    (h : accept crypto c pool.relayFee pool.pendingTrxState entry = none)
    (hl : Revalidated crypto c pool (discard ++ [entry.1]) l pool' discard') :
    Revalidated crypto c pool discard (entry :: l) pool' discard' where
  db := hl.db
  discarded := by
    rw [hl.discarded, Sieve.refused_cons_none h, List.append_assoc]
    rfl
  indexed i s hi := by
    rw [Sieve.passed_cons_none h]
    exact hl.indexed i s hi
  kept i s hi hne := hl.kept i s hi fun e he => hne e (List.mem_cons_of_mem _ he)
  entered hids := by
    rw [Sieve.passed_cons_none h]
    exact hl.entered (List.nodup_cons.1 hids).2

/-- A transaction that is accepted. -/
theorem Revalidated.accept {pool' : PendingPool} {discard' : List Digest} {s : EvaluationState}
    {pending : Overlay} (index : FeeIndex)
    (h : accept crypto c pool.relayFee pool.pendingTrxState entry = some pending)
    (htrx : s.trx = entry.2) (hindex : index.trx = crypto.transactionId entry.2)
    (hl : Revalidated crypto c { pool with
        pendingFeeIndex := pool.pendingFeeIndex.insert index s
        pendingTrxState := pending } discard l pool' discard') :
    Revalidated crypto c pool discard (entry :: l) pool' discard' where
  db := hl.db
  discarded := by
    rw [Sieve.refused_cons_some h]
    exact hl.discarded
  indexed i s' hi := by
    rw [Sieve.passed_cons_some h]
    obtain hold | ⟨e, he, heq⟩ := hl.indexed i s' hi
    · by_cases hne : i = index
      · rw [hne, Table.getElem?_insert_same] at hold
        cases hold
        exact Or.inr ⟨entry, List.mem_cons_self, htrx.symm⟩
      · rw [Table.getElem?_insert_of_ne _ _ hne] at hold
        exact Or.inl hold
    · exact Or.inr ⟨e, List.mem_cons_of_mem _ he, heq⟩
  kept i s' hi hne := by
    have hindexed : i ≠ index := by
      rintro rfl
      exact hne entry List.mem_cons_self hindex.symm
    refine hl.kept i s' ?_ fun e he => hne e (List.mem_cons_of_mem _ he)
    exact (Table.getElem?_insert_of_ne _ _ hindexed).trans hi
  entered hids := by
    obtain ⟨hid, hids⟩ := List.nodup_cons.1 hids
    rw [Sieve.passed_cons_some h]
    intro e he
    obtain rfl | he := List.mem_cons.1 he
    · -- No later transaction has its id, so its entry is not overwritten.
      refine ⟨index, s, hl.kept index s (Table.getElem?_insert_same ..) fun e' he' heq => ?_, htrx⟩
      exact hid (List.mem_map.2 ⟨e', he', heq.trans hindex⟩)
    · exact hl.entered hids e he

variable (crypto c) in
/-- **The loop of `revalidate_pending()`.** -/
theorem revalidated_foldl (pool : PendingPool) (discard : List Digest)
    (l : List (Digest × SignedTransaction)) :
    Revalidated crypto c pool discard l (l.foldl (revalidateEntry crypto c) (pool, discard)).1
      (l.foldl (revalidateEntry crypto c) (pool, discard)).2 := by
  induction l generalizing pool discard with
  | nil =>
    exact ⟨rfl, (List.append_nil discard).symm, fun i s h => Or.inl h, fun i s h _ => h,
      fun _ e he => absurd he List.not_mem_nil⟩
  | cons entry l ih =>
    rw [List.foldl_cons]
    cases h : evaluateTransaction crypto c pool.pendingTrxState entry.2 pool.relayFee with
    | error e =>
      have hstep : revalidateEntry crypto c (pool, discard) entry =
          (pool, discard ++ [entry.1]) := by
        rw [revalidateEntry, h]
      rw [hstep]
      exact .refuse (by rw [PendingPool.accept, h]) (ih pool _)
    | ok r =>
      obtain ⟨s, pending⟩ := r
      have hstep : revalidateEntry crypto c (pool, discard) entry = ({ pool with
          pendingFeeIndex := pool.pendingFeeIndex.insert
            ⟨s.getFees, crypto.transactionId entry.2⟩ s
          pendingTrxState := pending }, discard) := by
        rw [revalidateEntry, h]
      rw [hstep]
      exact .accept ⟨s.getFees, crypto.transactionId entry.2⟩ (by rw [PendingPool.accept, h])
        (evaluateTransaction_trx h) rfl (ih _ discard)

/-! ### What remains -/

/-- What remains is what passes in the order of the digests. -/
theorem stored_revalidatePending :
    (pool.revalidatePending crypto c).Stored entry ↔
      entry ∈ Sieve.passed (accept crypto c pool.relayFee) {} pool.pendingTransactionDb.toList := by
  have hloop := revalidated_foldl crypto c
    { pool with pendingFeeIndex := ∅, pendingTrxState := {} } [] pool.pendingTransactionDb.toList
  rw [Sieve.mem_passed_iff (Table.nodup_toList_keys _), Table.mem_toList]
  unfold Stored revalidatePending
  dsimp only
  rw [Table.getElem?_foldl_erase, hloop.discarded, hloop.db, List.nil_append]
  split
  next h => exact iff_of_false (fun heq => nomatch heq) fun hkept => hkept.2 h
  next h => exact (and_iff_left h).symm

/-- The fee index and the database agree after revalidation. -/
theorem sameTransactions_revalidatePending (hids : pool.IdsDistinct crypto) :
    (pool.revalidatePending crypto c).SameTransactions := by
  have hloop := revalidated_foldl crypto c
    { pool with pendingFeeIndex := ∅, pendingTrxState := {} } [] pool.pendingTransactionDb.toList
  intro trx
  simp only [stored_revalidatePending]
  constructor
  · rintro ⟨id, h⟩
    exact hloop.entered hids (id, trx) h
  · rintro ⟨i, s, hi, rfl⟩
    obtain hempty | ⟨e, he, heq⟩ := hloop.indexed i s hi
    · rw [Table.getElem?_empty'] at hempty
      cases hempty
    · exact ⟨e.1, heq ▸ he⟩

/-- **Revalidation is right exactly when the order of the digests agrees** with the order of
acceptance. -/
theorem revalidatesRight_iff (haccepted : accepted.Perm pool.pendingTransactionDb.toList)
    (hids : pool.IdsDistinct crypto) :
    RevalidatesRight crypto c pool accepted ↔ DigestOrderAgrees crypto c pool accepted := by
  have hnodup : accepted.Nodup := haccepted.nodup_iff.2 (.of_map _ (Table.nodup_toList_keys _))
  have horders : Sieve.Sifted (accept crypto c pool.relayFee) {} accepted
      (pool.revalidatePending crypto c).Stored ↔ DigestOrderAgrees crypto c pool accepted :=
    (Sieve.sifted_congr fun _ => stored_revalidatePending).trans
      (Sieve.sifted_comm hnodup haccepted)
  constructor
  · exact fun h => horders.1 h.remains
  · intro h
    refine ⟨horders.2 h, fun entry hentry => ?_, sameTransactions_revalidatePending hids⟩
    exact Table.mem_toList.1 (Sieve.mem_of_mem_passed (stored_revalidatePending.1 hentry))

/-! ### A payment that is spent before the next block -/

section Example

open Database (smallGenesis smallConfig Reachable reachable_smallGenesis)

/-- A payment of the small chain. -/
def payment : SignedTransaction where
  expiration := 200
  operations :=
    [.withdraw (Crypto.transparent.conditionAddress
        (.ofSignature (Crypto.transparent.ptsToAddress ⟨56, 5⟩) 0 2)) 1100000 .empty,
      .deposit 1000000 (.ofSignature (Crypto.transparent.keyAddress 49) 0 0)]
  signatures := [2]

/-- Its receiver spends it. -/
def spending : SignedTransaction where
  expiration := 190
  operations :=
    [.withdraw (Crypto.transparent.conditionAddress
        (.ofSignature (Crypto.transparent.keyAddress 49) 0 0)) 1000000 .empty,
      .deposit 900000 (.ofSignature (Crypto.transparent.keyAddress 48) 0 0)]
  signatures := [49]

/-- The two in the order they arrive in, under their digests. -/
def arrivals : List (Digest × SignedTransaction) :=
  [payment, spending].map fun trx =>
    (Crypto.transparent.transactionDigest trx.toTransaction smallGenesis.ledger.chainId, trx)

/-- They are stored at genesis. -/
def storeArrivals : Fallible PendingPool :=
  arrivals.foldlM (fun pool entry => do
    let (_, pool) ← storePendingTransaction .transparent (smallGenesis.chain 30) pool
      entry.2 false
    return pool) {}

/-- A first block without transactions. -/
def emptyBlock : FullBlock :=
  smallGenesis.blockOn 1 20 []

/-- The chain after it. -/
def emptyFirst : Database :=
  smallGenesis.pushed .transparent 30 emptyBlock

/-- The pool after it. -/
def clearedPool : PendingPool :=
  (storeArrivals.toOption.getD {}).clearPending .transparent (emptyFirst.chain 30) emptyBlock

set_option maxRecDepth 100000 in
theorem revalidatesRight_iff_arrivals :
    RevalidatesRight .transparent (emptyFirst.chain 30) clearedPool arrivals ↔
      DigestOrderAgrees .transparent (emptyFirst.chain 30) clearedPool arrivals :=
  revalidatesRight_iff (by decide +kernel) (by decide +kernel)

set_option maxRecDepth 100000 in
/-- **The spending transaction is dropped.** Its digest is the lower one, so it is met before the
payment it spends, although both are valid in the order they arrived in. -/
theorem revalidatePending_drops :
    Reachable .transparent smallConfig emptyFirst ∧ storeArrivals.isOk = true ∧
      arrivals.Perm clearedPool.pendingTransactionDb.toList ∧
      stillValid .transparent (emptyFirst.chain 30) clearedPool.relayFee arrivals = arrivals ∧
      ¬RevalidatesRight .transparent (emptyFirst.chain 30) clearedPool arrivals := by
  refine ⟨reachable_smallGenesis.pushed (by decide +kernel) (by decide +kernel),
    by decide +kernel, by decide +kernel, by decide +kernel, fun h => ?_⟩
  have hpasses := (h.remains [arrivals[0]] arrivals[1] [] rfl).2 (by decide +kernel)
  revert hpasses
  decide +kernel

end Example

end PendingPool

end LarkX
