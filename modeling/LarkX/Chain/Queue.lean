import LarkX.Chain.Pending

/-!
# The queue of pending transactions

A pool of pending transactions is changed by what the node does, in any order and with the chain at
any state: a new transaction is stored, a block clears the queue, a task revalidates it, a restart
loads it again. Through all of this the queue holds a transaction at most once, under its own id,
and only transactions of the pending database, which are under their own digests
(`PendingPool.Queued`, `PoolRun.queued`). `get_pending_transactions()` lists them by falling fees.

`generate_block` fills a block from that list (`generateBlock`). So its transactions are pairwise
different and are no more than a block may hold.
-/

namespace LarkX

namespace PendingPool

variable (crypto : Crypto)

/-! ### What happens to a pool -/

/-- The part of `open` that loads the pending transactions. Those that are found invalid stay in
the database. -/
def loadPending (c : ChainInterface) (pool : PendingPool) : PendingPool :=
  (pool.pendingTransactionDb.toList.foldl (revalidateEntry crypto c)
    ({ pool with pendingFeeIndex := ∅, pendingTrxState := {} }, [])).1

/-- What the node does to its pending transactions, with the chain at some state `c`. -/
inductive PoolStep (chainId : Digest) (pool : PendingPool) : PendingPool → Prop
  | stored {c : ChainInterface} {trx : SignedTransaction} {overrideLimits : Bool}
      {s : Option EvaluationState} {pool' : PendingPool} (hc : c.db.chainId = chainId)
      (h : storePendingTransaction crypto c pool trx overrideLimits = .ok (s, pool')) :
      PoolStep chainId pool pool'
  /-- A transaction is refused; what `apply_changes()` had written before it threw stays. -/
  | threw (pendingTrxState : Overlay) : PoolStep chainId pool { pool with pendingTrxState }
  | cleared {c : ChainInterface} (hc : c.db.chainId = chainId) (b : FullBlock) :
      PoolStep chainId pool (pool.clearPending crypto c b)
  | revalidated {c : ChainInterface} (hc : c.db.chainId = chainId) :
      PoolStep chainId pool (pool.revalidatePending crypto c)
  | loaded {c : ChainInterface} (hc : c.db.chainId = chainId) :
      PoolStep chainId pool (pool.loadPending crypto c)
  | relayFee (fee : ℤ) : PoolStep chainId pool { pool with relayFee := fee }

/-- The pools of a node, from an empty one on. -/
abbrev PoolRun (chainId : Digest) : PendingPool → Prop :=
  Relation.ReflTransGen (PoolStep crypto chainId) {}

/-! ### The invariant -/

/-- The pending database files transactions under their digests. -/
def Filed (chainId : Digest) (pool : PendingPool) : Prop :=
  ∀ (id : Digest) trx, pool.pendingTransactionDb[id]? = some trx →
    id = crypto.transactionDigest trx.toTransaction chainId

/-- The fee index holds no transaction twice, each under its own id and fees. -/
structure IndexedOnce (pool : PendingPool) : Prop where
  named : ∀ (i : FeeIndex) s, pool.pendingFeeIndex[i]? = some s →
    i = ⟨s.getFees, crypto.transactionId s.trx⟩
  once : ∀ (i i' : FeeIndex) s s', pool.pendingFeeIndex[i]? = some s →
    pool.pendingFeeIndex[i']? = some s' → s.trx = s'.trx → i = i'

/-- A pool whose queue agrees with its database. -/
structure Queued (chainId : Digest) (pool : PendingPool) : Prop
    extends IndexedOnce crypto pool where
  filed : pool.Filed crypto chainId
  stored : ∀ (i : FeeIndex) s, pool.pendingFeeIndex[i]? = some s →
    pool.Stored (crypto.transactionDigest s.trx.toTransaction chainId, s.trx)

variable {crypto} {chainId : Digest} {c : ChainInterface} {pool pool' : PendingPool}

/-- A new transaction enters the fee index. -/
theorem IndexedOnce.insert (h : pool.IndexedOnce crypto) {s : EvaluationState}
    (hnew : ∀ (i : FeeIndex) s', pool.pendingFeeIndex[i]? = some s' → s'.trx ≠ s.trx)
    (hindex : pool'.pendingFeeIndex =
      pool.pendingFeeIndex.insert ⟨s.getFees, crypto.transactionId s.trx⟩ s) :
    pool'.IndexedOnce crypto := by
  have hread : ∀ (i : FeeIndex) s', pool'.pendingFeeIndex[i]? = some s' →
      (i = ⟨s.getFees, crypto.transactionId s.trx⟩ ∧ s' = s) ∨
        pool.pendingFeeIndex[i]? = some s' := by
    intro i s' hi
    rw [hindex, Table.getElem?_insert] at hi
    split at hi
    · rename_i heq
      exact Or.inl ⟨heq, (Option.some.inj hi).symm⟩
    · exact Or.inr hi
  refine ⟨fun i s' hi => ?_, fun i i' s₁ s₂ hi hi' htrx => ?_⟩
  · obtain ⟨rfl, rfl⟩ | hi := hread i s' hi
    · rfl
    · exact h.named i s' hi
  · obtain ⟨rfl, rfl⟩ | hi := hread i s₁ hi
    · obtain ⟨rfl, -⟩ | hi' := hread i' s₂ hi'
      · rfl
      · exact absurd htrx.symm (hnew i' s₂ hi')
    · obtain ⟨rfl, rfl⟩ | hi' := hread i' s₂ hi'
      · exact absurd htrx (hnew i s₁ hi)
      · exact h.once i i' s₁ s₂ hi hi' htrx

/-- The loop over the pending database. Its entries are under different digests, so no transaction
comes twice. -/
theorem IndexedOnce.foldl (h : pool.IndexedOnce crypto) {discard : List Digest}
    {l : List (Digest × SignedTransaction)} (hnodup : (l.map Prod.snd).Nodup)
    (hnew : ∀ (i : FeeIndex) s, pool.pendingFeeIndex[i]? = some s → s.trx ∉ l.map Prod.snd) :
    (l.foldl (revalidateEntry crypto c) (pool, discard)).1.IndexedOnce crypto := by
  induction l generalizing pool discard with
  | nil => exact h
  | cons entry l ih =>
    obtain ⟨hentry, hnodup⟩ := List.nodup_cons.1 hnodup
    have hlater : ∀ (i : FeeIndex) s, pool.pendingFeeIndex[i]? = some s →
        s.trx ∉ l.map Prod.snd :=
      fun i s hi hmem => hnew i s hi (List.mem_cons_of_mem _ hmem)
    rw [List.foldl_cons, revalidateEntry]
    cases heval : evaluateTransaction crypto c pool.pendingTrxState entry.2 pool.relayFee with
    | error e => exact ih h hnodup hlater
    | ok r =>
      obtain ⟨s, pending⟩ := r
      have htrx := evaluateTransaction_trx heval
      refine ih (h.insert (s := s) (fun i s' hi heq => ?_) (htrx ▸ rfl)) hnodup
        fun i s' hi hmem => ?_
      · exact hnew i s' hi (heq.trans htrx ▸ List.mem_cons_self)
      · change (pool.pendingFeeIndex.insert _ s)[i]? = some s' at hi
        rw [Table.getElem?_insert] at hi
        split at hi
        · cases hi
          exact hentry (htrx ▸ hmem)
        · exact hlater i s' hi hmem

/-- The transactions of a database that files them by digest are pairwise different. -/
theorem Filed.nodup (h : pool.Filed crypto chainId) :
    (pool.pendingTransactionDb.toList.map Prod.snd).Nodup := by
  have hkeys : pool.pendingTransactionDb.toList.map Prod.fst =
      (pool.pendingTransactionDb.toList.map Prod.snd).map
        fun trx => crypto.transactionDigest trx.toTransaction chainId := by
    rw [List.map_map]
    exact List.map_congr_left fun e he => h e.1 e.2 (Table.mem_toList.1 he)
  exact .of_map _ (hkeys ▸ Table.nodup_toList_keys _)

/-- What the loop leaves is from the pending database. -/
theorem Filed.indexed (h : pool.Filed crypto chainId) {i : FeeIndex} {s : EvaluationState}
    (hi : (pool.loadPending crypto c).pendingFeeIndex[i]? = some s) :
    (crypto.transactionDigest s.trx.toTransaction chainId, s.trx) ∈
      Sieve.passed (accept crypto c pool.relayFee) {} pool.pendingTransactionDb.toList := by
  have hloop := revalidated_foldl crypto c
    { pool with pendingFeeIndex := ∅, pendingTrxState := {} } [] pool.pendingTransactionDb.toList
  obtain hempty | ⟨e, he, heq⟩ := hloop.indexed i s hi
  · rw [Table.getElem?_empty'] at hempty
    cases hempty
  · have hfiled := h e.1 e.2 (Table.mem_toList.1 (Sieve.mem_of_mem_passed he))
    rw [← heq, ← hfiled]
    exact he

theorem Queued.load (h : pool.Queued crypto chainId) (c : ChainInterface) :
    (pool.loadPending crypto c).Queued crypto chainId := by
  have hloop := revalidated_foldl crypto c
    { pool with pendingFeeIndex := ∅, pendingTrxState := {} } [] pool.pendingTransactionDb.toList
  have hempty : ∀ (i : FeeIndex) s, (∅ : Table FeeIndex EvaluationState)[i]? ≠ some s := by
    intro i s hi
    rw [Table.getElem?_empty'] at hi
    cases hi
  have hdb : (pool.loadPending crypto c).pendingTransactionDb = pool.pendingTransactionDb :=
    hloop.db
  refine ⟨IndexedOnce.foldl ⟨fun i s hi => absurd hi (hempty i s),
    fun i _ s _ hi => absurd hi (hempty i s)⟩ h.filed.nodup fun i s hi => absurd hi (hempty i s),
    ?_, fun i s hi => ?_⟩
  · rw [Filed, hdb]
    exact h.filed
  · rw [Stored, hdb]
    exact Table.mem_toList.1 (Sieve.mem_of_mem_passed (h.filed.indexed hi))

theorem Queued.revalidate (h : pool.Queued crypto chainId) (c : ChainInterface) :
    (pool.revalidatePending crypto c).Queued crypto chainId := by
  have hload := h.load c
  refine ⟨⟨hload.named, hload.once⟩, fun id trx hstored => ?_, fun i s hi => ?_⟩
  · have hpassed := stored_revalidatePending.1 (show (pool.revalidatePending crypto c).Stored
      (id, trx) from hstored)
    exact h.filed id trx (Table.mem_toList.1 (Sieve.mem_of_mem_passed hpassed))
  · exact stored_revalidatePending.2 (h.filed.indexed hi)

/-- A block takes its transactions out of the database, and the queue is empty. -/
theorem Queued.clear (h : pool.Queued crypto chainId) (c : ChainInterface) (b : FullBlock) :
    (pool.clearPending crypto c b).Queued crypto chainId := by
  have hempty : ∀ (i : FeeIndex) s,
      (pool.clearPending crypto c b).pendingFeeIndex[i]? ≠ some s := by
    intro i s hi
    change (∅ : Table FeeIndex EvaluationState)[i]? = some s at hi
    rw [Table.getElem?_empty'] at hi
    cases hi
  refine ⟨⟨fun i s hi => absurd hi (hempty i s), fun i _ s _ hi => absurd hi (hempty i s)⟩,
    fun id trx hstored => ?_, fun i s hi => absurd hi (hempty i s)⟩
  have herased : (pool.clearPending crypto c b).pendingTransactionDb =
      (b.userTransactions.map fun trx =>
        crypto.transactionDigest trx.toTransaction c.db.chainId).foldl
          (fun t id => t.erase id) pool.pendingTransactionDb := by
    rw [List.foldl_map]
    rfl
  rw [herased, Table.getElem?_foldl_erase] at hstored
  split at hstored
  · cases hstored
  · exact h.filed id trx hstored

/-- A new transaction is one that the database does not know. -/
theorem Queued.store (h : pool.Queued crypto chainId) (hc : c.db.chainId = chainId)
    {trx : SignedTransaction} {overrideLimits : Bool} {s : Option EvaluationState}
    (hrun : storePendingTransaction crypto c pool trx overrideLimits = .ok (s, pool')) :
    pool'.Queued crypto chainId := by
  subst hc
  unfold storePendingTransaction at hrun
  dsimp only at hrun
  split at hrun
  · rw [pure_eq_ok] at hrun
    cases hrun
    exact h
  · rename_i hunknown
    rw [bind_eq_ok] at hrun
    obtain ⟨⟨s', pending⟩, heval, hrun⟩ := hrun
    rw [pure_eq_ok] at hrun
    cases hrun
    have htrx := evaluateTransaction_trx heval
    have hnew : ∀ (i : FeeIndex) s'', pool.pendingFeeIndex[i]? = some s'' → s''.trx ≠ s'.trx := by
      intro i s'' hi heq
      have hstored : pool.pendingTransactionDb[crypto.transactionDigest s''.trx.toTransaction
        c.db.chainId]? = some s''.trx := h.stored i s'' hi
      rw [heq, htrx, hunknown] at hstored
      cases hstored
    refine ⟨h.toIndexedOnce.insert hnew (by rw [htrx]), fun id trx' hstored => ?_,
      fun i s'' hi => ?_⟩
    · rw [Table.getElem?_insert] at hstored
      split at hstored
      · rename_i heq
        cases hstored
        exact heq
      · exact h.filed id trx' hstored
    · change (pool.pendingTransactionDb.insert _ trx)[_]? = _
      rw [Table.getElem?_insert] at hi ⊢
      split at hi
      · cases hi
        rw [htrx, if_pos rfl]
      · have hold := h.stored i s'' hi
        rw [if_neg fun heq => ?_]
        · exact hold
        · rw [Stored, heq, hunknown] at hold
          cases hold

/-- **The queue is in order in every run of the node.** -/
theorem PoolRun.queued (h : PoolRun crypto chainId pool) : pool.Queued crypto chainId := by
  induction h with
  | refl =>
    have hempty : ∀ {κ α : Type} [Ord κ] [Std.TransOrd κ] [Std.LawfulEqOrd κ] (k : κ) (v : α),
        (∅ : Table κ α)[k]? ≠ some v := by
      intro κ α _ _ _ k v hk
      rw [Table.getElem?_empty'] at hk
      cases hk
    exact ⟨⟨fun i s hi => absurd hi (hempty i s), fun i _ s _ hi => absurd hi (hempty i s)⟩,
      fun id trx hid => absurd hid (hempty id trx), fun i s hi => absurd hi (hempty i s)⟩
  | tail _ hstep ih =>
    cases hstep with
    | stored hc hrun => exact ih.store hc hrun
    | threw pending => exact ⟨⟨ih.named, ih.once⟩, ih.filed, ih.stored⟩
    | @cleared c _ b => exact ih.clear c b
    | @revalidated c => exact ih.revalidate c
    | @loaded c => exact ih.load c
    | relayFee fee => exact ⟨⟨ih.named, ih.once⟩, ih.filed, ih.stored⟩

/-! ### Reading the queue -/

/-- The order of the queue is that of falling fees. -/
theorem fees_le_of_lt {i i' : FeeIndex} (h : compare i i' = .lt) :
    i'.fees ≤ i.fees := by
  change ((compare (-i.fees) (-i'.fees)).then (compare i.trx i'.trx)) = .lt at h
  rw [Ordering.then_eq_lt] at h
  rcases h with h | ⟨h, -⟩
  · have hlt := compare_lt_iff_lt.1 h
    omega
  · have heq := compare_eq_iff_eq.1 h
    omega

/-- `get_pending_transactions()`. -/
def getPendingTransactions (pool : PendingPool) : List EvaluationState :=
  pool.pendingFeeIndex.toList.map Prod.snd

/-- The pending transactions are pairwise different. -/
theorem IndexedOnce.pending_nodup (h : pool.IndexedOnce crypto) :
    (pool.getPendingTransactions.map EvaluationState.trx).Nodup := by
  rw [getPendingTransactions, List.map_map]
  refine (Table.nodup_toList_keys pool.pendingFeeIndex).of_map _ |>.map_on fun e he e' he' heq => ?_
  have hread := Table.mem_toList.1 he
  have hread' := Table.mem_toList.1 he'
  have hindex := h.once e.1 e'.1 e.2 e'.2 hread hread' heq
  rw [hindex, hread'] at hread
  exact Prod.ext hindex (Option.some.inj hread).symm

/-- **What waits for a block.** In every run of the node, the pending transactions are pairwise
different, fall in their fees, and are in the pending database under their digests. -/
theorem PoolRun.queue_sorted (h : PoolRun crypto chainId pool) :
    (pool.getPendingTransactions.map EvaluationState.trx).Nodup ∧
      pool.getPendingTransactions.Pairwise (fun s s' => s'.getFees ≤ s.getFees) ∧
      ∀ s ∈ pool.getPendingTransactions,
        pool.Stored (crypto.transactionDigest s.trx.toTransaction chainId, s.trx) := by
  have hqueued := h.queued
  have hread : ∀ e ∈ pool.pendingFeeIndex.toList, pool.pendingFeeIndex[e.1]? = some e.2 :=
    fun _ he => Table.mem_toList.1 he
  refine ⟨hqueued.pending_nodup, ?_, fun s hs => ?_⟩
  · rw [getPendingTransactions, List.pairwise_map]
    refine Std.ExtTreeMap.ordered_keys_toList.imp_of_mem fun {e e'} he he' hlt => ?_
    have hfees : e'.1.fees ≤ e.1.fees := fees_le_of_lt hlt
    rwa [hqueued.named e.1 e.2 (hread e he), hqueued.named e'.1 e'.2 (hread e' he')] at hfees
  · obtain ⟨e, he, rfl⟩ := List.mem_map.1 hs
    exact hqueued.stored e.1 e.2 (hread e he)

set_option maxRecDepth 100000 in
/-- Both transactions of `arrivals` wait for a block. -/
theorem queue_sorted_arrivals : ∃ pool, storeArrivals = .ok pool ∧
    pool.getPendingTransactions.length = 2 ∧
    (pool.getPendingTransactions.map EvaluationState.trx).Nodup ∧
    pool.getPendingTransactions.Pairwise fun s s' => s'.getFees ≤ s.getFees := by
  have hlength : storeArrivals.toOption.map (fun pool => pool.getPendingTransactions.length) =
      some 2 := by decide +kernel
  cases hstored : storeArrivals with
  | error e =>
    rw [hstored] at hlength
    cases hlength
  | ok pool =>
    rw [hstored] at hlength
    have hcount : pool.getPendingTransactions.length = 2 := Option.some.inj hlength
    simp only [storeArrivals, arrivals, List.map_cons, List.map_nil, List.foldlM_cons,
      List.foldlM_nil, bind_eq_ok, pure_eq_ok] at hstored
    obtain ⟨_, ⟨⟨s₁, pool₁⟩, hfirst, rfl⟩, _, ⟨⟨s₂, pool₂⟩, hsecond, rfl⟩, rfl⟩ := hstored
    have hrun : PoolRun .transparent Database.smallGenesis.ledger.chainId pool₂ :=
      (Relation.ReflTransGen.refl.tail (.stored rfl hfirst)).tail (.stored rfl hsecond)
    obtain ⟨hnodup, hfees, -⟩ := PoolRun.queue_sorted hrun
    exact ⟨pool₂, rfl, hcount, hnodup, hfees⟩

end PendingPool

/-! ### Generating a block -/

/-- `BTS_BLOCKCHAIN_AVERAGE_TRX_SIZE`. -/
def btsBlockchainAverageTrxSize : ℕ := 512
/-- `BTS_BLOCKCHAIN_MAX_BLOCK_SIZE`. -/
def btsBlockchainMaxBlockSize : ℕ :=
  10 * btsBlockchainAverageTrxSize * btsBlockchainMaxPendingQueueSize

/-- What the loop of `generate_block` keeps: `pending_state`, `block_size` and
`user_transactions`. -/
structure BlockDraft where
  pendingState : ChainInterface
  blockSize : ℕ := 0
  userTransactions : List SignedTransaction := []

namespace BlockDraft

variable (crypto : Crypto)

/-- The `try` of the loop: the transaction is evaluated over the pending state, and its changes are
applied to it. One that is found invalid is left out; what `apply_changes()` had written before it
threw stays. -/
def tryTransaction (d : BlockDraft) (trx : SignedTransaction) : BlockDraft :=
  match EvaluationState.evaluate crypto d.pendingState.push d.pendingState.db.chainId trx false
      true with
  | .error _ => d
  | .ok s =>
    match s.currentState.applyChanges crypto with
    | .ok c => { d with pendingState := c, userTransactions := d.userTransactions ++ [trx] }
    | .error _ => { d with
        pendingState := ChainInterface.applyOverlayThrown crypto s.currentState.top d.pendingState }

/-- The loop of `generate_block`. `dataSize` is the packed size of a transaction, and `outOfTime n`
says that the five seconds are over after the `n`-th one. -/
def fill (dataSize : SignedTransaction → ℕ) (outOfTime : ℕ → Bool) :
    ℕ → BlockDraft → List SignedTransaction → BlockDraft
  | _, d, [] => d
  | n, d, trx :: rest =>
    if btsBlockchainMaxBlockSize < d.blockSize + dataSize trx then d
    else
      let d := { d with blockSize := d.blockSize + dataSize trx }.tryTransaction crypto trx
      if outOfTime n then d else fill dataSize outOfTime (n + 1) d rest

/-- A transaction may be left out, and nothing else comes into the block. -/
theorem tryTransaction_trxs (d : BlockDraft) (trx : SignedTransaction) :
    (d.tryTransaction crypto trx).blockSize = d.blockSize ∧
      ((d.tryTransaction crypto trx).userTransactions = d.userTransactions ∨
        (d.tryTransaction crypto trx).userTransactions = d.userTransactions ++ [trx]) := by
  unfold tryTransaction
  split
  · exact ⟨rfl, Or.inl rfl⟩
  · split
    · exact ⟨rfl, Or.inr rfl⟩
    · exact ⟨rfl, Or.inl rfl⟩

/-- **The loop of `generate_block`** adds transactions of the list, in its order, and keeps to the
size of a block. -/
theorem fill_trxs (dataSize : SignedTransaction → ℕ) (outOfTime : ℕ → Bool) (n : ℕ) (d : BlockDraft)
    (l : List SignedTransaction)
    (hsize : (d.userTransactions.map dataSize).sum ≤ d.blockSize)
    (hmax : d.blockSize ≤ btsBlockchainMaxBlockSize) :
    ∃ added, added.Sublist l ∧
      (d.fill crypto dataSize outOfTime n l).userTransactions = d.userTransactions ++ added ∧
      ((d.fill crypto dataSize outOfTime n l).userTransactions.map dataSize).sum ≤
        btsBlockchainMaxBlockSize := by
  induction l generalizing n d with
  | nil =>
    refine ⟨[], List.Sublist.refl [], ?_, hsize.trans hmax⟩
    rw [List.append_nil]
    rfl
  | cons trx l ih =>
    rw [fill]
    split
    · refine ⟨[], List.nil_sublist _, ?_, hsize.trans hmax⟩
      rw [List.append_nil]
    · rename_i hfits
      obtain ⟨hblock, htrxs⟩ := tryTransaction_trxs crypto
        { d with blockSize := d.blockSize + dataSize trx } trx
      have hnew : ∃ new, new.Sublist [trx] ∧ ({ d with
          blockSize := d.blockSize + dataSize trx }.tryTransaction crypto trx).userTransactions =
            d.userTransactions ++ new := by
        rcases htrxs with htrxs | htrxs
        · exact ⟨[], List.nil_sublist _, htrxs.trans (List.append_nil _).symm⟩
        · exact ⟨[trx], List.Sublist.refl _, htrxs⟩
      obtain ⟨new, hsub, hnew⟩ := hnew
      have hle : (new.map dataSize).sum ≤ dataSize trx := by
        have hsum := (hsub.map dataSize).sum_le_sum fun _ _ => Nat.zero_le _
        rwa [List.map_singleton, List.sum_singleton] at hsum
      have hsize' : ((d.userTransactions ++ new).map dataSize).sum ≤
          d.blockSize + dataSize trx := by
        rw [List.map_append, List.sum_append]
        exact Nat.add_le_add hsize hle
      dsimp only
      split
      · exact ⟨new, hsub.trans (List.singleton_sublist.2 List.mem_cons_self), hnew,
          hnew ▸ hsize'.trans (not_lt.1 hfits)⟩
      · obtain ⟨added, hadded, hafter, hbound⟩ := ih (n + 1) _
          (by rw [hnew, hblock]; exact hsize') (by rw [hblock]; exact not_lt.1 hfits)
        refine ⟨new ++ added, hsub.append hadded, ?_, hbound⟩
        rw [hafter, hnew, List.append_assoc]

end BlockDraft

namespace PendingPool

variable {crypto : Crypto} {chainId : Digest} {pool : PendingPool}

/-- `generate_block( timestamp )`. -/
def generateBlock (crypto : Crypto) (dataSize : SignedTransaction → ℕ) (outOfTime : ℕ → Bool)
    (pool : PendingPool) (db : Database) (wall timestamp : ℕ) : Fallible FullBlock := do
  let pendingState ← executeMarkets crypto (db.chain wall).push
  let draft := BlockDraft.fill crypto dataSize outOfTime 0 { pendingState }
    (pool.getPendingTransactions.map EvaluationState.trx)
  let headBlock := db.headBlockHeader
  return {
    previous := if headBlock.blockNum ≠ 0 then crypto.blockId headBlock else 0
    blockNum := (headBlock.blockNum + 1) % 2 ^ 32
    timestamp
    transactionDigest :=
      crypto.transactionsDigest (draft.userTransactions.map crypto.transactionId)
    userTransactions := draft.userTransactions }

/-- A generated block is on the head, with transactions that wait for a block. -/
structure Generated (crypto : Crypto) (dataSize : SignedTransaction → ℕ) (pool : PendingPool)
    (db : Database) (timestamp : ℕ) (b : FullBlock) : Prop where
  previous : b.previous =
    if db.headBlockHeader.blockNum ≠ 0 then crypto.blockId db.headBlockHeader else 0
  blockNum : b.blockNum = (db.headBlockHeader.blockNum + 1) % 2 ^ 32
  timestamp : b.timestamp = timestamp
  digest : crypto.transactionsDigest (crypto.userTransactionIds b) = b.transactionDigest
  trxs : b.userTransactions.Sublist (pool.getPendingTransactions.map EvaluationState.trx)
  size : (b.userTransactions.map dataSize).sum ≤ btsBlockchainMaxBlockSize

theorem generateBlock_generated {dataSize : SignedTransaction → ℕ} {outOfTime : ℕ → Bool}
    {db : Database} {wall timestamp : ℕ} {b : FullBlock}
    (h : generateBlock crypto dataSize outOfTime pool db wall timestamp = .ok b) :
    Generated crypto dataSize pool db timestamp b := by
  rw [generateBlock, bind_eq_ok] at h
  obtain ⟨pendingState, -, h⟩ := h
  rw [pure_eq_ok] at h
  subst h
  obtain ⟨added, hsub, htrxs, hsize⟩ := BlockDraft.fill_trxs crypto dataSize outOfTime 0
    { pendingState } (pool.getPendingTransactions.map EvaluationState.trx) (Nat.le_refl 0)
    (Nat.zero_le _)
  refine ⟨rfl, rfl, rfl, rfl, ?_, hsize⟩
  change (BlockDraft.fill crypto dataSize outOfTime 0 { pendingState }
    (pool.getPendingTransactions.map EvaluationState.trx)).userTransactions.Sublist _
  rw [htrxs]
  exact hsub

/-- Without a collision among the pending transactions, the ids in a generated block are pairwise
different. -/
theorem PoolRun.generated_nodup (h : PoolRun crypto chainId pool) (hids : pool.IdsDistinct crypto)
    {dataSize : SignedTransaction → ℕ} {db : Database} {timestamp : ℕ} {b : FullBlock}
    (hb : Generated crypto dataSize pool db timestamp b) : (crypto.userTransactionIds b).Nodup := by
  have hqueued := h.queued
  have hfiled : ∀ trx ∈ b.userTransactions,
      (crypto.transactionDigest trx.toTransaction chainId, trx) ∈
        pool.pendingTransactionDb.toList := by
    intro trx htrx
    obtain ⟨s, hs, rfl⟩ := List.mem_map.1 (hb.trxs.subset htrx)
    obtain ⟨e, he, rfl⟩ := List.mem_map.1 hs
    exact Table.mem_toList.2 (hqueued.stored e.1 e.2 (Table.mem_toList.1 he))
  refine (hb.trxs.nodup hqueued.pending_nodup).map_on fun trx htrx trx' htrx' heq => ?_
  have hentry := List.inj_on_of_nodup_map hids (hfiled trx htrx) (hfiled trx' htrx') heq
  exact congrArg Prod.snd hentry

end PendingPool

end LarkX
