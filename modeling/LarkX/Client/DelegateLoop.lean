import LarkX.Chain.Atomic
import LarkX.Wallet.SignBlock

/-!
# The delegate loop

Once in every slot a client looks for the next slot of its enabled delegates. When that slot has
come it generates a block on its head, has the wallet sign it, pushes it and broadcasts it.

The block has the time of the current slot, is signed by the delegate of that slot, and its header
verifies on the chain it was generated on exactly when the id of the head is that of the header of
the head (`Visited.delegateLoop_produces`). After the first block was popped the two disagree
(`Headed`); in a run that never does that they agree (`RunOf.headed`).
-/

namespace LarkX

open ChainInterface

/-- `BTS_MIN_DELEGATE_CONNECTION_COUNT`. -/
def btsMinDelegateConnectionCount : ℕ := 1

/-- What `client_impl` has, beside its chain database, when the delegate loop runs. -/
structure DelegateClient where
  wallet : Wallet := {}
  pool : PendingPool := {}
  /-- `data_size()` of a transaction. -/
  dataSize : SignedTransaction → ℕ
  networkConnectionCount : ℕ := 0
  minDelegateConnectionCount : ℕ := btsMinDelegateConnectionCount
  simulateDisconnect : Bool := false

/-- What a turn of the delegate loop has done: the block it produced, and whether the block was
broadcast. -/
structure DelegateTurn where
  produced : Option FullBlock := none
  broadcast : Bool := false

namespace DelegateClient

variable {crypto : Crypto} (client : DelegateClient) (signer : BlockSigner crypto)

/-- The delegates for which blocks are produced, if the wallet is open and unlocked. -/
def enabledDelegates (db : Database) (wall : ℕ) :
    Except ProducerError (List WalletAccountRecord) := do
  if client.wallet.isOpen = false ∨ (← walletCall client.wallet.isLocked) = true then return []
  else client.wallet.getMyDelegates db wall enabledDelegateStatus

/-- The start of the `try` in `delegate_loop`: the block of the slot at `nextBlockTime`. -/
def newBlock (outOfTime : ℕ → Bool) (db : Database) (now wall nextBlockTime : ℕ) :
    Except ProducerError FullBlock := do
  chainCall (require (client.minDelegateConnectionCount ≤ client.networkConnectionCount)
    (.assertion "Client must have ${count} connections before you may produce blocks!"))
  let unlocked ← walletCall client.wallet.isUnlocked
  walletCall (require (unlocked = true)
    (.assertion "Wallet must be unlocked to produce blocks!"))
  chainCall (require (now - nextBlockTime < btsBlockchainBlockIntervalSec)
    (.assertion "You missed your slot at time: ${t}!"))
  let nextBlock ← chainCall
    (client.pool.generateBlock crypto client.dataSize outOfTime db wall nextBlockTime)
  let header ← signer.signBlock client.wallet db wall nextBlock.toSignedBlockHeader
  return { nextBlock with toSignedBlockHeader := header }

/-- `delegate_loop`, up to where it schedules itself again. The clock is first read as `now`, and as
`wall` from then on. -/
def delegateLoop (outOfTime : ℕ → Bool) (now wall : ℕ) :
    EStateM ProducerError Database DelegateTurn := do
  let enabled ← ofExcept (client.enabledDelegates (← get) wall)
  if enabled.isEmpty then return {}
  else
    match ← ofExcept (client.wallet.getNextProducibleBlockTimestamp (← get) wall enabled) with
    | none => return {}
    | some nextBlockTime =>
      -- delegates don't get to skip this check
      modify Database.verifySignatures
      if nextBlockTime ≤ now then
        match client.newBlock signer outOfTime (← get) now wall nextBlockTime with
        | .error _ => return {}
        | .ok b =>
          tryCatch (do
            let _ ← EStateM.adaptExcept .chain (Action.onNewBlock crypto wall
              client.simulateDisconnect b (crypto.blockId b.toSignedBlockHeader) false)
            return { produced := some b, broadcast := true })
            fun _ => return { produced := some b }
      else return {}

end DelegateClient

namespace Database

/-- The id of the head is the one `generate_block` computes. -/
def Headed (crypto : Crypto) (db : Database) : Prop :=
  db.headBlockId =
    if db.headBlockHeader.blockNum ≠ 0 then crypto.blockId db.headBlockHeader else 0

instance (crypto : Crypto) (db : Database) : Decidable (db.Headed crypto) :=
  inferInstanceAs (Decidable (_ = _))

end Database

/-- An error that is wrapped on its way. -/
theorem Outcome.adaptExcept_iff {ε ε' σ α : Type} {f : ε → ε'} {x : EStateM ε σ α} {s : σ}
    {Q : α → σ → Prop} {E : ε' → σ → Prop} :
    Outcome (EStateM.adaptExcept f x) s Q E ↔ Outcome x s Q fun e s' => E (f e) s' := by
  simp only [Outcome, EStateM.run, EStateM.adaptExcept]
  cases x s with
  | ok a s' => exact Iff.rfl
  | error e s' => exact Iff.rfl

namespace DelegateClient

variable {crypto : Crypto} {client : DelegateClient} {signer : BlockSigner crypto}
  {outOfTime : ℕ → Bool} {db db' : Database} {now wall nextBlockTime : ℕ} {b : FullBlock}

/-- What a new block is made of. -/
theorem newBlock_eq_ok (h : client.newBlock signer outOfTime db now wall nextBlockTime = .ok b) :
    now - nextBlockTime < btsBlockchainBlockIntervalSec ∧
      ∃ draft r info key,
        PendingPool.Generated crypto client.dataSize client.pool db nextBlockTime draft ∧
        signer.Signs client.wallet db wall draft.toSignedBlockHeader b.toSignedBlockHeader r info
          key ∧ b.userTransactions = draft.userTransactions := by
  simp only [newBlock, bind_eq_ok, walletCall_eq_ok, chainCall_eq_ok, require_eq_ok,
    pure_eq_ok] at h
  obtain ⟨-, -, unlocked, -, -, -, -, hslot, draft, hdraft, header, hsigned, rfl⟩ := h
  obtain ⟨r, info, key, hsigns⟩ := BlockSigner.signBlock_signs hsigned
  exact ⟨hslot, draft, r, info, key, PendingPool.generateBlock_generated hdraft, hsigns, rfl⟩

theorem nextProducible_eq_ok {w : Wallet} {enabled : List WalletAccountRecord}
    (h : w.getNextProducibleBlockTimestamp db wall enabled = .ok (some nextBlockTime)) :
    db.getNextProducibleBlockTimestamp wall (enabled.map fun r => r.id) =
      .ok (some nextBlockTime) := by
  rw [Wallet.getNextProducibleBlockTimestamp, bind_eq_ok] at h
  obtain ⟨locked, -, h⟩ := h
  rw [ite_eq_ok] at h
  rcases h with ⟨-, h⟩ | ⟨-, h⟩
  · cases h
  · exact chainCall_eq_ok.1 h

/-- What a turn did that produced the block `b`, and `db'` is what it left behind. -/
structure Turns (client : DelegateClient) (signer : BlockSigner crypto) (outOfTime : ℕ → Bool)
    (now wall : ℕ) (db : Database) (b : FullBlock) (turn : DelegateTurn) (db' : Database) :
    Prop where
  slot : ∃ enabled nextBlockTime, client.enabledDelegates db wall = .ok enabled ∧
    db.getNextProducibleBlockTimestamp wall (enabled.map fun r => r.id) =
      .ok (some nextBlockTime) ∧ nextBlockTime ≤ now ∧
    client.newBlock signer outOfTime db.verifySignatures now wall nextBlockTime = .ok b
  /-- The block is broadcast when it has been pushed. -/
  pushed : (turn.broadcast = true ∧ ∃ fork, (Action.onNewBlock crypto wall client.simulateDisconnect
      b (crypto.blockId b.toSignedBlockHeader) false).run db.verifySignatures = .ok fork db') ∨
    turn.broadcast = false ∧ ∃ e, (Action.onNewBlock crypto wall client.simulateDisconnect
      b (crypto.blockId b.toSignedBlockHeader) false).run db.verifySignatures = .error e db'

/-- A turn that produced a block. -/
theorem delegateLoop_turns {turn : DelegateTurn}
    (h : (client.delegateLoop signer outOfTime now wall).run db = .ok turn db')
    (hb : turn.produced = some b) :
    client.Turns signer outOfTime now wall db b turn db' := by
  have hturn : Outcome (client.delegateLoop signer outOfTime now wall) db
      (fun turn db' => ∀ b, turn.produced = some b →
        client.Turns signer outOfTime now wall db b turn db') fun _ _ => True := by
    rw [delegateLoop, Outcome.bind_iff, Outcome.get_iff, Outcome.bind_iff, Outcome.ofExcept_iff]
    refine ⟨fun enabled henabled => ?_, fun _ _ => trivial⟩
    split
    · intro b hb
      cases hb
    · rw [Outcome.bind_iff, Outcome.get_iff, Outcome.bind_iff, Outcome.ofExcept_iff]
      refine ⟨fun next hnext => ?_, fun _ _ => trivial⟩
      split
      · intro b hb
        cases hb
      · rename_i nextBlockTime
        rw [Outcome.bind_iff, Outcome.modify_iff]
        split
        · rename_i hle
          rw [Outcome.bind_iff, Outcome.get_iff]
          split
          · intro b hb
            cases hb
          · rename_i b hnew
            have hslot : ∃ enabled nextBlockTime, client.enabledDelegates db wall = .ok enabled ∧
                db.getNextProducibleBlockTimestamp wall (enabled.map fun r => r.id) =
                  .ok (some nextBlockTime) ∧ nextBlockTime ≤ now ∧
                client.newBlock signer outOfTime db.verifySignatures now wall nextBlockTime =
                  .ok b :=
              ⟨enabled, nextBlockTime, henabled, nextProducible_eq_ok hnext, hle, hnew⟩
            rw [Outcome.tryCatch_iff, Outcome.bind_iff, Outcome.adaptExcept_iff]
            refine .intro (fun fork db' hrun b' hb => ?_) fun e db' hrun b' hb => ?_
            · cases hb
              exact ⟨hslot, Or.inl ⟨rfl, fork, hrun⟩⟩
            · cases hb
              exact ⟨hslot, Or.inr ⟨rfl, e, hrun⟩⟩
        · intro b hb
          cases hb
  exact hturn.of_ok h b hb

end DelegateClient

namespace Database

open DelegateClient
open LarkX.Action (Event)

variable {crypto : Crypto} {config : GenesisBlockConfig} {db db' : Database}
  {client : DelegateClient} {signer : BlockSigner crypto} {outOfTime : ℕ → Bool} {now wall : ℕ}

/-- The slot that is found is one of a delegate that is looked for. -/
theorem Visited.mem_of_found (hids : crypto.IdealIds)
    (hgenesis : ∀ g, initializeGenesis crypto config = .ok g →
      btsBlockchainNumDelegates ≤ g.ledger.delegates.length)
    (hdb : db.Visited crypto config)
    (hwall : wall + btsBlockchainBlockIntervalSec * (btsBlockchainNumDelegates + 1) < 2 ^ 32)
    {delegateIds : List ℤ} {t : ℕ}
    (h : db.getNextProducibleBlockTimestamp wall delegateIds = .ok (some t)) :
    t ∈ db.ProducibleSlots wall delegateIds := by
  obtain ⟨-, next, -, hfound, ⟨t', rfl, hleast, -⟩ | ⟨rfl, -, -⟩⟩ :=
    hdb.findsLeast hids hgenesis hwall delegateIds
  · cases hfound.symm.trans h
    exact hleast.1
  · cases hfound.symm.trans h

/-- A producible slot that has come is the current one, and the head is older. -/
theorem producible_now {delegateIds : List ℤ} {t : ℕ}
    (ht : t ∈ db.ProducibleSlots wall delegateIds) (hnow : t ≤ wall) :
    t = slotStartTime wall ∧ db.now wall < t := by
  obtain ⟨hslot, hle, hnew, -⟩ := ht
  have heq : t = slotStartTime wall := by
    have hstart : wall < slotStartTime wall + btsBlockchainBlockIntervalSec :=
      Nat.lt_div_mul_add (by decide)
    have hmod := slotStartTime_mod wall
    simp only [btsBlockchainBlockIntervalSec] at *
    omega
  exact ⟨heq, hnew heq⟩

variable (db) in
/-- **The header of a new block.** It verifies exactly when the id of the head is the one
`generate_block` computes. -/
theorem verifyHeader_new_iff (hsane : db.headBlockHeader.Sane) {dataSize : SignedTransaction → ℕ}
    {pool : PendingPool} {w : Wallet} {t wall' : ℕ} {draft b : FullBlock} {r : AccountRecord}
    {info : DelegateStats} {key : PrivateKey}
    (hdraft : PendingPool.Generated crypto dataSize pool db t draft)
    (hsigns : signer.Signs w db wall draft.toSignedBlockHeader b.toSignedBlockHeader r info key)
    (htrxs : b.userTransactions = draft.userTransactions)
    (hnodup : (crypto.userTransactionIds draft).Nodup)
    (hslot : t % btsBlockchainBlockIntervalSec = 0) (hlater : db.now wall < t)
    (hfuture : t ≤ wall' + btsBlockchainBlockIntervalSec * 2) (enforceCanonical : Bool) :
    (∃ signee, crypto.signee b.toSignedBlockHeader enforceCanonical = .ok signee ∧
      (db.chain wall').verifyHeader crypto db.headBlockHeader db.headBlockId wall' b signee =
        .ok ()) ↔ db.Headed crypto := by
  have hheader := hsigns.header
  have hprevious : b.previous = draft.previous := by rw [hheader]
  have hnumber : b.blockNum = draft.blockNum := by rw [hheader]
  have htime : b.timestamp = draft.timestamp := by rw [hheader]
  have hdigest : b.transactionDigest = draft.transactionDigest :=
    by rw [hheader]
  have hids : crypto.userTransactionIds b = crypto.userTransactionIds draft :=
    congrArg (List.map crypto.transactionId) htrxs
  have hsmall : (db.headBlockHeader.blockNum + 1) % 2 ^ 32 = db.headBlockHeader.blockNum + 1 := by
    have hbound := hsane.number
    have hrange := hsane.range
    simp only [btsBlockchainBlockIntervalSec] at hbound
    exact Nat.mod_eq_of_lt (by omega)
  have hafter : 1 < b.blockNum → db.headBlockHeader.timestamp < b.timestamp := by
    intro hnum
    rw [hnumber, hdraft.blockNum, hsmall] at hnum
    have hne : db.headBlockNum ≠ 0 := by
      change db.headBlockHeader.blockNum ≠ 0
      omega
    rw [Database.now, if_neg hne] at hlater
    rw [htime, hdraft.timestamp]
    exact hlater
  obtain ⟨active, hactive, hr⟩ := hsigns.signee
  rw [hdraft.timestamp] at hr
  -- the delegates of the slots are read from the ledger alone
  have hactive' : ∀ now, getActiveDelegates ⟨[], db.ledger, now, db.headBlockNum⟩ = .ok active :=
    fun _ => hactive
  have hr' : ∀ now, getSlotSignee ⟨[], db.ledger, now, db.headBlockNum⟩ t active = .ok r :=
    fun _ => hr
  constructor
  · rintro ⟨signee, -, hverify⟩
    obtain ⟨-, hid, -⟩ := verifyHeader_eq_ok hverify
    rw [Headed, ← hid, hprevious, hdraft.previous]
  · intro hheaded
    refine ⟨r.activeKey, hsigns.signee_eq _, ?_⟩
    simp only [verifyHeader, bind_eq_ok, require_eq_ok]
    refine ⟨(), ?_, (), ?_, (), ?_, (), ?_, (), ?_, (), ?_, (), ?_, active, hactive' _, r, ?_, rfl⟩
    · rw [hnumber, hdraft.blockNum, hsmall]
      exact fun h => h.2 rfl
    · rw [hprevious, hdraft.previous]
      exact hheaded.symm
    · rw [htime, hdraft.timestamp]
      exact hslot
    · exact fun h => absurd (hafter h.1) (not_lt.2 h.2)
    · rw [htime, hdraft.timestamp]
      exact hfuture
    · rw [hids, hdigest]
      exact hdraft.digest
    · rw [hids]
      exact hnodup
    · rw [htime, hdraft.timestamp]
      exact hr' _

/-- **What the delegate loop produces.** In every state of a chain and for every pool the node can
have: the block of a turn has the time of the current slot, is signed by the delegate of that slot,
one of those the wallet has enabled, and keeps to the size of a block. Its header verifies on the
head, by every later clock, exactly when the id of the head is the one `generate_block` computes. -/
theorem Visited.delegateLoop_produces (hids : crypto.IdealIds)
    (hgenesis : ∀ g, initializeGenesis crypto config = .ok g →
      btsBlockchainNumDelegates ≤ g.ledger.delegates.length)
    (hdb : db.Visited crypto config) {chainId : Digest}
    (hpool : PendingPool.PoolRun crypto chainId client.pool)
    (htrxs : client.pool.IdsDistinct crypto) (hclock : now ≤ wall)
    (hwall : wall + btsBlockchainBlockIntervalSec * (btsBlockchainNumDelegates + 1) < 2 ^ 32)
    {turn : DelegateTurn} {b : FullBlock}
    (h : (client.delegateLoop signer outOfTime now wall).run db = .ok turn db')
    (hb : turn.produced = some b) :
    b.timestamp = slotStartTime wall ∧
      (b.userTransactions.map client.dataSize).sum ≤ btsBlockchainMaxBlockSize ∧
      (∃ enabled, client.enabledDelegates db wall = .ok enabled ∧ ∃ r ∈ enabled,
        db.ledger.slotDelegate b.timestamp = some r.id) ∧
      ∀ wall' ≥ wall, (∃ signee,
        crypto.signee b.toSignedBlockHeader (afterFork25 b.blockNum) = .ok signee ∧
        (db.chain wall').verifyHeader crypto db.headBlockHeader db.headBlockId wall' b signee =
          .ok ()) ↔ db.Headed crypto := by
  obtain ⟨enabled, t, henabled, hnext, hnow, hnew⟩ := (delegateLoop_turns h hb).slot
  obtain ⟨-, draft, r, info, key, hdraft, hsigns, heq⟩ := newBlock_eq_ok hnew
  have hmem := hdb.mem_of_found hids hgenesis hwall hnext
  obtain ⟨htime, hlater⟩ := producible_now hmem (hnow.trans hclock)
  have hstamp : b.timestamp = t :=
    (congrArg BlockHeader.timestamp hsigns.header).trans hdraft.timestamp
  refine ⟨hstamp.trans htime, heq ▸ hdraft.size, ⟨enabled, henabled, ?_⟩, fun wall' hwall' => ?_⟩
  · obtain ⟨-, -, -, id, hid, hslot⟩ := hmem
    obtain ⟨r, hr, rfl⟩ := List.mem_map.1 hid
    exact ⟨r, hr, hstamp ▸ hslot⟩
  · have hsane : db.headBlockHeader.Sane := by
      obtain ⟨_, -, -, _, htracks⟩ := hdb.tracks hids
      exact htracks.sane
    exact verifyHeader_new_iff db.verifySignatures hsane hdraft hsigns heq
      (hpool.generated_nodup htrxs hdraft) hmem.1 hlater (by omega) _

/-! ### A turn on the small chain -/

/-- A client whose wallet has the first delegate of the small chain, and its key. -/
def smallClient : DelegateClient where
  wallet := smallWallet 1
  dataSize trx := trx.operations.length
  networkConnectionCount := 1

set_option maxRecDepth 100000 in
/-- Its turn in the first slot of that delegate. -/
theorem delegateLoop_produces_smallClient :
    ∃ turn db' b, (smallClient.delegateLoop transparentSigner (fun _ => false) 1010 1010).run
        smallGenesis = .ok turn db' ∧ turn.produced = some b ∧ b.timestamp = slotStartTime 1010 ∧
      ∃ signee, (smallGenesis.chain 1010).verifyHeader .transparent smallGenesis.headBlockHeader
        smallGenesis.headBlockId 1010 b signee = .ok () := by
  have hgenesis : ∀ g, initializeGenesis .transparent smallConfig = .ok g →
      btsBlockchainNumDelegates ≤ g.ledger.delegates.length := by
    intro g hg
    cases initialize_smallGenesis.symm.trans hg
    decide +kernel
  have hpool : PendingPool.PoolRun .transparent 0 smallClient.pool := .refl
  have hproduces : returns (smallClient.delegateLoop transparentSigner (fun _ => false) 1010 1010
      >>= fun turn => ofExcept (orThrow turn.produced .invalidTimestamp)) smallGenesis = true := by
    decide +kernel
  obtain ⟨b, last, hafter⟩ := exists_of_returns hproduces
  cases hrun : (smallClient.delegateLoop transparentSigner (fun _ => false) 1010 1010).run
      smallGenesis with
  | error e db' =>
    rw [run_bind_error hrun] at hafter
    cases hafter
  | ok turn db' =>
    rw [run_bind_ok hrun] at hafter
    cases hproduced : turn.produced with
    | none =>
      rw [hproduced] at hafter
      cases hafter
    | some b =>
      obtain ⟨htime, -, -, hverify⟩ := Visited.delegateLoop_produces idealIds_transparent hgenesis
        reachable_smallGenesis.visited hpool (by decide +kernel) le_rfl
        (by decide) hrun hproduced
      obtain ⟨signee, -, hsignee⟩ := (hverify 1010 le_rfl).2 (by decide +kernel)
      exact ⟨turn, db', b, rfl, hproduced, htime, signee, hsignee⟩

/-- In a run that never pops its first block, the id of the head is the one `generate_block`
computes. -/
theorem RunOf.headed {P : FullBlock → Prop} (hids : crypto.IdealIds)
    (h : RunOf crypto config P HeadKept db) : db.Headed crypto := by
  obtain ⟨g, -, links, htracks⟩ := h.tracks hids
  have hid := htracks.id
  have hheader := htracks.header
  cases htracks.linked with
  | nil =>
    obtain hgenesis | ⟨hfirst, -, -, db', hdb', hpop⟩ := hheader
    · rw [Headed, hgenesis]
      exact hid
    · exact absurd (hdb' ▸ hfirst) hpop.2
  | @cons link rest _ _ _ _ _ hK =>
    have hlink : db.headBlockHeader = link.block.toSignedBlockHeader := hheader
    have hnumber : link.block.blockNum ≠ 0 := by
      obtain ⟨hone, hmore⟩ : FirstIsOne link.block := hK
      by_cases hprevious : link.block.previous = 0
      · rw [hone hprevious]
        exact one_ne_zero
      · have hlt := hmore hprevious
        omega
    rw [Headed, hlink, if_pos hnumber]
    exact hid

end Database

end LarkX
