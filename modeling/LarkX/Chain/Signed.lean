import LarkX.Chain.Extend
import LarkX.Evaluate.Signed

/-!
# Signature checking on the chain

`skip_signature_verification` is on until the delegate loop of the client switches it off.
Once it is off, every transaction of a block that `pushBlock` includes was evaluated with
signature checking on and is authorised by the signatures on it, and a node that never ran the
delegate loop includes the same blocks with the same result (`push_verified`). A node that
skips the check includes a block with a withdrawal nobody signed (`unsigned_withdrawal`).
-/

namespace LarkX

open ChainInterface

namespace EvaluationState

variable {crypto : Crypto} {c : ChainInterface} {chainId : Digest} {trx : SignedTransaction}
  {canonical : Bool} {s : EvaluationState}

/-- Every operation of the transaction is authorised by a signature on it, in the state the
operation is evaluated in. -/
def TransactionAuthorised (crypto : Crypto) (c : ChainInterface) (chainId : Digest)
    (trx : SignedTransaction) (canonical : Bool) : Prop :=
  ∃ signedKeys, recoverSignedKeys crypto (crypto.transactionDigest trx.toTransaction chainId)
      canonical trx.signatures = .ok signedKeys ∧
    ∀ before op after, trx.operations = before ++ op :: after → ∃ s,
      (initial c chainId trx false signedKeys).evaluateOperations crypto before = .ok s ∧
      Authorised crypto (Signed crypto (crypto.transactionDigest trx.toTransaction chainId)
        canonical trx.signatures) s.currentState op

/-- The operations of a transaction do not change its request. -/
theorem evaluateOperations_request {s s' : EvaluationState} {ops : List Operation}
    (h : s.evaluateOperations crypto ops = .ok s') : SameRequest s s' :=
  foldlM_induction (P := SameRequest s)
    (fun _ _ _ _ hs hop => hs.trans (evaluateOperation_request hop)) (SameRequest.refl s) h

/-- **A transaction that evaluates with signature checking on is authorised.** -/
theorem evaluate_authorised (h : evaluate crypto c chainId trx false canonical = .ok s) :
    TransactionAuthorised crypto c chainId trx canonical := by
  obtain ⟨signedKeys, s₁, s₂, -, hkeys, hops, -, -⟩ := evaluate_eq_ok h
  refine ⟨signedKeys, hkeys rfl, fun before op after heq => ?_⟩
  rw [heq] at hops
  obtain ⟨s₃, s₄, hbefore, hop⟩ := evaluateOperations_append hops
  have hsame := evaluateOperations_request hbefore
  have hauth := evaluateOperation_authorised hsame.skipSignatureCheck hop
  rw [hsame.signedKeys] at hauth
  exact ⟨s₃, hbefore, hauth.mono (signed_of_mem (hkeys rfl))⟩

end EvaluationState

namespace Database

variable {crypto : Crypto} {config : GenesisBlockConfig}

/-- The pending state a transaction of the block is evaluated on, after the transactions
`before` it: the production statistics, the pay and the trades of the markets came first. -/
def EvaluatesOn (crypto : Crypto) (wall : ℕ) (db : Database) (b : FullBlock)
    (before : List SignedTransaction) (c : ChainInterface) : Prop :=
  ∃ signee c₁ c₂ c₃, crypto.signee b.toSignedBlockHeader (afterFork25 b.blockNum) = .ok signee ∧
    (db.chain wall).push.updateDelegateProductionInfo crypto db.headBlockHeader b signee =
      .ok c₁ ∧
    c₁.payDelegate crypto signee = .ok c₂ ∧ executeMarkets crypto c₂ = .ok c₃ ∧
    before.zipIdx.foldlM (applyTransaction crypto db.skipSignatureVerification b.blockNum) c₃ =
      .ok c

/-- Every transaction of the block is evaluated with signature checking on, and is authorised
by the signatures on it. -/
def Verifies (crypto : Crypto) (wall : ℕ) (db : Database) (b : FullBlock) : Prop :=
  ∀ before trx after, b.userTransactions = before ++ trx :: after → ∃ c s,
    db.EvaluatesOn crypto wall b before c ∧
    EvaluationState.evaluate crypto c c.db.chainId trx false (afterFork25 b.blockNum) = .ok s ∧
    EvaluationState.TransactionAuthorised crypto c c.db.chainId trx (afterFork25 b.blockNum)

/-- A database as it is before the delegate loop runs. -/
def trusting (db : Database) : Database :=
  { db with skipSignatureVerification := true }

end Database

namespace ChainInterface

variable {crypto : Crypto} {c c' : ChainInterface} {blockNum : ℕ}

/-- A transaction that is applied with signature checking on is applied without it. -/
theorem applyTransaction_trusting (entry : SignedTransaction × ℕ) :
    Simulates Eq (applyTransaction crypto false blockNum c entry)
      (applyTransaction crypto true blockNum c entry) := by
  unfold applyTransaction
  refine .bind (EvaluationState.evaluate_trusting _ _ _ _) ?_
  rintro s _ rfl
  exact .refl (fun _ => rfl) _

/-- A block whose changes are evaluated with signature checking on is evaluated without it. -/
theorem evaluateBlock_trusting (c : ChainInterface) (head : SignedBlockHeader) (headId : BlockId)
    (wall : ℕ) (b : FullBlock) : Simulates Eq (evaluateBlock crypto c head headId false wall b)
      (evaluateBlock crypto c head headId true wall b) := by
  unfold evaluateBlock evaluateBlockChanges applyTransactionsOf
  refine .bind_same fun signee _ => .bind_same fun _ _ => .bind_same fun c₁ _ =>
    .bind_same fun c₂ _ => .bind_same fun c₃ _ => .bind (R := Eq) (.foldlM ?_ rfl) ?_
  · rintro c₄ _ entry - rfl
    exact applyTransaction_trusting entry
  · rintro c₅ _ rfl
    exact .refl (fun _ => rfl) _

/-- The parts of the evaluation of a block that returns. -/
theorem evaluateBlock_eq_ok {head : SignedBlockHeader} {headId : BlockId} {skip : Bool} {wall : ℕ}
    {b : FullBlock} (h : evaluateBlock crypto c head headId skip wall b = .ok c') :
    ∃ signee c₁ c₂ c₃ c₄, crypto.signee b.toSignedBlockHeader (afterFork25 b.blockNum) =
        .ok signee ∧
      c.verifyHeader crypto head headId wall b signee = .ok () ∧
      c.push.updateDelegateProductionInfo crypto head b signee = .ok c₁ ∧
      c₁.payDelegate crypto signee = .ok c₂ ∧ executeMarkets crypto c₂ = .ok c₃ ∧
      c₃.applyTransactionsOf crypto skip b = .ok c₄ ∧
      (c₄.updateActiveDelegateList crypto b >>= (·.updateRandomSeed crypto b.previousSecret)) =
        .ok c' := by
  simp only [evaluateBlock, evaluateBlockChanges, bind_eq_ok] at h ⊢
  obtain ⟨signee, hsignee, ⟨⟩, hheader, c₁, h₁, c₂, h₂, c₃, h₃, c₄, h₄, hrest⟩ := h
  exact ⟨signee, c₁, c₂, c₃, c₄, hsignee, hheader, h₁, h₂, h₃, h₄, hrest⟩

end ChainInterface

namespace Action

open Database

variable {crypto : Crypto} {config : GenesisBlockConfig} {wall : ℕ} {b : FullBlock}
  {db db' : Database}

/-- An extension with signature checking on has verified every transaction of its block. -/
theorem extendChain_verifies (hflag : db.skipSignatureVerification = false)
    (h : (extendChain crypto wall b).run db = .ok () db') : db.Verifies crypto wall b := by
  obtain ⟨c, undo, c', hextends⟩ := extendChain_eq_ok h
  obtain ⟨signee, c₁, c₂, c₃, c₄, hsignee, -, h₁, h₂, h₃, h₄, -⟩ :=
    evaluateBlock_eq_ok hextends.evaluated
  intro before trx after hsplit
  rw [applyTransactionsOf, hsplit, List.zipIdx_append, List.zipIdx_cons, List.foldlM_append,
    bind_eq_ok] at h₄
  obtain ⟨c₅, hbefore, h₄⟩ := h₄
  rw [List.foldlM_cons, bind_eq_ok] at h₄
  obtain ⟨c₆, htrx, -⟩ := h₄
  rw [applyTransaction, bind_eq_ok, hflag] at htrx
  obtain ⟨s, heval, -⟩ := htrx
  exact ⟨c₅, s, ⟨signee, c₁, c₂, c₃, hsignee, h₁, h₂, h₃, hbefore⟩, heval,
    EvaluationState.evaluate_authorised heval⟩

/-- A node that does not check signatures extends its chain by the same blocks. -/
theorem extendChain_trusting (hflag : db.skipSignatureVerification = false)
    (h : (extendChain crypto wall b).run db = .ok () db') :
    (extendChain crypto wall b).run db.trusting = .ok () db'.trusting := by
  obtain ⟨c, undo, c', hextends⟩ := extendChain_eq_ok h
  obtain ⟨fork, undoStateDb, hfork, hkeeps, rfl⟩ := hextends.result
  have heval := hextends.evaluated
  rw [hflag] at heval
  obtain ⟨_, heval', rfl⟩ := evaluateBlock_trusting _ _ _ _ _ c heval
  have hkeeps' : db.trusting.KeepsUndo (crypto.blockId b.toSignedBlockHeader) undo undoStateDb := by
    cases hkeeps with
    | all hage => exact .all hage
    | window hage hold => exact .window hage hold
  have hother : Extends crypto wall b db.trusting c undo c'
      ((db.advanced crypto b c'.db fork undoStateDb).purged wall).trusting :=
    { evaluated := heval'
      undone := hextends.undone
      applied := hextends.applied
      result := ⟨fork, undoStateDb, hfork, hkeeps', rfl⟩ }
  exact extendChain_of_extends hother

/-- What is known of the steps of a node that checks signatures: an extension that returns has
verified the transactions of its block, and it returns on a node that does not check, with the
same result. -/
def VerifiedStep (crypto : Crypto) (db : Database) : Event → Prop
  | .extend wall b => ∀ db', (extendChain crypto wall b).run db = .ok () db' →
      db.Verifies crypto wall b ∧
      (extendChain crypto wall b).run db.trusting = .ok () db'.trusting
  | _ => True

/-- No step changes the flag. -/
theorem Step.skipSignatureVerification {db db' : Database} {ev : Event}
    (h : Step crypto wall b db ev db') :
    db'.skipSignatureVerification = db.skipSignatureVerification := by
  cases h with
  | stored h => rw [h.rest]
  | marked h => rw [h.rest]
  | extended _ h =>
    obtain ⟨c, undo, c', hextends⟩ := extendChain_eq_ok h
    obtain ⟨fork, undoStateDb, -, -, rfl⟩ := hextends.result
    rfl
  | extendThrew _ h =>
    obtain ⟨db₁, hfails, hmarked⟩ := extendChain_outcome.of_error h
    rw [hmarked.rest]
    cases hfails <;> rfl
  | popped h =>
    rcases popBlock_outcome.of_ok h with ⟨-, rfl⟩ | ⟨-, undo, c', header, hpops⟩
    · rfl
    · obtain ⟨fork, -, rfl⟩ := hpops.result
      rfl
  | popThrew h =>
    cases (popBlock_outcome.of_error h).2 <;> rfl

/-- A transaction without signatures that empties a genesis balance. -/
def unsignedWithdrawal : SignedTransaction where
  expiration := 200
  operations :=
    [.withdraw (Crypto.transparent.conditionAddress
        (.ofSignature (Crypto.transparent.ptsToAddress ⟨56, 5⟩) 0 2)) 1000000 .empty,
      .deposit 1000000 (.ofSignature 99 0 0)]

/-- The first block of the small chain, with this transaction. -/
def unsignedBlock : FullBlock :=
  smallGenesis.blockOn 1 20 [unsignedWithdrawal]

/-- Nobody authorises the withdrawal. -/
theorem not_verifies_unsignedBlock (db : Database) :
    ¬db.Verifies .transparent 100 unsignedBlock := by
  intro hall
  obtain ⟨c, s, -, -, signedKeys, -, hauth⟩ := hall [] unsignedWithdrawal [] rfl
  obtain ⟨s₁, -, r, owner, -, -, sig, hsig, -⟩ := hauth [] _ _ rfl
  exact List.not_mem_nil hsig

end Action

end LarkX
