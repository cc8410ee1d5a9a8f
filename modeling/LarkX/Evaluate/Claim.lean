import LarkX.Evaluate.Writes
import LarkX.State.Keyed

/-!
# Who may claim a genesis balance

A claim is signed by an external address, and it should debit a balance of that address.
Evaluation checks the signature against the address the claim names, and the balance against
the claim's amount; it never compares the owner of the balance with the address. What is left
is the choice of the balance id: `claimsAuthorised_iff` says that the claims of a transaction
are authorised exactly when each of them names the id of a balance of its own signer.
-/

namespace LarkX

namespace EvaluationState

variable {crypto : Crypto} {c : ChainInterface} {chainId : Digest} {trx : SignedTransaction}
  {canonical : Bool} {s s' : EvaluationState}

/-- In the evaluation of a transaction with its signatures checked, a claim on behalf of
`source` debits the record `r`. -/
def Debits (crypto : Crypto) (c : ChainInterface) (chainId : Digest) (trx : SignedTransaction)
    (canonical : Bool) (source : PtsAddress) (r : BalanceRecord) : Prop :=
  ∃ signedKeys before id amount dest sig after s,
    recoverSignedKeys crypto (crypto.transactionDigest trx.toTransaction chainId) canonical
      trx.signatures = .ok signedKeys ∧
    trx.operations = before ++ Operation.claim id amount source dest sig :: after ∧
    (initial c chainId trx false signedKeys).evaluateOperations crypto before = .ok s ∧
    s.currentState.getBalanceRecord id = some r

/-- **Claim authorisation.** Every claim debits a genesis balance whose owner is the address of
the external address that signed the claim. -/
def ClaimsAuthorised (crypto : Crypto) (c : ChainInterface) (chainId : Digest)
    (trx : SignedTransaction) (canonical : Bool) : Prop :=
  ∀ source r, Debits crypto c chainId trx canonical source r →
    r.genesisInfo.isSome = true ∧ r.condition.signatureOwner = .ok (crypto.ptsToAddress source)

/-- Every claim names the id of a balance of its own signer. -/
def ClaimsOwn (crypto : Crypto) (ops : List Operation) : Prop :=
  ∀ id amount source dest sig, Operation.claim id amount source dest sig ∈ ops →
    ∃ slate memo, id = crypto.conditionAddress
      ⟨0, slate, .signature, .withSignature (crypto.ptsToAddress source) memo⟩

/-- The owner of a condition, as far as the packed data goes. -/
theorem signatureOwner_eq_ok {condition : WithdrawCondition} {owner : Address} :
    condition.signatureOwner = .ok owner ↔
      ∃ memo, condition.type = .signature ∧ condition.data = .withSignature owner memo := by
  rw [WithdrawCondition.signatureOwner, bind_eq_ok]
  constructor
  · rintro ⟨⟨⟩, htype, howner⟩
    rw [require_eq_ok] at htype
    split at howner
    · rename_i owner' memo hdata
      rw [pure_eq_ok] at howner
      exact ⟨memo, htype, howner ▸ hdata⟩
    · cases howner
  · rintro ⟨memo, htype, hdata⟩
    refine ⟨(), require_eq_ok.2 htype, ?_⟩
    rw [hdata]
    rfl

/-- The operations before one that is evaluated are evaluated, and so is the one. -/
theorem evaluateOperations_append {before after : List Operation} {op : Operation}
    (h : s.evaluateOperations crypto (before ++ op :: after) = .ok s') :
    ∃ s₁ s₂, s.evaluateOperations crypto before = .ok s₁ ∧
      s₁.evaluateOperation crypto op = .ok s₂ := by
  unfold evaluateOperations at h ⊢
  rw [List.foldlM_append, bind_eq_ok] at h
  obtain ⟨s₁, hbefore, h⟩ := h
  rw [List.foldlM_cons, bind_eq_ok] at h
  obtain ⟨s₂, hop, -⟩ := h
  exact ⟨s₁, s₂, hbefore, hop⟩

/-- In an evaluation that returns, what a claim debits has passed the checks of the claim and
is stored under the id it names. -/
theorem Debits.checked {source : PtsAddress} {r : BalanceRecord} (hp : c.IsPending)
    (hkeyed : c.flat.Keyed crypto) (h : evaluate crypto c chainId trx false canonical = .ok s)
    (hdebits : Debits crypto c chainId trx canonical source r) :
    ∃ id amount dest sig, Operation.claim id amount source dest sig ∈ trx.operations ∧
      ClaimChecked crypto source dest sig r ∧ crypto.conditionAddress r.condition = id := by
  obtain ⟨signedKeys, before, id, amount, dest, sig, after, s₁, hkeys, hops, hbefore, hget⟩ :=
    hdebits
  obtain ⟨signedKeys', s₂, s₃, -, hkeys', hrun, -, -⟩ := evaluate_eq_ok h
  rw [hkeys' rfl] at hkeys
  cases hkeys
  rw [hops] at hrun
  obtain ⟨s₁', s₂', hbefore', hop⟩ := evaluateOperations_append hrun
  rw [hbefore] at hbefore'
  cases hbefore'
  obtain ⟨-, r', -, hget', hchecked, -, -, -, -, -, -⟩ := claim_eq_ok hop
  rw [hget] at hget'
  cases hget'
  refine ⟨id, amount, dest, sig, ?_, hchecked, ?_⟩
  · rw [hops]
    exact List.mem_append_right _ List.mem_cons_self
  · have hw : ChainInterface.Writes crypto (EvaluationWrite crypto before) c s₁.currentState :=
      evaluateOperations_writes hp hbefore
    rw [ChainInterface.getBalanceRecord_eq] at hget
    exact (hw.keyed hp hkeyed).balances id r hget

/-- Every claim of a transaction that evaluates debits a record. -/
theorem exists_debits {id : BalanceId} {amount : ℤ} {source : PtsAddress} {dest : PublicKey}
    {sig : Signature} (hp : c.IsPending) (hkeyed : c.flat.Keyed crypto)
    (h : evaluate crypto c chainId trx false canonical = .ok s)
    (hop : Operation.claim id amount source dest sig ∈ trx.operations) :
    ∃ r, Debits crypto c chainId trx canonical source r ∧ r.assetId = 0 ∧
      crypto.conditionAddress r.condition = id := by
  obtain ⟨before, after, hops⟩ := List.append_of_mem hop
  obtain ⟨signedKeys, s₂, s₃, -, hkeys, hrun, -, -⟩ := evaluate_eq_ok h
  rw [hops] at hrun
  obtain ⟨s₁, s₁', hbefore, hclaim⟩ := evaluateOperations_append hrun
  obtain ⟨-, r, -, hget, hchecked, -, -, -, -, -, -⟩ := claim_eq_ok hclaim
  refine ⟨r, ⟨signedKeys, before, id, amount, dest, sig, after, s₁, hkeys rfl, hops, hbefore,
    hget⟩, hchecked.base, ?_⟩
  have hw : ChainInterface.Writes crypto (EvaluationWrite crypto before) c s₁.currentState :=
    evaluateOperations_writes hp hbefore
  rw [ChainInterface.getBalanceRecord_eq] at hget
  exact (hw.keyed hp hkeyed).balances id r hget

/-- **When claims are authorised.** The claims of a transaction that evaluates with its
signatures checked are authorised exactly when each of them names the id of a balance of its
own signer. -/
theorem claimsAuthorised_iff (hp : c.IsPending) (hkeyed : c.flat.Keyed crypto)
    (hideal : Function.Injective crypto.conditionAddress)
    (h : evaluate crypto c chainId trx false canonical = .ok s) :
    ClaimsAuthorised crypto c chainId trx canonical ↔ ClaimsOwn crypto trx.operations := by
  constructor
  · intro hall id amount source dest sig hop
    obtain ⟨r, hdebits, hbase, hid⟩ := exists_debits hp hkeyed h hop
    obtain ⟨memo, htype, hdata⟩ := signatureOwner_eq_ok.1 (hall source r hdebits).2
    refine ⟨r.condition.delegateSlateId, memo, ?_⟩
    rw [← hid, ← htype, ← hdata, ← hbase]
    rfl
  · intro hown source r hdebits
    obtain ⟨id, amount, dest, sig, hop, hchecked, hid⟩ := hdebits.checked hp hkeyed h
    obtain ⟨slate, memo, hown⟩ := hown id amount source dest sig hop
    have hcondition := hideal (hid.trans hown)
    refine ⟨hchecked.genesis, signatureOwner_eq_ok.2 ⟨memo, ?_, ?_⟩⟩
    · rw [hcondition]
    · rw [hcondition]

/-! ### A claim of somebody else's balance -/

/-- A genesis balance that belongs to an external address. -/
def genesisBalance : BalanceRecord where
  balance := 10
  condition := .ofSignature (Crypto.transparent.ptsToAddress ⟨56, 5⟩) 0 0
  genesisInfo := some ⟨⟨10, 0⟩, 5⟩

/-- A chain state with this balance. -/
def claimState : ChainInterface :=
  ((ChainInterface.blank 100 1).write Crypto.transparent (.asset {})).write Crypto.transparent
    (.balance genesisBalance)

/-- The balance is claimed on behalf of `source`, with the signatures of `key`, and goes to
that key. -/
def claimBy (source : PtsAddress) (key : PublicKey) : SignedTransaction where
  expiration := 200
  operations :=
    [.claim (Crypto.transparent.conditionAddress genesisBalance.condition) 10 source key key,
      .deposit 10 (.ofSignature (Crypto.transparent.keyAddress key) 0 0)]
  signatures := [key]

theorem pendingKeyed_claimState : ChainInterface.PendingKeyed Crypto.transparent claimState :=
  ((ChainInterface.pendingKeyed_blank _ 100 1).write _).write _

/-- **A stranger claims the balance.** The address `⟨56, 19⟩` claims a balance of `⟨56, 5⟩`,
and the transaction evaluates. -/
theorem stranger_claims :
    ∃ s, evaluate Crypto.transparent claimState 0 (claimBy ⟨56, 19⟩ 9) false false = .ok s ∧
      ¬ClaimsAuthorised Crypto.transparent claimState 0 (claimBy ⟨56, 19⟩ 9) false := by
  obtain ⟨s, hs⟩ := exists_eq_ok (x := evaluate Crypto.transparent claimState 0
    (claimBy ⟨56, 19⟩ 9) false false) (by decide +kernel)
  refine ⟨s, hs, fun hall => ?_⟩
  have howner := (hall ⟨56, 19⟩ genesisBalance ⟨_, [], _, _, _, _, _, _, rfl, rfl, rfl,
    by decide +kernel⟩).2
  revert howner
  decide +kernel

/-- The owner claims the balance. -/
theorem claimsAuthorised_owner :
    ClaimsAuthorised Crypto.transparent claimState 0 (claimBy ⟨56, 5⟩ 2) false ↔
      ClaimsOwn Crypto.transparent (claimBy ⟨56, 5⟩ 2).operations := by
  obtain ⟨s, hs⟩ := exists_eq_ok (x := evaluate Crypto.transparent claimState 0
    (claimBy ⟨56, 5⟩ 2) false false) (by decide +kernel)
  exact claimsAuthorised_iff pendingKeyed_claimState.1 pendingKeyed_claimState.2
    WithdrawCondition.code_injective hs

end EvaluationState

end LarkX
