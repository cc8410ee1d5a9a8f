import LarkX.Chain.Genesis
import LarkX.Market.Failed

/-!
# Retracting an account

The owner of an account retracts it by setting its active key to the null key. An update refuses
a key that any account is indexed under, and the index of keys does not leave the null key out: a
retracted account is indexed under its address. So the first account that is retracted takes the
null key, and no other one can be retracted after it. `retraction_available_iff` says exactly when
a retraction is available.
-/

namespace LarkX

namespace EvaluationState

variable {crypto : Crypto} {s s' : EvaluationState} {r : AccountRecord} {accountId : ℤ}
  {publicData : Option ℕ} {payRate : ℕ}

/-- A pay rate an update may name without a fee: a delegate stays one at no higher rate, any other
account does not become one. -/
def FreePayRate (r : AccountRecord) (payRate : ℕ) : Prop :=
  match r.delegateInfo with
  | some info => payRate ≤ 100 ∧ payRate ≤ info.payRate
  | none => 100 < payRate

instance (r : AccountRecord) (payRate : ℕ) : Decidable (FreePayRate r payRate) :=
  match h : r.delegateInfo with
  | some info => decidable_of_iff (payRate ≤ 100 ∧ payRate ≤ info.payRate) (by rw [FreePayRate, h])
  | none => decidable_of_iff (100 < payRate) (by rw [FreePayRate, h])

/-- The record an update writes that retracts an account. -/
def retractedRecord (r : AccountRecord) (now : ℕ) (publicData : Option ℕ) (payRate : ℕ) :
    AccountRecord :=
  { r with
    publicData := publicData.getD r.publicData
    lastUpdate := now
    delegateInfo := r.delegateInfo.map fun info => { info with payRate }
    activeKeyHistory := (r.activeKeyHistory.insert now 0).insert now 0 }

theorem changePayRate_free (hrate : FreePayRate r payRate) : s.changePayRate r payRate =
    .ok (s, { r with delegateInfo := r.delegateInfo.map fun info => { info with payRate } }) := by
  unfold FreePayRate at hrate
  unfold changePayRate
  cases hinfo : r.delegateInfo with
  | none =>
    rw [hinfo] at hrate
    dsimp only at hrate ⊢
    rw [if_neg (not_le.2 hrate), Option.map_none, ← hinfo]
    rfl
  | some info =>
    rw [hinfo] at hrate
    dsimp only at hrate ⊢
    rw [require, if_pos hrate.1, ok_bind, require, if_pos hrate.2, ok_bind]
    rfl

/-- The null key replaces the active key of an account that is not retracted. -/
theorem changeActiveKey_null (hactive : r.isRetracted = false)
    (hsigned : s.checkSignature (crypto.keyAddress r.ownerKey) = true) {r' : AccountRecord} :
    s.changeActiveKey crypto r (some 0) = .ok r' ↔
      s.currentState.getAccountRecordByAddress (crypto.keyAddress 0) = none ∧
        s.currentState.now ≠ 0 ∧
        { r with activeKeyHistory := r.activeKeyHistory.insert s.currentState.now 0 } = r' := by
  have hkey : (some 0 : Option PublicKey).filter (· ≠ r.activeKey) = some 0 := by
    refine Option.filter_eq_some_iff.2 ⟨rfl, decide_eq_true fun h => ?_⟩
    rw [AccountRecord.isRetracted, ← h] at hactive
    cases hactive
  unfold changeActiveKey
  rw [hkey]
  simp only [bind_eq_ok, require_eq_ok, AccountRecord.setActiveKey, pure_eq_ok, hsigned, true_or,
    Option.isNone_iff_eq_none, exists_const, true_and]

/-- **An update that retracts an account** asks for the null key to be free. -/
theorem updateAccount_retracts_iff (hr : s.currentState.getAccountRecord accountId = some r)
    (hactive : r.isRetracted = false) (hrate : FreePayRate r payRate)
    (hsigned : s.checkSignature (crypto.keyAddress r.ownerKey) = true) :
    s.updateAccount crypto accountId publicData (some 0) payRate = .ok s' ↔
      (s.currentState.getAccountRecordByAddress (crypto.keyAddress 0) = none ∧
        s.currentState.now ≠ 0) ∧
      s.withState (s.currentState.storeAccountRecord crypto
        (retractedRecord r s.currentState.now publicData payRate)) = s' := by
  simp only [updateAccount, bind_eq_ok, orThrow_eq_ok, require_eq_ok, pure_eq_ok, hr,
    Option.some.injEq, exists_eq_left', hactive, exists_const, true_and,
    changeActiveKey_null hactive hsigned]
  have hpay := @changePayRate_free s { r with
    publicData := publicData.getD r.publicData
    activeKeyHistory := r.activeKeyHistory.insert s.currentState.now 0 } payRate hrate
  constructor
  · rintro ⟨_, ⟨hnone, hnow, rfl⟩, p, hp, r', hset, hs'⟩
    rw [hpay] at hp
    cases hp
    simp only [setUpdatedKey, AccountRecord.setActiveKey, bind_eq_ok, require_eq_ok, pure_eq_ok,
      exists_const] at hset
    obtain ⟨_, ⟨-, rfl⟩, -, rfl⟩ := hset
    exact ⟨⟨hnone, hnow⟩, hs'⟩
  · rintro ⟨⟨hnone, hnow⟩, hs'⟩
    refine ⟨_, ⟨hnone, hnow, rfl⟩, _, hpay, _, ?_, hs'⟩
    simp only [setUpdatedKey, AccountRecord.setActiveKey, bind_eq_ok, require_eq_ok, pure_eq_ok,
      exists_const]
    exact ⟨_, ⟨hnow, rfl⟩, by rw [hnone]; rfl, rfl⟩

/-! ### The transaction -/

/-- With nothing in its books, an evaluation finishes as it is. -/
theorem finish_empty {s : EvaluationState} (hbalance : s.balance = ∅) (hfees : s.requiredFees = {})
    (hpaid : s.altFeesPaid = {}) (hvotes : s.netDelegateVotes = ∅) :
    (do
      let s ← s.postEvaluate
      s.validateRequiredFee
      s.updateDelegateVotes crypto) = .ok { s with balance := s.balance.insert 0 0 } := by
  obtain ⟨trx, signedKeys, providedDeposits, deposits, withdraws, requiredFees, altFeesPaid,
    balance, netDelegateVotes, currentState, chainId, skip⟩ := s
  cases hbalance
  cases hfees
  cases hpaid
  cases hvotes
  rfl

/-- A transaction that retracts an account: it is signed with the owner key, passes the checks
every transaction has to pass, and asks for nothing that costs a fee. -/
structure Retracts (crypto : Crypto) (c : ChainInterface) (chainId : Digest) (canonical : Bool)
    (accountId : ℤ) (r : AccountRecord) (trx : SignedTransaction) : Prop where
  operation : ∃ publicData payRate, FreePayRate r payRate ∧
    trx.operations = [.updateAccount accountId publicData (some 0) payRate]
  checked : checkTransaction crypto c chainId trx = .ok ()
  signed : ∃ keys, recoverSignedKeys crypto (crypto.transactionDigest trx.toTransaction chainId)
    canonical trx.signatures = .ok keys ∧ crypto.keyAddress r.ownerKey ∈ keys

/-- **When a retraction is available.** A transaction that retracts an account is evaluated and
applied exactly when no account is indexed under the null key and the time of the chain is set. -/
theorem retraction_available_iff {c : ChainInterface} {chainId : Digest} {canonical : Bool}
    {trx : SignedTransaction} (hr : c.getAccountRecord accountId = some r)
    (hactive : r.isRetracted = false)
    (h : Retracts crypto c.push chainId canonical accountId r trx) :
    (∃ s c', evaluate crypto c.push chainId trx false canonical = .ok s ∧
      s.currentState.applyChanges crypto = .ok c') ↔
      c.getAccountRecordByAddress (crypto.keyAddress 0) = none ∧ c.now ≠ 0 := by
  obtain ⟨publicData, payRate, hrate, hops⟩ := h.operation
  obtain ⟨keys, hkeys, hmem⟩ := h.signed
  have hsigned : (initial c.push chainId trx false keys).checkSignature
      (crypto.keyAddress r.ownerKey) = true := by
    rw [checkSignature, initial, Bool.false_or]
    exact List.contains_iff_mem.2 hmem
  have hupdate := fun s' => @updateAccount_retracts_iff crypto
    (initial c.push chainId trx false keys) s' r accountId publicData payRate hr hactive hrate
    hsigned
  have hoperations : (initial c.push chainId trx false keys).evaluateOperations crypto
      trx.operations = (initial c.push chainId trx false keys).updateAccount crypto accountId
        publicData (some 0) payRate := by
    rw [hops, evaluateOperations, List.foldlM_cons]
    exact bind_pure _
  have hrun : evaluate crypto c.push chainId trx false canonical = (do
      let s ← (initial c.push chainId trx false keys).updateAccount crypto accountId publicData
        (some 0) payRate
      let s ← s.postEvaluate
      s.validateRequiredFee
      s.updateDelegateVotes crypto) := by
    rw [evaluate, h.checked, ok_bind, if_neg Bool.false_ne_true, hkeys, ok_bind]
    exact congrArg (· >>= _) hoperations
  constructor
  · rintro ⟨s, -, heval, -⟩
    rw [hrun, bind_eq_ok] at heval
    obtain ⟨s₁, hs₁, -⟩ := heval
    exact ((hupdate s₁).1 hs₁).1
  · intro hfree
    rw [hrun, (hupdate _).2 ⟨hfree, rfl⟩, ok_bind, finish_empty rfl rfl rfl rfl]
    obtain ⟨c', happlied⟩ := ChainInterface.applyChanges_of_no_transactions crypto
      (c := c.push.storeAccountRecord crypto (retractedRecord r c.now publicData payRate)) rfl
    exact ⟨_, c', rfl, happlied⟩

/-! ### Two retractions -/

section Example

open Database (smallGenesis smallConfig Reachable reachable_smallGenesis)

/-- The owner of a delegate of the small chain retracts it, at the pay rate it has. -/
def retraction (accountId : ℤ) (ownerKey : PublicKey) : SignedTransaction where
  expiration := 200
  operations := [.updateAccount accountId none (some 0) 100]
  signatures := [ownerKey]

/-- The small chain after its first delegate is retracted. -/
def firstRetracted : Database :=
  smallGenesis.pushed .transparent 30 (smallGenesis.blockOn 1 20 [retraction 1 1])

/-- What is seen of a delegate that can be retracted. -/
def isActiveDelegate (ownerKey : PublicKey) (r : AccountRecord) : Bool :=
  !r.isRetracted && r.ownerKey == ownerKey && decide (FreePayRate r 100)

/-- Its retraction is a transaction that retracts it. -/
theorem retracts_retraction (accountId : ℤ) (ownerKey : PublicKey) (c : ChainInterface)
    (chainId : Digest) (h : isActiveDelegate ownerKey r = true)
    (hchecked : (checkTransaction .transparent c chainId (retraction accountId ownerKey)).isOk) :
    r.isRetracted = false ∧
      Retracts .transparent c chainId false accountId r (retraction accountId ownerKey) := by
  simp only [isActiveDelegate, Bool.and_eq_true, Bool.not_eq_true', beq_iff_eq,
    decide_eq_true_eq] at h
  obtain ⟨⟨hactive, rfl⟩, hrate⟩ := h
  obtain ⟨⟨⟩, hchecked⟩ := exists_eq_ok hchecked
  exact ⟨hactive, ⟨none, 100, hrate, rfl⟩, hchecked, _, rfl, List.mem_cons_self⟩

set_option maxRecDepth 100000 in
/-- At genesis the first delegate can be retracted. -/
theorem retraction_available_first : ∃ r,
    (smallGenesis.chain 30).getAccountRecord 1 = some r ∧
      ((∃ s c', evaluate .transparent (smallGenesis.chain 30).push smallGenesis.ledger.chainId
          (retraction 1 1) false false = .ok s ∧ s.currentState.applyChanges .transparent = .ok c') ↔
        (smallGenesis.chain 30).getAccountRecordByAddress (Crypto.transparent.keyAddress 0) = none ∧
          (smallGenesis.chain 30).now ≠ 0) := by
  have hfound : ((smallGenesis.chain 30).getAccountRecord 1).any (isActiveDelegate 1) = true := by
    decide +kernel
  obtain ⟨r, hr, hdelegate⟩ := (Option.any_eq_true _ _).1 hfound
  obtain ⟨hactive, hretracts⟩ := retracts_retraction 1 1 (smallGenesis.chain 30).push
    smallGenesis.ledger.chainId hdelegate (by decide +kernel)
  exact ⟨r, hr, retraction_available_iff hr hactive hretracts⟩

set_option maxRecDepth 100000 in
/-- **The second retraction is refused.** The first delegate is retracted in the first block; the
transaction that retracts the second one throws. -/
theorem second_retraction_refused : Reachable .transparent smallConfig firstRetracted ∧ ∃ r,
    (firstRetracted.chain 30).getAccountRecord 2 = some r ∧ r.isRetracted = false ∧
      Retracts .transparent (firstRetracted.chain 30).push firstRetracted.ledger.chainId
        (afterFork25 firstRetracted.headBlockNum) 2 r (retraction 2 2) ∧
      (evaluate .transparent (firstRetracted.chain 30).push firstRetracted.ledger.chainId
        (retraction 2 2) false (afterFork25 firstRetracted.headBlockNum)).isOk = false := by
  have hfound : ((firstRetracted.chain 30).getAccountRecord 2).any (isActiveDelegate 2) = true := by
    decide +kernel
  have hcanonical : afterFork25 firstRetracted.headBlockNum = false := by decide +kernel
  obtain ⟨r, hr, hdelegate⟩ := (Option.any_eq_true _ _).1 hfound
  obtain ⟨hactive, hretracts⟩ := retracts_retraction 2 2 (firstRetracted.chain 30).push
    firstRetracted.ledger.chainId hdelegate (by decide +kernel)
  rw [hcanonical]
  exact ⟨reachable_smallGenesis.pushed (by decide +kernel) (by decide +kernel), r, hr, hactive,
    hretracts, by decide +kernel⟩

end Example

end EvaluationState

end LarkX
