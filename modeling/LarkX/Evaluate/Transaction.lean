import LarkX.Evaluate.Account
import LarkX.Evaluate.Balance
import LarkX.Evaluate.Market

/-!
# Evaluating a transaction

`transaction_evaluation_state::evaluate`: the checks on expiration and repetition, the
recovery of the signing keys, the operations one by one, then the fees, and last the votes.
-/

namespace LarkX

namespace EvaluationState

variable (crypto : Crypto)

/-- The `evaluate` of an operation, by its type. -/
def evaluateOperation (s : EvaluationState) : Operation → Fallible EvaluationState
  | .withdraw balanceId amount data => s.withdraw crypto balanceId amount data
  | .deposit amount condition => s.deposit crypto amount condition
  | .claim balanceId amount source dest sig => s.claim crypto balanceId amount source dest sig
  | .burn amount accountId message _ => s.burn amount accountId message
  | .registerAccount name publicData ownerKey activeKey payRate metaData =>
    s.registerAccount crypto name publicData ownerKey activeKey payRate metaData
  | .updateAccount accountId publicData activeKey payRate =>
    s.updateAccount crypto accountId publicData activeKey payRate
  | .withdrawPay amount accountId => s.withdrawPay crypto amount accountId
  | .defineDelegateSlate slate => s.defineDelegateSlate crypto slate
  | .bid amount index => s.bid amount index
  | .ask amount index => s.ask amount index
  | .short amount index limit => s.short amount index limit
  | .cover amount index newPrice => s.cover crypto amount index newPrice
  | .addCollateral amount index => s.addCollateral amount index
  | .updateFeed feed value => s.updateFeed crypto feed value
  | .withdrawAll => throw (.assertion "Withdraw all operation is not enabled yet!")
  | .removeCollateral => throw (.assertion "Not implemented!")
  | .linkAccount => throw (.assertion "Link account operation is not enabled yet!")
  | .releaseEscrow => throw (.assertion "Release escrow operation is not enabled yet!")
  | .unknown _ => throw (.assertion "unsupported_chain_operation")

/-- The operations of a transaction, in order. -/
def evaluateOperations (s : EvaluationState) (ops : List Operation) : Fallible EvaluationState :=
  ops.foldlM (evaluateOperation crypto) s

/-! ### Fees -/

/-- The first pass of `post_evaluate` over one balance: what it adds to the fees paid in other
assets, at two thirds of the median price. -/
def addAltFee (s : EvaluationState) (fee : ℤ × ℤ) : Fallible EvaluationState := do
  require (0 ≤ fee.2) .negativeFee
  if fee.1 = 0 ∨ fee.2 = 0 then return s
  else do
    let r ← orThrow (s.currentState.getAssetRecord fee.1) (.unknownAssetId fee.1)
    if r.isMarketIssued then do
      match ← s.currentState.getMedianDelegatePrice fee.1 0 with
      | some medianPrice => do
        let paid ← Asset.mulPrice ⟨(wrap64 (fee.2 * 2)).tdiv 3, fee.1⟩ medianPrice
        let altFeesPaid ← s.altFeesPaid.add paid
        return { s with altFeesPaid }
      | none => return s
    else return s

/-- The second pass over one balance: what is left over is collected as fees. -/
def collectFee (s : EvaluationState) (fee : ℤ × ℤ) : Fallible EvaluationState := do
  require (0 ≤ fee.2) .negativeFee
  if 0 < fee.2 then do
    let r ← orThrow (s.currentState.getAssetRecord fee.1) (.unknownAssetId fee.1)
    let r := { r with collectedFees := wrap64 (r.collectedFees + fee.2) }
    return s.withState (s.currentState.storeAssetRecord r)
  else return s

/-- `post_evaluate()`. -/
def postEvaluate (s : EvaluationState) : Fallible EvaluationState := do
  let s := { s with balance := s.balance.insert 0 (s.balanceOf 0) }
  let s ← s.balance.toList.foldlM addAltFee s
  s.balance.toList.foldlM collectFee s

/-- `validate_required_fee()`. -/
def validateRequiredFee (s : EvaluationState) : Fallible Unit := do
  let xtsFees ← ({} : Asset).add ⟨s.balanceOf 0, 0⟩
  let xtsFees ← xtsFees.add s.altFeesPaid
  require (s.requiredFees.amount ≤ xtsFees.amount) .insufficientFee

/-- `update_delegate_votes()` for one delegate. -/
def updateDelegateVote (s : EvaluationState) (delVote : ℤ × ℤ) : Fallible EvaluationState := do
  let r ← orThrow (s.currentState.getAccountRecord delVote.1) (.assertion "!!del_rec")
  let r ← r.adjustVotesFor delVote.2
  return s.withState (s.currentState.storeAccountRecord crypto r)

/-- `update_delegate_votes()`. -/
def updateDelegateVotes (s : EvaluationState) : Fallible EvaluationState :=
  s.netDelegateVotes.toList.foldlM (updateDelegateVote crypto) s

/-! ### The transaction -/

/-- The addresses one signature stands for. -/
def signatureAddresses (key : PublicKey) : List Address :=
  [crypto.keyAddress key,
    crypto.ptsToAddress (crypto.ptsAddress key false 28),
    crypto.ptsToAddress (crypto.ptsAddress key true 28),
    crypto.ptsToAddress (crypto.ptsAddress key false 56),
    crypto.ptsToAddress (crypto.ptsAddress key true 56),
    crypto.ptsToAddress (crypto.ptsAddress key false 0),
    crypto.ptsToAddress (crypto.ptsAddress key true 0)]

/-- The addresses that signed: recovered from every signature over the digest. -/
def recoverSignedKeys (digest : Digest) (enforceCanonical : Bool) (signatures : List Signature) :
    Fallible (List Address) :=
  signatures.foldlM (fun keys sig => do
    let key ← orThrow (crypto.recover sig digest enforceCanonical)
      (.assertion "public key recovery")
    return keys ++ signatureAddresses crypto key) []

/-- The checks of `evaluate` before the first operation. -/
def checkTransaction (c : ChainInterface) (chainId : Digest) (trx : SignedTransaction) :
    Fallible Unit := do
  require (c.now < trx.expiration) .expiredTransaction
  require (trx.expiration ≤ c.now + btsBlockchainMaxTransactionExpirationSec)
    .invalidTransactionExpiration
  require (¬(c.isKnownTransaction trx.expiration
      (crypto.transactionDigest trx.toTransaction chainId) = true ∧
    atOrAfterFork25 c.headBlockNum = true)) (.duplicateTransaction (crypto.transactionId trx))

/-- The state of the evaluation before the first operation. -/
def initial (c : ChainInterface) (chainId : Digest) (trx : SignedTransaction)
    (skipSignatureCheck : Bool) (signedKeys : List Address) : EvaluationState :=
  { trx, signedKeys, currentState := c, chainId, skipSignatureCheck }

/-- `transaction_evaluation_state( c, chain_id ).evaluate( trx, skip, enforce_canonical )`. -/
def evaluate (c : ChainInterface) (chainId : Digest) (trx : SignedTransaction)
    (skipSignatureCheck enforceCanonical : Bool) : Fallible EvaluationState := do
  checkTransaction crypto c chainId trx
  let signedKeys ← if skipSignatureCheck then pure [] else
    recoverSignedKeys crypto (crypto.transactionDigest trx.toTransaction chainId) enforceCanonical
      trx.signatures
  let s := initial c chainId trx skipSignatureCheck signedKeys
  let s ← s.evaluateOperations crypto trx.operations
  let s ← s.postEvaluate
  s.validateRequiredFee
  s.updateDelegateVotes crypto

end EvaluationState

end LarkX
