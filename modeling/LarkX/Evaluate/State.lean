import LarkX.State.Interface

/-!
# The evaluation state of a transaction

`transaction_evaluation_state` runs the operations of one transaction against a chain state
and keeps the books of the transaction: the running balance of each asset (withdrawals minus
deposits), the totals deposited and withdrawn, the fees required and the votes to move. This
file has its bookkeeping and the checks the operations share.

The running balance is updated with plain 64-bit `+=` and `-=`; the totals next to it are
`asset` values, whose addition throws on overflow.
-/

namespace LarkX

/-- `transaction_evaluation_state`. -/
structure EvaluationState where
  trx : SignedTransaction := {}
  signedKeys : List Address := []
  providedDeposits : Table BalanceId Asset := ∅
  deposits : Table ℤ Asset := ∅
  withdraws : Table ℤ Asset := ∅
  requiredFees : Asset := {}
  altFeesPaid : Asset := {}
  balance : Table ℤ ℤ := ∅
  netDelegateVotes : Table ℤ ℤ := ∅
  currentState : ChainInterface
  chainId : Digest
  skipSignatureCheck : Bool := false

namespace EvaluationState

/-! ### Signatures -/

/-- `check_signature( a )`. -/
def checkSignature (s : EvaluationState) (a : Address) : Bool :=
  s.skipSignatureCheck || s.signedKeys.contains a

/-- One parent account has signed, with its active or its owner key, and is not retracted. -/
def parentHasSigned (crypto : Crypto) (s : EvaluationState) (parent : Name) : Bool :=
  match s.currentState.getAccountRecordByName parent with
  | some r => !r.isRetracted && (s.checkSignature (crypto.keyAddress r.activeKey) ||
      s.checkSignature (crypto.keyAddress r.ownerKey))
  | none => false

/-- `any_parent_has_signed( name )`: the parents are what follows each dot of the name. -/
def anyParentHasSigned (crypto : Crypto) (s : EvaluationState) : Name → Bool
  | [] => false
  | c :: cs => (c == '.' && parentHasSigned crypto s cs) || anyParentHasSigned crypto s cs

/-- `account_or_any_parent_has_signed( record )`. -/
def accountOrAnyParentHasSigned (crypto : Crypto) (s : EvaluationState) (r : AccountRecord) :
    Bool :=
  (!r.isRetracted && (s.checkSignature (crypto.keyAddress r.activeKey) ||
    s.checkSignature (crypto.keyAddress r.ownerKey))) || anyParentHasSigned crypto s r.name

/-! ### Checks -/

/-- `verify_delegate_id( id )`. -/
def verifyDelegateId (s : EvaluationState) (id : ℤ) : Fallible Unit := do
  let r ← orThrow (s.currentState.getAccountRecord id) (.unknownAccountId id)
  require (r.isDelegate = true) (.notADelegate id)

/-- `validate_asset( a )`. -/
def validateAsset (s : EvaluationState) (a : Asset) : Fallible Unit := do
  let _ ← orThrow (s.currentState.getAssetRecord a.assetId) (.unknownAssetId a.assetId)
  return ()

/-! ### Bookkeeping -/

/-- Add to a total kept as an `asset`, from nothing at its first entry. -/
def addTotal {κ : Type} [Ord κ] [Std.TransOrd κ] (t : Table κ Asset) (k : κ) (a : Asset) :
    Fallible (Table κ Asset) :=
  match t[k]? with
  | none => return t.insert k a
  | some total => do
    let total ← total.add a
    return t.insert k total

/-- The running balance of an asset, `0` before its first entry. -/
def balanceOf (s : EvaluationState) (assetId : ℤ) : ℤ :=
  s.balance[assetId]?.getD 0

/-- `sub_balance( balance_id, amount )`: funds leave the transaction for a deposit or an
order; the null id marks an order. -/
def subBalance (s : EvaluationState) (balanceId : BalanceId) (amount : Asset) :
    Fallible EvaluationState := do
  let providedDeposits ←
    if balanceId ≠ 0 then addTotal s.providedDeposits balanceId amount
    else pure s.providedDeposits
  let deposits ← addTotal s.deposits amount.assetId amount
  let balance := s.balance.insert amount.assetId (wrap64 (s.balanceOf amount.assetId - amount.amount))
  return { s with providedDeposits, deposits, balance }

/-- `add_balance( amount )`: funds enter the transaction. -/
def addBalance (s : EvaluationState) (amount : Asset) : Fallible EvaluationState := do
  let withdraws ← addTotal s.withdraws amount.assetId amount
  let balance := s.balance.insert amount.assetId (wrap64 (s.balanceOf amount.assetId + amount.amount))
  return { s with withdraws, balance }

/-- Add to the votes of one delegate. -/
def addNetVotes (s : EvaluationState) (delegateId delta : ℤ) : EvaluationState :=
  let votes := wrap64 (s.netDelegateVotes[delegateId]?.getD 0 + delta)
  { s with netDelegateVotes := s.netDelegateVotes.insert delegateId votes }

/-- `adjust_vote( slate_id, amount )`: negative votes are switched off, so an entry and its
opposite both count for the delegate. -/
def adjustVote (s : EvaluationState) (slateId : SlateId) (amount : ℤ) :
    Fallible EvaluationState :=
  if slateId ≠ 0 then do
    let slate ← orThrow (s.currentState.getDelegateSlate slateId) (.unknownDelegateSlate slateId)
    return slate.foldl (fun s delegateId => s.addNetVotes |delegateId| amount) s
  else return s

/-- Run a change of the chain state. -/
def withState (s : EvaluationState) (c : ChainInterface) : EvaluationState :=
  { s with currentState := c }

/-- Raise the required fees. -/
def requireFee (s : EvaluationState) (amount : ℤ) : Fallible EvaluationState := do
  let requiredFees ← s.requiredFees.add ⟨amount, 0⟩
  return { s with requiredFees }

end EvaluationState

end LarkX
