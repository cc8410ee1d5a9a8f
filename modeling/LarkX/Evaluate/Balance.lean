import LarkX.Evaluate.State

/-!
# Balance operations

`balance_operations.cpp`: deposits, withdrawals with their yield, claims of genesis balances,
burns and the definition of delegate slates. Each function is the `evaluate` of its operation,
checks and updates in the order of the source.
-/

namespace LarkX

namespace EvaluationState

variable (crypto : Crypto)

/-! ### Fixed-width helpers -/

/-- A signed 64-bit value converted to `fc::uint128`. -/
def toUint128 (x : ℤ) : ℕ :=
  (x % 2 ^ 128).toNat

/-- Division of `fc::uint128` values; dividing by zero throws. -/
def divUint128 (a b : ℕ) : Fallible ℕ := do
  require (b ≠ 0) (.assertion "division by zero")
  return a / b

/-! ### Yield -/

/-- The share of the fee fund, in millionths, after the discount for balances younger than a
year. -/
def scaledYield (yield elapsed : ℕ) : ℕ :=
  if elapsed < btsBlockchainSecondsPerYear then
    let discounted := yield * 8 % 2 ^ 128 / 10
    let delta := (yield + 2 ^ 128 - discounted) % 2 ^ 128
    let simple := discounted * elapsed % 2 ^ 128 / btsBlockchainSecondsPerYear
    let once := delta * elapsed % 2 ^ 128 / btsBlockchainSecondsPerYear
    let twice := once * elapsed % 2 ^ 128 / btsBlockchainSecondsPerYear
    (simple + twice) % 2 ^ 128
  else yield

/-- `balance_record::calculate_yield`. -/
def calculateYield (r : BalanceRecord) (now : ℕ) (amount yieldPool shareSupply : ℤ) :
    Fallible ℤ :=
  let elapsed : ℤ := now - r.depositDate
  if amount ≤ 0 ∨ shareSupply ≤ 0 ∨ yieldPool ≤ 0 ∨ elapsed ≤ btsBlockchainMinYieldPeriodSec then
    return 0
  else do
    let amountWithdrawn := toUint128 amount * 1000000 % 2 ^ 128
    let currentSupply := toUint128 (wrap64 (shareSupply - yieldPool))
    let yield ← divUint128 (amountWithdrawn * toUint128 yieldPool % 2 ^ 128) currentSupply
    let yieldAmount := scaledYield yield elapsed.toNat / 1000000
    require (yieldAmount < 2 ^ 64) (.assertion "hi == 0")
    return if 0 < yieldAmount ∧ (yieldAmount : ℤ) < yieldPool then yieldAmount else 0

/-- A yield is never negative, and below the pool it is paid from. -/
theorem calculateYield_bounds {r : BalanceRecord} {now : ℕ} {amount yieldPool shareSupply y : ℤ}
    (h : calculateYield r now amount yieldPool shareSupply = .ok y) :
    0 ≤ y ∧ (0 < y → y < yieldPool) := by
  unfold calculateYield at h
  simp only [ite_eq_ok, pure_eq_ok, bind_eq_ok, require_eq_ok] at h
  rcases h with ⟨-, rfl⟩ | ⟨-, _, -, _, -, h⟩
  · exact ⟨le_rfl, fun h => absurd h (lt_irrefl 0)⟩
  · split at h
    · rename_i hpos
      subst h
      exact ⟨Int.natCast_nonneg _, fun _ => hpos.2⟩
    · subst h
      exact ⟨le_rfl, fun h => absurd h (lt_irrefl 0)⟩

/-- The yield of a withdrawal from a market-issued asset moves from the collected fees to the
balance. -/
def payYield (s : EvaluationState) (r : BalanceRecord) :
    Fallible (EvaluationState × BalanceRecord) := do
  let assetRec ← orThrow (s.currentState.getAssetRecord r.condition.assetId)
    (.assertion "asset_rec.valid()")
  if assetRec.isMarketIssued then
    let yield ← calculateYield r s.currentState.now r.balance assetRec.collectedFees
      assetRec.currentShareSupply
    if 0 < yield then
      let assetRec := { assetRec with collectedFees := wrap64 (assetRec.collectedFees - yield) }
      let r := { r with
        balance := wrap64 (r.balance + yield)
        depositDate := s.currentState.now }
      return (s.withState (s.currentState.storeAssetRecord assetRec), r)
    else return (s, r)
  else return (s, r)

/-! ### Deposits -/

/-- The deposit date after a deposit: the average of the old date and now, weighted by the
amounts. -/
def averageDepositDate (r : BalanceRecord) (now : ℕ) (amount : ℤ) : Fallible ℕ := do
  let sum := (r.depositDate * toUint128 r.balance % 2 ^ 128
    + now * toUint128 amount % 2 ^ 128) % 2 ^ 128
  let avg ← divUint128 sum (toUint128 (wrap64 (r.balance + amount)))
  require (avg < 2 ^ 32) (.assertion "lo == lo32")
  return avg

/-- `deposit_operation::evaluate`. -/
def deposit (s : EvaluationState) (amount : ℤ) (condition : WithdrawCondition) :
    Fallible EvaluationState := do
  require (0 < amount) (.negativeDeposit amount)
  let balanceId := crypto.conditionAddress condition
  let now := s.currentState.now
  let r := (s.currentState.getBalanceRecord balanceId).getD { condition }
  let depositDate ← if r.balance = 0 then pure now else averageDepositDate r now amount
  let r := { r with lastUpdate := now, depositDate, balance := wrap64 (r.balance + amount) }
  let s ← s.subBalance balanceId ⟨amount, r.condition.assetId⟩
  let s ← if r.condition.assetId = 0 ∧ r.condition.delegateSlateId ≠ 0 then
      s.adjustVote r.condition.delegateSlateId amount
    else pure s
  return s.withState (s.currentState.storeBalanceRecord crypto r)

/-! ### Claims -/

/-- `validate_claim_signature()`: the key recovered from the claim signature has the external
address `source`. -/
def validateClaimSignature (source : PtsAddress) (dest : PublicKey) (sig : Signature) :
    Fallible Unit := do
  let key ← orThrow (crypto.recover sig (crypto.claimHash source dest) false)
    (.assertion "public key recovery")
  require (crypto.ptsAddress key true source.version = source) (.assertion "signed_by == source")

/-- `check_claim_input`: the balance exists, is in the base asset and is of the genesis. -/
def checkClaimInput (s : EvaluationState) (id : BalanceId) : Fallible BalanceRecord := do
  let r ← orThrow (s.currentState.getBalanceRecord id) (.unknownBalanceRecord id)
  require (r.condition.assetId = 0) (.assertion "Can only claim XCL from genesis!")
  require (r.genesisInfo.isSome = true) (.assertion "Can only claim genesis balances!")
  return r

/-- `withdraw_claim_input`: the whole balance is withdrawn. -/
def withdrawClaimInput (s : EvaluationState) (amount : ℤ) (r : BalanceRecord) :
    Fallible EvaluationState := do
  require (r.balance = amount) (.assertion "balance_record.balance == amount")
  let s ← if r.condition.delegateSlateId ≠ 0 then
      s.adjustVote r.condition.delegateSlateId (wrap64 (-amount))
    else pure s
  let r := { r with balance := 0, lastUpdate := s.currentState.now }
  let s := s.withState (s.currentState.storeBalanceRecord crypto r)
  s.addBalance ⟨amount, 0⟩

/-- `claim_operation::evaluate`. -/
def claim (s : EvaluationState) (balanceId : BalanceId) (amount : ℤ) (source : PtsAddress)
    (dest : PublicKey) (sig : Signature) : Fallible EvaluationState := do
  validateClaimSignature crypto source dest sig
  let r ← s.checkClaimInput balanceId
  let s ← s.withdrawClaimInput crypto amount r
  require (s.checkSignature (crypto.keyAddress dest) = true)
    (.missingSignature (crypto.keyAddress dest))
  return s

/-! ### Withdrawals -/

/-- The addresses a key may stand for in a `withdraw_with_pts`. -/
def withdrawWithPtsAddresses (key : PublicKey) : List Address :=
  [crypto.keyAddress key,
    crypto.ptsToAddress (crypto.ptsAddress key false 56),
    crypto.ptsToAddress (crypto.ptsAddress key true 56),
    crypto.ptsToAddress (crypto.ptsAddress key false 0),
    crypto.ptsToAddress (crypto.ptsAddress key true 0)]

/-- The check of the withdraw condition. -/
def checkWithdrawCondition (s : EvaluationState) (condition : WithdrawCondition)
    (claimInputData : ClaimInputData) : Fallible Unit :=
  match condition.type with
  | .signature => do
    let owner ← condition.signatureOwner
    match claimInputData with
    | .empty => require (s.checkSignature owner = true) (.missingSignature owner)
    | .malformed => throw .badCast
    | .withPts newKey ptsSignature => do
      let prop ← s.currentState.getProperty .chainId
      let chainId ← prop.asHash
      let testKey ← orThrow
        (crypto.recover ptsSignature (crypto.withdrawWithPtsDigest chainId newKey) true)
        (.assertion "public key recovery")
      require (owner ∈ withdrawWithPtsAddresses crypto testKey) (.missingSignature owner)
      require (s.checkSignature (crypto.keyAddress newKey) = true)
        (.missingSignature (crypto.keyAddress newKey))
  | .multiSig | .password | .option => throw (.assertion "Not supported yet!")
  | .null | .escrow | .unknown _ => throw .invalidWithdrawCondition

/-- `withdraw_operation::evaluate`. -/
def withdraw (s : EvaluationState) (balanceId : BalanceId) (amount : ℤ)
    (claimInputData : ClaimInputData) : Fallible EvaluationState := do
  require (0 < amount) (.negativeDeposit amount)
  let r ← orThrow (s.currentState.getBalanceRecord balanceId) (.unknownBalanceRecord balanceId)
  require (amount ≤ r.balance) .insufficientFunds
  s.checkWithdrawCondition crypto r.condition claimInputData
  let s ← if r.condition.assetId = 0 ∧ r.condition.delegateSlateId ≠ 0 then
      s.adjustVote r.condition.delegateSlateId (-amount)
    else pure s
  let (s, r) ← s.payYield r
  let r := { r with
    balance := wrap64 (r.balance - amount)
    lastUpdate := s.currentState.now }
  let s := s.withState (s.currentState.storeBalanceRecord crypto r)
  s.addBalance ⟨amount, r.condition.assetId⟩

/-! ### Burns and slates -/

/-- `burn_operation::evaluate`. -/
def burn (s : EvaluationState) (amount : Asset) (accountId : ℤ) (message : List Char) :
    Fallible EvaluationState := do
  require (message = [] ∨ amount.assetId = 0) (.assertion "amount.asset_id == 0")
  require (amount.assetId ≠ 0 ∨ btsBlockchainMinBurnFee ≤ amount.amount)
    (.assertion "amount.amount >= BTS_BLOCKCHAIN_MIN_BURN_FEE")
  let assetRec ← orThrow (s.currentState.getAssetRecord amount.assetId)
    (.assertion "asset_rec.valid()")
  require (assetRec.isMarketIssued = false) (.assertion "!asset_rec->is_market_issued()")
  let assetRec := { assetRec with
    currentShareSupply := wrap64 (assetRec.currentShareSupply - amount.amount) }
  let s := s.withState (s.currentState.storeAssetRecord assetRec)
  let s ← s.subBalance 0 amount
  require (accountId = 0 ∨ (s.currentState.getAccountRecord |accountId|).isSome = true)
    (.assertion "account_rec.valid()")
  return s

/-- `define_delegate_slate_operation::evaluate`. -/
def defineDelegateSlate (s : EvaluationState) (supportedDelegates : List ℤ) :
    Fallible EvaluationState := do
  let slateId := crypto.slateId supportedDelegates
  require (supportedDelegates.length ≤ btsBlockchainMaxSlateSize)
    (.tooMayDelegatesInSlate supportedDelegates.length)
  match s.currentState.getDelegateSlate slateId with
  | some _ => return s
  | none => do
    supportedDelegates.forM fun delegateId => s.verifyDelegateId |delegateId|
    return s.withState (s.currentState.storeDelegateSlate slateId supportedDelegates)

end EvaluationState

end LarkX
