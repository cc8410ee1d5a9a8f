import LarkX.ForMathlib.Outcome
import LarkX.State.Interface

/-!
# The transaction builder

A `transaction_builder` keeps for every account and asset what the account still has to get from the
transaction, or to give to it. Finalizing the transaction takes the fee, and then levels every
balance by a deposit or by withdrawals.

What the wallet and its key store answer is given (`BuilderWallet`); how high the fee is, is
calculated from the chain.
-/

namespace LarkX

open Std (TransOrd LawfulEqOrd TransCmp)

/-- A `share_type`. -/
abbrev Share := { x : ℤ // IsInt64 x }

/-- A `share_type` that is calculated. -/
def Share.ofInt (x : ℤ) : Share :=
  ⟨wrap64 x, isInt64_wrap64 x⟩

/-- The account and the asset of an outstanding balance. -/
structure BalanceKey where
  account : Address
  assetId : ℤ
  deriving DecidableEq, Repr

/-- `operator <` of a pair. -/
instance : Ord BalanceKey :=
  ⟨compareLex (compareOn BalanceKey.account) (compareOn BalanceKey.assetId)⟩

instance : TransOrd BalanceKey :=
  inferInstanceAs (TransCmp
    (compareLex (compareOn BalanceKey.account) (compareOn BalanceKey.assetId)))

instance : LawfulEqOrd BalanceKey :=
  Table.lawfulEqCmp_compareLex fun _ _ ha hb => BalanceKey.mk.injEq .. ▸ ⟨ha, hb⟩

abbrev OutstandingBalances := Table BalanceKey Share

/-- `BTS_WALLET_DEFAULT_TRANSACTION_FEE`. -/
def btsWalletDefaultTransactionFee : ℤ := 100000

/-- A fee that `set_transaction_fee` accepts. -/
abbrev PriorityFee := { fee : Asset // 0 ≤ fee.amount ∧ IsInt64 fee.amount ∧ fee.assetId = 0 }

/-- The wallet a builder works for. -/
structure BuilderWallet where
  chain : ChainInterface
  crypto : Crypto
  /-- The property `default_transaction_priority_fee`, when it is set. -/
  defaultTransactionPriorityFee : Option PriorityFee
  /-- `select_delegate_vote( vote_recommended )`, which draws lots. -/
  selectDelegateVote : Fallible (List ℤ)
  /-- The name in `lookup_account( address )`. -/
  lookupAccount : Address → Fallible (Option Name)
  getAccountBalanceRecords : (accountName : Name) → (includeEmpty : Bool) →
    Fallible (Table Name (List BalanceRecord))
  /-- The key that `new_private_key` makes to level this balance. -/
  newPrivateKey : BalanceKey → Fallible PublicKey

/-- `transaction_builder`. -/
structure TransactionBuilder where
  /-- `trx.operations`. -/
  operations : List Operation := []
  /-- `transaction_record.fee`. -/
  fee : Asset := {}
  requiredSignatures : KeySet Address := ∅
  outstandingBalances : OutstandingBalances := ∅
  orderKeys : Table Address PublicKey := ∅

/-- A builder function: what it has changed stays changed when it throws. -/
abbrev BuilderM := EStateM Error TransactionBuilder

/-- `balance_record::owner()`. -/
def BalanceRecord.owner (r : BalanceRecord) : Fallible Address :=
  if r.condition.type = .signature then r.condition.signatureOwner else return 0

/-! ### The fee -/

namespace BuilderWallet

variable (w : BuilderWallet)

/-- `get_transaction_fee`. -/
def getTransactionFee (desiredFeeAssetId : ℤ) : Fallible Asset :=
  let xtsFee : Asset := w.defaultTransactionPriorityFee.elim ⟨btsWalletDefaultTransactionFee, 0⟩ (·.1)
  if desiredFeeAssetId = 0 then return xtsFee
  else do
    let assetRec ← orThrow (w.chain.getAssetRecord desiredFeeAssetId)
      (.assertion "asset_rec.valid()")
    if assetRec.isMarketIssued then
      match ← w.chain.getMedianDelegatePrice desiredFeeAssetId 0 with
      | some medianPrice => do
        let twice ← xtsFee.add xtsFee
        let thrice ← xtsFee.add twice
        thrice.mulPrice medianPrice
      | none => return xtsFee
    else return xtsFee

/-- `asset_can_pay_fee`. -/
def assetCanPayFee (desiredFeeAssetId : ℤ) : Fallible Bool := do
  let fee ← w.getTransactionFee desiredFeeAssetId
  return fee.assetId == desiredFeeAssetId

/-- `get_account_balances`. -/
def getAccountBalances (accountName : Name) (includeEmpty : Bool) :
    Fallible (Table Name (Table ℤ ℤ)) := do
  let items ← w.getAccountBalanceRecords accountName includeEmpty
  return items.map fun _ records => records.foldl (fun balances record =>
    balances.insert record.assetId (wrap64 ((balances[record.assetId]?).getD 0 + record.balance))) ∅

/-- The first of the available balances that covers the fee in its asset. -/
def chooseFee : List (ℤ × ℤ) → Fallible Asset
  | [] => return ⟨0, -1⟩
  | (assetId, available) :: rest => do
    if ← w.assetCanPayFee assetId then
      let fee ← w.getTransactionFee assetId
      if fee.amount ≤ available then return fee else chooseFee rest
    else chooseFee rest

/-- The first balance of an account on the chain that covers the fee in its asset. -/
def lunchMoney : List (ℤ × ℤ) → Fallible (Option Asset)
  | [] => return none
  | (assetId, amount) :: rest => do
    let fee ← w.getTransactionFee assetId
    if fee.assetId ≠ assetId ∨ amount < fee.amount then lunchMoney rest else return some fee

/-- The first account in the transaction that has such a balance. -/
def bagHolder (balances : Table Name (Table ℤ ℤ)) :
    List (BalanceKey × Share) → Fallible (Option (Address × Asset))
  | [] => return none
  | (key, _) :: rest => do
    let accountRec ← w.lookupAccount key.account
    match accountRec.bind fun name => balances[name]? with
    | none => bagHolder balances rest
    | some accountBalances => do
      match ← w.lunchMoney accountBalances.toList with
      | none => bagHolder balances rest
      | some fee => return some (key.account, fee)

end BuilderWallet

namespace TransactionBuilder

/-- The outstanding balance of an account in an asset. -/
def balance (balances : OutstandingBalances) (key : BalanceKey) : ℤ :=
  (balances[key]?).elim 0 Subtype.val

/-- `all_positive_balances`. -/
def allPositiveBalances (outstandingBalances : OutstandingBalances) : Table ℤ ℤ :=
  outstandingBalances.foldl (fun balances key amount =>
    if 0 < amount.1 then
      balances.insert key.assetId (wrap64 ((balances[key.assetId]?).getD 0 + amount.1))
    else balances) ∅

/-- `deduct_balance`. -/
def deductBalance (accountToCharge : Address) (amount : Asset) : BuilderM Unit := do
  ofExcept (require (0 ≤ amount.amount)
    (.assertion "Don't deduct a negative amount. Call credit_balance instead."))
  let key : BalanceKey := ⟨accountToCharge, amount.assetId⟩
  modify fun b => { b with
    outstandingBalances := b.outstandingBalances.insert key
      (.ofInt (balance b.outstandingBalances key - amount.amount)) }

/-- The loop of `pay_fee` over the outstanding balances: balances in the asset of the fee are eaten
until one covers what is left of it. Returns whether one does. -/
def payFrom (assetId : ℤ) : ℤ → List (BalanceKey × Share) → OutstandingBalances →
    OutstandingBalances × Bool
  | _, [], balances => (balances, false)
  | required, (key, amount) :: rest, balances =>
    if key.assetId ≠ assetId then payFrom assetId required rest balances
    else if amount.1 < required then
      payFrom assetId (wrap64 (required - amount.1)) rest (balances.insert key (.ofInt 0))
    else (balances.insert key (.ofInt (amount.1 - required)), true)

variable (w : BuilderWallet)

/-- `withdraw_fee`. -/
def withdrawFee : BuilderM Bool := do
  let balances ← ofExcept (w.getAccountBalances [] false)
  let b ← get
  match ← ofExcept (w.bagHolder balances b.outstandingBalances.toList) with
  | none => return false
  | some (bagHolder, fee) =>
    deductBalance bagHolder fee
    modify fun b => { b with fee := fee }
    return true

/-- `pay_fee`. -/
def payFee : BuilderM Unit := do
  let b ← get
  let requiredFee ← ofExcept (w.chooseFee (allPositiveBalances b.outstandingBalances).toList)
  let paid ←
    if requiredFee.assetId ≠ -1 then do
      let (balances, paid) := payFrom requiredFee.assetId requiredFee.amount
        b.outstandingBalances.toList b.outstandingBalances
      modify fun b => { b with fee := requiredFee, outstandingBalances := balances }
      pure paid
    else withdrawFee w
  if paid then return
  else throw (.assertion
    "Unable to pay fee; no remaining balances can cover it and no account can pay it.")

/-! ### Levelling the balances -/

/-- `transaction::withdraw`, and the signature that it requires. -/
def withdraw (record : BalanceRecord) (amount : ℤ) : BuilderM Unit := do
  ofExcept (require (0 < amount) (.assertion "amount: ${amount}"))
  modify fun b => { b with
    operations := b.operations ++
      [.withdraw (w.crypto.conditionAddress record.condition) amount .empty] }
  let owner ← ofExcept record.owner
  modify fun b => { b with requiredSignatures := b.requiredSignatures.insert owner () }

/-- The loop of `withdraw_to_transaction` over the balance records of the account. -/
def withdrawFrom : Asset → List BalanceRecord → BuilderM Unit
  | _, [] => throw .insufficientFunds
  | amountRemaining, record :: rest => do
    if record.balance ≤ 0 ∨ record.assetId ≠ amountRemaining.assetId then
      withdrawFrom amountRemaining rest
    else if record.balance < amountRemaining.amount then
      withdraw w record record.balance
      let left ← ofExcept (amountRemaining.sub ⟨record.balance, record.assetId⟩)
      withdrawFrom left rest
    else withdraw w record amountRemaining.amount

/-- `withdraw_to_transaction`. -/
def withdrawToTransaction (amountToWithdraw : Asset) (fromAccountName : Name) : BuilderM Unit := do
  ofExcept (require (fromAccountName ≠ []) (.assertion "!from_account_name.empty()"))
  let balanceRecords ← ofExcept (w.getAccountBalanceRecords fromAccountName true)
  let records ← ofExcept (orThrow balanceRecords[fromAccountName]? .insufficientFunds)
  withdrawFrom w amountToWithdraw records

/-- `order_key_for_account`. The key that is made for an account without one is not kept. -/
def orderKeyForAccount (key : BalanceKey) : BuilderM PublicKey := do
  let b ← get
  let orderKey := (b.orderKeys[key.account]?).getD 0
  set { b with orderKeys := b.orderKeys.insert key.account orderKey }
  if orderKey = 0 then ofExcept (w.newPrivateKey key) else return orderKey

/-- `transaction::deposit`. -/
def deposit (owner : Address) (amount : Asset) (slateId : SlateId) : BuilderM Unit := do
  ofExcept (require (0 < amount.amount) (.assertion "amount: ${amount}"))
  modify fun b => { b with
    operations := b.operations ++
      [.deposit amount.amount (.ofSignature owner amount.assetId slateId)] }

/-- The loop of `finalize`, for one outstanding balance. -/
def level (slateId : SlateId) (entry : BalanceKey × Share) : BuilderM Unit := do
  let balance : Asset := ⟨entry.2.1, entry.1.assetId⟩
  if balance.amount = 0 then return
  else if 0 < balance.amount then
    let depositKey ← orderKeyForAccount w entry.1
    deposit (w.crypto.keyAddress depositKey) balance slateId
  else
    let account ← ofExcept (w.lookupAccount entry.1.account)
    let accountName ← ofExcept (orThrow account .optionalNotSet)
    withdrawToTransaction w balance.neg accountName

/-- The slate that `finalize` chooses is defined, and its id taken, when the chain has none of this
id. -/
def defineSlate (slate : List ℤ) : BuilderM SlateId := do
  let slateId := w.crypto.slateId slate
  if 0 < slate.length ∧ w.chain.getDelegateSlate slateId = none then
    modify fun b => { b with operations := b.operations ++ [.defineDelegateSlate slate] }
    return slateId
  else return 0

/-- `finalize`. -/
def finalize : BuilderM Unit := do
  let b ← get
  ofExcept (require (b.operations ≠ []) (.assertion "Cannot finalize empty transaction"))
  let slate ← ofExcept w.selectDelegateVote
  let slateId ← defineSlate w slate
  payFee w
  let b ← get
  b.outstandingBalances.toList.forM (level w slateId)

end TransactionBuilder

end LarkX
