import LarkX.ForMathlib.Fallible
import LarkX.ForMathlib.Int64
import LarkX.ForMathlib.Table

/-!
# Scalars, assets and prices

The numeric ground of the chain: identifiers, the constants of the build, the errors the
code throws, and the fixed-point arithmetic of assets and prices.

* Shares are signed 64-bit values. The record fields are updated with plain `+=`, which wraps
  (`wrap64`); the `asset` type checks for overflow and throws.
* A price is a ratio scaled by `btsPricePrecision`, kept in 128 bits, together with the two
  asset ids. Its order compares the ids before the ratio, its equality only the ratio.
* Hashes, keys and addresses are opaque values; `0` stands for the value a default
  constructor gives.
-/

namespace LarkX

open Std (TransOrd LawfulEqOrd TransCmp)

/-! ### Identifiers

Asset, account and feed ids (`fc::signed_int`) and share amounts (`int64_t`) are integers,
times (`fc::time_point_sec`) and block numbers are natural numbers. -/

abbrev BlockId := ℕ
abbrev TransactionId := ℕ
abbrev Digest := ℕ
abbrev Address := ℕ
abbrev BalanceId := Address
abbrev PublicKey := ℕ
abbrev Signature := ℕ
abbrev SecretHash := ℕ
abbrev SlateId := ℕ
abbrev Name := List Char

/-! ### Constants of the build -/

/-- `BTS_BLOCKCHAIN_PRECISION`: shares per XCL. -/
def btsBlockchainPrecision : ℤ := 100000
/-- `BTS_BLOCKCHAIN_MAX_SHARES`. -/
def btsBlockchainMaxShares : ℤ := 1000000000000000
/-- `BTS_BLOCKCHAIN_INITIAL_SHARES`. -/
def btsBlockchainInitialShares : ℤ := btsBlockchainMaxShares / 100
/-- `BTS_PRICE_PRECISION`: the fixed point of prices. -/
def btsPricePrecision : ℕ := 1000000000000000000
/-- `BTS_BLOCKCHAIN_MAX_TRANSACTION_EXPIRATION_SEC`: two days. -/
def btsBlockchainMaxTransactionExpirationSec : ℕ := 60 * 60 * 24 * 2
/-- `BTS_BLOCKCHAIN_MIN_YIELD_PERIOD_SEC`: one day. -/
def btsBlockchainMinYieldPeriodSec : ℤ := 60 * 60 * 24
/-- `BTS_BLOCKCHAIN_MIN_BURN_FEE`: 10 XCL. -/
def btsBlockchainMinBurnFee : ℤ := btsBlockchainPrecision * 10
/-- `BTS_BLOCKCHAIN_MAX_SHORT_PERIOD_SEC`: two hours. -/
def btsBlockchainMaxShortPeriodSec : ℕ := 2 * 60 * 60
/-- `BTS_BLOCKCHAIN_NUM_DELEGATES`. -/
def btsBlockchainNumDelegates : ℕ := 101
/-- `BTS_BLOCKCHAIN_MAX_SLATE_SIZE`. -/
def btsBlockchainMaxSlateSize : ℕ := btsBlockchainNumDelegates + btsBlockchainNumDelegates / 10
/-- `BTS_BLOCKCHAIN_MIN_FEEDS`. -/
def btsBlockchainMinFeeds : ℕ := btsBlockchainNumDelegates / 2 + 1
/-- `BTS_BLOCKCHAIN_MAX_UNDO_HISTORY`. -/
def btsBlockchainMaxUndoHistory : ℕ := btsBlockchainNumDelegates * 4
/-- `BTS_MAX_DELEGATE_PAY_PER_BLOCK`: 1 XCL. -/
def btsMaxDelegatePayPerBlock : ℤ := btsBlockchainPrecision
/-- `BTS_BLOCKCHAIN_DEFAULT_RELAY_FEE`: 0.1 XCL. -/
def btsBlockchainDefaultRelayFee : ℤ := btsBlockchainPrecision / 10
/-- `BTS_BLOCKCHAIN_MAX_PENDING_QUEUE_SIZE`. -/
def btsBlockchainMaxPendingQueueSize : ℕ := 10
/-- `BTS_BLOCKCHAIN_BLOCK_INTERVAL_SEC`. -/
def btsBlockchainBlockIntervalSec : ℕ := 10
/-- `BTS_BLOCKCHAIN_BLOCKS_PER_DAY`. -/
def btsBlockchainBlocksPerDay : ℤ := 60 * 60 / 10 * 24
/-- `BTS_BLOCKCHAIN_BLOCKS_PER_YEAR * BTS_BLOCKCHAIN_BLOCK_INTERVAL_SEC`. -/
def btsBlockchainSecondsPerYear : ℕ := 60 * 60 / 10 * 24 * 365 * 10
/-- `BTS_BLOCKCHAIN_DELEGATE_REGISTRATION_FEE`. -/
def btsBlockchainDelegateRegistrationFee : ℤ := btsBlockchainBlocksPerDay * 14
/-- `BTS_BLOCKCHAIN_MIN_NAME_SIZE` and `BTS_BLOCKCHAIN_MAX_NAME_SIZE`. -/
def btsBlockchainMinNameSize : ℕ := 1
def btsBlockchainMaxNameSize : ℕ := 63
/-- `PTS_INITIAL_MIN_LENGTH`. -/
def ptsInitialMinLength : ℕ := 5
/-- `PTS_ACCOUNT_REG_FEE`: 10 XCL. -/
def ptsAccountRegFee : ℤ := 1000000
/-- `GENESIS_VOTE_PERMILLE`. -/
def genesisVotePermille : ℕ := 80

/-- `FORK_25`, defined as `-1`. -/
def fork25 : ℤ := -1

/-- `block_num >= FORK_25` for a 32-bit unsigned block number: the comparison converts the
signed constant to unsigned, so it holds only from block `2 ^ 32 - 1` on. -/
def atOrAfterFork25 (blockNum : ℕ) : Bool :=
  decide (fork25 % 2 ^ 32 ≤ (blockNum : ℤ))

/-- `block_num > FORK_25`, likewise. -/
def afterFork25 (blockNum : ℕ) : Bool :=
  decide (fork25 % 2 ^ 32 < (blockNum : ℤ))

/-! ### Errors -/

/-- The exceptions of `exceptions.hpp` the modelled code throws. `assertion` is a failed
`FC_ASSERT` with the text it carries (or the expression, where it carries none). -/
inductive Error
  | assertion (text : String)
  | badCast
  | keyNotFound
  | additionOverflow
  | subtractionOverflow
  | assetTypeMismatch
  | assetDivideBySelf
  | assetDivideByZero
  | duplicateTransaction (id : TransactionId)
  | zeroAmount
  | zeroPrice
  | unlinkableBlock
  | blockNumbersNotSequential
  | invalidPreviousBlockId
  | invalidBlockTime
  | timeInPast
  | timeInFuture
  | invalidBlockDigest
  | invalidDelegateSignee
  | failedCheckpointVerification
  | blockOlderThanUndoHistory
  | negativeDeposit (amount : ℤ)
  | notADelegate (id : ℤ)
  | unknownBalanceRecord (id : BalanceId)
  | insufficientFunds
  | missingSignature (owner : Address)
  | invalidWithdrawCondition
  | negativeWithdraw (amount : ℤ)
  | expiredTransaction
  | invalidTransactionExpiration
  | invalidAccountName (name : Name)
  | unknownAccountId (id : ℤ)
  | missingParentAccountSignature
  | accountAlreadyRegistered (name : Name)
  | accountKeyInUse (key : PublicKey)
  | accountRetracted
  | unknownDelegateSlate (id : SlateId)
  | tooMayDelegatesInSlate (size : ℕ)
  | unknownAssetId (id : ℤ)
  | insufficientFee
  | negativeFee
  | missingDeposit
  | unknownMarketOrder
  | insufficientFeeds (quote : ℤ)
  | unknownBlock (id : BlockId)
  /-- Not an exception: the call does not return. -/
  | hang
  /-- Not an exception: a vector is read past its end, which has no defined result. -/
  | outOfBounds
  /-- Not an exception: an optional that is not set is read, which has no defined result. -/
  | optionalNotSet
  | unknownAssetSymbol (symbol : Name)
  | insufficientRelayFee (fees requiredFees : ℤ)
  | parseError (text : String)
  | wrongChainId
  deriving DecidableEq, Repr

/-- A program that may throw. -/
abbrev Fallible (α : Type) := Except Error α

/-! ### Assets -/

/-- An amount of one asset. -/
structure Asset where
  amount : ℤ := 0
  assetId : ℤ := 0
  deriving DecidableEq, Repr

namespace Asset

/-- `asset::operator +=`: throws on a mismatch and on 64-bit overflow. -/
def add (a o : Asset) : Fallible Asset := do
  require (a.assetId = o.assetId) (.assertion "this->asset_id == o.asset_id")
  require (¬((0 < o.amount ∧ int64Max - o.amount < a.amount) ∨
    (o.amount < 0 ∧ a.amount < int64Min - o.amount))) .additionOverflow
  return { a with amount := a.amount + o.amount }

/-- `asset::operator -=`: throws on a mismatch and on 64-bit overflow. -/
def sub (a o : Asset) : Fallible Asset := do
  require (a.assetId = o.assetId) (.assertion "asset_id == o.asset_id")
  require (¬((0 < o.amount ∧ a.amount < int64Min + o.amount) ∨
    (o.amount < 0 ∧ int64Max + o.amount < a.amount))) .subtractionOverflow
  return { a with amount := a.amount - o.amount }

/-- `asset::operator -`: negates the amount, unchecked. -/
def neg (a : Asset) : Asset :=
  { a with amount := wrap64 (-a.amount) }

/-- `operator >=`: compares the amounts of one asset. -/
def ge (l r : Asset) : Prop :=
  l.assetId = r.assetId ∧ r.amount ≤ l.amount

instance (l r : Asset) : Decidable (ge l r) :=
  inferInstanceAs (Decidable (_ ∧ _))

/-- `std::min`, by `operator <`, which looks at the amounts only. -/
def min (l r : Asset) : Asset :=
  if r.amount < l.amount then r else l

/-- A successful addition adds the amounts, stays in range and keeps the asset. -/
theorem add_eq_ok {a o r : Asset} (h : a.add o = .ok r) :
    a.assetId = o.assetId ∧ r.assetId = a.assetId ∧ r.amount = a.amount + o.amount ∧
      (IsInt64 a.amount → IsInt64 r.amount) := by
  simp only [add, bind_eq_ok, require_eq_ok, pure_eq_ok] at h
  obtain ⟨-, hid, -, hov, rfl⟩ := h
  refine ⟨hid, rfl, rfl, fun ha => ?_⟩
  unfold IsInt64 at ha ⊢
  simp only [not_or, not_and, not_lt] at hov ⊢
  rcases lt_trichotomy o.amount 0 with hneg | hz | hpos
  · have h2 := hov.2 hneg
    constructor <;> omega
  · constructor <;> omega
  · have h1 := hov.1 hpos
    constructor <;> omega

/-- A successful subtraction subtracts the amounts, stays in range and keeps the asset. -/
theorem sub_eq_ok {a o r : Asset} (h : a.sub o = .ok r) :
    a.assetId = o.assetId ∧ r.assetId = a.assetId ∧ r.amount = a.amount - o.amount ∧
      (IsInt64 a.amount → IsInt64 r.amount) := by
  simp only [sub, bind_eq_ok, require_eq_ok, pure_eq_ok] at h
  obtain ⟨-, hid, -, hov, rfl⟩ := h
  refine ⟨hid, rfl, rfl, fun ha => ?_⟩
  unfold IsInt64 at ha ⊢
  simp only [not_or, not_and, not_lt] at hov ⊢
  rcases lt_trichotomy o.amount 0 with hneg | hz | hpos
  · have h2 := hov.2 hneg
    constructor <;> omega
  · constructor <;> omega
  · have h1 := hov.1 hpos
    constructor <;> omega

end Asset

/-! ### Prices -/

/-- A price: `ratio / btsPricePrecision` units of the quote asset for one of the base. -/
structure Price where
  ratio : ℕ := 0
  quoteAssetId : ℤ := 0
  baseAssetId : ℤ := 0
  deriving DecidableEq, Repr

/-- A market, as `price::asset_pair()` names it. -/
structure AssetPair where
  quote : ℤ
  base : ℤ
  deriving DecidableEq, Repr

/-- `operator <` on pairs of ids: lexicographic. -/
instance : Ord AssetPair :=
  ⟨compareLex (compareOn AssetPair.quote) (compareOn AssetPair.base)⟩

instance : TransOrd AssetPair :=
  inferInstanceAs (TransCmp (compareLex (compareOn AssetPair.quote) (compareOn AssetPair.base)))

instance : LawfulEqOrd AssetPair :=
  Table.lawfulEqCmp_compareLex fun _ _ hq hb => AssetPair.mk.injEq .. ▸ ⟨hq, hb⟩

/-- `operator <` on prices: the quote asset, then the base asset, then the ratio. -/
instance : Ord Price :=
  ⟨compareLex (compareOn Price.quoteAssetId)
    (compareLex (compareOn Price.baseAssetId) (compareOn Price.ratio))⟩

instance : TransOrd Price :=
  inferInstanceAs (TransCmp (compareLex (compareOn Price.quoteAssetId)
    (compareLex (compareOn Price.baseAssetId) (compareOn Price.ratio))))

instance : LawfulEqOrd Price where
  eq_of_compare {p q} h := by
    have h' : compare p.quoteAssetId q.quoteAssetId = .eq ∧
        compare p.baseAssetId q.baseAssetId = .eq ∧ compare p.ratio q.ratio = .eq := by
      obtain ⟨h₁, h₂⟩ := compareLex_eq_eq.1 h
      exact ⟨h₁, compareLex_eq_eq.1 h₂⟩
    obtain ⟨hq, hb, hr⟩ := h'
    cases p
    cases q
    rw [LawfulEqOrd.compare_eq_iff_eq] at hq hb hr
    exact Price.mk.injEq .. ▸ ⟨hr, hq, hb⟩

namespace Price

/-- `price::asset_pair()`. -/
def assetPair (p : Price) : AssetPair :=
  ⟨p.quoteAssetId, p.baseAssetId⟩

/-- `operator <`. -/
def lt (l r : Price) : Bool :=
  compare l r == .lt

/-- `std::min`, by `operator <`. -/
def min (l r : Price) : Price :=
  if r.lt l then r else l

/-- `operator ==`: prices are equal when their ratios are. -/
def eqRatio (l r : Price) : Bool :=
  l.ratio == r.ratio

end Price

/-! ### Arithmetic between assets and prices -/

/-- `fc::bigint::log2()`: the number of bits. -/
def bigintLog2 (x : ℤ) : ℕ :=
  if x = 0 then 0 else x.natAbs.log2 + 1

/-- `fc::bigint::to_int64()`: throws when the magnitude does not fit in 63 bits. -/
def bigintToInt64 (x : ℤ) : Fallible ℤ := do
  require (bigintLog2 x ≤ 63) (.assertion "BN_num_bits(n) <= 63")
  return x

/-- A big integer has at most `n` bits when its magnitude is below `2 ^ n`. -/
theorem bigintLog2_le_iff {x : ℤ} {n : ℕ} : bigintLog2 x ≤ n ↔ x.natAbs < 2 ^ n := by
  unfold bigintLog2
  split
  · rename_i hzero
    simp [hzero]
  · rename_i hne
    rw [Nat.add_one_le_iff, Nat.log2_lt (Int.natAbs_ne_zero.2 hne)]

/-- `fc::bigint::to_int64()` returns a value that fits in 63 bits. -/
theorem bigintToInt64_eq_ok {x y : ℤ} : bigintToInt64 x = .ok y ↔ x.natAbs < 2 ^ 63 ∧ x = y := by
  simp only [bigintToInt64, bind_eq_ok, require_eq_ok, pure_eq_ok, bigintLog2_le_iff, exists_const]

/-- A big integer written to a 128-bit unsigned value. -/
def bigintToUint128 (x : ℤ) : ℕ :=
  x.natAbs % 2 ^ 128

/-- `asset * price`: the amount of the other asset at this price. -/
def Asset.mulPrice (a : Asset) (p : Price) : Fallible Asset :=
  if a.assetId = p.baseAssetId then do
    let amnt := (a.amount * p.ratio).tdiv btsPricePrecision
    require (bigintLog2 amnt < 128) .additionOverflow
    let amount ← bigintToInt64 amnt
    return ⟨amount, p.quoteAssetId⟩
  else if a.assetId = p.quoteAssetId then do
    let result := (a.amount * btsPricePrecision).tdiv p.ratio
    require (bigintLog2 result < 128) .additionOverflow
    let amount ← bigintToInt64 result
    return ⟨amount, p.baseAssetId⟩
  else throw .assetTypeMismatch

/-- `asset / asset`: the price at which the two exchange, in units of the asset with the
higher id. -/
def Asset.divAsset (a b : Asset) : Fallible Price := do
  require (a.assetId ≠ b.assetId) .assetDivideBySelf
  let l := if a.assetId < b.assetId then b else a
  let r := if a.assetId < b.assetId then a else b
  require (r.amount ≠ 0) .assetDivideByZero
  return { ratio := bigintToUint128 ((l.amount * btsPricePrecision).tdiv r.amount)
           quoteAssetId := l.assetId
           baseAssetId := r.assetId }

end LarkX
