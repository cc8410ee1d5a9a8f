import LarkX.Types.Basic

/-!
# The records of the chain

The data the chain state is made of, with the fields the modelled code reads and writes:
assets, accounts, balances, orders and margin positions, market status, feeds, slates and
slots. Each record kind has its own *null* value, which the chain database reads as "remove"
and which undo states use for "was not there"; the `isNull`/`makeNull` pairs below are that
encoding.
-/

namespace LarkX

open Std (TransOrd LawfulEqOrd TransCmp)

/-! ### Assets -/

/-- `asset_record`. -/
structure AssetRecord where
  id : ℤ := 0
  symbol : Name := []
  issuerAccountId : ℤ := 0
  precision : ℕ := 0
  registrationDate : ℕ := 0
  lastUpdate : ℕ := 0
  currentShareSupply : ℤ := 0
  maximumShareSupply : ℤ := 0
  collectedFees : ℤ := 0
  deriving DecidableEq, Repr

namespace AssetRecord

/-- `market_issued_asset`. -/
def marketIssuedAsset : ℤ := -2
/-- `market_feed_issued_asset`. -/
def marketFeedIssuedAsset : ℤ := -3

def isNull (r : AssetRecord) : Bool :=
  r.issuerAccountId == -1

def makeNull (r : AssetRecord) : AssetRecord :=
  { r with issuerAccountId := -1 }

/-- The asset is issued by the market and not by any user. -/
def isMarketIssued (r : AssetRecord) : Bool :=
  r.issuerAccountId == marketIssuedAsset || r.issuerAccountId == marketFeedIssuedAsset

@[simp] theorem isNull_makeNull (r : AssetRecord) : r.makeNull.isNull = true := rfl
@[simp] theorem makeNull_id (r : AssetRecord) : r.makeNull.id = r.id := rfl
@[simp] theorem makeNull_symbol (r : AssetRecord) : r.makeNull.symbol = r.symbol := rfl

end AssetRecord

/-! ### Accounts -/

/-- `delegate_stats`. -/
structure DelegateStats where
  votesFor : ℤ := 0
  blocksProduced : ℕ := 0
  blocksMissed : ℕ := 0
  nextSecretHash : SecretHash := 0
  lastBlockNumProduced : ℕ := 0
  payRate : ℕ := 0
  payBalance : ℤ := 0
  deriving DecidableEq, Repr

/-- `account_record`. The public data and the meta data are opaque to the chain. -/
structure AccountRecord where
  id : ℤ := 0
  name : Name := []
  publicData : ℕ := 0
  ownerKey : PublicKey := 0
  activeKeyHistory : Table ℕ PublicKey := ∅
  registrationDate : ℕ := 0
  lastUpdate : ℕ := 0
  delegateInfo : Option DelegateStats := none
  metaData : Option ℕ := none

namespace AccountRecord

/-- A record with the default owner key is null. -/
def isNull (r : AccountRecord) : Bool :=
  r.ownerKey == 0

def makeNull (r : AccountRecord) : AccountRecord :=
  { r with ownerKey := 0 }

def isDelegate (r : AccountRecord) : Bool :=
  r.delegateInfo.isSome

/-- `net_votes()`: throws for an account that is no delegate. -/
def netVotes (r : AccountRecord) : Fallible ℤ := do
  let info ← orThrow r.delegateInfo (.assertion "is_delegate()")
  return info.votesFor

/-- `adjust_votes_for(delta)`. -/
def adjustVotesFor (r : AccountRecord) (delta : ℤ) : Fallible AccountRecord := do
  let info ← orThrow r.delegateInfo (.assertion "is_delegate()")
  return { r with delegateInfo := some { info with votesFor := wrap64 (info.votesFor + delta) } }

/-- The key of the latest date in the history, or the default key. -/
def activeKey (r : AccountRecord) : PublicKey :=
  match r.activeKeyHistory.toList.getLast? with
  | some e => e.2
  | none => 0

def isRetracted (r : AccountRecord) : Bool :=
  r.activeKey == 0

/-- `set_active_key(now, key)`. -/
def setActiveKey (r : AccountRecord) (now : ℕ) (key : PublicKey) : Fallible AccountRecord := do
  require (now ≠ 0) (.assertion "now != fc::time_point_sec()")
  return { r with activeKeyHistory := r.activeKeyHistory.insert now key }

/-- `delegate_pay_balance()` for the accounting, `0` for an account that is no delegate. -/
def payBalance (r : AccountRecord) : ℤ :=
  (r.delegateInfo.map DelegateStats.payBalance).getD 0

/-- The keys of the history, in the order of their dates. -/
def activeKeys (r : AccountRecord) : List PublicKey :=
  r.activeKeyHistory.toList.map Prod.snd

@[simp] theorem isNull_makeNull (r : AccountRecord) : r.makeNull.isNull = true := rfl
@[simp] theorem makeNull_id (r : AccountRecord) : r.makeNull.id = r.id := rfl
@[simp] theorem makeNull_name (r : AccountRecord) : r.makeNull.name = r.name := rfl

end AccountRecord

/-! ### Withdraw conditions and balances -/

/-- `withdraw_condition_types`; the type byte may hold any value. -/
inductive WithdrawConditionType
  | null
  | signature
  | multiSig
  | password
  | option
  | escrow
  | unknown (byte : ℕ)
  deriving DecidableEq, Repr

/-- The packed data of a condition: a packed `withdraw_with_signature`, or other bytes. -/
inductive WithdrawData
  | withSignature (owner : Address) (memo : Option ℕ)
  | bytes (data : ℕ)
  deriving DecidableEq, Repr

/-- `withdraw_condition`: defines who may withdraw a balance and, for the base asset, which
slate of delegates the balance votes for. -/
structure WithdrawCondition where
  assetId : ℤ := 0
  delegateSlateId : SlateId := 0
  type : WithdrawConditionType := .null
  data : WithdrawData := .bytes 0
  deriving DecidableEq, Repr

namespace WithdrawCondition

/-- `withdraw_condition( withdraw_with_signature( owner ), asset, slate )`. -/
def ofSignature (owner : Address) (assetId : ℤ) (slate : SlateId) : WithdrawCondition :=
  { assetId, delegateSlateId := slate, type := .signature, data := .withSignature owner none }

/-- The owner in `as<withdraw_with_signature>()`: throws for another type or other bytes. -/
def signatureOwner (c : WithdrawCondition) : Fallible Address := do
  require (c.type = .signature) (.assertion "type == WithdrawType::type")
  match c.data with
  | .withSignature owner _ => return owner
  | .bytes _ => throw .badCast

end WithdrawCondition

/-- `genesis_record`: marks a balance of the genesis file, with the external address that may
claim it. -/
structure GenesisRecord where
  initialBalance : Asset
  claimAddr : ℕ
  deriving DecidableEq, Repr

/-- `balance_record`. -/
structure BalanceRecord where
  balance : ℤ := 0
  condition : WithdrawCondition := {}
  genesisInfo : Option GenesisRecord := none
  lastUpdate : ℕ := 0
  depositDate : ℕ := 0
  deriving DecidableEq, Repr

namespace BalanceRecord

def isNull (r : BalanceRecord) : Bool :=
  r.balance == 0

def makeNull (r : BalanceRecord) : BalanceRecord :=
  { r with balance := 0 }

def assetId (r : BalanceRecord) : ℤ :=
  r.condition.assetId

/-- `balance_record( owner, balance, delegate_id )`. -/
def ofOwner (owner : Address) (balance : Asset) (slate : SlateId) : BalanceRecord :=
  { balance := balance.amount, condition := .ofSignature owner balance.assetId slate }

@[simp] theorem makeNull_condition (r : BalanceRecord) : r.makeNull.condition = r.condition := rfl
@[simp] theorem makeNull_balance (r : BalanceRecord) : r.makeNull.balance = 0 := rfl

end BalanceRecord

/-! ### Market records -/

/-- `market_index_key`: where an order is kept. -/
structure MarketIndexKey where
  orderPrice : Price
  owner : Address := 0
  deriving DecidableEq, Repr

/-- `operator <` on keys: the price, then the owner. -/
instance : Ord MarketIndexKey :=
  ⟨compareLex (compareOn MarketIndexKey.orderPrice) (compareOn MarketIndexKey.owner)⟩

instance : TransOrd MarketIndexKey :=
  inferInstanceAs (TransCmp
    (compareLex (compareOn MarketIndexKey.orderPrice) (compareOn MarketIndexKey.owner)))

instance : LawfulEqOrd MarketIndexKey :=
  Table.lawfulEqCmp_compareLex fun _ _ hp ho => MarketIndexKey.mk.injEq .. ▸ ⟨hp, ho⟩

/-- The market of an order. -/
def MarketIndexKey.assetPair (k : MarketIndexKey) : AssetPair :=
  k.orderPrice.assetPair

/-- `order_record`. -/
structure OrderRecord where
  balance : ℤ := 0
  shortPriceLimit : Option Price := none
  lastUpdate : ℕ := 0
  deriving DecidableEq, Repr

def OrderRecord.isNull (r : OrderRecord) : Bool :=
  r.balance == 0

/-- `collateral_record`: a margin position. -/
structure CollateralRecord where
  collateralBalance : ℤ := 0
  payoffBalance : ℤ := 0
  interestRate : Price := {}
  expiration : ℕ := 0
  deriving DecidableEq, Repr

def CollateralRecord.isNull (r : CollateralRecord) : Bool :=
  r.payoffBalance == 0 && r.collateralBalance == 0

/-- `market_status`. -/
structure MarketStatus where
  quoteId : ℤ := 0
  baseId : ℤ := 0
  currentFeedPrice : Option Price := none
  lastValidFeedPrice : Option Price := none
  lastError : Option Error := none
  deriving DecidableEq, Repr

namespace MarketStatus

def isNull (s : MarketStatus) : Bool :=
  s.quoteId == s.baseId

/-- `market_status( quote, base )`. -/
def ofMarket (quote base : ℤ) : Fallible MarketStatus := do
  require (base < quote) (.assertion "quote > base")
  return { quoteId := quote, baseId := base }

def pair (s : MarketStatus) : AssetPair :=
  ⟨s.quoteId, s.baseId⟩

/-- `update_feed_price(feed)`: the last valid price survives a missing feed. -/
def updateFeedPrice (s : MarketStatus) (feed : Option Price) : MarketStatus :=
  { s with currentFeedPrice := feed, lastValidFeedPrice := feed.or s.lastValidFeedPrice }

end MarketStatus

/-! ### Feeds -/

/-- `feed_index`. -/
structure FeedIndex where
  feedId : ℤ := 0
  delegateId : ℤ := 0
  deriving DecidableEq, Repr

instance : Ord FeedIndex :=
  ⟨compareLex (compareOn FeedIndex.feedId) (compareOn FeedIndex.delegateId)⟩

instance : TransOrd FeedIndex :=
  inferInstanceAs (TransCmp
    (compareLex (compareOn FeedIndex.feedId) (compareOn FeedIndex.delegateId)))

instance : LawfulEqOrd FeedIndex :=
  Table.lawfulEqCmp_compareLex fun _ _ hf hd => FeedIndex.mk.injEq .. ▸ ⟨hf, hd⟩

/-- The value a delegate publishes: the null variant, an object that reads as a price, or
anything else. -/
inductive FeedValue
  | null
  | price (ratio : List Char) (quoteAssetId baseAssetId : ℤ)
  | other (value : ℕ)
  deriving DecidableEq, Repr

/-- `feed_record`. -/
structure FeedRecord where
  feed : FeedIndex
  value : FeedValue := .null
  lastUpdate : ℕ := 0
  deriving DecidableEq, Repr

def FeedRecord.isNull (r : FeedRecord) : Bool :=
  r.value == .null

/-- The value of a decimal digit. -/
def digitOf (c : Char) : Option ℕ :=
  if '0' ≤ c ∧ c ≤ '9' then some (c.toNat - 48) else none

/-- The scan of the integer part: `int_part = int_part * 10 + digit` in 64 unsigned bits. -/
def scanInteger : ℕ → List Char → ℕ × List Char
  | acc, [] => (acc, [])
  | acc, c :: cs =>
    match digitOf c with
    | some d => scanInteger ((acc * 10 + d) % 2 ^ 64) cs
    | none => (acc, c :: cs)

/-- The scan of the fraction: the digits and their magnitude, both signed 64-bit. -/
def scanFraction : ℤ → ℤ → List Char → ℤ × ℤ
  | part, magnitude, [] => (part, magnitude)
  | part, magnitude, c :: cs =>
    match digitOf c with
    | some d => scanFraction (wrap64 (part * 10 + d)) (wrap64 (magnitude * 10)) cs
    | none => (part, magnitude)

/-- The fraction after the point, scaled by `btsPricePrecision` (`0` when there is no digit).
A magnitude that wrapped to zero divides by zero: `none`. -/
def fractionRatio (cs : List Char) : Option ℕ :=
  match cs with
  | [] => some 0
  | c :: cs =>
    match digitOf c with
    | none => some 0
    | some d =>
      let (part, magnitude) := scanFraction d 10 cs
      let divisor := (magnitude % 2 ^ 64).toNat
      if divisor = 0 then none
      else some ((part % 2 ^ 128).toNat * (btsPricePrecision / divisor) % 2 ^ 128)

/-- `price::set_ratio_from_string`. -/
def setRatioFromString (cs : List Char) : Option ℕ :=
  let (intPart, rest) := scanInteger 0 cs
  let ratio := intPart * btsPricePrecision % 2 ^ 128
  match rest with
  | '.' :: frac => (fractionRatio frac).map fun f => (ratio + f) % 2 ^ 128
  | _ => some ratio

/-- `value.as<price>()`. -/
def FeedValue.asPrice : FeedValue → Option Price
  | .price ratio quote base =>
    (setRatioFromString ratio).map fun r =>
      { ratio := r, quoteAssetId := quote, baseAssetId := base }
  | _ => none

/-! ### Slots -/

/-- `slot_record`. -/
structure SlotRecord where
  startTime : ℕ := 0
  blockProducerId : ℤ := 0
  blockId : Option BlockId := none
  deriving DecidableEq, Repr

def SlotRecord.isNull (r : SlotRecord) : Bool :=
  r.startTime == 0

end LarkX
