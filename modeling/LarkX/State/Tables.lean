import LarkX.Types.Transaction

/-!
# The state of the chain: database and pending states

The chain keeps its state in a database and evaluates every change in a *pending state* laid
over it; pending states can be stacked. Both keep the same tables, so they share the
structure `Tables`:

* `Ledger` is the database: the tables hold no null record, and side indexes by name, symbol,
  address and votes are kept next to them;
* `Overlay` is one `pending_chain_state`: the tables hold what was written, null records
  included, with the overlay's own indexes and its set of dirty markets;
* `ChainInterface` is a stack of overlays over a ledger, with the two values of the head the
  evaluation reads. Reads fall through the stack, writes go to its top.
-/

namespace LarkX

open Std (TransOrd LawfulEqOrd TransCmp)

/-! ### Properties -/

/-- `chain_property_enum`. -/
inductive ChainProperty
  | lastAssetId
  | lastAccountId
  | lastProposalId
  | lastRandomSeedId
  | activeDelegateListId
  | chainId
  | confirmationRequirement
  | databaseVersion
  | dirtyMarkets
  | lastFeedId
  deriving DecidableEq, Repr

/-- The number of a property. -/
def ChainProperty.toNat : ChainProperty → ℕ
  | .lastAssetId => 0
  | .lastAccountId => 1
  | .lastProposalId => 2
  | .lastRandomSeedId => 3
  | .activeDelegateListId => 4
  | .chainId => 5
  | .confirmationRequirement => 6
  | .databaseVersion => 7
  | .dirtyMarkets => 8
  | .lastFeedId => 9

instance : Ord ChainProperty :=
  ⟨compareOn ChainProperty.toNat⟩

instance : TransOrd ChainProperty :=
  inferInstanceAs (TransCmp (compareOn ChainProperty.toNat))

instance : LawfulEqOrd ChainProperty where
  eq_of_compare {p q} h := by
    have h' : p.toNat = q.toNat := LawfulEqOrd.compare_eq_iff_eq.1 h
    cases p <;> cases q <;> first | rfl | exact absurd h' (by decide)

/-- A set of keys. -/
abbrev KeySet (κ : Type) [Ord κ] := Table κ Unit

/-- The value of a property (`fc::variant`), by the type it was stored from. -/
inductive Variant
  | null
  | int (value : ℤ)
  | hash (value : ℕ)
  | ids (value : List ℤ)
  | markets (value : KeySet AssetPair)

namespace Variant

def isNull : Variant → Bool
  | .null => true
  | _ => false

/-- `as<signed_int>()`. -/
def asInt : Variant → Fallible ℤ
  | .int value => return value
  | _ => throw .badCast

/-- `as<digest_type>()`. -/
def asHash : Variant → Fallible ℕ
  | .hash value => return value
  | _ => throw .badCast

/-- `as<vector<account_id_type>>()`. -/
def asIds : Variant → Fallible (List ℤ)
  | .ids value => return value
  | _ => throw .badCast

/-- `as<set<pair<asset_id_type, asset_id_type>>>()`. -/
def asMarkets : Variant → Fallible (KeySet AssetPair)
  | .markets value => return value
  | _ => throw .badCast

end Variant

/-! ### Tables -/

/-- `vote_del`: more votes first, then the lower id. -/
structure VoteDel where
  votes : ℤ
  delegateId : ℤ
  deriving DecidableEq, Repr

instance : Ord VoteDel :=
  ⟨compareLex (compareOn fun v : VoteDel => -v.votes) (compareOn VoteDel.delegateId)⟩

instance : TransOrd VoteDel :=
  inferInstanceAs (TransCmp
    (compareLex (compareOn fun v : VoteDel => -v.votes) (compareOn VoteDel.delegateId)))

instance : LawfulEqOrd VoteDel :=
  Table.lawfulEqCmp_compareLex fun _ _ hv hd => VoteDel.mk.injEq .. ▸ ⟨neg_inj.1 hv, hd⟩

/-- The tables the database and a pending state have in common. -/
structure Tables where
  properties : Table ChainProperty Variant := ∅
  assets : Table ℤ AssetRecord := ∅
  accounts : Table ℤ AccountRecord := ∅
  balances : Table BalanceId BalanceRecord := ∅
  bids : Table MarketIndexKey OrderRecord := ∅
  asks : Table MarketIndexKey OrderRecord := ∅
  shorts : Table MarketIndexKey OrderRecord := ∅
  collateral : Table MarketIndexKey CollateralRecord := ∅
  transactions : Table TransactionId TransactionRecord := ∅
  slates : Table SlateId (List ℤ) := ∅
  slots : Table ℕ SlotRecord := ∅
  marketStatuses : Table AssetPair MarketStatus := ∅
  feeds : Table FeedIndex FeedRecord := ∅

/-- The tables of `top` laid over those of `base`. -/
def Tables.above (top base : Tables) : Tables where
  properties := top.properties.above base.properties
  assets := top.assets.above base.assets
  accounts := top.accounts.above base.accounts
  balances := top.balances.above base.balances
  bids := top.bids.above base.bids
  asks := top.asks.above base.asks
  shorts := top.shorts.above base.shorts
  collateral := top.collateral.above base.collateral
  transactions := top.transactions.above base.transactions
  slates := top.slates.above base.slates
  slots := top.slots.above base.slots
  marketStatuses := top.marketStatuses.above base.marketStatuses
  feeds := top.feeds.above base.feeds

/-- `pending_chain_state`. -/
structure Overlay extends Tables where
  accountIdIndex : Table Name ℤ := ∅
  keyToAccount : Table Address ℤ := ∅
  uniqueTransactions : KeySet Digest := ∅
  /-- `_dirty_markets`: the markets this state touched. -/
  dirtyMarketPairs : KeySet AssetPair := ∅

/-- The tables and indexes of `chain_database`. -/
structure Ledger extends Tables where
  accountIndex : Table Name ℤ := ∅
  symbolIndex : Table Name ℤ := ∅
  addressToAccount : Table Address ℤ := ∅
  delegateVoteIndex : KeySet VoteDel := ∅
  /-- `_unique_transactions`: the known digests, by expiration. -/
  uniqueTransactions : Table ℕ (KeySet Digest) := ∅
  /-- `_chain_id`. -/
  chainId : Digest := 0

/-- `chain_interface`: a stack of pending states over the database. -/
structure ChainInterface where
  overlays : List Overlay := []
  db : Ledger
  /-- `now()` of the database. -/
  now : ℕ
  headBlockNum : ℕ

/-! ### Writes to a pending state -/

namespace Overlay

def setProperty (o : Overlay) (p : ChainProperty) (v : Variant) : Overlay :=
  { o with properties := o.properties.insert p v }

def storeAssetRecord (o : Overlay) (r : AssetRecord) : Overlay :=
  { o with assets := o.assets.insert r.id r }

/-- The record, its name and every key of its history and its owner key are indexed. -/
def storeAccountRecord (crypto : Crypto) (o : Overlay) (r : AccountRecord) : Overlay :=
  let keys := r.activeKeys.foldl (fun t key => t.insert (crypto.keyAddress key) r.id)
    o.keyToAccount
  { o with
    accounts := o.accounts.insert r.id r
    accountIdIndex := o.accountIdIndex.insert r.name r.id
    keyToAccount := keys.insert (crypto.keyAddress r.ownerKey) r.id }

def storeBalanceRecord (crypto : Crypto) (o : Overlay) (r : BalanceRecord) : Overlay :=
  { o with balances := o.balances.insert (crypto.conditionAddress r.condition) r }

/-- The market of an order that is written becomes dirty. -/
def setMarketDirty (o : Overlay) (pair : AssetPair) : Overlay :=
  { o with dirtyMarketPairs := o.dirtyMarketPairs.insert pair () }

def storeBidRecord (o : Overlay) (key : MarketIndexKey) (r : OrderRecord) : Overlay :=
  { o with bids := o.bids.insert key r }.setMarketDirty key.assetPair

def storeAskRecord (o : Overlay) (key : MarketIndexKey) (r : OrderRecord) : Overlay :=
  { o with asks := o.asks.insert key r }.setMarketDirty key.assetPair

def storeShortRecord (o : Overlay) (key : MarketIndexKey) (r : OrderRecord) : Overlay :=
  { o with shorts := o.shorts.insert key r }.setMarketDirty key.assetPair

def storeCollateralRecord (o : Overlay) (key : MarketIndexKey) (r : CollateralRecord) : Overlay :=
  { o with collateral := o.collateral.insert key r }.setMarketDirty key.assetPair

def storeTransactionRecord (o : Overlay) (id : TransactionId) (r : TransactionRecord) : Overlay :=
  { o with transactions := o.transactions.insert id r }

def storeDelegateSlate (o : Overlay) (id : SlateId) (slate : List ℤ) : Overlay :=
  { o with slates := o.slates.insert id slate }

def storeSlotRecord (o : Overlay) (r : SlotRecord) : Overlay :=
  { o with slots := o.slots.insert r.startTime r }

def storeMarketStatus (o : Overlay) (s : MarketStatus) : Overlay :=
  { o with marketStatuses := o.marketStatuses.insert s.pair s }

def setFeed (o : Overlay) (r : FeedRecord) : Overlay :=
  { o with feeds := o.feeds.insert r.feed r }

/-- `set_dirty_markets`: a property, not the overlay's own set. -/
def setDirtyMarkets (o : Overlay) (d : KeySet AssetPair) : Overlay :=
  o.setProperty .dirtyMarkets (.markets d)

end Overlay

/-! ### Writes to the database -/

namespace Ledger

def setProperty (db : Ledger) (p : ChainProperty) (v : Variant) : Ledger :=
  { db with properties := db.properties.put v.isNull p v }

def storeAssetRecord (db : Ledger) (r : AssetRecord) : Ledger :=
  if r.isNull then
    { db with
      assets := db.assets.erase r.id
      symbolIndex := db.symbolIndex.erase r.symbol }
  else
    { db with
      assets := db.assets.insert r.id r
      symbolIndex := db.symbolIndex.insert r.symbol r.id }

/-- The vote index without the entry of a record. -/
def removeVotes (votes : KeySet VoteDel) (id : ℤ) (r : AccountRecord) : KeySet VoteDel :=
  match r.delegateInfo with
  | some info => votes.erase ⟨info.votesFor, id⟩
  | none => votes

/-- The vote index with the entry of a record. -/
def addVotes (votes : KeySet VoteDel) (id : ℤ) (r : AccountRecord) : KeySet VoteDel :=
  match r.delegateInfo with
  | some info => votes.insert ⟨info.votesFor, id⟩ ()
  | none => votes

/-- A null record removes the old one with its name, the keys of its history and its votes.
Any other record is written with its name and the keys of its history, and its votes replace
those of the old record; keys that only the old record had stay indexed. -/
def storeAccountRecord (crypto : Crypto) (db : Ledger) (r : AccountRecord) : Ledger :=
  match r.isNull, db.accounts[r.id]? with
  | true, some old =>
    { db with
      accounts := db.accounts.erase r.id
      accountIndex := db.accountIndex.erase r.name
      addressToAccount := old.activeKeys.foldl (fun t key => t.erase (crypto.keyAddress key))
        db.addressToAccount
      delegateVoteIndex := removeVotes db.delegateVoteIndex r.id old }
  | true, none => db
  | false, old =>
    { db with
      accounts := db.accounts.insert r.id r
      accountIndex := db.accountIndex.insert r.name r.id
      addressToAccount := r.activeKeys.foldl
        (fun t key => t.insert (crypto.keyAddress key) r.id) db.addressToAccount
      delegateVoteIndex := addVotes
        (match old with
          | some old => removeVotes db.delegateVoteIndex r.id old
          | none => db.delegateVoteIndex) r.id r }

/-- Balance records are kept forever, also with a zero balance. -/
def storeBalanceRecord (crypto : Crypto) (db : Ledger) (r : BalanceRecord) : Ledger :=
  { db with balances := db.balances.insert (crypto.conditionAddress r.condition) r }

def storeBidRecord (db : Ledger) (key : MarketIndexKey) (r : OrderRecord) : Ledger :=
  { db with bids := db.bids.put r.isNull key r }

def storeAskRecord (db : Ledger) (key : MarketIndexKey) (r : OrderRecord) : Ledger :=
  { db with asks := db.asks.put r.isNull key r }

def storeShortRecord (db : Ledger) (key : MarketIndexKey) (r : OrderRecord) : Ledger :=
  { db with shorts := db.shorts.put r.isNull key r }

def storeCollateralRecord (db : Ledger) (key : MarketIndexKey) (r : CollateralRecord) : Ledger :=
  { db with collateral := db.collateral.put r.isNull key r }

def storeDelegateSlate (db : Ledger) (id : SlateId) (slate : List ℤ) : Ledger :=
  { db with slates := db.slates.put slate.isEmpty id slate }

def storeSlotRecord (db : Ledger) (r : SlotRecord) : Ledger :=
  { db with slots := db.slots.put r.isNull r.startTime r }

def storeMarketStatus (db : Ledger) (s : MarketStatus) : Ledger :=
  { db with marketStatuses := db.marketStatuses.put s.isNull s.pair s }

def setFeed (db : Ledger) (r : FeedRecord) : Ledger :=
  { db with feeds := db.feeds.put r.isNull r.feed r }

def setDirtyMarkets (db : Ledger) (d : KeySet AssetPair) : Ledger :=
  db.setProperty .dirtyMarkets (.markets d)

/-- `is_known_transaction`. -/
def isKnownTransaction (db : Ledger) (exp : ℕ) (digest : Digest) : Bool :=
  match db.uniqueTransactions[exp]? with
  | some digests => digests.contains digest
  | none => false

/-- The known digests that expire at `exp`. -/
def digestsAt (db : Ledger) (exp : ℕ) : KeySet Digest :=
  db.uniqueTransactions[exp]?.getD ∅

/-- `store_transaction`: a record without operations removes the stored one and forgets its
own digest; any other record is written, and its digest is remembered unless it has expired.
The assertion on a repeated digest is behind the `FORK_25` gate. -/
def storeTransaction (crypto : Crypto) (now headBlockNum : ℕ) (db : Ledger) (id : TransactionId)
    (r : TransactionRecord) : Fallible Ledger :=
  let exp := r.trx.expiration
  let digest := crypto.transactionDigest r.trx.toTransaction db.chainId
  if r.trx.operations = [] then
    return { db with
      transactions := db.transactions.erase id
      uniqueTransactions := db.uniqueTransactions.insert exp ((db.digestsAt exp).erase digest) }
  else do
    require (id = crypto.transactionId r.trx) (.assertion "record_id == record_to_store.trx.id()")
    let db' := { db with transactions := db.transactions.insert id r }
    if now < exp then
      require (¬(atOrAfterFork25 headBlockNum ∧ (db.digestsAt exp).contains digest))
        (.assertion "transaction not unique")
      return { db' with
        uniqueTransactions := db.uniqueTransactions.insert exp
          ((db.digestsAt exp).insert digest ()) }
    else return db'

end Ledger

end LarkX
