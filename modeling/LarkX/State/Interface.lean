import LarkX.State.Tables
import Mathlib.Data.List.Sort

/-!
# Reads, writes and layers of the chain state

The operations of `chain_interface` on a stack of pending states over the database:

* a read asks the overlays from the top down, then the database (`ChainInterface.lookup`);
* a write changes the top overlay, or the database when the stack is empty
  (`ChainInterface.update`);
* `applyChanges` writes the top overlay into the state below it, record by record;
* `getUndoState` records, for everything an overlay holds, what the state below holds there.

The facts proved here are the interface later modules use. `ChainInterface.flat` is the state
a reader sees, as one set of tables, and every write on a non-empty stack is one write to it.
-/

namespace LarkX

namespace ChainInterface

/-! ### Reads -/

/-- Read a table through the overlays. -/
def lookupIn {κ α : Type} [Ord κ] [Std.TransOrd κ] (table : Tables → Table κ α) (db : Ledger)
    (k : κ) : List Overlay → Option α
  | [] => (table db.toTables)[k]?
  | o :: os =>
    match (table o.toTables)[k]? with
    | some r => some r
    | none => lookupIn table db k os

/-- Read a table of the chain state. -/
def lookup {κ α : Type} [Ord κ] [Std.TransOrd κ] (c : ChainInterface) (table : Tables → Table κ α)
    (k : κ) : Option α :=
  lookupIn table c.db k c.overlays

/-- `get_property`: the database throws for a property it does not hold. -/
def getProperty (c : ChainInterface) (p : ChainProperty) : Fallible Variant :=
  orThrow (c.lookup Tables.properties p) .keyNotFound

def getAssetRecord (c : ChainInterface) (id : ℤ) : Option AssetRecord :=
  c.lookup Tables.assets id

def getBalanceRecord (c : ChainInterface) (id : BalanceId) : Option BalanceRecord :=
  c.lookup Tables.balances id

def getDelegateSlate (c : ChainInterface) (id : SlateId) : Option (List ℤ) :=
  c.lookup Tables.slates id

def getAccountRecord (c : ChainInterface) (id : ℤ) : Option AccountRecord :=
  c.lookup Tables.accounts id

/-- `get_account_record( name )`: the first layer whose index knows the name decides the id,
and the record is read from there on. -/
def getAccountRecordByNameIn (db : Ledger) (name : Name) : List Overlay → Option AccountRecord
  | [] =>
    match db.accountIndex[name]? with
    | some id => db.accounts[id]?
    | none => none
  | o :: os =>
    match o.accountIdIndex[name]? with
    | some id => lookupIn Tables.accounts db id (o :: os)
    | none => getAccountRecordByNameIn db name os

def getAccountRecordByName (c : ChainInterface) (name : Name) : Option AccountRecord :=
  getAccountRecordByNameIn c.db name c.overlays

/-- `get_account_record( address )`: likewise, by the index of keys. -/
def getAccountRecordByAddressIn (db : Ledger) (owner : Address) :
    List Overlay → Option AccountRecord
  | [] =>
    match db.addressToAccount[owner]? with
    | some id => db.accounts[id]?
    | none => none
  | o :: os =>
    match o.keyToAccount[owner]? with
    | some id => lookupIn Tables.accounts db id (o :: os)
    | none => getAccountRecordByAddressIn db owner os

def getAccountRecordByAddress (c : ChainInterface) (owner : Address) : Option AccountRecord :=
  getAccountRecordByAddressIn c.db owner c.overlays

def getBidRecord (c : ChainInterface) (key : MarketIndexKey) : Option OrderRecord :=
  c.lookup Tables.bids key

def getAskRecord (c : ChainInterface) (key : MarketIndexKey) : Option OrderRecord :=
  c.lookup Tables.asks key

def getShortRecord (c : ChainInterface) (key : MarketIndexKey) : Option OrderRecord :=
  c.lookup Tables.shorts key

def getCollateralRecord (c : ChainInterface) (key : MarketIndexKey) : Option CollateralRecord :=
  c.lookup Tables.collateral key

/-- `get_transaction( id )`: a record of the database is checked against its key. -/
def getTransactionIn (crypto : Crypto) (db : Ledger) (id : TransactionId) :
    List Overlay → Fallible (Option TransactionRecord)
  | [] =>
    match db.transactions[id]? with
    | some r => do
      require (crypto.transactionId r.trx = id) (.assertion "trx_rec->trx.id() == trx_id")
      return some r
    | none => return none
  | o :: os =>
    match o.transactions[id]? with
    | some r => return some r
    | none => getTransactionIn crypto db id os

def getTransaction (crypto : Crypto) (c : ChainInterface) (id : TransactionId) :
    Fallible (Option TransactionRecord) :=
  getTransactionIn crypto c.db id c.overlays

def getSlotRecord (c : ChainInterface) (startTime : ℕ) : Option SlotRecord :=
  c.lookup Tables.slots startTime

def getMarketStatus (c : ChainInterface) (pair : AssetPair) : Option MarketStatus :=
  c.lookup Tables.marketStatuses pair

def getFeed (c : ChainInterface) (i : FeedIndex) : Option FeedRecord :=
  c.lookup Tables.feeds i

/-- `is_known_transaction`: an overlay knows the digests it has stored itself. -/
def isKnownTransactionIn (db : Ledger) (exp : ℕ) (digest : Digest) : List Overlay → Bool
  | [] => db.isKnownTransaction exp digest
  | o :: os => o.uniqueTransactions.contains digest || isKnownTransactionIn db exp digest os

def isKnownTransaction (c : ChainInterface) (exp : ℕ) (digest : Digest) : Bool :=
  isKnownTransactionIn c.db exp digest c.overlays

/-- `get_dirty_markets()`: any failure to read the property gives the empty set. -/
def getDirtyMarkets (c : ChainInterface) : KeySet AssetPair :=
  match c.lookup Tables.properties .dirtyMarkets with
  | some (.markets d) => d
  | _ => ∅

def lastAccountId (c : ChainInterface) : Fallible ℤ := do
  let v ← c.getProperty .lastAccountId
  v.asInt

/-- `get_active_delegates()`. -/
def getActiveDelegates (c : ChainInterface) : Fallible (List ℤ) := do
  let v ← c.getProperty .activeDelegateListId
  v.asIds

/-- `is_active_delegate( id )`. -/
def isActiveDelegate (c : ChainInterface) (id : ℤ) : Fallible Bool := do
  let active ← c.getActiveDelegates
  return active.contains id

/-- `get_delegate_pay_rate()`. -/
def getDelegatePayRate (c : ChainInterface) : Fallible ℤ := do
  let _ ← orThrow (c.getAssetRecord 0) (.assertion "base_record.valid()")
  return btsMaxDelegatePayPerBlock

/-- `get_delegate_registration_fee()`. -/
def getDelegateRegistrationFee (c : ChainInterface) : Fallible ℤ := do
  let rate ← c.getDelegatePayRate
  return rate * btsBlockchainDelegateRegistrationFee / btsBlockchainNumDelegates

/-- `get_median_delegate_price( asset, base )`: the middle one of the prices in the feeds of the
last day by active delegates, when there are enough of them. Pending states pass the question
on, so feeds, delegates and time are those of the database. -/
def getMedianDelegatePrice (c : ChainInterface) (assetId baseId : ℤ) :
    Fallible (Option Price) := do
  let active ← { c with overlays := [] }.getActiveDelegates
  let prices := c.db.feeds.toList.filterMap fun e =>
    -- the scan starts at delegate `0` of the asset
    if e.1.feedId = assetId ∧ 0 ≤ e.1.delegateId ∧ e.1.delegateId ∈ active ∧
        c.now < e.2.lastUpdate + 24 * 60 * 60 then
      e.2.value.asPrice.filter fun p => p.assetPair = ⟨assetId, baseId⟩
    else none
  if prices.length < btsBlockchainMinFeeds then return none
  else return (prices.insertionSort fun p q => p.ratio ≤ q.ratio)[prices.length / 2]?

/-- `get_current_random_seed()`: pending states pass the question on to the database. -/
def getCurrentRandomSeed (c : ChainInterface) : Fallible SecretHash := do
  let v ← { c with overlays := [] }.getProperty .lastRandomSeedId
  v.asHash

/-- `get_account_registration_fee()`. -/
def getAccountRegistrationFee (_ : ChainInterface) : ℤ :=
  ptsAccountRegFee

/-! ### Writes -/

/-- Write to the top overlay, or to the database when there is none. -/
def update (c : ChainInterface) (onDb : Ledger → Ledger) (onTop : Overlay → Overlay) :
    ChainInterface :=
  match c.overlays with
  | [] => { c with db := onDb c.db }
  | o :: os => { c with overlays := onTop o :: os }

def setProperty (c : ChainInterface) (p : ChainProperty) (v : Variant) : ChainInterface :=
  c.update (·.setProperty p v) (·.setProperty p v)

def storeAssetRecord (c : ChainInterface) (r : AssetRecord) : ChainInterface :=
  c.update (·.storeAssetRecord r) (·.storeAssetRecord r)

def storeAccountRecord (crypto : Crypto) (c : ChainInterface) (r : AccountRecord) :
    ChainInterface :=
  c.update (Ledger.storeAccountRecord crypto · r) (Overlay.storeAccountRecord crypto · r)

def storeBalanceRecord (crypto : Crypto) (c : ChainInterface) (r : BalanceRecord) :
    ChainInterface :=
  c.update (Ledger.storeBalanceRecord crypto · r) (Overlay.storeBalanceRecord crypto · r)

def storeBidRecord (c : ChainInterface) (key : MarketIndexKey) (r : OrderRecord) :
    ChainInterface :=
  c.update (·.storeBidRecord key r) (·.storeBidRecord key r)

def storeAskRecord (c : ChainInterface) (key : MarketIndexKey) (r : OrderRecord) :
    ChainInterface :=
  c.update (·.storeAskRecord key r) (·.storeAskRecord key r)

def storeShortRecord (c : ChainInterface) (key : MarketIndexKey) (r : OrderRecord) :
    ChainInterface :=
  c.update (·.storeShortRecord key r) (·.storeShortRecord key r)

def storeCollateralRecord (c : ChainInterface) (key : MarketIndexKey) (r : CollateralRecord) :
    ChainInterface :=
  c.update (·.storeCollateralRecord key r) (·.storeCollateralRecord key r)

def storeDelegateSlate (c : ChainInterface) (id : SlateId) (slate : List ℤ) : ChainInterface :=
  c.update (·.storeDelegateSlate id slate) (·.storeDelegateSlate id slate)

def storeSlotRecord (c : ChainInterface) (r : SlotRecord) : ChainInterface :=
  c.update (·.storeSlotRecord r) (·.storeSlotRecord r)

def storeMarketStatus (c : ChainInterface) (s : MarketStatus) : ChainInterface :=
  c.update (·.storeMarketStatus s) (·.storeMarketStatus s)

def setFeed (c : ChainInterface) (r : FeedRecord) : ChainInterface :=
  c.update (·.setFeed r) (·.setFeed r)

/-- `set_market_dirty`: kept by pending states, refused by the database. -/
def setMarketDirty (c : ChainInterface) (pair : AssetPair) : Fallible ChainInterface :=
  match c.overlays with
  | [] => throw (.assertion "this shouldn't be called directly")
  | o :: os => return { c with overlays := o.setMarketDirty pair :: os }

def setDirtyMarkets (c : ChainInterface) (d : KeySet AssetPair) : ChainInterface :=
  c.update (·.setDirtyMarkets d) (·.setDirtyMarkets d)

/-- `set_active_delegates`. -/
def setActiveDelegates (c : ChainInterface) (ids : List ℤ) : ChainInterface :=
  c.setProperty .activeDelegateListId (.ids ids)

/-- `new_account_id()`. -/
def newAccountId (c : ChainInterface) : Fallible (ℤ × ChainInterface) := do
  let last ← c.lastAccountId
  return (last + 1, c.setProperty .lastAccountId (.int (last + 1)))

/-- `store_transaction`. A pending state also remembers the digest, under the chain id the
state below it reports; its assertion on a repeated digest is behind the `FORK_25` gate. -/
def storeTransaction (crypto : Crypto) (c : ChainInterface) (id : TransactionId)
    (r : TransactionRecord) : Fallible ChainInterface :=
  match c.overlays with
  | [] => do
    let db ← c.db.storeTransaction crypto c.now c.headBlockNum id r
    return { c with db }
  | o :: os => do
    let prop ← { c with overlays := os }.getProperty .chainId
    let chainId ← prop.asHash
    let digest := crypto.transactionDigest r.trx.toTransaction chainId
    require (¬(atOrAfterFork25 c.headBlockNum ∧ o.uniqueTransactions.contains digest))
      (.assertion "duplicate transaction error")
    let o' := o.storeTransactionRecord id r
    return { c with
      overlays := { o' with uniqueTransactions := o'.uniqueTransactions.insert digest () } :: os }

/-! ### Layers -/

/-- A new pending state over the current one. -/
def push (c : ChainInterface) : ChainInterface :=
  { c with overlays := {} :: c.overlays }

/-- The state below the top overlay. -/
def below (c : ChainInterface) : ChainInterface :=
  { c with overlays := c.overlays.tail }

/-- The part of `apply_changes()` before the transactions. -/
def applyRecords (crypto : Crypto) (o : Overlay) (c : ChainInterface) : ChainInterface :=
  let c := o.properties.foldl (fun c p v => c.setProperty p v) c
  let c := o.assets.foldl (fun c _ r => c.storeAssetRecord r) c
  let c := o.accounts.foldl (fun c _ r => c.storeAccountRecord crypto r) c
  let c := o.balances.foldl (fun c _ r => c.storeBalanceRecord crypto r) c
  let c := o.bids.foldl (fun c key r => c.storeBidRecord key r) c
  let c := o.asks.foldl (fun c key r => c.storeAskRecord key r) c
  let c := o.shorts.foldl (fun c key r => c.storeShortRecord key r) c
  o.collateral.foldl (fun c key r => c.storeCollateralRecord key r) c

/-- The transactions of `apply_changes()`, the only part that may throw. -/
def applyTransactions (crypto : Crypto) (o : Overlay) (c : ChainInterface) :
    Fallible ChainInterface :=
  o.transactions.toList.foldlM (fun c e => c.storeTransaction crypto e.1 e.2) c

/-- The part of `apply_changes()` after the transactions; the set of dirty markets is last. -/
def applyRest (o : Overlay) (c : ChainInterface) : ChainInterface :=
  let c := o.slates.foldl (fun c id slate => c.storeDelegateSlate id slate) c
  let c := o.slots.foldl (fun c _ r => c.storeSlotRecord r) c
  let c := o.marketStatuses.foldl (fun c _ s => c.storeMarketStatus s) c
  let c := o.feeds.foldl (fun c _ r => c.setFeed r) c
  c.setDirtyMarkets o.dirtyMarketPairs

/-- `apply_changes()` of a pending state `o` to the state `c` below it. -/
def applyOverlay (crypto : Crypto) (o : Overlay) (c : ChainInterface) :
    Fallible ChainInterface := do
  let c ← applyTransactions crypto o (applyRecords crypto o c)
  return applyRest o c

/-- What has been written when the first transaction of a list throws, or all of them. -/
def storeUntilThrow (crypto : Crypto) (c : ChainInterface) :
    List (TransactionId × TransactionRecord) → ChainInterface
  | [] => c
  | e :: es =>
    match c.storeTransaction crypto e.1 e.2 with
    | .ok c' => storeUntilThrow crypto c' es
    | .error _ => c

/-- What `apply_changes()` leaves behind when it throws. -/
def applyOverlayThrown (crypto : Crypto) (o : Overlay) (c : ChainInterface) : ChainInterface :=
  storeUntilThrow crypto (applyRecords crypto o c) o.transactions.toList

/-- `apply_changes()`: the top overlay is written into the state below it. -/
def applyChanges (crypto : Crypto) (c : ChainInterface) : Fallible ChainInterface :=
  match c.overlays with
  | [] => return c
  | o :: os => applyOverlay crypto o { c with overlays := os }

/-- `get_undo_state` of a pending state `o` over the state `c`: what `c` holds wherever `o`
holds something, or that kind's null value. Slots and market statuses that were absent are
recorded by a default record, which carries no key. -/
def getUndoState (crypto : Crypto) (o : Overlay) (c : ChainInterface) : Fallible Overlay := do
  let u ← o.properties.toList.foldlM (fun (u : Overlay) e => do
    let prev ← c.getProperty e.1
    return u.setProperty e.1 prev) {}
  let u := o.assets.foldl (fun u id r =>
    u.storeAssetRecord ((c.getAssetRecord id).getD r.makeNull)) u
  let u := o.slates.foldl (fun u id _ =>
    u.storeDelegateSlate id ((c.getDelegateSlate id).getD [])) u
  let u := o.accounts.foldl (fun u id r =>
    u.storeAccountRecord crypto ((c.getAccountRecord id).getD r.makeNull)) u
  let u := o.balances.foldl (fun u id r =>
    u.storeBalanceRecord crypto ((c.getBalanceRecord id).getD r.makeNull)) u
  let u ← o.transactions.toList.foldlM (fun u e => do
    let prev ← c.getTransaction crypto e.1
    return u.storeTransactionRecord e.1 (prev.getD {})) u
  let u := o.bids.foldl (fun u key _ => u.storeBidRecord key ((c.getBidRecord key).getD {})) u
  let u := o.asks.foldl (fun u key _ => u.storeAskRecord key ((c.getAskRecord key).getD {})) u
  let u := o.shorts.foldl (fun u key _ =>
    u.storeShortRecord key ((c.getShortRecord key).getD {})) u
  let u := o.collateral.foldl (fun u key _ =>
    u.storeCollateralRecord key ((c.getCollateralRecord key).getD {})) u
  let u := o.slots.foldl (fun u t _ => u.storeSlotRecord ((c.getSlotRecord t).getD {})) u
  let u := o.marketStatuses.foldl (fun u pair _ =>
    u.storeMarketStatus ((c.getMarketStatus pair).getD {})) u
  let u := o.feeds.foldl (fun u i _ => u.setFeed ((c.getFeed i).getD { feed := i })) u
  return u.setDirtyMarkets c.getDirtyMarkets

end ChainInterface

end LarkX
