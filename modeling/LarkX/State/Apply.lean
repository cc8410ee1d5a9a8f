import LarkX.State.Keyed

/-!
# Applying a pending state to the database

`apply_changes` on the database writes each record of a pending state under its own key and
removes what is null. `Tables.settle` is that on the tables, and `applyOverlay_ledger` says that
it is what `applyOverlay` does, whatever happens to the side indexes. Only a transaction can
make it throw, and only one that is stored under a foreign id (`TransactionsNamed`).
-/

namespace LarkX

open Std (TransOrd LawfulEqOrd)

/-! ### Stores of the database -/

/-- The null transaction record: one without operations. -/
def TransactionRecord.isNull (r : TransactionRecord) : Bool :=
  r.trx.operations.isEmpty

/-- The tables of `top` written to those of `base`, null records removed. -/
def Tables.settle (top base : Tables) : Tables where
  properties := .settle Variant.isNull top.properties base.properties
  assets := .settle AssetRecord.isNull top.assets base.assets
  accounts := .settle AccountRecord.isNull top.accounts base.accounts
  balances := top.balances.above base.balances
  bids := .settle OrderRecord.isNull top.bids base.bids
  asks := .settle OrderRecord.isNull top.asks base.asks
  shorts := .settle OrderRecord.isNull top.shorts base.shorts
  collateral := .settle CollateralRecord.isNull top.collateral base.collateral
  transactions := .settle TransactionRecord.isNull top.transactions base.transactions
  slates := .settle List.isEmpty top.slates base.slates
  slots := .settle SlotRecord.isNull top.slots base.slots
  marketStatuses := .settle MarketStatus.isNull top.marketStatuses base.marketStatuses
  feeds := .settle FeedRecord.isNull top.feeds base.feeds

namespace Ledger

variable (crypto : Crypto) (db : Ledger)

theorem storeAssetRecord_toTables (r : AssetRecord) : (db.storeAssetRecord r).toTables =
    { db.toTables with assets := db.assets.put r.isNull r.id r } := by
  unfold storeAssetRecord Table.put
  split <;> rfl

theorem storeAccountRecord_toTables (r : AccountRecord) :
    (db.storeAccountRecord crypto r).toTables =
      { db.toTables with accounts := db.accounts.put r.isNull r.id r } := by
  unfold storeAccountRecord Table.put
  cases hnull : r.isNull with
  | false => rfl
  | true =>
    cases hold : db.accounts[r.id]? with
    | some old => rfl
    | none =>
      have herase : db.accounts.erase r.id = db.accounts := by
        refine Table.ext fun k => ?_
        by_cases hk : k = r.id
        · rw [hk, hold, Table.getElem?_erase_same]
        · exact Table.getElem?_erase_of_ne _ hk
      rw [if_pos rfl, herase]

/-- What `store_transaction` writes when it does not throw. -/
def putTransaction (now : ℕ) (id : TransactionId) (r : TransactionRecord) : Ledger :=
  let exp := r.trx.expiration
  let digest := crypto.transactionDigest r.trx.toTransaction db.chainId
  if r.trx.operations = [] then
    { db with
      transactions := db.transactions.erase id
      uniqueTransactions := db.uniqueTransactions.insert exp ((db.digestsAt exp).erase digest) }
  else if now < exp then
    { db with
      transactions := db.transactions.insert id r
      uniqueTransactions := db.uniqueTransactions.insert exp
        ((db.digestsAt exp).insert digest ()) }
  else { db with transactions := db.transactions.insert id r }

/-- A record is stored under the id of its transaction, or removes one. -/
def Named (crypto : Crypto) (id : TransactionId) (r : TransactionRecord) : Prop :=
  r.trx.operations = [] ∨ id = crypto.transactionId r.trx

/-- Behind the `FORK_25` gate, a named record is always stored. -/
theorem storeTransaction_eq {now headBlockNum : ℕ} {id : TransactionId} {r : TransactionRecord}
    (hgate : atOrAfterFork25 headBlockNum = false) (hnamed : Named crypto id r) :
    db.storeTransaction crypto now headBlockNum id r = .ok (db.putTransaction crypto now id r) := by
  unfold storeTransaction putTransaction
  by_cases hops : r.trx.operations = []
  · simp only [if_pos hops]
    rfl
  · have hid : id = crypto.transactionId r.trx := hnamed.resolve_left hops
    have hnot : ¬(atOrAfterFork25 headBlockNum = true ∧ (db.digestsAt r.trx.expiration).contains
        (crypto.transactionDigest r.trx.toTransaction db.chainId) = true) := by
      rw [hgate]
      exact fun h => Bool.false_ne_true h.1
    simp only [if_neg hops, require, if_pos hid, if_pos hnot, ok_bind]
    split <;> rfl

theorem putTransaction_toTables (now : ℕ) (id : TransactionId) (r : TransactionRecord) :
    (db.putTransaction crypto now id r).toTables =
      { db.toTables with transactions := db.transactions.put r.isNull id r } := by
  unfold putTransaction Table.put TransactionRecord.isNull
  by_cases hops : r.trx.operations = []
  · simp only [hops, List.isEmpty_nil, if_true]
  · simp only [List.isEmpty_iff, hops, if_false]
    split <;> rfl

/-! ### Applying a pending state -/

/-- The records of a pending state, table by table. -/
def applyRecords (o : Overlay) : Ledger :=
  let db := o.properties.foldl (fun db p v => db.setProperty p v) db
  let db := o.assets.foldl (fun db _ r => db.storeAssetRecord r) db
  let db := o.accounts.foldl (fun db _ r => db.storeAccountRecord crypto r) db
  let db := o.balances.foldl (fun db _ r => db.storeBalanceRecord crypto r) db
  let db := o.bids.foldl (fun db key r => db.storeBidRecord key r) db
  let db := o.asks.foldl (fun db key r => db.storeAskRecord key r) db
  let db := o.shorts.foldl (fun db key r => db.storeShortRecord key r) db
  o.collateral.foldl (fun db key r => db.storeCollateralRecord key r) db

/-- The transactions of a pending state. -/
def applyTransactions (now : ℕ) (o : Overlay) : Ledger :=
  o.transactions.foldl (fun db id r => db.putTransaction crypto now id r) db

/-- The rest of a pending state. -/
def applyRest (o : Overlay) : Ledger :=
  let db := o.slates.foldl (fun db id slate => db.storeDelegateSlate id slate) db
  let db := o.slots.foldl (fun db _ r => db.storeSlotRecord r) db
  let db := o.marketStatuses.foldl (fun db _ s => db.storeMarketStatus s) db
  let db := o.feeds.foldl (fun db _ r => db.setFeed r) db
  db.setDirtyMarkets o.dirtyMarketPairs

/-- A pending state applied to the database. -/
def apply (now : ℕ) (o : Overlay) : Ledger :=
  ((db.applyRecords crypto o).applyTransactions crypto now o).applyRest o

end Ledger

namespace ChainInterface

variable {crypto : Crypto} {c : ChainInterface} {o : Overlay}

/-- A fold of stores on an empty stack is a fold of the stores of the database. -/
private theorem foldl_update {κ α : Type} [Ord κ] [TransOrd κ] [LawfulEqOrd κ]
    (onDb : κ → α → Ledger → Ledger) (onTop : κ → α → Overlay → Overlay) (t : Table κ α)
    (db : Ledger) (now n : ℕ) :
    t.foldl (fun c k v => ChainInterface.update c (onDb k v) (onTop k v)) ⟨[], db, now, n⟩ =
      ⟨[], t.foldl (fun db k v => onDb k v db) db, now, n⟩ := by
  exact (Table.foldl_hom (fun db : Ledger => (⟨[], db, now, n⟩ : ChainInterface))
    (f := fun db k v => onDb k v db) t (fun _ _ _ _ => rfl) db).symm

theorem applyRecords_ledger (db : Ledger) (now n : ℕ) :
    applyRecords crypto o ⟨[], db, now, n⟩ = ⟨[], db.applyRecords crypto o, now, n⟩ := by
  unfold applyRecords Ledger.applyRecords setProperty storeAssetRecord storeAccountRecord
    storeBalanceRecord storeBidRecord storeAskRecord storeShortRecord storeCollateralRecord
  simp only [foldl_update]

theorem applyRest_ledger (db : Ledger) (now n : ℕ) :
    applyRest o ⟨[], db, now, n⟩ = ⟨[], db.applyRest o, now, n⟩ := by
  unfold applyRest Ledger.applyRest storeDelegateSlate storeSlotRecord storeMarketStatus setFeed
  simp only [foldl_update]
  rfl

/-- Every transaction of a pending state is stored under its own id. -/
def TransactionsNamed (crypto : Crypto) (o : Overlay) : Prop :=
  ∀ id r, o.transactions[id]? = some r → Ledger.Named crypto id r

theorem applyTransactions_ledger {now n : ℕ} (db : Ledger) (hgate : atOrAfterFork25 n = false)
    (hnamed : TransactionsNamed crypto o) : applyTransactions crypto o ⟨[], db, now, n⟩ =
      .ok ⟨[], db.applyTransactions crypto now o, now, n⟩ := by
  have key : ∀ (l : List (TransactionId × TransactionRecord)) (db : Ledger),
      (∀ e ∈ l, Ledger.Named crypto e.1 e.2) →
      l.foldlM (fun (c : ChainInterface) (e : TransactionId × TransactionRecord) =>
        c.storeTransaction crypto e.1 e.2) ⟨[], db, now, n⟩ =
      .ok ⟨[], l.foldl (fun db e => db.putTransaction crypto now e.1 e.2) db, now, n⟩ := by
    intro l
    induction l with
    | nil => exact fun _ _ => rfl
    | cons e l ih =>
      intro db hl
      have hstore : storeTransaction crypto ⟨[], db, now, n⟩ e.1 e.2 =
          .ok ⟨[], db.putTransaction crypto now e.1 e.2, now, n⟩ := by
        simp only [storeTransaction, Ledger.storeTransaction_eq crypto db hgate
          (hl e List.mem_cons_self), ok_bind]
        rfl
      rw [List.foldlM_cons, hstore, ok_bind, List.foldl_cons]
      exact ih _ fun e' he' => hl e' (List.mem_cons_of_mem _ he')
  rw [applyTransactions, Ledger.applyTransactions, Std.ExtTreeMap.foldl_eq_foldl_toList]
  exact key _ db fun e he => hnamed e.1 e.2 (Table.mem_toList.1 he)

/-- **Applying to the database** writes the tables and never throws. -/
theorem applyOverlay_ledger {now n : ℕ} (db : Ledger) (hgate : atOrAfterFork25 n = false)
    (hnamed : TransactionsNamed crypto o) : applyOverlay crypto o ⟨[], db, now, n⟩ =
      .ok ⟨[], db.apply crypto now o, now, n⟩ := by
  simp only [applyOverlay, applyRecords_ledger, applyTransactions_ledger _ hgate hnamed, ok_bind,
    applyRest_ledger]
  rfl

end ChainInterface

/-! ### The tables after applying -/

namespace Ledger

variable {crypto : Crypto} {o : Overlay}

/-- A table of the tables, to read and to write. -/
structure Field (κ α : Type) [Ord κ] where
  get : Tables → Table κ α
  set : Tables → Table κ α → Tables
  set_get : ∀ t, set t (get t) = t
  get_set : ∀ t u, get (set t u) = u
  set_set : ∀ t u u', set (set t u) u' = set t u'

/-- The fold of one kind of store settles its table. -/
private theorem toTables_foldl {κ α : Type} [Ord κ] [TransOrd κ] [LawfulEqOrd κ]
    (field : Field κ α) (isNull : α → Bool) {f : Ledger → κ → α → Ledger} (t : Table κ α)
    (h : ∀ (db : Ledger) (k : κ) (v : α), t[k]? = some v →
      (f db k v).toTables = field.set db.toTables ((field.get db.toTables).put (isNull v) k v))
    (db : Ledger) : (t.foldl f db).toTables =
      field.set db.toTables (.settle isNull t (field.get db.toTables)) := by
  have htables := Table.foldl_hom Ledger.toTables
    (g := fun u k v => field.set u ((field.get u).put (isNull v) k v)) t h db
  have hfield := Table.foldl_hom (field.set db.toTables)
    (f := fun u k v => u.put (isNull v) k v)
    (g := fun u k v => field.set u ((field.get u).put (isNull v) k v)) t
    (fun u k v _ => by rw [field.get_set, field.set_set]) (field.get db.toTables)
  rw [htables, Table.settle, hfield, field.set_get]

/-- The tables after a table of accounts has been stored. -/
theorem storeAccounts_toTables {accounts : Table ℤ AccountRecord}
    (hkeyed : accounts.KeyedBy AccountRecord.id) (db : Ledger) :
    (accounts.foldl (fun db _ r => db.storeAccountRecord crypto r) db).toTables =
      { db.toTables with accounts := .settle AccountRecord.isNull accounts db.accounts } :=
  toTables_foldl ⟨Tables.accounts, fun t u => { t with accounts := u }, fun _ => rfl,
    fun _ _ => rfl, fun _ _ _ => rfl⟩ AccountRecord.isNull accounts
    (fun db k r hr => by rw [storeAccountRecord_toTables, hkeyed k r hr]) db

theorem applyRecords_toTables (db : Ledger) (hkeyed : o.toTables.Keyed crypto) :
    (db.applyRecords crypto o).toTables = { db.toTables with
      properties := .settle Variant.isNull o.properties db.properties
      assets := .settle AssetRecord.isNull o.assets db.assets
      accounts := .settle AccountRecord.isNull o.accounts db.accounts
      balances := o.balances.above db.balances
      bids := .settle OrderRecord.isNull o.bids db.bids
      asks := .settle OrderRecord.isNull o.asks db.asks
      shorts := .settle OrderRecord.isNull o.shorts db.shorts
      collateral := .settle CollateralRecord.isNull o.collateral db.collateral } := by
  unfold applyRecords
  dsimp only
  rw [toTables_foldl ⟨Tables.collateral, fun t u => { t with collateral := u }, fun _ => rfl,
    fun _ _ => rfl, fun _ _ _ => rfl⟩ CollateralRecord.isNull o.collateral fun _ _ _ _ => rfl]
  rw [toTables_foldl ⟨Tables.shorts, fun t u => { t with shorts := u }, fun _ => rfl,
    fun _ _ => rfl, fun _ _ _ => rfl⟩ OrderRecord.isNull o.shorts fun _ _ _ _ => rfl]
  rw [toTables_foldl ⟨Tables.asks, fun t u => { t with asks := u }, fun _ => rfl,
    fun _ _ => rfl, fun _ _ _ => rfl⟩ OrderRecord.isNull o.asks fun _ _ _ _ => rfl]
  rw [toTables_foldl ⟨Tables.bids, fun t u => { t with bids := u }, fun _ => rfl,
    fun _ _ => rfl, fun _ _ _ => rfl⟩ OrderRecord.isNull o.bids fun _ _ _ _ => rfl]
  rw [toTables_foldl ⟨Tables.balances, fun t u => { t with balances := u }, fun _ => rfl,
    fun _ _ => rfl, fun _ _ _ => rfl⟩ (fun _ => false) o.balances fun db k r hr => by
    rw [← hkeyed.balances k r hr]
    rfl]
  rw [storeAccounts_toTables hkeyed.accounts]
  rw [toTables_foldl ⟨Tables.assets, fun t u => { t with assets := u }, fun _ => rfl,
    fun _ _ => rfl, fun _ _ _ => rfl⟩ AssetRecord.isNull o.assets fun db k r hr => by
    rw [storeAssetRecord_toTables, hkeyed.assets k r hr]]
  rw [toTables_foldl ⟨Tables.properties, fun t u => { t with properties := u }, fun _ => rfl,
    fun _ _ => rfl, fun _ _ _ => rfl⟩ Variant.isNull o.properties fun _ _ _ _ => rfl]
  rw [← Table.settle_eq_above (fun _ => false) db.balances fun _ _ _ => rfl]

theorem applyTransactions_toTables (now : ℕ) (db : Ledger) :
    (db.applyTransactions crypto now o).toTables = { db.toTables with
      transactions := .settle TransactionRecord.isNull o.transactions db.transactions } :=
  toTables_foldl ⟨Tables.transactions, fun t u => { t with transactions := u }, fun _ => rfl,
    fun _ _ => rfl, fun _ _ _ => rfl⟩ TransactionRecord.isNull o.transactions
    (fun db k r _ => putTransaction_toTables crypto db now k r) db

theorem setDirtyMarkets_toTables (db : Ledger) (d : KeySet AssetPair) :
    (db.setDirtyMarkets d).toTables = { db.toTables with
      properties := db.toTables.properties.insert .dirtyMarkets (.markets d) } :=
  rfl

theorem applyRest_toTables (db : Ledger) (hkeyed : o.toTables.Keyed crypto) :
    (db.applyRest o).toTables = { db.toTables with
      slates := .settle List.isEmpty o.slates db.slates
      slots := .settle SlotRecord.isNull o.slots db.slots
      marketStatuses := .settle MarketStatus.isNull o.marketStatuses db.marketStatuses
      feeds := .settle FeedRecord.isNull o.feeds db.feeds
      properties := db.properties.insert .dirtyMarkets (.markets o.dirtyMarketPairs) } := by
  unfold applyRest
  dsimp only
  rw [setDirtyMarkets_toTables]
  rw [toTables_foldl ⟨Tables.feeds, fun t u => { t with feeds := u }, fun _ => rfl,
    fun _ _ => rfl, fun _ _ _ => rfl⟩ FeedRecord.isNull o.feeds fun db k r hr => by
    rw [← hkeyed.feeds k r hr]
    rfl]
  rw [toTables_foldl ⟨Tables.marketStatuses, fun t u => { t with marketStatuses := u }, fun _ => rfl,
    fun _ _ => rfl, fun _ _ _ => rfl⟩ MarketStatus.isNull o.marketStatuses fun db k r hr => by
    rw [← hkeyed.marketStatuses k r hr]
    rfl]
  rw [toTables_foldl ⟨Tables.slots, fun t u => { t with slots := u }, fun _ => rfl,
    fun _ _ => rfl, fun _ _ _ => rfl⟩ SlotRecord.isNull o.slots fun db k r hr => by
    rw [← hkeyed.slots k r hr]
    rfl]
  rw [toTables_foldl ⟨Tables.slates, fun t u => { t with slates := u }, fun _ => rfl,
    fun _ _ => rfl, fun _ _ _ => rfl⟩ List.isEmpty o.slates fun _ _ _ _ => rfl]

/-- **The tables after applying** a pending state whose records are under their own keys. -/
theorem apply_toTables (now : ℕ) (db : Ledger) (hkeyed : o.toTables.Keyed crypto) :
    (db.apply crypto now o).toTables = { o.toTables.settle db.toTables with
      properties := (Table.settle Variant.isNull o.properties db.properties).insert .dirtyMarkets
        (.markets o.dirtyMarketPairs) } := by
  rw [apply, applyRest_toTables _ hkeyed, applyTransactions_toTables,
    applyRecords_toTables _ hkeyed]
  rfl

end Ledger

end LarkX
