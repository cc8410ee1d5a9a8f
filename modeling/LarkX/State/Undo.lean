import LarkX.State.WellFormed

/-!
# Undo

`get_undo_state` records, for everything a pending state holds, what the ledger holds there;
applying the record later gives the ledger back. `Tables.undo` is the record on the tables
(`getUndoState_toTables`), `Ledger.Agrees` is what is given back (everything but the dirty
markets, the slots, the market statuses and the known digests, and balances up to their being
zero), and `WellFormed.undoes` says so, for every ledger that agrees with the one the pending
state led to. The indexes of accounts come back with the accounts (`Registered.undo`).
-/

namespace LarkX

open Std (TransOrd LawfulEqOrd)

/-! ### The undo state -/

/-- What `base` holds wherever `top` holds something, or a null record. Null slots and market
statuses are recorded without their key. -/
def Tables.undo (top base : Tables) : Tables where
  properties := top.properties.map fun p _ => base.properties[p]?.getD .null
  assets := top.assets.map fun id r => base.assets[id]?.getD r.makeNull
  accounts := top.accounts.map fun id r => base.accounts[id]?.getD r.makeNull
  balances := top.balances.map fun id r => base.balances[id]?.getD r.makeNull
  bids := top.bids.map fun key _ => base.bids[key]?.getD {}
  asks := top.asks.map fun key _ => base.asks[key]?.getD {}
  shorts := top.shorts.map fun key _ => base.shorts[key]?.getD {}
  collateral := top.collateral.map fun key _ => base.collateral[key]?.getD {}
  transactions := top.transactions.map fun id _ => base.transactions[id]?.getD {}
  slates := top.slates.map fun id _ => base.slates[id]?.getD []
  slots := top.slots.foldl (fun t k _ =>
    t.insert (base.slots[k]?.getD {}).startTime (base.slots[k]?.getD {})) ∅
  marketStatuses := top.marketStatuses.foldl (fun t pair _ =>
    t.insert (base.marketStatuses[pair]?.getD {}).pair (base.marketStatuses[pair]?.getD {})) ∅
  feeds := top.feeds.map fun i _ => base.feeds[i]?.getD { feed := i }

namespace ChainInterface

variable {crypto : Crypto} {o u : Overlay} {db : Ledger} {now n : ℕ}

/-- A loop that reads something at every key and stores it. -/
private theorem foldlM_read {κ α β σ : Type} {read : κ → Fallible β} {f : σ → κ → β → σ}
    {g : κ → β} (hread : ∀ k v, read k = .ok v → v = g k) {l : List (κ × α)} {s s' : σ}
    (h : l.foldlM (fun s e => do
      let v ← read e.1
      return f s e.1 v) s = .ok s') :
    s' = l.foldl (fun s e => f s e.1 (g e.1)) s ∧ ∀ e ∈ l, read e.1 = .ok (g e.1) := by
  induction l generalizing s with
  | nil =>
    cases h
    exact ⟨rfl, fun e he => absurd he List.not_mem_nil⟩
  | cons e l ih =>
    rw [List.foldlM_cons, bind_eq_ok] at h
    obtain ⟨s₁, hs₁, h⟩ := h
    simp only [bind_eq_ok, pure_eq_ok] at hs₁
    obtain ⟨v, hv, rfl⟩ := hs₁
    obtain rfl := hread _ _ hv
    obtain ⟨hfold, hall⟩ := ih h
    refine ⟨hfold, fun e' he' => ?_⟩
    rcases List.mem_cons.1 he' with rfl | he'
    · exact hv
    · exact hall e' he'

/-- A fold of stores to one table. -/
private theorem toTables_fold {κ α β : Type} [Ord κ] [TransOrd κ] [LawfulEqOrd κ] {ι : Type}
    [Ord ι] (field : Ledger.Field ι β) (g : Table ι β → κ → α → Table ι β) (t : Table κ α)
    {f : Overlay → κ → α → Overlay}
    (hf : ∀ u k v, t[k]? = some v →
      (f u k v).toTables = field.set u.toTables (g (field.get u.toTables) k v)) (u : Overlay) :
    (t.foldl f u).toTables = field.set u.toTables (t.foldl g (field.get u.toTables)) := by
  have htables := Table.foldl_hom Overlay.toTables
    (g := fun T k v => field.set T (g (field.get T) k v)) t hf u
  have hfield := Table.foldl_hom (field.set u.toTables) (f := g)
    (g := fun T k v => field.set T (g (field.get T) k v)) t
    (fun T k v _ => by rw [field.get_set, field.set_set]) (field.get u.toTables)
  rw [field.set_get] at hfield
  rw [htables, ← hfield]

/-- The record that is written back under a key has that key. -/
private theorem key_getD {κ α : Type} [Ord κ] [TransOrd κ] [LawfulEqOrd κ] {f : α → κ}
    {z : α → α} (hnull : ∀ r, f (z r) = f r) {base top : Table κ α}
    (hbase : base.KeyedBy f) (htop : top.KeyedBy f) {k : κ} {r : α}
    (hr : top[k]? = some r) : f (base[k]?.getD (z r)) = k := by
  cases hk : base[k]? with
  | none => rw [Option.getD_none, hnull, htop k r hr]
  | some old => rw [Option.getD_some, hbase k old hk]

/-- A stored transaction is read under its own id. -/
private theorem getTransaction_ledger {id : TransactionId} {r : Option TransactionRecord}
    (h : getTransaction crypto ⟨[], db, now, n⟩ id = .ok r) :
    r = db.transactions[id]? ∧ ∀ old, r = some old → crypto.transactionId old.trx = id := by
  rw [getTransaction, getTransactionIn] at h
  cases hold : db.transactions[id]? with
  | none =>
    simp only [hold, pure_eq_ok] at h
    subst h
    exact ⟨rfl, fun old hnone => absurd hnone.symm (Option.some_ne_none old)⟩
  | some old =>
    simp only [hold, bind_eq_ok, require_eq_ok, pure_eq_ok] at h
    obtain ⟨-, hid, rfl⟩ := h
    exact ⟨rfl, fun _ hsome => Option.some.inj hsome ▸ hid⟩

private theorem toTables_setDirtyMarkets (u : Overlay) (d : KeySet AssetPair) :
    (u.setDirtyMarkets d).toTables = { u.toTables with
      properties := u.toTables.properties.insert .dirtyMarkets (.markets d) } :=
  rfl

/-- The entries of an undo state are under their own keys. -/
private theorem keyedBy_undo {κ α : Type} [Ord κ] [TransOrd κ] [LawfulEqOrd κ] {f : α → κ}
    {z : α → α} (hnull : ∀ r, f (z r) = f r) {base top : Table κ α}
    (hbase : base.KeyedBy f) (htop : top.KeyedBy f) :
    Table.KeyedBy f (top.map fun k r => base[k]?.getD (z r)) := by
  intro k r hr
  rw [Std.ExtTreeMap.getElem?_map, Option.map_eq_some_iff] at hr
  obtain ⟨new, hnew, rfl⟩ := hr
  exact key_getD hnull hbase htop hnew

theorem keyed_undo {base top : Tables} (hbase : base.Keyed crypto)
    (htop : top.Keyed crypto) : (top.undo base).Keyed crypto where
  assets := keyedBy_undo (z := AssetRecord.makeNull) (fun _ => rfl) hbase.assets htop.assets
  accounts := keyedBy_undo (z := AccountRecord.makeNull) (fun _ => rfl) hbase.accounts
    htop.accounts
  balances := keyedBy_undo (z := BalanceRecord.makeNull) (fun _ => rfl) hbase.balances
    htop.balances
  slots := Table.foldl_induction (P := Table.KeyedBy SlotRecord.startTime) _
    (fun _ _ _ _ h => h.insert _) .empty
  marketStatuses := Table.foldl_induction (P := Table.KeyedBy MarketStatus.pair) _
    (fun _ _ _ _ h => h.insert _) .empty
  feeds := by
    intro i r hr
    rw [Tables.undo, Std.ExtTreeMap.getElem?_map, Option.map_eq_some_iff] at hr
    obtain ⟨-, -, rfl⟩ := hr
    cases hi : base.feeds[i]? with
    | none => rfl
    | some old => exact hbase.feeds i old hi

/-- **The undo state** on the tables. What the ledger holds there is recorded, and its dirty
markets are recorded always. -/
theorem getUndoState_toTables (hdb : db.toTables.Keyed crypto) (ho : o.toTables.Keyed crypto)
    (h : getUndoState crypto o ⟨[], db, now, n⟩ = .ok u) :
    u.toTables = { o.toTables.undo db.toTables with
      properties := (o.toTables.undo db.toTables).properties.insert .dirtyMarkets
        (.markets (getDirtyMarkets ⟨[], db, now, n⟩)) } ∧
    ∀ (id : TransactionId) (r old : TransactionRecord), o.transactions[id]? = some r →
      db.transactions[id]? = some old → crypto.transactionId old.trx = id := by
  simp only [getUndoState, bind_eq_ok, pure_eq_ok] at h
  obtain ⟨u₁, hproperties, u₂, htransactions, rfl⟩ := h
  obtain ⟨rfl, -⟩ := foldlM_read (f := Overlay.setProperty)
    (g := fun p => db.properties[p]?.getD .null) (fun p v hv => by
      rw [getProperty_eq_ok] at hv
      change db.properties[p]? = some v at hv
      rw [hv, Option.getD_some]) hproperties
  obtain ⟨rfl, hread⟩ := foldlM_read
    (f := fun u id r => Overlay.storeTransactionRecord u id (r.getD {}))
    (g := fun id => db.transactions[id]?) (fun _ _ hr => (getTransaction_ledger hr).1)
    htransactions
  refine ⟨?_, fun id r old hr hold =>
    (getTransaction_ledger (hread (id, r) (Table.mem_toList.2 hr))).2 old hold⟩
  rw [← Std.ExtTreeMap.foldl_eq_foldl_toList
      (f := fun u id (_ : TransactionRecord) =>
        Overlay.storeTransactionRecord u id (db.transactions[id]?.getD {})),
    ← Std.ExtTreeMap.foldl_eq_foldl_toList
      (f := fun u p (_ : Variant) => Overlay.setProperty u p (db.properties[p]?.getD .null))]
  rw [toTables_setDirtyMarkets]
  rw [toTables_fold ⟨Tables.feeds, fun t u => { t with feeds := u }, fun _ => rfl,
    fun _ _ => rfl, fun _ _ _ => rfl⟩
    (fun T i _ => T.insert i (db.feeds[i]?.getD { feed := i })) o.feeds fun u i r hr => by
    have hkey : (db.feeds[i]?.getD { feed := i }).feed = i := by
      cases hi : db.feeds[i]? with
      | none => rfl
      | some old => exact hdb.feeds i old hi
    exact congrArg (fun k => { u.toTables with
      feeds := u.feeds.insert k (db.feeds[i]?.getD { feed := i }) }) hkey]
  rw [toTables_fold ⟨Tables.marketStatuses, fun t u => { t with marketStatuses := u }, fun _ => rfl,
    fun _ _ => rfl, fun _ _ _ => rfl⟩ (fun T pair _ => T.insert
      (db.marketStatuses[pair]?.getD {}).pair (db.marketStatuses[pair]?.getD {})) o.marketStatuses
    fun _ _ _ _ => rfl]
  rw [toTables_fold ⟨Tables.slots, fun t u => { t with slots := u }, fun _ => rfl,
    fun _ _ => rfl, fun _ _ _ => rfl⟩ (fun T k _ => T.insert
      (db.slots[k]?.getD {}).startTime (db.slots[k]?.getD {})) o.slots fun _ _ _ _ => rfl]
  rw [toTables_fold ⟨Tables.collateral, fun t u => { t with collateral := u }, fun _ => rfl,
    fun _ _ => rfl, fun _ _ _ => rfl⟩
    (fun T key _ => T.insert key (db.collateral[key]?.getD {})) o.collateral fun _ _ _ _ => rfl]
  rw [toTables_fold ⟨Tables.shorts, fun t u => { t with shorts := u }, fun _ => rfl,
    fun _ _ => rfl, fun _ _ _ => rfl⟩
    (fun T key _ => T.insert key (db.shorts[key]?.getD {})) o.shorts fun _ _ _ _ => rfl]
  rw [toTables_fold ⟨Tables.asks, fun t u => { t with asks := u }, fun _ => rfl,
    fun _ _ => rfl, fun _ _ _ => rfl⟩
    (fun T key _ => T.insert key (db.asks[key]?.getD {})) o.asks fun _ _ _ _ => rfl]
  rw [toTables_fold ⟨Tables.bids, fun t u => { t with bids := u }, fun _ => rfl,
    fun _ _ => rfl, fun _ _ _ => rfl⟩
    (fun T key _ => T.insert key (db.bids[key]?.getD {})) o.bids fun _ _ _ _ => rfl]
  rw [toTables_fold ⟨Tables.transactions, fun t u => { t with transactions := u }, fun _ => rfl,
    fun _ _ => rfl, fun _ _ _ => rfl⟩
    (fun T id _ => T.insert id (db.transactions[id]?.getD {})) o.transactions fun _ _ _ _ => rfl]
  rw [toTables_fold ⟨Tables.balances, fun t u => { t with balances := u }, fun _ => rfl,
    fun _ _ => rfl, fun _ _ _ => rfl⟩
    (fun T id r => T.insert id (db.balances[id]?.getD r.makeNull)) o.balances fun u id r hr => by
    have hkey := key_getD (f := fun r => crypto.conditionAddress r.condition)
      (z := BalanceRecord.makeNull) (fun _ => rfl) hdb.balances ho.balances hr
    exact congrArg (fun k => { u.toTables with
      balances := u.balances.insert k (db.balances[id]?.getD r.makeNull) }) hkey]
  rw [toTables_fold ⟨Tables.accounts, fun t u => { t with accounts := u }, fun _ => rfl,
    fun _ _ => rfl, fun _ _ _ => rfl⟩
    (fun T id r => T.insert id (db.accounts[id]?.getD r.makeNull)) o.accounts fun u id r hr => by
    have hkey := key_getD (z := AccountRecord.makeNull) (fun _ => rfl) hdb.accounts ho.accounts hr
    exact congrArg (fun k => { u.toTables with
      accounts := u.accounts.insert k (db.accounts[id]?.getD r.makeNull) }) hkey]
  rw [toTables_fold ⟨Tables.slates, fun t u => { t with slates := u }, fun _ => rfl,
    fun _ _ => rfl, fun _ _ _ => rfl⟩
    (fun T id _ => T.insert id (db.slates[id]?.getD [])) o.slates fun _ _ _ _ => rfl]
  rw [toTables_fold ⟨Tables.assets, fun t u => { t with assets := u }, fun _ => rfl,
    fun _ _ => rfl, fun _ _ _ => rfl⟩
    (fun T id r => T.insert id (db.assets[id]?.getD r.makeNull)) o.assets fun u id r hr => by
    have hkey := key_getD (z := AssetRecord.makeNull) (fun _ => rfl) hdb.assets ho.assets hr
    exact congrArg (fun k => { u.toTables with
      assets := u.assets.insert k (db.assets[id]?.getD r.makeNull) }) hkey]
  rw [toTables_fold ⟨Tables.properties, fun t u => { t with properties := u }, fun _ => rfl,
    fun _ _ => rfl, fun _ _ _ => rfl⟩
    (fun T p _ => T.insert p (db.properties[p]?.getD .null)) o.properties fun _ _ _ _ => rfl]
  simp only [Tables.undo, ← Table.foldl_insert_eq_map]

/-! ### What stands in the undo state -/

/-- The writes of the undo state of `o` over `c`: what `c` holds wherever `o` holds something. -/
inductive UndoWrite (crypto : Crypto) (o : Overlay) (c : ChainInterface) : Write → Prop
  | property {p : ChainProperty} {v prev : Variant} (h : o.properties[p]? = some v)
      (hprev : c.getProperty p = .ok prev) : UndoWrite crypto o c (.property p prev)
  | asset {id : ℤ} {r : AssetRecord} (h : o.assets[id]? = some r) :
      UndoWrite crypto o c (.asset ((c.getAssetRecord id).getD r.makeNull))
  | account {id : ℤ} {r : AccountRecord} (h : o.accounts[id]? = some r) :
      UndoWrite crypto o c (.account ((c.getAccountRecord id).getD r.makeNull))
  | balance {id : BalanceId} {r : BalanceRecord} (h : o.balances[id]? = some r) :
      UndoWrite crypto o c (.balance ((c.getBalanceRecord id).getD r.makeNull))
  | bid {key : MarketIndexKey} {r : OrderRecord} (h : o.bids[key]? = some r) :
      UndoWrite crypto o c (.bid key ((c.getBidRecord key).getD {}))
  | ask {key : MarketIndexKey} {r : OrderRecord} (h : o.asks[key]? = some r) :
      UndoWrite crypto o c (.ask key ((c.getAskRecord key).getD {}))
  | short {key : MarketIndexKey} {r : OrderRecord} (h : o.shorts[key]? = some r) :
      UndoWrite crypto o c (.short key ((c.getShortRecord key).getD {}))
  | collateral {key : MarketIndexKey} {r : CollateralRecord} (h : o.collateral[key]? = some r) :
      UndoWrite crypto o c (.collateral key ((c.getCollateralRecord key).getD {}))
  | transaction {id : TransactionId} {r : TransactionRecord} {prev : Option TransactionRecord}
      (digest : Digest) (h : o.transactions[id]? = some r)
      (hprev : c.getTransaction crypto id = .ok prev) :
      UndoWrite crypto o c (.transaction id (prev.getD {}) digest)
  | slate {id : SlateId} {slate : List ℤ} (h : o.slates[id]? = some slate) :
      UndoWrite crypto o c (.slate id ((c.getDelegateSlate id).getD []))
  | slot {t : ℕ} {r : SlotRecord} (h : o.slots[t]? = some r) :
      UndoWrite crypto o c (.slot ((c.getSlotRecord t).getD {}))
  | marketStatus {pair : AssetPair} {s : MarketStatus} (h : o.marketStatuses[pair]? = some s) :
      UndoWrite crypto o c (.marketStatus ((c.getMarketStatus pair).getD {}))
  | feed {i : FeedIndex} {r : FeedRecord} (h : o.feeds[i]? = some r) :
      UndoWrite crypto o c (.feed ((c.getFeed i).getD { feed := i }))
  | dirtyMarkets : UndoWrite crypto o c (.property .dirtyMarkets (.markets c.getDirtyMarkets))

section Only

variable {Q : Write → Prop}

variable (crypto) in
/-- A table of writes. -/
private theorem only_foldl {κ α : Type} [Ord κ] [TransOrd κ] [LawfulEqOrd κ]
    (hQ : Overlay.Closed Q) {f : Overlay → κ → α → Overlay} {g : κ → α → Write} {t : Table κ α}
    (hf : ∀ u k v, f u k v = u.write crypto (g k v)) (hg : ∀ k v, t[k]? = some v → Q (g k v))
    (hu : u.Only Q) : (t.foldl f u).Only Q :=
  Table.foldl_induction (P := Overlay.Only Q) t
    (fun u k v hk hu => hf u k v ▸ hu.write hQ crypto (hg k v hk)) hu

/-- A transaction record without its digest. -/
private theorem only_storeTransactionRecord (hQ : Overlay.Closed Q) (hu : u.Only Q)
    {id : TransactionId} {r : TransactionRecord} (hr : Q (.transaction id r 0)) :
    (u.storeTransactionRecord id r).Only Q := by
  have hw := hu.write hQ .transparent hr
  intro w h
  cases h <;> exact hw _ (by constructor; assumption)

/-- **What stands in an undo state** is what its writes are. -/
theorem getUndoState_only {c : ChainInterface} (hQ : Overlay.Closed Q)
    (hw : ∀ w, UndoWrite crypto o c w → Q w) (h : getUndoState crypto o c = .ok u) : u.Only Q := by
  simp only [getUndoState, bind_eq_ok, pure_eq_ok] at h
  obtain ⟨u₁, hproperties, u₂, htransactions, rfl⟩ := h
  have h₁ : u₁.Only Q := by
    refine foldlM_induction (P := Overlay.Only Q) (fun u e u' he hu hstep => ?_)
      (Overlay.only_empty Q) hproperties
    simp only [bind_eq_ok, pure_eq_ok] at hstep
    obtain ⟨prev, hprev, rfl⟩ := hstep
    exact hu.write hQ crypto (hw _ (.property (Table.mem_toList.1 he) hprev))
  have hassets := only_foldl crypto (t := o.assets) hQ (fun _ _ _ => rfl)
    (fun _ _ h => hw _ (.asset h)) h₁
  have hslates := only_foldl crypto (t := o.slates) hQ (fun _ _ _ => rfl)
    (fun _ _ h => hw _ (.slate h)) hassets
  have haccounts := only_foldl crypto (t := o.accounts) hQ (fun _ _ _ => rfl)
    (fun _ _ h => hw _ (.account h)) hslates
  have hbalances := only_foldl crypto (t := o.balances) hQ (fun _ _ _ => rfl)
    (fun _ _ h => hw _ (.balance h)) haccounts
  have h₂ : u₂.Only Q := by
    refine foldlM_induction (P := Overlay.Only Q) (fun u e u' he hu hstep => ?_) hbalances
      htransactions
    simp only [bind_eq_ok, pure_eq_ok] at hstep
    obtain ⟨prev, hprev, rfl⟩ := hstep
    exact only_storeTransactionRecord hQ hu (hw _ (.transaction 0 (Table.mem_toList.1 he) hprev))
  have hbids := only_foldl crypto (t := o.bids) hQ (fun _ _ _ => rfl)
    (fun _ _ h => hw _ (.bid h)) h₂
  have hasks := only_foldl crypto (t := o.asks) hQ (fun _ _ _ => rfl)
    (fun _ _ h => hw _ (.ask h)) hbids
  have hshorts := only_foldl crypto (t := o.shorts) hQ (fun _ _ _ => rfl)
    (fun _ _ h => hw _ (.short h)) hasks
  have hcollateral := only_foldl crypto (t := o.collateral) hQ (fun _ _ _ => rfl)
    (fun _ _ h => hw _ (.collateral h)) hshorts
  have hslots := only_foldl crypto (t := o.slots) hQ (fun _ _ _ => rfl)
    (fun _ _ h => hw _ (.slot h)) hcollateral
  have hstatuses := only_foldl crypto (t := o.marketStatuses) hQ (fun _ _ _ => rfl)
    (fun _ _ h => hw _ (.marketStatus h)) hslots
  have hfeeds := only_foldl crypto (t := o.feeds) hQ (fun _ _ _ => rfl)
    (fun _ _ h => hw _ (.feed h)) hstatuses
  exact hfeeds.write hQ crypto (hw _ .dirtyMarkets)

end Only

end ChainInterface

namespace Ledger

/-! ### What is given back -/

/-- Two ledgers are the same but for the dirty markets, the slots, the market statuses and the
known digests; an empty balance is as good as none. -/
structure Agrees (db db' : Ledger) : Prop where
  properties : ∀ p : ChainProperty, p ≠ .dirtyMarkets → db'.properties[p]? = db.properties[p]?
  assets : db'.assets = db.assets
  accounts : db'.accounts = db.accounts
  balances : ∀ id : BalanceId, db'.balances[id]?.filter (fun r => !r.isNull) =
    db.balances[id]?.filter fun r => !r.isNull
  bids : db'.bids = db.bids
  asks : db'.asks = db.asks
  shorts : db'.shorts = db.shorts
  collateral : db'.collateral = db.collateral
  transactions : db'.transactions = db.transactions
  slates : db'.slates = db.slates
  feeds : db'.feeds = db.feeds
  chainId : db'.chainId = db.chainId

namespace Agrees

theorem refl (db : Ledger) : Agrees db db where
  properties _ _ := rfl
  assets := rfl
  accounts := rfl
  balances _ := rfl
  bids := rfl
  asks := rfl
  shorts := rfl
  collateral := rfl
  transactions := rfl
  slates := rfl
  feeds := rfl
  chainId := rfl

variable {db₁ db₂ db₃ : Ledger}

theorem symm (h : Agrees db₁ db₂) : Agrees db₂ db₁ where
  properties p hp := (h.properties p hp).symm
  assets := h.assets.symm
  accounts := h.accounts.symm
  balances id := (h.balances id).symm
  bids := h.bids.symm
  asks := h.asks.symm
  shorts := h.shorts.symm
  collateral := h.collateral.symm
  transactions := h.transactions.symm
  slates := h.slates.symm
  feeds := h.feeds.symm
  chainId := h.chainId.symm

theorem trans (h : Agrees db₁ db₂) (h' : Agrees db₂ db₃) : Agrees db₁ db₃ where
  properties p hp := (h'.properties p hp).trans (h.properties p hp)
  assets := h'.assets.trans h.assets
  accounts := h'.accounts.trans h.accounts
  balances id := (h'.balances id).trans (h.balances id)
  bids := h'.bids.trans h.bids
  asks := h'.asks.trans h.asks
  shorts := h'.shorts.trans h.shorts
  collateral := h'.collateral.trans h.collateral
  transactions := h'.transactions.trans h.transactions
  slates := h'.slates.trans h.slates
  feeds := h'.feeds.trans h.feeds
  chainId := h'.chainId.trans h.chainId

end Agrees

/-! ### Undoing -/

/-- `undo` leads from any ledger that agrees with `after` to one that agrees with `before`. -/
structure Undoes (crypto : Crypto) (undo : Overlay) (before after : Ledger) : Prop where
  fits : undo.Fits crypto
  agrees : ∀ (db : Ledger) (now : ℕ), WellFormed crypto db → Agrees after db →
    Agrees before (db.apply crypto now undo)
  /-- The accounts stay registered. -/
  registered : ∀ (db : Ledger) (now : ℕ), Registered db → Agrees after db →
    Registered before → Registered (db.apply crypto now undo)

variable {crypto : Crypto} {db db₁ : Ledger} {o u : Overlay} {now now' n : ℕ}

/-- Stores that leave the chain id alone. -/
private theorem unchanged {κ α : Type} [Ord κ] [TransOrd κ] [LawfulEqOrd κ]
    (f : Ledger → κ → α → Ledger) (t : Table κ α) (hf : ∀ db k v, (f db k v).chainId = db.chainId)
    (db : Ledger) : (t.foldl f db).chainId = db.chainId :=
  Table.foldl_unchanged (o := Ledger.chainId) t hf db

theorem apply_chainId (db : Ledger) (now : ℕ) (o : Overlay) :
    (db.apply crypto now o).chainId = db.chainId := by
  have hasset : ∀ (db : Ledger) (_ : ℤ) (r : AssetRecord),
      (db.storeAssetRecord r).chainId = db.chainId := by
    intro db _ r
    unfold storeAssetRecord
    split <;> rfl
  have haccount : ∀ (db : Ledger) (_ : ℤ) (r : AccountRecord),
      (db.storeAccountRecord crypto r).chainId = db.chainId := by
    intro db _ r
    unfold storeAccountRecord
    split <;> rfl
  have htransaction : ∀ (db : Ledger) (id : TransactionId) (r : TransactionRecord),
      (db.putTransaction crypto now id r).chainId = db.chainId := by
    intro db id r
    unfold putTransaction
    dsimp only
    split
    · rfl
    · split <;> rfl
  have hrest : ∀ db : Ledger, (db.applyRest o).chainId = db.chainId := by
    intro db
    change (Ledger.chainId (o.feeds.foldl (fun db _ r => db.setFeed r) _)) = _
    rw [unchanged (fun db _ r => setFeed db r) o.feeds (fun _ _ _ => rfl),
      unchanged (fun db _ s => storeMarketStatus db s) o.marketStatuses (fun _ _ _ => rfl),
      unchanged (fun db _ r => storeSlotRecord db r) o.slots (fun _ _ _ => rfl),
      unchanged storeDelegateSlate o.slates (fun _ _ _ => rfl)]
  have hrecords : ∀ db : Ledger, (db.applyRecords crypto o).chainId = db.chainId := by
    intro db
    unfold applyRecords
    dsimp only
    rw [unchanged storeCollateralRecord o.collateral (fun _ _ _ => rfl),
      unchanged storeShortRecord o.shorts (fun _ _ _ => rfl),
      unchanged storeAskRecord o.asks (fun _ _ _ => rfl),
      unchanged storeBidRecord o.bids (fun _ _ _ => rfl),
      unchanged (fun db _ r => storeBalanceRecord crypto db r) o.balances (fun _ _ _ => rfl),
      unchanged (fun db _ r => storeAccountRecord crypto db r) o.accounts haccount,
      unchanged (fun db _ r => storeAssetRecord db r) o.assets hasset,
      unchanged setProperty o.properties (fun _ _ _ => rfl)]
  rw [apply, hrest, applyTransactions, unchanged (putTransaction crypto · now) o.transactions
    htransaction, hrecords]

/-- The balances that are given back. -/
private theorem balances_undo (top base : Table BalanceId BalanceRecord)
    {t : Table BalanceId BalanceRecord}
    (ht : ∀ id : BalanceId, t[id]?.filter (fun r => !r.isNull) =
      (top.above base)[id]?.filter fun r => !r.isNull) (id : BalanceId) :
    (Table.above (top.map fun id r => base[id]?.getD r.makeNull) t)[id]?.filter
      (fun r => !r.isNull) = base[id]?.filter fun r => !r.isNull := by
  rw [Table.getElem?_above, Std.ExtTreeMap.getElem?_map]
  specialize ht id
  rw [Table.getElem?_above] at ht
  cases htop : top[id]? with
  | none =>
    rw [htop, Option.none_or] at ht
    rw [Option.map_none, Option.none_or, ht]
  | some r =>
    rw [Option.map_some, Option.some_or]
    cases base[id]? <;> rfl

/-- The accounts of an undo state fit the ledger it is applied to. -/
private theorem compatible_undo (h : WellFormed crypto db) (hindexed : db.Indexed)
    (hkeyed : o.toTables.Keyed crypto) (ho : o.Registers db)
    (hdb₁ : db₁.accounts = Table.settle AccountRecord.isNull o.accounts db.accounts) :
    Compatible db₁ (o.accounts.map fun id r => db.accounts[id]?.getD r.makeNull) := by
  -- every record of the undo state is the old one, or the new one made null
  have hcases : ∀ (id : ℤ) (r : AccountRecord),
      (o.accounts.map fun id r => db.accounts[id]?.getD r.makeNull)[id]? = some r →
      ∃ new, o.accounts[id]? = some new ∧ r.name = new.name ∧
        (r.isNull = false → db.accounts[id]? = some r) := by
    intro id r hr
    rw [Std.ExtTreeMap.getElem?_map, Option.map_eq_some_iff] at hr
    obtain ⟨new, hnew, rfl⟩ := hr
    refine ⟨new, hnew, ?_⟩
    cases hold : db.accounts[id]? with
    | none => exact ⟨rfl, fun hnull => by rw [Option.getD_none] at hnull; cases hnull⟩
    | some old => exact ⟨(ho.accounts.old id new old hnew hold).symm, fun _ => rfl⟩
  refine ⟨fun id r hr => ?_, fun id r old hr hold => ?_, fun id r hr hnull hnone => ?_,
    fun id id' r r' hr hr' hnull hnull' hname => ?_⟩
  · rw [Std.ExtTreeMap.getElem?_map, Option.map_eq_some_iff] at hr
    obtain ⟨new, hnew, rfl⟩ := hr
    exact ChainInterface.key_getD (z := AccountRecord.makeNull) (fun _ => rfl)
      h.keyed.accounts hkeyed.accounts hnew
  · obtain ⟨new, hnew, hname, -⟩ := hcases id r hr
    rw [hdb₁, Table.getElem?_settle, hnew, Option.elim_some] at hold
    split at hold
    · cases hold
    · cases hold
      exact hname
  · obtain ⟨new, hnew, -, hold⟩ := hcases id r hr
    rw [hdb₁, Table.getElem?_settle, hnew, Option.elim_some,
      ho.kept id new r hnew (hold hnull)] at hnone
    cases hnone
  · obtain ⟨-, -, -, hold⟩ := hcases id r hr
    obtain ⟨-, -, -, hold'⟩ := hcases id' r' hr'
    exact hindexed.name_inj (hold hnull) (hold' hnull') hname

/-- One table is given back. -/
private theorem settle_back {κ α : Type} [Ord κ] [TransOrd κ] [LawfulEqOrd κ] {isNull : α → Bool}
    {null : κ → α → α} {base top undone written : Table κ α}
    (hundone : undone = top.map fun k v => base[k]?.getD (null k v))
    (hwritten : written = Table.settle isNull top base) (hbase : base.Live isNull)
    (hnull : ∀ k v, isNull (null k v) = true := by exact fun _ _ => rfl) :
    Table.settle isNull undone written = base := by
  rw [hundone, hwritten]
  exact Table.settle_undo hnull hbase top

section

variable (h : WellFormed crypto db) (ho : o.Fits crypto)
  (hundo : ChainInterface.getUndoState crypto o ⟨[], db, now, n⟩ = .ok u)

include h ho hundo

theorem fits_undo : u.Fits crypto := by
  obtain ⟨htables, hids⟩ := ChainInterface.getUndoState_toTables h.keyed ho.keyed hundo
  refine ⟨?_, fun id r hr => ?_⟩
  · have hkeyed := ChainInterface.keyed_undo h.keyed ho.keyed
    rw [htables]
    exact ⟨hkeyed.assets, hkeyed.accounts, hkeyed.balances, hkeyed.slots, hkeyed.marketStatuses,
      hkeyed.feeds⟩
  · have hr' : (o.transactions.map fun id _ => db.transactions[id]?.getD {})[id]? = some r := by
      rw [← hr]
      exact congrArg (fun t : Tables => t.transactions[id]?) htables.symm
    rw [Std.ExtTreeMap.getElem?_map, Option.map_eq_some_iff] at hr'
    obtain ⟨new, hnew, rfl⟩ := hr'
    cases hold : db.transactions[id]? with
    | none => exact Or.inl rfl
    | some old => exact Or.inr (hids id new old hnew hold).symm

/-- **The tables come back.** -/
theorem agrees_undo (hagrees : Agrees (db.apply crypto now' o) db₁) (now₁ : ℕ) :
    Agrees db (db₁.apply crypto now₁ u) := by
  have htables := (ChainInterface.getUndoState_toTables h.keyed ho.keyed hundo).1
  have hafter := apply_toTables now' db ho.keyed
  have happlied := apply_toTables now₁ db₁ (fits_undo h ho hundo).keyed
  exact {
    properties := fun p hp => by
      have hundone : u.properties[p]? =
          (o.properties.map fun p _ => db.properties[p]?.getD .null)[p]? :=
        (congrArg (fun t : Tables => t.properties[p]?) htables).trans
          (Table.getElem?_insert_of_ne _ _ hp)
      have hwritten : db₁.properties[p]? =
          (Table.settle Variant.isNull o.properties db.properties)[p]? :=
        (hagrees.properties p hp).trans ((congrArg (fun t : Tables => t.properties[p]?) hafter).trans
          (Table.getElem?_insert_of_ne _ _ hp))
      have happly : (db₁.apply crypto now₁ u).properties[p]? =
          (Table.settle Variant.isNull u.properties db₁.properties)[p]? :=
        (congrArg (fun t : Tables => t.properties[p]?) happlied).trans
          (Table.getElem?_insert_of_ne _ _ hp)
      rw [happly, Table.getElem?_settle, hundone, hwritten, ← Table.getElem?_settle,
        Table.settle_undo (fun _ _ => rfl) h.live.properties]
    assets := (congrArg Tables.assets happlied).trans (settle_back
      (congrArg Tables.assets htables) (hagrees.assets.trans (congrArg Tables.assets hafter))
      h.live.assets)
    accounts := (congrArg Tables.accounts happlied).trans (settle_back
      (congrArg Tables.accounts htables) (hagrees.accounts.trans (congrArg Tables.accounts hafter))
      h.live.accounts)
    balances := fun id => by
      rw [show (db₁.apply crypto now₁ u).balances = u.balances.above db₁.balances from
        congrArg Tables.balances happlied,
        show u.balances = o.balances.map fun id r => db.balances[id]?.getD r.makeNull from
          congrArg Tables.balances htables]
      refine balances_undo o.balances db.balances (fun id => ?_) id
      rw [hagrees.balances, show (db.apply crypto now' o).balances = o.balances.above db.balances
        from congrArg Tables.balances hafter]
    bids := (congrArg Tables.bids happlied).trans (settle_back
      (congrArg Tables.bids htables) (hagrees.bids.trans (congrArg Tables.bids hafter))
      h.live.bids)
    asks := (congrArg Tables.asks happlied).trans (settle_back
      (congrArg Tables.asks htables) (hagrees.asks.trans (congrArg Tables.asks hafter))
      h.live.asks)
    shorts := (congrArg Tables.shorts happlied).trans (settle_back
      (congrArg Tables.shorts htables) (hagrees.shorts.trans (congrArg Tables.shorts hafter))
      h.live.shorts)
    collateral := (congrArg Tables.collateral happlied).trans (settle_back
      (congrArg Tables.collateral htables)
      (hagrees.collateral.trans (congrArg Tables.collateral hafter)) h.live.collateral)
    transactions := (congrArg Tables.transactions happlied).trans (settle_back
      (congrArg Tables.transactions htables)
      (hagrees.transactions.trans (congrArg Tables.transactions hafter)) h.live.transactions)
    slates := (congrArg Tables.slates happlied).trans (settle_back
      (congrArg Tables.slates htables) (hagrees.slates.trans (congrArg Tables.slates hafter))
      h.live.slates)
    feeds := (congrArg Tables.feeds happlied).trans (settle_back
      (congrArg Tables.feeds htables) (hagrees.feeds.trans (congrArg Tables.feeds hafter))
      h.live.feeds)
    chainId := by rw [apply_chainId, hagrees.chainId, apply_chainId] }

/-- **The indexes of accounts come back** with the accounts. -/
theorem Registered.undo (hregistered : Registered db) (hregisters : o.Registers db)
    (hdb₁ : Registered db₁) (hagrees : Agrees (db.apply crypto now' o) db₁) (now₁ : ℕ) :
    Registered (db₁.apply crypto now₁ u) := by
  have htables := (ChainInterface.getUndoState_toTables h.keyed ho.keyed hundo).1
  have hback := agrees_undo h ho hundo hagrees now₁
  refine ⟨hdb₁.indexed.apply now₁ ?_, ?_⟩
  · rw [show u.accounts = _ from congrArg Tables.accounts htables]
    exact compatible_undo h hregistered.indexed ho.keyed hregisters (hagrees.accounts.trans
      (congrArg Tables.accounts (apply_toTables now' db ho.keyed)))
  · rw [hback.accounts, hback.properties _ (by decide)]
    exact hregistered.lastAccount

/-- **Undo is exact.** The undo state of a pending state leads back from wherever it led. -/
theorem WellFormed.undoes (hregisters : Registered db → o.Registers db) :
    Undoes crypto u db (db.apply crypto now' o) where
  fits := fits_undo h ho hundo
  agrees _ now₁ _ hagrees := agrees_undo h ho hundo hagrees now₁
  registered _ now₁ hdb₁ hagrees hregistered :=
    Registered.undo h ho hundo hregistered (hregisters hregistered) hdb₁ hagrees now₁

end

end Ledger

end LarkX
