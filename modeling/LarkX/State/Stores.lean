import LarkX.State.Indexed
import LarkX.State.Layers
import Mathlib.Logic.Relation

/-!
# Stores to the database

Between two states of the database lies a sequence of stores. `Ledger.StoreOf` is the store a
`Write` is to the database, and `StoresOf P` a sequence of those for writes in `P`. Applying a
pending state is such a sequence, for what stands in it, also when it throws on the way
(`applyOverlay_storesOf`, `applyOverlayThrown_storesOf`). So what each store keeps is kept however
the database changes.

`Ledger.Stores` is a sequence of stores seen from the accounts: calls of `store_account_record` with
any records, and changes that leave the accounts and the vote index alone. An exact vote index is
kept by all of them.
-/

namespace LarkX

open Std (TransOrd LawfulEqOrd)

namespace Ledger

variable {crypto : Crypto} {db db' db'' : Ledger}

/-- One store. -/
inductive Store (crypto : Crypto) (db : Ledger) : Ledger → Prop
  | account (r : AccountRecord) : Store crypto db (db.storeAccountRecord crypto r)
  | aside {db' : Ledger} (haccounts : db'.accounts = db.accounts)
      (hvotes : db'.delegateVoteIndex = db.delegateVoteIndex) : Store crypto db db'

/-- A sequence of stores. -/
abbrev Stores (crypto : Crypto) : Ledger → Ledger → Prop :=
  Relation.ReflTransGen (Store crypto)

theorem Stores.account (db : Ledger) (r : AccountRecord) :
    Stores crypto db (db.storeAccountRecord crypto r) :=
  .single (.account r)

/-- Calls of `store_account_record`, one after another. -/
theorem Stores.records (db : Ledger) (l : List AccountRecord) :
    Stores crypto db (l.foldl (fun db r => db.storeAccountRecord crypto r) db) := by
  induction l generalizing db with
  | nil => exact .refl
  | cons r l ih => exact .head (.account r) (ih _)

theorem Stores.aside (haccounts : db'.accounts = db.accounts)
    (hvotes : db'.delegateVoteIndex = db.delegateVoteIndex) : Stores crypto db db' :=
  .single (.aside haccounts hvotes)

/-- **Stores keep the vote index exact.** -/
theorem Stores.votesIndexed (h : Stores crypto db db') (hdb : VotesIndexed db) :
    VotesIndexed db' := by
  induction h with
  | refl => exact hdb
  | tail _ hstore ih =>
    cases hstore with
    | account r => exact ih.storeAccountRecord r
    | aside haccounts hvotes =>
      intro v
      rw [hvotes, haccounts]
      exact ih v

theorem votesIndexed_empty (chainId : Digest) : VotesIndexed { chainId } := by
  intro v
  constructor
  · intro h
    cases (Table.getElem?_empty' v).symm.trans h
  · rintro ⟨r, info, hr, -⟩
    cases (Table.getElem?_empty' v.delegateId).symm.trans hr

/-- Accounts determine an exact vote index. -/
theorem VotesIndexed.ext (h : VotesIndexed db) (h' : VotesIndexed db')
    (haccounts : db'.accounts = db.accounts) : db'.delegateVoteIndex = db.delegateVoteIndex := by
  refine Table.ext fun v => Option.ext fun u => ?_
  rw [h, h', haccounts]

/-! ### The store of a write -/

/-- A write to the database. A transaction may throw instead; a dirty market and a new account are
writes to pending states only. -/
inductive StoreOf (crypto : Crypto) (db : Ledger) : Write → Ledger → Prop
  | property (p : ChainProperty) (v : Variant) :
      StoreOf crypto db (.property p v) (db.setProperty p v)
  | asset (r : AssetRecord) : StoreOf crypto db (.asset r) (db.storeAssetRecord r)
  | account (r : AccountRecord) : StoreOf crypto db (.account r) (db.storeAccountRecord crypto r)
  | balance (r : BalanceRecord) : StoreOf crypto db (.balance r) (db.storeBalanceRecord crypto r)
  | bid (key : MarketIndexKey) (r : OrderRecord) :
      StoreOf crypto db (.bid key r) (db.storeBidRecord key r)
  | ask (key : MarketIndexKey) (r : OrderRecord) :
      StoreOf crypto db (.ask key r) (db.storeAskRecord key r)
  | short (key : MarketIndexKey) (r : OrderRecord) :
      StoreOf crypto db (.short key r) (db.storeShortRecord key r)
  | collateral (key : MarketIndexKey) (r : CollateralRecord) :
      StoreOf crypto db (.collateral key r) (db.storeCollateralRecord key r)
  | transaction {now n : ℕ} {id : TransactionId} {r : TransactionRecord} {db' : Ledger}
      (digest : Digest) (h : db.storeTransaction crypto now n id r = .ok db') :
      StoreOf crypto db (.transaction id r digest) db'
  | slate (id : SlateId) (slate : List ℤ) :
      StoreOf crypto db (.slate id slate) (db.storeDelegateSlate id slate)
  | slot (r : SlotRecord) : StoreOf crypto db (.slot r) (db.storeSlotRecord r)
  | marketStatus (s : MarketStatus) :
      StoreOf crypto db (.marketStatus s) (db.storeMarketStatus s)
  | feed (r : FeedRecord) : StoreOf crypto db (.feed r) (db.setFeed r)

/-- A sequence of stores of writes in `P`. -/
abbrev StoresOf (crypto : Crypto) (P : Write → Prop) : Ledger → Ledger → Prop :=
  Relation.ReflTransGen fun db db' => ∃ w, P w ∧ StoreOf crypto db w db'

variable {P Q : Write → Prop}

theorem StoresOf.put {w : Write} (h : StoresOf crypto P db db') (hw : P w)
    (hstore : StoreOf crypto db' w db'') : StoresOf crypto P db db'' :=
  h.tail ⟨w, hw, hstore⟩

/-- **Invariant rule.** What every store of a write in `P` keeps, a sequence of them keeps. -/
theorem StoresOf.invariant {I : Ledger → Prop}
    (step : ∀ db w db', I db → P w → StoreOf crypto db w db' → I db')
    (h : StoresOf crypto P db db') (hdb : I db) : I db' := by
  induction h with
  | refl => exact hdb
  | tail _ hstore ih =>
    obtain ⟨w, hw, hstore⟩ := hstore
    exact step _ w _ ih hw hstore

theorem StoresOf.mono (hPQ : ∀ w, P w → Q w) (h : StoresOf crypto P db db') :
    StoresOf crypto Q db db' :=
  Relation.ReflTransGen.mono (fun _ _ ⟨w, hw, hstore⟩ => ⟨w, hPQ w hw, hstore⟩) _ _ h

/-- A table of stores. -/
theorem StoresOf.foldl {κ α : Type} [Ord κ] [TransOrd κ] [LawfulEqOrd κ]
    {f : Ledger → κ → α → Ledger} {g : κ → α → Write} {t : Table κ α}
    (h : StoresOf crypto P db db') (hf : ∀ db k v, StoreOf crypto db (g k v) (f db k v))
    (hP : ∀ k v, t[k]? = some v → P (g k v)) : StoresOf crypto P db (t.foldl f db') :=
  Table.foldl_induction (P := StoresOf crypto P db) t
    (fun _ k v hk h => h.put (hP k v hk) (hf _ k v)) h

/-- A store, seen from the accounts. -/
theorem StoreOf.store {w : Write} (h : StoreOf crypto db w db') : Store crypto db db' := by
  cases h with
  | account r => exact .account r
  | asset r =>
    unfold storeAssetRecord
    split <;> exact .aside rfl rfl
  | transaction _ h =>
    simp only [storeTransaction, ite_eq_ok, bind_eq_ok, pure_eq_ok] at h
    obtain ⟨-, rfl⟩ | ⟨-, _, -, ⟨-, _, -, rfl⟩ | ⟨-, rfl⟩⟩ := h <;> exact .aside rfl rfl
  | _ => exact .aside rfl rfl

theorem StoresOf.stores (h : StoresOf crypto P db db') : Stores crypto db db' :=
  Relation.ReflTransGen.mono (fun _ _ ⟨_, _, hstore⟩ => hstore.store) _ _ h

/-! ### The stores of a pending state -/

open ChainInterface (Applied)

theorem applyRecords_storesOf (o : Overlay) (db : Ledger) :
    StoresOf crypto (Applied o) db (db.applyRecords crypto o) := by
  have hproperties : StoresOf crypto (Applied o) db
      (o.properties.foldl (fun db p v => db.setProperty p v) db) :=
    StoresOf.foldl .refl (fun _ p v => .property p v) fun p v h => Or.inl (.property h)
  have hassets := hproperties.foldl (t := o.assets) (fun _ _ r => .asset r)
    fun _ r h => Or.inl (.asset h)
  have haccounts := hassets.foldl (t := o.accounts) (fun _ _ r => .account r)
    fun _ r h => Or.inl (.account h)
  have hbalances := haccounts.foldl (t := o.balances) (fun _ _ r => .balance r)
    fun _ r h => Or.inl (.balance h)
  have hbids := hbalances.foldl (t := o.bids) (fun _ k r => .bid k r) fun _ r h => Or.inl (.bid h)
  have hasks := hbids.foldl (t := o.asks) (fun _ k r => .ask k r) fun _ r h => Or.inl (.ask h)
  have hshorts := hasks.foldl (t := o.shorts) (fun _ k r => .short k r)
    fun _ r h => Or.inl (.short h)
  exact hshorts.foldl (t := o.collateral) (fun _ k r => .collateral k r)
    fun _ r h => Or.inl (.collateral h)

theorem applyRest_storesOf (o : Overlay) (db : Ledger) :
    StoresOf crypto (Applied o) db (db.applyRest o) := by
  have hslates : StoresOf crypto (Applied o) db
      (o.slates.foldl (fun db k v => db.storeDelegateSlate k v) db) :=
    StoresOf.foldl .refl (fun _ k v => .slate k v) fun _ _ h => Or.inl (.slate h)
  have hslots := hslates.foldl (t := o.slots) (fun _ _ r => .slot r) fun _ r h => Or.inl (.slot h)
  have hstatuses := hslots.foldl (t := o.marketStatuses) (fun _ _ s => .marketStatus s)
    fun _ s h => Or.inl (.marketStatus h)
  have hfeeds := hstatuses.foldl (t := o.feeds) (fun _ _ r => .feed r)
    fun _ r h => Or.inl (.feed h)
  exact hfeeds.put (Or.inr rfl) (.property _ _)

end Ledger

namespace ChainInterface

open Ledger (StoresOf)

variable {crypto : Crypto} {c c' : ChainInterface} {o : Overlay}

theorem storeTransaction_storesOf {id : TransactionId} {r : TransactionRecord}
    (hc : c.overlays = []) (hr : o.transactions[id]? = some r)
    (h : c.storeTransaction crypto id r = .ok c') :
    c'.overlays = [] ∧ StoresOf crypto (Applied o) c.db c'.db := by
  obtain ⟨os, db, now, n⟩ := c
  obtain rfl : os = [] := hc
  simp only [storeTransaction, bind_eq_ok, pure_eq_ok] at h
  obtain ⟨db', hdb, rfl⟩ := h
  exact ⟨rfl, StoresOf.put .refl (Or.inl (.transaction 0 hr)) (.transaction 0 hdb)⟩

theorem applyRecords_storesOf (crypto : Crypto) (o : Overlay) (hc : c.overlays = []) :
    (applyRecords crypto o c).overlays = [] ∧
      StoresOf crypto (Applied o) c.db (applyRecords crypto o c).db := by
  obtain ⟨os, db, now, n⟩ := c
  obtain rfl : os = [] := hc
  rw [applyRecords_ledger]
  exact ⟨rfl, Ledger.applyRecords_storesOf o db⟩

/-- **Applying a pending state** to the database stores what stands in it. -/
theorem applyOverlay_storesOf (hc : c.overlays = []) (h : applyOverlay crypto o c = .ok c') :
    StoresOf crypto (Applied o) c.db c'.db := by
  simp only [applyOverlay, bind_eq_ok, pure_eq_ok] at h
  obtain ⟨c₁, happly, rfl⟩ := h
  obtain ⟨hc₀, hrecords⟩ := applyRecords_storesOf crypto o hc
  obtain ⟨hc₁, htransactions⟩ :
      c₁.overlays = [] ∧ StoresOf crypto (Applied o) c.db c₁.db := by
    refine foldlM_induction
      (P := fun c' => c'.overlays = [] ∧ StoresOf crypto (Applied o) c.db c'.db)
      (fun c₂ e c₃ he h hstep => ?_) ⟨hc₀, hrecords⟩ happly
    obtain ⟨hc₃, hs⟩ := storeTransaction_storesOf h.1 (Table.mem_toList.1 he) hstep
    exact ⟨hc₃, h.2.trans hs⟩
  obtain ⟨os, db, now, n⟩ := c₁
  obtain rfl : os = [] := hc₁
  rw [applyRest_ledger]
  exact htransactions.trans (Ledger.applyRest_storesOf o db)

/-- When that throws, what has been stored stands in it, too. -/
theorem applyOverlayThrown_storesOf (hc : c.overlays = []) :
    StoresOf crypto (Applied o) c.db (applyOverlayThrown crypto o c).db := by
  have hthrown : ∀ (l : List (TransactionId × TransactionRecord)) (c : ChainInterface),
      (∀ e ∈ l, o.transactions[e.1]? = some e.2) → c.overlays = [] →
        StoresOf crypto (Applied o) c.db (storeUntilThrow crypto c l).db := by
    intro l
    induction l with
    | nil => exact fun _ _ _ => .refl
    | cons e l ih =>
      intro c hl hc
      rw [storeUntilThrow]
      split
      · rename_i c' hstep
        obtain ⟨hc', hs⟩ := storeTransaction_storesOf hc (hl e List.mem_cons_self) hstep
        exact hs.trans (ih c' (fun e he => hl e (List.mem_cons_of_mem _ he)) hc')
      · exact .refl
  obtain ⟨hc₀, hrecords⟩ := applyRecords_storesOf crypto o hc
  exact hrecords.trans (hthrown _ _ (fun e he => Table.mem_toList.1 he) hc₀)

end ChainInterface

end LarkX
