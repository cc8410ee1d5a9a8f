import LarkX.State.Stores

/-!
# Well-formed ledgers

What holds of the ledger in every state of the chain: records are under their own keys and no
table holds a null record (`Ledger.WellFormed`). Applying a pending state keeps this when its
records are under their own keys, too.

When the names of the genesis accounts are distinct, the accounts are also registered properly
(`Ledger.Registered`): their indexes are exact, and no account has an id above the last one that
was given out. `Overlay.Registers` is what a pending state has to do with the ledger for that.
-/

namespace LarkX

open Std (TransOrd LawfulEqOrd)

/-! ### Null records -/

/-- No table holds a null record. Balance records are kept when they become empty. -/
structure Tables.Live (t : Tables) : Prop where
  properties : t.properties.Live Variant.isNull
  assets : t.assets.Live AssetRecord.isNull
  accounts : t.accounts.Live AccountRecord.isNull
  bids : t.bids.Live OrderRecord.isNull
  asks : t.asks.Live OrderRecord.isNull
  shorts : t.shorts.Live OrderRecord.isNull
  collateral : t.collateral.Live CollateralRecord.isNull
  transactions : t.transactions.Live TransactionRecord.isNull
  slates : t.slates.Live List.isEmpty
  slots : t.slots.Live SlotRecord.isNull
  marketStatuses : t.marketStatuses.Live MarketStatus.isNull
  feeds : t.feeds.Live FeedRecord.isNull

theorem Tables.Live.settle {base : Tables} (h : base.Live) (top : Tables) :
    (top.settle base).Live where
  properties := h.properties.settle _
  assets := h.assets.settle _
  accounts := h.accounts.settle _
  bids := h.bids.settle _
  asks := h.asks.settle _
  shorts := h.shorts.settle _
  collateral := h.collateral.settle _
  transactions := h.transactions.settle _
  slates := h.slates.settle _
  slots := h.slots.settle _
  marketStatuses := h.marketStatuses.settle _
  feeds := h.feeds.settle _

/-- An entry of a written table was there or has been written. -/
theorem Table.KeyedBy.settle {κ α : Type} [Ord κ] [TransOrd κ] [LawfulEqOrd κ] {key : α → κ}
    {top base : Table κ α} (hbase : base.KeyedBy key) (htop : top.KeyedBy key)
    (isNull : α → Bool) : Table.KeyedBy key (Table.settle isNull top base) := by
  intro k r hr
  rw [getElem?_settle] at hr
  cases hk : top[k]? with
  | none =>
    rw [hk] at hr
    exact hbase k r hr
  | some v =>
    rw [hk, Option.elim_some] at hr
    split at hr
    · cases hr
    · cases hr
      exact htop k _ hk

theorem Tables.Keyed.settle {crypto : Crypto} {top base : Tables} (hbase : base.Keyed crypto)
    (htop : top.Keyed crypto) : (top.settle base).Keyed crypto where
  assets := hbase.assets.settle htop.assets _
  accounts := hbase.accounts.settle htop.accounts _
  balances := htop.balances.above hbase.balances
  slots := hbase.slots.settle htop.slots _
  marketStatuses := hbase.marketStatuses.settle htop.marketStatuses _
  feeds := hbase.feeds.settle htop.feeds _

/-! ### The ledger -/

namespace Ledger

/-- What holds of the ledger in every state of the chain. -/
structure WellFormed (crypto : Crypto) (db : Ledger) : Prop where
  keyed : db.toTables.Keyed crypto
  live : db.toTables.Live

/-- The accounts are indexed, and their ids have been given out. -/
structure Registered (db : Ledger) : Prop where
  indexed : db.Indexed
  lastAccount : ∃ last : ℤ, db.properties[ChainProperty.lastAccountId]? = some (.int last) ∧
    ∀ (id : ℤ) (r : AccountRecord), db.accounts[id]? = some r → id ≤ last

end Ledger

/-- The pending state of a block can be written: its records are under their own keys. -/
structure Overlay.Fits (crypto : Crypto) (o : Overlay) : Prop where
  keyed : o.toTables.Keyed crypto
  named : ChainInterface.TransactionsNamed crypto o

/-- The accounts of a pending state are registered on top of those of the ledger. -/
structure Overlay.Registers (db : Ledger) (o : Overlay) : Prop where
  accounts : Ledger.Compatible db o.accounts
  /-- An account of the ledger does not become null. -/
  kept : ∀ (id : ℤ) (r old : AccountRecord), o.accounts[id]? = some r →
    db.accounts[id]? = some old → r.isNull = false
  lastAccount : ∀ last : ℤ, db.properties[ChainProperty.lastAccountId]? = some (.int last) →
    ∃ last' : ℤ, (o.properties.above db.properties)[ChainProperty.lastAccountId]? =
      some (.int last') ∧ last ≤ last' ∧
      ∀ (id : ℤ) (r : AccountRecord), o.accounts[id]? = some r → id ≤ last'

namespace Ledger

variable {crypto : Crypto} {db : Ledger} {o : Overlay}

/-! ### Stores -/

theorem wellFormed_empty (crypto : Crypto) (chainId : Digest) :
    WellFormed crypto { chainId } where
  keyed := .empty
  live :=
    { properties := Table.live_empty _
      assets := Table.live_empty _
      accounts := Table.live_empty _
      bids := Table.live_empty _
      asks := Table.live_empty _
      shorts := Table.live_empty _
      collateral := Table.live_empty _
      transactions := Table.live_empty _
      slates := Table.live_empty _
      slots := Table.live_empty _
      marketStatuses := Table.live_empty _
      feeds := Table.live_empty _ }

theorem getElem?_setProperty_same (db : Ledger) (p : ChainProperty) (v : Variant) :
    (db.setProperty p v).properties[p]? = if v.isNull then none else some v :=
  Table.getElem?_put_same ..

theorem getElem?_setProperty_of_ne (db : Ledger) {p q : ChainProperty} (v : Variant) (h : q ≠ p) :
    (db.setProperty p v).properties[q]? = db.properties[q]? :=
  Table.getElem?_put_of_ne _ _ _ h

/-- A transaction that is stored changes no other table. -/
theorem storeTransaction_toTables {now n : ℕ} {id : TransactionId} {r : TransactionRecord}
    {db' : Ledger} (h : db.storeTransaction crypto now n id r = .ok db') :
    db'.toTables = { db.toTables with transactions := db.transactions.put r.isNull id r } := by
  unfold Table.put TransactionRecord.isNull
  simp only [storeTransaction, ite_eq_ok, bind_eq_ok, pure_eq_ok] at h
  obtain ⟨hops, rfl⟩ | ⟨hops, _, -, ⟨-, _, -, rfl⟩ | ⟨-, rfl⟩⟩ := h
  · rw [if_pos (List.isEmpty_iff.2 hops)]
  · rw [if_neg (fun hempty => hops (List.isEmpty_iff.1 hempty))]
  · rw [if_neg (fun hempty => hops (List.isEmpty_iff.1 hempty))]

theorem StoreOf.keyed {w : Write} {db' : Ledger} (h : StoreOf crypto db w db')
    (hdb : db.toTables.Keyed crypto) : db'.toTables.Keyed crypto := by
  cases h with
  | asset r =>
    rw [storeAssetRecord_toTables]
    exact { hdb with assets := hdb.assets.put r.isNull r }
  | account r =>
    rw [storeAccountRecord_toTables]
    exact { hdb with accounts := hdb.accounts.put r.isNull r }
  | balance r => exact { hdb with balances := hdb.balances.insert r }
  | transaction _ h =>
    rw [storeTransaction_toTables h]
    exact { hdb with }
  | slot r => exact { hdb with slots := hdb.slots.put r.isNull r }
  | marketStatus s => exact { hdb with marketStatuses := hdb.marketStatuses.put s.isNull s }
  | feed r => exact { hdb with feeds := hdb.feeds.put r.isNull r }
  | _ => exact { hdb with }

theorem StoreOf.live {w : Write} {db' : Ledger} (h : StoreOf crypto db w db')
    (hdb : db.toTables.Live) : db'.toTables.Live := by
  cases h with
  | property p v => exact { hdb with properties := hdb.properties.put p v }
  | asset r =>
    rw [storeAssetRecord_toTables]
    exact { hdb with assets := hdb.assets.put r.id r }
  | account r =>
    rw [storeAccountRecord_toTables]
    exact { hdb with accounts := hdb.accounts.put r.id r }
  | balance r => exact { hdb with }
  | bid key r => exact { hdb with bids := hdb.bids.put key r }
  | ask key r => exact { hdb with asks := hdb.asks.put key r }
  | short key r => exact { hdb with shorts := hdb.shorts.put key r }
  | collateral key r => exact { hdb with collateral := hdb.collateral.put key r }
  | @transaction _ _ id r _ _ h =>
    rw [storeTransaction_toTables h]
    exact { hdb with transactions := hdb.transactions.put id r }
  | slate id slate => exact { hdb with slates := hdb.slates.put id slate }
  | slot r => exact { hdb with slots := hdb.slots.put r.startTime r }
  | marketStatus s => exact { hdb with marketStatuses := hdb.marketStatuses.put s.pair s }
  | feed r => exact { hdb with feeds := hdb.feeds.put r.feed r }

/-- **Any stores** keep the ledger well-formed. -/
theorem StoresOf.wellFormed {P : Write → Prop} {db' : Ledger} (h : StoresOf crypto P db db')
    (hdb : WellFormed crypto db) : WellFormed crypto db' :=
  h.invariant (fun _ _ _ hdb _ hstore => ⟨hstore.keyed hdb.keyed, hstore.live hdb.live⟩) hdb

/-! ### Applying a pending state -/

/-- The dirty markets are never null. -/
private theorem live_setDirtyMarkets {t : Table ChainProperty Variant}
    (h : t.Live Variant.isNull) (d : KeySet AssetPair) :
    Table.Live Variant.isNull (t.insert .dirtyMarkets (.markets d)) :=
  h.put .dirtyMarkets (.markets d)

theorem keyed_apply (hdb : db.toTables.Keyed crypto) (now : ℕ) (ho : o.toTables.Keyed crypto) :
    (db.apply crypto now o).toTables.Keyed crypto := by
  have h := hdb.settle ho
  rw [apply_toTables now db ho]
  exact ⟨h.assets, h.accounts, h.balances, h.slots, h.marketStatuses, h.feeds⟩

theorem live_apply (hdb : db.toTables.Live) (now : ℕ) (ho : o.toTables.Keyed crypto) :
    (db.apply crypto now o).toTables.Live := by
  rw [apply_toTables now db ho]
  exact { hdb.settle o.toTables with properties := live_setDirtyMarkets (hdb.properties.settle _) _ }

/-- An account after applying was there before or has been written. -/
theorem account_apply (now : ℕ) (ho : o.toTables.Keyed crypto) {id : ℤ} {r : AccountRecord}
    (h : (db.apply crypto now o).accounts[id]? = some r) :
    (o.accounts[id]? = some r ∧ r.isNull = false) ∨
      (o.accounts[id]? = none ∧ db.accounts[id]? = some r) := by
  rw [apply_toTables now db ho] at h
  change (Table.settle AccountRecord.isNull o.accounts db.accounts)[id]? = some r at h
  rw [Table.getElem?_settle] at h
  cases hid : o.accounts[id]? with
  | none =>
    rw [hid] at h
    exact Or.inr ⟨rfl, h⟩
  | some r' =>
    rw [hid, Option.elim_some] at h
    split at h
    · cases h
    · rename_i hnull
      cases h
      exact Or.inl ⟨rfl, Bool.eq_false_iff.2 hnull⟩

/-- **Applying a pending state** keeps the ledger well-formed. -/
theorem WellFormed.apply (h : WellFormed crypto db) (now : ℕ) (ho : o.Fits crypto) :
    WellFormed crypto (db.apply crypto now o) :=
  ⟨keyed_apply h.keyed now ho.keyed, live_apply h.live now ho.keyed⟩

/-- **Applying a pending state that registers its accounts** keeps the accounts registered. -/
theorem Registered.apply (h : Registered db) (now : ℕ) (hkeyed : o.toTables.Keyed crypto)
    (ho : o.Registers db) : Registered (db.apply crypto now o) := by
  refine ⟨h.indexed.apply now ho.accounts, ?_⟩
  obtain ⟨last, hlast, hids⟩ := h.lastAccount
  obtain ⟨last', hlast', hle, hnew⟩ := ho.lastAccount last hlast
  refine ⟨last', ?_, fun id r hr => ?_⟩
  · rw [apply_toTables now db hkeyed]
    change ((Table.settle Variant.isNull o.properties db.properties).insert .dirtyMarkets _)[
      ChainProperty.lastAccountId]? = _
    rw [Table.getElem?_insert_of_ne _ _ (by decide), Table.getElem?_settle]
    rw [Table.getElem?_above] at hlast'
    cases hget : o.properties[ChainProperty.lastAccountId]? with
    | none =>
      rw [hget, Option.none_or] at hlast'
      exact hlast'
    | some v =>
      rw [hget, Option.some_or] at hlast'
      cases hlast'
      rfl
  · rcases account_apply now hkeyed hr with ⟨hr, -⟩ | ⟨-, hr⟩
    · exact hnew id r hr
    · exact (hids id r hr).trans hle

end Ledger

end LarkX
