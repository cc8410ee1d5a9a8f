import LarkX.State.Write

/-!
# Records under their own keys

Assets, accounts, balances, slots, market statuses and feeds are stored under a key that is
computed from the record. `Tables.Keyed` says so for a set of tables. It holds of every state
of the chain whatever is written to it, since a store computes the key itself: no write to a
pending state (`Tables.Keyed.write`) and no store of the database can break it.
-/

namespace LarkX

open Std (TransOrd LawfulEqOrd)

/-- Every entry of a table is stored under the key of its record. -/
def Table.KeyedBy {κ α : Type} [Ord κ] [TransOrd κ] (key : α → κ) (t : Table κ α) : Prop :=
  ∀ k r, t[k]? = some r → key r = k

namespace Table.KeyedBy

variable {κ α : Type} [Ord κ] [TransOrd κ] [LawfulEqOrd κ] {key : α → κ} {t u : Table κ α}

omit [LawfulEqOrd κ] in
theorem empty : KeyedBy key (∅ : Table κ α) := by
  intro k r h
  rw [getElem?_empty'] at h
  cases h

theorem insert (h : KeyedBy key t) (r : α) : KeyedBy key (t.insert (key r) r) := by
  intro k r' hr'
  by_cases hk : k = key r
  · subst hk
    rw [getElem?_insert_same] at hr'
    cases hr'
    rfl
  · rw [getElem?_insert_of_ne _ _ hk] at hr'
    exact h k r' hr'

theorem erase (h : KeyedBy key t) (k : κ) : KeyedBy key (t.erase k) := by
  intro a r hr
  by_cases ha : a = k
  · subst ha
    rw [getElem?_erase_same] at hr
    cases hr
  · rw [getElem?_erase_of_ne _ ha] at hr
    exact h a r hr

theorem put (h : KeyedBy key t) (b : Bool) (r : α) : KeyedBy key (t.put b (key r) r) := by
  unfold Table.put
  split
  · exact h.erase _
  · exact h.insert r

theorem above (h : KeyedBy key t) (hu : KeyedBy key u) : KeyedBy key (Table.above t u) := by
  intro k r hr
  rw [getElem?_above, Option.or_eq_some_iff] at hr
  rcases hr with hr | ⟨-, hr⟩
  · exact h k r hr
  · exact hu k r hr

end Table.KeyedBy

/-- Every record is stored under its own key. -/
structure Tables.Keyed (crypto : Crypto) (t : Tables) : Prop where
  assets : t.assets.KeyedBy AssetRecord.id
  accounts : t.accounts.KeyedBy AccountRecord.id
  balances : t.balances.KeyedBy fun r => crypto.conditionAddress r.condition
  slots : t.slots.KeyedBy SlotRecord.startTime
  marketStatuses : t.marketStatuses.KeyedBy MarketStatus.pair
  feeds : t.feeds.KeyedBy FeedRecord.feed

namespace Tables.Keyed

variable {crypto : Crypto} {t u : Tables}

theorem empty : Tables.Keyed crypto {} :=
  ⟨.empty, .empty, .empty, .empty, .empty, .empty⟩

/-- Any write to a pending state is under the record's own key. -/
theorem write (h : Keyed crypto t) (w : Write) : Keyed crypto (t.write crypto w) := by
  cases w with
  | asset r => exact { h with assets := h.assets.insert r }
  | account r => exact { h with accounts := h.accounts.insert r }
  | newAccount r => exact { h with accounts := h.accounts.insert r }
  | balance r => exact { h with balances := h.balances.insert r }
  | slot r => exact { h with slots := h.slots.insert r }
  | marketStatus s => exact { h with marketStatuses := h.marketStatuses.insert s }
  | feed r => exact { h with feeds := h.feeds.insert r }
  | property | bid | ask | short | collateral | transaction | slate | dirty =>
    exact ⟨h.assets, h.accounts, h.balances, h.slots, h.marketStatuses, h.feeds⟩

theorem above (h : Keyed crypto t) (hu : Keyed crypto u) : Keyed crypto (t.above u) :=
  ⟨h.assets.above hu.assets, h.accounts.above hu.accounts, h.balances.above hu.balances,
    h.slots.above hu.slots, h.marketStatuses.above hu.marketStatuses, h.feeds.above hu.feeds⟩

end Tables.Keyed

namespace ChainInterface

/-- A pending state whose records are all under their own keys. -/
def PendingKeyed (crypto : Crypto) (c : ChainInterface) : Prop :=
  c.IsPending ∧ c.flat.Keyed crypto

theorem PendingKeyed.write {crypto : Crypto} {c : ChainInterface} (h : PendingKeyed crypto c)
    (w : Write) : PendingKeyed crypto (c.write crypto w) :=
  ⟨(sameBelow_write ..).pending h.1, flat_write h.1 w ▸ h.2.write w⟩

/-- An empty pending state over an empty database. -/
def blank (now headBlockNum : ℕ) : ChainInterface :=
  { overlays := [{}], db := {}, now, headBlockNum }

theorem pendingKeyed_blank (crypto : Crypto) (now headBlockNum : ℕ) :
    PendingKeyed crypto (blank now headBlockNum) :=
  ⟨List.cons_ne_nil _ _, Tables.Keyed.empty.above .empty⟩

/-- After any writes to a pending state, every record is still under its own key. -/
theorem Writes.keyed {crypto : Crypto} {P : ChainInterface → Write → Prop}
    {c c' : ChainInterface} (h : Writes crypto P c c') (hp : c.IsPending)
    (hc : c.flat.Keyed crypto) : c'.flat.Keyed crypto :=
  h.invariant (I := fun c => c.flat.Keyed crypto)
    (fun _ w hp hc _ => flat_write hp w ▸ hc.write w) hp hc

end ChainInterface

end LarkX
