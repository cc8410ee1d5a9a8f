import LarkX.State.Interface

/-!
# Writes to a pending state

Everything an evaluation does to the chain state is a sequence of single writes to the top
pending state. `Write` is one of them as data, `ChainInterface.Writes P` says that one state
leads to another by writes each of which satisfies `P`, and the evaluation lemmas of the later
modules have this form. An invariant of the chain state is then a statement about one write.

`ChainInterface.flat` is the state a reader sees, as one set of tables: a read is a lookup in
it (`getAssetRecord_eq` and its companions) and a write inserts one entry (`flat_write`).
-/

namespace LarkX

open Std (TransOrd LawfulEqOrd)

/-- One write to a pending state. -/
inductive Write
  | property (p : ChainProperty) (v : Variant)
  | asset (r : AssetRecord)
  | account (r : AccountRecord)
  /-- A new account, together with the last account id. -/
  | newAccount (r : AccountRecord)
  | balance (r : BalanceRecord)
  | bid (key : MarketIndexKey) (r : OrderRecord)
  | ask (key : MarketIndexKey) (r : OrderRecord)
  | short (key : MarketIndexKey) (r : OrderRecord)
  | collateral (key : MarketIndexKey) (r : CollateralRecord)
  /-- A transaction, together with its digest. -/
  | transaction (id : TransactionId) (r : TransactionRecord) (digest : Digest)
  | slate (id : SlateId) (slate : List ℤ)
  | slot (r : SlotRecord)
  | marketStatus (s : MarketStatus)
  | feed (r : FeedRecord)
  | dirty (pair : AssetPair)

/-! ### Writes to one layer -/

/-- A write to a pending state. -/
def Overlay.write (crypto : Crypto) (o : Overlay) : Write → Overlay
  | .property p v => o.setProperty p v
  | .asset r => o.storeAssetRecord r
  | .account r => o.storeAccountRecord crypto r
  | .newAccount r => (o.setProperty .lastAccountId (.int r.id)).storeAccountRecord crypto r
  | .balance r => o.storeBalanceRecord crypto r
  | .bid key r => o.storeBidRecord key r
  | .ask key r => o.storeAskRecord key r
  | .short key r => o.storeShortRecord key r
  | .collateral key r => o.storeCollateralRecord key r
  | .transaction id r digest =>
    let o' := o.storeTransactionRecord id r
    { o' with uniqueTransactions := o'.uniqueTransactions.insert digest () }
  | .slate id slate => o.storeDelegateSlate id slate
  | .slot r => o.storeSlotRecord r
  | .marketStatus s => o.storeMarketStatus s
  | .feed r => o.setFeed r
  | .dirty pair => o.setMarketDirty pair

/-- What a write does to the tables. -/
def Tables.write (crypto : Crypto) (t : Tables) : Write → Tables
  | .property p v => { t with properties := t.properties.insert p v }
  | .asset r => { t with assets := t.assets.insert r.id r }
  | .account r => { t with accounts := t.accounts.insert r.id r }
  | .newAccount r =>
    { t with
      properties := t.properties.insert .lastAccountId (.int r.id)
      accounts := t.accounts.insert r.id r }
  | .balance r => { t with balances := t.balances.insert (crypto.conditionAddress r.condition) r }
  | .bid key r => { t with bids := t.bids.insert key r }
  | .ask key r => { t with asks := t.asks.insert key r }
  | .short key r => { t with shorts := t.shorts.insert key r }
  | .collateral key r => { t with collateral := t.collateral.insert key r }
  | .transaction id r _ => { t with transactions := t.transactions.insert id r }
  | .slate id slate => { t with slates := t.slates.insert id slate }
  | .slot r => { t with slots := t.slots.insert r.startTime r }
  | .marketStatus s => { t with marketStatuses := t.marketStatuses.insert s.pair s }
  | .feed r => { t with feeds := t.feeds.insert r.feed r }
  | .dirty _ => t

theorem Overlay.write_toTables (crypto : Crypto) (o : Overlay) (w : Write) :
    (o.write crypto w).toTables = o.toTables.write crypto w := by
  cases w <;> rfl

/-- A write to the top layer is a write to the layered tables. -/
theorem Tables.write_above (crypto : Crypto) (t u : Tables) (w : Write) :
    (t.write crypto w).above u = (t.above u).write crypto w := by
  cases w <;> simp only [Tables.above, Tables.write, Table.insert_above]

namespace ChainInterface

/-! ### The state a reader sees -/

/-- All layers as one set of tables. -/
def flatOf (db : Ledger) : List Overlay → Tables
  | [] => db.toTables
  | o :: os => o.toTables.above (flatOf db os)

/-- The state a reader sees. -/
def flat (c : ChainInterface) : Tables :=
  flatOf c.db c.overlays

/-- A read through the layers is a lookup in the flat tables. -/
theorem lookup_eq_flat {κ α : Type} [Ord κ] [TransOrd κ] [LawfulEqOrd κ]
    {table : Tables → Table κ α} (h : ∀ t u, table (t.above u) = Table.above (table t) (table u))
    (c : ChainInterface) (k : κ) : c.lookup table k = (table c.flat)[k]? := by
  have key : ∀ os, lookupIn table c.db k os = (table (flatOf c.db os))[k]? := by
    intro os
    induction os with
    | nil => rfl
    | cons o os ih =>
      rw [lookupIn, flatOf, h, Table.getElem?_above]
      cases (table o.toTables)[k]? with
      | none => rw [Option.none_or, ← ih]
      | some r => rfl
  exact key c.overlays

section Reads

variable (c : ChainInterface)

theorem getAssetRecord_eq (id : ℤ) : c.getAssetRecord id = c.flat.assets[id]? :=
  lookup_eq_flat (fun _ _ => rfl) c id

theorem getAccountRecord_eq (id : ℤ) : c.getAccountRecord id = c.flat.accounts[id]? :=
  lookup_eq_flat (fun _ _ => rfl) c id

theorem getBalanceRecord_eq (id : BalanceId) : c.getBalanceRecord id = c.flat.balances[id]? :=
  lookup_eq_flat (fun _ _ => rfl) c id

theorem getDelegateSlate_eq (id : SlateId) : c.getDelegateSlate id = c.flat.slates[id]? :=
  lookup_eq_flat (fun _ _ => rfl) c id

theorem getBidRecord_eq (key : MarketIndexKey) : c.getBidRecord key = c.flat.bids[key]? :=
  lookup_eq_flat (fun _ _ => rfl) c key

theorem getAskRecord_eq (key : MarketIndexKey) : c.getAskRecord key = c.flat.asks[key]? :=
  lookup_eq_flat (fun _ _ => rfl) c key

theorem getShortRecord_eq (key : MarketIndexKey) : c.getShortRecord key = c.flat.shorts[key]? :=
  lookup_eq_flat (fun _ _ => rfl) c key

theorem getCollateralRecord_eq (key : MarketIndexKey) :
    c.getCollateralRecord key = c.flat.collateral[key]? :=
  lookup_eq_flat (fun _ _ => rfl) c key

theorem getSlotRecord_eq (startTime : ℕ) : c.getSlotRecord startTime = c.flat.slots[startTime]? :=
  lookup_eq_flat (fun _ _ => rfl) c startTime

theorem getMarketStatus_eq (pair : AssetPair) :
    c.getMarketStatus pair = c.flat.marketStatuses[pair]? :=
  lookup_eq_flat (fun _ _ => rfl) c pair

theorem getFeed_eq (i : FeedIndex) : c.getFeed i = c.flat.feeds[i]? :=
  lookup_eq_flat (fun _ _ => rfl) c i

theorem getProperty_eq_ok {p : ChainProperty} {v : Variant} :
    c.getProperty p = .ok v ↔ c.flat.properties[p]? = some v := by
  rw [getProperty, orThrow_eq_ok, lookup_eq_flat (fun _ _ => rfl)]

theorem lastAccountId_eq_ok {c : ChainInterface} {last : ℤ} :
    c.lastAccountId = .ok last ↔ c.flat.properties[ChainProperty.lastAccountId]? =
      some (.int last) := by
  rw [lastAccountId, bind_eq_ok]
  constructor
  · rintro ⟨v, hv, hlast⟩
    cases v <;> simp only [Variant.asInt, throw_eq_ok, pure_eq_ok] at hlast
    subst hlast
    exact (getProperty_eq_ok c).1 hv
  · exact fun h => ⟨_, (getProperty_eq_ok c).2 h, rfl⟩

end Reads

/-! ### Writes to a stack -/

/-- There is a pending state on top of the database. -/
def IsPending (c : ChainInterface) : Prop :=
  c.overlays ≠ []

/-- A write to the top of the stack. -/
def write (crypto : Crypto) (c : ChainInterface) (w : Write) : ChainInterface :=
  match c.overlays with
  | [] => c
  | o :: os => { c with overlays := o.write crypto w :: os }

section

variable {crypto : Crypto} {c : ChainInterface}

/-- Everything but the top pending state is the same. -/
structure SameBelow (c c' : ChainInterface) : Prop where
  db : c'.db = c.db
  now : c'.now = c.now
  headBlockNum : c'.headBlockNum = c.headBlockNum
  tail : c'.overlays.tail = c.overlays.tail
  pending : c.IsPending → c'.IsPending

theorem SameBelow.refl (c : ChainInterface) : SameBelow c c :=
  ⟨rfl, rfl, rfl, rfl, id⟩

theorem SameBelow.trans {c₁ c₂ c₃ : ChainInterface} (h : SameBelow c₁ c₂) (h' : SameBelow c₂ c₃) :
    SameBelow c₁ c₃ :=
  ⟨h'.db.trans h.db, h'.now.trans h.now, h'.headBlockNum.trans h.headBlockNum,
    h'.tail.trans h.tail, fun hp => h'.pending (h.pending hp)⟩

/-- A write changes only the top pending state. -/
theorem sameBelow_write (crypto : Crypto) (c : ChainInterface) (w : Write) :
    SameBelow c (c.write crypto w) := by
  obtain ⟨os, db, now, n⟩ := c
  cases os with
  | nil => exact SameBelow.refl _
  | cons o os => exact ⟨rfl, rfl, rfl, rfl, fun _ => List.cons_ne_nil _ _⟩

/-- A write to a pending state is one write to the flat tables. -/
theorem flat_write (h : c.IsPending) (w : Write) :
    (c.write crypto w).flat = c.flat.write crypto w := by
  obtain ⟨os, db, now, n⟩ := c
  cases os with
  | nil => exact absurd rfl h
  | cons o os =>
    change (o.write crypto w).toTables.above (flatOf db os) = _
    rw [Overlay.write_toTables, Tables.write_above]
    rfl

/-- The stores of a pending state are writes. -/
theorem update_eq_write (h : c.IsPending) {w : Write} {f : Ledger → Ledger}
    {g : Overlay → Overlay} (hg : ∀ o, g o = o.write crypto w) :
    c.update f g = c.write crypto w := by
  obtain ⟨os, db, now, n⟩ := c
  cases os with
  | nil => exact absurd rfl h
  | cons o os => simp only [update, write, hg]

variable (crypto) in
theorem storeAssetRecord_eq (h : c.IsPending) (r : AssetRecord) :
    c.storeAssetRecord r = c.write crypto (.asset r) :=
  update_eq_write h fun _ => rfl

theorem storeAccountRecord_eq (h : c.IsPending) (r : AccountRecord) :
    c.storeAccountRecord crypto r = c.write crypto (.account r) :=
  update_eq_write h fun _ => rfl

theorem storeBalanceRecord_eq (h : c.IsPending) (r : BalanceRecord) :
    c.storeBalanceRecord crypto r = c.write crypto (.balance r) :=
  update_eq_write h fun _ => rfl

variable (crypto) in
theorem storeBidRecord_eq (h : c.IsPending) (key : MarketIndexKey) (r : OrderRecord) :
    c.storeBidRecord key r = c.write crypto (.bid key r) :=
  update_eq_write h fun _ => rfl

variable (crypto) in
theorem storeAskRecord_eq (h : c.IsPending) (key : MarketIndexKey) (r : OrderRecord) :
    c.storeAskRecord key r = c.write crypto (.ask key r) :=
  update_eq_write h fun _ => rfl

variable (crypto) in
theorem storeShortRecord_eq (h : c.IsPending) (key : MarketIndexKey) (r : OrderRecord) :
    c.storeShortRecord key r = c.write crypto (.short key r) :=
  update_eq_write h fun _ => rfl

variable (crypto) in
theorem storeCollateralRecord_eq (h : c.IsPending) (key : MarketIndexKey) (r : CollateralRecord) :
    c.storeCollateralRecord key r = c.write crypto (.collateral key r) :=
  update_eq_write h fun _ => rfl

variable (crypto) in
theorem setProperty_eq (h : c.IsPending) (p : ChainProperty) (v : Variant) :
    c.setProperty p v = c.write crypto (.property p v) :=
  update_eq_write h fun _ => rfl

variable (crypto) in
theorem storeDelegateSlate_eq (h : c.IsPending) (id : SlateId) (slate : List ℤ) :
    c.storeDelegateSlate id slate = c.write crypto (.slate id slate) :=
  update_eq_write h fun _ => rfl

variable (crypto) in
theorem storeSlotRecord_eq (h : c.IsPending) (r : SlotRecord) :
    c.storeSlotRecord r = c.write crypto (.slot r) :=
  update_eq_write h fun _ => rfl

variable (crypto) in
theorem storeMarketStatus_eq (h : c.IsPending) (s : MarketStatus) :
    c.storeMarketStatus s = c.write crypto (.marketStatus s) :=
  update_eq_write h fun _ => rfl

variable (crypto) in
theorem setFeed_eq (h : c.IsPending) (r : FeedRecord) :
    c.setFeed r = c.write crypto (.feed r) :=
  update_eq_write h fun _ => rfl

variable (crypto) in
theorem setMarketDirty_eq_ok {c' : ChainInterface} {pair : AssetPair}
    (h : c.setMarketDirty pair = .ok c') : c' = c.write crypto (.dirty pair) := by
  obtain ⟨os, db, now, n⟩ := c
  cases os with
  | nil => cases h
  | cons o os =>
    rw [setMarketDirty, pure_eq_ok] at h
    rw [← h]
    rfl

/-- A registration writes the last id and the account as one. -/
theorem write_lastAccountId_account (c : ChainInterface) (r : AccountRecord) :
    (c.write crypto (.property .lastAccountId (.int r.id))).write crypto (.account r) =
      c.write crypto (.newAccount r) := by
  obtain ⟨os, db, now, n⟩ := c
  cases os <;> rfl

/-- What a stored transaction writes. -/
theorem storeTransaction_eq_ok {c' : ChainInterface} (hp : c.IsPending) {id : TransactionId}
    {r : TransactionRecord} (h : c.storeTransaction crypto id r = .ok c') :
    ∃ chainId, { c with overlays := c.overlays.tail }.getProperty .chainId = .ok (.hash chainId) ∧
      c' = c.write crypto
        (.transaction id r (crypto.transactionDigest r.trx.toTransaction chainId)) := by
  obtain ⟨os, db, now, n⟩ := c
  cases os with
  | nil => exact absurd rfl hp
  | cons o os =>
    simp only [storeTransaction, bind_eq_ok, require_eq_ok, pure_eq_ok] at h
    obtain ⟨prop, hprop, chainId, hchain, -, -, rfl⟩ := h
    cases prop <;> simp only [Variant.asHash, throw_eq_ok, pure_eq_ok] at hchain
    subst hchain
    exact ⟨_, hprop, rfl⟩

end

/-! ### Sequences of writes -/

/-- `c'` is `c` after writes that each satisfy `P` at the state they are made in. -/
inductive Writes (crypto : Crypto) (P : ChainInterface → Write → Prop) (c : ChainInterface) :
    ChainInterface → Prop
  | refl : Writes crypto P c c
  | tail {c' : ChainInterface} {w : Write} (h : Writes crypto P c c') (hw : P c' w) :
      Writes crypto P c (c'.write crypto w)

namespace Writes

variable {crypto : Crypto} {P Q : ChainInterface → Write → Prop} {c c' c'' : ChainInterface}

theorem single {w : Write} (hw : P c w) : Writes crypto P c (c.write crypto w) :=
  .tail .refl hw

theorem trans (h : Writes crypto P c c') (h' : Writes crypto P c' c'') :
    Writes crypto P c c'' := by
  induction h' with
  | refl => exact h
  | tail _ hw ih => exact .tail ih hw

theorem sameBelow (h : Writes crypto P c c') : SameBelow c c' := by
  induction h with
  | refl => exact SameBelow.refl c
  | tail _ _ ih => exact ih.trans (sameBelow_write ..)

theorem isPending (h : Writes crypto P c c') (hp : c.IsPending) : c'.IsPending :=
  h.sameBelow.pending hp

/-- **Invariant rule.** What every allowed write to a pending state preserves holds after the
writes. -/
theorem invariant {I : ChainInterface → Prop}
    (step : ∀ c w, c.IsPending → I c → P c w → I (c.write crypto w)) (hp : c.IsPending) (hc : I c)
    (h : Writes crypto P c c') : I c' := by
  induction h with
  | refl => exact hc
  | tail h hw ih => exact step _ _ (h.isPending hp) ih hw

/-- The states on the way satisfy an invariant that the writes preserve. -/
theorem along {I : ChainInterface → Prop}
    (step : ∀ c w, c.IsPending → I c → P c w → I (c.write crypto w)) (hp : c.IsPending) (hc : I c)
    (h : Writes crypto P c c') : Writes crypto (fun c w => c.IsPending ∧ I c ∧ P c w) c c' := by
  induction h with
  | refl => exact .refl
  | tail h hw ih => exact .tail ih ⟨h.isPending hp, h.invariant step hp hc, hw⟩

/-- Weaken the condition on the writes. The states on the way are known to be pending and to
lie over the same state. -/
theorem mono (hPQ : ∀ c₁ w, SameBelow c c₁ → P c₁ w → Q c₁ w) (h : Writes crypto P c c') :
    Writes crypto Q c c' := by
  induction h with
  | refl => exact .refl
  | tail h hw ih => exact .tail ih (hPQ _ _ h.sameBelow hw)

/-- A loop of which every round writes, writes. -/
theorem foldlM {α : Type} {l : List α} {f : ChainInterface → α → Fallible ChainInterface}
    (step : ∀ c₁ a c₂, a ∈ l → c₁.IsPending → SameBelow c c₁ → f c₁ a = .ok c₂ →
      Writes crypto P c₁ c₂) (hp : c.IsPending) (h : l.foldlM f c = .ok c') :
    Writes crypto P c c' := by
  refine foldlM_induction (P := fun c₁ => Writes crypto P c c₁) ?_ .refl h
  intro c₁ a c₂ ha hc hf
  exact hc.trans (step c₁ a c₂ ha (hc.isPending hp) hc.sameBelow hf)

end Writes

end ChainInterface

end LarkX
