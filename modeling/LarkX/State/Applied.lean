import LarkX.State.Apply
import LarkX.State.Layers

/-!
# A pending state applied to a pending state

`apply_changes` lays the tables of a pending state over those of the state below it
(`applyOverlay_flat`), so the state that is left reads like the pending state did, but for the
dirty markets. A pending state that was written to over `c.push` keeps its records under their own
keys (`Writes.top_keyed`), so this is what applying it does (`applyChanges_flat`).
-/

namespace LarkX

open Std (TransOrd LawfulEqOrd)

namespace ChainInterface

variable {crypto : Crypto} {c c' c₁ : ChainInterface} {o : Overlay}

/-- A fold of stores to one table, on the tables a reader sees. -/
private theorem flat_fold (crypto : Crypto) {κ α ι β : Type} [Ord κ] [TransOrd κ] [LawfulEqOrd κ] [Ord ι]
    (field : Ledger.Field ι β) (g : Table ι β → κ → α → Table ι β) (t : Table κ α)
    {f : ChainInterface → κ → α → ChainInterface} (w : κ → α → Write)
    (hf : ∀ c k v, c.IsPending → f c k v = c.write crypto (w k v))
    (hw : ∀ u k v, Tables.write crypto u (w k v) = field.set u (g (field.get u) k v))
    (hp : c.IsPending) : (t.foldl f c).IsPending ∧
      (t.foldl f c).flat = field.set c.flat (t.foldl g (field.get c.flat)) := by
  have key : ∀ (l : List (κ × α)) (c : ChainInterface), c.IsPending →
      (l.foldl (fun c e => f c e.1 e.2) c).IsPending ∧
        (l.foldl (fun c e => f c e.1 e.2) c).flat =
          field.set c.flat (l.foldl (fun u e => g u e.1 e.2) (field.get c.flat)) := by
    intro l
    induction l with
    | nil => exact fun c hp => ⟨hp, (field.set_get _).symm⟩
    | cons e l ih =>
      intro c hp
      have hwrite := hf c e.1 e.2 hp
      obtain ⟨hp', heq⟩ := ih (f c e.1 e.2) (hwrite ▸ (sameBelow_write ..).pending hp)
      refine ⟨hp', heq.trans ?_⟩
      rw [hwrite, flat_write hp, hw, field.get_set, field.set_set, List.foldl_cons]
  rw [Std.ExtTreeMap.foldl_eq_foldl_toList, Std.ExtTreeMap.foldl_eq_foldl_toList]
  exact key t.toList c hp

/-- Records that are stored under their own keys are laid over a table. -/
private theorem foldl_keyed {κ α : Type} [Ord κ] [TransOrd κ] [LawfulEqOrd κ] {key : α → κ}
    {t : Table κ α} (h : t.KeyedBy key) (u : Table κ α) :
    t.foldl (fun u _ r => u.insert (key r) r) u = t.above u :=
  Table.foldl_hom id t (fun _ k r hr => by rw [h k r hr]; rfl) u

/-- The tables that are left when a pending state is applied. -/
def appliedTables (o : Overlay) (t : Tables) : Tables :=
  { o.toTables.above t with
    properties := (o.properties.above t.properties).insert .dirtyMarkets (.markets o.dirtyMarketPairs) }

theorem applyRecords_flat (hp : c.IsPending) (hkeyed : o.toTables.Keyed crypto) :
    (applyRecords crypto o c).IsPending ∧ (applyRecords crypto o c).flat = { c.flat with
      properties := o.properties.above c.flat.properties
      assets := o.assets.above c.flat.assets
      accounts := o.accounts.above c.flat.accounts
      balances := o.balances.above c.flat.balances
      bids := o.bids.above c.flat.bids
      asks := o.asks.above c.flat.asks
      shorts := o.shorts.above c.flat.shorts
      collateral := o.collateral.above c.flat.collateral } := by
  obtain ⟨hp₁, h₁⟩ := flat_fold crypto ⟨Tables.properties, fun t u => { t with properties := u },
    fun _ => rfl, fun _ _ => rfl, fun _ _ _ => rfl⟩ (fun u k v => u.insert k v) o.properties
    .property (fun c k v hc => setProperty_eq crypto hc k v) (fun _ _ _ => rfl) hp
  obtain ⟨hp₂, h₂⟩ := flat_fold crypto ⟨Tables.assets, fun t u => { t with assets := u },
    fun _ => rfl, fun _ _ => rfl, fun _ _ _ => rfl⟩ (fun u _ r => u.insert r.id r) o.assets
    (fun _ r => .asset r) (fun c _ r hc => storeAssetRecord_eq crypto hc r) (fun _ _ _ => rfl) hp₁
  obtain ⟨hp₃, h₃⟩ := flat_fold crypto ⟨Tables.accounts, fun t u => { t with accounts := u },
    fun _ => rfl, fun _ _ => rfl, fun _ _ _ => rfl⟩ (fun u _ r => u.insert r.id r) o.accounts
    (fun _ r => .account r) (fun c _ r hc => storeAccountRecord_eq hc r) (fun _ _ _ => rfl) hp₂
  obtain ⟨hp₄, h₄⟩ := flat_fold crypto ⟨Tables.balances, fun t u => { t with balances := u },
    fun _ => rfl, fun _ _ => rfl, fun _ _ _ => rfl⟩
    (fun u _ r => u.insert (crypto.conditionAddress r.condition) r) o.balances
    (fun _ r => .balance r) (fun c _ r hc => storeBalanceRecord_eq hc r) (fun _ _ _ => rfl) hp₃
  obtain ⟨hp₅, h₅⟩ := flat_fold crypto ⟨Tables.bids, fun t u => { t with bids := u },
    fun _ => rfl, fun _ _ => rfl, fun _ _ _ => rfl⟩ (fun u k r => u.insert k r) o.bids .bid
    (fun c k r hc => storeBidRecord_eq crypto hc k r) (fun _ _ _ => rfl) hp₄
  obtain ⟨hp₆, h₆⟩ := flat_fold crypto ⟨Tables.asks, fun t u => { t with asks := u },
    fun _ => rfl, fun _ _ => rfl, fun _ _ _ => rfl⟩ (fun u k r => u.insert k r) o.asks .ask
    (fun c k r hc => storeAskRecord_eq crypto hc k r) (fun _ _ _ => rfl) hp₅
  obtain ⟨hp₇, h₇⟩ := flat_fold crypto ⟨Tables.shorts, fun t u => { t with shorts := u },
    fun _ => rfl, fun _ _ => rfl, fun _ _ _ => rfl⟩ (fun u k r => u.insert k r) o.shorts .short
    (fun c k r hc => storeShortRecord_eq crypto hc k r) (fun _ _ _ => rfl) hp₆
  obtain ⟨hp₈, h₈⟩ := flat_fold crypto ⟨Tables.collateral, fun t u => { t with collateral := u },
    fun _ => rfl, fun _ _ => rfl, fun _ _ _ => rfl⟩ (fun u k r => u.insert k r) o.collateral
    .collateral (fun c k r hc => storeCollateralRecord_eq crypto hc k r) (fun _ _ _ => rfl) hp₇
  refine ⟨hp₈, h₈.trans ?_⟩
  rw [h₇, h₆, h₅, h₄, h₃, h₂, h₁]
  simp only [foldl_keyed hkeyed.assets, foldl_keyed hkeyed.accounts, foldl_keyed hkeyed.balances]
  rfl

theorem applyTransactions_flat (hp : c.IsPending) (h : applyTransactions crypto o c = .ok c') :
    c'.IsPending ∧ c'.flat =
      { c.flat with transactions := o.transactions.above c.flat.transactions } := by
  have key : ∀ (l : List (TransactionId × TransactionRecord)) (c : ChainInterface), c.IsPending →
      l.foldlM (fun c e => c.storeTransaction crypto e.1 e.2) c = .ok c' →
      c'.IsPending ∧ c'.flat = { c.flat with
        transactions := l.foldl (fun u e => u.insert e.1 e.2) c.flat.transactions } := by
    intro l
    induction l with
    | nil =>
      intro c hp h
      rw [List.foldlM_nil, pure_eq_ok] at h
      exact h ▸ ⟨hp, rfl⟩
    | cons e l ih =>
      intro c hp h
      rw [List.foldlM_cons, bind_eq_ok] at h
      obtain ⟨c₁, hstore, h⟩ := h
      obtain ⟨chainId, -, rfl⟩ := storeTransaction_eq_ok hp hstore
      obtain ⟨hp', heq⟩ := ih _ ((sameBelow_write ..).pending hp) h
      refine ⟨hp', heq.trans ?_⟩
      rw [flat_write hp]
      rfl
  obtain ⟨hp', heq⟩ := key _ c hp h
  refine ⟨hp', heq.trans ?_⟩
  rw [Table.above, Std.ExtTreeMap.foldl_eq_foldl_toList]

theorem applyRest_flat (hp : c.IsPending) (hkeyed : o.toTables.Keyed crypto) :
    (applyRest o c).flat = { c.flat with
      slates := o.slates.above c.flat.slates
      slots := o.slots.above c.flat.slots
      marketStatuses := o.marketStatuses.above c.flat.marketStatuses
      feeds := o.feeds.above c.flat.feeds
      properties := c.flat.properties.insert .dirtyMarkets (.markets o.dirtyMarketPairs) } := by
  obtain ⟨hp₁, h₁⟩ := flat_fold crypto ⟨Tables.slates, fun t u => { t with slates := u },
    fun _ => rfl, fun _ _ => rfl, fun _ _ _ => rfl⟩ (fun u k v => u.insert k v) o.slates
    .slate (fun c k v hc => storeDelegateSlate_eq crypto hc k v) (fun _ _ _ => rfl) hp
  obtain ⟨hp₂, h₂⟩ := flat_fold crypto ⟨Tables.slots, fun t u => { t with slots := u },
    fun _ => rfl, fun _ _ => rfl, fun _ _ _ => rfl⟩ (fun u _ r => u.insert r.startTime r) o.slots
    (fun _ r => .slot r) (fun c _ r hc => storeSlotRecord_eq crypto hc r) (fun _ _ _ => rfl) hp₁
  obtain ⟨hp₃, h₃⟩ := flat_fold crypto ⟨Tables.marketStatuses,
    fun t u => { t with marketStatuses := u }, fun _ => rfl, fun _ _ => rfl, fun _ _ _ => rfl⟩
    (fun u _ s => u.insert s.pair s) o.marketStatuses
    (fun _ s => .marketStatus s) (fun c _ s hc => storeMarketStatus_eq crypto hc s)
    (fun _ _ _ => rfl) hp₂
  obtain ⟨hp₄, h₄⟩ := flat_fold crypto ⟨Tables.feeds, fun t u => { t with feeds := u },
    fun _ => rfl, fun _ _ => rfl, fun _ _ _ => rfl⟩ (fun u _ r => u.insert r.feed r) o.feeds
    (fun _ r => .feed r) (fun c _ r hc => setFeed_eq crypto hc r) (fun _ _ _ => rfl) hp₃
  have hlast : (applyRest o c).flat = _ := congrArg flat (setProperty_eq crypto hp₄ _ _)
  rw [flat_write hp₄, h₄, h₃, h₂, h₁] at hlast
  rw [hlast]
  simp only [foldl_keyed hkeyed.slots, foldl_keyed hkeyed.marketStatuses, foldl_keyed hkeyed.feeds]
  rfl

/-- **Applying to a pending state** lays one set of tables over the other. -/
theorem applyOverlay_flat (hp : c.IsPending) (hkeyed : o.toTables.Keyed crypto)
    (h : applyOverlay crypto o c = .ok c') : c'.flat = appliedTables o c.flat := by
  simp only [applyOverlay, bind_eq_ok, pure_eq_ok] at h
  obtain ⟨c₁, h₁, rfl⟩ := h
  obtain ⟨hp₁, hrecords⟩ := applyRecords_flat hp hkeyed
  obtain ⟨hp₂, htransactions⟩ := applyTransactions_flat hp₁ h₁
  rw [applyRest_flat hp₂ hkeyed, htransactions, hrecords]
  rfl

/-- What is written to a new pending state is under its own keys. -/
theorem Writes.top_keyed {P : ChainInterface → Write → Prop} (h : Writes crypto P c.push c₁) :
    c₁.top.toTables.Keyed crypto := by
  have hpush : c.push.IsPending := List.cons_ne_nil _ _
  refine h.invariant (I := fun c => c.top.toTables.Keyed crypto) (fun c₂ w hp hc _ => ?_) hpush .empty
  obtain ⟨os, db, now, n⟩ := c₂
  cases os with
  | nil => exact absurd rfl hp
  | cons o os =>
    change (o.write crypto w).toTables.Keyed crypto
    rw [Overlay.write_toTables]
    exact hc.write w

/-- **A pending state, applied**, reads as it did before, but for the dirty markets. -/
theorem applyChanges_flat {P : ChainInterface → Write → Prop} (hp : c.IsPending)
    (hw : Writes crypto P c.push c₁) (h : c₁.applyChanges crypto = .ok c') :
    c'.flat = { c₁.flat with
      properties := c₁.flat.properties.insert .dirtyMarkets (.markets c₁.top.dirtyMarketPairs) } := by
  have hkeyed := hw.top_keyed
  have hbelow := hw.sameBelow.below
  have hp₁ : c₁.IsPending := hw.isPending (List.cons_ne_nil _ _)
  obtain ⟨os, db, now, n⟩ := c₁
  cases os with
  | nil => exact absurd rfl hp₁
  | cons o os =>
    change applyOverlay crypto o ⟨os, db, now, n⟩ = .ok c' at h
    rw [show (⟨os, db, now, n⟩ : ChainInterface) = c from hbelow] at h
    have hflat : (⟨o :: os, db, now, n⟩ : ChainInterface).flat = o.toTables.above c.flat :=
      hbelow ▸ rfl
    rw [hflat]
    exact applyOverlay_flat hp hkeyed h

end ChainInterface

end LarkX
