import LarkX.Chain.Markets
import LarkX.Chain.Ready
import LarkX.Chain.Secrets

/-!
# The evaluation of an empty block

A block without transactions on a ledger of the chain can only be refused for its header or for the
secret it reveals: once the producer is credited, every later step of `extend_chain` returns
(`Productive.evaluateBlockChanges_iff`). The delegates of the missed slots are stored, the pay rates
are percentages, the engine keeps its errors in the status of the market, and the properties that
are read have their types.
-/

namespace LarkX

open ChainInterface Ledger

namespace ChainInterface

open EvaluationState (Registry)

variable {crypto : Crypto} {c c' c₁ : ChainInterface} {head : SignedBlockHeader} {b : FullBlock}
  {blockSignee : PublicKey} {active : List ℤ}

/-- Any number of writes of a block keep what its steps read. -/
theorem ready_writes (hp : c.IsPending) (hkeyed : c.flat.Keyed crypto) (h : c.flat.Ready crypto)
    (hw : BlockWrites crypto head b c c') : c'.flat.Ready crypto := by
  have hall : c'.flat.Keyed crypto ∧ c'.flat.Ready crypto := by
    refine hw.invariant (I := fun c => c.flat.Keyed crypto ∧ c.flat.Ready crypto)
      (fun c w hp hc hw => ?_) hp ⟨hkeyed, h⟩
    rw [flat_write hp]
    exact ⟨hc.1.write w, hc.2.blockWrite hc.1 hw⟩
  exact hall.2

/-! ### Production -/

/-- The pay rates are percentages. -/
def PayRates (c : ChainInterface) : Prop :=
  ∀ (id : ℤ) (r : AccountRecord), c.flat.accounts[id]? = some r → r.stats.payRate ≤ 100

theorem PayRates.writes (h : c.PayRates) (hp : c.IsPending)
    (hw : Writes crypto (AccountStep crypto) c c') : c'.PayRates := by
  intro id r hr
  rcases (keepsSecrets_writes hp hw).secrets id r hr with ⟨r₀, hr₀, hsame⟩ | ⟨-, hsame⟩
  · exact hsame.payRate (h id r₀ hr₀)
  · exact hsame.payRate (Nat.zero_le 100)

theorem PayRates.producer (h : c.PayRates) (hreg : Registry crypto c)
    (hrun : c.updateProducer crypto b blockSignee = .ok c') : c'.PayRates := by
  obtain ⟨signee, r, info, -, hr, -, rfl⟩ := updateProducer_binds hreg hrun
  obtain ⟨hold, hinfo⟩ := getDelegate_eq_ok hr
  intro id r' hr'
  rw [flat_write ((sameBelow_write crypto _ _).pending hreg.pending),
    flat_write hreg.pending] at hr'
  change (Std.ExtTreeMap.insert _ _ _)[_]? = _ at hr'
  rw [Table.getElem?_insert] at hr'
  split at hr'
  · cases hr'
    have hrate := h _ r hold
    rwa [AccountRecord.stats, hinfo] at hrate
  · exact h id r' hr'

theorem getDelegate_returns {id : ℤ} (h : c.flat.HasDelegate id) :
    ∃ r info, c.getDelegate id = .ok (r, info) := by
  obtain ⟨r, hr, hdelegate, -⟩ := h
  obtain ⟨info, hinfo⟩ := Option.isSome_iff_exists.1 hdelegate
  refine ⟨r, info, ?_⟩
  simp only [getDelegate, bind_eq_ok, orThrow_eq_ok, pure_eq_ok, getAccountRecord_eq]
  exact ⟨r, hr, info, hinfo, rfl⟩

/-- A delegate is charged with a slot it missed. -/
theorem updateMissedSlot_returns (hdb : c.db.WellFormed crypto)
    (hactive : c.db.toTables.Schedules active) (hkept : c.db.toTables.KeepsDelegates c.flat)
    (timestamp : ℕ) : ∃ c', c.updateMissedSlot crypto active timestamp = .ok c' := by
  obtain ⟨signee, hsignee⟩ := hactive.getSlotSignee c.now c.headBlockNum timestamp
  have hstored := slotDelegate_stored hdb (slotDelegate_of_signee (c := c)
    (hactive.getActiveDelegates c.now c.headBlockNum) hsignee)
  obtain ⟨r, info, hr⟩ := getDelegate_returns (hkept _ hstored)
  simp only [updateMissedSlot, bind_eq_ok, pure_eq_ok]
  exact ⟨_, signee, hsignee, (r, info), hr, rfl⟩

/-- **Production** returns once the producer is credited. -/
theorem updateDelegateProductionInfo_returns (h : Registry crypto c)
    (hdb : c.db.WellFormed crypto) (hactive : c.db.toTables.Schedules active)
    (hkept : c.db.toTables.KeepsDelegates c.flat) (hready : c.flat.Ready crypto)
    (hproducer : c.updateProducer crypto b blockSignee = .ok c₁) (head : SignedBlockHeader) :
    ∃ c', c.updateDelegateProductionInfo crypto head b blockSignee = .ok c' := by
  have hfirst := updateProducer_retains h hproducer
  have hwrites : BlockWrites crypto head b c c₁ := updateProducer_writes h.pending hproducer
  obtain ⟨required, hrequired⟩ := (ready_writes h.pending h.keyed hready hwrites).required
  have hmissed : ∃ c₂, (missedSlots head b).foldlM (updateMissedSlot crypto active) c₁ = .ok c₂ ∧
      Retains crypto c c₂ := by
    refine foldlM_eq_ok (P := fun c₂ => Retains crypto c c₂) (fun c₂ s _ hc₂ => ?_) hfirst
    obtain ⟨c₃, hc₃⟩ := updateMissedSlot_returns (hc₂.db ▸ hdb) (hc₂.db ▸ hactive)
      (hc₂.db ▸ hkept.trans hc₂.kept) s
    exact ⟨c₃, hc₃, hc₂.trans (updateMissedSlot_retains hc₂.registry hc₃)⟩
  obtain ⟨c₂, hc₂, -⟩ := hmissed
  have hlist : c₁.database.getActiveDelegates = .ok active :=
    (hfirst.db ▸ hactive : c₁.db.toTables.Schedules active).getActiveDelegates c₁.now
      c₁.headBlockNum
  simp only [updateDelegateProductionInfo, bind_eq_ok, pure_eq_ok]
  exact ⟨_, c₁, hproducer, .int required, (getProperty_eq_ok c₁).2 hrequired, required, rfl, active,
    hlist, c₂, hc₂, rfl⟩

/-! ### Pay -/

/-- **The pay** of a stored delegate returns. -/
theorem payDelegate_returns (h : Registry crypto c) (hready : c.flat.Ready crypto)
    (hrates : c.PayRates) {signee : AccountRecord}
    (hsignee : c.getDelegateRecordForSignee crypto blockSignee = .ok signee)
    (hstored : c.flat.HasDelegate signee.id) :
    ∃ c', c.payDelegate crypto blockSignee = .ok c' := by
  obtain ⟨r, info, hr⟩ := getDelegate_returns hstored
  obtain ⟨hold, hinfo⟩ := getDelegate_eq_ok hr
  obtain ⟨base, hbase, -⟩ := hready.base
  have hrate : info.payRate ≤ 100 := by
    have hrate := hrates _ r hold
    rwa [AccountRecord.stats, hinfo] at hrate
  have hid : base.id = 0 := h.keyed.assets 0 base hbase
  rw [← getAssetRecord_eq] at hbase
  have hmax : c.getDelegatePayRate = .ok btsMaxDelegatePayPerBlock := by
    simp only [getDelegatePayRate, bind_eq_ok, orThrow_eq_ok, pure_eq_ok]
    exact ⟨base, hbase, trivial⟩
  simp only [payDelegate, bind_eq_ok, orThrow_eq_ok, require_eq_ok, pure_eq_ok]
  refine ⟨_, signee, hsignee, (r, info), hr, (), hrate, _, hmax, base, hbase, { base with
    collectedFees := wrap64 (base.collectedFees - btsMaxDelegatePayPerBlock) }, ?_, rfl⟩
  rw [storeAssetRecord_eq crypto h.pending,
    storeAccountRecord_eq ((sameBelow_write crypto _ _).pending h.pending), getAssetRecord_eq,
    flat_write ((sameBelow_write crypto _ _).pending h.pending), flat_write h.pending]
  change (Std.ExtTreeMap.insert _ _ _)[_]? = _
  rw [← hid]
  exact Table.getElem?_insert_same ..

end ChainInterface

/-! ### The block -/

namespace Ledger

variable {crypto : Crypto} {db : Ledger}

/-- What the evaluation of an empty block assumes of the ledger. -/
structure Productive (crypto : Crypto) (db : Ledger) (active : List ℤ) : Prop where
  wellFormed : db.WellFormed crypto
  below : db.toTables.AccountsBelow
  schedules : db.toTables.Schedules active
  ready : db.toTables.Ready crypto
  owned : db.KeysOwned crypto
  payRate : ∀ (id : ℤ) (r : AccountRecord), db.accounts[id]? = some r → r.stats.payRate ≤ 100
  ordered : db.OrderedMarkets crypto

/-- **The evaluation of an empty block** by the delegate of its slot fails for the secret it
reveals, or not at all. -/
theorem Productive.evaluateBlockChanges_iff {active : List ℤ} (h : db.Productive crypto active)
    {now n : ℕ} {b : FullBlock} (htrxs : b.userTransactions = []) {r : AccountRecord}
    (hr : getSlotSignee ⟨[], db, now, n⟩ b.timestamp active = .ok r) (head : SignedBlockHeader)
    (skip : Bool) :
    (∃ c, (push ⟨[], db, now, n⟩).evaluateBlockChanges crypto head skip b r.activeKey = .ok c) ↔
      ∃ c, (push ⟨[], db, now, n⟩).updateProducer crypto b r.activeKey = .ok c := by
  have hflat : (push ⟨[], db, now, n⟩).flat = db.toTables := Tables.empty_above _
  have hregistry : EvaluationState.Registry crypto (push ⟨[], db, now, n⟩) :=
    ⟨List.cons_ne_nil _ _, hflat ▸ h.wellFormed.keyed, hflat ▸ h.below⟩
  constructor
  · rintro ⟨c, hc⟩
    simp only [evaluateBlockChanges, updateDelegateProductionInfo, bind_eq_ok] at hc
    obtain ⟨_, ⟨c₁, hproducer, -⟩, -⟩ := hc
    exact ⟨c₁, hproducer⟩
  · rintro ⟨c₁, hproducer⟩
    have hready : (push ⟨[], db, now, n⟩).flat.Ready crypto := hflat ▸ h.ready
    have hrates : (push ⟨[], db, now, n⟩).PayRates := by
      rw [PayRates, hflat]
      exact h.payRate
    -- production
    obtain ⟨c₂, hproduction⟩ := updateDelegateProductionInfo_returns hregistry h.wellFormed
      h.schedules (fun id hid => hflat ▸ hid) hready hproducer head
    have hretains := updateDelegateProductionInfo_retains hregistry hproduction
    have hready₂ := ready_writes hregistry.pending hregistry.keyed hready
      (updateDelegateProductionInfo_writes hregistry.pending hproduction)
    have hrates₂ : c₂.PayRates := by
      obtain ⟨c₁', hproducer', hwrites⟩ :=
        updateDelegateProductionInfo_accountWrites hregistry hproduction
      cases hproducer.symm.trans hproducer'
      exact (hrates.producer hregistry hproducer).writes
        (updateProducer_retains hregistry hproducer).registry.pending hwrites
    -- pay
    have hsignee : c₂.getDelegateRecordForSignee crypto r.activeKey = .ok r := by
      have hfound := h.owned.signee hr c₂.now c₂.headBlockNum
      rw [show db = c₂.db from hretains.db.symm] at hfound
      exact hfound
    have hstored : c₂.flat.HasDelegate r.id := by
      refine hretains.kept _ (hflat ▸ ?_)
      exact slotDelegate_stored h.wellFormed (slotDelegate_of_signee (c := ⟨[], db, now, n⟩)
        (h.schedules.getActiveDelegates now n) hr)
    obtain ⟨c₃, hpay⟩ := payDelegate_returns hretains.registry hready₂ hrates₂ hsignee hstored
    have hpaid := hretains.trans (payDelegate_retains hretains.registry hpay)
    -- the markets
    obtain ⟨c₄, hmarkets⟩ : ∃ c₄, executeMarkets crypto c₃ = .ok c₄ := by
      have hordered : c₃.db.OrderedMarkets crypto := hpaid.db ▸ h.ordered
      exact executeMarkets_returns fun pair hpair => hordered.dirty hpair
    have hexecuted := hpaid.trans (executeMarkets_retains hpaid.registry hmarkets)
    -- the seed is that of the database
    obtain ⟨seed, hseed⟩ := h.ready.seed
    have hread : ∀ c : ChainInterface, c.db = db → c.getCurrentRandomSeed = .ok seed := by
      intro c hc
      simp only [getCurrentRandomSeed, bind_eq_ok, getProperty, orThrow_eq_ok]
      refine ⟨.hash seed, ?_, rfl⟩
      change c.db.properties[_]? = _
      rw [hc]
      exact hseed
    obtain ⟨c₅, hlist, hdb⟩ : ∃ c₅, c₄.updateActiveDelegateList crypto b = .ok c₅ ∧ c₅.db = db := by
      unfold updateActiveDelegateList
      split
      · refine ⟨_, bind_eq_ok.2 ⟨seed, hread c₄ hexecuted.db, rfl⟩, ?_⟩
        rw [setActiveDelegates, setProperty_eq crypto hexecuted.registry.pending]
        exact (sameBelow_write crypto _ _).db.trans hexecuted.db
      · exact ⟨c₄, rfl, hexecuted.db⟩
    obtain ⟨c₆, hseeded⟩ : ∃ c₆, c₅.updateRandomSeed crypto b.previousSecret = .ok c₆ :=
      ⟨_, bind_eq_ok.2 ⟨seed, hread c₅ hdb, rfl⟩⟩
    have hempty : c₄.applyTransactionsOf crypto skip b = .ok c₄ := by
      rw [applyTransactionsOf, htrxs]
      rfl
    refine ⟨c₆, ?_⟩
    simp only [evaluateBlockChanges, bind_eq_ok]
    exact ⟨c₂, hproduction, c₃, hpay, c₄, hmarkets, c₄, hempty, c₅, hlist, hseeded⟩

end Ledger

end LarkX
