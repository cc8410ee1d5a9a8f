import LarkX.Chain.Production

/-!
# What a block finds in the chain state

A block reads four properties and the base asset, and its undo state reads every property and every
transaction it writes again. Each of these reads throws when the entry is missing, has another type
or another id. All of them are right at genesis, and no block takes one away (`Tables.Ready`,
`Ledger.ready_block`), so along a chain none of them throws.
-/

namespace LarkX

open ChainInterface Ledger

/-- A value of the type that a block reads under a property, if it reads it. -/
def ChainProperty.Reads : ChainProperty → Variant → Prop
  | .lastAccountId, v => ∃ last, v = .int last
  | .confirmationRequirement, v => ∃ required, v = .int required
  | .lastRandomSeedId, v => ∃ seed, v = .hash seed
  | .activeDelegateListId, v => ∃ active, v = .ids active
  | _, _ => False

theorem ChainProperty.Reads.isNull {p : ChainProperty} {v : Variant} (h : p.Reads v) :
    v.isNull = false := by
  cases p with
  | lastAccountId | confirmationRequirement | lastRandomSeedId | activeDelegateListId =>
    obtain ⟨_, rfl⟩ := h
    rfl
  | _ => exact h.elim

namespace Tables

/-- What a block and its undo state read, beside the accounts. -/
structure Ready (crypto : Crypto) (t : Tables) : Prop where
  properties : ∀ p v, ChainProperty.Reads p v → ∃ v', t.properties[p]? = some v' ∧ p.Reads v'
  base : ∃ r, t.assets[(0 : ℤ)]? = some r ∧ r.isNull = false
  named : ∀ (id : TransactionId) (r : TransactionRecord), t.transactions[id]? = some r →
    id = crypto.transactionId r.trx

variable {crypto : Crypto} {t : Tables}

theorem Ready.lastAccount (h : t.Ready crypto) :
    ∃ last, t.properties[ChainProperty.lastAccountId]? = some (.int last) := by
  obtain ⟨_, hget, last, rfl⟩ := h.properties .lastAccountId (.int 0) ⟨0, rfl⟩
  exact ⟨last, hget⟩

theorem Ready.required (h : t.Ready crypto) :
    ∃ required, t.confirmations = some (.int required) := by
  obtain ⟨_, hget, required, rfl⟩ := h.properties .confirmationRequirement (.int 0) ⟨0, rfl⟩
  exact ⟨required, hget⟩

theorem Ready.seed (h : t.Ready crypto) :
    ∃ seed, t.properties[ChainProperty.lastRandomSeedId]? = some (.hash seed) := by
  obtain ⟨_, hget, seed, rfl⟩ := h.properties .lastRandomSeedId (.hash 0) ⟨0, rfl⟩
  exact ⟨seed, hget⟩

theorem Ready.active (h : t.Ready crypto) : ∃ active, t.activeList = some (.ids active) := by
  obtain ⟨_, hget, active, rfl⟩ := h.properties .activeDelegateListId (.ids []) ⟨[], rfl⟩
  exact ⟨active, hget⟩

/-- A property is written with a value of its type. -/
theorem Ready.property (h : t.Ready crypto) {p : ChainProperty} {v : Variant}
    (hv : ∀ v', p.Reads v' → p.Reads v) : (t.write crypto (.property p v)).Ready crypto := by
  refine ⟨fun q v' hq => ?_, h.base, h.named⟩
  by_cases hp : q = p
  · subst hp
    exact ⟨v, Table.getElem?_insert_same .., hv v' hq⟩
  · obtain ⟨old, hold, hread⟩ := h.properties q v' hq
    exact ⟨old, (Table.getElem?_insert_of_ne _ _ hp).trans hold, hread⟩

/-- An asset is written over an old record of it. -/
theorem Ready.asset (h : t.Ready crypto) (hkeyed : t.Keyed crypto) {id : ℤ} {old r : AssetRecord}
    (hold : t.assets[id]? = some old) (hsame : SameAsset old r) :
    (t.write crypto (.asset r)).Ready crypto := by
  refine ⟨h.properties, ?_, h.named⟩
  obtain ⟨base, hbase, hlive⟩ := h.base
  by_cases hid : r.id = 0
  · refine ⟨r, hid ▸ Table.getElem?_insert_same .., ?_⟩
    have hold₀ : id = 0 := by rw [← hkeyed.assets id old hold, ← hsame.id, hid]
    rw [hold₀, hbase] at hold
    cases hold
    rw [AssetRecord.isNull, hsame.issuerAccountId]
    exact hlive
  · exact ⟨base, (Table.getElem?_insert_of_ne _ _ (Ne.symm hid)).trans hbase, hlive⟩

/-- **Step.** Every write of a block keeps what a block reads. -/
theorem Ready.blockWrite {c : ChainInterface} {head : SignedBlockHeader} {b : FullBlock} {w : Write}
    (h : c.flat.Ready crypto) (hkeyed : c.flat.Keyed crypto) (hw : BlockWrite crypto head b c w) :
    (c.flat.write crypto w).Ready crypto := by
  cases hw with
  | delegate _ _ _ | slot _ => exact ⟨h.properties, h.base, h.named⟩
  | confirmation required => exact h.property fun _ _ => ⟨required, rfl⟩
  | asset hold hsame => exact h.asset hkeyed hold hsame
  | activeDelegates active => exact h.property fun _ _ => ⟨active, rfl⟩
  | randomSeed seed => exact h.property fun _ _ => ⟨seed, rfl⟩
  | @transaction trx n digest _ =>
    refine ⟨h.properties, h.base, fun id r hr => ?_⟩
    change (Std.ExtTreeMap.insert _ _ _)[_]? = _ at hr
    rw [Table.getElem?_insert] at hr
    split at hr
    · rename_i hid
      cases hr
      exact hid
    · exact h.named id r hr
  | market _ _ hw =>
    cases hw with
    | asset hold hsame => exact h.asset hkeyed hold hsame
    | dirtyMarkets _ => exact h.property fun _ hread => hread.elim
    | _ => exact ⟨h.properties, h.base, h.named⟩
  | evaluation _ hw =>
    cases hw with
    | asset hold hsame => exact h.asset hkeyed hold hsame
    | @newAccount _ r _ _ _ _ =>
      have hlast : (c.flat.write crypto (.property .lastAccountId (.int r.id))).Ready crypto :=
        h.property fun _ _ => ⟨r.id, rfl⟩
      exact ⟨hlast.properties, hlast.base, hlast.named⟩
    | _ => exact ⟨h.properties, h.base, h.named⟩

end Tables

namespace Ledger

variable {crypto : Crypto} {db db' : Ledger}

/-- **A block that is accepted** leaves a ledger with all that the next block reads. -/
theorem ready_block (hdb : db.WellFormed crypto) (hready : db.toTables.Ready crypto)
    {now n wall : ℕ} {head : SignedBlockHeader} {headId : BlockId} {skip : Bool} {b : FullBlock}
    {o : Overlay}
    (h : evaluateBlock crypto ⟨[], db, now, n⟩ head headId skip wall b = .ok ⟨[o], db, now, n⟩)
    (now' : ℕ) : (db.apply crypto now' o).toTables.Ready crypto := by
  obtain ⟨o', heq, hkeyed, hready'⟩ := evaluateBlock_invariant hdb.keyed
    (I := fun o => o.toTables.Keyed crypto ∧ (o.toTables.above db.toTables).Ready crypto)
    ⟨.empty, (Tables.empty_above db.toTables).symm ▸ hready⟩ (fun o w ho hw => by
      rw [Overlay.write_toTables, Tables.write_above]
      exact ⟨ho.1.write w, Tables.Ready.blockWrite (c := ⟨[o], db, now, n⟩) ho.2
        (ho.1.above hdb.keyed) hw⟩) h
  cases heq
  rw [apply_toTables now' db hkeyed]
  obtain ⟨base, hbase, hlive⟩ := hready'.base
  refine ⟨fun p v hp => ?_, ⟨base, Table.settle_of_above hlive hbase, hlive⟩,
    fun id r hr => hready'.named id r (Table.above_of_settle hr)⟩
  obtain ⟨v', hget, hread⟩ := hready'.properties p v hp
  refine ⟨v', ?_, hread⟩
  change (Std.ExtTreeMap.insert _ _ _)[_]? = _
  rw [Table.getElem?_insert_of_ne _ _ (by rintro rfl; exact hp)]
  exact Table.settle_of_above hread.isNull hget

/-- Ledgers that agree are ready alike. -/
theorem Agrees.ready (h : Agrees db db') (hdb : db.toTables.Ready crypto) :
    db'.toTables.Ready crypto := by
  refine ⟨fun p v hp => ?_, ?_, fun id r hr => hdb.named id r ?_⟩
  · obtain ⟨v', hget, hread⟩ := hdb.properties p v hp
    exact ⟨v', (h.properties p (by rintro rfl; exact hp)).trans hget, hread⟩
  · obtain ⟨base, hbase, hlive⟩ := hdb.base
    exact ⟨base, h.assets ▸ hbase, hlive⟩
  · exact h.transactions ▸ hr

end Ledger

namespace Database

open LarkX.Action (Event)

variable {crypto : Crypto} {config : GenesisBlockConfig} {db : Database} {P : FullBlock → Prop}
  {K : Database → Event → Prop} {genesis : Ledger} {links : List (Link crypto)}

/-- There is no transaction at genesis. -/
theorem initializeGenesis_transactions (h : initializeGenesis crypto config = .ok db)
    (id : TransactionId) : db.ledger.transactions[id]? = none := by
  simp only [initializeGenesis, bind_eq_ok, pure_eq_ok] at h
  obtain ⟨ledger, hledger, rfl⟩ := h
  refine (Genesis.genesisLedger_storesOf hledger).invariant
    (I := fun ledger => ledger.transactions[id]? = none)
    (fun ledger w ledger' hnone hw hstore => ?_)
    (Table.getElem?_empty' id)
  have hsame : ledger'.transactions = ledger.transactions := by
    cases hstore with
    | account r =>
      exact (congrArg Tables.transactions (storeAccountRecord_toTables crypto ledger r)).trans rfl
    | asset r => exact (congrArg Tables.transactions (storeAssetRecord_toTables ledger r)).trans rfl
    | transaction => cases hw
    | _ => rfl
  rw [hsame]
  exact hnone

theorem initializeGenesis_ready (h : initializeGenesis crypto config = .ok db) :
    db.ledger.toTables.Ready crypto := by
  have hnone := initializeGenesis_transactions h
  have hseed := (initializeGenesis_wellFormed h).2
  simp only [initializeGenesis, Genesis.genesisLedger, bind_eq_ok, pure_eq_ok] at h
  obtain ⟨ledger, ⟨funded, -, total, -, -, -, rfl⟩, rfl⟩ := h
  obtain ⟨assets, properties, htables, hbase, hlast⟩ :=
    Genesis.withAssets_toTables config funded total.amount
  dsimp only at hnone hseed ⊢
  refine ⟨fun p v hp => ?_, ?_, fun id r hr => ?_⟩
  · cases p with
    | lastAccountId =>
      refine ⟨.int config.names.length, ?_, _, rfl⟩
      rw [htables]
      exact hlast
    | lastRandomSeedId => exact ⟨_, hseed, 0, rfl⟩
    | activeDelegateListId =>
      exact ⟨_, Genesis.withAssets_activeList config funded total.amount, _, rfl⟩
    | confirmationRequirement =>
      refine ⟨.int (btsBlockchainNumDelegates * 2), ?_, _, rfl⟩
      rw [Genesis.withAssets, getElem?_setProperty_same]
      rfl
    | _ => exact hp.elim
  · rw [htables]
    exact ⟨_, hbase, rfl⟩
  · exact absurd ((hnone id).symm.trans hr) (Option.some_ne_none r).symm

/-- Every block of a path was accepted on a ledger with all that it read, and so is the next. -/
theorem Linked.ready (hgenesis : genesis.toTables.Ready crypto)
    (h : Linked crypto P K genesis links) :
    (ledgerOf crypto genesis links).toTables.Ready crypto := by
  induction h with
  | nil => exact hgenesis
  | @cons link links _ prev _ _ _ _ ih =>
    exact ready_block prev.wellFormed (prev.agrees.ready ih) link.evaluated _

end Database

end LarkX
