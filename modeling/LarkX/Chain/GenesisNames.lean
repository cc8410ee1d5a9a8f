import LarkX.Chain.Schedule

/-!
# The names of the genesis accounts

`initialize_genesis` stores an account for every name of the configuration and does not ask
whether the name is taken, as `register_account` does. When the names are distinct
(`GenesisBlockConfig.DistinctNames`), the accounts are registered properly
(`initializeGenesis_registered`): every store has a name of its own.
-/

namespace LarkX

open Ledger

/-- No two accounts of the configuration have one name. An account without an owner key is null,
and is not stored. -/
def GenesisBlockConfig.DistinctNames (config : GenesisBlockConfig) : Prop :=
  config.names.Pairwise fun a b => a.owner ≠ 0 → b.owner ≠ 0 → a.name ≠ b.name

instance (config : GenesisBlockConfig) : Decidable config.DistinctNames :=
  inferInstanceAs (Decidable (List.Pairwise _ _))

/-- Indexes that are kept with the accounts stay exact. -/
theorem Ledger.Indexed.congr {db db' : Ledger} (h : Indexed db)
    (haccounts : db'.accounts = db.accounts) (hnames : db'.accountIndex = db.accountIndex)
    (hvotes : db'.delegateVoteIndex = db.delegateVoteIndex) : Indexed db' :=
  ⟨fun name id => by rw [hnames, haccounts]; exact h.names name id,
    fun v => by rw [hvotes, haccounts]; exact h.votes v⟩

namespace Genesis

variable {crypto : Crypto} {config : GenesisBlockConfig} {ledger ledger' : Ledger}
  {r r' : AccountRecord}

/-! ### Accounts of the configuration -/

/-- The record is the account of a name of the configuration, of the time of the configuration. -/
def AccountOf (config : GenesisBlockConfig) (r : AccountRecord) : Prop :=
  ∃ (n : ℕ) (name : NameConfig), config.names[n]? = some name ∧ r.id = n + 1 ∧
    r.name = name.name ∧ r.ownerKey = name.owner ∧ r.lastUpdate = config.timestamp

theorem AccountOf.same (h : AccountOf config r) (h' : AccountOf config r') (hid : r.id = r'.id) :
    r.name = r'.name ∧ r.ownerKey = r'.ownerKey := by
  obtain ⟨n, name, hn, hrid, hname, howner, -⟩ := h
  obtain ⟨n', name', hn', hrid', hname', howner', -⟩ := h'
  have hnn : n = n' := by omega
  rw [hnn, hn'] at hn
  cases hn
  exact ⟨hname.trans hname'.symm, howner.trans howner'.symm⟩

/-- Distinct names tell the stored accounts apart. -/
theorem AccountOf.id_eq (hdistinct : config.DistinctNames) (h : AccountOf config r)
    (h' : AccountOf config r') (hnull : r.isNull = false) (hnull' : r'.isNull = false)
    (hname : r.name = r'.name) : r.id = r'.id := by
  obtain ⟨n, name, hn, hid, hrname, howner, -⟩ := h
  obtain ⟨n', name', hn', hid', hrname', howner', -⟩ := h'
  obtain ⟨hlt, rfl⟩ := List.getElem?_eq_some_iff.1 hn
  obtain ⟨hlt', rfl⟩ := List.getElem?_eq_some_iff.1 hn'
  have hkey : config.names[n].owner ≠ 0 := by
    rw [← howner]
    exact beq_eq_false_iff_ne.1 hnull
  have hkey' : config.names[n'].owner ≠ 0 := by
    rw [← howner']
    exact beq_eq_false_iff_ne.1 hnull'
  have heq : config.names[n].name = config.names[n'].name := hrname.symm.trans (hname.trans hrname')
  have hpairwise := List.pairwise_iff_getElem.1 hdistinct
  rcases Nat.lt_trichotomy n n' with hlt₁ | rfl | hlt₁
  · exact absurd heq (hpairwise n n' hlt hlt' hlt₁ hkey hkey')
  · rw [hid, hid']
  · exact absurd heq.symm (hpairwise n' n hlt' hlt hlt₁ hkey' hkey)

theorem AccountOf.le (h : AccountOf config r) : r.id ≤ config.names.length := by
  obtain ⟨n, name, hn, hid, -⟩ := h
  have hlt := (List.getElem?_eq_some_iff.1 hn).1
  omega

theorem accountOf_account {name : NameConfig} {n : ℕ} (hn : config.names[n]? = some name)
    (h : account config name (n + 1) = .ok r) : AccountOf config r := by
  simp only [account, bind_eq_ok, pure_eq_ok] at h
  obtain ⟨r₁, hr₁, rfl⟩ := h
  obtain rfl := EvaluationState.setActiveKey_eq_ok hr₁
  split <;> exact ⟨n, name, hn, rfl, rfl, rfl, rfl⟩

/-! ### Ledgers with such accounts -/

/-- The stored accounts are accounts of the configuration, and their indexes are exact. -/
structure Christened (config : GenesisBlockConfig) (ledger : Ledger) : Prop where
  indexed : ledger.Indexed
  accounts : ∀ (id : ℤ) (r : AccountRecord), ledger.accounts[id]? = some r →
    r.id = id ∧ r.isNull = false ∧ AccountOf config r

theorem Christened.congr (h : Christened config ledger)
    (haccounts : ledger'.accounts = ledger.accounts)
    (hnames : ledger'.accountIndex = ledger.accountIndex)
    (hvotes : ledger'.delegateVoteIndex = ledger.delegateVoteIndex) : Christened config ledger' :=
  ⟨h.indexed.congr haccounts hnames hvotes, haccounts ▸ h.accounts⟩

/-- An account of the configuration fits the names in use. -/
theorem Christened.nameFits (hdistinct : config.DistinctNames) (h : Christened config ledger)
    (hr : AccountOf config r) (hwritten : r.isNull = false ∨ ledger.accounts[r.id]? ≠ none) :
    NameFits ledger r := by
  have hnull : r.isNull = false := by
    refine hwritten.elim (fun hnull => hnull) fun hsome => ?_
    -- a record that is replaced has the same owner key
    obtain ⟨old, hold⟩ := Option.ne_none_iff_exists'.1 hsome
    obtain ⟨hid, holdNull, hof⟩ := h.accounts r.id old hold
    rw [AccountRecord.isNull, (hr.same hof hid.symm).2]
    exact holdNull
  intro id r' hr'
  obtain ⟨hid, hnull', hof⟩ := h.accounts id r' hr'
  constructor
  · intro hname
    rw [← hid]
    exact hof.id_eq hdistinct hr hnull' hnull hname
  · intro heq
    exact (hof.same hr (hid.trans heq)).1

/-- **A store** of an account of the configuration. -/
theorem Christened.store (hdistinct : config.DistinctNames) (h : Christened config ledger)
    (hr : AccountOf config r) : Christened config (ledger.storeAccountRecord crypto r) := by
  refine ⟨h.indexed.storeAccountRecord (h.nameFits hdistinct hr), fun id r' hr' => ?_⟩
  rw [show (ledger.storeAccountRecord crypto r).accounts = ledger.accounts.put r.isNull r.id r from
    congrArg Tables.accounts (storeAccountRecord_toTables crypto ledger r)] at hr'
  by_cases hmine : id = r.id
  · rw [hmine, Table.getElem?_put_same] at hr'
    split at hr'
    · cases hr'
    · rename_i hnull
      cases hr'
      exact ⟨hmine.symm, Bool.eq_false_iff.2 hnull, hr⟩
  · rw [Table.getElem?_put_of_ne _ _ _ hmine] at hr'
    exact h.accounts id r' hr'

/-! ### The loops of `initialize_genesis` -/

/-- The loop over the names. -/
theorem addName_christened (hdistinct : config.DistinctNames)
    {state state' : Ledger × Table ℤ AccountRecord} {name : NameConfig} {n : ℕ}
    (hn : config.names[n]? = some name) (hledger : Christened config state.1)
    (hdelegates : ∀ (id : ℤ) r, state.2[id]? = some r → AccountOf config r)
    (h : addName crypto config state (name, n) = .ok state') :
    Christened config state'.1 ∧
      ∀ (id : ℤ) r, state'.2[id]? = some r → AccountOf config r := by
  simp only [addName, bind_eq_ok, pure_eq_ok] at h
  obtain ⟨r, hr, rfl⟩ := h
  have hof := accountOf_account hn hr
  split
  · refine ⟨hledger, fun id r' hr' => ?_⟩
    rw [Table.getElem?_insert] at hr'
    split at hr'
    · cases hr'
      exact hof
    · exact hdelegates id r' hr'
  · exact ⟨hledger.store hdistinct hof, hdelegates⟩

/-- Votes change no account but its votes. -/
theorem addVotes_accountOf {slate : List ℤ} {amount : ℤ}
    {delegates delegates' : Table ℤ AccountRecord}
    (hdelegates : ∀ (id : ℤ) r, delegates[id]? = some r → AccountOf config r)
    (h : addVotes slate amount delegates = .ok delegates') (id : ℤ) (r : AccountRecord)
    (hr : delegates'[id]? = some r) : AccountOf config r := by
  refine foldlM_induction
    (P := fun t : Table ℤ AccountRecord => ∀ (id : ℤ) r, t[id]? = some r → AccountOf config r)
    (fun t d t' _ ht hstep id r hr => ?_) hdelegates h id r hr
  simp only [bind_eq_ok, AccountRecord.adjustVotesFor, orThrow_eq_ok, pure_eq_ok] at hstep
  obtain ⟨r', ⟨info, hinfo, rfl⟩, rfl⟩ := hstep
  rw [Table.getElem?_insert] at hr
  split at hr
  · cases hr
    cases hd : t[d]? with
    | none =>
      rw [hd] at hinfo
      cases hinfo
    | some old => exact ht d old hd
  · exact ht id r hr

/-- The loop over the balances stores no account. -/
theorem addBalance_christened {chainId : Digest} {ids : List ℤ} {total : ℕ} {s s' : BalanceState}
    {item : PtsAddress × ℕ} (hledger : Christened config s.ledger)
    (hdelegates : ∀ (id : ℤ) r, s.delegates[id]? = some r → AccountOf config r)
    (h : addBalance crypto config chainId ids total s item = .ok s') :
    Christened config s'.ledger ∧
      ∀ (id : ℤ) r, s'.delegates[id]? = some r → AccountOf config r := by
  simp only [addBalance, bind_eq_ok, pure_eq_ok] at h
  obtain ⟨shares, -, slate, -, delegates, hvotes, rfl⟩ := h
  rw [(balanceRecord_accounts s chainId ids item.1 shares).2] at hvotes
  refine ⟨hledger.congr ?_ ?_ ?_, addVotes_accountOf hdelegates hvotes⟩ <;>
  · unfold balanceRecord storeSlate
    split
    · rfl
    · dsimp only
      split <;> rfl

/-- The accounts, the slates and the balances. -/
theorem fundedLedger_christened (hdistinct : config.DistinctNames)
    (h : fundedLedger crypto config = .ok ledger) : Christened config ledger := by
  simp only [fundedLedger, bind_eq_ok, require_eq_ok, pure_eq_ok] at h
  obtain ⟨-, -, named, hnames, s, hbalances, rfl⟩ := h
  have hempty : Christened config (Ledger.setProperty { chainId := crypto.genesisDigest config }
      .chainId (.hash (crypto.genesisDigest config))) := by
    refine ⟨⟨fun name id => ?_, votesIndexed_empty (crypto.genesisDigest config)⟩,
      fun id r hr => ?_⟩
    · constructor
      · intro hid
        cases (Table.getElem?_empty' name).symm.trans hid
      · rintro ⟨r, hr, -⟩
        cases (Table.getElem?_empty' id).symm.trans hr
    · cases (Table.getElem?_empty' id).symm.trans hr
  -- the account of "god" has no owner key, so it is null and there is nothing to remove
  have hgod : Ledger.storeAccountRecord crypto (Ledger.setProperty
      { chainId := crypto.genesisDigest config } .chainId (.hash (crypto.genesisDigest config)))
      { id := 0, name := "god".toList } = Ledger.setProperty
        { chainId := crypto.genesisDigest config } .chainId
        (.hash (crypto.genesisDigest config)) := by
    unfold Ledger.storeAccountRecord
    rw [show (Ledger.setProperty { chainId := crypto.genesisDigest config } .chainId
      (.hash (crypto.genesisDigest config))).accounts[(0 : ℤ)]? = none from
        Table.getElem?_empty' (0 : ℤ)]
    rfl
  obtain ⟨hnamed, hcollected⟩ := foldlM_induction
    (P := fun state : Ledger × Table ℤ AccountRecord => Christened config state.1 ∧
      ∀ (id : ℤ) r, state.2[id]? = some r → AccountOf config r)
    (fun state entry _ hmem hstate hstep => addName_christened hdistinct
      (List.mem_zipIdx_iff_getElem?.1 hmem) hstate.1 hstate.2 hstep)
    ⟨hgod.symm ▸ hempty, fun id r hr => by cases (Table.getElem?_empty' id).symm.trans hr⟩ hnames
  obtain ⟨hs, hdelegates⟩ := foldlM_induction
    (P := fun s : BalanceState => Christened config s.ledger ∧
      ∀ (id : ℤ) r, s.delegates[id]? = some r → AccountOf config r)
    (fun _ _ _ _ hs hstep => addBalance_christened hs.1 hs.2 hstep)
    ⟨hnamed, hcollected⟩ hbalances
  exact Table.foldl_induction (P := Christened config) s.delegates
    (fun _ id r hr hledger => hledger.store hdistinct (hdelegates id r hr)) hs

/-- The assets and the properties leave the accounts alone. -/
theorem Christened.withAssets (h : Christened config ledger) (supply : ℤ) :
    Christened config (withAssets config ledger supply) := by
  have hasset : ∀ (ledger : Ledger) (r : AssetRecord), Christened config ledger →
      Christened config (ledger.storeAssetRecord r) := by
    intro ledger r h
    unfold storeAssetRecord
    split <;> exact h.congr rfl rfl rfl
  have hassets : ∀ (l : List (AssetConfig × ℕ)) (ledger : Ledger), Christened config ledger →
      Christened config (l.foldl (fun ledger entry =>
        ledger.storeAssetRecord (marketAsset config entry.1 (entry.2 + 1))) ledger) := by
    intro l
    induction l with
    | nil => exact fun _ h => h
    | cons e l ih => exact fun _ h => ih _ (hasset _ _ h)
  exact (hassets config.marketAssets.zipIdx _ (hasset _ (baseAsset config supply) h)).congr rfl rfl
    rfl

end Genesis

namespace Database

section Genesis

variable {crypto : Crypto} {config : GenesisBlockConfig} {db : Database}

theorem initializeGenesis_christened (hdistinct : config.DistinctNames)
    (h : initializeGenesis crypto config = .ok db) : Genesis.Christened config db.ledger := by
  simp only [initializeGenesis, Genesis.genesisLedger, bind_eq_ok, pure_eq_ok] at h
  obtain ⟨ledger, ⟨funded, hfunded, total, -, -, -, rfl⟩, rfl⟩ := h
  exact (Genesis.fundedLedger_christened hdistinct hfunded).withAssets total.amount

/-- **A genesis with distinct names** registers its accounts. -/
theorem initializeGenesis_registered (hdistinct : config.DistinctNames)
    (h : initializeGenesis crypto config = .ok db) : db.ledger.Registered := by
  have hchristened := initializeGenesis_christened hdistinct h
  simp only [initializeGenesis, Genesis.genesisLedger, bind_eq_ok, pure_eq_ok] at h
  obtain ⟨ledger, ⟨funded, hfunded, total, -, -, -, rfl⟩, rfl⟩ := h
  obtain ⟨assets, properties, htables, -, hlast⟩ :=
    Genesis.withAssets_toTables config funded total.amount
  refine ⟨hchristened.indexed, config.names.length, ?_, fun id r hr => ?_⟩
  · rw [← hlast]
    exact congrArg (fun t : Tables => t.properties[ChainProperty.lastAccountId]?) htables
  · obtain ⟨hid, -, hof⟩ := hchristened.accounts id r hr
    exact hid ▸ hof.le

end Genesis

end Database

end LarkX
