import LarkX.Chain.Genesis
import LarkX.State.WellFormed

/-!
# The genesis ledger

`initialize_genesis` stores accounts, balances, slates, assets and properties in an empty ledger
(`genesisLedger_storesOf`). So its ledger is well-formed, and it holds a random seed.
-/

namespace LarkX

open Ledger

/-- The writes of `initialize_genesis`. -/
inductive GenesisWrite : Write → Prop
  | property (p : ChainProperty) {v : Variant} (h : ∀ d, v ≠ .markets d) :
      GenesisWrite (.property p v)
  | asset (r : AssetRecord) : GenesisWrite (.asset r)
  | account (r : AccountRecord) : GenesisWrite (.account r)
  | balance (r : BalanceRecord) : GenesisWrite (.balance r)
  | slate (id : SlateId) (slate : List ℤ) : GenesisWrite (.slate id slate)

namespace Genesis

variable {crypto : Crypto} {config : GenesisBlockConfig} {start ledger : Ledger}

/-- The stores of `initialize_genesis`. -/
abbrev GenesisStores (crypto : Crypto) : Ledger → Ledger → Prop :=
  StoresOf crypto GenesisWrite

theorem GenesisStores.account (h : GenesisStores crypto start ledger) (r : AccountRecord) :
    GenesisStores crypto start (ledger.storeAccountRecord crypto r) :=
  h.put (.account r) (.account r)

theorem GenesisStores.property (h : GenesisStores crypto start ledger) (p : ChainProperty)
    (v : Variant) (hv : ∀ d, v ≠ .markets d := by intro d h; cases h) :
    GenesisStores crypto start (ledger.setProperty p v) :=
  h.put (.property p hv) (.property p v)

theorem addName_storesOf {state state' : Ledger × Table ℤ AccountRecord} {entry : NameConfig × ℕ}
    (hstate : GenesisStores crypto start state.1)
    (h : addName crypto config state entry = .ok state') :
    GenesisStores crypto start state'.1 := by
  simp only [addName, bind_eq_ok, pure_eq_ok] at h
  obtain ⟨r, -, rfl⟩ := h
  split
  · exact hstate
  · exact hstate.account r

theorem storeSlate_storesOf (h : GenesisStores crypto start ledger) (slate : List ℤ) :
    GenesisStores crypto start (storeSlate crypto ledger slate).1 := by
  unfold storeSlate
  dsimp only
  split
  · exact h
  · exact h.put (.slate _ _) (.slate _ _)

theorem addBalance_storesOf {chainId : Digest} {ids : List ℤ} {total : ℕ} {s s' : BalanceState}
    {item : PtsAddress × ℕ} (hs : GenesisStores crypto start s.ledger)
    (h : addBalance crypto config chainId ids total s item = .ok s') :
    GenesisStores crypto start s'.ledger := by
  simp only [addBalance, bind_eq_ok, pure_eq_ok] at h
  obtain ⟨shares, -, slate, -, delegates, -, rfl⟩ := h
  refine StoresOf.put ?_ (.balance _) (.balance _)
  unfold balanceRecord
  split
  · exact hs
  · exact storeSlate_storesOf hs _

theorem fundedLedger_storesOf (h : fundedLedger crypto config = .ok ledger) :
    GenesisStores crypto { chainId := crypto.genesisDigest config } ledger := by
  simp only [fundedLedger, bind_eq_ok, require_eq_ok, pure_eq_ok] at h
  obtain ⟨-, -, named, hnames, s, hbalances, rfl⟩ := h
  have hstart : GenesisStores crypto { chainId := crypto.genesisDigest config }
      ((Ledger.setProperty { chainId := crypto.genesisDigest config } .chainId
        (.hash (crypto.genesisDigest config))).storeAccountRecord crypto
          { id := 0, name := "god".toList }) :=
    (GenesisStores.property .refl _ _).account _
  have hnamed : GenesisStores crypto { chainId := crypto.genesisDigest config } named.1 :=
    foldlM_induction (P := fun state => GenesisStores crypto _ state.1)
      (fun _ _ _ _ hstate h => addName_storesOf hstate h) hstart hnames
  have hs : GenesisStores crypto { chainId := crypto.genesisDigest config } s.ledger :=
    foldlM_induction (P := fun s : BalanceState => GenesisStores crypto _ s.ledger)
      (fun _ _ _ _ hs h => addBalance_storesOf hs h) hnamed hbalances
  exact hs.foldl (fun _ _ r => .account r) fun _ r _ => .account r

theorem withAssets_storesOf (h : GenesisStores crypto start ledger) (supply : ℤ) :
    GenesisStores crypto start (withAssets config ledger supply) := by
  have hassets : ∀ (l : List (AssetConfig × ℕ)) (ledger : Ledger),
      GenesisStores crypto start ledger → GenesisStores crypto start (l.foldl (fun ledger entry =>
        ledger.storeAssetRecord (marketAsset config entry.1 (entry.2 + 1))) ledger) := by
    intro l
    induction l with
    | nil => exact fun _ h => h
    | cons e l ih => exact fun _ h => ih _ (h.put (.asset _) (.asset _))
  have hstored := hassets config.marketAssets.zipIdx _
    (h.put (.asset _) (.asset (baseAsset config supply)))
  exact (((((hstored.property _ _).property _ _).property _ _).property _ _).property _
    _).property _ _

/-- **What `initialize_genesis` stores**, from an empty ledger on. -/
theorem genesisLedger_storesOf (h : genesisLedger crypto config = .ok ledger) :
    GenesisStores crypto { chainId := crypto.genesisDigest config } ledger := by
  simp only [genesisLedger, bind_eq_ok, pure_eq_ok] at h
  obtain ⟨funded, hfunded, total, -, -, -, rfl⟩ := h
  exact withAssets_storesOf (fundedLedger_storesOf hfunded) _

end Genesis

namespace Database

variable {crypto : Crypto} {config : GenesisBlockConfig} {db : Database}

/-- **The genesis ledger is well-formed** and holds a random seed. -/
theorem initializeGenesis_wellFormed (h : initializeGenesis crypto config = .ok db) :
    db.ledger.WellFormed crypto ∧
      db.ledger.properties[ChainProperty.lastRandomSeedId]? = some (.hash 0) := by
  simp only [initializeGenesis, bind_eq_ok, pure_eq_ok] at h
  obtain ⟨ledger, hledger, rfl⟩ := h
  refine ⟨(Genesis.genesisLedger_storesOf hledger).wellFormed (wellFormed_empty _ _), ?_⟩
  simp only [Genesis.genesisLedger, bind_eq_ok, pure_eq_ok] at hledger
  obtain ⟨funded, -, total, -, -, -, rfl⟩ := hledger
  rw [Genesis.withAssets, getElem?_setProperty_of_ne _ _ (by decide), getElem?_setProperty_same]
  rfl

/-- The genesis state has no head. -/
theorem initializeGenesis_head (h : initializeGenesis crypto config = .ok db) :
    db = { ledger := db.ledger, forkDb := db.forkDb } := by
  simp only [initializeGenesis, bind_eq_ok, pure_eq_ok] at h
  obtain ⟨ledger, -, rfl⟩ := h
  rfl

end Database

end LarkX
