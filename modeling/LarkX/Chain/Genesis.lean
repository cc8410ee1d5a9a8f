import LarkX.Chain.Database

/-!
# Genesis and runs of the chain

`initialize_genesis` builds the first state of the database from the configuration, and
`sanity_check` is its own check of that state. `Reachable` are the states a node passes
through: genesis, and then any sequence of calls of `pushBlock`, whether they return or throw.
-/

namespace LarkX

/-! ### The state of the base asset -/

/-- `sanity_check`: the balances and the pay of the delegates make up the supply of the base
asset, which is within its maximum. -/
def Ledger.sanityCheck (ledger : Ledger) : Fallible Unit := do
  let total ← ledger.balances.toList.foldlM (fun (total : Asset) e =>
    if e.2.assetId = 0 then do
      require (0 ≤ e.2.balance) (.assertion "ind.amount >= 0")
      total.add ⟨e.2.balance, e.2.assetId⟩
    else return total) {}
  let total ← ledger.accounts.toList.foldlM (fun (total : Asset) e =>
    if e.2.isDelegate then total.add ⟨e.2.payBalance, 0⟩ else return total) total
  let base ← orThrow ledger.assets[(0 : ℤ)]? (.assertion "ar.valid()")
  require (base.currentShareSupply = total.amount)
    (.assertion "ar->current_share_supply == total.amount")
  require (base.currentShareSupply ≤ base.maximumShareSupply)
    (.assertion "ar->current_share_supply <= ar->maximum_share_supply")

namespace Genesis

variable (crypto : Crypto) (config : GenesisBlockConfig)

/-! ### Accounts -/

/-- The account of a name of the configuration. -/
def account (name : NameConfig) (id : ℤ) : Fallible AccountRecord := do
  let r : AccountRecord :=
    { id, name := name.name, ownerKey := name.owner, registrationDate := config.timestamp,
      lastUpdate := config.timestamp }
  let r ← r.setActiveKey config.timestamp name.owner
  return if name.delegatePayRate ≤ 100 then
    { r with delegateInfo := some { payRate := name.delegatePayRate } }
  else r

/-- The loop over the names: delegates are collected, all other accounts are stored. -/
def addName (state : Ledger × Table ℤ AccountRecord) (entry : NameConfig × ℕ) :
    Fallible (Ledger × Table ℤ AccountRecord) := do
  let r ← account config entry.1 (entry.2 + 1)
  return if r.isDelegate then (state.1, state.2.insert r.id r)
    else (state.1.storeAccountRecord crypto r, state.2)

/-! ### Balances -/

/-- The locals of the loop over the balances. -/
structure BalanceState where
  ledger : Ledger
  delegates : Table ℤ AccountRecord
  balanceByAddress : List (PtsAddress × BalanceRecord) := []
  slatesDrawn : ℕ := 0

/-- `store_slate`. -/
def storeSlate (ledger : Ledger) (slate : List ℤ) : Ledger × SlateId :=
  let id := crypto.slateId slate
  if slate = [] ∨ ledger.slates.contains id then (ledger, id)
  else (ledger.storeDelegateSlate id slate, id)

/-- The shares of a balance of the configuration: its part of the initial shares, in 128
unsigned bits. -/
def scaledShares (totalUnscaled unscaled : ℕ) : Fallible ℕ := do
  let initial ← EvaluationState.divUint128
    (unscaled * btsBlockchainInitialShares.toNat % 2 ^ 128) totalUnscaled
  return initial % 2 ^ 64

/-- `add_votes`. -/
def addVotes (slate : List ℤ) (amount : ℤ) (delegates : Table ℤ AccountRecord) :
    Fallible (Table ℤ AccountRecord) :=
  slate.foldlM (fun delegates id => do
    let r ← (delegates[id]?.getD {}).adjustVotesFor amount
    return delegates.insert id r) delegates

/-- The record of a balance: a repeated address adds to its first record, a new one votes for
a random slate. -/
def balanceRecord (s : BalanceState) (chainId : Digest) (delegateIds : List ℤ)
    (addr : PtsAddress) (shares : ℕ) : BalanceState × BalanceRecord :=
  match s.balanceByAddress.lookup addr with
  | some cur => (s, { cur with balance := wrap64 (cur.balance + shares) })
  | none =>
    let (ledger, slateId) := storeSlate crypto s.ledger
      (crypto.randomSlate chainId delegateIds s.slatesDrawn)
    ({ s with ledger, slatesDrawn := s.slatesDrawn + 1 },
      { BalanceRecord.ofOwner (crypto.ptsToAddress addr) ⟨wrap64 shares, 0⟩ slateId with
        lastUpdate := config.timestamp })

/-- The loop over the balances. -/
def addBalance (chainId : Digest) (delegateIds : List ℤ) (totalUnscaled : ℕ)
    (s : BalanceState) (item : PtsAddress × ℕ) : Fallible BalanceState := do
  let shares ← scaledShares totalUnscaled item.2
  let (s, cur) := balanceRecord crypto config s chainId delegateIds item.1 shares
  let slate ← orThrow s.ledger.slates[cur.condition.delegateSlateId]?
    (.assertion "oslate.valid()")
  let delegates ← addVotes slate (wrap64 shares) s.delegates
  let cur := { cur with
    genesisInfo := some ⟨⟨cur.balance, cur.assetId⟩, crypto.ptsToString item.1⟩ }
  return { s with
    ledger := s.ledger.storeBalanceRecord crypto cur
    delegates
    balanceByAddress := (item.1, cur) :: s.balanceByAddress }

/-- The sum of the balances, which must not be negative. -/
def totalBalance (ledger : Ledger) : Fallible Asset :=
  ledger.balances.toList.foldlM (fun (total : Asset) e => do
    require (0 ≤ e.2.balance) (.assertion "ind.amount >= 0")
    total.add ⟨e.2.balance, e.2.assetId⟩) {}

/-! ### Assets -/

/-- The base asset. -/
def baseAsset (supply : ℤ) : AssetRecord :=
  { id := 0
    symbol := "XCL".toList
    issuerAccountId := 0
    precision := btsBlockchainPrecision.toNat
    registrationDate := config.timestamp
    lastUpdate := config.timestamp
    currentShareSupply := supply
    maximumShareSupply := btsBlockchainMaxShares
    collectedFees := 0 }

/-- A market asset of the configuration. -/
def marketAsset (asset : AssetConfig) (id : ℤ) : AssetRecord :=
  { id
    symbol := asset.symbol
    issuerAccountId := AssetRecord.marketIssuedAsset
    precision := asset.precision
    registrationDate := config.timestamp
    lastUpdate := config.timestamp
    currentShareSupply := 0
    maximumShareSupply := btsBlockchainMaxShares
    collectedFees := 0 }

/-! ### The ledger and the database -/

/-- The accounts, the slates and the balances. -/
def fundedLedger : Fallible Ledger := do
  let chainId := crypto.genesisDigest config
  let ledger : Ledger := { chainId }
  let ledger := ledger.setProperty .chainId (.hash chainId)
  let totalUnscaled := (config.balances.map Prod.snd).sum % 2 ^ 128
  let delegateConfig := config.names.filter fun name => name.delegatePayRate ≤ 100
  require (btsBlockchainNumDelegates ≤ delegateConfig.length)
    (.assertion "genesis.json does not contain enough initial delegates")
  let ledger := ledger.storeAccountRecord crypto { id := 0, name := "god".toList }
  let (ledger, delegates) ← config.names.zipIdx.foldlM (addName crypto config) (ledger, ∅)
  let s ← config.balances.foldlM
    (addBalance crypto config chainId (delegates.toList.map Prod.fst) totalUnscaled)
    { ledger, delegates }
  return s.delegates.foldl (fun ledger _ r => ledger.storeAccountRecord crypto r) s.ledger

/-- The assets and the properties. -/
def withAssets (ledger : Ledger) (supply : ℤ) : Ledger :=
  let ledger := ledger.storeAssetRecord (baseAsset config supply)
  let ledger := config.marketAssets.zipIdx.foldl (fun ledger entry =>
    ledger.storeAssetRecord (marketAsset config entry.1 (entry.2 + 1))) ledger
  let active := { db := ledger, now := 0, headBlockNum := 0 : ChainInterface
    }.nextRoundActiveDelegates
  let ledger := ledger.setProperty .activeDelegateListId (.ids active)
  let ledger := ledger.setProperty .lastAssetId (.int config.marketAssets.length)
  let ledger := ledger.setProperty .lastProposalId (.int 0)
  let ledger := ledger.setProperty .lastAccountId (.int config.names.length)
  let ledger := ledger.setProperty .lastRandomSeedId (.hash 0)
  ledger.setProperty .confirmationRequirement (.int (btsBlockchainNumDelegates * 2))

/-- The ledger `initialize_genesis` builds. -/
def genesisLedger : Fallible Ledger := do
  let ledger ← fundedLedger crypto config
  let total ← totalBalance ledger
  let ledger := withAssets config ledger total.amount
  ledger.sanityCheck
  return ledger

/-- The fork data of the genesis state. -/
def genesisFork : BlockForkData :=
  { isValid := some true, isIncluded := true, isLinked := true, isKnown := true }

end Genesis

open Genesis in
/-- `initialize_genesis`: the database before the first block. -/
def initializeGenesis (crypto : Crypto) (config : GenesisBlockConfig) : Fallible Database := do
  let ledger ← genesisLedger crypto config
  return { ledger, forkDb := (∅ : Table BlockId BlockForkData).insert 0 genesisFork }

/-! ### Runs -/

namespace Database

/-- One call of `pushBlock` with the local clock at `wall`: it returns or throws, and leaves
the database `db'`. -/
inductive Push (crypto : Crypto) (wall : ℕ) (b : FullBlock) (db db' : Database) : Prop
  | returned (r : BlockForkData) (h : (Action.pushBlock crypto wall b).run db = .ok r db')
  | threw (e : Error) (ne : e ≠ .hang)
      (h : (Action.pushBlock crypto wall b).run db = .error e db')

/-- `skip_signature_verification( false )`, which the delegate loop of the client calls before
it produces a block. -/
def verifySignatures (db : Database) : Database :=
  { db with skipSignatureVerification := false }

/-- The reachable states: the genesis state, and the states after any sequence of pushed
blocks, whose fixed-width fields hold any value of their types. The delegate loop may start at
any time. -/
inductive Reachable (crypto : Crypto) (config : GenesisBlockConfig) : Database → Prop
  | genesis {db : Database} (h : initializeGenesis crypto config = .ok db) :
      Reachable crypto config db
  | delegateLoop {db : Database} (hdb : Reachable crypto config db) :
      Reachable crypto config db.verifySignatures
  | push {db db' : Database} (wall : ℕ) (b : FullBlock) (hdb : Reachable crypto config db)
      (hb : b.InRange) (h : Push crypto wall b db db') : Reachable crypto config db'

/-! ### Running the chain -/

/-- The database after a call of `pushBlock`, however it ends. -/
def pushed (crypto : Crypto) (wall : ℕ) (b : FullBlock) (db : Database) : Database :=
  match (Action.pushBlock crypto wall b).run db with
  | .ok _ db' => db'
  | .error _ db' => db'

/-- The call of `pushBlock` ends, whether it returns or throws. -/
def terminates (crypto : Crypto) (wall : ℕ) (b : FullBlock) (db : Database) : Bool :=
  match (Action.pushBlock crypto wall b).run db with
  | .ok _ _ => true
  | .error e _ => e ≠ .hang

theorem push_pushed {crypto : Crypto} {wall : ℕ} {b : FullBlock} {db : Database}
    (h : db.terminates crypto wall b = true) :
    Push crypto wall b db (db.pushed crypto wall b) := by
  unfold terminates at h
  unfold pushed
  split at h
  · rename_i r db' hrun
    exact .returned r hrun
  · rename_i e db' hrun
    exact .threw e (of_decide_eq_true h) hrun

theorem Reachable.pushed {crypto : Crypto} {config : GenesisBlockConfig} {wall : ℕ} {b : FullBlock}
    {db : Database} (hdb : Reachable crypto config db) (hb : b.InRange)
    (h : db.terminates crypto wall b = true) : Reachable crypto config (db.pushed crypto wall b) :=
  .push wall b hdb hb (push_pushed h)

/-- The active key of the delegate whose slot it is. -/
def scheduledKey (db : Database) (timestamp : ℕ) : Fallible PublicKey := do
  let active ← (db.chain 0).getActiveDelegates
  let signee ← (db.chain 0).getSlotSignee timestamp active
  return signee.activeKey

/-- A block on the head, by the delegate whose slot it is. In the transparent instance a
signature is the key that made it. -/
def blockOn (db : Database) (blockNum timestamp : ℕ) (trxs : List SignedTransaction) : FullBlock where
  previous := db.headBlockId
  blockNum
  timestamp
  transactionDigest :=
    Crypto.transparent.transactionsDigest (trxs.map Crypto.transparent.transactionId)
  delegateSignature := (db.scheduledKey timestamp).toOption.getD 0
  userTransactions := trxs

/-- A configuration with as many delegates as a round has and two external addresses. -/
def smallConfig : GenesisBlockConfig where
  timestamp := 10
  names := (List.range btsBlockchainNumDelegates).map fun i =>
    ⟨['d', Char.ofNat (i + 48)], i + 1, 100⟩
  balances := [(⟨56, 5⟩, 1), (⟨56, 7⟩, 1)]

/-- Its genesis state. -/
def smallGenesis : Database :=
  (initializeGenesis .transparent smallConfig).toOption.getD {}

theorem initialize_smallGenesis :
    initializeGenesis .transparent smallConfig = .ok smallGenesis := by
  obtain ⟨db, hdb⟩ := exists_eq_ok (x := initializeGenesis .transparent smallConfig)
    (by decide +kernel)
  rw [smallGenesis, hdb]
  rfl

theorem reachable_smallGenesis : Reachable .transparent smallConfig smallGenesis :=
  .genesis initialize_smallGenesis

end Database

end LarkX
