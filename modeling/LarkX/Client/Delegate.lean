import LarkX.Chain.Database

/-!
# The client as the delegate of the node

`client_impl` stands between the peer-to-peer node and the chain database. A block arrives as a
`BlockMessage`, which carries the block and the id its sender claims for it: `onNewBlock` looks
the claimed id up and pushes the block. The other entry points answer the questions the node
asks while it synchronizes; `getItemIds` and `getBlockchainSynopsis` are the two ends of that
exchange.
-/

namespace LarkX

/-- `block_message_type`. -/
def blockMessageType : ℕ := 1001

/-- `block_message`: a block, and what its sender claims to be its id. -/
structure BlockMessage where
  block : FullBlock
  blockId : BlockId
  deriving DecidableEq, Repr

/-- `block_message( blk )`. -/
def BlockMessage.ofBlock (crypto : Crypto) (blk : FullBlock) : BlockMessage :=
  ⟨blk, crypto.blockId blk.toSignedBlockHeader⟩

/-! ### Questions to the chain database -/

namespace Database

variable (db : Database)

/-- `is_known_block( id )`. -/
def isKnownBlock (id : BlockId) : Bool :=
  match db.forkDb[id]? with
  | some r => r.isKnown
  | none => false

/-- `get_block_num( id )`. -/
def getBlockNum (id : BlockId) : Fallible ℕ :=
  if id = 0 then return 0
  else do
    let record ← orThrow db.blockIdToBlockRecordDb[id]? .keyNotFound
    return record.blockNum

/-- `get_block_id( block_num )`. -/
def getBlockId (blockNum : ℕ) : Fallible BlockId :=
  orThrow db.blockNumToIdDb[blockNum]? .keyNotFound

/-- `get_block( block_num )`. -/
def getBlockByNum (blockNum : ℕ) : Fallible FullBlock := do
  let id ← db.getBlockId blockNum
  orThrow db.blockIdToBlockDataDb[id]? .keyNotFound

/-- `get_genesis_timestamp()`. -/
def getGenesisTimestamp : ℕ :=
  match db.ledger.assets[(0 : ℤ)]? with
  | some base => base.registrationDate
  | none => 0

/-- `client_impl::get_block_time( id )`. -/
def getBlockTime (id : BlockId) : ℕ :=
  if id = 0 then db.getGenesisTimestamp
  else match db.blockIdToBlockRecordDb[id]? with
    | some record => record.timestamp
    | none => 0

end Database

/-! ### Blocks from the network -/

namespace Action

variable (crypto : Crypto)

/-- `client_impl::on_new_block`. The claimed id is only looked up; the block that is pushed may
have another one. -/
def onNewBlock (wall : ℕ) (simulateDisconnect : Bool) (block : FullBlock) (blockId : BlockId)
    (syncMode : Bool) : Action BlockForkData := do
  lift (require (simulateDisconnect = false) (.assertion "!_simulate_disconnect"))
  if (← get).isKnownBlock blockId then do
    let forkData ← getBlockForkData blockId
    lift (require (¬(syncMode = true ∧ forkData.isLinked = false)) .unlinkableBlock)
    return forkData
  else do
    let result ← pushBlock crypto wall block
    lift (require (¬(syncMode = true ∧ result.isLinked = false)) .unlinkableBlock)
    return result

/-- `client_impl::handle_message` for a block. -/
def handleMessage (wall : ℕ) (simulateDisconnect : Bool) (m : BlockMessage) (syncMode : Bool) :
    Action Bool := do
  let oldHeadBlock := (← get).headBlockId
  let forkData ← onNewBlock crypto wall simulateDisconnect m.block m.blockId syncMode
  return forkData.isIncluded ^^ (m.block.previous == oldHeadBlock)

end Action

/-! ### Synchronization -/

namespace Database

/-- `_blockchain_synopsis_size_limit`: the logarithm of 20 years of blocks, truncated. -/
def blockchainSynopsisSizeLimit : ℕ :=
  Nat.log2 (btsBlockchainBlocksPerDay * 365 * 20).toNat

variable (db : Database)

/-- The first loop of `get_item_ids`, over the synopsis from its end: the number of the last
entry that is included in the chain, or 1. Entries that are unknown are skipped. -/
def lastSeenBlockNum : List BlockId → ℕ
  | [] => 1
  | itemHash :: rest =>
    match db.getBlockNum itemHash with
    | .ok blockNum =>
      if db.isIncludedBlock itemHash then blockNum else lastSeenBlockNum rest
    | .error _ => lastSeenBlockNum rest

/-- `client_impl::get_item_ids`: the ids and the number of those that remain. When an id is
missing from the index the answer is that there are no blocks. -/
def getItemIds (itemType : ℕ) (blockchainSynopsis : List BlockId) (limit : ℕ) :
    Fallible (List BlockId × ℕ) := do
  require (itemType = blockMessageType) (.assertion "item_type == bts::client::block_message_type")
  require (blockchainSynopsis.length ≤ blockchainSynopsisSizeLimit)
    (.assertion "Peer provided unreasonably long blockchain synopsis during sync")
  let lastSeen := db.lastSeenBlockNum blockchainSynopsis.reverse
  let headBlockNum := db.headBlockNum
  if headBlockNum = 0 then return ([], 0)
  else do
    let lastSeen := if headBlockNum < lastSeen then headBlockNum else lastSeen
    let remaining := (headBlockNum + 2 ^ 32 - lastSeen + 1) % 2 ^ 32
    let itemsToGet := min limit remaining
    match (List.range itemsToGet).mapM fun i => db.getBlockId (lastSeen + i) with
    | .ok hashes => return (hashes, remaining - itemsToGet)
    | .error _ => return ([], 0)

/-- One step of `low_block_num`, in 32 bits: half of the distance to the top, rounded up past
the middle. -/
def nextLow (trueHigh low : ℕ) : ℕ :=
  (low + (trueHigh + 2 ^ 32 - low + 2) % 2 ^ 32 / 2) % 2 ^ 32

/-- The entry of the synopsis at one height: from the chain, or from the fork above it. -/
def synopsisEntry (crypto : Crypto) (forkHistory : List BlockId) (nonForkHigh low : ℕ) :
    Fallible BlockId :=
  if low ≤ nonForkHigh then do
    let block ← db.getBlockByNum low
    return crypto.blockId block.toSignedBlockHeader
  else orThrow forkHistory[low - nonForkHigh - 1]? .outOfBounds

/-- The loop of `get_blockchain_synopsis`. Its state is the 32-bit `low_block_num`, so a run
that needs more steps than there are such numbers never ends. -/
def synopsisLoop (crypto : Crypto) (forkHistory : List BlockId) (nonForkHigh high trueHigh : ℕ) :
    ℕ → ℕ → Fallible (List BlockId)
  | 0, _ => throw .hang
  | steps + 1, low => do
    let entry ← db.synopsisEntry crypto forkHistory nonForkHigh low
    if nextLow trueHigh low ≤ high then do
      let rest ← synopsisLoop crypto forkHistory nonForkHigh high trueHigh steps
        (nextLow trueHigh low)
      return entry :: rest
    else return [entry]

/-- The fork a reference point is on, oldest block first, and the number of the block of the
chain it branches from. -/
def forkOf (referencePoint : BlockId) : Fallible (List BlockId × ℕ) :=
  if db.isIncludedBlock referencePoint then do
    return ([], ← db.getBlockNum referencePoint)
  else match (Action.getForkHistory referencePoint).run db with
    | .ok history _ =>
      -- a branching point without a record counts as number 0
      .ok (history.dropLast.reverse, (db.getBlockNum (history.getLastD 0)).toOption.getD 0)
    | .error e _ => .error e

/-- `client_impl::get_blockchain_synopsis`. -/
def getBlockchainSynopsis (crypto : Crypto) (itemType : ℕ) (referencePoint : BlockId)
    (numberOfBlocksAfterReferencePoint : ℕ) : Fallible (List BlockId) := do
  require (itemType = blockMessageType) (.assertion "item_type == bts::client::block_message_type")
  if referencePoint = 0 then
    -- no reference point: the whole chain
    if db.headBlockNum = 0 then return []
    else
      db.synopsisLoop crypto [] db.headBlockNum db.headBlockNum
        ((db.headBlockNum + numberOfBlocksAfterReferencePoint) % 2 ^ 32) (2 ^ 32 + 1) 1
  else match db.forkOf referencePoint with
    | .ok (forkHistory, nonForkHigh) =>
      let high := (nonForkHigh + forkHistory.length) % 2 ^ 32
      db.synopsisLoop crypto forkHistory nonForkHigh high
        ((high + numberOfBlocksAfterReferencePoint) % 2 ^ 32) (2 ^ 32 + 1) 1
    -- a reference point that was never seen has no synopsis
    | .error .keyNotFound => return []
    | .error e => throw e

end Database

end LarkX
