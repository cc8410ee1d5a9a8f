import LarkX.Chain.Block

/-!
# The chain database

`chain_database_impl`: every block that was ever received is kept in a tree with flags
(`forkDb`), the ledger holds the state at the head of one path of that tree, and for every
block of that path an undo state leads back to its parent. `pushBlock` stores a block, then
extends the chain or switches to the longer fork.

A procedure of the database is an `Action`: it may throw, and what it had written by then
stays written. Two loops of the source are bounded here by the number of stored blocks; a run
that would need more never ends in the source, and ends with `Error.hang` here, which no
handler catches.
-/

namespace LarkX

/-! ### The state -/

/-- `block_fork_data`. -/
structure BlockForkData where
  nextBlocks : KeySet BlockId := ∅
  isLinked : Bool := false
  isValid : Option Bool := none
  invalidReason : Option Error := none
  isIncluded : Bool := false
  isKnown : Bool := false

namespace BlockForkData

/-- `invalid()`. -/
def invalid (r : BlockForkData) : Bool :=
  r.isValid == some false

/-- `can_link()`. -/
def canLink (r : BlockForkData) : Bool :=
  r.isLinked && !r.invalid

end BlockForkData

/-- `chain_database_impl`. -/
structure Database where
  ledger : Ledger := {}
  forkDb : Table BlockId BlockForkData := ∅
  blockIdToBlockDataDb : Table BlockId FullBlock := ∅
  blockIdToBlockRecordDb : Table BlockId SignedBlockHeader := ∅
  blockNumToIdDb : Table ℕ BlockId := ∅
  undoStateDb : Table BlockId Overlay := ∅
  headBlockId : BlockId := 0
  headBlockHeader : SignedBlockHeader := {}
  skipSignatureVerification : Bool := true

/-- A procedure of the database. -/
abbrev Action (α : Type) := EStateM Error Database α

namespace Database

/-- `get_head_block_num()`. -/
def headBlockNum (db : Database) : ℕ :=
  db.headBlockHeader.blockNum

/-- `now()`: the time of the head or, at genesis, of the slot before the current one, in 32
bits. -/
def now (db : Database) (wall : ℕ) : ℕ :=
  if db.headBlockNum = 0 then
    (wall / btsBlockchainBlockIntervalSec + (2 ^ 32 - 1)) % 2 ^ 32 *
      btsBlockchainBlockIntervalSec % 2 ^ 32
  else db.headBlockHeader.timestamp

/-- `is_included_block( id )`. -/
def isIncludedBlock (db : Database) (id : BlockId) : Bool :=
  match db.forkDb[id]? with
  | some r => r.isIncluded
  | none => false

/-- The database as a chain state. -/
def chain (db : Database) (wall : ℕ) : ChainInterface :=
  { db := db.ledger, now := db.now wall, headBlockNum := db.headBlockNum }

end Database

namespace Action

/-- A fallible computation that does not touch the database. -/
def lift {α : Type} (x : Fallible α) : Action α :=
  match x with
  | .ok a => pure a
  | .error e => throw e

/-! ### The tree of blocks -/

/-- `_fork_db.fetch( id )`. -/
def fetchFork (id : BlockId) : Action BlockForkData := do
  lift (orThrow (← get).forkDb[id]? .keyNotFound)

/-- `_fork_db.store( id, data )`. -/
def storeFork (id : BlockId) (r : BlockForkData) : Action Unit :=
  modify fun db => { db with forkDb := db.forkDb.insert id r }

/-- `_block_id_to_block_record_db.fetch( id )`. -/
def fetchBlockRecord (id : BlockId) : Action SignedBlockHeader := do
  lift (orThrow (← get).blockIdToBlockRecordDb[id]? .keyNotFound)

/-- `get_block_header( id )`. -/
def getBlockHeader (id : BlockId) : Action SignedBlockHeader := do
  lift (orThrow (← get).blockIdToBlockRecordDb[id]? (.unknownBlock id))

/-- `get_block( id )`. -/
def getBlock (id : BlockId) : Action FullBlock := do
  lift (orThrow (← get).blockIdToBlockDataDb[id]? .keyNotFound)

/-- The best block a marking has met: its id, its fork data and its number. -/
structure LongestFork where
  lastBlockId : BlockId := 0
  longestFork : BlockForkData := {}
  highestBlockNum : ℕ := 0

/-- One block of `recursive_mark_as_linked`: it is marked, and its children are to be marked
next. -/
def markLinked (state : KeySet BlockId × LongestFork) (id : BlockId) :
    Action (KeySet BlockId × LongestFork) := do
  let record ← fetchFork id
  let record := { record with isLinked := true }
  storeFork id record
  let blockRecord ← fetchBlockRecord id
  return (record.nextBlocks.foldl (fun pending next _ => pending.insert next ()) state.1,
    if state.2.highestBlockNum < blockRecord.blockNum then ⟨id, record, blockRecord.blockNum⟩
    else state.2)

/-- `recursive_mark_as_linked`, level by level. The order within a level, which only breaks
ties between blocks of one number, is that of the ids. -/
def recursiveMarkAsLinked : ℕ → KeySet BlockId → LongestFork → Action LongestFork
  | 0, _, _ => throw .hang
  | levels + 1, nextIds, longest =>
    if nextIds.isEmpty then return longest
    else do
      let (pending, longest) ← (nextIds.toList.map Prod.fst).foldlM markLinked (∅, longest)
      recursiveMarkAsLinked levels pending longest

/-- One block of `recursive_mark_as_invalid`. -/
def markOneInvalid (reason : Error) (pending : KeySet BlockId) (id : BlockId) :
    Action (KeySet BlockId) := do
  let record ← fetchFork id
  storeFork id { record with isValid := some false, invalidReason := some reason }
  return record.nextBlocks.foldl (fun pending next _ => pending.insert next ()) pending

/-- `recursive_mark_as_invalid`. -/
def recursiveMarkAsInvalid (reason : Error) : ℕ → KeySet BlockId → Action Unit
  | 0, _ => throw .hang
  | levels + 1, nextIds =>
    if nextIds.isEmpty then return ()
    else do
      let pending ← (nextIds.toList.map Prod.fst).foldlM (markOneInvalid reason) ∅
      recursiveMarkAsInvalid reason levels pending

/-- More levels than the tree can have. -/
def maxLevels : Action ℕ := do
  return (← get).forkDb.size + 1

/-- The start of `store_and_index`: the block is stored, and its header once. -/
def storeBlock (wall : ℕ) (blockId : BlockId) (b : FullBlock) : Action Unit := do
  modify fun db => { db with blockIdToBlockDataDb := db.blockIdToBlockDataDb.insert blockId b }
  let db ← get
  if db.blockIdToBlockRecordDb[blockId]?.isNone then do
    let _ ← lift (db.chain wall).getCurrentRandomSeed
    modify fun db => { db with
      blockIdToBlockRecordDb := db.blockIdToBlockRecordDb.insert blockId b.toSignedBlockHeader }

/-- The fork data of the parent of a new block. -/
def prevForkData (db : Database) (blockId : BlockId) (b : FullBlock) : BlockForkData :=
  match db.forkDb[b.previous]? with
  | some prev => { prev with nextBlocks := prev.nextBlocks.insert blockId () }
  -- an unknown parent gets a placeholder, not linked unless it is the genesis state
  | none => { nextBlocks := (∅ : KeySet BlockId).insert blockId (), isLinked := b.previous == 0 }

/-- The end of `store_and_index`: the fork data of the block. When it links blocks that came
before it, they are marked, and the best of them is returned. -/
def indexBlock (blockId : BlockId) (prevForkData : BlockForkData) :
    Action (BlockId × BlockForkData) := do
  match (← get).forkDb[blockId]? with
  | some currentFork =>
    if !currentFork.isLinked && prevForkData.isLinked then do
      let longest ← recursiveMarkAsLinked (← maxLevels) currentFork.nextBlocks {}
      storeFork blockId { currentFork with isLinked := true }
      return (longest.lastBlockId, longest.longestFork)
    else do
      storeFork blockId currentFork
      return (blockId, currentFork)
  | none => do
    let currentFork : BlockForkData := { isKnown := true, isLinked := prevForkData.isLinked }
    storeFork blockId currentFork
    return (blockId, currentFork)

/-- `store_and_index`. -/
def storeAndIndex (wall : ℕ) (blockId : BlockId) (b : FullBlock) :
    Action (BlockId × BlockForkData) := do
  storeBlock wall blockId b
  let prev := prevForkData (← get) blockId b
  storeFork b.previous prev
  indexBlock blockId prev

/-- `mark_invalid`. -/
def markInvalid (blockId : BlockId) (reason : Error) : Action Unit := do
  let forkData ← fetchFork blockId
  storeFork blockId { forkData with isValid := some false, invalidReason := some reason }
  recursiveMarkAsInvalid reason (← maxLevels) forkData.nextBlocks

/-- `mark_included`. -/
def markIncluded (blockId : BlockId) (included : Bool) : Action Unit := do
  let forkData ← fetchFork blockId
  storeFork blockId { forkData with
    isIncluded := included
    isValid := if included then some true else forkData.isValid }

/-- The loop of `get_fork_history`: the ancestors of a block up to the first one that is
included. -/
def forkAncestors : ℕ → BlockId → Action (List BlockId)
  | 0, _ => throw .hang
  | steps + 1, nextId => do
    let header ← getBlockHeader nextId
    if header.previous = 0 then return [0]
    else do
      let prevForkData ← fetchFork header.previous
      lift (require (prevForkData.isLinked = true)
        (.assertion "we hit a dead end, this fork isn't really linked!"))
      if prevForkData.isIncluded then return [header.previous]
      else do
        let rest ← forkAncestors steps header.previous
        return header.previous :: rest

/-- `get_fork_history`. -/
def getForkHistory (id : BlockId) : Action (List BlockId) := do
  let ancestors ← forkAncestors (← maxLevels) id
  return id :: ancestors

/-! ### Extending and popping the chain -/

variable (crypto : Crypto)

/-- `apply_changes()` of a pending state to the database. When it throws, what was written
before stays. -/
def applyToLedger (wall : ℕ) (o : Overlay) : Action Unit := do
  let db ← get
  match ChainInterface.applyOverlay crypto o (db.chain wall) with
  | .ok c => set { db with ledger := c.db }
  | .error e => do
    set { db with ledger := (ChainInterface.applyOverlayThrown crypto o (db.chain wall)).db }
    throw e

/-- `save_undo_state`: the undo state of the block is stored, and the one that leaves the
window is removed. The difference of the numbers is taken in 32 unsigned bits and compared as
a signed value. -/
def saveUndoState (wall : ℕ) (blockId : BlockId) (o : Overlay) : Action Unit := do
  let db ← get
  let undoState ← lift ((db.chain wall).getUndoState crypto o)
  modify fun db => { db with undoStateDb := db.undoStateDb.insert blockId undoState }
  let age := (db.headBlockNum + 2 ^ 32 - btsBlockchainMaxUndoHistory) % 2 ^ 32
  if 0 < age ∧ age < 2 ^ 31 then do
    let oldId ← lift (orThrow db.blockNumToIdDb[age]? .keyNotFound)
    modify fun db => { db with undoStateDb := db.undoStateDb.erase oldId }

/-- The body of the `try` of `extend_chain`. -/
def applyBlock (wall : ℕ) (blockId : BlockId) (b : FullBlock) : Action Unit := do
  let db ← get
  let c ← lift (ChainInterface.evaluateBlock crypto (db.chain wall) db.headBlockHeader
    db.headBlockId db.skipSignatureVerification wall b)
  let changes := c.overlays.headD {}
  saveUndoState crypto wall blockId changes
  applyToLedger crypto wall changes
  markIncluded blockId true
  modify fun db => { db with
    headBlockHeader := b.toSignedBlockHeader
    headBlockId := blockId
    blockNumToIdDb := db.blockNumToIdDb.insert b.blockNum blockId }

/-- The end of `extend_chain`: digests that expired before the new head are forgotten. -/
def purgeExpired (wall : ℕ) : Action Unit :=
  modify fun db => { db with ledger := { db.ledger with
    uniqueTransactions := db.ledger.uniqueTransactions.filter fun exp _ => db.now wall ≤ exp } }

/-- `extend_chain`. -/
def extendChain (wall : ℕ) (b : FullBlock) : Action Unit := do
  let blockId := crypto.blockId b.toSignedBlockHeader
  try applyBlock crypto wall blockId b
  catch e => do
    markInvalid blockId e
    throw e
  purgeExpired wall

/-- `pop_block`. -/
def popBlock (wall : ℕ) : Action Unit := do
  let db ← get
  if db.headBlockNum = 0 then return ()
  else do
    markIncluded db.headBlockId false
    modify fun db => { db with blockNumToIdDb := db.blockNumToIdDb.erase db.headBlockNum }
    let undoState ← lift (orThrow db.undoStateDb[db.headBlockId]? .keyNotFound)
    applyToLedger crypto wall undoState
    modify fun db => { db with headBlockId := db.headBlockHeader.previous }
    let header ← getBlockHeader db.headBlockHeader.previous
    modify fun db => { db with headBlockHeader := header }

/-! ### Forks -/

/-- The first loop of `switch_to_fork`: pop blocks until the head is `target`. -/
def popUntil (wall : ℕ) (target : BlockId) : ℕ → Action Unit
  | 0 => throw .hang
  | steps + 1 => do
    if (← get).headBlockId = target then return ()
    else do
      popBlock crypto wall
      popUntil wall target steps

/-- The second loop of `switch_to_fork`: extend the chain by stored blocks. -/
def extendBy (wall : ℕ) (ids : List BlockId) : Action Unit :=
  ids.forM fun id => do
    let b ← getBlock id
    extendChain crypto wall b

/-- `switch_to_fork`. -/
def switchToFork (wall : ℕ) (blockId : BlockId) : Action Unit := do
  let history ← getForkHistory blockId
  popUntil crypto wall (history.getLastD 0) (← maxLevels)
  extendBy crypto wall history.dropLast.reverse

/-- `get_block_fork_data( id )`, asserted to exist. -/
def getBlockForkData (blockId : BlockId) : Action BlockForkData := do
  lift (orThrow (← get).forkDb[blockId]?
    (.assertion "can't get fork data for a block we just successfully pushed"))

/-- The switch of `push_block` to a longer fork, which is reverted when it fails. -/
def switchOrRevert (wall : ℕ) (longestId currentHeadId blockId : BlockId)
    (newForkData : BlockForkData) : Action BlockForkData :=
  tryCatch (do
    switchToFork crypto wall longestId
    getBlockForkData blockId) fun e =>
    if e = .hang then throw e
    else do
      switchToFork crypto wall currentHeadId
      return newForkData

/-- `push_block`. -/
def pushBlock (wall : ℕ) (b : FullBlock) : Action BlockForkData := do
  let db ← get
  lift (require (¬(btsBlockchainMaxUndoHistory < db.headBlockNum ∧
    b.blockNum ≤ db.headBlockNum - btsBlockchainMaxUndoHistory)) .blockOlderThanUndoHistory)
  let blockId := crypto.blockId b.toSignedBlockHeader
  let currentHeadId := db.headBlockId
  let (longestId, longestFork) ← storeAndIndex wall blockId b
  let newForkData ← getBlockForkData blockId
  if b.previous = currentHeadId then do
    extendChain crypto wall b
    getBlockForkData blockId
  else if longestFork.canLink then do
    let longest ← fetchBlockRecord longestId
    if (← get).headBlockNum < longest.blockNum then
      switchOrRevert crypto wall longestId currentHeadId blockId newForkData
    else return newForkData
  else return newForkData

end Action

end LarkX
