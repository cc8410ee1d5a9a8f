import LarkX.Client.Delegate

/-!
# The peer-to-peer node

`node_impl`: the connections of a node, what it has asked each peer for, and the blocks on their
way to the client. A handler is a `NodeAction`: it may throw, and what it had written by then
stays written. The handlers are followed up to the calls of `handle_message`, in which the
client's thread pushes a block while the node goes on; `beginCall`, `clientHandles` and the two
completions are the parts of such a call.

Timers, sockets and the address book are not here: which peers time out and which items are
fetched in normal operation is a choice of the run (`NodeEvent`).
-/

namespace LarkX

open Std (TransOrd LawfulEqOrd TransCmp)

/-! ### Items and peers -/

abbrev PeerId := ℕ
abbrev MessageHash := ℕ

/-- `trx_message_type`. -/
def trxMessageType : ℕ := 1000

/-- `BTS_NET_DEFAULT_MAX_CONNECTIONS`, which is also the capacity of
`_most_recent_blocks_accepted`. -/
def btsNetDefaultMaxConnections : ℕ := 200
/-- `BTS_NET_MAX_BLOCKS_PER_PEER_DURING_SYNCING`. -/
def btsNetMaxBlocksPerPeerDuringSyncing : ℕ := 100
/-- `MAXIMUM_NUMBER_OF_BLOCKS_TO_HANDLE_AT_ONE_TIME`. -/
def maximumNumberOfBlocksToHandleAtOneTime : ℕ := 200
/-- `MAXIMUM_NUMBER_OF_BLOCKS_TO_PREFETCH`. -/
def maximumNumberOfBlocksToPrefetch : ℕ := 10 * maximumNumberOfBlocksToHandleAtOneTime
/-- `BTS_NET_FUTURE_SYNC_BLOCKS_GRACE_PERIOD_SEC`. -/
def btsNetFutureSyncBlocksGracePeriodSec : ℕ := 60 * 60

/-- `item_id`. -/
structure ItemId where
  itemType : ℕ
  itemHash : ℕ
  deriving DecidableEq, Repr

instance : Ord ItemId :=
  ⟨compareLex (compareOn ItemId.itemType) (compareOn ItemId.itemHash)⟩

instance : TransOrd ItemId :=
  inferInstanceAs (TransCmp (compareLex (compareOn ItemId.itemType) (compareOn ItemId.itemHash)))

instance : LawfulEqOrd ItemId :=
  Table.lawfulEqCmp_compareLex fun _ _ ht hh => ItemId.mk.injEq .. ▸ ⟨ht, hh⟩

/-- The list of the node a connection is on. A connection whose end has been handled is on
none. -/
inductive ConnectionList
  | handshaking
  | active
  | closing
  | terminating
  | none
  deriving DecidableEq, Repr

/-- `peer_connection`: the connection and the state of the synchronization with the peer. -/
structure Peer where
  connection : ConnectionList := .handshaking
  /-- `on_connection_closed` has been called. -/
  closed : Bool := false
  inbound : Bool := false
  theyHaveRequestedClose : Bool := false
  weHaveRequestedClose : Bool := false
  idsOfItemsToGet : List BlockId := []
  idsOfItemsBeingProcessed : KeySet BlockId := ∅
  numberOfUnfetchedItemIds : ℕ := 0
  peerNeedsSyncItemsFromUs : Bool := true
  weNeedSyncItemsFromPeer : Bool := true
  itemIdsRequestedFromPeer : Option BlockId := none
  syncItemsRequestedFromPeer : KeySet ItemId := ∅
  lastBlockNumberDelegateHasSeen : ℕ := 0
  lastBlockDelegateHasSeen : BlockId := 0
  lastBlockTimeDelegateHasSeen : ℕ := 0
  inhibitFetchingSyncBlocks : Bool := false
  inventoryPeerAdvertisedToUs : KeySet ItemId := ∅
  itemsRequestedFromPeer : KeySet ItemId := ∅

namespace Peer

/-- The peer is in `_active_connections`. -/
def isActive (r : Peer) : Bool :=
  r.connection == .active

/-- `idle()`. -/
def idle (r : Peer) : Bool :=
  r.itemsRequestedFromPeer.isEmpty && r.syncItemsRequestedFromPeer.isEmpty &&
    r.itemIdsRequestedFromPeer.isNone

end Peer

/-- A call of `handle_message` for a block, from its start until the node goes on. -/
structure HandleCall where
  syncMode : Bool
  message : BlockMessage
  messageHash : MessageHash
  /-- What the client has answered. -/
  result : Option (Except Error Unit) := none

/-- `node_impl`, with the chain database of its client. -/
structure Node where
  chainDb : Database
  simulateDisconnect : Bool := false
  peers : Table PeerId Peer := ∅
  activeSyncRequests : KeySet BlockId := ∅
  newReceivedSyncItems : List BlockMessage := []
  receivedSyncItems : List BlockMessage := []
  suspendFetchingSyncBlocks : Bool := false
  handleMessageCalls : List HandleCall := []
  mostRecentBlocksAccepted : List BlockId := []
  messageCache : Table MessageHash BlockMessage := ∅

/-- A handler of the node. -/
abbrev NodeAction (α : Type) := EStateM Error Node α

namespace Node

/-- `has_item( id )` of the delegate. -/
def hasItem (n : Node) (id : ItemId) : Bool :=
  if id.itemType = blockMessageType then n.chainDb.isKnownBlock id.itemHash
  else if id.itemType = trxMessageType then
    n.chainDb.ledger.transactions[id.itemHash]?.isSome
  else false

/-- `have_already_received_sync_item( item_hash )`. -/
def haveAlreadyReceivedSyncItem (n : Node) (itemHash : BlockId) : Bool :=
  n.receivedSyncItems.any (fun m => m.blockId == itemHash) ||
    n.newReceivedSyncItems.any fun m => m.blockId == itemHash

/-- `_most_recent_blocks_accepted.push_back( id )`, on a circular buffer. -/
def pushAccepted (accepted : List BlockId) (id : BlockId) : List BlockId :=
  (accepted ++ [id]).drop (accepted.length + 1 - btsNetDefaultMaxConnections)

/-- The active peers with a property, in the order of the table. -/
def activePeers (n : Node) (p : Peer → Bool) : List PeerId :=
  (n.peers.toList.filter fun e => e.2.isActive && p e.2).map Prod.fst

end Node

namespace NodeAction

open Node

/-- A fallible computation that does not touch the node. -/
def lift {α : Type} (x : Fallible α) : NodeAction α :=
  match x with
  | .ok a => pure a
  | .error e => throw e

/-- The state of a peer. -/
def getPeer (p : PeerId) : NodeAction Peer := do
  lift (orThrow (← get).peers[p]? .keyNotFound)

/-- A change of one peer. -/
def modifyPeer (p : PeerId) (f : Peer → Peer) : NodeAction Unit :=
  modify fun n => { n with peers := n.peers.modify p f }

/-- A change of every active peer. -/
def forActive (f : Peer → Peer) : NodeAction Unit :=
  modify fun n => { n with peers := n.peers.map fun _ r => if r.isActive then f r else r }

/-! ### Connections -/

/-- `disconnect_from_peer`. -/
def disconnectFromPeer (p : PeerId) : NodeAction Unit :=
  modifyPeer p fun r => { r with
    connection := .closing
    weHaveRequestedClose := r.weHaveRequestedClose || !r.theyHaveRequestedClose }

/-- `on_closing_connection_message`. -/
def onClosingConnectionMessage (p : PeerId) : NodeAction Unit :=
  modifyPeer p fun r => { r with theyHaveRequestedClose := true }

/-- The active requests without those to one peer. -/
def withoutRequests (r : Peer) (requests : KeySet BlockId) : KeySet BlockId :=
  r.syncItemsRequestedFromPeer.foldl (fun requests item _ => requests.erase item.itemHash) requests

/-- `on_connection_closed`: the sync requests to the peer are no longer active. -/
def onConnectionClosed (p : PeerId) : NodeAction Unit := do
  let r ← getPeer p
  modifyPeer p fun r => { r with connection := .none, closed := true }
  modify fun n => { n with activeSyncRequests := withoutRequests r n.activeSyncRequests }

/-- The end of `terminate_inactive_connections_loop`. -/
def terminateInactiveConnections (gently forcibly : List PeerId) : NodeAction Unit := do
  gently.forM disconnectFromPeer
  forcibly.forM fun p => modifyPeer p fun r => { r with connection := .terminating }

/-! ### Asking for block ids -/

variable (crypto : Crypto)

/-- The loop of `create_blockchain_synopsis_for_peer`: the entries above the reference point,
which the client does not know. -/
def missingEntries (idsOfItemsToGet : List BlockId) (referencePointBlockNum trueHigh : ℕ) :
    ℕ → ℕ → Fallible (List BlockId)
  | 0, _ => throw .hang
  | steps + 1, low => do
    let entry ← if referencePointBlockNum < low then
        (fun id => [id]) <$>
          orThrow idsOfItemsToGet[low - referencePointBlockNum - 1]? .outOfBounds
      else pure []
    if Database.nextLow trueHigh low ≤ trueHigh then do
      let rest ← missingEntries idsOfItemsToGet referencePointBlockNum trueHigh steps
        (Database.nextLow trueHigh low)
      return entry ++ rest
    else return entry

/-- `create_blockchain_synopsis_for_peer`. -/
def createBlockchainSynopsisForPeer (db : Database) (peer : Peer) : Fallible (List BlockId) := do
  let after := peer.idsOfItemsToGet.length
  let synopsis ← db.getBlockchainSynopsis crypto blockMessageType peer.lastBlockDelegateHasSeen
    after
  if after = 0 then return synopsis
  else do
    let missing ← missingEntries peer.idsOfItemsToGet peer.lastBlockNumberDelegateHasSeen
      ((peer.lastBlockNumberDelegateHasSeen + after) % 2 ^ 32) (2 ^ 32 + 1) 1
    return synopsis ++ missing

/-- `fetch_next_batch_of_item_ids_from_peer`. -/
def fetchNextBatchOfItemIdsFromPeer (p : PeerId) : NodeAction Unit := do
  let peer ← getPeer p
  let synopsis ← lift (createBlockchainSynopsisForPeer crypto (← get).chainDb peer)
  modifyPeer p fun r => { r with itemIdsRequestedFromPeer := some (synopsis.getLastD 0) }

/-- The fields `start_synchronizing_with_peer` resets. -/
def resetPosition (genesisTime : ℕ) (r : Peer) : Peer :=
  { r with
    idsOfItemsToGet := []
    numberOfUnfetchedItemIds := 0
    weNeedSyncItemsFromPeer := true
    lastBlockDelegateHasSeen := 0
    lastBlockNumberDelegateHasSeen := 0
    lastBlockTimeDelegateHasSeen := genesisTime
    inhibitFetchingSyncBlocks := false }

/-- `start_synchronizing_with_peer`. -/
def startSynchronizingWithPeer (p : PeerId) : NodeAction Unit := do
  let n ← get
  modifyPeer p (resetPosition (n.chainDb.getBlockTime 0))
  fetchNextBatchOfItemIdsFromPeer crypto p

/-- `start_synchronizing`. -/
def startSynchronizing : NodeAction Unit := do
  ((← get).activePeers fun _ => true).forM (startSynchronizingWithPeer crypto)

/-- A peer becomes active: `move_peer_to_active_list` and `new_peer_just_added`. -/
def activatePeer (p : PeerId) : NodeAction Unit := do
  modifyPeer p fun r => { r with connection := .active }
  startSynchronizingWithPeer crypto p

/-! ### Answering requests -/

/-- The synchronization with a peer starts again when the node has no need of its blocks but
does not have the last one it has named. -/
def restartIfBehind (p : PeerId) (r : Peer) (itemType : ℕ) (synopsis : List BlockId) :
    NodeAction Unit := do
  if !r.weNeedSyncItemsFromPeer && !synopsis.isEmpty &&
      !(← get).hasItem ⟨itemType, synopsis.getLastD 0⟩ then
    startSynchronizingWithPeer crypto p

/-- What follows the reply to a request for item ids. -/
def afterReply (p : PeerId) (r : Peer) (hasAllOurs : Bool) : NodeAction Unit := do
  if hasAllOurs && r.inhibitFetchingSyncBlocks then disconnectFromPeer p
  else if r.inbound && r.connection == .handshaking then activatePeer crypto p

/-- `on_fetch_blockchain_item_ids_message`. -/
def onFetchBlockchainItemIdsMessage (p : PeerId) (itemType : ℕ) (synopsis : List BlockId) :
    NodeAction Unit := do
  let (hashes, _) ← lift ((← get).chainDb.getItemIds itemType synopsis 2000)
  let r ← getPeer p
  -- the last entry the peer has named is the last of the chain
  let hasAllOurs := !synopsis.isEmpty && hashes.length == 1 &&
    hashes.getLast? == synopsis.getLast?
  modifyPeer p fun r => { r with
    peerNeedsSyncItemsFromUs := !hashes.isEmpty && !hasAllOurs }
  restartIfBehind crypto p r itemType synopsis
  afterReply crypto p r hasAllOurs

/-- The message a requested block is answered with: from the cache, or from the chain
database. -/
def requestedBlock (n : Node) (itemHash : ℕ) : Fallible (Option BlockMessage) :=
  match n.messageCache[itemHash]? with
  | some m => return some m
  | none =>
    match n.chainDb.blockIdToBlockDataDb[itemHash]? with
    | some b => do
      require (itemHash = crypto.blockId b.toSignedBlockHeader)
        (.assertion "id.item_hash == block_message_to_send.block_id")
      return some (.ofBlock crypto b)
    | none => return none

/-- `on_fetch_items_message`: the last block that was sent is the last the peer has seen. -/
def onFetchItemsMessage (p : PeerId) (itemType : ℕ) (items : List ℕ) : NodeAction Unit := do
  if itemType = blockMessageType then do
    let n ← get
    let sent ← lift (items.mapM (requestedBlock crypto n))
    if let some m := (sent.filterMap id).getLast? then do
      modifyPeer p fun r => { r with lastBlockDelegateHasSeen := m.blockId }
      let blockNum ← lift (n.chainDb.getBlockNum m.blockId)
      modifyPeer p fun r => { r with
        lastBlockNumberDelegateHasSeen := blockNum
        lastBlockTimeDelegateHasSeen := n.chainDb.getBlockTime m.blockId }

/-! ### The ids a peer has -/

/-- The loop that pops items the client has already seen off a list of ids. -/
def popSeen (n : Node) (itemType : ℕ) (r : Peer) : List BlockId → Peer
  | [] => r
  | id :: ids =>
    if n.hasItem ⟨itemType, id⟩ then
      popSeen n itemType { r with
        lastBlockDelegateHasSeen := id
        lastBlockNumberDelegateHasSeen := (r.lastBlockNumberDelegateHasSeen + 1) % 2 ^ 32
        lastBlockTimeDelegateHasSeen := n.chainDb.getBlockTime id } ids
    else r

/-- Items are popped off the back of the list until it ends with `front`. -/
def keepThrough (front : BlockId) (ids : List BlockId) : List BlockId :=
  (ids.reverse.dropWhile fun id => id != front).reverse

/-- The list is new: items the client has seen are flushed, unless another peer is about to
send them. -/
def flushSeen (p : PeerId) (itemType : ℕ) (ids : List BlockId) : NodeAction (List BlockId) := do
  let n ← get
  if (n.activePeers fun other => other.idsOfItemsToGet.head? == ids.head?).any (· != p) then
    return ids
  else do
    modifyPeer p fun r => popSeen n itemType r ids
    return ids.dropWhile fun id => n.hasItem ⟨itemType, id⟩

/-- The list has nothing in common with the one before: the peer has switched to a fork, which
starts at a block the client should have. -/
def followFork (p : PeerId) (front : BlockId) : NodeAction Unit := do
  let n ← get
  modifyPeer p fun r => { r with idsOfItemsToGet := [], lastBlockDelegateHasSeen := front }
  let blockNum ← lift (n.chainDb.getBlockNum front)
  modifyPeer p fun r => { r with
    lastBlockNumberDelegateHasSeen := blockNum
    lastBlockTimeDelegateHasSeen := n.chainDb.getBlockTime front }

/-- The part of `on_blockchain_item_ids_inventory_message` that finds where the list a peer has
sent continues the one it has sent before. The ids that are left are to be appended. -/
def alignItems (p : PeerId) (itemType : ℕ) : List BlockId → NodeAction (List BlockId)
  | [] => return []
  | front :: rest => do
    let r ← getPeer p
    if r.idsOfItemsToGet = [] then flushSeen p itemType (front :: rest)
    else if keepThrough front r.idsOfItemsToGet = [] then do
      followFork p front
      return rest
    else do
      modifyPeer p fun r => { r with
        idsOfItemsToGet := (keepThrough front r.idsOfItemsToGet).dropLast }
      return front :: rest

/-- The last block a peer offers would be in the future. -/
def offersTooMany (wall : ℕ) (r : Peer) : Bool :=
  wall + btsNetFutureSyncBlocksGracePeriodSec < (r.lastBlockTimeDelegateHasSeen +
    r.numberOfUnfetchedItemIds * btsBlockchainBlockIntervalSec) % 2 ^ 32

/-- `on_blockchain_item_ids_inventory_message`. -/
def onBlockchainItemIdsInventoryMessage (wall : ℕ) (p : PeerId) (itemType remaining : ℕ)
    (ids : List BlockId) : NodeAction Unit := do
  let r ← getPeer p
  -- ignored unless it was asked for
  if r.itemIdsRequestedFromPeer.isSome then do
    modifyPeer p fun r => { r with itemIdsRequestedFromPeer := none }
    let n ← get
    let upToDate := remaining == 0 &&
      (ids.isEmpty || (ids.length == 1 && n.hasItem ⟨itemType, ids.headD 0⟩)) &&
      r.idsOfItemsToGet.isEmpty && r.numberOfUnfetchedItemIds == 0
    if upToDate then
      modifyPeer p fun r => { r with weNeedSyncItemsFromPeer := false }
    else do
      modifyPeer p fun r => { r with numberOfUnfetchedItemIds := remaining }
      let rest ← alignItems p itemType ids
      modifyPeer p fun r => { r with
        idsOfItemsToGet := r.idsOfItemsToGet ++ rest
        numberOfUnfetchedItemIds := remaining }
      let r ← getPeer p
      if offersTooMany wall r then disconnectFromPeer p
      else if remaining ≠ 0 ∨ r.idsOfItemsToGet = [] then
        fetchNextBatchOfItemIdsFromPeer crypto p

/-! ### Asking for blocks -/

/-- The inner loop of `fetch_sync_items_loop`: ids that need not be asked for are skipped, up to
a number of them is chosen. -/
def chooseItems (skip : BlockId → Bool) (chosen : List BlockId) : List BlockId → List BlockId
  | [] => chosen
  | id :: ids =>
    if skip id || chosen.contains id then chooseItems skip chosen ids
    else if btsNetMaxBlocksPerPeerDuringSyncing ≤ chosen.length + 1 then chosen ++ [id]
    else chooseItems skip (chosen ++ [id]) ids

/-- The requests one iteration of `fetch_sync_items_loop` schedules for a list of peers, when
some items are scheduled already. -/
def scheduleRequests (n : Node) : List (PeerId × Peer) → List BlockId →
    List (PeerId × List BlockId)
  | [], _ => []
  | (p, r) :: peers, scheduled =>
    if r.weNeedSyncItemsFromPeer && r.idle && !r.inhibitFetchingSyncBlocks then
      let items := chooseItems (fun id => n.haveAlreadyReceivedSyncItem id ||
        scheduled.contains id || n.activeSyncRequests.contains id) [] r.idsOfItemsToGet
      (p, items) :: scheduleRequests n peers (scheduled ++ items)
    else scheduleRequests n peers scheduled

/-- A block that is requested: by the node, and from a peer. -/
def requestItem (p : PeerId) (id : BlockId) (n : Node) : Node :=
  { n with
    activeSyncRequests := n.activeSyncRequests.insert id ()
    peers := n.peers.modify p fun r => { r with
      syncItemsRequestedFromPeer :=
        r.syncItemsRequestedFromPeer.insert ⟨blockMessageType, id⟩ () } }

/-- `request_sync_items_from_peer`. -/
def requestSyncItemsFromPeer (p : PeerId) (items : List BlockId) : NodeAction Unit :=
  modify fun n => items.foldl (fun n id => requestItem p id n) n

/-- One iteration of `fetch_sync_items_loop`. -/
def fetchSyncItems : NodeAction Unit := do
  let n ← get
  if !n.suspendFetchingSyncBlocks then
    (scheduleRequests n (n.peers.toList.filter fun e => e.2.isActive) []).forM fun request =>
      requestSyncItemsFromPeer request.1 request.2

/-- `on_item_not_available_message`. -/
def onItemNotAvailableMessage (p : PeerId) (requestedItem : ItemId) : NodeAction Unit := do
  let r ← getPeer p
  if r.itemsRequestedFromPeer.contains requestedItem then
    modifyPeer p fun r => { r with
      itemsRequestedFromPeer := r.itemsRequestedFromPeer.erase requestedItem
      inventoryPeerAdvertisedToUs := r.inventoryPeerAdvertisedToUs.erase requestedItem }
  else if r.syncItemsRequestedFromPeer.contains requestedItem then do
    modifyPeer p fun r => { r with
      syncItemsRequestedFromPeer := r.syncItemsRequestedFromPeer.erase requestedItem }
    if r.peerNeedsSyncItemsFromUs then
      modifyPeer p fun r => { r with inhibitFetchingSyncBlocks := true }
    else disconnectFromPeer p

/-! ### Blocks -/

/-- `broadcast`, for a block. -/
def broadcast (m : BlockMessage) (messageHash : MessageHash) : NodeAction Unit :=
  modify fun n => { n with
    mostRecentBlocksAccepted := pushAccepted n.mostRecentBlocksAccepted m.blockId
    messageCache := n.messageCache.insert messageHash m }

/-- A call of `handle_message` is started. -/
def beginCall (syncMode : Bool) (m : BlockMessage) (messageHash : MessageHash) :
    NodeAction Unit :=
  modify fun n => { n with
    handleMessageCalls := n.handleMessageCalls ++ [{ syncMode, message := m, messageHash }] }

/-- The part of `process_block_during_normal_operation` after the block was accepted. -/
def acceptBlock (m : BlockMessage) (messageHash : MessageHash) : NodeAction Unit := do
  forActive fun r =>
    if r.inventoryPeerAdvertisedToUs.contains ⟨blockMessageType, messageHash⟩ then { r with
      lastBlockDelegateHasSeen := m.blockId
      lastBlockNumberDelegateHasSeen := m.block.blockNum
      lastBlockTimeDelegateHasSeen := m.block.timestamp }
    else r
  broadcast m messageHash

/-- The start of `process_block_during_normal_operation`: an id that was accepted before is not
passed to the client. -/
def processBlockDuringNormalOperation (m : BlockMessage) (messageHash : MessageHash) :
    NodeAction Unit := do
  if (← get).mostRecentBlocksAccepted.contains m.blockId then acceptBlock m messageHash
  else beginCall false m messageHash

/-- `process_block_message`. -/
def processBlockMessage (p : PeerId) (m : BlockMessage) (messageHash : MessageHash) :
    NodeAction Unit := do
  let r ← getPeer p
  if r.itemsRequestedFromPeer.contains ⟨blockMessageType, messageHash⟩ then do
    modifyPeer p fun r => { r with
      itemsRequestedFromPeer := r.itemsRequestedFromPeer.erase ⟨blockMessageType, messageHash⟩ }
    processBlockDuringNormalOperation m messageHash
  else if r.syncItemsRequestedFromPeer.contains ⟨blockMessageType, m.blockId⟩ then do
    modifyPeer p fun r => { r with
      syncItemsRequestedFromPeer :=
        r.syncItemsRequestedFromPeer.erase ⟨blockMessageType, m.blockId⟩ }
    modify fun n => { n with
      activeSyncRequests := n.activeSyncRequests.erase m.blockId
      newReceivedSyncItems := m :: n.newReceivedSyncItems }
  else disconnectFromPeer p

/-- The active peers that list a block next pass it to the blocks being processed. -/
def moveToProcessed (id : BlockId) (r : Peer) : Peer :=
  if r.idsOfItemsToGet.head? = some id then { r with
    idsOfItemsToGet := r.idsOfItemsToGet.tail
    idsOfItemsBeingProcessed := r.idsOfItemsBeingProcessed.insert id () }
  else r

/-- One pass over the backlog: the first received block that is the next of some active peer is
passed to the client, unless its id was accepted before. -/
def passNextBlock : NodeAction Bool := do
  modify fun n => { n with
    receivedSyncItems := n.newReceivedSyncItems.reverse ++ n.receivedSyncItems
    newReceivedSyncItems := [] }
  let n ← get
  match n.receivedSyncItems.find? fun m =>
    !(n.activePeers fun r => r.idsOfItemsToGet.head? == some m.blockId).isEmpty with
  | none => return false
  | some m => do
    forActive (moveToProcessed m.blockId)
    if n.mostRecentBlocksAccepted.contains m.blockId then return false
    else do
      modify fun n => { n with receivedSyncItems := n.receivedSyncItems.erase m }
      beginCall true m 0
      return true

/-- The number of sync blocks that are being handled. -/
def callsInProgress (n : Node) : ℕ :=
  (n.handleMessageCalls.filter HandleCall.syncMode).length

/-- The loop of `process_backlog_of_sync_blocks`: as long as blocks are passed to the client, up
to a number of calls at one time. -/
def backlogLoop : ℕ → NodeAction Unit
  | 0 => pure ()
  | steps + 1 => do
    let processed ← passNextBlock
    let n ← get
    if maximumNumberOfBlocksToHandleAtOneTime ≤ callsInProgress n then
      modify fun n => { n with suspendFetchingSyncBlocks := n.suspendFetchingSyncBlocks ||
        maximumNumberOfBlocksToPrefetch ≤ n.receivedSyncItems.length }
    else if processed then backlogLoop steps

/-- `process_backlog_of_sync_blocks`. Every iteration but the last takes one block off the
backlog. -/
def processBacklogOfSyncBlocks : NodeAction Unit := do
  let n ← get
  if callsInProgress n < maximumNumberOfBlocksToHandleAtOneTime then do
    modify fun n => { n with suspendFetchingSyncBlocks := false }
    backlogLoop (n.receivedSyncItems.length + n.newReceivedSyncItems.length + 1)

/-! ### Calls of the client -/

/-- The client handles the message of a call. -/
def clientHandles (wall : ℕ) (k : ℕ) (call : HandleCall) : NodeAction Unit :=
  modify fun n =>
    match (Action.handleMessage crypto wall n.simulateDisconnect call.message call.syncMode).run
      n.chainDb with
    | .ok _ db => { n with
      chainDb := db
      handleMessageCalls := n.handleMessageCalls.set k { call with result := some (.ok ()) } }
    | .error e db => { n with
      chainDb := db
      handleMessageCalls := n.handleMessageCalls.set k { call with result := some (.error e) } }

/-- The block of a sync message is removed from the blocks being processed of a peer. -/
def removeProcessed (m : BlockMessage) (r : Peer) : Peer :=
  if r.idsOfItemsBeingProcessed.contains m.blockId then { r with
    lastBlockDelegateHasSeen := m.blockId
    lastBlockNumberDelegateHasSeen := m.block.blockNum
    lastBlockTimeDelegateHasSeen := m.block.timestamp
    idsOfItemsBeingProcessed := r.idsOfItemsBeingProcessed.erase m.blockId }
  else r

/-- `send_sync_block_to_node_delegate` after the client has accepted the block. -/
def acceptSyncBlock (m : BlockMessage) : NodeAction Unit := do
  modify fun n => { n with
    mostRecentBlocksAccepted := pushAccepted n.mostRecentBlocksAccepted m.blockId }
  let n ← get
  let peersWithNewlyEmptyItemLists := n.activePeers fun r =>
    r.idsOfItemsBeingProcessed.contains m.blockId && r.idsOfItemsToGet.isEmpty &&
      r.numberOfUnfetchedItemIds == 0 && (removeProcessed m r).idsOfItemsBeingProcessed.isEmpty
  let peersWeNeedToSyncTo := n.activePeers fun r =>
    r.idsOfItemsToGet.isEmpty && r.idsOfItemsBeingProcessed.isEmpty &&
      !r.peerNeedsSyncItemsFromUs && !r.weNeedSyncItemsFromPeer
  forActive (removeProcessed m)
  peersWithNewlyEmptyItemLists.forM (fetchNextBatchOfItemIdsFromPeer crypto)
  peersWeNeedToSyncTo.forM (startSynchronizingWithPeer crypto)

/-- `send_sync_block_to_node_delegate` after the client has rejected the block. -/
def rejectSyncBlock (m : BlockMessage) (e : Error) : NodeAction Unit := do
  let n ← get
  if e = .blockOlderThanUndoHistory then
    forActive fun r => if r.idsOfItemsBeingProcessed.contains m.blockId
      then { r with inhibitFetchingSyncBlocks := true } else r
  else
    (n.activePeers fun r => r.idsOfItemsBeingProcessed.contains m.blockId).forM disconnectFromPeer

/-- The end of `process_block_during_normal_operation` after the client has rejected the
block. -/
def rejectBlock (m : BlockMessage) : NodeAction Unit := do
  ((← get).activePeers fun r => r.idsOfItemsToGet.head? == some m.blockId).forM
    disconnectFromPeer

/-- The node goes on after a call of `handle_message`. -/
def callReturns (k : ℕ) (call : HandleCall) (result : Except Error Unit) : NodeAction Unit := do
  modify fun n => { n with handleMessageCalls := n.handleMessageCalls.eraseIdx k }
  match call.syncMode, result with
  | true, .ok _ => acceptSyncBlock crypto call.message
  | true, .error e => rejectSyncBlock call.message e
  | false, .ok _ => do
    modify fun n => { n with
      mostRecentBlocksAccepted := pushAccepted n.mostRecentBlocksAccepted call.message.blockId }
    acceptBlock call.message call.messageHash
  | false, .error _ => rejectBlock call.message

/-- The delegate loop of the client: a block it has produced is handled like one that arrives,
and broadcast. -/
def produceBlock (wall : ℕ) (b : FullBlock) (messageHash : MessageHash) : NodeAction Unit := do
  let n ← get
  match (Action.onNewBlock crypto wall n.simulateDisconnect b
    (crypto.blockId b.toSignedBlockHeader) false).run n.chainDb with
  | .ok _ db => do
    set { n with chainDb := db }
    broadcast (.ofBlock crypto b) messageHash
  | .error e db => do
    set { n with chainDb := db }
    throw e

/-- `sync_from`, with the head of the chain. -/
def syncFrom : NodeAction Unit :=
  modify fun n => { n with mostRecentBlocksAccepted := [n.chainDb.headBlockId] }

end NodeAction

end LarkX
