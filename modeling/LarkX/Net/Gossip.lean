import LarkX.Net.Node

/-!
# Items in normal operation

What `node_impl` does with transactions and new blocks once it is in sync. A peer advertises ids
of items (`onItemIdsInventoryMessage`); those the node has not seen wait in `_items_to_fetch`,
blocks first, until an idle peer that has the item can be asked for it (`fetchItems`). An item
that is not delivered waits again (`onItemNotAvailableMessage`, `onConnectionClosed`). What the
client accepts is advertised to the peers that do not have it (`advertiseInventory`).

The handlers between which a fiber can yield are events of their own (`GossipEvent`): an item
that has arrived is in the hands of the client until it is accepted or refused. How the node
synchronizes is the subject of the other modules; here it only decides which peers are busy.
-/

namespace LarkX

/-- `BTS_NET_MAX_INVENTORY_SIZE_IN_MINUTES`. -/
def btsNetMaxInventorySizeInMinutes : ℕ := 2
/-- `BTS_BLOCKCHAIN_MAX_TRX_PER_SECOND`. -/
def btsBlockchainMaxTrxPerSecond : ℕ := 5
/-- `BTS_NET_INSUFFICIENT_RELAY_FEE_PENALTY_SEC`. -/
def btsNetInsufficientRelayFeePenaltySec : ℕ := 15

/-- The seconds of a time that is given in microseconds. -/
def secondsOf (now : ℕ) : ℕ :=
  now / 1000000

/-! ### Peers -/

/-- `peer_connection`, in normal operation. Times of inventories are in seconds, all others in
microseconds. -/
structure GossipPeer where
  connection : ConnectionList := .handshaking
  peerNeedsSyncItemsFromUs : Bool := true
  /-- Sync items or ids of items are requested from the peer. -/
  synchronizing : Bool := false
  inventoryPeerAdvertisedToUs : Table ItemId ℕ := ∅
  inventoryAdvertisedToPeer : Table ItemId ℕ := ∅
  itemsRequestedFromPeer : Table ItemId ℕ := ∅
  transactionFetchingInhibitedUntil : ℕ := 0

namespace GossipPeer

variable (r : GossipPeer)

/-- The peer is in `_active_connections`. -/
def isActive : Bool :=
  r.connection == .active

/-- The connection is on one of the lists of the node. -/
def isOpen : Bool :=
  r.connection != .none

/-- `idle()`. -/
def idle : Bool :=
  r.itemsRequestedFromPeer.isEmpty && !r.synchronizing

/-- `is_transaction_fetching_inhibited()`. -/
def isTransactionFetchingInhibited (now : ℕ) : Bool :=
  now < r.transactionFetchingInhibitedUntil

/-- The entries of an inventory that are not too old. -/
def keepRecent (now : ℕ) (inventory : Table ItemId ℕ) : Table ItemId ℕ :=
  inventory.filter fun _ timestamp =>
    secondsOf now - btsNetMaxInventorySizeInMinutes * 60 ≤ timestamp

/-- `clear_old_inventory()`. -/
def clearOldInventory (now : ℕ) : GossipPeer :=
  { r with
    inventoryAdvertisedToPeer := keepRecent now r.inventoryAdvertisedToPeer
    inventoryPeerAdvertisedToUs := keepRecent now r.inventoryPeerAdvertisedToUs }

/-- `is_inventory_advertised_to_us_list_full_for_transactions()`. -/
def isInventoryAdvertisedToUsListFullForTransactions : Bool :=
  btsNetMaxInventorySizeInMinutes * btsBlockchainMaxTrxPerSecond * 60 <
    r.inventoryPeerAdvertisedToUs.size

/-- `is_inventory_advertised_to_us_list_full()`. -/
def isInventoryAdvertisedToUsListFull : Bool :=
  btsNetMaxInventorySizeInMinutes * btsBlockchainMaxTrxPerSecond * 60 + 5 <
    r.inventoryPeerAdvertisedToUs.size

/-- The peer can be asked for an item: it is active and idle, has advertised the item, and is not
to be spared transactions. -/
def canFetch (now : ℕ) (item : ItemId) : Bool :=
  r.isActive && r.idle && r.inventoryPeerAdvertisedToUs.contains item &&
    !(r.isTransactionFetchingInhibited now && item.itemType == trxMessageType)

end GossipPeer

/-! ### The items to fetch -/

/-- `prioritized_item_id`. -/
structure PrioritizedItemId where
  item : ItemId
  sequenceNumber : ℕ
  deriving DecidableEq, Repr

/-- `operator<` of `prioritized_item_id`: the higher type is first, then the earlier number; the
difference of the numbers is taken in 32 unsigned bits and compared as a signed value. -/
def PrioritizedItemId.before (lhs rhs : PrioritizedItemId) : Bool :=
  if lhs.item.itemType ≠ rhs.item.itemType then rhs.item.itemType < lhs.item.itemType
  else
    let ahead := (rhs.sequenceNumber + (2 ^ 32 - lhs.sequenceNumber % 2 ^ 32)) % 2 ^ 32
    0 < ahead && ahead < 2 ^ 31

/-- The place of an item in the order of the queue. -/
def placeItem (new : PrioritizedItemId) : List PrioritizedItemId → List PrioritizedItemId
  | [] => [new]
  | e :: es => if new.before e then new :: e :: es else e :: placeItem new es

/-- `_items_to_fetch.insert`: nothing is inserted when the item is there, or its place is
taken. -/
def insertItem (new : PrioritizedItemId) (queue : List PrioritizedItemId) :
    List PrioritizedItemId :=
  if queue.any fun e => e.item == new.item || (!e.before new && !new.before e) then queue
  else placeItem new queue

/-! ### The node -/

/-- `node_impl`, in normal operation. -/
structure GossipNode where
  peers : Table PeerId GossipPeer := ∅
  itemsToFetch : List PrioritizedItemId := []
  /-- How often `_items_to_fetch_sequence_counter` was taken, which has 32 bits. -/
  itemsToFetchSequenceCounter : ℕ := 0
  newInventory : KeySet ItemId := ∅
  /-- The items the client has been given and has not finished with. -/
  handling : List (PeerId × ItemId) := []

/-- What the node sends. -/
inductive GossipMessage
  /-- `fetch_items_message`, for one item. -/
  | fetchItems (item : ItemId)
  /-- `item_ids_inventory_message`, all of whose items have one type in the source. -/
  | itemIdsInventory (items : List ItemId)
  deriving DecidableEq, Repr

namespace GossipNode

variable (n : GossipNode)

/-- `is_item_in_any_peers_inventory( item )`. -/
def isItemInAnyPeersInventory (item : ItemId) : Bool :=
  n.peers.toList.any fun e => e.2.isActive && e.2.inventoryPeerAdvertisedToUs.contains item

/-- A change of one peer. -/
def modifyPeer (p : PeerId) (f : GossipPeer → GossipPeer) : GossipNode :=
  { n with peers := n.peers.modify p f }

/-- An item is queued with the next number. -/
def queueItem (item : ItemId) : GossipNode :=
  { n with
    itemsToFetch := insertItem ⟨item, n.itemsToFetchSequenceCounter % 2 ^ 32⟩ n.itemsToFetch
    itemsToFetchSequenceCounter := n.itemsToFetchSequenceCounter + 1 }

/-- An item that was not delivered is queued again when an active peer has it. -/
def requeueItem (item : ItemId) : GossipNode :=
  if n.isItemInAnyPeersInventory item then n.queueItem item else n

/-! ### Inventories of peers -/

/-- What the active peers say about an advertised item: an item that was advertised to one of
them is there already. -/
def advertisedToAPeer (item : ItemId) : Bool :=
  n.peers.toList.any fun e => e.2.isActive && e.2.inventoryAdvertisedToPeer.contains item

/-- The item is requested from an active peer. -/
def requestedFromAPeer (item : ItemId) : Bool :=
  n.peers.toList.any fun e => e.2.isActive && e.2.itemsRequestedFromPeer.contains item

/-- An entry of an inventory; one that is there keeps its time. -/
def recordItem (inventory : Table ItemId ℕ) (item : ItemId) (now : ℕ) : Table ItemId ℕ :=
  if inventory.contains item then inventory else inventory.insert item (secondsOf now)

/-- The loop of `on_item_ids_inventory_message`. -/
def hearItems (now : ℕ) (p : PeerId) : List ItemId → GossipNode → GossipNode
  | [], n => n
  | item :: items, n =>
    if n.advertisedToAPeer item then hearItems now p items n
    else
      match n.peers[p]? with
      | none => n
      | some r =>
        if (item.itemType == trxMessageType && r.isInventoryAdvertisedToUsListFullForTransactions) ||
            r.isInventoryAdvertisedToUsListFull then n
        else
          let wanted := !n.requestedFromAPeer item
          let n := { n with peers := n.peers.insert p { r with
            inventoryPeerAdvertisedToUs := recordItem r.inventoryPeerAdvertisedToUs item now } }
          hearItems now p items (if wanted then n.queueItem item else n)

/-- `on_item_ids_inventory_message`. -/
def onItemIdsInventoryMessage (now : ℕ) (p : PeerId) (itemType : ℕ) (hashes : List ℕ) :
    GossipNode :=
  hearItems now p (hashes.map (ItemId.mk itemType)) n

/-! ### Fetching -/

/-- The loop of `fetch_items_loop` over the queue: what stays queued, the peers, and the
requests. The order of the peers is that of the table. -/
def fetchQueue (now : ℕ) : List PrioritizedItemId → Table PeerId GossipPeer →
    List PrioritizedItemId × Table PeerId GossipPeer × List (PeerId × ItemId)
  | [], peers => ([], peers, [])
  | e :: es, peers =>
    match peers.toList.find? fun peer => peer.2.canFetch now e.item with
    | some (p, r) =>
      let peers := peers.insert p { r with
        itemsRequestedFromPeer := r.itemsRequestedFromPeer.insert e.item now }
      let (queue, peers, requests) := fetchQueue now es peers
      (queue, peers, requests ++ [(p, e.item)])
    | none =>
      let (queue, peers, requests) := fetchQueue now es peers
      (e :: queue, peers, requests)

/-- One iteration of `fetch_items_loop`. -/
def fetchItems (now : ℕ) : GossipNode × List (PeerId × GossipMessage) :=
  let (queue, peers, requests) := fetchQueue now n.itemsToFetch n.peers
  ({ n with itemsToFetch := queue, peers },
    requests.map fun request => (request.1, .fetchItems request.2))

/-- `on_item_not_available_message`, for an item of normal operation. -/
def onItemNotAvailableMessage (p : PeerId) (item : ItemId) : GossipNode :=
  match n.peers[p]? with
  | none => n
  | some r =>
    if r.itemsRequestedFromPeer.contains item then
      let n := { n with peers := n.peers.insert p { r with
        itemsRequestedFromPeer := r.itemsRequestedFromPeer.erase item
        inventoryPeerAdvertisedToUs := r.inventoryPeerAdvertisedToUs.erase item } }
      n.requeueItem item
    else n

/-- `on_connection_closed`: what was requested from the peer is queued again. -/
def onConnectionClosed (p : PeerId) : GossipNode :=
  match n.peers[p]? with
  | none => n
  | some r =>
    let n := { n with peers := n.peers.insert p { r with connection := .none } }
    r.itemsRequestedFromPeer.foldl (fun n item _ => n.requeueItem item) n

/-- The start of `process_ordinary_message` and, for a block of normal operation, of
`process_block_message`: an item that was not requested ends the connection. -/
def processMessage (p : PeerId) (item : ItemId) : GossipNode :=
  match n.peers[p]? with
  | none => n
  | some r =>
    if r.itemsRequestedFromPeer.contains item then
      { n with
        peers := n.peers.insert p { r with
          itemsRequestedFromPeer := r.itemsRequestedFromPeer.erase item }
        handling := n.handling ++ [(p, item)] }
    else n.modifyPeer p fun r => { r with connection := .closing }

/-! ### Advertising -/

/-- `broadcast( item )`. -/
def broadcast (item : ItemId) : GossipNode :=
  { n with newInventory := n.newInventory.insert item () }

/-- A change of the active peers. -/
def forActive (f : GossipPeer → GossipPeer) : GossipNode :=
  { n with peers := n.peers.map fun _ r => if r.isActive then f r else r }

/-- The client has accepted an item. A block is also the time to forget old inventory. -/
def acceptItem (now : ℕ) (item : ItemId) : GossipNode :=
  let n := if item.itemType = blockMessageType then n.forActive (·.clearOldInventory now) else n
  n.broadcast item

/-- `insufficient_relay_fee`: no transactions are fetched from the peer for a while. -/
def inhibitTransactions (now : ℕ) (p : PeerId) : GossipNode :=
  n.modifyPeer p fun r => { r with transactionFetchingInhibitedUntil :=
    now + btsNetInsufficientRelayFeePenaltySec * 1000000 }

/-- The items that a peer has neither advertised nor been told of. -/
def itemsToAdvertise (r : GossipPeer) (inventory : List ItemId) : List ItemId :=
  if r.isActive && !r.peerNeedsSyncItemsFromUs then
    inventory.filter fun item => !r.inventoryAdvertisedToPeer.contains item &&
      !r.inventoryPeerAdvertisedToUs.contains item
  else []

/-- The items are told to the peer. -/
def tellItems (now : ℕ) (items : List ItemId) (r : GossipPeer) : GossipPeer :=
  { r with inventoryAdvertisedToPeer :=
    items.foldl (fun t item => t.insert item (secondsOf now)) r.inventoryAdvertisedToPeer }

/-- A peer in an iteration of `advertise_inventory_loop`. -/
def advertiseTo (now : ℕ) (inventory : List ItemId) (r : GossipPeer) : GossipPeer :=
  if r.isActive then (tellItems now (itemsToAdvertise r inventory) r).clearOldInventory now
  else r

/-- One iteration of `advertise_inventory_loop`, with one message for each peer. The source sends
one for each type of item. -/
def advertiseInventory (now : ℕ) : GossipNode × List (PeerId × GossipMessage) :=
  let inventory := n.newInventory.toList.map Prod.fst
  ({ n with
    newInventory := ∅
    peers := n.peers.map fun _ r => advertiseTo now inventory r },
    n.peers.toList.filterMap fun e =>
      if itemsToAdvertise e.2 inventory = [] then none
      else some (e.1, .itemIdsInventory (itemsToAdvertise e.2 inventory)))

end GossipNode

/-! ### Runs -/

/-- What happens to the node. -/
inductive GossipEvent
  | connected (p : PeerId)
  /-- The connection is put on another list of the node. -/
  | moved (p : PeerId) (list : ConnectionList)
  | closed (p : PeerId)
  /-- How far the synchronization with a peer is. -/
  | synchronized (p : PeerId) (peerNeedsSyncItemsFromUs synchronizing : Bool)
  | inventory (p : PeerId) (itemType : ℕ) (hashes : List ℕ)
  | fetch
  | notAvailable (p : PeerId) (item : ItemId)
  | message (p : PeerId) (item : ItemId)
  | accepted (p : PeerId) (item : ItemId)
  | insufficientRelayFee (p : PeerId) (item : ItemId)
  | rejected (p : PeerId) (item : ItemId)
  | produced (item : ItemId)
  | advertise

/-- A connection can be put on another list: only a new one becomes active. -/
def canMove (r : GossipPeer) (list : ConnectionList) : Bool :=
  match list with
  | .active => r.connection == .handshaking
  | .closing | .terminating => r.isOpen
  | .handshaking | .none => false

namespace GossipNode

variable (n : GossipNode)

/-- The peer has an open connection. -/
def hasOpen (p : PeerId) : Bool :=
  n.peers[p]?.any GossipPeer.isOpen

/-- The client is done with an item. -/
def release (p : PeerId) (item : ItemId) : GossipNode :=
  { n with handling := n.handling.erase (p, item) }

/-- One event at the time `now`, with what is sent. A message comes over an open connection, and
the client answers what it was given. -/
def step (now : ℕ) : GossipEvent → GossipNode × List (PeerId × GossipMessage)
  | .connected p =>
    (if n.peers.contains p then n else { n with peers := n.peers.insert p {} }, [])
  | .moved p list =>
    (if n.peers[p]?.any (canMove · list) then n.modifyPeer p ({ · with connection := list })
      else n, [])
  | .closed p => (if n.hasOpen p then n.onConnectionClosed p else n, [])
  | .synchronized p peerNeedsSyncItemsFromUs synchronizing =>
    (n.modifyPeer p ({ · with peerNeedsSyncItemsFromUs, synchronizing }), [])
  | .inventory p itemType hashes =>
    (if n.hasOpen p then n.onItemIdsInventoryMessage now p itemType hashes else n, [])
  | .fetch => n.fetchItems now
  | .notAvailable p item =>
    (if n.hasOpen p then n.onItemNotAvailableMessage p item else n, [])
  | .message p item => (if n.hasOpen p then n.processMessage p item else n, [])
  | .accepted p item =>
    (if (p, item) ∈ n.handling then (n.release p item).acceptItem now item else n, [])
  | .insufficientRelayFee p item =>
    (if (p, item) ∈ n.handling ∧ item.itemType = trxMessageType then
      (n.release p item).inhibitTransactions now p else n, [])
  | .rejected p item => (if (p, item) ∈ n.handling then n.release p item else n, [])
  | .produced item => (n.broadcast item, [])
  | .advertise => n.advertiseInventory now

/-- Events one after another, each with its time. -/
def play (n : GossipNode) (events : List (ℕ × GossipEvent)) : GossipNode :=
  events.foldl (fun n e => (n.step e.1 e.2).1) n

end GossipNode

/-- What the node sends, with the time and the peer it is sent to. -/
abbrev SentMessage : Type :=
  ℕ × PeerId × GossipMessage

/-- The runs of a node that starts without connections: the time of the last event, the node, and
what it has sent. -/
inductive GossipRun : ℕ → GossipNode → List SentMessage → Prop
  | start : GossipRun 0 {} []
  | step {past now : ℕ} {n : GossipNode} {sent : List SentMessage} (h : GossipRun past n sent)
      (htime : past ≤ now) (ev : GossipEvent) :
      GossipRun now (n.step now ev).1 (sent ++ (n.step now ev).2.map fun m => (now, m))

end LarkX
