import Mathlib.Data.Set.Card
import LarkX.Net.Node

/-!
# The handshake

How `node_impl` comes to an agreement with a new peer. Both sides send a hello message; each
answers the other's with `connection_accepted` or `connection_rejected`, asks for addresses, and
moves the connection to the active list, or ends it, when the addresses arrive.

The peer can send anything at any time, and `on_hello_message` waits for the client between what
it looks up (`onHelloMessage`) and its answer (`answerHello`): the hello messages of other peers,
and the end of the connection, can come in between.
-/

namespace LarkX

open Std (ExtTreeMap)

/-- `node_id_t`. -/
abbrev NodeId : Type := ℕ

/-- `peer_connection_direction`. -/
inductive PeerConnectionDirection
  | unknown
  | inbound
  | outbound
  deriving DecidableEq, Repr

/-- `our_connection_state` and `their_connection_state`, which have the same values. -/
inductive NegotiationState
  | disconnected
  | justConnected
  | connectionAccepted
  | connectionRejected
  deriving DecidableEq, Repr

/-- `rejection_reason_code`, those that are used. -/
inductive RejectionReasonCode
  | unspecified
  | differentChain
  | alreadyConnected
  | connectedToSelf
  | notAcceptingConnections
  | invalidHelloMessage
  deriving DecidableEq, Repr

/-- What the node sends during a handshake. -/
inductive HandshakeMessage
  | connectionAccepted
  | connectionRejected (reasonCode : RejectionReasonCode) (reasonString : String)
  | addressRequest
  | address
  | closingConnection (reasonForClosing : String)
  deriving DecidableEq, Repr

/-- The message answers a hello message. -/
def HandshakeMessage.isAnswer : HandshakeMessage → Bool
  | .connectionAccepted | .connectionRejected _ _ => true
  | _ => false

/-- `hello_message`, with the entries of its user data that are read; the addresses are left
out. -/
structure HelloMessage (Signature : Type) where
  nodePublicKey : NodeId
  signedSharedSecret : Signature
  chainId : String
  nodeId : Option NodeId := none
  lastKnownForkBlockNumber : Option ℕ := none
  gitRevisionUnixTimestamp : Option ℕ := none

/-- What `on_hello_message` has found when it waits for the client. -/
structure HelloInProgress where
  alreadyConnected : Bool
  validSignature : Bool
  chainId : String
  deriving DecidableEq, Repr

/-- `peer_connection`, in a handshake. -/
structure HandshakePeer where
  connection : ConnectionList := .handshaking
  direction : PeerConnectionDirection := .unknown
  ourState : NegotiationState := .disconnected
  theirState : NegotiationState := .disconnected
  theyHaveRequestedClose : Bool := false
  sharedSecret : ℕ := 0
  nodePublicKey : NodeId := 0
  nodeId : NodeId := 0
  lastKnownForkBlockNumber : ℕ := 0
  gitRevisionUnixTimestamp : Option ℕ := none
  helloInProgress : Option HelloInProgress := none
  deriving DecidableEq, Repr

namespace HandshakePeer

variable (r : HandshakePeer)

/-- The connection is in `_handshaking_connections` or `_active_connections`. -/
def isHeld : Bool :=
  r.connection == .handshaking || r.connection == .active

/-- The peer has been accepted, and its connection is held. -/
def isAccepted : Bool :=
  r.isHeld && r.theirState == .connectionAccepted

/-- The read loop of the connection can take a message. -/
def canRead : Bool :=
  r.connection != .none && r.theirState != .disconnected && r.helloInProgress.isNone

/-- `disconnect_from_peer`, with the message that is sent. -/
def disconnectFromPeer (reason : String) : HandshakePeer × List HandshakeMessage :=
  ({ r with connection := .closing },
    if r.theyHaveRequestedClose then [] else [.closingConnection reason])

end HandshakePeer

/-- What a node knows about itself. The key that made a signature of a shared secret is computed
by the cryptography library. -/
structure HandshakeConfig (Signature : Type) where
  nodeId : NodeId
  chainId : String
  maximumNumberOfConnections : ℕ
  hardForkBlockNumbers : List ℕ
  signer : Signature → ℕ → NodeId

/-- `get_next_known_hard_fork_block_number( block_number )`, on increasing numbers. -/
def HandshakeConfig.getNextKnownHardForkBlockNumber {Signature : Type}
    (config : HandshakeConfig Signature) (blockNumber : ℕ) : ℕ :=
  (config.hardForkBlockNumbers.find? (blockNumber < ·)).getD 0

/-- `node_impl`: its connections, and whether it is being shut down. -/
structure HandshakeNode where
  peers : Table PeerId HandshakePeer := ∅
  shuttingDown : Bool := false

/-! ### The handlers -/

namespace HandshakeNode

variable {Signature : Type} (config : HandshakeConfig Signature) (n : HandshakeNode)

/-- `get_number_of_connections()`. -/
def getNumberOfConnections : ℕ :=
  (n.peers.toList.filter fun e => e.2.isHeld).length

/-- `is_accepting_new_connections()`. -/
def isAcceptingNewConnections : Bool :=
  !n.shuttingDown && n.getNumberOfConnections ≤ config.maximumNumberOfConnections

/-- `is_already_connected_to_id( node_id )`. -/
def isAlreadyConnectedToId (nodeId : NodeId) : Bool :=
  nodeId == config.nodeId || n.peers.toList.any fun e => e.2.isHeld && e.2.nodeId == nodeId

/-- The peer as `on_hello_message` leaves it before it asks the client. -/
def onHelloMessage (hello : HelloMessage Signature) (r : HandshakePeer) : HandshakePeer :=
  let peerNodeId := hello.nodeId.getD hello.nodePublicKey
  { r with
    nodePublicKey := hello.nodePublicKey
    nodeId := peerNodeId
    lastKnownForkBlockNumber := hello.lastKnownForkBlockNumber.getD r.lastKnownForkBlockNumber
    gitRevisionUnixTimestamp := hello.gitRevisionUnixTimestamp <|> r.gitRevisionUnixTimestamp
    helloInProgress := some
      { alreadyConnected := n.isAlreadyConnectedToId config peerNodeId
        validSignature :=
          hello.nodePublicKey == config.signer hello.signedSharedSecret r.sharedSecret
        chainId := hello.chainId } }

/-- The peer is sent a rejection. -/
def rejectHello (reasonCode : RejectionReasonCode) (reasonString : String) (r : HandshakePeer) :
    HandshakePeer × List HandshakeMessage :=
  ({ r with theirState := .connectionRejected }, [.connectionRejected reasonCode reasonString])

/-- The peer is sent a rejection, and its connection is ended. -/
def rejectAndDisconnect (reasonCode : RejectionReasonCode) (reasonString reason : String)
    (r : HandshakePeer) : HandshakePeer × List HandshakeMessage :=
  let (r, rejection) := rejectHello reasonCode reasonString r
  let (r, closing) := r.disconnectFromPeer reason
  (r, rejection ++ closing)

/-- The end of `on_hello_message`, when the client has estimated the last fork that the peer knows
and told the number of the head block. -/
def answerHello (estimate headBlockNum : ℕ) (found : HelloInProgress) (r : HandshakePeer) :
    HandshakePeer × List HandshakeMessage :=
  let lastKnownForkBlockNumber :=
    if r.lastKnownForkBlockNumber = 0 ∧ r.gitRevisionUnixTimestamp.isSome then estimate
    else r.lastKnownForkBlockNumber
  let r := { r with lastKnownForkBlockNumber, helloInProgress := none }
  let nextForkBlockNumber := config.getNextKnownHardForkBlockNumber lastKnownForkBlockNumber
  if r.theirState ≠ .justConnected then r.disconnectFromPeer "Received a unexpected hello_message"
  else if !found.validSignature then
    rejectAndDisconnect .invalidHelloMessage "Invalid signature in hello message"
      "Invalid signature in hello message" r
  else if found.chainId ≠ config.chainId then
    rejectAndDisconnect .differentChain ("You're on a different chain than I am.  I'm on " ++
      config.chainId ++ " and you're on " ++ found.chainId)
      "You are on a different chain from me" r
  else if lastKnownForkBlockNumber ≠ 0 ∧ nextForkBlockNumber ≠ 0 ∧
      nextForkBlockNumber < headBlockNum then
    rejectAndDisconnect .unspecified
      ("Your client is outdated -- you can only understand blocks up to #" ++
        toString nextForkBlockNumber ++ ", but I'm already on block #" ++ toString headBlockNum)
      "Your client is too old, please upgrade" r
  else if found.alreadyConnected then
    if config.nodeId = r.nodeId then rejectHello .connectedToSelf "I'm connecting to myself" r
    else rejectHello .alreadyConnected "I'm already connected to you" r
  else if !n.isAcceptingNewConnections config then
    rejectHello .notAcceptingConnections "not accepting any more incoming connections" r
  else ({ r with theirState := .connectionAccepted }, [.connectionAccepted])

/-- `on_connection_accepted_message`. -/
def onConnectionAcceptedMessage (r : HandshakePeer) : HandshakePeer × List HandshakeMessage :=
  ({ r with ourState := .connectionAccepted }, [.addressRequest])

/-- `on_connection_rejected_message`: a rejection that is not expected is an exception, which
ends the connection. -/
def onConnectionRejectedMessage (reasonCode : RejectionReasonCode) (r : HandshakePeer) :
    HandshakePeer × List HandshakeMessage :=
  if r.ourState = .justConnected then
    ({ r with
      connection := if reasonCode = .connectedToSelf then .closing else r.connection
      ourState := .connectionRejected }, [.addressRequest])
  else ({ r with connection := .none }, [])

/-- `on_address_message`. -/
def onAddressMessage (r : HandshakePeer) : HandshakePeer × List HandshakeMessage :=
  if r.connection = .handshaking then
    if r.ourState = .connectionRejected then
      r.disconnectFromPeer
        "You rejected my connection request (hello message) so I'm disconnecting"
    else if r.theirState = .connectionRejected then
      r.disconnectFromPeer
        "I rejected your connection request (hello message) so I'm disconnecting"
    else ({ r with connection := .active }, [])
  else (r, [])

/-- The end of `on_fetch_blockchain_item_ids_message`. -/
def onFetchBlockchainItemIdsMessage (r : HandshakePeer) :
    HandshakePeer × List HandshakeMessage :=
  if r.direction = .inbound ∧ r.connection = .handshaking then ({ r with connection := .active }, [])
  else (r, [])

end HandshakeNode

/-! ### Runs -/

/-- What happens to the node. -/
inductive HandshakeEvent (Signature : Type)
  /-- A connection is opened by either side. -/
  | opened (p : PeerId)
  /-- The keys are exchanged: `accept_connection` or `connect_to` has returned. -/
  | negotiated (p : PeerId) (direction : PeerConnectionDirection) (sharedSecret : ℕ)
  | hello (p : PeerId) (hello : HelloMessage Signature)
  | answered (p : PeerId) (estimate headBlockNum : ℕ)
  | accepted (p : PeerId)
  | rejected (p : PeerId) (reasonCode : RejectionReasonCode)
  | addressRequest (p : PeerId)
  | address (p : PeerId)
  | fetchBlockchainItemIds (p : PeerId)
  | closing (p : PeerId)
  | disconnect (p : PeerId) (reason : String)
  | terminated (p : PeerId)
  | closed (p : PeerId)
  | shutDown

namespace HandshakeNode

variable {Signature : Type} (config : HandshakeConfig Signature) (n : HandshakeNode)

/-- A peer is changed, and sent messages. -/
def withPeer (p : PeerId) (f : HandshakePeer → HandshakePeer × List HandshakeMessage) :
    HandshakeNode × List (PeerId × HandshakeMessage) :=
  match n.peers[p]? with
  | none => (n, [])
  | some r => ({ n with peers := n.peers.insert p (f r).1 }, (f r).2.map fun m => (p, m))

/-- A message is taken by the read loop of its connection. -/
def reads (f : HandshakePeer → HandshakePeer × List HandshakeMessage) (r : HandshakePeer) :
    HandshakePeer × List HandshakeMessage :=
  if r.canRead then f r else (r, [])

/-- One event, with what is sent. -/
def step : HandshakeEvent Signature → HandshakeNode × List (PeerId × HandshakeMessage)
  | .opened p =>
    (if n.peers.contains p then n else { n with peers := n.peers.insert p {} }, [])
  | .negotiated p direction sharedSecret => n.withPeer p fun r =>
    if r.theirState = .disconnected then
      ({ r with
        direction
        sharedSecret
        ourState := .justConnected
        theirState := .justConnected }, [])
    else (r, [])
  | .hello p hello => n.withPeer p (reads fun r => (n.onHelloMessage config hello r, []))
  | .answered p estimate headBlockNum => n.withPeer p fun r =>
    match r.helloInProgress with
    | none => (r, [])
    | some found => n.answerHello config estimate headBlockNum found r
  | .accepted p => n.withPeer p (reads onConnectionAcceptedMessage)
  | .rejected p reasonCode => n.withPeer p (reads (onConnectionRejectedMessage reasonCode))
  | .addressRequest p => n.withPeer p (reads fun r => (r, [.address]))
  | .address p => n.withPeer p (reads onAddressMessage)
  | .fetchBlockchainItemIds p => n.withPeer p (reads onFetchBlockchainItemIdsMessage)
  | .closing p => n.withPeer p (reads fun r => ({ r with theyHaveRequestedClose := true }, []))
  | .disconnect p reason => n.withPeer p (·.disconnectFromPeer reason)
  | .terminated p => n.withPeer p fun r => ({ r with connection := .terminating }, [])
  | .closed p => n.withPeer p fun r =>
    ({ r with connection := .none, helloInProgress := none }, [])
  | .shutDown => ({ n with shuttingDown := true }, [])

end HandshakeNode

/-- The runs of a node that starts without connections, with what it has sent. -/
inductive HandshakeRun {Signature : Type} (config : HandshakeConfig Signature) :
    HandshakeNode → List (PeerId × HandshakeMessage) → Prop
  | start : HandshakeRun config {} []
  | step {n : HandshakeNode} {sent : List (PeerId × HandshakeMessage)}
      (h : HandshakeRun config n sent) (ev : HandshakeEvent Signature) :
      HandshakeRun config (n.step config ev).1 (sent ++ (n.step config ev).2)

/-! ### What an event does to a peer -/

namespace HandshakeNode

variable {Signature : Type} {config : HandshakeConfig Signature} {n : HandshakeNode} {p q : PeerId}
  {r r' s : HandshakePeer} {msgs : List HandshakeMessage}

/-- A change of a peer, with the messages it is sent. -/
inductive PeerStep (config : HandshakeConfig Signature) (n : HandshakeNode) (r : HandshakePeer) :
    HandshakePeer → List HandshakeMessage → Prop
  /-- The peer is not answered. A connection that stays held keeps its hello message. -/
  | quiet {r' : HandshakePeer} {msgs : List HandshakeMessage}
      (hheld : r'.isHeld = true → r.isHeld = true ∧ r'.helloInProgress = r.helloInProgress)
      (hhello : r'.helloInProgress = r.helloInProgress ∨ r'.helloInProgress = none)
      (hid : r'.nodeId = r.nodeId) (hstate : r'.theirState = r.theirState)
      (hsent : msgs.countP (·.isAnswer) = 0) : PeerStep config n r r' msgs
  | negotiated (direction : PeerConnectionDirection) (sharedSecret : ℕ)
      (hstate : r.theirState = .disconnected) :
      PeerStep config n r { r with
        direction
        sharedSecret
        ourState := .justConnected
        theirState := .justConnected } []
  | hello (hello : HelloMessage Signature) (hread : r.canRead = true) :
      PeerStep config n r (n.onHelloMessage config hello r) []
  | rejected {r' : HandshakePeer} {msgs : List HandshakeMessage}
      (hstate : r.theirState = .justConnected) (hstate' : r'.theirState = .connectionRejected)
      (hheld : r'.isHeld = true → r.isHeld = true) (hdone : r'.helloInProgress = none)
      (hsent : msgs.countP (·.isAnswer) = 1) : PeerStep config n r r' msgs
  | accepted {r' : HandshakePeer} {found : HelloInProgress}
      (hstate : r.theirState = .justConnected) (hstate' : r'.theirState = .connectionAccepted)
      (hconnection : r'.connection = r.connection) (hid : r'.nodeId = r.nodeId)
      (hfound : r.helloInProgress = some found) (hdone : r'.helloInProgress = none)
      (hfresh : found.alreadyConnected = false)
      (hroom : n.getNumberOfConnections ≤ config.maximumNumberOfConnections) :
      PeerStep config n r r' [.connectionAccepted]

/-- Nothing happens. -/
theorem peerStep_refl (r : HandshakePeer) : PeerStep config n r r [] :=
  .quiet (fun h => ⟨h, rfl⟩) (Or.inl rfl) rfl rfl rfl

/-- Only the list of the connection changes, and not to one of the two that are held. -/
theorem peerStep_listed {list : ConnectionList} (h : list ≠ .handshaking) (h' : list ≠ .active)
    (hsent : msgs.countP (·.isAnswer) = 0) :
    PeerStep config n r { r with connection := list } msgs := by
  refine .quiet (fun hheld => ?_) (Or.inl rfl) rfl rfl hsent
  cases list with
  | handshaking => exact absurd rfl h
  | active => exact absurd rfl h'
  | _ => cases hheld

theorem countP_closing (r : HandshakePeer) (reason : String) :
    (r.disconnectFromPeer reason).2.countP (·.isAnswer) = 0 := by
  unfold HandshakePeer.disconnectFromPeer
  cases r.theyHaveRequestedClose <;> rfl

theorem peerStep_disconnect (r : HandshakePeer) (reason : String) :
    PeerStep config n r (r.disconnectFromPeer reason).1 (r.disconnectFromPeer reason).2 :=
  peerStep_listed nofun nofun (countP_closing r reason)

theorem peerStep_reads {f : HandshakePeer → HandshakePeer × List HandshakeMessage}
    (h : r.canRead = true → PeerStep config n r (f r).1 (f r).2) :
    PeerStep config n r (reads f r).1 (reads f r).2 := by
  unfold reads
  split
  · rename_i hread
    exact h hread
  · exact peerStep_refl r

/-- A held connection becomes active. -/
theorem peerStep_active (h : r.connection = .handshaking) :
    PeerStep config n r { r with connection := .active } [] := by
  refine .quiet (fun _ => ⟨?_, rfl⟩) (Or.inl rfl) rfl rfl rfl
  rw [HandshakePeer.isHeld, h]
  rfl

theorem countP_rejectAndDisconnect (reasonCode : RejectionReasonCode)
    (reasonString reason : String) (r : HandshakePeer) :
    (rejectAndDisconnect reasonCode reasonString reason r).2.countP (·.isAnswer) = 1 := by
  change ([HandshakeMessage.connectionRejected reasonCode reasonString] ++
    (HandshakePeer.disconnectFromPeer
      { r with theirState := .connectionRejected } reason).2).countP _ = 1
  rw [List.countP_append, countP_closing]
  rfl

/-- The answer to a hello message. -/
theorem peerStep_answer {found : HelloInProgress} (hfound : r.helloInProgress = some found)
    (estimate headBlockNum : ℕ) :
    PeerStep config n r (n.answerHello config estimate headBlockNum found r).1
      (n.answerHello config estimate headBlockNum found r).2 := by
  unfold answerHello
  extract_lets lastKnownForkBlockNumber r₁ nextForkBlockNumber
  split
  · exact .quiet nofun (Or.inr rfl) rfl rfl (countP_closing r₁ _)
  rename_i hstate
  have hstate : r.theirState = .justConnected := not_not.1 hstate
  -- the rejections, with and without the end of the connection
  have hend : ∀ reasonCode reasonString reason,
      PeerStep config n r (rejectAndDisconnect reasonCode reasonString reason r₁).1
        (rejectAndDisconnect reasonCode reasonString reason r₁).2 := fun _ _ _ =>
    .rejected hstate rfl nofun rfl (countP_rejectAndDisconnect ..)
  have hreject : ∀ reasonCode reasonString, PeerStep config n r
      (rejectHello reasonCode reasonString r₁).1 (rejectHello reasonCode reasonString r₁).2 :=
    fun _ _ => .rejected hstate rfl (fun h => h) rfl rfl
  split
  · exact hend ..
  split
  · exact hend ..
  split
  · exact hend ..
  split
  · split <;> exact hreject ..
  rename_i hfresh
  split
  · exact hreject ..
  · rename_i hroom
    rw [Bool.not_eq_true', Bool.not_eq_false, isAcceptingNewConnections, Bool.and_eq_true,
      decide_eq_true_eq] at hroom
    exact .accepted hstate rfl rfl rfl hfound rfl (Bool.eq_false_iff.2 hfresh) hroom.2

/-- An event changes one peer at most, and sends messages to it only. -/
inductive StepOutcome (config : HandshakeConfig Signature) (n : HandshakeNode) :
    HandshakeNode × List (PeerId × HandshakeMessage) → Prop
  | same {n' : HandshakeNode} (hpeers : n'.peers = n.peers) : StepOutcome config n (n', [])
  | opened {n' : HandshakeNode} {p : PeerId} (hnew : n.peers[p]? = none)
      (hpeers : n'.peers = n.peers.insert p {}) : StepOutcome config n (n', [])
  | changed {n' : HandshakeNode} {p : PeerId} {r r' : HandshakePeer}
      {msgs : List HandshakeMessage} (hr : n.peers[p]? = some r)
      (hstep : PeerStep config n r r' msgs) (hpeers : n'.peers = n.peers.insert p r') :
      StepOutcome config n (n', msgs.map fun m => (p, m))

theorem stepOutcome_withPeer {f : HandshakePeer → HandshakePeer × List HandshakeMessage}
    (hf : ∀ r, PeerStep config n r (f r).1 (f r).2) : StepOutcome config n (n.withPeer p f) := by
  unfold withPeer
  split
  · exact .same rfl
  · rename_i r hr
    exact .changed hr (hf r) rfl

/-- **Every event** has such an outcome. -/
theorem stepOutcome_step (n : HandshakeNode) (ev : HandshakeEvent Signature) :
    StepOutcome config n (n.step config ev) := by
  cases ev with
  | opened p =>
    dsimp only [step]
    split
    · exact .same rfl
    · rename_i hnew
      rw [ExtTreeMap.contains_eq_isSome_getElem?, Bool.not_eq_true, Option.isSome_eq_false_iff,
        Option.isNone_iff_eq_none] at hnew
      exact .opened hnew rfl
  | negotiated p direction sharedSecret =>
    refine stepOutcome_withPeer fun r => ?_
    split
    · rename_i hstate
      exact .negotiated direction sharedSecret hstate
    · exact peerStep_refl r
  | hello p hello => exact stepOutcome_withPeer fun r => peerStep_reads fun hread => .hello hello hread
  | answered p estimate headBlockNum =>
    refine stepOutcome_withPeer fun r => ?_
    split
    · exact peerStep_refl r
    · rename_i found hfound
      exact peerStep_answer hfound estimate headBlockNum
  | accepted p =>
    exact stepOutcome_withPeer fun r => peerStep_reads fun _ =>
      .quiet (fun h => ⟨h, rfl⟩) (Or.inl rfl) rfl rfl rfl
  | rejected p reasonCode =>
    refine stepOutcome_withPeer fun r => peerStep_reads fun _ => ?_
    unfold onConnectionRejectedMessage
    split
    · refine .quiet (fun h => ⟨?_, rfl⟩) (Or.inl rfl) rfl rfl rfl
      by_cases hself : reasonCode = .connectedToSelf
      · rw [HandshakePeer.isHeld, if_pos hself] at h
        cases h
      · rwa [HandshakePeer.isHeld, if_neg hself] at h
    · exact peerStep_listed nofun nofun rfl
  | addressRequest p =>
    exact stepOutcome_withPeer fun r => peerStep_reads fun _ =>
      .quiet (fun h => ⟨h, rfl⟩) (Or.inl rfl) rfl rfl rfl
  | address p =>
    refine stepOutcome_withPeer fun r => peerStep_reads fun _ => ?_
    unfold onAddressMessage
    split
    · rename_i hconnection
      split
      · exact peerStep_disconnect r _
      · split
        · exact peerStep_disconnect r _
        · exact peerStep_active hconnection
    · exact peerStep_refl r
  | fetchBlockchainItemIds p =>
    refine stepOutcome_withPeer fun r => peerStep_reads fun _ => ?_
    unfold onFetchBlockchainItemIdsMessage
    split
    · rename_i hinbound
      exact peerStep_active hinbound.2
    · exact peerStep_refl r
  | closing p =>
    exact stepOutcome_withPeer fun r => peerStep_reads fun _ =>
      .quiet (fun h => ⟨h, rfl⟩) (Or.inl rfl) rfl rfl rfl
  | disconnect p reason => exact stepOutcome_withPeer fun r => peerStep_disconnect r reason
  | terminated p => exact stepOutcome_withPeer fun r => peerStep_listed nofun nofun rfl
  | closed p => exact stepOutcome_withPeer fun r => .quiet nofun (Or.inr rfl) rfl rfl rfl
  | shutDown => exact .same rfl

/-! ### Node ids -/

/-- The peer holds its node id: it is accepted, or its first hello message has found the id
free. -/
def HoldsId (r : HandshakePeer) : Prop :=
  r.isHeld = true ∧ (r.helloInProgress = none ∧ r.theirState = .connectionAccepted ∨
    ∃ found, r.helloInProgress = some found ∧ found.alreadyConnected = false ∧
      r.theirState = .justConnected)

/-- No node id is held twice, and that of the node is not held. -/
structure Apart (config : HandshakeConfig Signature) (n : HandshakeNode) : Prop where
  idle : ∀ (p : PeerId) (r : HandshakePeer), n.peers[p]? = some r →
    r.theirState = .disconnected → r.helloInProgress = none
  other : ∀ (p : PeerId) (r : HandshakePeer), n.peers[p]? = some r → HoldsId r →
    r.nodeId ≠ config.nodeId
  unique : ∀ (p q : PeerId) (r s : HandshakePeer), n.peers[p]? = some r → n.peers[q]? = some s →
    HoldsId r → HoldsId s → r.nodeId = s.nodeId → p = q

/-- A peer that holds an id has held it before, or the id was free. -/
theorem PeerStep.holdsId (h : PeerStep config n r r' msgs)
    (hidle : r.theirState = .disconnected → r.helloInProgress = none) (hholds : HoldsId r') :
    HoldsId r ∧ r'.nodeId = r.nodeId ∨ n.isAlreadyConnectedToId config r'.nodeId = false := by
  obtain ⟨hheld', hholds⟩ := hholds
  cases h with
  | quiet hheld hhello hid hstate hsent =>
    obtain ⟨hheld, hsame⟩ := hheld hheld'
    rw [hsame, hstate] at hholds
    exact Or.inl ⟨⟨hheld, hholds⟩, hid⟩
  | negotiated direction sharedSecret hstate =>
    rcases hholds with ⟨-, haccepted⟩ | ⟨found, hfound, -⟩
    · cases haccepted
    · cases (hidle hstate).symm.trans hfound
  | hello hello hread =>
    rcases hholds with ⟨hnone, -⟩ | ⟨found, hfound, hfresh, -⟩
    · cases hnone
    · cases hfound
      exact Or.inr hfresh
  | rejected hstate hstate' hheld hdone hsent =>
    rcases hholds with ⟨-, haccepted⟩ | ⟨found, hfound, -⟩
    · cases hstate'.symm.trans haccepted
    · cases hdone.symm.trans hfound
  | accepted hstate hstate' hconnection hid hfound hdone hfresh hroom =>
    refine Or.inl ⟨⟨?_, Or.inr ⟨_, hfound, hfresh, hstate⟩⟩, hid⟩
    rw [HandshakePeer.isHeld, ← hconnection]
    exact hheld'

theorem PeerStep.idle (h : PeerStep config n r r' msgs)
    (hidle : r.theirState = .disconnected → r.helloInProgress = none) :
    r'.theirState = .disconnected → r'.helloInProgress = none := by
  intro hdisconnected
  cases h with
  | quiet hheld hhello hid hstate hsent =>
    rcases hhello with hhello | hhello
    · exact hhello.trans (hidle (hstate.symm.trans hdisconnected))
    · exact hhello
  | negotiated direction sharedSecret hstate => cases hdisconnected
  | hello hello hread =>
    have hstate : r.theirState = .disconnected := hdisconnected
    rw [HandshakePeer.canRead, hstate] at hread
    simp at hread
  | rejected hstate hstate' hheld hdone hsent => exact hdone
  | accepted hstate hstate' hconnection hid hfound hdone hfresh hroom => exact hdone

/-- An id that is not connected is none of a held connection. -/
theorem ne_of_not_alreadyConnected {nodeId : NodeId}
    (h : n.isAlreadyConnectedToId config nodeId = false) :
    nodeId ≠ config.nodeId ∧ ∀ (q : PeerId) (s : HandshakePeer), n.peers[q]? = some s →
      s.isHeld = true → s.nodeId ≠ nodeId := by
  rw [isAlreadyConnectedToId, Bool.or_eq_false_iff, beq_eq_false_iff_ne,
    List.any_eq_false] at h
  refine ⟨h.1, fun q s hs hheld heq => h.2 (q, s) (Table.mem_toList.2 hs) ?_⟩
  rw [Bool.and_eq_true, beq_iff_eq]
  exact ⟨hheld, heq⟩

theorem Apart.step (h : Apart config n) (ev : HandshakeEvent Signature) :
    Apart config (n.step config ev).1 := by
  have houtcome := @stepOutcome_step _ config n ev
  generalize n.step config ev = result at houtcome
  cases houtcome with
  | same hpeers =>
    refine ⟨?_, ?_, ?_⟩
    · rw [hpeers]
      exact h.idle
    · rw [hpeers]
      exact h.other
    · rw [hpeers]
      exact h.unique
  | @opened n' p hnew hpeers =>
    have hempty : ¬HoldsId {} := fun hholds => by
      rcases hholds.2 with ⟨-, hstate⟩ | ⟨found, hfound, -⟩
      · cases hstate
      · cases hfound
    have hold : ∀ (q : PeerId) (s : HandshakePeer), n'.peers[q]? = some s → HoldsId s →
        n.peers[q]? = some s := by
      intro q s hs hholds
      rw [hpeers, Table.getElem?_insert] at hs
      split at hs
      · cases hs
        exact absurd hholds hempty
      · exact hs
    refine ⟨fun q s hs hstate => ?_, fun q s hs hholds => h.other q s (hold q s hs hholds) hholds,
      fun p q r s hr hs hp hq => h.unique p q r s (hold p r hr hp) (hold q s hs hq) hp hq⟩
    change n'.peers[q]? = some s at hs
    rw [hpeers, Table.getElem?_insert] at hs
    split at hs
    · cases hs
      rfl
    · exact h.idle q s hs hstate
  | @changed n' p r r' msgs hr hstep hpeers =>
    have hidle := h.idle p r hr
    -- what the other peers hold, and what the peer holds now
    have hold : ∀ (q : PeerId) (s : HandshakePeer), n'.peers[q]? = some s →
        q = p ∧ s = r' ∨ q ≠ p ∧ n.peers[q]? = some s := by
      intro q s hs
      rw [hpeers, Table.getElem?_insert] at hs
      split at hs
      · rename_i heq
        cases hs
        exact Or.inl ⟨heq, rfl⟩
      · rename_i hne
        exact Or.inr ⟨hne, hs⟩
    have hapart : HoldsId r' → ∀ (q : PeerId) (s : HandshakePeer), q ≠ p →
        n.peers[q]? = some s → HoldsId s → s.nodeId ≠ r'.nodeId := by
      intro hholds q s hne hs hholds' heq
      rcases hstep.holdsId hidle hholds with ⟨hbefore, hid⟩ | hfree
      · exact hne (h.unique q p s r hs hr hholds' hbefore (heq.trans hid))
      · exact (ne_of_not_alreadyConnected hfree).2 q s hs hholds'.1 heq
    refine ⟨fun q s hs hstate => ?_, fun q s hs hholds => ?_, fun q q' s s' hs hs' hq hq' heq => ?_⟩
    · rcases hold q s hs with ⟨rfl, rfl⟩ | ⟨-, hs⟩
      · exact hstep.idle hidle hstate
      · exact h.idle q s hs hstate
    · rcases hold q s hs with ⟨rfl, rfl⟩ | ⟨-, hs⟩
      · rcases hstep.holdsId hidle hholds with ⟨hbefore, hid⟩ | hfree
        · rw [hid]
          exact h.other q r hr hbefore
        · exact (ne_of_not_alreadyConnected hfree).1
      · exact h.other q s hs hholds
    · rcases hold q s hs with ⟨rfl, rfl⟩ | ⟨hne, hbefore⟩
      · rcases hold q' s' hs' with ⟨rfl, -⟩ | ⟨hne', hbefore'⟩
        · rfl
        · exact absurd heq.symm (hapart hq q' s' hne' hbefore' hq')
      · rcases hold q' s' hs' with ⟨rfl, rfl⟩ | ⟨-, hbefore'⟩
        · exact absurd heq (hapart hq' q s hne hbefore hq)
        · exact h.unique q q' s s' hbefore hbefore' hq hq' heq

/-! ### The number of connections -/

/-- The peers with a property. -/
def peersWith (n : HandshakeNode) (f : HandshakePeer → Bool) : Set PeerId :=
  {p | ∃ r, n.peers[p]? = some r ∧ f r = true}

theorem peersWith_eq (n : HandshakeNode) (f : HandshakePeer → Bool) :
    n.peersWith f = ((n.peers.toList.filter fun e => f e.2).map Prod.fst).toFinset := by
  ext p
  rw [Finset.mem_coe, List.mem_toFinset, List.mem_map]
  constructor
  · rintro ⟨r, hr, hf⟩
    exact ⟨(p, r), List.mem_filter.2 ⟨Table.mem_toList.2 hr, hf⟩, rfl⟩
  · rintro ⟨⟨q, r⟩, hmem, rfl⟩
    obtain ⟨hmem, hf⟩ := List.mem_filter.1 hmem
    exact ⟨r, Table.mem_toList.1 hmem, hf⟩

theorem peersWith_finite (n : HandshakeNode) (f : HandshakePeer → Bool) :
    (n.peersWith f).Finite := by
  rw [peersWith_eq]
  exact Finset.finite_toSet _

theorem ncard_held_le (n : HandshakeNode) :
    (n.peersWith HandshakePeer.isHeld).ncard ≤ n.getNumberOfConnections := by
  rw [peersWith_eq, Set.ncard_coe_finset]
  refine (List.toFinset_card_le _).trans_eq ?_
  rw [List.length_map]
  rfl

theorem PeerStep.held (h : PeerStep config n r r' msgs) (hheld' : r'.isHeld = true) :
    r.isHeld = true := by
  cases h with
  | quiet hheld => exact (hheld hheld').1
  | negotiated => exact hheld'
  | hello => exact hheld'
  | rejected hstate hstate' hheld => exact hheld hheld'
  | accepted hstate hstate' hconnection =>
    rw [HandshakePeer.isHeld, ← hconnection]
    exact hheld'

theorem PeerStep.isAccepted (h : PeerStep config n r r' msgs) (haccepted : r'.isAccepted = true) :
    r.isAccepted = true ∨ n.getNumberOfConnections ≤ config.maximumNumberOfConnections := by
  rw [HandshakePeer.isAccepted, Bool.and_eq_true, beq_iff_eq] at haccepted
  have hheld := h.held haccepted.1
  rw [HandshakePeer.isAccepted, hheld, Bool.true_and, beq_iff_eq]
  cases h with
  | quiet hheld hhello hid hstate => exact Or.inl (hstate.symm.trans haccepted.2)
  | negotiated => cases haccepted.2
  | hello => exact Or.inl haccepted.2
  | rejected hstate hstate' => cases hstate'.symm.trans haccepted.2
  | accepted hstate hstate' hconnection hid hfound hdone hfresh hroom => exact Or.inr hroom

/-- An event accepts a peer only when there is room. -/
theorem ncard_accepted_step (ev : HandshakeEvent Signature)
    (h : (n.peersWith HandshakePeer.isAccepted).ncard ≤ config.maximumNumberOfConnections) :
    ((n.step config ev).1.peersWith HandshakePeer.isAccepted).ncard ≤
      config.maximumNumberOfConnections := by
  have houtcome := @stepOutcome_step _ config n ev
  generalize n.step config ev = result at houtcome
  cases houtcome with
  | same hpeers =>
    rw [peersWith, hpeers]
    exact h
  | @opened n' p hnew hpeers =>
    refine (Set.ncard_le_ncard ?_ (peersWith_finite n _)).trans h
    rintro q ⟨s, hs, haccepted⟩
    change n'.peers[q]? = some s at hs
    rw [hpeers, Table.getElem?_insert] at hs
    split at hs
    · cases hs
      cases haccepted
    · exact ⟨s, hs, haccepted⟩
  | @changed n' p r r' msgs hr hstep hpeers =>
    have hold : ∀ (q : PeerId) (s : HandshakePeer), n'.peers[q]? = some s →
        q = p ∧ s = r' ∨ n.peers[q]? = some s := by
      intro q s hs
      rw [hpeers, Table.getElem?_insert] at hs
      split at hs
      · rename_i heq
        cases hs
        exact Or.inl ⟨heq, rfl⟩
      · exact Or.inr hs
    by_cases hroom : n.getNumberOfConnections ≤ config.maximumNumberOfConnections
    · -- the accepted peers were all held
      refine (Set.ncard_le_ncard ?_ (peersWith_finite n HandshakePeer.isHeld)).trans
        ((ncard_held_le n).trans hroom)
      rintro q ⟨s, hs, haccepted⟩
      have hheld : s.isHeld = true := (Bool.and_eq_true_iff.1 haccepted).1
      rcases hold q s hs with ⟨rfl, rfl⟩ | hs
      · exact ⟨r, hr, hstep.held hheld⟩
      · exact ⟨s, hs, hheld⟩
    · refine (Set.ncard_le_ncard ?_ (peersWith_finite n _)).trans h
      rintro q ⟨s, hs, haccepted⟩
      rcases hold q s hs with ⟨rfl, rfl⟩ | hs
      · exact ⟨r, hr, (hstep.isAccepted haccepted).resolve_right hroom⟩
      · exact ⟨s, hs, haccepted⟩

/-! ### Answers -/

/-- The hello message of the peer has been answered. -/
def IsAnswered (r : HandshakePeer) : Prop :=
  r.theirState = .connectionAccepted ∨ r.theirState = .connectionRejected

/-- How many answers a peer was sent. -/
def answersTo (p : PeerId) (sent : List (PeerId × HandshakeMessage)) : ℕ :=
  sent.countP fun m => m.1 == p && m.2.isAnswer

theorem PeerStep.answers (h : PeerStep config n r r' msgs) :
    msgs.countP (·.isAnswer) = 0 ∧ (IsAnswered r → IsAnswered r') ∨
      msgs.countP (·.isAnswer) = 1 ∧ ¬IsAnswered r ∧ IsAnswered r' := by
  have hopen : ∀ {state}, r.theirState = state → state = .disconnected ∨ state = .justConnected →
      ¬IsAnswered r := by
    rintro state hstate hopen (hanswered | hanswered)
    · rcases hopen with rfl | rfl <;> cases hstate.symm.trans hanswered
    · rcases hopen with rfl | rfl <;> cases hstate.symm.trans hanswered
  cases h with
  | quiet hheld hhello hid hstate hsent =>
    refine Or.inl ⟨hsent, fun hanswered => ?_⟩
    rw [IsAnswered, hstate]
    exact hanswered
  | negotiated direction sharedSecret hstate =>
    exact Or.inl ⟨rfl, fun hanswered => absurd hanswered (hopen hstate (Or.inl rfl))⟩
  | hello => exact Or.inl ⟨rfl, fun hanswered => hanswered⟩
  | rejected hstate hstate' hheld hdone hsent =>
    exact Or.inr ⟨hsent, hopen hstate (Or.inr rfl), Or.inr hstate'⟩
  | accepted hstate hstate' =>
    exact Or.inr ⟨rfl, hopen hstate (Or.inr rfl), Or.inl hstate'⟩

/-- An answer is sent once, and leaves its mark on the peer. -/
def AnsweredOnce (n : HandshakeNode) (sent : List (PeerId × HandshakeMessage)) : Prop :=
  ∀ p, answersTo p sent = 0 ∨
    answersTo p sent = 1 ∧ ∃ r, n.peers[p]? = some r ∧ IsAnswered r

theorem answersTo_append (p q : PeerId) (sent : List (PeerId × HandshakeMessage))
    (msgs : List HandshakeMessage) : answersTo q (sent ++ msgs.map fun m => (p, m)) =
      answersTo q sent + if q = p then msgs.countP (·.isAnswer) else 0 := by
  rw [answersTo, List.countP_append, List.countP_map]
  split
  · rename_i heq
    subst heq
    congr 1
    exact List.countP_congr fun m _ => by simp
  · rename_i hne
    congr 1
    exact List.countP_eq_zero.2 fun m _ => by simp [Ne.symm hne]

theorem AnsweredOnce.step {sent : List (PeerId × HandshakeMessage)} (h : AnsweredOnce n sent)
    (ev : HandshakeEvent Signature) :
    AnsweredOnce (n.step config ev).1 (sent ++ (n.step config ev).2) := by
  have houtcome := @stepOutcome_step _ config n ev
  generalize n.step config ev = result at houtcome
  cases houtcome with
  | same hpeers =>
    rw [List.append_nil, AnsweredOnce, hpeers]
    exact h
  | @opened n' p hnew hpeers =>
    rw [List.append_nil]
    intro q
    refine (h q).imp_right ?_
    rintro ⟨hone, r, hr, hanswered⟩
    refine ⟨hone, r, ?_, hanswered⟩
    have hne : q ≠ p := by
      rintro rfl
      cases hnew.symm.trans hr
    change n'.peers[q]? = some r
    rw [hpeers, Table.getElem?_insert_of_ne _ _ hne]
    exact hr
  | @changed n' p r r' msgs hr hstep hpeers =>
    intro q
    change answersTo q (sent ++ msgs.map fun m => (p, m)) = 0 ∨
      answersTo q (sent ++ msgs.map fun m => (p, m)) = 1 ∧
        ∃ r, n'.peers[q]? = some r ∧ IsAnswered r
    rw [answersTo_append, hpeers, Table.getElem?_insert]
    by_cases hq : q = p
    · subst hq
      rw [if_pos rfl, if_pos rfl]
      rcases hstep.answers with ⟨hnone, hkeep⟩ | ⟨hone, hopen, hanswered⟩
      · rw [hnone, Nat.add_zero]
        refine (h q).imp_right ?_
        rintro ⟨hsent, s, hs, hanswered⟩
        refine ⟨hsent, r', rfl, ?_⟩
        cases hr.symm.trans hs
        exact hkeep hanswered
      · rcases h q with hsent | ⟨-, s, hs, hbefore⟩
        · exact Or.inr ⟨by rw [hsent, hone], r', rfl, hanswered⟩
        · cases hr.symm.trans hs
          exact absurd hbefore hopen
    · rw [if_neg hq, if_neg hq, Nat.add_zero]
      exact h q

end HandshakeNode

/-! ### Runs -/

open HandshakeNode

variable {Signature : Type} {config : HandshakeConfig Signature} {n : HandshakeNode}
  {sent : List (PeerId × HandshakeMessage)}

theorem HandshakeRun.apart (h : HandshakeRun config n sent) : Apart config n := by
  induction h with
  | start =>
    have hnone : ∀ (p : PeerId) (r : HandshakePeer), ({} : HandshakeNode).peers[p]? ≠ some r :=
      fun p r hr => by cases (Table.getElem?_empty' p).symm.trans hr
    exact ⟨fun p r hr => absurd hr (hnone p r), fun p r hr => absurd hr (hnone p r),
      fun p _ r _ hr => absurd hr (hnone p r)⟩
  | step _ ev ih => exact ih.step ev

/-- **Accepted peers are apart**: two accepted peers whose connections are held have different
node ids, which are not that of the node, however the handshakes interleave. A peer in the middle
of another hello message is about to be disconnected. -/
theorem HandshakeRun.accepted_apart (h : HandshakeRun config n sent) {p q : PeerId}
    {r s : HandshakePeer} (hr : n.peers[p]? = some r) (hs : n.peers[q]? = some s)
    (hp : r.isAccepted = true) (hq : s.isAccepted = true) (hidle : r.helloInProgress = none)
    (hidle' : s.helloInProgress = none) :
    r.nodeId ≠ config.nodeId ∧ (r.nodeId = s.nodeId → p = q) := by
  have hholds : ∀ {r : HandshakePeer}, r.isAccepted = true → r.helloInProgress = none →
      HoldsId r := by
    intro r haccepted hidle
    rw [HandshakePeer.isAccepted, Bool.and_eq_true, beq_iff_eq] at haccepted
    exact ⟨haccepted.1, Or.inl ⟨hidle, haccepted.2⟩⟩
  exact ⟨h.apart.other p r hr (hholds hp hidle),
    h.apart.unique p q r s hr hs (hholds hp hidle) (hholds hq hidle')⟩

/-- A node that accepts two peers at most. A signature is the key that made it. -/
def twoPlaces : HandshakeConfig ℕ where
  nodeId := 9
  chainId := "chain"
  maximumNumberOfConnections := 2
  hardForkBlockNumbers := []
  signer := fun signature _ => signature

/-- Two peers whose hello messages interleave, in a small run. -/
def twoHellos : List (HandshakeEvent ℕ) :=
  [.opened 1, .opened 2, .negotiated 1 .inbound 7, .negotiated 2 .inbound 8,
    .hello 1 { nodePublicKey := 5, signedSharedSecret := 5, chainId := "chain" },
    .hello 2 { nodePublicKey := 6, signedSharedSecret := 6, chainId := "chain" },
    .answered 2 0 0, .answered 1 0 0]

/-- The node after events, with what it has sent. -/
def playHandshake (events : List (HandshakeEvent ℕ)) :
    HandshakeNode × List (PeerId × HandshakeMessage) :=
  events.foldl (fun result ev => ((result.1.step twoPlaces ev).1,
    result.2 ++ (result.1.step twoPlaces ev).2)) ({}, [])

theorem twoHellos_run :
    HandshakeRun twoPlaces (playHandshake twoHellos).1 (playHandshake twoHellos).2 :=
  (((((((HandshakeRun.start.step _).step _).step _).step _).step _).step _).step _).step _

theorem accepted_apart_twoHellos : ∃ r s : HandshakePeer,
    (playHandshake twoHellos).1.peers[(1 : PeerId)]? = some r ∧
      (playHandshake twoHellos).1.peers[(2 : PeerId)]? = some s ∧ r.nodeId ≠ 9 ∧
        r.nodeId ≠ s.nodeId := by
  have hfirst : ((playHandshake twoHellos).1.peers[(1 : PeerId)]?.any fun r =>
      r.isAccepted && r.helloInProgress == none) = true := by decide
  have hsecond : ((playHandshake twoHellos).1.peers[(2 : PeerId)]?.any fun r =>
      r.isAccepted && r.helloInProgress == none) = true := by decide
  obtain ⟨r, hr, hfirst⟩ := (Option.any_eq_true _ _).1 hfirst
  obtain ⟨s, hs, hsecond⟩ := (Option.any_eq_true _ _).1 hsecond
  rw [Bool.and_eq_true, beq_iff_eq] at hfirst hsecond
  obtain ⟨hother, hsame⟩ :=
    twoHellos_run.accepted_apart hr hs hfirst.1 hsecond.1 hfirst.2 hsecond.2
  exact ⟨r, s, hr, hs, hother, fun heq => absurd (hsame heq) (by decide)⟩

/-- **No more peers are accepted than allowed**, however many connections are opened. -/
theorem HandshakeRun.accepted_le (h : HandshakeRun config n sent) :
    {p : PeerId | ∃ r : HandshakePeer, n.peers[p]? = some r ∧ r.isAccepted = true}.ncard ≤
      config.maximumNumberOfConnections := by
  induction h with
  | start =>
    have hempty : ({} : HandshakeNode).peersWith HandshakePeer.isAccepted = ∅ := by
      refine Set.eq_empty_iff_forall_notMem.2 ?_
      rintro p ⟨r, hr, -⟩
      cases (Table.getElem?_empty' p).symm.trans hr
    exact (congrArg Set.ncard hempty).trans_le (Set.ncard_empty _ ▸ Nat.zero_le _)
  | step _ ev ih => exact ncard_accepted_step ev ih

theorem accepted_le_twoHellos :
    {p : PeerId | ∃ r : HandshakePeer, (playHandshake twoHellos).1.peers[p]? = some r ∧
      r.isAccepted = true}.ncard ≤ 2 :=
  twoHellos_run.accepted_le

/-- **A peer is answered once**: it is accepted or rejected at most once, whatever it sends. -/
theorem HandshakeRun.answered_once (h : HandshakeRun config n sent) (p : PeerId) :
    answersTo p sent ≤ 1 := by
  have honce : AnsweredOnce n sent := by
    induction h with
    | start => exact fun _ => Or.inl rfl
    | step _ ev ih => exact ih.step ev
  rcases honce p with hnone | ⟨hone, -⟩
  · exact hnone.trans_le (Nat.zero_le 1)
  · exact hone.le

theorem answered_once_twoHellos : answersTo 2 (playHandshake twoHellos).2 ≤ 1 :=
  twoHellos_run.answered_once 2

end LarkX
