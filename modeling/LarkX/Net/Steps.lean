import LarkX.Net.Node
import LarkX.Chain.History

/-!
# Runs of the node

What can happen to a node (`NodeEvent`), in any order: messages of its peers, answers of its
client, its own loops, time-outs and lost connections. `Node.RunOf` is a run from a fresh node
over the genesis state, with the moments it has gone through; the chain database may be filled
before and in between by re-indexing.

`OnPeers` are the handlers that only change the state of the peers. What does not depend on it
is the same after any of them (`OnPeers.keeps`).
-/

namespace LarkX

open NodeAction

/-! ### Events -/

/-- What happens to a node. A message comes with the peer that sent it. -/
inductive NodeEvent
  | connected (p : PeerId) (inbound : Bool)
  | handshakeDone (p : PeerId)
  /-- The node ends a connection for a reason that is not modelled: a wrong version, a hard
  fork the peer does not know, a list of allowed peers. -/
  | disconnected (p : PeerId)
  | closingConnection (p : PeerId)
  | connectionClosed (p : PeerId)
  /-- `terminate_inactive_connections_loop`, with the peers it finds inactive. -/
  | inactive (gently forcibly : List PeerId)
  | itemIdsInventory (p : PeerId) (items : List ItemId)
  | inventoryExpires (p : PeerId) (item : ItemId)
  /-- `fetch_items_loop` requests an item that a peer has advertised. -/
  | itemRequested (p : PeerId) (item : ItemId)
  | fetchSyncItems
  | fetchBlockchainItemIds (p : PeerId) (itemType : ℕ) (synopsis : List BlockId)
  | blockchainItemIdsInventory (p : PeerId) (itemType remaining : ℕ) (ids : List BlockId)
  | fetchItems (p : PeerId) (itemType : ℕ) (items : List ℕ)
  | itemNotAvailable (p : PeerId) (item : ItemId)
  | blockMessage (p : PeerId) (m : BlockMessage) (messageHash : MessageHash)
  | processBacklog
  | clientHandles (k : ℕ)
  | callReturns (k : ℕ)
  | produced (b : FullBlock) (messageHash : MessageHash)
  | startSynchronizing
  | syncFrom
  | cacheExpires (messageHash : MessageHash)
  | simulateDisconnect (state : Bool)
  /-- The delegate loop of the client starts, which verifies signatures from then on. -/
  | delegateLoop
  /-- The chain database gets a block from its own files. -/
  | reindexed (b : FullBlock)

namespace Node

/-- There is a connection to the peer whose end has not been handled yet, in a state in `p`. -/
def hasOpen (n : Node) (id : PeerId) (p : Peer → Bool) : Bool :=
  match n.peers[id]? with
  | some r => !r.closed && p r
  | none => false

end Node

namespace NodeEvent

/-- The event can happen. -/
def enabled (crypto : Crypto) (wall : ℕ) (n : Node) : NodeEvent → Bool
  | connected p _ => n.peers[p]?.isNone
  | handshakeDone p => n.hasOpen p fun r => r.connection == .handshaking
  | closingConnection p | connectionClosed p | itemIdsInventory p _
  | fetchBlockchainItemIds p _ _ | blockchainItemIdsInventory p _ _ _ | fetchItems p _ _
  | itemNotAvailable p _ => n.hasOpen p fun _ => true
  | blockMessage p m _ => n.hasOpen p (fun _ => true) && decide m.block.InRange
  | itemRequested p item =>
    n.hasOpen p fun r => r.isActive && r.idle && r.inventoryPeerAdvertisedToUs.contains item
  | clientHandles k =>
    match n.handleMessageCalls[k]? with
    | some call => call.result.isNone &&
      -- a call that does not end is never answered
      (match (Action.handleMessage crypto wall n.simulateDisconnect call.message
        call.syncMode).run n.chainDb with
      | .ok _ _ => true
      | .error e _ => e ≠ .hang)
    | none => false
  | callReturns k =>
    match n.handleMessageCalls[k]? with
    | some call => call.result.isSome
    | none => false
  | produced b _ => decide b.InRange
  | reindexed b => decide b.InRange && n.chainDb.terminates crypto wall b
  | _ => true

/-- What the node does. -/
def action (crypto : Crypto) (wall : ℕ) : NodeEvent → NodeAction Unit
  | connected p inbound => modify fun n => { n with peers := n.peers.insert p { inbound } }
  | handshakeDone p => activatePeer crypto p
  | disconnected p => disconnectFromPeer p
  | closingConnection p => onClosingConnectionMessage p
  | connectionClosed p => onConnectionClosed p
  | inactive gently forcibly => terminateInactiveConnections gently forcibly
  | itemIdsInventory p items => modifyPeer p fun r => { r with
      inventoryPeerAdvertisedToUs :=
        items.foldl (fun known item => known.insert item ()) r.inventoryPeerAdvertisedToUs }
  | inventoryExpires p item => modifyPeer p fun r => { r with
      inventoryPeerAdvertisedToUs := r.inventoryPeerAdvertisedToUs.erase item }
  | itemRequested p item => modifyPeer p fun r => { r with
      itemsRequestedFromPeer := r.itemsRequestedFromPeer.insert item () }
  | .fetchSyncItems => NodeAction.fetchSyncItems
  | fetchBlockchainItemIds p itemType synopsis =>
    onFetchBlockchainItemIdsMessage crypto p itemType synopsis
  | blockchainItemIdsInventory p itemType remaining ids =>
    onBlockchainItemIdsInventoryMessage crypto wall p itemType remaining ids
  | fetchItems p itemType items => onFetchItemsMessage crypto p itemType items
  | itemNotAvailable p item => onItemNotAvailableMessage p item
  | blockMessage p m messageHash => processBlockMessage p m messageHash
  | processBacklog => processBacklogOfSyncBlocks
  | .clientHandles k => do
    if let some call := (← get).handleMessageCalls[k]? then
      NodeAction.clientHandles crypto wall k call
  | .callReturns k => do
    if let some call := (← get).handleMessageCalls[k]? then
      if let some result := call.result then NodeAction.callReturns crypto k call result
  | produced b messageHash => produceBlock crypto wall b messageHash
  | .startSynchronizing => NodeAction.startSynchronizing crypto
  | .syncFrom => NodeAction.syncFrom
  | cacheExpires messageHash =>
    modify fun n => { n with messageCache := n.messageCache.erase messageHash }
  | simulateDisconnect state => modify fun n => { n with simulateDisconnect := state }
  | delegateLoop => modify fun n => { n with chainDb := n.chainDb.verifySignatures }
  | reindexed b => modify fun n => { n with chainDb := n.chainDb.pushed crypto wall b }

end NodeEvent
/-! ### Runs -/

namespace Node

variable (crypto : Crypto) (config : GenesisBlockConfig)

/-- A handler runs to its end, or throws. -/
inductive Step (wall : ℕ) (e : NodeEvent) (n n' : Node) : Prop
  | returned (enabled : e.enabled crypto wall n = true)
      (h : (e.action crypto wall).run n = .ok () n')
  | threw {error : Error} (enabled : e.enabled crypto wall n = true) (ne : error ≠ .hang)
      (h : (e.action crypto wall).run n = .error error n')

/-- A step of a run: the state before, the local clock and what happened. -/
structure Moment where
  node : Node
  wall : ℕ
  event : NodeEvent

/-- The moments that satisfy a condition on the past and the moment. -/
abbrev Condition := List Moment → Moment → Prop

/-- A run from a fresh node whose moments meet a condition: the moments, the last one first,
and the state. -/
inductive RunOf (K : Condition) : List Moment → Node → Prop
  | genesis {db : Database} (h : initializeGenesis crypto config = .ok db) :
      RunOf K [] { chainDb := db }
  | step {past : List Moment} {n n' : Node} (wall : ℕ) (e : NodeEvent) (hrun : RunOf K past n)
      (hK : K past ⟨n, wall, e⟩) (h : Step crypto wall e n n') :
      RunOf K (⟨n, wall, e⟩ :: past) n'

/-- The state after a moment, however the handler ends. -/
def Moment.after (m : Moment) : Node :=
  match (m.event.action crypto m.wall).run m.node with
  | .ok _ n' => n'
  | .error _ n' => n'

/-- The event can happen and its handler ends. -/
def Moment.happens (m : Moment) : Bool :=
  m.event.enabled crypto m.wall m.node &&
    match (m.event.action crypto m.wall).run m.node with
    | .ok _ _ => true
    | .error e _ => e ≠ .hang

/-- A script is played: the moments, the last one first, and the state at its end. -/
def play (past : List Moment) (n : Node) : List (ℕ × NodeEvent) → List Moment × Node
  | [] => (past, n)
  | (wall, e) :: script =>
    play (⟨n, wall, e⟩ :: past) (Moment.after crypto ⟨n, wall, e⟩) script

/-- Every event of a script can happen, in a moment that meets a condition. -/
def plays (k : List Moment → Moment → Bool) (past : List Moment) (n : Node) :
    List (ℕ × NodeEvent) → Bool
  | [] => true
  | (wall, e) :: script => Moment.happens crypto ⟨n, wall, e⟩ && k past ⟨n, wall, e⟩ &&
    plays k (⟨n, wall, e⟩ :: past) (Moment.after crypto ⟨n, wall, e⟩) script

variable {crypto config} {K : Condition} {past : List Moment} {n n' : Node}

theorem Moment.step {m : Moment} (h : m.happens crypto = true) :
    Step crypto m.wall m.event m.node (m.after crypto) := by
  unfold Moment.happens at h
  rw [Bool.and_eq_true] at h
  obtain ⟨henabled, hends⟩ := h
  unfold Moment.after
  split
  · rename_i n' hrun
    exact .returned henabled hrun
  · rename_i e n' hrun
    rw [hrun] at hends
    exact .threw henabled (of_decide_eq_true hends) hrun

theorem RunOf.play {k : List Moment → Moment → Bool} (hk : ∀ past m, k past m = true → K past m)
    {script : List (ℕ × NodeEvent)} (hrun : RunOf crypto config K past n)
    (h : plays crypto k past n script = true) :
    RunOf crypto config K (Node.play crypto past n script).1
      (Node.play crypto past n script).2 := by
  induction script generalizing past n with
  | nil => exact hrun
  | cons first script ih =>
    obtain ⟨wall, e⟩ := first
    rw [plays, Bool.and_eq_true, Bool.and_eq_true] at h
    obtain ⟨⟨hhappens, hcondition⟩, hrest⟩ := h
    exact ih (.step wall e hrun (hk _ _ hcondition) (Moment.step hhappens)) hrest

/-- **Invariant rule.** What holds at the start and is kept by every step that meets the
condition holds in every state of a run. -/
theorem RunOf.invariant {I : List Moment → Node → Prop}
    (genesis : ∀ db, initializeGenesis crypto config = .ok db → I [] { chainDb := db })
    (step : ∀ past n wall e n', I past n → K past ⟨n, wall, e⟩ → Step crypto wall e n n' →
      I (⟨n, wall, e⟩ :: past) n') (h : RunOf crypto config K past n) : I past n := by
  induction h with
  | genesis h => exact genesis _ h
  | step wall e _ hK h ih => exact step _ _ wall e _ ih hK h

/-- What a handler follows holds of a step. -/
theorem Step.follows {wall : ℕ} {e : NodeEvent} {R : Node → Node → Prop}
    (h : Step crypto wall e n n') (hR : Follows R (e.action crypto wall)) : R n n' := by
  cases h with
  | returned _ hrun => exact (hR n).of_ok hrun
  | threw _ _ hrun => exact (hR n).of_error hrun

theorem Step.enabled {wall : ℕ} {e : NodeEvent} (h : Step crypto wall e n n') :
    e.enabled crypto wall n = true := by
  cases h with
  | returned henabled _ => exact henabled
  | threw henabled _ _ => exact henabled

/-- A property of the state after a step, from that of its handler. -/
theorem Step.outcome {wall : ℕ} {e : NodeEvent} {Q : Node → Prop} (h : Step crypto wall e n n')
    (hQ : Outcome (e.action crypto wall) n (fun _ => Q) (fun _ => Q)) : Q n' := by
  cases h with
  | returned _ hrun => exact hQ.of_ok hrun
  | threw _ _ hrun => exact hQ.of_error hrun

/-- A run without a condition. -/
theorem RunOf.any (h : RunOf crypto config K past n) :
    RunOf crypto config (fun _ _ => True) past n := by
  induction h with
  | genesis h => exact .genesis h
  | step wall e _ _ h ih => exact .step wall e ih trivial h

end Node

/-! ### Parts a handler leaves alone -/

namespace NodeAction

open Node

variable {α β γ : Type} {π : Node → γ} {crypto : Crypto}

/-- A part of the node is the same. -/
abbrev SamePart (π : Node → γ) : Node → Node → Prop :=
  fun n n' => π n' = π n

instance : IsTrans Node (SamePart π) :=
  ⟨fun _ _ _ h h' => h'.trans h⟩

/-- A handler that leaves a part of the node alone, however it ends. -/
abbrev Keeps (π : Node → γ) (x : NodeAction α) : Prop :=
  Follows (SamePart π) x

theorem keeps_pure (a : α) : Keeps π (pure a : NodeAction α) :=
  fun _ => rfl

theorem keeps_get : Keeps π (get : NodeAction Node) :=
  fun _ => rfl

theorem keeps_throw (e : Error) : Keeps π (throw e : NodeAction α) :=
  fun _ => rfl

theorem keeps_lift (x : Fallible α) : Keeps π (lift x) := by
  cases x with
  | ok a => exact keeps_pure a
  | error e => exact keeps_throw e

theorem outcome_lift {x : Fallible α} {n : Node} {Q : α → Node → Prop} {E : Error → Node → Prop} :
    Outcome (lift x) n Q E ↔ (∀ a, x = .ok a → Q a n) ∧ ∀ e, x = .error e → E e n := by
  cases x with
  | ok a =>
    refine ⟨fun h => ⟨?_, ?_⟩, fun h => h.1 a rfl⟩
    · rintro _ ⟨⟩
      exact h
    · rintro _ ⟨⟩
  | error e =>
    refine ⟨fun h => ⟨?_, ?_⟩, fun h => h.2 e rfl⟩
    · rintro _ ⟨⟩
    · rintro _ ⟨⟩
      exact h

/-- A peer is read. -/
theorem outcome_getPeer {p : PeerId} {n : Node} {Q : Peer → Node → Prop}
    {E : Error → Node → Prop} (hQ : ∀ r, n.peers[p]? = some r → Q r n)
    (hE : ∀ e, n.peers[p]? = none → E e n) : Outcome (getPeer p) n Q E := by
  rw [getPeer, Outcome.bind_iff, Outcome.get_iff, outcome_lift]
  refine ⟨fun r hr => hQ r (orThrow_eq_ok.1 hr), fun e he => hE e ?_⟩
  cases hp : n.peers[p]? with
  | none => rfl
  | some r =>
    rw [hp] at he
    cases he

theorem keeps_modify {f : Node → Node} (h : ∀ n, π (f n) = π n) :
    Keeps π (modify f : NodeAction Unit) :=
  h

theorem keeps_forM {f : β → NodeAction Unit} (h : ∀ b, Keeps π (f b)) (l : List β) :
    Keeps π (l.forM f) := by
  refine fun n => Outcome.forM (I := fun n' => π n' = π n) (fun b n' _ hn' => ?_) rfl
  exact (h b n').mono (fun _ _ h => h.trans hn') fun _ _ h => h.trans hn'

theorem keeps_getPeer (p : PeerId) : Keeps π (getPeer p) :=
  keeps_get.bind fun _ => keeps_lift _

/-- What a node is apart from its peers. -/
def apart (n : Node) : Node :=
  { n with peers := ∅ }

/-- A handler that only changes the state of the peers. -/
abbrev OnPeers (x : NodeAction α) : Prop :=
  Keeps apart x

/-- What does not depend on the peers is left alone by a handler that only changes those. -/
theorem OnPeers.keeps {x : NodeAction α} (h : OnPeers x) (hπ : ∀ n, π (apart n) = π n) :
    Keeps π x :=
  Follows.mono h fun n n' hn => by
    have hn' : apart n' = apart n := hn
    change π n' = π n
    rw [← hπ n', ← hπ n, hn']

theorem onPeers_modifyPeer (p : PeerId) (f : Peer → Peer) : OnPeers (modifyPeer p f) :=
  keeps_modify fun _ => rfl

theorem onPeers_forActive (f : Peer → Peer) : OnPeers (forActive f) :=
  keeps_modify fun _ => rfl

theorem onPeers_disconnectFromPeer (p : PeerId) : OnPeers (disconnectFromPeer p) :=
  onPeers_modifyPeer _ _

theorem onPeers_terminateInactiveConnections (gently forcibly : List PeerId) :
    OnPeers (terminateInactiveConnections gently forcibly) :=
  (keeps_forM onPeers_disconnectFromPeer _).bind fun _ =>
    keeps_forM (fun _ => onPeers_modifyPeer _ _) _

theorem onPeers_fetchNextBatchOfItemIdsFromPeer (p : PeerId) :
    OnPeers (fetchNextBatchOfItemIdsFromPeer crypto p) :=
  (keeps_getPeer p).bind fun _ => keeps_get.bind fun _ => (keeps_lift _).bind fun _ =>
    onPeers_modifyPeer _ _

theorem onPeers_startSynchronizingWithPeer (p : PeerId) :
    OnPeers (startSynchronizingWithPeer crypto p) :=
  keeps_get.bind fun _ => (onPeers_modifyPeer _ _).bind fun _ =>
    onPeers_fetchNextBatchOfItemIdsFromPeer p

theorem onPeers_startSynchronizing : OnPeers (startSynchronizing crypto) :=
  keeps_get.bind fun _ => keeps_forM onPeers_startSynchronizingWithPeer _

theorem onPeers_activatePeer (p : PeerId) : OnPeers (activatePeer crypto p) :=
  (onPeers_modifyPeer _ _).bind fun _ => onPeers_startSynchronizingWithPeer p

theorem onPeers_restartIfBehind (p : PeerId) (r : Peer) (itemType : ℕ) (synopsis : List BlockId) :
    OnPeers (restartIfBehind crypto p r itemType synopsis) := by
  refine keeps_get.bind fun n => ?_
  split
  · exact onPeers_startSynchronizingWithPeer p
  · exact keeps_pure _

theorem onPeers_afterReply (p : PeerId) (r : Peer) (hasAllOurs : Bool) :
    OnPeers (afterReply crypto p r hasAllOurs) := by
  unfold afterReply
  split
  · exact onPeers_disconnectFromPeer p
  · split
    · exact onPeers_activatePeer p
    · exact keeps_pure _

theorem onPeers_onFetchBlockchainItemIdsMessage (p : PeerId) (itemType : ℕ)
    (synopsis : List BlockId) :
    OnPeers (onFetchBlockchainItemIdsMessage crypto p itemType synopsis) :=
  keeps_get.bind fun _ => (keeps_lift _).bind fun _ => (keeps_getPeer p).bind fun _ =>
    (onPeers_modifyPeer _ _).bind fun _ => (onPeers_restartIfBehind _ _ _ _).bind fun _ =>
      onPeers_afterReply _ _ _

theorem onPeers_onFetchItemsMessage (p : PeerId) (itemType : ℕ) (items : List ℕ) :
    OnPeers (onFetchItemsMessage crypto p itemType items) := by
  unfold onFetchItemsMessage
  split
  · refine keeps_get.bind fun n => (keeps_lift _).bind fun sent => ?_
    split
    · exact (onPeers_modifyPeer _ _).bind fun _ => (keeps_lift _).bind fun _ =>
        onPeers_modifyPeer _ _
    · exact keeps_pure _
  · exact keeps_pure _

theorem onPeers_flushSeen (p : PeerId) (itemType : ℕ) (ids : List BlockId) :
    OnPeers (flushSeen p itemType ids) := by
  refine keeps_get.bind fun n => ?_
  split
  · exact keeps_pure _
  · exact (onPeers_modifyPeer _ _).bind fun _ => keeps_pure _

theorem onPeers_followFork (p : PeerId) (front : BlockId) : OnPeers (followFork p front) :=
  keeps_get.bind fun _ => (onPeers_modifyPeer _ _).bind fun _ => (keeps_lift _).bind fun _ =>
    onPeers_modifyPeer _ _

theorem onPeers_alignItems (p : PeerId) (itemType : ℕ) (ids : List BlockId) :
    OnPeers (alignItems p itemType ids) := by
  cases ids with
  | nil => exact keeps_pure _
  | cons front rest =>
    refine (keeps_getPeer p).bind fun r => ?_
    split
    · exact onPeers_flushSeen p itemType _
    · split
      · exact (onPeers_followFork p front).bind fun _ => keeps_pure _
      · exact (onPeers_modifyPeer _ _).bind fun _ => keeps_pure _

theorem onPeers_onBlockchainItemIdsInventoryMessage (wall : ℕ) (p : PeerId)
    (itemType remaining : ℕ) (ids : List BlockId) :
    OnPeers (onBlockchainItemIdsInventoryMessage crypto wall p itemType remaining ids) := by
  refine (keeps_getPeer p).bind fun r => ?_
  split
  · refine (onPeers_modifyPeer _ _).bind fun _ => keeps_get.bind fun n => ?_
    dsimp only
    split
    · exact onPeers_modifyPeer _ _
    · refine (onPeers_modifyPeer _ _).bind fun _ => (onPeers_alignItems p itemType ids).bind
        fun rest => (onPeers_modifyPeer _ _).bind fun _ => (keeps_getPeer p).bind fun r => ?_
      split
      · exact onPeers_disconnectFromPeer p
      · split
        · exact onPeers_fetchNextBatchOfItemIdsFromPeer p
        · exact keeps_pure _
  · exact keeps_pure _

theorem onPeers_onItemNotAvailableMessage (p : PeerId) (item : ItemId) :
    OnPeers (onItemNotAvailableMessage p item) := by
  refine (keeps_getPeer p).bind fun r => ?_
  split
  · exact onPeers_modifyPeer _ _
  · split
    · refine (onPeers_modifyPeer _ _).bind fun _ => ?_
      split
      · exact onPeers_modifyPeer _ _
      · exact onPeers_disconnectFromPeer p
    · exact keeps_pure _

theorem onPeers_rejectSyncBlock (m : BlockMessage) (e : Error) :
    OnPeers (rejectSyncBlock m e) := by
  refine keeps_get.bind fun n => ?_
  split
  · exact onPeers_forActive _
  · exact keeps_forM onPeers_disconnectFromPeer _

theorem onPeers_rejectBlock (m : BlockMessage) : OnPeers (rejectBlock m) :=
  keeps_get.bind fun _ => keeps_forM onPeers_disconnectFromPeer _

/-! ### What a handler does to each peer -/

/-- Every peer is related to what it was before, and no other node is known. -/
def ByPeer (R : Peer → Peer → Prop) (n n' : Node) : Prop :=
  ∀ p : PeerId, Option.Rel R n.peers[p]? n'.peers[p]?

section ByPeer

variable {R : Peer → Peer → Prop}

theorem ByPeer.refl (hR : ∀ r, R r r) (n : Node) : ByPeer R n n := by
  intro p
  cases n.peers[p]? with
  | none => exact .none
  | some r => exact .some (hR r)

theorem ByPeer.trans [IsTrans Peer R] {n₁ n₂ n₃ : Node} (h : ByPeer R n₁ n₂)
    (h' : ByPeer R n₂ n₃) : ByPeer R n₁ n₃ := by
  intro p
  have h₁ := h p
  have h₂ := h' p
  cases hp : n₂.peers[p]? with
  | none =>
    rw [hp] at h₁ h₂
    cases hp₁ : n₁.peers[p]? <;> cases hp₃ : n₃.peers[p]? <;> rw [hp₁] at h₁ <;> rw [hp₃] at h₂
    · exact .none
    · cases h₂
    · cases h₁
    · cases h₁
  | some r =>
    rw [hp] at h₁ h₂
    cases hp₁ : n₁.peers[p]? <;> cases hp₃ : n₃.peers[p]? <;> rw [hp₁] at h₁ <;> rw [hp₃] at h₂
    · cases h₁
    · cases h₁
    · cases h₂
    · cases h₁ with
      | some h₁ =>
        cases h₂ with
        | some h₂ => exact .some (IsTrans.trans _ _ _ h₁ h₂)

instance [IsTrans Peer R] : IsTrans Node (ByPeer R) :=
  ⟨fun _ _ _ => ByPeer.trans⟩

/-- What a peer was before. -/
theorem ByPeer.before {n n' : Node} (h : ByPeer R n n') {p : PeerId} {r' : Peer}
    (hr' : n'.peers[p]? = some r') : ∃ r, n.peers[p]? = some r ∧ R r r' := by
  have hp := h p
  rw [hr'] at hp
  cases hr : n.peers[p]? with
  | none =>
    rw [hr] at hp
    cases hp
  | some r =>
    rw [hr] at hp
    cases hp with
    | some hR => exact ⟨r, rfl, hR⟩

/-- What a peer has become. -/
theorem ByPeer.after {n n' : Node} (h : ByPeer R n n') {p : PeerId} {r : Peer}
    (hr : n.peers[p]? = some r) : ∃ r', n'.peers[p]? = some r' ∧ R r r' := by
  have hp := h p
  rw [hr] at hp
  cases hr' : n'.peers[p]? with
  | none =>
    rw [hr'] at hp
    cases hp
  | some r' =>
    rw [hr'] at hp
    cases hp with
    | some hR => exact ⟨r', rfl, hR⟩

theorem byPeer_of_peers (hR : ∀ r, R r r) {n n' : Node} (h : n'.peers = n.peers) :
    ByPeer R n n' := by
  intro p
  rw [h]
  exact ByPeer.refl hR n p

theorem getElem?_modify (t : Table PeerId Peer) (p p' : PeerId) (f : Peer → Peer) :
    (t.modify p f)[p']? = if p' = p then (t[p]?).map f else t[p']? := by
  rw [Std.ExtTreeMap.getElem?_modify]
  simp only [Table.compare_eq_iff]

theorem byPeer_modifyPeer {p : PeerId} {f : Peer → Peer} {n : Node} (hR : ∀ r, R r r)
    (h : ∀ r, n.peers[p]? = some r → R r (f r)) :
    ByPeer R n { n with peers := n.peers.modify p f } := by
  intro p'
  change Option.Rel R n.peers[p']? (n.peers.modify p f)[p']?
  rw [getElem?_modify]
  split
  · rename_i heq
    rw [heq]
    cases hp : n.peers[p]? with
    | none => exact .none
    | some r => exact .some (h r hp)
  · exact ByPeer.refl hR n p'

theorem byPeer_forActive {f : Peer → Peer} {n : Node} (hR : ∀ r, R r r) (h : ∀ r, R r (f r)) :
    ByPeer R n { n with peers := n.peers.map fun _ r => if r.isActive then f r else r } := by
  intro p
  change Option.Rel R n.peers[p]? (n.peers.map fun _ r => if r.isActive then f r else r)[p]?
  rw [Std.ExtTreeMap.getElem?_map]
  cases hp : n.peers[p]? with
  | none => exact .none
  | some r =>
    refine .some ?_
    change R r (if r.isActive then f r else r)
    split
    · exact h r
    · exact hR r

end ByPeer

/-- The connection may be left, and the requests and the position are the same. -/
structure Quiet (r r' : Peer) : Prop where
  closed : r'.closed = r.closed
  active : r'.connection = .active → r.connection = .active
  syncItems : r'.syncItemsRequestedFromPeer = r.syncItemsRequestedFromPeer
  lastBlock : r'.lastBlockDelegateHasSeen = r.lastBlockDelegateHasSeen
  lastNumber : r'.lastBlockNumberDelegateHasSeen = r.lastBlockNumberDelegateHasSeen
  idsToGet : r'.idsOfItemsToGet = r.idsOfItemsToGet
  beingProcessed : r'.idsOfItemsBeingProcessed = r.idsOfItemsBeingProcessed

theorem quiet_leave {c : ConnectionList} (hc : c ≠ .active) (r : Peer) (w : Bool) :
    Quiet r { r with connection := c, weHaveRequestedClose := w } :=
  ⟨rfl, fun h => absurd h hc, rfl, rfl, rfl, rfl, rfl⟩

/-- A relation on a peer that the handlers which only talk about connections and ids follow: it
allows for quiet changes, for an open connection to become active and for the synchronization to
start again. -/
structure Tolerant (R : Peer → Peer → Prop) : Prop where
  trans : ∀ r₁ r₂ r₃, R r₁ r₂ → R r₂ r₃ → R r₁ r₃
  quiet : ∀ r r', Quiet r r' → R r r'
  activate : ∀ r : Peer, r.closed = false → R r { r with connection := .active }
  reset : ∀ t r, R r (resetPosition t r)
  closed : ∀ r r', R r r' → r'.closed = r.closed

namespace Tolerant

variable {R : Peer → Peer → Prop} {crypto : Crypto}

theorem refl (hR : Tolerant R) (r : Peer) : R r r :=
  hR.quiet r r ⟨rfl, fun h => h, rfl, rfl, rfl, rfl, rfl⟩

theorem isTrans (hR : Tolerant R) : IsTrans Peer R :=
  ⟨hR.trans⟩

/-- A handler that leaves the peers alone. -/
theorem keeps (hR : Tolerant R) {x : NodeAction α} (h : Keeps Node.peers x) :
    Follows (ByPeer R) x :=
  h.mono fun _ _ => byPeer_of_peers hR.refl

theorem modifyPeer (hR : Tolerant R) (p : PeerId) {f : Peer → Peer} (h : ∀ r, R r (f r)) :
    Follows (ByPeer R) (modifyPeer p f) :=
  Follows.modify fun _ => byPeer_modifyPeer hR.refl fun r _ => h r

theorem forActive (hR : Tolerant R) {f : Peer → Peer} (h : ∀ r, R r (f r)) :
    Follows (ByPeer R) (forActive f) :=
  Follows.modify fun _ => byPeer_forActive hR.refl h

theorem forM (hR : Tolerant R) {f : β → NodeAction Unit} (h : ∀ b, Follows (ByPeer R) (f b))
    (l : List β) : Follows (ByPeer R) (l.forM f) := by
  have := hR.isTrans
  exact fun n => Outcome.forM (I := ByPeer R n) (fun b _ _ h₁ => (h b).after h₁)
    (ByPeer.refl hR.refl n)

theorem disconnectFromPeer (hR : Tolerant R) (p : PeerId) :
    Follows (ByPeer R) (disconnectFromPeer p) :=
  hR.modifyPeer p fun r => hR.quiet _ _ (quiet_leave (by decide) r _)

theorem terminateInactiveConnections (hR : Tolerant R) (gently forcibly : List PeerId) :
    Follows (ByPeer R) (terminateInactiveConnections gently forcibly) := by
  have := hR.isTrans
  refine (hR.forM hR.disconnectFromPeer gently).bind fun _ => hR.forM (fun p => ?_) forcibly
  exact hR.modifyPeer p fun r => hR.quiet _ _ (quiet_leave (by decide) r r.weHaveRequestedClose)

theorem fetchNextBatchOfItemIdsFromPeer (hR : Tolerant R) (p : PeerId) :
    Follows (ByPeer R) (fetchNextBatchOfItemIdsFromPeer crypto p) := by
  have := hR.isTrans
  refine (hR.keeps (keeps_getPeer p)).bind fun _ => (hR.keeps keeps_get).bind fun _ =>
    (hR.keeps (keeps_lift _)).bind fun _ => hR.modifyPeer p fun r => ?_
  exact hR.quiet _ _ ⟨rfl, fun h => h, rfl, rfl, rfl, rfl, rfl⟩

theorem startSynchronizingWithPeer (hR : Tolerant R) (p : PeerId) :
    Follows (ByPeer R) (startSynchronizingWithPeer crypto p) := by
  have := hR.isTrans
  exact (hR.keeps keeps_get).bind fun _ => (hR.modifyPeer p (hR.reset _)).bind fun _ =>
    hR.fetchNextBatchOfItemIdsFromPeer p

theorem startSynchronizing (hR : Tolerant R) :
    Follows (ByPeer R) (startSynchronizing crypto) := by
  have := hR.isTrans
  exact (hR.keeps keeps_get).bind fun _ => hR.forM hR.startSynchronizingWithPeer _

/-- An open connection becomes active. -/
theorem activatePeer (hR : Tolerant R) {p : PeerId} {n : Node}
    (hopen : ∀ r, n.peers[p]? = some r → r.closed = false) :
    Outcome (activatePeer crypto p) n (fun _ => ByPeer R n) (fun _ => ByPeer R n) := by
  have := hR.isTrans
  rw [NodeAction.activatePeer, Outcome.bind_iff, NodeAction.modifyPeer, Outcome.modify_iff]
  have hactive := byPeer_modifyPeer (p := p) (f := fun r => { r with connection := .active })
    hR.refl fun r hr => hR.activate r (hopen r hr)
  exact (hR.startSynchronizingWithPeer p).after hactive

theorem onFetchBlockchainItemIdsMessage (hR : Tolerant R) {p : PeerId} (itemType : ℕ)
    (synopsis : List BlockId) {n : Node}
    (hopen : ∀ r, n.peers[p]? = some r → r.closed = false) :
    Outcome (onFetchBlockchainItemIdsMessage crypto p itemType synopsis) n
      (fun _ => ByPeer R n) (fun _ => ByPeer R n) := by
  have := hR.isTrans
  rw [NodeAction.onFetchBlockchainItemIdsMessage, Outcome.bind_iff, Outcome.get_iff,
    Outcome.bind_iff, outcome_lift]
  refine ⟨fun answer _ => ?_, fun _ _ => ByPeer.refl hR.refl n⟩
  rw [Outcome.bind_iff]
  refine outcome_getPeer (fun r hr => ?_) fun _ _ => ByPeer.refl hR.refl n
  have hrestart : Follows (ByPeer R) (restartIfBehind crypto p r itemType synopsis) := by
    refine (hR.keeps keeps_get).bind fun n => ?_
    split
    · exact hR.startSynchronizingWithPeer p
    · exact hR.keeps (keeps_pure _)
  have hneeds : ∀ needs, Follows (ByPeer R)
      (NodeAction.modifyPeer p fun r => { r with peerNeedsSyncItemsFromUs := needs }) :=
    fun needs => hR.modifyPeer p fun r => hR.quiet _ _ ⟨rfl, fun h => h, rfl, rfl, rfl, rfl, rfl⟩
  dsimp only
  rw [Outcome.bind_iff]
  refine (hneeds _ n).mono (fun _ n₁ h₁ => ?_) fun _ _ h => h
  rw [Outcome.bind_iff]
  refine (hrestart.after h₁).mono (fun _ n₂ h₂ => ?_) fun _ _ h => h
  -- the connection is still open when it becomes active
  have hopen₂ : ∀ r₂, n₂.peers[p]? = some r₂ → r₂.closed = false := by
    intro r₂ hr₂
    obtain ⟨r₀, hr₀, hR₂⟩ := h₂.before hr₂
    rw [hR.closed _ _ hR₂]
    exact hopen r₀ hr₀
  unfold afterReply
  split
  · exact (hR.disconnectFromPeer p).after h₂
  · split
    · exact (hR.activatePeer hopen₂).mono (fun _ _ h => h₂.trans h) fun _ _ h => h₂.trans h
    · exact h₂

theorem rejectSyncBlock (hR : Tolerant R) (m : BlockMessage) (e : Error) :
    Follows (ByPeer R) (rejectSyncBlock m e) := by
  have := hR.isTrans
  refine (hR.keeps keeps_get).bind fun n => ?_
  split
  · refine hR.forActive fun r => ?_
    split
    · exact hR.quiet _ _ ⟨rfl, fun h => h, rfl, rfl, rfl, rfl, rfl⟩
    · exact hR.refl r
  · exact hR.forM hR.disconnectFromPeer _

theorem rejectBlock (hR : Tolerant R) (m : BlockMessage) : Follows (ByPeer R) (rejectBlock m) := by
  have := hR.isTrans
  exact (hR.keeps keeps_get).bind fun _ => hR.forM hR.disconnectFromPeer _

end Tolerant

end NodeAction

end LarkX
