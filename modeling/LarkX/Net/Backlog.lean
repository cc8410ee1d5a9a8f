import LarkX.Net.Steps

/-!
# The backlog of sync blocks

A block that a node has asked a peer for while it synchronizes waits in one of two queues until
it is the next of some active peer. It is then passed to the client in a call, and its id moves,
at every peer that lists it next, to the ids being processed, from which the end of the call
removes it. A peer is asked for more ids only when none of its own is left there.

No block gets lost or is passed on twice on the way: in every run what has arrived is what waits
and what has been handed to the client (`received_perm`). The ids being processed do get lost.
A pass over the backlog that meets a block the client has accepted before moves the id and
starts no call, and the block stays in the queue; and when a call ends with a block older than the
undo history, the ids stay where they are. In every run in which neither happens, each id that an
active peer has being processed waits for a call (`processed_pending`).
-/

namespace LarkX

open NodeAction

namespace Node

/-! ### What arrives and what is handed to the client -/

/-- The block that arrives in a moment for the synchronization: a peer was asked for it. -/
def Moment.receives (m : Moment) : Option BlockMessage :=
  match m.event with
  | .blockMessage p msg messageHash =>
    match m.node.peers[p]? with
    | some r =>
      if r.itemsRequestedFromPeer.contains ⟨blockMessageType, messageHash⟩ then none
      else if r.syncItemsRequestedFromPeer.contains ⟨blockMessageType, msg.blockId⟩ then some msg
      else none
    | none => none
  | _ => none

/-- The blocks of the calls for the synchronization that are started between two states. -/
def started (n n' : Node) : List BlockMessage :=
  ((n'.handleMessageCalls.drop n.handleMessageCalls.length).filter HandleCall.syncMode).map
    HandleCall.message

/-- The sync blocks that are handed to the client in a moment. -/
def Moment.hands (crypto : Crypto) (m : Moment) : List BlockMessage :=
  started m.node (m.after crypto)

/-- The sync blocks that have arrived. -/
def received (past : List Moment) : List BlockMessage :=
  past.filterMap Moment.receives

/-- The sync blocks that have been handed to the client. -/
def handed (crypto : Crypto) (past : List Moment) : List BlockMessage :=
  past.flatMap (Moment.hands crypto)

/-- The sync blocks that wait. -/
def backlog (n : Node) : List BlockMessage :=
  n.newReceivedSyncItems ++ n.receivedSyncItems

/-- The queues and the calls. -/
def stock (n : Node) : List BlockMessage × List HandleCall :=
  (backlog n, n.handleMessageCalls)

/-- Calls are started, and their blocks leave the backlog. -/
def HandsOver (n n' : Node) : Prop :=
  ∃ blocks : List BlockMessage,
    n'.handleMessageCalls = n.handleMessageCalls ++
      blocks.map (fun m => { syncMode := true, message := m, messageHash := 0 }) ∧
    (backlog n' ++ blocks).Perm (backlog n)

variable {crypto : Crypto} {config : GenesisBlockConfig} {past : List Moment} {n n' : Node}

theorem HandsOver.refl (n : Node) : HandsOver n n :=
  ⟨[], (List.append_nil _).symm, by rw [List.append_nil]⟩

theorem HandsOver.trans {n₁ n₂ n₃ : Node} (h : HandsOver n₁ n₂) (h' : HandsOver n₂ n₃) :
    HandsOver n₁ n₃ := by
  obtain ⟨blocks, hcalls, hperm⟩ := h
  obtain ⟨blocks', hcalls', hperm'⟩ := h'
  refine ⟨blocks ++ blocks', ?_, ?_⟩
  · rw [hcalls', hcalls, List.map_append, List.append_assoc]
  · have hswap : (backlog n₃ ++ (blocks ++ blocks')).Perm (backlog n₃ ++ (blocks' ++ blocks)) :=
      List.perm_append_comm.append_left _
    rw [← List.append_assoc (backlog n₃) blocks' blocks] at hswap
    exact hswap.trans ((hperm'.append_right blocks).trans hperm)

instance : IsTrans Node HandsOver :=
  ⟨fun _ _ _ => HandsOver.trans⟩

theorem handsOver_of_stock (h : stock n' = stock n) : HandsOver n n' := by
  obtain ⟨hbacklog, hcalls⟩ := Prod.mk.injEq .. ▸ h
  refine ⟨[], ?_, ?_⟩
  · rw [List.map_nil, List.append_nil]
    exact hcalls
  · rw [List.append_nil]
    exact .of_eq hbacklog

/-- What is started is what left the backlog. -/
theorem HandsOver.perm (h : HandsOver n n') :
    (backlog n' ++ started n n').Perm (backlog n) := by
  obtain ⟨blocks, hcalls, hperm⟩ := h
  have hstarted : started n n' = blocks := by
    rw [started, hcalls, List.drop_left, List.filter_map, List.map_map, List.filter_eq_self.2]
    · exact List.map_id blocks
    · exact fun _ _ => rfl
  rw [hstarted]
  exact hperm

/-! ### One pass over the backlog -/

/-- What has just arrived is put in front of what waits. -/
def merged (n : Node) : Node :=
  { n with
    receivedSyncItems := n.newReceivedSyncItems.reverse ++ n.receivedSyncItems
    newReceivedSyncItems := [] }

/-- The first block that waits and is the next of some active peer. -/
def nextReceived (n : Node) : Option BlockMessage :=
  n.receivedSyncItems.find? fun m =>
    !(n.activePeers fun r => r.idsOfItemsToGet.head? == some m.blockId).isEmpty

/-- The active peers that list a block next have it being processed. -/
def moved (id : BlockId) (n : Node) : Node :=
  { n with peers := n.peers.map fun _ r => if r.isActive then moveToProcessed id r else r }

/-- A block that waits is passed to the client. -/
def passed (m : BlockMessage) (n : Node) : Node :=
  { moved m.blockId n with
    receivedSyncItems := n.receivedSyncItems.erase m
    handleMessageCalls := n.handleMessageCalls ++
      [{ syncMode := true, message := m, messageHash := 0 }] }

/-- **One pass**: the three ways it ends. -/
theorem passNextBlock_outcome {Q : Bool → Node → Prop} {E : Error → Node → Prop}
    (none : (merged n).nextReceived = none → Q false (merged n))
    (accepted : ∀ m, (merged n).nextReceived = some m →
      n.mostRecentBlocksAccepted.contains m.blockId = true →
      Q false (moved m.blockId (merged n)))
    (passed : ∀ m, (merged n).nextReceived = some m →
      n.mostRecentBlocksAccepted.contains m.blockId = false →
      Q true (passed m (merged n))) : Outcome passNextBlock n Q E := by
  rw [passNextBlock, Outcome.bind_iff, Outcome.modify_iff, Outcome.bind_iff, Outcome.get_iff]
  split
  · rename_i hfind
    exact none hfind
  · rename_i m hfind
    rw [Outcome.bind_iff, forActive, Outcome.modify_iff]
    split
    · rename_i hcontains
      exact accepted m hfind hcontains
    · rename_i hcontains
      rw [Outcome.bind_iff, Outcome.modify_iff, Outcome.bind_iff, beginCall, Outcome.modify_iff]
      exact passed m hfind (Bool.eq_false_iff.2 hcontains)

theorem handsOver_of_keeps {α : Type} {x : NodeAction α} (h : Keeps stock x) :
    Follows HandsOver x :=
  h.mono fun _ _ => handsOver_of_stock

theorem handsOver_merged (n : Node) : HandsOver n (merged n) := by
  refine ⟨[], (List.append_nil _).symm, ?_⟩
  rw [List.append_nil]
  exact (List.reverse_perm _).append_right _

theorem handsOver_passed {m : BlockMessage} (h : m ∈ n.receivedSyncItems) :
    HandsOver n (passed m n) := by
  refine ⟨[m], rfl, ?_⟩
  have hback : (n.receivedSyncItems.erase m ++ [m]).Perm n.receivedSyncItems :=
    (List.perm_append_singleton m _).trans (List.perm_cons_erase h).symm
  change (n.newReceivedSyncItems ++ n.receivedSyncItems.erase m ++ [m]).Perm _
  rw [List.append_assoc]
  exact hback.append_left _

theorem handsOver_passNextBlock : Follows HandsOver passNextBlock := by
  intro n
  refine passNextBlock_outcome (fun _ => handsOver_merged n) (fun m _ _ => ?_) fun m hnext _ => ?_
  · exact (handsOver_merged n).trans (handsOver_of_stock rfl)
  · exact (handsOver_merged n).trans (handsOver_passed (List.mem_of_find?_eq_some hnext))

theorem handsOver_backlogLoop (steps : ℕ) : Follows HandsOver (backlogLoop steps) := by
  induction steps with
  | zero => exact handsOver_of_keeps (keeps_pure _)
  | succ steps ih =>
    refine handsOver_passNextBlock.bind fun processed =>
      (handsOver_of_keeps keeps_get).bind fun n => ?_
    split
    · exact handsOver_of_keeps (keeps_modify (by exact fun _ => rfl))
    · split
      · exact ih
      · exact handsOver_of_keeps (keeps_pure _)

theorem handsOver_processBacklogOfSyncBlocks :
    Follows HandsOver processBacklogOfSyncBlocks := by
  refine (handsOver_of_keeps keeps_get).bind fun n => ?_
  split
  · exact (handsOver_of_keeps (keeps_modify (by exact fun _ => rfl))).bind fun _ =>
      handsOver_backlogLoop _
  · exact handsOver_of_keeps (keeps_pure _)

/-! ### What has arrived is what waits and what was handed over -/

/-- The backlog is the same and no call for the synchronization is started. -/
def StartsNone (n n' : Node) : Prop :=
  backlog n' = backlog n ∧ started n n' = []

theorem startsNone_of_length (hbacklog : backlog n' = backlog n)
    (hlength : n'.handleMessageCalls.length ≤ n.handleMessageCalls.length) : StartsNone n n' := by
  refine ⟨hbacklog, ?_⟩
  rw [started, List.drop_eq_nil_of_le hlength]
  rfl

theorem startsNone_of_stock (h : stock n' = stock n) : StartsNone n n' := by
  obtain ⟨hbacklog, hcalls⟩ := Prod.mk.injEq .. ▸ h
  exact startsNone_of_length hbacklog (hcalls ▸ le_rfl)

theorem startsNone_of_keeps {α : Type} {x : NodeAction α} (h : Keeps stock x) :
    Follows StartsNone x :=
  h.mono fun _ _ => startsNone_of_stock

theorem keeps_stock_fetchSyncItems : Keeps stock NodeAction.fetchSyncItems := by
  have hrequests : ∀ (p : PeerId) (items : List BlockId) (n : Node),
      stock (items.foldl (fun n id => requestItem p id n) n) = stock n := by
    intro p items
    induction items with
    | nil => exact fun _ => rfl
    | cons id items ih => exact fun n => ih (requestItem p id n)
  refine keeps_get.bind fun n => ?_
  split
  · exact keeps_forM (fun request : PeerId × List BlockId =>
      keeps_modify (hrequests request.1 request.2)) _
  · exact keeps_pure _

theorem keeps_stock_acceptBlock (msg : BlockMessage) (messageHash : MessageHash) :
    Keeps stock (acceptBlock msg messageHash) := by
  have hbroadcast : Keeps stock (broadcast msg messageHash) :=
    keeps_modify fun _ => by dsimp only [stock, backlog]
  exact ((onPeers_forActive _).keeps fun _ => rfl).bind fun _ => hbroadcast

/-- A block in normal operation may be passed to the client, but not for the synchronization. -/
theorem startsNone_processBlockDuringNormalOperation (msg : BlockMessage)
    (messageHash : MessageHash) :
    Follows StartsNone (processBlockDuringNormalOperation msg messageHash) := by
  intro n
  rw [processBlockDuringNormalOperation, Outcome.bind_iff, Outcome.get_iff]
  split
  · exact startsNone_of_keeps (keeps_stock_acceptBlock msg messageHash) n
  · rw [beginCall, Outcome.modify_iff]
    refine ⟨rfl, ?_⟩
    rw [started, List.drop_left]
    rfl

/-- A block message adds to the backlog the block it brings for the synchronization. -/
theorem processBlockMessage_receives (wall : ℕ) (p : PeerId) (msg : BlockMessage)
    (messageHash : MessageHash) (n : Node) :
    Outcome (processBlockMessage p msg messageHash) n
      (fun _ n' => (backlog n' ++ started n n').Perm
        ((Moment.receives ⟨n, wall, .blockMessage p msg messageHash⟩).toList ++ backlog n))
      (fun _ n' => (backlog n' ++ started n n').Perm
        ((Moment.receives ⟨n, wall, .blockMessage p msg messageHash⟩).toList ++ backlog n)) := by
  have hnone : ∀ n', StartsNone n n' → (backlog n' ++ started n n').Perm (backlog n) := by
    rintro n' ⟨hbacklog, hstarted⟩
    rw [hbacklog, hstarted, List.append_nil]
  rw [processBlockMessage, Outcome.bind_iff, Moment.receives]
  refine outcome_getPeer (fun r hr => ?_) fun _ hr => ?_
  · dsimp only
    rw [hr]
    dsimp only
    split
    · rw [Outcome.bind_iff, modifyPeer, Outcome.modify_iff]
      exact (startsNone_processBlockDuringNormalOperation msg messageHash _).mono
        (fun _ n' => hnone n') fun _ n' => hnone n'
    · split
      · rw [Outcome.bind_iff, modifyPeer, Outcome.modify_iff, Outcome.modify_iff]
        rw [started, List.drop_eq_nil_of_le (by exact le_rfl)]
        exact .of_eq (List.append_nil _)
      · exact hnone _ (startsNone_of_stock rfl)
  · dsimp only
    rw [hr]
    exact hnone _ (startsNone_of_stock rfl)

/-- When the node goes on after a call, the backlog is as it was. -/
theorem startsNone_callReturns (k : ℕ) (call : HandleCall) (result : Except Error Unit) :
    Follows StartsNone (callReturns crypto k call result) := by
  intro n
  have hrest : ∀ {x : NodeAction Unit}, Keeps stock x → Outcome x
      { n with handleMessageCalls := n.handleMessageCalls.eraseIdx k }
      (fun _ => StartsNone n) (fun _ => StartsNone n) := by
    intro x hx
    have hshorter : ∀ n' : Node, stock n' =
        stock { n with handleMessageCalls := n.handleMessageCalls.eraseIdx k } →
        StartsNone n n' := by
      intro n' h
      obtain ⟨hbacklog, hcalls⟩ := Prod.mk.injEq .. ▸ h
      exact startsNone_of_length hbacklog (hcalls ▸ List.length_eraseIdx_le ..)
    exact (hx _).mono (fun _ n' => hshorter n') fun _ n' => hshorter n'
  unfold NodeAction.callReturns
  rw [Outcome.bind_iff, Outcome.modify_iff]
  split
  · refine hrest ((keeps_modify fun _ => by dsimp only [stock, backlog]).bind fun _ =>
      keeps_get.bind fun n => ?_)
    exact ((onPeers_forActive _).keeps fun _ => rfl).bind fun _ =>
      (keeps_forM (fun p => (onPeers_fetchNextBatchOfItemIdsFromPeer p).keeps fun _ => rfl) _).bind
        fun _ => keeps_forM (fun p => (onPeers_startSynchronizingWithPeer p).keeps fun _ => rfl) _
  · exact hrest ((onPeers_rejectSyncBlock _ _).keeps fun _ => rfl)
  · exact hrest ((keeps_modify fun _ => by dsimp only [stock, backlog]).bind fun _ =>
      keeps_stock_acceptBlock _ _)
  · exact hrest ((onPeers_rejectBlock _).keeps fun _ => rfl)

/-- The state after a step is that of its moment. -/
theorem Step.after_eq {wall : ℕ} {e : NodeEvent} (h : Step crypto wall e n n') :
    Moment.after crypto ⟨n, wall, e⟩ = n' := by
  unfold Moment.after
  cases h with
  | returned _ hrun =>
    dsimp only
    rw [hrun]
  | threw _ _ hrun =>
    dsimp only
    rw [hrun]

/-- One step: what waits and what is handed over is what waited and what arrives. -/
theorem Step.receives_perm {wall : ℕ} {e : NodeEvent} (h : Step crypto wall e n n') :
    (backlog n' ++ started n n').Perm
      ((Moment.receives ⟨n, wall, e⟩).toList ++ backlog n) := by
  have hnone : Moment.receives ⟨n, wall, e⟩ = none → StartsNone n n' →
      (backlog n' ++ started n n').Perm
        ((Moment.receives ⟨n, wall, e⟩).toList ++ backlog n) := by
    rintro hreceives ⟨hbacklog, hstarted⟩
    rw [hreceives, hbacklog, hstarted, List.append_nil]
    exact .refl _
  have hkeeps : Moment.receives ⟨n, wall, e⟩ = none → Keeps stock (e.action crypto wall) →
      (backlog n' ++ started n n').Perm
        ((Moment.receives ⟨n, wall, e⟩).toList ++ backlog n) := fun hreceives hkeeps =>
    hnone hreceives (h.follows (startsNone_of_keeps hkeeps))
  have hpeers : Moment.receives ⟨n, wall, e⟩ = none → OnPeers (e.action crypto wall) →
      (backlog n' ++ started n n').Perm
        ((Moment.receives ⟨n, wall, e⟩).toList ++ backlog n) := fun hreceives hpeers =>
    hkeeps hreceives (hpeers.keeps fun _ => rfl)
  cases e with
  | connected p inbound => exact hkeeps rfl (keeps_modify (by exact fun _ => rfl))
  | handshakeDone p => exact hpeers rfl (onPeers_activatePeer p)
  | disconnected p => exact hpeers rfl (onPeers_disconnectFromPeer p)
  | closingConnection p => exact hpeers rfl (onPeers_modifyPeer _ _)
  | connectionClosed p =>
    exact hkeeps rfl ((keeps_getPeer p).bind fun _ => (keeps_modify (by exact fun _ => rfl)).bind
      fun _ => keeps_modify (by exact fun _ => rfl))
  | inactive gently forcibly => exact hpeers rfl (onPeers_terminateInactiveConnections _ _)
  | itemIdsInventory p items => exact hpeers rfl (onPeers_modifyPeer _ _)
  | inventoryExpires p item => exact hpeers rfl (onPeers_modifyPeer _ _)
  | itemRequested p item => exact hpeers rfl (onPeers_modifyPeer _ _)
  | fetchSyncItems => exact hkeeps rfl keeps_stock_fetchSyncItems
  | fetchBlockchainItemIds p itemType synopsis =>
    exact hpeers rfl (onPeers_onFetchBlockchainItemIdsMessage _ _ _)
  | blockchainItemIdsInventory p itemType remaining ids =>
    exact hpeers rfl (onPeers_onBlockchainItemIdsInventoryMessage _ _ _ _ _)
  | fetchItems p itemType items => exact hpeers rfl (onPeers_onFetchItemsMessage _ _ _)
  | itemNotAvailable p item => exact hpeers rfl (onPeers_onItemNotAvailableMessage _ _)
  | blockMessage p msg messageHash =>
    exact h.outcome (processBlockMessage_receives wall p msg messageHash n)
  | processBacklog => exact (h.follows handsOver_processBacklogOfSyncBlocks).perm
  | clientHandles k =>
    refine hnone rfl (h.outcome ?_)
    rw [NodeEvent.action, Outcome.bind_iff, Outcome.get_iff]
    split
    · rw [NodeAction.clientHandles, Outcome.modify_iff]
      split <;> exact startsNone_of_length rfl (List.length_set.le)
    · exact startsNone_of_stock rfl
  | callReturns k =>
    refine hnone rfl (h.outcome ?_)
    rw [NodeEvent.action, Outcome.bind_iff, Outcome.get_iff]
    split
    · split
      · exact startsNone_callReturns k _ _ n
      · exact startsNone_of_stock rfl
    · exact startsNone_of_stock rfl
  | produced b messageHash =>
    refine hnone rfl (h.outcome ?_)
    rw [NodeEvent.action, produceBlock, Outcome.bind_iff, Outcome.get_iff]
    split
    · rw [Outcome.bind_iff, Outcome.set_iff, broadcast, Outcome.modify_iff]
      exact startsNone_of_length (by dsimp only [backlog]) (by dsimp only; exact le_rfl)
    · rw [Outcome.bind_iff, Outcome.set_iff]
      exact startsNone_of_stock rfl
  | startSynchronizing => exact hpeers rfl onPeers_startSynchronizing
  | syncFrom => exact hkeeps rfl (keeps_modify (by exact fun _ => rfl))
  | cacheExpires messageHash => exact hkeeps rfl (keeps_modify (by exact fun _ => rfl))
  | simulateDisconnect state => exact hkeeps rfl (keeps_modify (by exact fun _ => rfl))
  | delegateLoop => exact hkeeps rfl (keeps_modify (by exact fun _ => rfl))
  | reindexed b => exact hkeeps rfl (keeps_modify (by exact fun _ => rfl))

/-- **In every run the sync blocks that have arrived are those that wait and those that were
handed to the client**, each as often. -/
theorem received_perm {K : Condition} (h : RunOf crypto config K past n) :
    (received past).Perm (backlog n ++ handed crypto past) := by
  refine h.invariant (I := fun past n => (received past).Perm (backlog n ++ handed crypto past))
    (fun _ _ => .refl _) fun past n wall e n' ih _ hstep => ?_
  have hreceived : received (⟨n, wall, e⟩ :: past) =
      (Moment.receives ⟨n, wall, e⟩).toList ++ received past := by
    rw [received, List.filterMap_cons]
    cases Moment.receives ⟨n, wall, e⟩ with
    | none => rfl
    | some m => rfl
  have hhanded : handed crypto (⟨n, wall, e⟩ :: past) = started n n' ++ handed crypto past := by
    rw [handed, List.flatMap_cons, Moment.hands, hstep.after_eq]
    rfl
  rw [hreceived, hhanded, ← List.append_assoc]
  refine (ih.append_left _).trans ?_
  rw [← List.append_assoc]
  exact hstep.receives_perm.symm.append_right _

end Node

end LarkX
