import LarkX.Net.Accepted
import LarkX.Net.Backlog

/-!
# The ids being processed

An id moves to the ids being processed of a peer when a block with that id is passed to the
client, and the end of the call removes it: at the peers that are still active, which otherwise
are disconnected. A peer whose ids have all been handled is asked for more.

Two branches of the code leave an id behind. A pass over the backlog that meets a block the client
has accepted before (`meetsAccepted`) moves the id, but starts no call; and a call that ends with
a block older than the undo history stops the fetching from a peer, but leaves the id there
(`Moment.leavesBehind`). In every run in which neither happens, each id that an active peer has
being processed waits for a call (`sync_blocks_handled`).
-/

namespace LarkX

open NodeAction

namespace Node

variable {crypto : Crypto} {config : GenesisBlockConfig} {past : List Moment} {n n' : Node}
variable {α : Type}

/-! ### Ids that wait for a call -/

/-- A call for a sync block with the id is in progress. -/
def Pending (n : Node) (id : BlockId) : Prop :=
  ∃ call ∈ n.handleMessageCalls, call.syncMode = true ∧ call.message.blockId = id

/-- Every id that an active peer has being processed waits for a call, and a peer that has just
connected has none. -/
structure Tracked (n : Node) : Prop where
  pending : ∀ (p : PeerId) (r : Peer), n.peers[p]? = some r → r.connection = .active →
    ∀ id, r.idsOfItemsBeingProcessed.contains id = true → n.Pending id
  fresh : ∀ (p : PeerId) (r : Peer), n.peers[p]? = some r → r.connection = .handshaking →
    ∀ id, r.idsOfItemsBeingProcessed.contains id = false

/-- The ids being processed are the same, and the connection has not gone back. -/
structure SameProcessed (r r' : Peer) : Prop where
  processed : r'.idsOfItemsBeingProcessed = r.idsOfItemsBeingProcessed
  handshaking : r'.connection = .handshaking → r.connection = .handshaking
  active : r'.connection = .active → r.connection = .active ∨ r.connection = .handshaking

theorem SameProcessed.of_eq {r r' : Peer}
    (hprocessed : r'.idsOfItemsBeingProcessed = r.idsOfItemsBeingProcessed)
    (hconnection : r'.connection = r.connection) : SameProcessed r r' :=
  ⟨hprocessed, fun h => hconnection ▸ h, fun h => Or.inl (hconnection ▸ h)⟩

theorem SameProcessed.refl (r : Peer) : SameProcessed r r :=
  .of_eq rfl rfl

theorem SameProcessed.trans {r₁ r₂ r₃ : Peer} (h : SameProcessed r₁ r₂)
    (h' : SameProcessed r₂ r₃) : SameProcessed r₁ r₃ := by
  refine ⟨h'.processed.trans h.processed, fun hnew => h.handshaking (h'.handshaking hnew),
    fun hactive => ?_⟩
  rcases h'.active hactive with hactive | hnew
  · exact h.active hactive
  · exact Or.inr (h.handshaking hnew)

instance : IsTrans Peer SameProcessed :=
  ⟨fun _ _ _ => SameProcessed.trans⟩

/-- The ids being processed are the same at every peer, and none stops waiting. -/
structure KeepsProcessed (n n' : Node) : Prop where
  peers : ByPeer SameProcessed n n'
  pending : ∀ id, n.Pending id → n'.Pending id

theorem KeepsProcessed.trans {n₁ n₂ n₃ : Node} (h : KeepsProcessed n₁ n₂)
    (h' : KeepsProcessed n₂ n₃) : KeepsProcessed n₁ n₃ :=
  ⟨h.peers.trans h'.peers, fun id hid => h'.pending id (h.pending id hid)⟩

instance : IsTrans Node KeepsProcessed :=
  ⟨fun _ _ _ => KeepsProcessed.trans⟩

theorem Tracked.keeps (h : Tracked n) (hkeeps : KeepsProcessed n n') : Tracked n' := by
  refine ⟨fun p r' hr' hactive id hid => ?_, fun p r' hr' hnew id => ?_⟩
  · obtain ⟨r, hr, hsame⟩ := hkeeps.peers.before hr'
    rw [hsame.processed] at hid
    rcases hsame.active hactive with hactive | hnew
    · exact hkeeps.pending id (h.pending p r hr hactive id hid)
    · rw [h.fresh p r hr hnew id] at hid
      cases hid
  · obtain ⟨r, hr, hsame⟩ := hkeeps.peers.before hr'
    rw [hsame.processed]
    exact h.fresh p r hr (hsame.handshaking hnew) id

theorem Tracked.follows (h : Tracked n) {x : NodeAction α} (hx : Follows KeepsProcessed x) :
    Outcome x n (fun _ => Tracked) (fun _ => Tracked) :=
  (hx n).mono (fun _ _ => h.keeps) fun _ _ => h.keeps

/-! ### Handlers that leave the ids being processed alone -/

theorem keepsProcessed_of_parts (hpeers : n'.peers = n.peers)
    (hcalls : n'.handleMessageCalls = n.handleMessageCalls) : KeepsProcessed n n' := by
  refine ⟨byPeer_of_peers SameProcessed.refl hpeers, fun id hid => ?_⟩
  obtain ⟨call, hcall, hsync⟩ := hid
  exact ⟨call, hcalls ▸ hcall, hsync⟩

theorem keepsProcessed_of_keeps {x : NodeAction α}
    (h : Keeps (fun n : Node => (n.peers, n.handleMessageCalls)) x) :
    Follows KeepsProcessed x := by
  refine h.mono fun n n' hsame => ?_
  have hsame' : (n'.peers, n'.handleMessageCalls) = (n.peers, n.handleMessageCalls) := hsame
  rw [Prod.mk.injEq] at hsame'
  exact keepsProcessed_of_parts hsame'.1 hsame'.2

theorem keepsProcessed_modifyPeer (p : PeerId) {f : Peer → Peer}
    (h : ∀ r, SameProcessed r (f r)) : Follows KeepsProcessed (modifyPeer p f) :=
  Follows.modify fun _ => ⟨byPeer_modifyPeer SameProcessed.refl fun r _ => h r, fun _ hid => hid⟩

theorem keepsProcessed_forActive {f : Peer → Peer} (h : ∀ r, SameProcessed r (f r)) :
    Follows KeepsProcessed (forActive f) :=
  Follows.modify fun _ => ⟨byPeer_forActive SameProcessed.refl h, fun _ hid => hid⟩

theorem keepsProcessed_forM {β : Type} {f : β → NodeAction Unit}
    (h : ∀ b, Follows KeepsProcessed (f b)) (l : List β) : Follows KeepsProcessed (l.forM f) :=
  fun _ => Outcome.forM (fun b _ _ h₁ => (h b).after h₁) (keepsProcessed_of_parts rfl rfl)

theorem sameProcessed_leave {c : ConnectionList} (hactive : c ≠ .active) (hnew : c ≠ .handshaking)
    (r : Peer) (w : Bool) :
    SameProcessed r { r with connection := c, weHaveRequestedClose := w } :=
  ⟨rfl, fun h => absurd h hnew, fun h => absurd h hactive⟩

theorem keepsProcessed_disconnectFromPeer (p : PeerId) :
    Follows KeepsProcessed (disconnectFromPeer p) :=
  keepsProcessed_modifyPeer p fun r => sameProcessed_leave (by decide) (by decide) r _

theorem keepsProcessed_fetchNextBatchOfItemIdsFromPeer (p : PeerId) :
    Follows KeepsProcessed (fetchNextBatchOfItemIdsFromPeer crypto p) :=
  (keepsProcessed_of_keeps (keeps_getPeer p)).bind fun _ =>
    (keepsProcessed_of_keeps keeps_get).bind fun _ =>
      (keepsProcessed_of_keeps (keeps_lift _)).bind fun _ =>
        keepsProcessed_modifyPeer p (by exact fun _ => .of_eq rfl rfl)

theorem keepsProcessed_startSynchronizingWithPeer (p : PeerId) :
    Follows KeepsProcessed (startSynchronizingWithPeer crypto p) :=
  (keepsProcessed_of_keeps keeps_get).bind fun n =>
    (keepsProcessed_modifyPeer (f := resetPosition (n.chainDb.getBlockTime 0)) p
      fun _ => .of_eq rfl rfl).bind fun _ => keepsProcessed_fetchNextBatchOfItemIdsFromPeer p

/-- A peer that has just connected becomes active. -/
theorem keepsProcessed_activatePeer {p : PeerId}
    (hnew : ∀ r, n.peers[p]? = some r → r.connection = .handshaking) :
    Outcome (activatePeer crypto p) n (fun _ => KeepsProcessed n) (fun _ => KeepsProcessed n) := by
  rw [activatePeer, Outcome.bind_iff, modifyPeer, Outcome.modify_iff]
  have hactive : KeepsProcessed n { n with
      peers := n.peers.modify p fun r => { r with connection := .active } } := by
    refine ⟨byPeer_modifyPeer SameProcessed.refl fun r hr => ⟨rfl, ?_, ?_⟩, fun _ hid => hid⟩
    · rintro ⟨⟩
    · exact fun _ => Or.inr (hnew r hr)
  exact (keepsProcessed_startSynchronizingWithPeer p).after hactive

theorem keepsProcessed_restartIfBehind (p : PeerId) (r : Peer) (itemType : ℕ)
    (synopsis : List BlockId) :
    Follows KeepsProcessed (restartIfBehind crypto p r itemType synopsis) := by
  refine (keepsProcessed_of_keeps keeps_get).bind fun n => ?_
  split
  · exact keepsProcessed_startSynchronizingWithPeer p
  · exact keepsProcessed_of_keeps (keeps_pure _)

/-- The connection to a peer, if there is one. -/
def connectionTo (p : PeerId) (n : Node) : Option ConnectionList :=
  (n.peers[p]?).map Peer.connection

theorem keeps_connectionTo_modifyPeer (p q : PeerId) {f : Peer → Peer}
    (h : ∀ r, (f r).connection = r.connection) : Keeps (connectionTo p) (modifyPeer q f) := by
  refine keeps_modify fun n => ?_
  change ((n.peers.modify q f)[p]?).map Peer.connection = _
  rw [getElem?_modify]
  split
  · rename_i heq
    rw [connectionTo, heq, Option.map_map]
    exact congrArg (fun g => (n.peers[q]?).map g) (funext h)
  · rfl

theorem keeps_connectionTo_restartIfBehind (p : PeerId) (r : Peer) (itemType : ℕ)
    (synopsis : List BlockId) :
    Keeps (connectionTo p) (restartIfBehind crypto p r itemType synopsis) := by
  refine keeps_get.bind fun n => ?_
  split
  · exact keeps_get.bind fun _ =>
      (keeps_connectionTo_modifyPeer p p (by exact fun _ => rfl)).bind fun _ =>
        (keeps_getPeer p).bind fun _ => keeps_get.bind fun _ => (keeps_lift _).bind fun _ =>
          keeps_connectionTo_modifyPeer p p (by exact fun _ => rfl)
  · exact keeps_pure _

/-- The reply to a request makes a peer active only if it has just connected. -/
theorem keepsProcessed_onFetchBlockchainItemIdsMessage (p : PeerId) (itemType : ℕ)
    (synopsis : List BlockId) :
    Follows KeepsProcessed (onFetchBlockchainItemIdsMessage crypto p itemType synopsis) := by
  intro n
  have hn : KeepsProcessed n n := keepsProcessed_of_parts rfl rfl
  rw [onFetchBlockchainItemIdsMessage, Outcome.bind_iff, Outcome.get_iff, Outcome.bind_iff,
    outcome_lift]
  refine ⟨fun answer _ => ?_, fun _ _ => hn⟩
  rw [Outcome.bind_iff]
  refine outcome_getPeer (fun r hr => ?_) fun _ _ => hn
  dsimp only
  -- the connection that was read is still the one there is when the reply has been sent
  have hrun : ∀ {x : NodeAction Unit}, Follows KeepsProcessed x → Keeps (connectionTo p) x →
      ∀ {n₁ : Node}, KeepsProcessed n n₁ ∧ connectionTo p n₁ = some r.connection →
      Outcome x n₁ (fun _ n₂ => KeepsProcessed n n₂ ∧ connectionTo p n₂ = some r.connection)
        (fun _ => KeepsProcessed n) := by
    rintro x hx hkeeps n₁ ⟨hn₁, hconnection⟩
    refine Outcome.intro (fun _ n₂ hrun => ⟨(hx.after hn₁).of_ok hrun, ?_⟩) fun _ n₂ hrun =>
      (hx.after hn₁).of_error hrun
    have hsame : connectionTo p n₂ = connectionTo p n₁ := (hkeeps n₁).of_ok hrun
    rw [hsame, hconnection]
  rw [Outcome.bind_iff]
  refine (hrun (keepsProcessed_modifyPeer p (by exact fun _ => .of_eq rfl rfl))
    (keeps_connectionTo_modifyPeer p p (by exact fun _ => rfl))
    ⟨hn, by rw [connectionTo, hr]; rfl⟩).mono (fun _ n₁ h₁ => ?_) fun _ _ h => h
  rw [Outcome.bind_iff]
  refine (hrun (keepsProcessed_restartIfBehind p r itemType synopsis)
    (keeps_connectionTo_restartIfBehind p r itemType synopsis) h₁).mono (fun _ n₂ h₂ => ?_)
    fun _ _ h => h
  obtain ⟨hn₂, hconnection⟩ := h₂
  unfold afterReply
  split
  · exact (keepsProcessed_disconnectFromPeer p).after hn₂
  · split
    · rename_i hnew
      rw [Bool.and_eq_true, beq_iff_eq] at hnew
      refine (keepsProcessed_activatePeer fun r₂ hr₂ => ?_).mono (fun _ _ h => hn₂.trans h)
        fun _ _ h => hn₂.trans h
      rw [connectionTo, hr₂, Option.map_some, Option.some.injEq] at hconnection
      exact hconnection.trans hnew.2
    · exact hn₂

theorem keepsProcessed_onFetchItemsMessage (p : PeerId) (itemType : ℕ) (items : List ℕ) :
    Follows KeepsProcessed (onFetchItemsMessage crypto p itemType items) := by
  unfold onFetchItemsMessage
  split
  · refine (keepsProcessed_of_keeps keeps_get).bind fun n =>
      (keepsProcessed_of_keeps (keeps_lift _)).bind fun sent => ?_
    split
    · exact (keepsProcessed_modifyPeer p (by exact fun _ => .of_eq rfl rfl)).bind fun _ =>
        (keepsProcessed_of_keeps (keeps_lift _)).bind fun _ =>
          keepsProcessed_modifyPeer p (by exact fun _ => .of_eq rfl rfl)
    · exact keepsProcessed_of_keeps (keeps_pure _)
  · exact keepsProcessed_of_keeps (keeps_pure _)

theorem sameProcessed_popSeen (n : Node) (itemType : ℕ) (r : Peer) (ids : List BlockId) :
    SameProcessed r (popSeen n itemType r ids) := by
  induction ids generalizing r with
  | nil => exact .refl r
  | cons id ids ih =>
    unfold popSeen
    split
    · exact SameProcessed.trans (by exact .of_eq rfl rfl) (ih _)
    · exact .refl r

theorem keepsProcessed_alignItems (p : PeerId) (itemType : ℕ) (ids : List BlockId) :
    Follows KeepsProcessed (alignItems p itemType ids) := by
  cases ids with
  | nil => exact keepsProcessed_of_keeps (keeps_pure _)
  | cons front rest =>
    refine (keepsProcessed_of_keeps (keeps_getPeer p)).bind fun r => ?_
    split
    · refine (keepsProcessed_of_keeps keeps_get).bind fun n => ?_
      split
      · exact keepsProcessed_of_keeps (keeps_pure _)
      · exact (keepsProcessed_modifyPeer p fun r => sameProcessed_popSeen n itemType r _).bind
          fun _ => keepsProcessed_of_keeps (keeps_pure _)
    · split
      · refine Follows.bind ?_ fun _ => keepsProcessed_of_keeps (keeps_pure _)
        exact (keepsProcessed_of_keeps keeps_get).bind fun n =>
          (keepsProcessed_modifyPeer p (by exact fun _ => .of_eq rfl rfl)).bind fun _ =>
            (keepsProcessed_of_keeps (keeps_lift _)).bind fun _ =>
              keepsProcessed_modifyPeer p (by exact fun _ => .of_eq rfl rfl)
      · exact (keepsProcessed_modifyPeer p (by exact fun _ => .of_eq rfl rfl)).bind fun _ =>
          keepsProcessed_of_keeps (keeps_pure _)

theorem keepsProcessed_onBlockchainItemIdsInventoryMessage (wall : ℕ) (p : PeerId)
    (itemType remaining : ℕ) (ids : List BlockId) :
    Follows KeepsProcessed
      (onBlockchainItemIdsInventoryMessage crypto wall p itemType remaining ids) := by
  refine (keepsProcessed_of_keeps (keeps_getPeer p)).bind fun r => ?_
  split
  · refine (keepsProcessed_modifyPeer p (by exact fun _ => .of_eq rfl rfl)).bind fun _ =>
      (keepsProcessed_of_keeps keeps_get).bind fun n => ?_
    dsimp only
    split
    · exact keepsProcessed_modifyPeer p (by exact fun _ => .of_eq rfl rfl)
    · refine (keepsProcessed_modifyPeer p (by exact fun _ => .of_eq rfl rfl)).bind fun _ =>
        (keepsProcessed_alignItems p itemType ids).bind fun rest =>
          (keepsProcessed_modifyPeer p (by exact fun _ => .of_eq rfl rfl)).bind fun _ =>
            (keepsProcessed_of_keeps (keeps_getPeer p)).bind fun r => ?_
      split
      · exact keepsProcessed_disconnectFromPeer p
      · split
        · exact keepsProcessed_fetchNextBatchOfItemIdsFromPeer p
        · exact keepsProcessed_of_keeps (keeps_pure _)
  · exact keepsProcessed_of_keeps (keeps_pure _)

theorem keepsProcessed_onItemNotAvailableMessage (p : PeerId) (item : ItemId) :
    Follows KeepsProcessed (onItemNotAvailableMessage p item) := by
  refine (keepsProcessed_of_keeps (keeps_getPeer p)).bind fun r => ?_
  split
  · exact keepsProcessed_modifyPeer p (by exact fun _ => .of_eq rfl rfl)
  · split
    · refine (keepsProcessed_modifyPeer p (by exact fun _ => .of_eq rfl rfl)).bind fun _ => ?_
      split
      · exact keepsProcessed_modifyPeer p (by exact fun _ => .of_eq rfl rfl)
      · exact keepsProcessed_disconnectFromPeer p
    · exact keepsProcessed_of_keeps (keeps_pure _)

theorem keepsProcessed_acceptBlock (m : BlockMessage) (messageHash : MessageHash) :
    Follows KeepsProcessed (acceptBlock m messageHash) := by
  refine (keepsProcessed_forActive fun r => ?_).bind fun _ =>
    keepsProcessed_of_keeps (keeps_modify (by exact fun _ => rfl))
  split
  · exact .of_eq rfl rfl
  · exact .refl r

theorem keepsProcessed_requestSyncItemsFromPeer (p : PeerId) (items : List BlockId) :
    Follows KeepsProcessed (requestSyncItemsFromPeer p items) := by
  refine Follows.modify fun n => ?_
  induction items generalizing n with
  | nil => exact keepsProcessed_of_parts rfl rfl
  | cons id items ih =>
    have hfirst : KeepsProcessed n (requestItem p id n) :=
      ⟨byPeer_modifyPeer SameProcessed.refl fun _ _ => .of_eq rfl rfl, fun _ hid => hid⟩
    exact hfirst.trans (ih _)

theorem keepsProcessed_fetchSyncItems : Follows KeepsProcessed NodeAction.fetchSyncItems := by
  refine (keepsProcessed_of_keeps keeps_get).bind fun n => ?_
  split
  · exact keepsProcessed_forM
      (fun request : PeerId × List BlockId =>
        keepsProcessed_requestSyncItemsFromPeer request.1 request.2) _
  · exact keepsProcessed_of_keeps (keeps_pure _)

theorem keepsProcessed_beginCall (syncMode : Bool) (m : BlockMessage) (messageHash : MessageHash) :
    Follows KeepsProcessed (beginCall syncMode m messageHash) := by
  refine Follows.modify fun n => ⟨byPeer_of_peers SameProcessed.refl rfl, fun id hid => ?_⟩
  obtain ⟨call, hcall, hsync⟩ := hid
  exact ⟨call, List.mem_append_left _ hcall, hsync⟩

theorem keepsProcessed_processBlockMessage (p : PeerId) (m : BlockMessage)
    (messageHash : MessageHash) : Follows KeepsProcessed (processBlockMessage p m messageHash) := by
  refine (keepsProcessed_of_keeps (keeps_getPeer p)).bind fun r => ?_
  split
  · refine (keepsProcessed_modifyPeer p (by exact fun _ => .of_eq rfl rfl)).bind fun _ =>
      (keepsProcessed_of_keeps keeps_get).bind fun n => ?_
    split
    · exact keepsProcessed_acceptBlock m messageHash
    · exact keepsProcessed_beginCall false m messageHash
  · split
    · exact (keepsProcessed_modifyPeer p (by exact fun _ => .of_eq rfl rfl)).bind fun _ =>
        keepsProcessed_of_keeps (keeps_modify (by exact fun _ => rfl))
    · exact keepsProcessed_disconnectFromPeer p

theorem keepsProcessed_rejectBlock (m : BlockMessage) :
    Follows KeepsProcessed (rejectBlock m) :=
  (keepsProcessed_of_keeps keeps_get).bind fun _ =>
    keepsProcessed_forM keepsProcessed_disconnectFromPeer _

/-- What a change of the active peers that leaves them active makes of a peer. -/
theorem forActive_before {f : Peer → Peer} {p : PeerId} {r' : Peer}
    (hf : ∀ r, (f r).connection = r.connection)
    (h : (n.peers.map fun _ r => if r.isActive then f r else r)[p]? = some r') :
    ∃ r, n.peers[p]? = some r ∧ r'.connection = r.connection ∧
      ((r.connection = .active ∧ r' = f r) ∨ (r.connection ≠ .active ∧ r' = r)) := by
  rw [Std.ExtTreeMap.getElem?_map, Option.map_eq_some_iff] at h
  obtain ⟨r, hr, rfl⟩ := h
  refine ⟨r, hr, ?_⟩
  cases hactive : r.isActive with
  | true =>
    rw [if_pos rfl]
    exact ⟨hf r, Or.inl ⟨beq_iff_eq.1 hactive, rfl⟩⟩
  | false =>
    rw [if_neg Bool.false_ne_true]
    exact ⟨rfl, Or.inr ⟨beq_eq_false_iff_ne.1 hactive, rfl⟩⟩

/-! ### Passing blocks to the client -/

/-- A pass over the backlog finds a block next that the client has accepted before, after up to a
number of passes that hand blocks over. -/
def meetsAccepted : ℕ → Node → Bool
  | 0, _ => false
  | steps + 1, n =>
    match (merged n).nextReceived with
    | none => false
    | some m => n.mostRecentBlocksAccepted.contains m.blockId ||
      (decide (callsInProgress (passed m (merged n)) < maximumNumberOfBlocksToHandleAtOneTime) &&
        meetsAccepted steps (passed m (merged n)))

theorem Tracked.merged (h : Tracked n) : Tracked (merged n) :=
  h.keeps (keepsProcessed_of_parts rfl rfl)

/-- A block is passed to the client, and its id waits for the call. -/
theorem Tracked.passed (h : Tracked n) (m : BlockMessage) : Tracked (passed m n) := by
  have hconnection : ∀ r, (moveToProcessed m.blockId r).connection = r.connection := by
    intro r
    unfold moveToProcessed
    split <;> rfl
  have hmoved : ∀ r id, (moveToProcessed m.blockId r).idsOfItemsBeingProcessed.contains id =
      true → m.blockId = id ∨ r.idsOfItemsBeingProcessed.contains id = true := by
    intro r id hid
    unfold moveToProcessed at hid
    split at hid
    · rw [Std.ExtTreeMap.contains_insert, Bool.or_eq_true, beq_iff_eq,
        Table.compare_eq_iff] at hid
      exact hid.imp_left Eq.symm
    · exact Or.inr hid
  refine ⟨fun p r' hr' hactive id hid => ?_, fun p r' hr' hnew id => ?_⟩
  · obtain ⟨r, hr, hsame, ⟨-, rfl⟩ | ⟨hnot, -⟩⟩ := forActive_before hconnection hr'
    · rcases hmoved r id hid with rfl | hid
      · exact ⟨_, List.mem_append_right _ (List.mem_singleton_self _), rfl, rfl⟩
      · obtain ⟨call, hcall, hsync⟩ := h.pending p r hr (hsame ▸ hactive) id hid
        exact ⟨call, List.mem_append_left _ hcall, hsync⟩
    · exact absurd (hsame ▸ hactive) hnot
  · obtain ⟨r, hr, hsame, ⟨hactive, -⟩ | ⟨-, rfl⟩⟩ := forActive_before hconnection hr'
    · rw [hsame, hactive] at hnew
      cases hnew
    · exact h.fresh p r' hr hnew id

theorem Tracked.backlogLoop (steps : ℕ) (h : Tracked n) (hmeets : meetsAccepted steps n = false) :
    Outcome (backlogLoop steps) n (fun _ => Tracked) (fun _ => Tracked) := by
  induction steps generalizing n with
  | zero => exact h
  | succ steps ih =>
    rw [NodeAction.backlogLoop, Outcome.bind_iff]
    refine passNextBlock_outcome (fun _ => ?_) (fun m hnext haccepted => ?_)
      fun m hnext haccepted => ?_
    · rw [Outcome.bind_iff, Outcome.get_iff]
      split
      · exact h.merged.keeps (keepsProcessed_of_parts rfl rfl)
      · exact h.merged
    · rw [meetsAccepted, hnext] at hmeets
      dsimp only at hmeets
      rw [haccepted] at hmeets
      cases hmeets
    · rw [meetsAccepted, hnext] at hmeets
      dsimp only at hmeets
      rw [Outcome.bind_iff, Outcome.get_iff]
      split
      · exact (h.merged.passed m).keeps (keepsProcessed_of_parts rfl rfl)
      · rename_i hfew
        rw [haccepted, Bool.false_or, decide_eq_true (not_le.1 hfew), Bool.true_and] at hmeets
        exact ih (h.merged.passed m) hmeets

theorem Tracked.processBacklog (h : Tracked n)
    (hmeets : callsInProgress n < maximumNumberOfBlocksToHandleAtOneTime →
      meetsAccepted (n.receivedSyncItems.length + n.newReceivedSyncItems.length + 1)
        { n with suspendFetchingSyncBlocks := false } = false) :
    Outcome processBacklogOfSyncBlocks n (fun _ => Tracked) (fun _ => Tracked) := by
  rw [processBacklogOfSyncBlocks, Outcome.bind_iff, Outcome.get_iff]
  split
  · rename_i hfew
    rw [Outcome.bind_iff, Outcome.modify_iff]
    exact Tracked.backlogLoop _ (h.keeps (keepsProcessed_of_parts rfl rfl)) (hmeets hfew)
  · exact h

/-! ### The end of a call -/

/-- When a call is over, the ids that wait for another one still do. -/
theorem Pending.eraseIdx {k : ℕ} {call : HandleCall} {id : BlockId}
    (hcall : n.handleMessageCalls[k]? = some call) (hid : n.Pending id)
    (hother : call.syncMode = true → call.message.blockId ≠ id) :
    Pending { n with handleMessageCalls := n.handleMessageCalls.eraseIdx k } id := by
  obtain ⟨call', hmem, hsync, rfl⟩ := hid
  obtain ⟨i, hi⟩ := List.mem_iff_getElem?.1 hmem
  refine ⟨call', List.mem_eraseIdx_iff_getElem?.2 ⟨i, ?_, hi⟩, hsync, rfl⟩
  rintro rfl
  rw [hcall, Option.some.injEq] at hi
  subst hi
  exact hother hsync rfl

/-- The client has answered. -/
theorem keepsProcessed_clientHandles (wall k : ℕ) {call : HandleCall}
    (hcall : n.handleMessageCalls[k]? = some call) :
    Outcome (NodeAction.clientHandles crypto wall k call) n (fun _ => KeepsProcessed n)
      (fun _ => KeepsProcessed n) := by
  have hanswered : ∀ (db : Database) (result : Except Error Unit), KeepsProcessed n { n with
      chainDb := db
      handleMessageCalls := n.handleMessageCalls.set k { call with result := some result } } := by
    refine fun db result => ⟨byPeer_of_peers SameProcessed.refl rfl, fun id hid => ?_⟩
    obtain ⟨call', hmem, hsync, rfl⟩ := hid
    obtain ⟨i, hi⟩ := List.mem_iff_getElem?.1 hmem
    have hk : k < n.handleMessageCalls.length := (List.getElem?_eq_some_iff.1 hcall).1
    by_cases hik : i = k
    · subst hik
      rw [hcall, Option.some.injEq] at hi
      subst hi
      exact ⟨{ call with result := some result }, List.mem_set hk _, hsync, rfl⟩
    · refine ⟨call', List.mem_iff_getElem?.2 ⟨i, ?_⟩, hsync, rfl⟩
      exact (List.getElem?_set_ne (Ne.symm hik)).trans hi
  rw [NodeAction.clientHandles, Outcome.modify_iff]
  split
  · exact hanswered _ _
  · exact hanswered _ _

/-- When the node goes on after a call, what waits for no other call is removed. -/
theorem Tracked.ends (h : Tracked n) {k : ℕ} {call : HandleCall} {f : Peer → Peer}
    (hcall : n.handleMessageCalls[k]? = some call)
    (hconnection : ∀ r, (f r).connection = r.connection)
    (hids : ∀ (p : PeerId) (r : Peer) (id : BlockId), n.peers[p]? = some r →
      r.connection = .active → (f r).idsOfItemsBeingProcessed.contains id = true →
      r.idsOfItemsBeingProcessed.contains id = true ∧ (call.message.blockId = id →
        Pending { n with handleMessageCalls := n.handleMessageCalls.eraseIdx k } id))
    (hcalls : n'.handleMessageCalls = n.handleMessageCalls.eraseIdx k)
    (hpeers : n'.peers = n.peers.map fun _ r => if r.isActive then f r else r) :
    Tracked n' := by
  refine ⟨fun p r' hr' hactive id hid => ?_, fun p r' hr' hnew id => ?_⟩
  · rw [hpeers] at hr'
    obtain ⟨r, hr, hsame, ⟨hwas, rfl⟩ | ⟨hnot, -⟩⟩ := forActive_before hconnection hr'
    · obtain ⟨hid, hagain⟩ := hids p r id hr hwas hid
      have hpending : Pending { n with
          handleMessageCalls := n.handleMessageCalls.eraseIdx k } id := by
        by_cases heq : call.message.blockId = id
        · exact hagain heq
        · exact (h.pending p r hr hwas id hid).eraseIdx hcall fun _ => heq
      obtain ⟨call', hmem, hsync⟩ := hpending
      exact ⟨call', hcalls ▸ hmem, hsync⟩
    · exact absurd (hsame ▸ hactive) hnot
  · rw [hpeers] at hr'
    obtain ⟨r, hr, hsame, ⟨hactive, -⟩ | ⟨-, rfl⟩⟩ := forActive_before hconnection hr'
    · rw [hsame, hactive] at hnew
      cases hnew
    · exact h.fresh p r' hr hnew id

theorem contains_removeProcessed {m : BlockMessage} {r : Peer} {id : BlockId}
    (h : (removeProcessed m r).idsOfItemsBeingProcessed.contains id = true) :
    m.blockId ≠ id ∧ r.idsOfItemsBeingProcessed.contains id = true := by
  unfold removeProcessed at h
  split at h
  · rw [Std.ExtTreeMap.contains_erase, Bool.and_eq_true, bne_iff_ne, ne_eq,
      Table.compare_eq_iff] at h
    exact ⟨Ne.symm h.1, h.2⟩
  · rename_i hnot
    refine ⟨fun heq => hnot ?_, h⟩
    rw [heq]
    exact h

/-- The client has accepted a sync block: its id is removed at every active peer. -/
theorem Tracked.acceptSyncBlock (h : Tracked n) {k : ℕ} {call : HandleCall}
    (hcall : n.handleMessageCalls[k]? = some call) :
    Outcome (acceptSyncBlock crypto call.message)
      { n with handleMessageCalls := n.handleMessageCalls.eraseIdx k }
      (fun _ => Tracked) (fun _ => Tracked) := by
  have hconnection : ∀ r, (removeProcessed call.message r).connection = r.connection := by
    intro r
    unfold removeProcessed
    split <;> rfl
  rw [NodeAction.acceptSyncBlock, Outcome.bind_iff, Outcome.modify_iff, Outcome.bind_iff,
    Outcome.get_iff]
  dsimp only
  rw [Outcome.bind_iff, forActive, Outcome.modify_iff]
  refine Tracked.follows (h.ends hcall hconnection (fun p r id _ _ hid => ?_) rfl rfl)
    ((keepsProcessed_forM keepsProcessed_fetchNextBatchOfItemIdsFromPeer _).bind fun _ =>
      keepsProcessed_forM keepsProcessed_startSynchronizingWithPeer _)
  obtain ⟨hne, hid⟩ := contains_removeProcessed hid
  exact ⟨hid, fun heq => absurd heq hne⟩

/-- The call ends with a block older than the undo history, and its id is left at an active peer
without another call for it. -/
def Moment.leavesBehind (m : Moment) : Bool :=
  match m.event with
  | .callReturns k =>
    match m.node.handleMessageCalls[k]? with
    | some call => call.syncMode &&
      call.result == some (.error .blockOlderThanUndoHistory) &&
      !(m.node.activePeers fun r =>
        r.idsOfItemsBeingProcessed.contains call.message.blockId).isEmpty &&
      !(m.node.handleMessageCalls.eraseIdx k).any fun other =>
        other.syncMode && other.message.blockId == call.message.blockId
    | none => false
  | _ => false

theorem mem_activePeers {p : PeerId} {q : Peer → Bool} :
    p ∈ n.activePeers q ↔ ∃ r, n.peers[p]? = some r ∧ r.connection = .active ∧ q r = true := by
  rw [activePeers, List.mem_map]
  refine ⟨?_, ?_⟩
  · rintro ⟨⟨p, r⟩, hmem, rfl⟩
    rw [List.mem_filter, Bool.and_eq_true] at hmem
    exact ⟨r, Table.mem_toList.1 hmem.1, beq_iff_eq.1 hmem.2.1, hmem.2.2⟩
  · rintro ⟨r, hr, hactive, hq⟩
    refine ⟨(p, r), List.mem_filter.2 ⟨Table.mem_toList.2 hr, ?_⟩, rfl⟩
    rw [Bool.and_eq_true]
    exact ⟨beq_iff_eq.2 hactive, hq⟩

/-- Peers that are disconnected are not active, and the others are as they were. -/
theorem disconnectFromPeer_forM (peers : List PeerId) :
    Outcome (peers.forM disconnectFromPeer) n
      (fun _ n' => KeepsProcessed n n' ∧ n'.handleMessageCalls = n.handleMessageCalls ∧
        ∀ p ∈ peers, ∀ r, n'.peers[p]? = some r → r.connection ≠ .active)
      (fun _ _ => False) := by
  induction peers generalizing n with
  | nil => exact ⟨keepsProcessed_of_parts rfl rfl, rfl, fun p hp => (List.not_mem_nil hp).elim⟩
  | cons p peers ih =>
    change Outcome (disconnectFromPeer p >>= fun _ => peers.forM disconnectFromPeer) n _ _
    rw [Outcome.bind_iff, disconnectFromPeer, modifyPeer, Outcome.modify_iff]
    have hfirst : KeepsProcessed n { n with peers := n.peers.modify p fun r => { r with
        connection := .closing
        weHaveRequestedClose := r.weHaveRequestedClose || !r.theyHaveRequestedClose } } :=
      keepsProcessed_disconnectFromPeer p n
    refine ih.mono (fun _ n' => ?_) fun _ _ h => h
    rintro ⟨hkeeps, hcalls, hrest⟩
    refine ⟨hfirst.trans hkeeps, hcalls, fun q hq r' hr' hactive => ?_⟩
    rcases List.mem_cons.1 hq with rfl | hq
    · obtain ⟨r, hr, hsame⟩ := hkeeps.peers.before hr'
      change (n.peers.modify q _)[q]? = some r at hr
      rw [getElem?_modify, if_pos rfl, Option.map_eq_some_iff] at hr
      obtain ⟨r₀, -, rfl⟩ := hr
      rcases hsame.active hactive with h | h
      · cases h
      · cases h
    · exact hrest q hq r' hr' hactive

/-- The client has rejected a sync block: the active peers that had its id being processed are
disconnected, or keep it while another call for it is in progress. -/
theorem Tracked.rejectSyncBlock (h : Tracked n) {wall k : ℕ} {call : HandleCall} {e : Error}
    (hcall : n.handleMessageCalls[k]? = some call) (hsync : call.syncMode = true)
    (hresult : call.result = some (.error e))
    (hleaves : Moment.leavesBehind ⟨n, wall, .callReturns k⟩ = false) :
    Outcome (rejectSyncBlock call.message e)
      { n with handleMessageCalls := n.handleMessageCalls.eraseIdx k }
      (fun _ => Tracked) (fun _ => Tracked) := by
  rw [NodeAction.rejectSyncBlock, Outcome.bind_iff, Outcome.get_iff]
  split
  · rename_i holder
    rw [forActive, Outcome.modify_iff]
    refine h.ends hcall (f := fun r => if r.idsOfItemsBeingProcessed.contains call.message.blockId
      then { r with inhibitFetchingSyncBlocks := true } else r) (fun r => ?_)
      (fun p r id hr hactive hid => ?_) rfl rfl
    · split <;> rfl
    · have hsame : (if r.idsOfItemsBeingProcessed.contains call.message.blockId
          then { r with inhibitFetchingSyncBlocks := true } else r).idsOfItemsBeingProcessed =
          r.idsOfItemsBeingProcessed := by
        split <;> rfl
      rw [hsame] at hid
      refine ⟨hid, ?_⟩
      rintro rfl
      -- the peer is active, so that another call is in progress
      have hactive' : (n.activePeers fun r =>
          r.idsOfItemsBeingProcessed.contains call.message.blockId).isEmpty = false :=
        List.isEmpty_eq_false_iff.2
          (List.ne_nil_of_mem (mem_activePeers.2 ⟨r, hr, hactive, hid⟩))
      rw [Moment.leavesBehind] at hleaves
      dsimp only at hleaves
      rw [hcall] at hleaves
      dsimp only at hleaves
      rw [hsync, hresult, holder, hactive', beq_self_eq_true, Bool.not_false, Bool.true_and,
        Bool.true_and, Bool.true_and, Bool.not_eq_false', List.any_eq_true] at hleaves
      obtain ⟨other, hmem, hother⟩ := hleaves
      rw [Bool.and_eq_true, beq_iff_eq] at hother
      exact ⟨other, hmem, hother⟩
  · refine disconnectFromPeer_forM _ |>.mono (fun _ n' => ?_) fun _ _ h => h.elim
    rintro ⟨hkeeps, hcalls, hleft⟩
    refine ⟨fun p r' hr' hactive id hid => ?_, fun p r' hr' hnew id => ?_⟩
    · obtain ⟨r, hr, hsame⟩ := hkeeps.peers.before hr'
      rw [hsame.processed] at hid
      rcases hsame.active hactive with hwas | hnew
      · have hne : call.message.blockId ≠ id := by
          rintro rfl
          exact hleft p (mem_activePeers.2 ⟨r, hr, hwas, hid⟩) r' hr' hactive
        obtain ⟨call', hmem, hpending⟩ :=
          (h.pending p r hr hwas id hid).eraseIdx hcall fun _ => hne
        exact ⟨call', hcalls ▸ hmem, hpending⟩
      · rw [h.fresh p r hr hnew id] at hid
        cases hid
    · obtain ⟨r, hr, hsame⟩ := hkeeps.peers.before hr'
      rw [hsame.processed]
      exact h.fresh p r hr (hsame.handshaking hnew) id

/-- The node goes on after a call. -/
theorem Tracked.callReturns (h : Tracked n) {wall k : ℕ} {call : HandleCall}
    {result : Except Error Unit} (hcall : n.handleMessageCalls[k]? = some call)
    (hresult : call.result = some result)
    (hleaves : Moment.leavesBehind ⟨n, wall, .callReturns k⟩ = false) :
    Outcome (callReturns crypto k call result) n (fun _ => Tracked) (fun _ => Tracked) := by
  have hnormal : call.syncMode = false →
      Tracked { n with handleMessageCalls := n.handleMessageCalls.eraseIdx k } := by
    refine fun hsync => h.keeps ⟨byPeer_of_peers SameProcessed.refl rfl, fun id hid => ?_⟩
    exact hid.eraseIdx hcall fun hsync' => absurd (hsync ▸ hsync') Bool.false_ne_true
  unfold NodeAction.callReturns
  rw [Outcome.bind_iff, Outcome.modify_iff]
  split
  · exact h.acceptSyncBlock hcall
  · rename_i e hsync
    exact h.rejectSyncBlock hcall hsync hresult hleaves
  · rename_i hsync
    exact (hnormal hsync).follows ((keepsProcessed_of_keeps
      (keeps_modify (by exact fun _ => rfl))).bind fun _ => keepsProcessed_acceptBlock _ _)
  · rename_i hsync
    exact (hnormal hsync).follows (keepsProcessed_rejectBlock _)

/-! ### A peer whose blocks have all been handled -/

/-- The block of an id is the last of a peer: nothing else of it is left to get or being
processed. -/
structure HasLast (id : BlockId) (r : Peer) : Prop where
  active : r.connection = .active
  toGet : r.idsOfItemsToGet = []
  unfetched : r.numberOfUnfetchedItemIds = 0
  processed : ∀ id', r.idsOfItemsBeingProcessed.contains id' = true ↔ id' = id

/-- No id of a peer is being processed. -/
def Settled (p : PeerId) (n : Node) : Prop :=
  ∃ r, n.peers[p]? = some r ∧ ∀ id, r.idsOfItemsBeingProcessed.contains id = false

/-- The peer has been asked for more ids, too. -/
def Asked (p : PeerId) (n : Node) : Prop :=
  ∃ r, n.peers[p]? = some r ∧ (∀ id, r.idsOfItemsBeingProcessed.contains id = false) ∧
    r.itemIdsRequestedFromPeer.isSome = true

/-- The ids being processed are the same, and a request for ids is still there. -/
structure KeepsAsked (r r' : Peer) : Prop where
  processed : r'.idsOfItemsBeingProcessed = r.idsOfItemsBeingProcessed
  asked : r.itemIdsRequestedFromPeer.isSome = true → r'.itemIdsRequestedFromPeer.isSome = true

instance : IsTrans Peer KeepsAsked :=
  ⟨fun _ _ _ h h' => ⟨h'.processed.trans h.processed, fun hasked => h'.asked (h.asked hasked)⟩⟩

theorem KeepsAsked.refl (r : Peer) : KeepsAsked r r :=
  ⟨rfl, fun h => h⟩

theorem Settled.keeps {p : PeerId} (h : Settled p n) (hkeeps : ByPeer KeepsAsked n n') :
    Settled p n' := by
  obtain ⟨r, hr, hempty⟩ := h
  obtain ⟨r', hr', hsame⟩ := hkeeps.after hr
  exact ⟨r', hr', fun id => hsame.processed ▸ hempty id⟩

theorem Asked.keeps {p : PeerId} (h : Asked p n) (hkeeps : ByPeer KeepsAsked n n') :
    Asked p n' := by
  obtain ⟨r, hr, hempty, hasked⟩ := h
  obtain ⟨r', hr', hsame⟩ := hkeeps.after hr
  exact ⟨r', hr', fun id => hsame.processed ▸ hempty id, hsame.asked hasked⟩

theorem keepsAsked_of_keeps {x : NodeAction α} (h : Keeps Node.peers x) :
    Follows (ByPeer KeepsAsked) x :=
  h.mono fun _ _ => byPeer_of_peers KeepsAsked.refl

theorem keepsAsked_fetchNextBatchOfItemIdsFromPeer (q : PeerId) :
    Follows (ByPeer KeepsAsked) (fetchNextBatchOfItemIdsFromPeer crypto q) :=
  (keepsAsked_of_keeps (keeps_getPeer q)).bind fun _ => (keepsAsked_of_keeps keeps_get).bind
    fun _ => (keepsAsked_of_keeps (keeps_lift _)).bind fun _ =>
      Follows.modify fun _ => byPeer_modifyPeer KeepsAsked.refl fun _ _ => ⟨rfl, fun _ => rfl⟩

theorem keepsAsked_startSynchronizingWithPeer (q : PeerId) :
    Follows (ByPeer KeepsAsked) (startSynchronizingWithPeer crypto q) :=
  (keepsAsked_of_keeps keeps_get).bind fun n =>
    Follows.bind (Follows.modify fun _ => byPeer_modifyPeer
      (f := resetPosition (n.chainDb.getBlockTime 0)) KeepsAsked.refl
      fun _ _ => ⟨rfl, fun h => h⟩) fun _ => keepsAsked_fetchNextBatchOfItemIdsFromPeer q

theorem isEmpty_of_contains {ids : KeySet BlockId} (h : ∀ id, ids.contains id = false) :
    ids.isEmpty = true := by
  rw [Std.ExtTreeMap.isEmpty_iff]
  refine Std.ExtTreeMap.ext_getElem? fun id => ?_
  have hid := h id
  rw [Std.ExtTreeMap.contains_eq_isSome_getElem?, Option.isSome_eq_false_iff] at hid
  rw [Option.isNone_iff_eq_none.1 hid, Table.getElem?_empty']

/-- A peer is asked for ids. -/
theorem fetchNextBatchOfItemIdsFromPeer_asks {p : PeerId} (h : Settled p n) :
    Outcome (fetchNextBatchOfItemIdsFromPeer crypto p) n (fun _ => Asked p) (fun _ _ => True) := by
  obtain ⟨r, hr, hempty⟩ := h
  rw [fetchNextBatchOfItemIdsFromPeer, Outcome.bind_iff]
  refine outcome_getPeer (fun _ _ => ?_) fun _ _ => trivial
  rw [Outcome.bind_iff, Outcome.get_iff, Outcome.bind_iff, outcome_lift]
  refine ⟨fun synopsis _ => ?_, fun _ _ => trivial⟩
  rw [modifyPeer, Outcome.modify_iff]
  refine ⟨{ r with itemIdsRequestedFromPeer := some (synopsis.getLastD 0) }, ?_, hempty, rfl⟩
  change (n.peers.modify p _)[p]? = _
  rw [getElem?_modify, if_pos rfl, hr]
  rfl

/-- **When the call for the last block of a peer ends well, no id of the peer is being processed
and the peer is asked for more**: an empty answer ends its synchronization. -/
theorem callReturns_asks {k : ℕ} {call : HandleCall} (hsync : call.syncMode = true) {p : PeerId}
    {r : Peer} (hr : n.peers[p]? = some r) (hlast : HasLast call.message.blockId r) :
    Outcome (NodeAction.callReturns crypto k call (.ok ())) n (fun _ => Asked p)
      (fun _ _ => True) := by
  unfold NodeAction.callReturns
  rw [Outcome.bind_iff, Outcome.modify_iff, hsync]
  dsimp only
  rw [NodeAction.acceptSyncBlock, Outcome.bind_iff, Outcome.modify_iff, Outcome.bind_iff,
    Outcome.get_iff]
  dsimp only
  rw [Outcome.bind_iff, forActive, Outcome.modify_iff, Outcome.bind_iff]
  generalize pushAccepted n.mostRecentBlocksAccepted call.message.blockId = accepted
  have hempty : ∀ id,
      (removeProcessed call.message r).idsOfItemsBeingProcessed.contains id = false := by
    intro id
    rw [Bool.eq_false_iff]
    intro hid
    obtain ⟨hne, hid⟩ := contains_removeProcessed hid
    exact hne ((hlast.processed id).1 hid).symm
  have hsettled : Settled p { n with
      handleMessageCalls := n.handleMessageCalls.eraseIdx k
      mostRecentBlocksAccepted := accepted
      peers := n.peers.map fun _ r =>
        if r.isActive then removeProcessed call.message r else r } := by
    refine ⟨removeProcessed call.message r, ?_, hempty⟩
    change (n.peers.map _)[p]? = _
    have hactive : r.isActive = true := beq_iff_eq.2 hlast.active
    rw [Std.ExtTreeMap.getElem?_map, hr, Option.map_some, if_pos hactive]
  have hasks : ∀ {f : PeerId → NodeAction Unit}, (∀ q, Follows (ByPeer KeepsAsked) (f q)) →
      ∀ q n, Asked p n → Outcome (f q) n (fun _ => Asked p) (fun _ _ => True) :=
    fun hf q n hn => (hf q n).mono (fun _ _ => hn.keeps) fun _ _ _ => trivial
  refine (Outcome.forM_of_mem (I := Settled p) (J := Asked p) (E := fun _ _ => True) (a := p) ?_
    (fun q n hn => (keepsAsked_fetchNextBatchOfItemIdsFromPeer q n).mono (fun _ _ => hn.keeps)
      fun _ _ _ => trivial)
    (fun n hn => fetchNextBatchOfItemIdsFromPeer_asks hn)
    (hasks keepsAsked_fetchNextBatchOfItemIdsFromPeer) hsettled).mono (fun _ n₁ h₁ => ?_)
    fun _ _ h => h
  · refine mem_activePeers.2 ⟨r, hr, hlast.active, ?_⟩
    rw [hlast.toGet, hlast.unfetched, (hlast.processed _).2 rfl,
      isEmpty_of_contains hempty]
    rfl
  · exact Outcome.forM (fun q n _ => hasks keepsAsked_startSynchronizingWithPeer q n) h₁

/-! ### Runs -/

/-- The backlog is processed, and a pass meets a block that was accepted before. -/
def Moment.meetsAccepted (m : Moment) : Bool :=
  match m.event with
  | .processBacklog =>
    decide (callsInProgress m.node < maximumNumberOfBlocksToHandleAtOneTime) &&
      Node.meetsAccepted
        (m.node.receivedSyncItems.length + m.node.newReceivedSyncItems.length + 1)
        { m.node with suspendFetchingSyncBlocks := false }
  | _ => false

/-- A peer connects. -/
theorem Tracked.connected (h : Tracked n) (p : PeerId) (inbound : Bool) :
    Tracked { n with peers := n.peers.insert p { inbound } } := by
  have hpeer : ∀ (q : PeerId) (r : Peer), (n.peers.insert p { inbound })[q]? = some r →
      r = { inbound } ∨ n.peers[q]? = some r := by
    intro q r hr
    by_cases heq : q = p
    · rw [heq, Table.getElem?_insert_same, Option.some.injEq] at hr
      exact Or.inl hr.symm
    · rw [Table.getElem?_insert_of_ne _ _ heq] at hr
      exact Or.inr hr
  refine ⟨fun q r hr hactive id hid => ?_, fun q r hr hnew id => ?_⟩
  · rcases hpeer q r hr with rfl | hr
    · cases hactive
    · exact h.pending q r hr hactive id hid
  · rcases hpeer q r hr with rfl | hr
    · exact Std.ExtTreeMap.contains_empty
    · exact h.fresh q r hr hnew id

theorem Tracked.step {wall : ℕ} {e : NodeEvent} (h : Tracked n)
    (hmeets : Moment.meetsAccepted ⟨n, wall, e⟩ = false)
    (hleaves : Moment.leavesBehind ⟨n, wall, e⟩ = false) (hstep : Step crypto wall e n n') :
    Tracked n' := by
  have hkeeps : Follows KeepsProcessed (e.action crypto wall) → Tracked n' := fun hkeeps =>
    h.keeps (hstep.follows hkeeps)
  have hparts : Keeps (fun n : Node => (n.peers, n.handleMessageCalls)) (e.action crypto wall) →
      Tracked n' := fun hparts => hkeeps (keepsProcessed_of_keeps hparts)
  have hmodify : ∀ (p : PeerId) (f : Peer → Peer), (∀ r, SameProcessed r (f r)) →
      e.action crypto wall = modifyPeer p f → Tracked n' := fun p f hf haction =>
    hkeeps (haction ▸ keepsProcessed_modifyPeer p hf)
  cases e with
  | connected p inbound =>
    refine hstep.outcome ?_
    rw [NodeEvent.action, Outcome.modify_iff]
    exact h.connected p inbound
  | handshakeDone p =>
    have hopen : n.hasOpen p (fun r => r.connection == .handshaking) = true := hstep.enabled
    refine h.keeps (hstep.outcome (keepsProcessed_activatePeer fun r hr => ?_))
    rw [hasOpen, hr] at hopen
    exact beq_iff_eq.1 (Bool.and_eq_true_iff.1 hopen).2
  | disconnected p => exact hkeeps (keepsProcessed_disconnectFromPeer p)
  | closingConnection p => exact hmodify p _ (by exact fun _ => .of_eq rfl rfl) rfl
  | connectionClosed p =>
    have hclosed : ∀ r : Peer, SameProcessed r { r with connection := .none, closed := true } := by
      refine fun r => ⟨rfl, ?_, ?_⟩
      · rintro ⟨⟩
      · rintro ⟨⟩
    exact hkeeps ((keepsProcessed_of_keeps (keeps_getPeer p)).bind fun _ =>
      (keepsProcessed_modifyPeer p hclosed).bind fun _ =>
        keepsProcessed_of_keeps (keeps_modify (by exact fun _ => rfl)))
  | inactive gently forcibly =>
    exact hkeeps ((keepsProcessed_forM keepsProcessed_disconnectFromPeer _).bind fun _ =>
      keepsProcessed_forM (fun p => keepsProcessed_modifyPeer p fun r =>
        sameProcessed_leave (by decide) (by decide) r r.weHaveRequestedClose) _)
  | itemIdsInventory p items => exact hmodify p _ (by exact fun _ => .of_eq rfl rfl) rfl
  | inventoryExpires p item => exact hmodify p _ (by exact fun _ => .of_eq rfl rfl) rfl
  | itemRequested p item => exact hmodify p _ (by exact fun _ => .of_eq rfl rfl) rfl
  | fetchSyncItems => exact hkeeps keepsProcessed_fetchSyncItems
  | fetchBlockchainItemIds p itemType synopsis =>
    exact hkeeps (keepsProcessed_onFetchBlockchainItemIdsMessage _ _ _)
  | blockchainItemIdsInventory p itemType remaining ids =>
    exact hkeeps (keepsProcessed_onBlockchainItemIdsInventoryMessage _ _ _ _ _)
  | fetchItems p itemType items => exact hkeeps (keepsProcessed_onFetchItemsMessage _ _ _)
  | itemNotAvailable p item => exact hkeeps (keepsProcessed_onItemNotAvailableMessage _ _)
  | blockMessage p m messageHash => exact hkeeps (keepsProcessed_processBlockMessage _ _ _)
  | processBacklog =>
    refine hstep.outcome (h.processBacklog fun hfew => ?_)
    rw [Moment.meetsAccepted] at hmeets
    dsimp only at hmeets
    rwa [decide_eq_true hfew, Bool.true_and] at hmeets
  | clientHandles k =>
    refine hstep.outcome ?_
    rw [NodeEvent.action, Outcome.bind_iff, Outcome.get_iff]
    split
    · rename_i call hcall
      exact (keepsProcessed_clientHandles wall k hcall).mono (fun _ _ => h.keeps)
        fun _ _ => h.keeps
    · exact h
  | callReturns k =>
    refine hstep.outcome ?_
    rw [NodeEvent.action, Outcome.bind_iff, Outcome.get_iff]
    split
    · rename_i call hcall
      split
      · rename_i result hresult
        exact h.callReturns hcall hresult hleaves
      · exact h
    · exact h
  | produced b messageHash =>
    refine hstep.outcome ?_
    rw [NodeEvent.action, produceBlock, Outcome.bind_iff, Outcome.get_iff]
    split
    · rw [Outcome.bind_iff, Outcome.set_iff]
      exact h.keeps (keepsProcessed_of_parts rfl rfl)
    · rw [Outcome.bind_iff, Outcome.set_iff]
      exact h.keeps (keepsProcessed_of_parts rfl rfl)
  | startSynchronizing =>
    exact hkeeps ((keepsProcessed_of_keeps keeps_get).bind fun _ =>
      keepsProcessed_forM keepsProcessed_startSynchronizingWithPeer _)
  | syncFrom => exact hparts (keeps_modify (by exact fun _ => rfl))
  | cacheExpires messageHash => exact hparts (keeps_modify (by exact fun _ => rfl))
  | simulateDisconnect state => exact hparts (keeps_modify (by exact fun _ => rfl))
  | delegateLoop => exact hparts (keeps_modify (by exact fun _ => rfl))
  | reindexed b => exact hparts (keeps_modify (by exact fun _ => rfl))

theorem tracked_fresh (db : Database) : Tracked { chainDb := db } := by
  refine ⟨fun p r hr => ?_, fun p r hr => ?_⟩
  · rw [Table.getElem?_empty'] at hr
    cases hr
  · rw [Table.getElem?_empty'] at hr
    cases hr

/-- **In every run in which no pass over the backlog meets a block that was accepted before, and no
call leaves an id behind**, what has arrived for the synchronization is what waits and what was
handed to the client, each as often; every id an active peer has being processed waits for a call;
and when the call for the last block of a peer ends well, the peer is asked for more. -/
theorem sync_blocks_handled (h : RunOf crypto config
    (fun _ m => m.meetsAccepted = false ∧ m.leavesBehind = false) past n) :
    (received past).Perm (backlog n ++ handed crypto past) ∧
    (∀ (p : PeerId) (r : Peer), n.peers[p]? = some r → r.connection = .active →
      ∀ id, r.idsOfItemsBeingProcessed.contains id = true → n.Pending id) ∧
    ∀ (k : ℕ) (call : HandleCall) (n' : Node), n.handleMessageCalls[k]? = some call →
      call.syncMode = true → (callReturns crypto k call (.ok ())).run n = .ok () n' →
      ∀ (p : PeerId) (r : Peer), n.peers[p]? = some r → HasLast call.message.blockId r →
        Asked p n' := by
  have htracked : Tracked n := h.invariant (I := fun _ => Tracked) (fun db _ => tracked_fresh db)
    fun _ _ _ _ _ htracked hK hstep => htracked.step hK.1 hK.2 hstep
  refine ⟨received_perm h, htracked.pending, fun k call n' _ hsync hrun p r hr hlast => ?_⟩
  exact (callReturns_asks hsync hr hlast).of_ok hrun

/-! ### An id that no call removes -/

/-- The id of the first block. -/
def firstId : BlockId :=
  Crypto.transparent.blockId firstBlock.toSignedBlockHeader

/-- A peer names the first block and is asked for it. -/
def firstBlockNamed : List (ℕ × NodeEvent) :=
  [(30, .connected 1 false), (30, .handshakeDone 1),
    (30, .blockchainItemIdsInventory 1 blockMessageType 0 [firstId]), (30, .fetchSyncItems)]

/-- The block arrives and the backlog is processed. -/
def firstBlockSynced : List (ℕ × NodeEvent) :=
  [(30, .blockMessage 1 ⟨firstBlock, firstId⟩ 7), (30, .processBacklog)]

/-- A second peer, which has no blocks to name, sends the block in normal operation. -/
def firstBlockAdvertised : List (ℕ × NodeEvent) :=
  [(30, .connected 2 false), (30, .handshakeDone 2),
    (30, .blockchainItemIdsInventory 2 blockMessageType 0 []),
    (30, .itemIdsInventory 2 [⟨blockMessageType, 7⟩]),
    (30, .itemRequested 2 ⟨blockMessageType, 7⟩),
    (30, .blockMessage 2 ⟨firstBlock, firstId⟩ 7), (30, .clientHandles 0), (30, .callReturns 0)]

set_option maxRecDepth 100000 in
theorem sync_blocks_handled_first :
    let run := play .transparent [] { chainDb := Database.smallGenesis }
      (firstBlockNamed ++ firstBlockSynced)
    handed .transparent run.1 = [⟨firstBlock, firstId⟩] ∧
      (received run.1).Perm (backlog run.2 ++ handed .transparent run.1) ∧
      ∀ (p : PeerId) (r : Peer), run.2.peers[p]? = some r → r.connection = .active →
        ∀ id, r.idsOfItemsBeingProcessed.contains id = true → run.2.Pending id := by
  have hplays : plays .transparent (fun _ m => !m.meetsAccepted && !m.leavesBehind) []
      { chainDb := Database.smallGenesis } (firstBlockNamed ++ firstBlockSynced) = true := by
    decide +kernel
  have hrun := sync_blocks_handled (RunOf.play
    (K := fun _ m => m.meetsAccepted = false ∧ m.leavesBehind = false)
    (fun _ m h => by rwa [Bool.and_eq_true, Bool.not_eq_true', Bool.not_eq_true'] at h)
    (.genesis Database.initialize_smallGenesis) hplays)
  exact ⟨by decide +kernel, hrun.1, hrun.2.1⟩

set_option maxRecDepth 100000 in
/-- A peer names the first block and is asked for it. Before it sends the block another peer does,
in normal operation, and the client accepts it. When the block arrives for the synchronization its
id moves to the ids being processed, and no call is started: the block stays in the backlog and
the id where it is. -/
theorem accepted_block_left :
    ∃ past n, RunOf .transparent Database.smallConfig (fun _ _ => True) past n ∧
      backlog n = [⟨firstBlock, firstId⟩] ∧ ∃ (p : PeerId) (r : Peer), n.peers[p]? = some r ∧
        r.connection = .active ∧ r.idsOfItemsBeingProcessed.contains firstId = true ∧
        ¬n.Pending firstId := by
  have hplays : plays .transparent (fun _ _ => true) [] { chainDb := Database.smallGenesis }
      (firstBlockNamed ++ firstBlockAdvertised ++ firstBlockSynced) = true := by
    decide +kernel
  refine ⟨_, _, RunOf.play (fun _ _ _ => trivial) (.genesis Database.initialize_smallGenesis)
    hplays, by decide +kernel, ?_⟩
  have hpeer : ∃ e ∈ (play .transparent [] { chainDb := Database.smallGenesis }
      (firstBlockNamed ++ firstBlockAdvertised ++ firstBlockSynced)).2.peers.toList,
      e.2.connection = .active ∧ e.2.idsOfItemsBeingProcessed.contains firstId = true := by
    decide +kernel
  obtain ⟨⟨p, r⟩, hmem, hactive, hcontains⟩ := hpeer
  refine ⟨p, r, Table.mem_toList.1 hmem, hactive, hcontains, ?_⟩
  have hcalls : (play .transparent [] { chainDb := Database.smallGenesis }
      (firstBlockNamed ++ firstBlockAdvertised ++ firstBlockSynced)).2.handleMessageCalls.length =
      0 := by
    decide +kernel
  rintro ⟨call, hcall, -⟩
  rw [List.length_eq_zero_iff.1 hcalls] at hcall
  exact List.not_mem_nil hcall

end Node

end LarkX
