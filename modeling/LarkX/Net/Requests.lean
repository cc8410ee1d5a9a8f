import LarkX.Net.Steps

/-!
# Sync requests

`_active_sync_requests` are the blocks the node has asked some peer for; `fetch_sync_items_loop`
does not ask for them again. Such a request ends when the block arrives or when the connection
of the peer is closed. A peer that answers that it does not have the block ends it on its own
side only: nobody is asked for that block any more, and the request stays active forever.

In every run without such an answer, each active request is outstanding at a peer whose
connection has not been closed (`requests_outstanding`).
-/

namespace LarkX

open NodeAction

namespace Node

/-- A block is requested from a peer whose connection has not been closed. -/
def Outstanding (n : Node) (id : BlockId) : Prop :=
  ∃ (p : PeerId) (r : Peer), n.peers[p]? = some r ∧ r.closed = false ∧
    r.syncItemsRequestedFromPeer[(⟨blockMessageType, id⟩ : ItemId)]? ≠ none

/-- Every active request is outstanding, and active connections have not been closed. -/
structure RequestsHeld (n : Node) : Prop where
  held : ∀ id : BlockId, n.activeSyncRequests[id]? ≠ none → n.Outstanding id
  opened : ∀ (p : PeerId) (r : Peer), n.peers[p]? = some r → r.connection = .active →
    r.closed = false

/-- The requests to a peer are the same, and its connection is active only if it was, or was
open. -/
structure SameRequests (r r' : Peer) : Prop where
  closed : r'.closed = r.closed
  syncItems : r'.syncItemsRequestedFromPeer = r.syncItemsRequestedFromPeer
  active : r'.connection = .active → r.connection = .active ∨ r.closed = false

theorem tolerant_sameRequests : Tolerant SameRequests where
  trans r₁ r₂ r₃ h h' := by
    refine ⟨h'.closed.trans h.closed, h'.syncItems.trans h.syncItems, fun hactive => ?_⟩
    rcases h'.active hactive with hactive | hopen
    · exact h.active hactive
    · exact Or.inr (h.closed ▸ hopen)
  quiet r r' h := ⟨h.closed, h.syncItems, fun hactive => Or.inl (h.active hactive)⟩
  activate r h := ⟨rfl, rfl, fun _ => Or.inr h⟩
  reset t r := ⟨rfl, rfl, Or.inl⟩
  closed r r' h := h.closed

instance : IsTrans Peer SameRequests :=
  tolerant_sameRequests.isTrans

/-- The requests to the peers are the same, and no other request is active. -/
structure KeepsRequests (n n' : Node) : Prop where
  peers : ByPeer SameRequests n n'
  requests : ∀ id : BlockId, n'.activeSyncRequests[id]? ≠ none → n.activeSyncRequests[id]? ≠ none

theorem KeepsRequests.trans {n₁ n₂ n₃ : Node} (h : KeepsRequests n₁ n₂)
    (h' : KeepsRequests n₂ n₃) : KeepsRequests n₁ n₃ :=
  ⟨h.peers.trans h'.peers, fun id hid => h.requests id (h'.requests id hid)⟩

instance : IsTrans Node KeepsRequests :=
  ⟨fun _ _ _ => KeepsRequests.trans⟩

variable {n n' : Node} {crypto : Crypto} {α : Type}

/-- An outstanding request stays outstanding. -/
theorem KeepsRequests.outstanding (h : KeepsRequests n n') {id : BlockId}
    (hid : n.Outstanding id) : n'.Outstanding id := by
  obtain ⟨p, r, hr, hopen, hrequested⟩ := hid
  obtain ⟨r', hr', hsame⟩ := h.peers.after hr
  refine ⟨p, r', hr', hsame.closed.trans hopen, ?_⟩
  rw [hsame.syncItems]
  exact hrequested

theorem RequestsHeld.keeps (h : RequestsHeld n) (hkeeps : KeepsRequests n n') :
    RequestsHeld n' := by
  refine ⟨fun id hid => hkeeps.outstanding (h.held id (hkeeps.requests id hid)),
    fun p r' hr' hactive => ?_⟩
  obtain ⟨r, hr, hsame⟩ := hkeeps.peers.before hr'
  rw [hsame.closed]
  rcases hsame.active hactive with hactive | hopen
  · exact h.opened p r hr hactive
  · exact hopen

/-! ### Handlers that leave the requests alone -/

theorem keepsRequests_of_onPeers {x : NodeAction α} (hpeers : OnPeers x)
    (h : Follows (ByPeer SameRequests) x) : Follows KeepsRequests x := by
  intro n
  have hkeeps : Keeps Node.activeSyncRequests x := hpeers.keeps fun _ => rfl
  refine Outcome.intro (fun a n' hrun => ?_) fun e n' hrun => ?_
  · refine ⟨(h n).of_ok hrun, fun id hid => ?_⟩
    have hsame : n'.activeSyncRequests = n.activeSyncRequests := (hkeeps n).of_ok hrun
    rwa [← hsame]
  · refine ⟨(h n).of_error hrun, fun id hid => ?_⟩
    have hsame : n'.activeSyncRequests = n.activeSyncRequests := (hkeeps n).of_error hrun
    rwa [← hsame]

theorem keepsRequests_of_keeps {x : NodeAction α}
    (h : Keeps (fun n : Node => (n.peers, n.activeSyncRequests)) x) :
    Follows KeepsRequests x := by
  refine h.mono fun n n' hsame => ?_
  have hsame' : (n'.peers, n'.activeSyncRequests) = (n.peers, n.activeSyncRequests) := hsame
  rw [Prod.mk.injEq] at hsame'
  refine ⟨byPeer_of_peers tolerant_sameRequests.refl hsame'.1, fun id hid => ?_⟩
  rwa [← hsame'.2]

/-- A change of a peer that leaves its connection and its requests alone. -/
theorem keepsRequests_modifyPeer (p : PeerId) {f : Peer → Peer}
    (h : ∀ r, (f r).closed = r.closed ∧
      (f r).syncItemsRequestedFromPeer = r.syncItemsRequestedFromPeer ∧
      (f r).connection = r.connection) : Follows KeepsRequests (modifyPeer p f) :=
  keepsRequests_of_onPeers (onPeers_modifyPeer p f) (tolerant_sameRequests.modifyPeer p fun r =>
    ⟨(h r).1, (h r).2.1, fun hactive => Or.inl ((h r).2.2 ▸ hactive)⟩)

theorem keepsRequests_forActive {f : Peer → Peer}
    (h : ∀ r, (f r).closed = r.closed ∧
      (f r).syncItemsRequestedFromPeer = r.syncItemsRequestedFromPeer ∧
      (f r).connection = r.connection) : Follows KeepsRequests (forActive f) :=
  keepsRequests_of_onPeers (onPeers_forActive f) (tolerant_sameRequests.forActive fun r =>
    ⟨(h r).1, (h r).2.1, fun hactive => Or.inl ((h r).2.2 ▸ hactive)⟩)

theorem keepsRequests_disconnectFromPeer (p : PeerId) :
    Follows KeepsRequests (disconnectFromPeer p) :=
  keepsRequests_of_onPeers (onPeers_disconnectFromPeer p)
    (tolerant_sameRequests.disconnectFromPeer p)

theorem keepsRequests_fetchNextBatchOfItemIdsFromPeer (p : PeerId) :
    Follows KeepsRequests (fetchNextBatchOfItemIdsFromPeer crypto p) :=
  keepsRequests_of_onPeers (onPeers_fetchNextBatchOfItemIdsFromPeer p)
    (tolerant_sameRequests.fetchNextBatchOfItemIdsFromPeer p)

theorem keepsRequests_startSynchronizingWithPeer (p : PeerId) :
    Follows KeepsRequests (startSynchronizingWithPeer crypto p) :=
  keepsRequests_of_onPeers (onPeers_startSynchronizingWithPeer p)
    (tolerant_sameRequests.startSynchronizingWithPeer p)

theorem keepsRequests_onFetchItemsMessage (p : PeerId) (itemType : ℕ) (items : List ℕ) :
    Follows KeepsRequests (onFetchItemsMessage crypto p itemType items) := by
  have hpure : Follows KeepsRequests (pure () : NodeAction Unit) :=
    keepsRequests_of_keeps (keeps_pure ())
  unfold onFetchItemsMessage
  split
  · refine (keepsRequests_of_keeps keeps_get).bind fun n =>
      (keepsRequests_of_keeps (keeps_lift _)).bind fun sent => ?_
    split
    · exact (keepsRequests_modifyPeer p (by exact fun r => ⟨rfl, rfl, rfl⟩)).bind fun _ =>
        (keepsRequests_of_keeps (keeps_lift _)).bind fun _ =>
          keepsRequests_modifyPeer p (by exact fun r => ⟨rfl, rfl, rfl⟩)
    · exact hpure
  · exact hpure

theorem popSeen_requests (n : Node) (itemType : ℕ) (r : Peer) (ids : List BlockId) :
    (popSeen n itemType r ids).closed = r.closed ∧
      (popSeen n itemType r ids).syncItemsRequestedFromPeer = r.syncItemsRequestedFromPeer ∧
      (popSeen n itemType r ids).connection = r.connection := by
  induction ids generalizing r with
  | nil => exact ⟨rfl, rfl, rfl⟩
  | cons id ids ih =>
    unfold popSeen
    split
    · exact ih _
    · exact ⟨rfl, rfl, rfl⟩

theorem keepsRequests_alignItems (p : PeerId) (itemType : ℕ) (ids : List BlockId) :
    Follows KeepsRequests (alignItems p itemType ids) := by
  cases ids with
  | nil => exact keepsRequests_of_keeps (keeps_pure _)
  | cons front rest =>
    refine (keepsRequests_of_keeps (keeps_getPeer p)).bind fun r => ?_
    split
    · refine (keepsRequests_of_keeps keeps_get).bind fun n => ?_
      split
      · exact keepsRequests_of_keeps (keeps_pure _)
      · exact (keepsRequests_modifyPeer p fun r => popSeen_requests n itemType r _).bind fun _ =>
          keepsRequests_of_keeps (keeps_pure _)
    · split
      · refine Follows.bind ?_ fun _ => keepsRequests_of_keeps (keeps_pure _)
        exact (keepsRequests_of_keeps keeps_get).bind fun n =>
          (keepsRequests_modifyPeer p (by exact fun r => ⟨rfl, rfl, rfl⟩)).bind fun _ =>
            (keepsRequests_of_keeps (keeps_lift _)).bind fun _ =>
              keepsRequests_modifyPeer p (by exact fun r => ⟨rfl, rfl, rfl⟩)
      · exact (keepsRequests_modifyPeer p (by exact fun r => ⟨rfl, rfl, rfl⟩)).bind fun _ =>
          keepsRequests_of_keeps (keeps_pure _)

theorem keepsRequests_onBlockchainItemIdsInventoryMessage (wall : ℕ) (p : PeerId)
    (itemType remaining : ℕ) (ids : List BlockId) :
    Follows KeepsRequests
      (onBlockchainItemIdsInventoryMessage crypto wall p itemType remaining ids) := by
  refine (keepsRequests_of_keeps (keeps_getPeer p)).bind fun r => ?_
  split
  · refine (keepsRequests_modifyPeer p (by exact fun r => ⟨rfl, rfl, rfl⟩)).bind fun _ =>
      (keepsRequests_of_keeps keeps_get).bind fun n => ?_
    dsimp only
    split
    · exact keepsRequests_modifyPeer p (by exact fun r => ⟨rfl, rfl, rfl⟩)
    · refine (keepsRequests_modifyPeer p (by exact fun r => ⟨rfl, rfl, rfl⟩)).bind fun _ =>
        (keepsRequests_alignItems p itemType ids).bind fun rest =>
          (keepsRequests_modifyPeer p (by exact fun r => ⟨rfl, rfl, rfl⟩)).bind fun _ =>
            (keepsRequests_of_keeps (keeps_getPeer p)).bind fun r => ?_
      split
      · exact keepsRequests_disconnectFromPeer p
      · split
        · exact keepsRequests_fetchNextBatchOfItemIdsFromPeer p
        · exact keepsRequests_of_keeps (keeps_pure _)
  · exact keepsRequests_of_keeps (keeps_pure _)

theorem keepsRequests_acceptBlock (m : BlockMessage) (messageHash : MessageHash) :
    Follows KeepsRequests (acceptBlock m messageHash) := by
  refine (keepsRequests_forActive fun r => ?_).bind fun _ =>
    keepsRequests_of_keeps (keeps_modify (by exact fun _ => rfl))
  split
  · exact ⟨rfl, rfl, rfl⟩
  · exact ⟨rfl, rfl, rfl⟩

theorem keepsRequests_beginCall (syncMode : Bool) (m : BlockMessage) (messageHash : MessageHash) :
    Follows KeepsRequests (beginCall syncMode m messageHash) :=
  keepsRequests_of_keeps (keeps_modify (by exact fun _ => rfl))

theorem keepsRequests_passNextBlock : Follows KeepsRequests passNextBlock := by
  refine (keepsRequests_of_keeps (keeps_modify (by exact fun _ => rfl))).bind fun _ =>
    (keepsRequests_of_keeps keeps_get).bind fun n => ?_
  split
  · exact keepsRequests_of_keeps (keeps_pure _)
  · refine (keepsRequests_forActive fun r => ?_).bind fun _ => ?_
    · unfold moveToProcessed
      split
      · exact ⟨rfl, rfl, rfl⟩
      · exact ⟨rfl, rfl, rfl⟩
    · split
      · exact keepsRequests_of_keeps (keeps_pure _)
      · exact (keepsRequests_of_keeps (keeps_modify (by exact fun _ => rfl))).bind fun _ =>
          (keepsRequests_beginCall _ _ _).bind fun _ => keepsRequests_of_keeps (keeps_pure _)

theorem keepsRequests_processBacklogOfSyncBlocks :
    Follows KeepsRequests processBacklogOfSyncBlocks := by
  have hloop : ∀ steps, Follows KeepsRequests (backlogLoop steps) := by
    intro steps
    induction steps with
    | zero => exact keepsRequests_of_keeps (keeps_pure _)
    | succ steps ih =>
      refine keepsRequests_passNextBlock.bind fun processed =>
        (keepsRequests_of_keeps keeps_get).bind fun n => ?_
      split
      · exact keepsRequests_of_keeps (keeps_modify (by exact fun _ => rfl))
      · split
        · exact ih
        · exact keepsRequests_of_keeps (keeps_pure _)
  refine (keepsRequests_of_keeps keeps_get).bind fun n => ?_
  split
  · exact (keepsRequests_of_keeps (keeps_modify (by exact fun _ => rfl))).bind fun _ => hloop _
  · exact keepsRequests_of_keeps (keeps_pure _)

theorem keepsRequests_forM {β : Type} {f : β → NodeAction Unit}
    (h : ∀ b, Follows KeepsRequests (f b)) (l : List β) : Follows KeepsRequests (l.forM f) :=
  fun n => Outcome.forM (I := KeepsRequests n) (fun b _ _ h₁ => (h b).after h₁)
    ⟨ByPeer.refl tolerant_sameRequests.refl n, fun _ h => h⟩

theorem keepsRequests_callReturns (k : ℕ) (call : HandleCall) (result : Except Error Unit) :
    Follows KeepsRequests (callReturns crypto k call result) := by
  refine (keepsRequests_of_keeps (keeps_modify (by exact fun _ => rfl))).bind fun _ => ?_
  split
  · refine (keepsRequests_of_keeps (keeps_modify (by exact fun _ => rfl))).bind fun _ =>
      (keepsRequests_of_keeps keeps_get).bind fun n => ?_
    refine (keepsRequests_forActive fun r => ?_).bind fun _ =>
      (keepsRequests_forM keepsRequests_fetchNextBatchOfItemIdsFromPeer _).bind fun _ =>
        keepsRequests_forM keepsRequests_startSynchronizingWithPeer _
    unfold removeProcessed
    split
    · exact ⟨rfl, rfl, rfl⟩
    · exact ⟨rfl, rfl, rfl⟩
  · exact keepsRequests_of_onPeers (onPeers_rejectSyncBlock _ _)
      (tolerant_sameRequests.rejectSyncBlock _ _)
  · exact (keepsRequests_of_keeps (keeps_modify (by exact fun _ => rfl))).bind fun _ =>
      keepsRequests_acceptBlock _ _
  · exact keepsRequests_of_onPeers (onPeers_rejectBlock _) (tolerant_sameRequests.rejectBlock _)

/-! ### Handlers that change the requests -/

/-- The connection of a peer has not been closed. -/
def IsOpen (n : Node) (p : PeerId) : Prop :=
  ∃ r, n.peers[p]? = some r ∧ r.closed = false

theorem isOpen_of_hasOpen {p : PeerId} {q : Peer → Bool} (h : n.hasOpen p q = true) :
    n.IsOpen p := by
  unfold hasOpen at h
  split at h
  · rename_i r hr
    rw [Bool.and_eq_true, Bool.not_eq_true'] at h
    exact ⟨r, hr, h.1⟩
  · cases h

theorem IsOpen.closed {p : PeerId} (h : n.IsOpen p) {r : Peer} (hr : n.peers[p]? = some r) :
    r.closed = false := by
  obtain ⟨r', hr', hopen⟩ := h
  rw [hr] at hr'
  cases hr'
  exact hopen

/-- A request to a peer is added. -/
private theorem request_added (p : PeerId) (id : BlockId) {q : PeerId} {r : Peer}
    (hr : n.peers[q]? = some r) : ∃ r', (requestItem p id n).peers[q]? = some r' ∧
      r'.closed = r.closed ∧ r'.connection = r.connection ∧
      (∀ item : ItemId, r.syncItemsRequestedFromPeer[item]? ≠ none →
        r'.syncItemsRequestedFromPeer[item]? ≠ none) ∧
      (q = p → r'.syncItemsRequestedFromPeer[(⟨blockMessageType, id⟩ : ItemId)]? ≠ none) := by
  change ∃ r', (n.peers.modify p _)[q]? = some r' ∧ _
  rw [getElem?_modify]
  split
  · rename_i heq
    rw [← heq, hr]
    refine ⟨_, rfl, rfl, rfl, fun item hitem => ?_, fun _ => ?_⟩
    · rw [Table.getElem?_insert]
      split
      · exact Option.some_ne_none _
      · exact hitem
    · rw [Table.getElem?_insert_same]
      exact Option.some_ne_none _
  · rename_i hne
    exact ⟨r, hr, rfl, rfl, fun _ hitem => hitem, fun heq => absurd heq hne⟩

theorem IsOpen.requestItem {p q : PeerId} {id : BlockId} (h : n.IsOpen q) :
    (requestItem p id n).IsOpen q := by
  obtain ⟨r, hr, hopen⟩ := h
  obtain ⟨r', hr', hclosed, -⟩ := request_added p id hr
  exact ⟨r', hr', hclosed.trans hopen⟩

theorem RequestsHeld.requestItem (h : RequestsHeld n) {p : PeerId} (hopen : n.IsOpen p)
    (id : BlockId) : RequestsHeld (requestItem p id n) := by
  refine ⟨fun id' hid' => ?_, fun q r' hr' hactive => ?_⟩
  · by_cases heq : id' = id
    · obtain ⟨r, hr, hclosed⟩ := hopen
      obtain ⟨r', hr', hclosed', -, -, hrequested⟩ := request_added p id hr
      rw [heq]
      exact ⟨p, r', hr', hclosed'.trans hclosed, hrequested rfl⟩
    · have hold : n.activeSyncRequests[id']? ≠ none := by
        change (n.activeSyncRequests.insert id ())[id']? ≠ none at hid'
        rwa [Table.getElem?_insert_of_ne _ _ heq] at hid'
      obtain ⟨q, r, hr, hclosed, hrequested⟩ := h.held id' hold
      obtain ⟨r', hr', hclosed', -, hkept, -⟩ := request_added p id hr
      exact ⟨q, r', hr', hclosed'.trans hclosed, hkept _ hrequested⟩
  · cases hq : n.peers[q]? with
    | none =>
      change (n.peers.modify p _)[q]? = some r' at hr'
      rw [getElem?_modify] at hr'
      split at hr'
      · rename_i heq
        rw [← heq, hq] at hr'
        cases hr'
      · rw [hq] at hr'
        cases hr'
    | some r =>
      obtain ⟨r₁, hr₁, hclosed, hconnection, -⟩ := request_added p id hq
      rw [hr₁] at hr'
      cases hr'
      rw [hclosed]
      exact h.opened q r hq (hconnection ▸ hactive)

/-- The loop asks only peers of the list it goes through. -/
theorem mem_scheduleRequests {peers : List (PeerId × Peer)} {scheduled : List BlockId}
    {request : PeerId × List BlockId} (h : request ∈ scheduleRequests n peers scheduled) :
    ∃ r, (request.1, r) ∈ peers := by
  induction peers generalizing scheduled with
  | nil => exact absurd h List.not_mem_nil
  | cons e peers ih =>
    obtain ⟨p, r⟩ := e
    unfold scheduleRequests at h
    split at h
    · rcases List.mem_cons.1 h with rfl | h
      · exact ⟨r, List.mem_cons_self⟩
      · obtain ⟨r', hr'⟩ := ih h
        exact ⟨r', List.mem_cons_of_mem _ hr'⟩
    · obtain ⟨r', hr'⟩ := ih h
      exact ⟨r', List.mem_cons_of_mem _ hr'⟩

theorem RequestsHeld.fetchSyncItems (h : RequestsHeld n) :
    Outcome NodeAction.fetchSyncItems n (fun _ => RequestsHeld) (fun _ => RequestsHeld) := by
  have hitems : ∀ (p : PeerId) (items : List BlockId) (n' : Node), RequestsHeld n' → n'.IsOpen p →
      RequestsHeld (items.foldl (fun n id => NodeAction.requestItem p id n) n') ∧
        ∀ q, n'.IsOpen q → (items.foldl (fun n id => NodeAction.requestItem p id n) n').IsOpen q := by
    intro p items
    induction items with
    | nil => exact fun n' h' _ => ⟨h', fun _ hq => hq⟩
    | cons id items ih =>
      intro n' h' hopen
      obtain ⟨hheld, hkept⟩ := ih (NodeAction.requestItem p id n') (h'.requestItem hopen id)
        hopen.requestItem
      exact ⟨hheld, fun q hq => hkept q hq.requestItem⟩
  rw [NodeAction.fetchSyncItems, Outcome.bind_iff, Outcome.get_iff]
  split
  · refine (Outcome.forM (I := fun n' => RequestsHeld n' ∧ ∀ q, n.IsOpen q → n'.IsOpen q)
      (E := fun _ => RequestsHeld) (fun request n' hrequest hn' => ?_) ⟨h, fun _ hq => hq⟩).mono
      (fun _ _ h => h.1) fun _ _ h => h
    obtain ⟨r, hr⟩ := mem_scheduleRequests hrequest
    obtain ⟨hmem, hactive⟩ := List.mem_filter.1 hr
    have hopen : n.IsOpen request.1 :=
      ⟨r, Table.mem_toList.1 hmem, h.opened _ r (Table.mem_toList.1 hmem) (beq_iff_eq.1 hactive)⟩
    rw [requestSyncItemsFromPeer, Outcome.modify_iff]
    obtain ⟨hheld, hkept⟩ := hitems request.1 request.2 n' hn'.1 (hn'.2 _ hopen)
    exact ⟨hheld, fun q hq => hkept q (hn'.2 q hq)⟩
  · exact h

/-- Only active requests are left when those to a peer are dropped, and none of them is to the
peer. -/
theorem getElem?_withoutRequests (r : Peer) (requests : KeySet BlockId) (id : BlockId) :
    (withoutRequests r requests)[id]? ≠ none → requests[id]? ≠ none ∧
      r.syncItemsRequestedFromPeer[(⟨blockMessageType, id⟩ : ItemId)]? = none := by
  have hfold : ∀ (l : List (ItemId × Unit)) (requests : KeySet BlockId),
      (l.foldl (fun requests item => requests.erase item.1.itemHash) requests)[id]? ≠ none →
        requests[id]? ≠ none ∧ ∀ item ∈ l, item.1.itemHash ≠ id := by
    intro l
    induction l with
    | nil => exact fun _ h => ⟨h, fun _ hitem => absurd hitem List.not_mem_nil⟩
    | cons item l ih =>
      intro requests h
      obtain ⟨hleft, hne⟩ := ih _ h
      rw [Table.getElem?_erase] at hleft
      split at hleft
      · exact absurd rfl hleft
      · rename_i hid
        refine ⟨hleft, fun item' hitem' => ?_⟩
        rcases List.mem_cons.1 hitem' with rfl | hitem'
        · exact fun heq => hid heq.symm
        · exact hne item' hitem'
  intro h
  rw [withoutRequests, Std.ExtTreeMap.foldl_eq_foldl_toList] at h
  obtain ⟨hleft, hne⟩ := hfold _ requests h
  refine ⟨hleft, ?_⟩
  cases hitem : r.syncItemsRequestedFromPeer[(⟨blockMessageType, id⟩ : ItemId)]? with
  | none => rfl
  | some u => exact absurd rfl (hne _ (Table.mem_toList.2 hitem))

/-- A connection is closed. The requests to its peer were outstanding nowhere else that counts,
and are dropped. -/
theorem RequestsHeld.onConnectionClosed (h : RequestsHeld n) (p : PeerId) :
    Outcome (onConnectionClosed p) n (fun _ => RequestsHeld) (fun _ => RequestsHeld) := by
  rw [NodeAction.onConnectionClosed, Outcome.bind_iff]
  refine outcome_getPeer (fun r hr => ?_) fun _ _ => h
  rw [Outcome.bind_iff, modifyPeer, Outcome.modify_iff, Outcome.modify_iff]
  refine ⟨fun id hid => ?_, fun q r' hr' hactive => ?_⟩
  · obtain ⟨hold, hnone⟩ := getElem?_withoutRequests r n.activeSyncRequests id hid
    obtain ⟨q, rq, hrq, hopen, hrequested⟩ := h.held id hold
    refine ⟨q, rq, ?_, hopen, hrequested⟩
    change (n.peers.modify p _)[q]? = some rq
    rw [getElem?_modify, if_neg ?_]
    · exact hrq
    · rintro rfl
      rw [hr] at hrq
      cases hrq
      exact hrequested hnone
  · change (n.peers.modify p _)[q]? = some r' at hr'
    rw [getElem?_modify] at hr'
    split at hr'
    · rw [hr] at hr'
      cases hr'
      cases hactive
    · exact h.opened q r' hr' hactive

/-- A new connection has no requests. -/
theorem RequestsHeld.connected (h : RequestsHeld n) {p : PeerId} (hnew : n.peers[p]? = none)
    (inbound : Bool) : RequestsHeld { n with peers := n.peers.insert p { inbound } } := by
  refine ⟨fun id hid => ?_, fun q r hr hactive => ?_⟩
  · obtain ⟨q, r, hr, hopen, hrequested⟩ := h.held id hid
    refine ⟨q, r, ?_, hopen, hrequested⟩
    change (n.peers.insert p _)[q]? = some r
    rw [Table.getElem?_insert_of_ne _ _ ?_]
    · exact hr
    · rintro rfl
      rw [hnew] at hr
      cases hr
  · change (n.peers.insert p _)[q]? = some r at hr
    rw [Table.getElem?_insert] at hr
    split at hr
    · cases hr
      cases hactive
    · exact h.opened q r hr hactive

/-- A block that was requested arrives: the request ends on both sides. -/
theorem RequestsHeld.received (h : RequestsHeld n) (p : PeerId) (m : BlockMessage) :
    RequestsHeld { n with
      peers := n.peers.modify p fun r => { r with
        syncItemsRequestedFromPeer :=
          r.syncItemsRequestedFromPeer.erase ⟨blockMessageType, m.blockId⟩ }
      activeSyncRequests := n.activeSyncRequests.erase m.blockId
      newReceivedSyncItems := m :: n.newReceivedSyncItems } := by
  refine ⟨fun id hid => ?_, fun q r' hr' hactive => ?_⟩
  · change (n.activeSyncRequests.erase m.blockId)[id]? ≠ none at hid
    rw [Table.getElem?_erase] at hid
    split at hid
    · exact absurd rfl hid
    · rename_i hne
      obtain ⟨q, r, hr, hopen, hrequested⟩ := h.held id hid
      by_cases heq : q = p
      · refine ⟨q, { r with
          syncItemsRequestedFromPeer :=
            r.syncItemsRequestedFromPeer.erase ⟨blockMessageType, m.blockId⟩ }, ?_, hopen, ?_⟩
        · change (n.peers.modify p _)[q]? = _
          rw [getElem?_modify, if_pos heq, ← heq, hr, Option.map_some]
        · change (r.syncItemsRequestedFromPeer.erase _)[_]? ≠ none
          rw [Table.getElem?_erase_of_ne _ ?_]
          · exact hrequested
          · exact fun hitem => hne (congrArg ItemId.itemHash hitem)
      · refine ⟨q, r, ?_, hopen, hrequested⟩
        change (n.peers.modify p _)[q]? = _
        rw [getElem?_modify, if_neg heq, hr]
  · change (n.peers.modify p _)[q]? = some r' at hr'
    rw [getElem?_modify] at hr'
    split at hr'
    · cases hr : n.peers[p]? with
      | none =>
        rw [hr] at hr'
        cases hr'
      | some r =>
        rw [hr] at hr'
        cases hr'
        exact h.opened p r hr hactive
    · exact h.opened q r' hr' hactive

theorem RequestsHeld.processBlockMessage (h : RequestsHeld n) (p : PeerId) (m : BlockMessage)
    (messageHash : MessageHash) :
    Outcome (processBlockMessage p m messageHash) n (fun _ => RequestsHeld)
      (fun _ => RequestsHeld) := by
  rw [NodeAction.processBlockMessage, Outcome.bind_iff]
  refine outcome_getPeer (fun r hr => ?_) fun _ _ => h
  split
  · -- an item of normal operation
    have hkeeps : Follows KeepsRequests (do
        modifyPeer p fun r => { r with
          itemsRequestedFromPeer := r.itemsRequestedFromPeer.erase ⟨blockMessageType, messageHash⟩ }
        processBlockDuringNormalOperation m messageHash) := by
      refine (keepsRequests_modifyPeer p (by exact fun r => ⟨rfl, rfl, rfl⟩)).bind fun _ =>
        (keepsRequests_of_keeps keeps_get).bind fun n => ?_
      split
      · exact keepsRequests_acceptBlock m messageHash
      · exact keepsRequests_beginCall false m messageHash
    exact (hkeeps n).mono (fun _ _ => h.keeps) fun _ _ => h.keeps
  · split
    · rw [Outcome.bind_iff, modifyPeer, Outcome.modify_iff, Outcome.modify_iff]
      exact h.received p m
    · exact (keepsRequests_disconnectFromPeer p n).mono (fun _ _ => h.keeps) fun _ _ => h.keeps

/-! ### Runs -/

/-- A peer answers that it does not have a block it was asked for to synchronize. -/
def Moment.refusesRequest (m : Moment) : Bool :=
  match m.event with
  | .itemNotAvailable p item =>
    match m.node.peers[p]? with
    | some r => !r.itemsRequestedFromPeer.contains item &&
      r.syncItemsRequestedFromPeer.contains item
    | none => false
  | _ => false

/-- An item that is not available and was not requested to synchronize. -/
theorem RequestsHeld.itemNotAvailable (h : RequestsHeld n) {wall : ℕ} {p : PeerId} {item : ItemId}
    (hrefuses : Moment.refusesRequest ⟨n, wall, .itemNotAvailable p item⟩ = false) :
    Outcome (onItemNotAvailableMessage p item) n (fun _ => RequestsHeld)
      (fun _ => RequestsHeld) := by
  rw [onItemNotAvailableMessage, Outcome.bind_iff]
  refine outcome_getPeer (fun r hr => ?_) fun _ _ => h
  split
  · exact (keepsRequests_modifyPeer p (by exact fun r => ⟨rfl, rfl, rfl⟩) n).mono
      (fun _ _ => h.keeps) fun _ _ => h.keeps
  · rename_i hnot
    rw [if_neg ?_]
    · exact h
    · intro hsync
      rw [Moment.refusesRequest] at hrefuses
      dsimp only at hrefuses
      rw [hr] at hrefuses
      dsimp only at hrefuses
      rw [hsync, Bool.eq_false_iff.2 hnot] at hrefuses
      cases hrefuses

theorem RequestsHeld.step {wall : ℕ} {e : NodeEvent} (h : RequestsHeld n)
    (hrefuses : Moment.refusesRequest ⟨n, wall, e⟩ = false) (hstep : Step crypto wall e n n') :
    RequestsHeld n' := by
  have hkeeps : Follows KeepsRequests (e.action crypto wall) → RequestsHeld n' := fun hkeeps =>
    h.keeps (hstep.follows hkeeps)
  have hparts : Keeps (fun n : Node => (n.peers, n.activeSyncRequests)) (e.action crypto wall) →
      RequestsHeld n' := fun hparts => hkeeps (keepsRequests_of_keeps hparts)
  have hmodify : ∀ (p : PeerId) (f : Peer → Peer),
      (∀ r, (f r).closed = r.closed ∧
        (f r).syncItemsRequestedFromPeer = r.syncItemsRequestedFromPeer ∧
        (f r).connection = r.connection) →
      e.action crypto wall = modifyPeer p f → RequestsHeld n' := fun p f hf haction =>
    hkeeps (haction ▸ keepsRequests_modifyPeer p hf)
  -- the answers to a request for ids may make a connection active, which is open then
  have hopened : ∀ p : PeerId, n.IsOpen p → OnPeers (e.action crypto wall) →
      Outcome (e.action crypto wall) n (fun _ => ByPeer SameRequests n)
        (fun _ => ByPeer SameRequests n) → RequestsHeld n' := by
    intro p hopen hpeers hby
    have hsame : n'.activeSyncRequests = n.activeSyncRequests :=
      hstep.follows (hpeers.keeps (π := Node.activeSyncRequests) fun _ => rfl)
    refine h.keeps ⟨hstep.outcome hby, fun id hid => ?_⟩
    rwa [← hsame]
  cases e with
  | connected p inbound =>
    refine hstep.outcome ?_
    rw [NodeEvent.action, Outcome.modify_iff]
    exact h.connected (Option.isNone_iff_eq_none.1 hstep.enabled) inbound
  | handshakeDone p =>
    have hopen : n.IsOpen p := isOpen_of_hasOpen hstep.enabled
    exact hopened p hopen (onPeers_activatePeer p)
      (tolerant_sameRequests.activatePeer fun r hr => hopen.closed hr)
  | disconnected p => exact hkeeps (keepsRequests_disconnectFromPeer p)
  | closingConnection p => exact hmodify p _ (by exact fun r => ⟨rfl, rfl, rfl⟩) rfl
  | connectionClosed p => exact hstep.outcome (h.onConnectionClosed p)
  | inactive gently forcibly =>
    exact hkeeps (keepsRequests_of_onPeers (onPeers_terminateInactiveConnections _ _)
      (tolerant_sameRequests.terminateInactiveConnections _ _))
  | itemIdsInventory p items => exact hmodify p _ (by exact fun r => ⟨rfl, rfl, rfl⟩) rfl
  | inventoryExpires p item => exact hmodify p _ (by exact fun r => ⟨rfl, rfl, rfl⟩) rfl
  | itemRequested p item => exact hmodify p _ (by exact fun r => ⟨rfl, rfl, rfl⟩) rfl
  | fetchSyncItems => exact hstep.outcome h.fetchSyncItems
  | fetchBlockchainItemIds p itemType synopsis =>
    have hopen : n.IsOpen p := isOpen_of_hasOpen hstep.enabled
    exact hopened p hopen (onPeers_onFetchBlockchainItemIdsMessage _ _ _)
      (tolerant_sameRequests.onFetchBlockchainItemIdsMessage _ _ fun r hr => hopen.closed hr)
  | blockchainItemIdsInventory p itemType remaining ids =>
    exact hkeeps (keepsRequests_onBlockchainItemIdsInventoryMessage _ _ _ _ _)
  | fetchItems p itemType items => exact hkeeps (keepsRequests_onFetchItemsMessage _ _ _)
  | itemNotAvailable p item => exact hstep.outcome (h.itemNotAvailable hrefuses)
  | blockMessage p m messageHash => exact hstep.outcome (h.processBlockMessage p m messageHash)
  | processBacklog => exact hkeeps keepsRequests_processBacklogOfSyncBlocks
  | clientHandles k =>
    refine hparts (keeps_get.bind fun n => ?_)
    split
    · refine keeps_modify fun n => ?_
      split <;> rfl
    · exact keeps_pure _
  | callReturns k =>
    refine hkeeps ((keepsRequests_of_keeps keeps_get).bind fun n => ?_)
    split
    · split
      · exact keepsRequests_callReturns k _ _
      · exact keepsRequests_of_keeps (keeps_pure _)
    · exact keepsRequests_of_keeps (keeps_pure _)
  | produced b messageHash =>
    refine hstep.outcome ?_
    rw [NodeEvent.action, produceBlock, Outcome.bind_iff, Outcome.get_iff]
    split
    · rw [Outcome.bind_iff, Outcome.set_iff]
      exact ⟨h.held, h.opened⟩
    · rw [Outcome.bind_iff, Outcome.set_iff]
      exact ⟨h.held, h.opened⟩
  | startSynchronizing =>
    exact hkeeps (keepsRequests_of_onPeers onPeers_startSynchronizing
      tolerant_sameRequests.startSynchronizing)
  | syncFrom => exact hparts (keeps_modify (by exact fun _ => rfl))
  | cacheExpires messageHash => exact hparts (keeps_modify (by exact fun _ => rfl))
  | simulateDisconnect state => exact hparts (keeps_modify (by exact fun _ => rfl))
  | delegateLoop => exact hparts (keeps_modify (by exact fun _ => rfl))
  | reindexed b => exact hparts (keeps_modify (by exact fun _ => rfl))

theorem requestsHeld_fresh (db : Database) : RequestsHeld { chainDb := db } := by
  refine ⟨fun id hid => absurd (Table.getElem?_empty' id) hid, fun p r hr => ?_⟩
  rw [Table.getElem?_empty'] at hr
  cases hr

/-- **In every run in which no peer answers that it does not have a block it was asked for to
synchronize, no request is lost**: every active one is outstanding. -/
theorem requests_outstanding {config : GenesisBlockConfig} {past : List Moment}
    (h : RunOf crypto config (fun _ m => m.refusesRequest = false) past n) (id : BlockId)
    (hid : n.activeSyncRequests[id]? ≠ none) : n.Outstanding id :=
  (h.invariant (I := fun _ => RequestsHeld) (fun db _ => requestsHeld_fresh db)
    fun _ _ _ _ _ hheld hrefuses hstep => hheld.step hrefuses hstep).held id hid

/-! ### A block that nobody is asked for again -/

/-- A peer names a block, and is asked for it. -/
def blockRequested : List (ℕ × NodeEvent) :=
  [(30, .connected 1 false), (30, .handshakeDone 1),
    (30, .blockchainItemIdsInventory 1 blockMessageType 0 [5]), (30, .fetchSyncItems)]

set_option maxRecDepth 100000 in
theorem requests_outstanding_first :
    let run := play .transparent [] { chainDb := Database.smallGenesis } blockRequested
    run.2.activeSyncRequests[(5 : BlockId)]? ≠ none ∧ run.2.Outstanding 5 :=
  ⟨by decide +kernel, requests_outstanding (RunOf.play
    (k := fun _ m => !m.refusesRequest) (fun _ m h => (Bool.not_eq_true' m.refusesRequest).mp h)
    (.genesis Database.initialize_smallGenesis) (by decide +kernel)) 5 (by decide +kernel)⟩

set_option maxRecDepth 100000 in
/-- The peer answers that it does not have the block, and is disconnected. The request stays
active, and is outstanding nowhere. -/
theorem refused_request_lost :
    ∃ past n, RunOf .transparent Database.smallConfig (fun _ _ => True) past n ∧
      n.activeSyncRequests[(5 : BlockId)]? ≠ none ∧ ¬n.Outstanding 5 := by
  have hplays : plays .transparent (fun _ _ => true) [] { chainDb := Database.smallGenesis }
      (blockRequested ++ [(30, .itemNotAvailable 1 ⟨blockMessageType, 5⟩)]) = true := by
    decide +kernel
  refine ⟨_, _, RunOf.play (fun _ _ _ => trivial) (.genesis Database.initialize_smallGenesis)
    hplays, by decide +kernel, ?_⟩
  have hpeers : ∀ e ∈ (play .transparent [] { chainDb := Database.smallGenesis }
      (blockRequested ++ [(30, .itemNotAvailable 1 ⟨blockMessageType, 5⟩)])).2.peers.toList,
      e.2.syncItemsRequestedFromPeer.contains ⟨blockMessageType, 5⟩ = false := by
    decide +kernel
  rintro ⟨p, r, hr, -, hrequested⟩
  have hnone := hpeers _ (Table.mem_toList.2 hr)
  rw [Std.ExtTreeMap.contains_eq_isSome_getElem?] at hnone
  exact hrequested (Option.isNone_iff_eq_none.1 (Option.isSome_eq_false_iff.1 hnone))

end Node

end LarkX
