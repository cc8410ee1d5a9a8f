import LarkX.Chain.Known
import LarkX.Net.Steps

/-!
# The blocks a node takes for accepted

`_most_recent_blocks_accepted` is the node's memory of the blocks its client has accepted: a
block whose id is on it is not passed to the client again. A block message comes with an id its
sender claims. The client looks that id up and the node remembers it, but what is pushed to the
chain database is the block, whose id may be another one; and the client returns normally for an
id the database knows, even when the block of that id has been rejected.

In every run in which each message the client handles names its own block, and none the id of a
block that was rejected, the memory is right (`accepted_taken`). A message that names another
block breaks it.
-/

namespace LarkX

open NodeAction

namespace Node

variable (crypto : Crypto)

/-! ### What a run gives to the chain database -/

/-- The message the client handles in a moment. -/
def Moment.handled (m : Moment) : Option BlockMessage :=
  match m.event with
  | .clientHandles k => (m.node.handleMessageCalls[k]?).map HandleCall.message
  | .produced b _ => some (.ofBlock crypto b)
  | _ => none

/-- The block `push_block` is called with in a moment. -/
def Moment.pushed (m : Moment) : Option FullBlock :=
  match m.event with
  | .reindexed b => some b
  | _ =>
    match m.handled crypto with
    | some msg =>
      if m.node.simulateDisconnect || m.node.chainDb.isKnownBlock msg.blockId then none
      else some msg.block
    | none => none

/-- The id of the block that is pushed in a moment, if `push_block` returns or, for `false`, if
it throws. -/
def Moment.ends (returned : Bool) (m : Moment) : Option BlockId :=
  match m.pushed crypto with
  | some b =>
    if returns (Action.pushBlock crypto m.wall b) m.node.chainDb = returned then
      some (crypto.blockId b.toSignedBlockHeader)
    else none
  | none => none

/-- The ids of the blocks that were given to the chain database and not rejected. -/
def taken (past : List Moment) : List BlockId :=
  past.filterMap (Moment.ends crypto true)

/-- The ids of the blocks that the chain database has rejected. -/
def rejected (past : List Moment) : List BlockId :=
  past.filterMap (Moment.ends crypto false)

/-- The heads of the chain that the node has been started from. -/
def syncedFrom (past : List Moment) : List BlockId :=
  past.filterMap fun m => match m.event with
    | .syncFrom => some m.node.chainDb.headBlockId
    | _ => none

/-- A message the client handles claims the id of a block that was taken before, or else: an id
the database knows, but not as that of the genesis state or of a block that was rejected; or the
id of the block it carries. -/
def ClaimsRightly (past : List Moment) (m : Moment) (msg : BlockMessage) : Prop :=
  msg.blockId ∈ taken crypto past ∨
    if m.node.chainDb.isKnownBlock msg.blockId then
      msg.blockId ≠ 0 ∧ msg.blockId ∉ rejected crypto past
    else msg.blockId = crypto.blockId msg.block.toSignedBlockHeader

instance (past : List Moment) (m : Moment) (msg : BlockMessage) :
    Decidable (ClaimsRightly crypto past m msg) :=
  inferInstanceAs (Decidable (_ ∨ _))

/-- Every message the client handles claims an id rightly. -/
def RightClaims : Condition := fun past m =>
  ∀ msg ∈ m.handled crypto, ClaimsRightly crypto past m msg

instance (past : List Moment) (m : Moment) : Decidable (RightClaims crypto past m) :=
  inferInstanceAs (Decidable (∀ msg ∈ m.handled crypto, ClaimsRightly crypto past m msg))

variable {crypto} {past : List Moment} {m : Moment} {n n' : Node} {id : BlockId}

theorem mem_taken_cons (h : id ∈ taken crypto past) : id ∈ taken crypto (m :: past) :=
  ((List.sublist_cons_self m past).filterMap _).subset h

theorem mem_rejected_cons (h : id ∈ rejected crypto past) : id ∈ rejected crypto (m :: past) :=
  ((List.sublist_cons_self m past).filterMap _).subset h

theorem mem_syncedFrom_cons (h : id ∈ syncedFrom past) : id ∈ syncedFrom (m :: past) :=
  ((List.sublist_cons_self m past).filterMap _).subset h

/-- A block that is pushed is taken or rejected. -/
theorem ends_of_pushed {b : FullBlock} (h : m.pushed crypto = some b) :
    crypto.blockId b.toSignedBlockHeader ∈ taken crypto (m :: past) ∨
      crypto.blockId b.toSignedBlockHeader ∈ rejected crypto (m :: past) := by
  cases hreturns : returns (Action.pushBlock crypto m.wall b) m.node.chainDb with
  | true =>
    refine Or.inl (List.mem_filterMap.2 ⟨m, List.mem_cons_self, ?_⟩)
    rw [Moment.ends, h]
    exact if_pos hreturns
  | false =>
    refine Or.inr (List.mem_filterMap.2 ⟨m, List.mem_cons_self, ?_⟩)
    rw [Moment.ends, h]
    exact if_pos hreturns

/-! ### What a handler adds to the memory -/

/-- Only ids in `S` are remembered, no call is answered and the chain database is left alone. -/
structure Remembers (S : BlockId → Prop) (n n' : Node) : Prop where
  accepted : ∀ id ∈ n'.mostRecentBlocksAccepted, id ∈ n.mostRecentBlocksAccepted ∨ S id
  answered : ∀ call ∈ n'.handleMessageCalls, call.result = some (.ok ()) →
    call ∈ n.handleMessageCalls
  chainDb : n'.chainDb = n.chainDb

variable {S : BlockId → Prop}

theorem Remembers.refl (S : BlockId → Prop) (n : Node) : Remembers S n n :=
  ⟨fun _ h => Or.inl h, fun _ h _ => h, rfl⟩

theorem Remembers.trans {n₁ n₂ n₃ : Node} (h : Remembers S n₁ n₂) (h' : Remembers S n₂ n₃) :
    Remembers S n₁ n₃ := by
  refine ⟨fun id hid => ?_, fun call hcall hok => ?_, h'.chainDb.trans h.chainDb⟩
  · rcases h'.accepted id hid with hid | hS
    · exact h.accepted id hid
    · exact Or.inr hS
  · exact h.answered call (h'.answered call hcall hok) hok

instance : IsTrans Node (Remembers S) :=
  ⟨fun _ _ _ => Remembers.trans⟩

theorem mem_pushAccepted {accepted : List BlockId} {pushed : BlockId}
    (h : id ∈ pushAccepted accepted pushed) : id ∈ accepted ∨ id = pushed := by
  have hmem : id ∈ accepted ++ [pushed] := List.mem_of_mem_drop h
  rwa [List.mem_append, List.mem_singleton] at hmem

/-- The parts of the node the memory is about. -/
def memory (n : Node) : List BlockId × List HandleCall × Database :=
  (n.mostRecentBlocksAccepted, n.handleMessageCalls, n.chainDb)

theorem remembers_of_memory (h : memory n' = memory n) : Remembers S n n' := by
  simp only [memory, Prod.mk.injEq] at h
  obtain ⟨haccepted, hcalls, hdb⟩ := h
  refine ⟨fun id hid => Or.inl ?_, fun call hcall _ => ?_, hdb⟩
  · rwa [← haccepted]
  · rwa [← hcalls]

/-- An id is pushed. -/
theorem remembers_of_push {pushed : BlockId} (hS : S pushed)
    (haccepted : n'.mostRecentBlocksAccepted = pushAccepted n.mostRecentBlocksAccepted pushed)
    (hcalls : n'.handleMessageCalls = n.handleMessageCalls) (hdb : n'.chainDb = n.chainDb) :
    Remembers S n n' := by
  refine ⟨fun id hid => ?_, fun call hcall _ => hcalls ▸ hcall, hdb⟩
  rw [haccepted] at hid
  rcases mem_pushAccepted hid with hid | rfl
  · exact Or.inl hid
  · exact Or.inr hS

variable {α : Type} {x : NodeAction α}

theorem remembers_of_keeps (h : Keeps memory x) : Follows (Remembers S) x :=
  h.mono fun _ _ => remembers_of_memory

theorem remembers_of_onPeers (h : OnPeers x) : Follows (Remembers S) x :=
  remembers_of_keeps (h.keeps fun _ => rfl)

theorem remembers_broadcast {msg : BlockMessage} (hS : S msg.blockId) (messageHash : MessageHash) :
    Follows (Remembers S) (broadcast msg messageHash) :=
  Follows.modify fun _ => remembers_of_push hS (by dsimp only) rfl rfl

theorem remembers_acceptBlock {msg : BlockMessage} (hS : S msg.blockId)
    (messageHash : MessageHash) : Follows (Remembers S) (acceptBlock msg messageHash) :=
  (remembers_of_onPeers (onPeers_forActive _)).bind fun _ => remembers_broadcast hS messageHash

theorem remembers_beginCall (syncMode : Bool) (msg : BlockMessage) (messageHash : MessageHash) :
    Follows (Remembers S) (beginCall syncMode msg messageHash) := by
  refine fun n => ⟨fun _ h => Or.inl h, fun call hcall hok => ?_, rfl⟩
  rcases List.mem_append.1 hcall with hcall | hnew
  · exact hcall
  · rw [List.mem_singleton.1 hnew] at hok
    cases hok

theorem keeps_fetchSyncItems : Keeps memory NodeAction.fetchSyncItems := by
  have hrequests : ∀ (p : PeerId) (items : List BlockId) (n : Node),
      memory (items.foldl (fun n id => requestItem p id n) n) = memory n := by
    intro p items
    induction items with
    | nil => exact fun _ => rfl
    | cons id items ih => exact fun n => ih (requestItem p id n)
  refine keeps_get.bind fun n => ?_
  split
  · exact keeps_forM (fun request : PeerId × List BlockId =>
      keeps_modify (hrequests request.1 request.2)) _
  · exact keeps_pure _

/-- A block message is remembered at once only if its id is on the list already. -/
theorem remembers_processBlockMessage (p : PeerId) (msg : BlockMessage)
    (messageHash : MessageHash) :
    Follows (Remembers fun _ => False) (processBlockMessage p msg messageHash) := by
  have hnormal : Follows (Remembers fun _ => False)
      (processBlockDuringNormalOperation msg messageHash) := by
    intro n
    rw [processBlockDuringNormalOperation, Outcome.bind_iff, Outcome.get_iff]
    split
    · rename_i hcontains
      have hmem : msg.blockId ∈ n.mostRecentBlocksAccepted := List.contains_iff_mem.1 hcontains
      have hforget : ∀ n', Remembers (fun id => id ∈ n.mostRecentBlocksAccepted) n n' →
          Remembers (fun _ => False) n n' := fun n' h =>
        ⟨fun id hid => Or.inl ((h.accepted id hid).elim (fun h => h) fun h => h), h.answered,
          h.chainDb⟩
      exact (remembers_acceptBlock (S := fun id => id ∈ n.mostRecentBlocksAccepted) hmem _ n).mono
        (fun _ n' h => hforget n' h) fun _ n' h => hforget n' h
    · exact remembers_beginCall _ _ _ n
  refine (remembers_of_keeps (keeps_getPeer p)).bind fun r => ?_
  split
  · exact (remembers_of_onPeers (onPeers_modifyPeer _ _)).bind fun _ => hnormal
  · split
    · exact (remembers_of_onPeers (onPeers_modifyPeer _ _)).bind fun _ =>
        remembers_of_keeps (keeps_modify fun _ => rfl)
    · exact remembers_of_onPeers (onPeers_disconnectFromPeer p)

theorem remembers_passNextBlock : Follows (Remembers S) passNextBlock := by
  refine (remembers_of_keeps (keeps_modify (by exact fun _ => rfl))).bind fun _ =>
    (remembers_of_keeps keeps_get).bind fun n => ?_
  split
  · exact remembers_of_keeps (keeps_pure _)
  · refine (remembers_of_onPeers (onPeers_forActive _)).bind fun _ => ?_
    split
    · exact remembers_of_keeps (keeps_pure _)
    · exact (remembers_of_keeps (keeps_modify (by exact fun _ => rfl))).bind fun _ =>
        (remembers_beginCall _ _ _).bind fun _ => remembers_of_keeps (keeps_pure _)

theorem remembers_backlogLoop (steps : ℕ) : Follows (Remembers S) (backlogLoop steps) := by
  induction steps with
  | zero => exact remembers_of_keeps (keeps_pure _)
  | succ steps ih =>
    refine remembers_passNextBlock.bind fun processed =>
      (remembers_of_keeps keeps_get).bind fun n => ?_
    split
    · exact remembers_of_keeps (keeps_modify (by exact fun _ => rfl))
    · split
      · exact ih
      · exact remembers_of_keeps (keeps_pure _)

theorem remembers_processBacklogOfSyncBlocks :
    Follows (Remembers S) processBacklogOfSyncBlocks := by
  refine (remembers_of_keeps keeps_get).bind fun n => ?_
  split
  · exact (remembers_of_keeps (keeps_modify (by exact fun _ => rfl))).bind fun _ =>
      remembers_backlogLoop _
  · exact remembers_of_keeps (keeps_pure _)

/-- When the node goes on after a call, it remembers the id of an accepted message only. -/
theorem remembers_callReturns (k : ℕ) (call : HandleCall) (result : Except Error Unit) :
    Follows (Remembers fun id => result = .ok () ∧ id = call.message.blockId)
      (callReturns crypto k call result) := by
  have herase : Follows (Remembers fun id => result = .ok () ∧ id = call.message.blockId)
      (modify fun n => { n with handleMessageCalls := n.handleMessageCalls.eraseIdx k } :
        NodeAction Unit) :=
    fun n => ⟨fun _ h => Or.inl h, fun _ h _ => List.mem_of_mem_eraseIdx h, rfl⟩
  have hpush : result = .ok () → Follows
      (Remembers fun id => result = .ok () ∧ id = call.message.blockId)
      (modify fun n => { n with
        mostRecentBlocksAccepted := pushAccepted n.mostRecentBlocksAccepted call.message.blockId } :
        NodeAction Unit) :=
    fun hok => Follows.modify fun _ => remembers_of_push ⟨hok, rfl⟩ (by dsimp only) rfl rfl
  refine herase.bind fun _ => ?_
  split
  · refine (hpush rfl).bind fun _ => (remembers_of_keeps keeps_get).bind fun n => ?_
    exact (remembers_of_onPeers (onPeers_forActive _)).bind fun _ =>
      (remembers_of_onPeers (keeps_forM onPeers_fetchNextBatchOfItemIdsFromPeer _)).bind fun _ =>
        remembers_of_onPeers (keeps_forM onPeers_startSynchronizingWithPeer _)
  · exact remembers_of_onPeers (onPeers_rejectSyncBlock _ _)
  · exact (hpush rfl).bind fun _ => remembers_acceptBlock ⟨rfl, rfl⟩ _
  · exact remembers_of_onPeers (onPeers_rejectBlock _)

/-! ### What the client does with a message -/

variable (crypto) in
/-- **A block from the network**, however its handling ends: when the claimed id is known nothing
changes, otherwise the block is pushed. -/
theorem onNewBlock_outcome (wall : ℕ) (simulateDisconnect : Bool) (b : FullBlock)
    (blockId : BlockId) (syncMode : Bool) (db : Database) :
    Outcome (Action.onNewBlock crypto wall simulateDisconnect b blockId syncMode) db
      (fun _ db' => (db.isKnownBlock blockId = true ∧ db' = db) ∨
        (simulateDisconnect = false ∧ db.isKnownBlock blockId = false ∧
          ∃ r, (Action.pushBlock crypto wall b).run db = .ok r db'))
      (fun _ db' => db' = db ∨ (simulateDisconnect = false ∧ db.isKnownBlock blockId = false ∧
        db.Learns (crypto.blockId b.toSignedBlockHeader) db')) := by
  rw [Action.onNewBlock, Outcome.bind_iff, Action.outcome_lift]
  refine ⟨fun _ hsim => ?_, fun _ _ => Or.inl rfl⟩
  rw [require_eq_ok] at hsim
  rw [Outcome.bind_iff, Outcome.get_iff]
  split
  · rename_i hknown
    rw [Action.getBlockForkData, Outcome.bind_iff, Outcome.bind_iff, Outcome.get_iff,
      Action.outcome_lift]
    refine ⟨fun r _ => ?_, fun _ _ => Or.inl rfl⟩
    rw [Outcome.bind_iff, Action.outcome_lift]
    exact ⟨fun _ _ => Or.inl ⟨hknown, rfl⟩, fun _ _ => Or.inl rfl⟩
  · rename_i hknown
    rw [Bool.not_eq_true] at hknown
    rw [Outcome.bind_iff]
    refine Outcome.intro (fun r db' hrun => ?_) fun e db' hrun => ?_
    · rw [Outcome.bind_iff, Action.outcome_lift]
      refine ⟨fun _ _ => Or.inr ⟨hsim, hknown, r, hrun⟩, fun _ _ => Or.inr ⟨hsim, hknown, ?_⟩⟩
      exact (Action.pushBlock_learns b db).of_ok hrun
    · exact Or.inr ⟨hsim, hknown, (Action.pushBlock_learns b db).of_error hrun⟩

variable (crypto) in
theorem handleMessage_outcome (wall : ℕ) (simulateDisconnect : Bool) (msg : BlockMessage)
    (syncMode : Bool) (db : Database) :
    Outcome (Action.handleMessage crypto wall simulateDisconnect msg syncMode) db
      (fun _ db' => (db.isKnownBlock msg.blockId = true ∧ db' = db) ∨
        (simulateDisconnect = false ∧ db.isKnownBlock msg.blockId = false ∧
          ∃ r, (Action.pushBlock crypto wall msg.block).run db = .ok r db'))
      (fun _ db' => db' = db ∨ (simulateDisconnect = false ∧
        db.isKnownBlock msg.blockId = false ∧
          db.Learns (crypto.blockId msg.block.toSignedBlockHeader) db')) := by
  rw [Action.handleMessage, Outcome.bind_iff, Outcome.get_iff, Outcome.bind_iff]
  exact onNewBlock_outcome crypto wall simulateDisconnect msg.block msg.blockId syncMode db

/-! ### The memory is right -/

variable (crypto) in
/-- The memory is right, and so is what it is filled from: the answers of the client and the
blocks the database knows. -/
structure RemembersRight (past : List Moment) (n : Node) : Prop where
  accepted : ∀ id ∈ n.mostRecentBlocksAccepted, id ∈ taken crypto past ∨ id ∈ syncedFrom past
  answered : ∀ call ∈ n.handleMessageCalls, call.result = some (.ok ()) →
    call.message.blockId ∈ taken crypto past
  known : ∀ id : BlockId, n.chainDb.isKnownBlock id = true →
    id = 0 ∨ id ∈ taken crypto past ∨ id ∈ rejected crypto past

theorem RemembersRight.later (h : RemembersRight crypto past n) :
    RemembersRight crypto (m :: past) n := by
  refine ⟨fun id hid => ?_, fun call hcall hok => ?_, fun id hid => ?_⟩
  · exact (h.accepted id hid).imp mem_taken_cons mem_syncedFrom_cons
  · exact mem_taken_cons (h.answered call hcall hok)
  · exact (h.known id hid).imp_right fun hid => hid.imp mem_taken_cons mem_rejected_cons

/-- A handler that only remembers what it may. -/
theorem RemembersRight.remembers (h : RemembersRight crypto past n) (hR : Remembers S n n')
    (hS : ∀ id, S id → id ∈ taken crypto past ∨ id ∈ syncedFrom past) :
    RemembersRight crypto past n' := by
  refine ⟨fun id hid => ?_, fun call hcall hok => ?_, fun id hid => ?_⟩
  · rcases hR.accepted id hid with hid | hid
    · exact h.accepted id hid
    · exact hS id hid
  · exact h.answered call (hR.answered call hcall hok) hok
  · rw [hR.chainDb] at hid
    exact h.known id hid

/-- What the database knows after a block was pushed. -/
theorem RemembersRight.known_push (h : RemembersRight crypto past m.node) {b : FullBlock}
    (hpushed : m.pushed crypto = some b) {db' : Database}
    (hlearns : m.node.chainDb.Learns (crypto.blockId b.toSignedBlockHeader) db')
    (hid : db'.isKnownBlock id = true) :
    id = 0 ∨ id ∈ taken crypto (m :: past) ∨ id ∈ rejected crypto (m :: past) := by
  rcases hlearns id hid with hid | rfl
  · exact h.later.known id hid
  · exact Or.inr (ends_of_pushed hpushed)

theorem mem_taken_of_push {b : FullBlock} (hpushed : m.pushed crypto = some b)
    {r : BlockForkData} {db' : Database}
    (hrun : (Action.pushBlock crypto m.wall b).run m.node.chainDb = .ok r db') :
    crypto.blockId b.toSignedBlockHeader ∈ taken crypto (m :: past) := by
  refine List.mem_filterMap.2 ⟨m, List.mem_cons_self, ?_⟩
  rw [Moment.ends, hpushed]
  refine if_pos ?_
  rw [returns, hrun]

/-- A message that was handled without an error claims the id of a block that was taken. -/
theorem RemembersRight.claimed (h : RemembersRight crypto past m.node) {msg : BlockMessage}
    (hhandled : m.handled crypto = some msg) (hK : RightClaims crypto past m)
    (hpushed : m.node.simulateDisconnect = false →
      m.node.chainDb.isKnownBlock msg.blockId = false → m.pushed crypto = some msg.block)
    {db' : Database}
    (hok : (m.node.chainDb.isKnownBlock msg.blockId = true ∧ db' = m.node.chainDb) ∨
      (m.node.simulateDisconnect = false ∧ m.node.chainDb.isKnownBlock msg.blockId = false ∧
        ∃ r, (Action.pushBlock crypto m.wall msg.block).run m.node.chainDb = .ok r db')) :
    msg.blockId ∈ taken crypto (m :: past) := by
  rcases hK msg hhandled with htaken | hclaim
  · exact mem_taken_cons htaken
  · rcases hok with ⟨hknown, -⟩ | ⟨hsim, hknown, r, hrun⟩
    · -- the id is known, so its block was taken or rejected
      rw [if_pos hknown] at hclaim
      rcases h.known _ hknown with hzero | htaken | hrejected
      · exact absurd hzero hclaim.1
      · exact mem_taken_cons htaken
      · exact absurd hrejected hclaim.2
    · rw [if_neg (by rw [hknown]; exact Bool.false_ne_true)] at hclaim
      rw [hclaim]
      exact mem_taken_of_push (hpushed hsim hknown) hrun

theorem pushed_of_handled {msg : BlockMessage} (h : m.handled crypto = some msg)
    (hsim : m.node.simulateDisconnect = false)
    (hknown : m.node.chainDb.isKnownBlock msg.blockId = false) :
    m.pushed crypto = some msg.block := by
  unfold Moment.pushed
  split
  · rename_i b hevent
    rw [Moment.handled, hevent] at h
    cases h
  · rw [h]
    dsimp only
    rw [hsim, hknown]
    rfl

/-- The client handles a call. -/
theorem RemembersRight.clientHandles {wall k : ℕ} (h : RemembersRight crypto past n)
    (hK : RightClaims crypto past ⟨n, wall, .clientHandles k⟩)
    (hstep : Step crypto wall (.clientHandles k) n n') :
    RemembersRight crypto (⟨n, wall, .clientHandles k⟩ :: past) n' := by
  have hlater : RemembersRight crypto (⟨n, wall, .clientHandles k⟩ :: past) n := h.later
  refine hstep.outcome ?_
  rw [NodeEvent.action, Outcome.bind_iff, Outcome.get_iff]
  cases hcall : n.handleMessageCalls[k]? with
  | none => exact hlater
  | some call =>
    have hhandled : Moment.handled crypto ⟨n, wall, .clientHandles k⟩ = some call.message := by
      change (n.handleMessageCalls[k]?).map HandleCall.message = _
      rw [hcall]
      rfl
    have hpushed := fun hsim hknown => pushed_of_handled hhandled hsim hknown
    -- the other calls are those from before
    have hanswers : ∀ answer : HandleCall, answer.message = call.message →
        (answer.result = some (.ok ()) →
          call.message.blockId ∈ taken crypto (⟨n, wall, .clientHandles k⟩ :: past)) →
        ∀ c ∈ n.handleMessageCalls.set k answer, c.result = some (.ok ()) →
          c.message.blockId ∈ taken crypto (⟨n, wall, .clientHandles k⟩ :: past) := by
      intro answer hmessage hanswer c hc hok
      rcases List.mem_or_eq_of_mem_set hc with hc | rfl
      · exact hlater.answered c hc hok
      · rw [hmessage]
        exact hanswer hok
    have houtcome := handleMessage_outcome crypto wall n.simulateDisconnect
      call.message call.syncMode n.chainDb
    dsimp only
    rw [NodeAction.clientHandles, Outcome.modify_iff]
    split
    · rename_i db hrun
      have hok := houtcome.of_ok hrun
      have hclaimed := h.claimed hhandled hK hpushed hok
      refine ⟨hlater.accepted, hanswers _ rfl fun _ => hclaimed, fun id hid => ?_⟩
      rcases hok with ⟨-, rfl⟩ | ⟨hsim, hknown, r, hpush⟩
      · exact hlater.known id hid
      · exact h.known_push (hpushed hsim hknown)
          ((Action.pushBlock_learns call.message.block n.chainDb).of_ok hpush) hid
    · rename_i e db hrun
      refine ⟨hlater.accepted, hanswers _ rfl fun hanswer => ?_, fun id hid => ?_⟩
      · cases hanswer
      · rcases houtcome.of_error hrun with rfl | ⟨hsim, hknown, hlearns⟩
        · exact hlater.known id hid
        · exact h.known_push (hpushed hsim hknown) hlearns hid

/-- The client has produced a block. -/
theorem RemembersRight.produced {wall : ℕ} {b : FullBlock} {messageHash : MessageHash}
    (h : RemembersRight crypto past n)
    (hK : RightClaims crypto past ⟨n, wall, .produced b messageHash⟩)
    (hstep : Step crypto wall (.produced b messageHash) n n') :
    RemembersRight crypto (⟨n, wall, .produced b messageHash⟩ :: past) n' := by
  have hlater : RemembersRight crypto (⟨n, wall, .produced b messageHash⟩ :: past) n := h.later
  have hhandled : Moment.handled crypto ⟨n, wall, .produced b messageHash⟩ =
      some (.ofBlock crypto b) := rfl
  have hpushed := fun hsim hknown => pushed_of_handled hhandled hsim hknown
  have houtcome := onNewBlock_outcome crypto wall n.simulateDisconnect b
    (crypto.blockId b.toSignedBlockHeader) false n.chainDb
  refine hstep.outcome ?_
  rw [NodeEvent.action, produceBlock, Outcome.bind_iff, Outcome.get_iff]
  split
  · rename_i r db hrun
    have hok := houtcome.of_ok hrun
    have hclaimed := h.claimed hhandled hK hpushed hok
    have hset : RemembersRight crypto (⟨n, wall, .produced b messageHash⟩ :: past)
        { n with chainDb := db } := by
      refine ⟨hlater.accepted, hlater.answered, fun id hid => ?_⟩
      rcases hok with ⟨-, rfl⟩ | ⟨hsim, hknown, r, hpush⟩
      · exact hlater.known id hid
      · exact h.known_push (hpushed hsim hknown)
          ((Action.pushBlock_learns b n.chainDb).of_ok hpush) hid
    rw [Outcome.bind_iff, Outcome.set_iff]
    have hremembers : ∀ n₁, Remembers (fun id => id = (BlockMessage.ofBlock crypto b).blockId)
        { n with chainDb := db } n₁ →
        RemembersRight crypto (⟨n, wall, .produced b messageHash⟩ :: past) n₁ :=
      fun n₁ hR => hset.remembers hR fun id hid => Or.inl (hid ▸ hclaimed)
    exact (remembers_broadcast (S := fun id => id = (BlockMessage.ofBlock crypto b).blockId) rfl
      messageHash _).mono (fun _ n₁ => hremembers n₁)
      fun _ n₁ => hremembers n₁
  · rename_i e db hrun
    rw [Outcome.bind_iff, Outcome.set_iff, Outcome.throw_iff]
    refine ⟨hlater.accepted, hlater.answered, fun id hid => ?_⟩
    rcases houtcome.of_error hrun with rfl | ⟨hsim, hknown, hlearns⟩
    · exact hlater.known id hid
    · exact h.known_push (hpushed hsim hknown) hlearns hid

/-- The chain database gets a block from its own files. -/
theorem RemembersRight.reindexed {wall : ℕ} {b : FullBlock} (h : RemembersRight crypto past n)
    (hstep : Step crypto wall (.reindexed b) n n') :
    RemembersRight crypto (⟨n, wall, .reindexed b⟩ :: past) n' := by
  have hlater : RemembersRight crypto (⟨n, wall, .reindexed b⟩ :: past) n := h.later
  refine hstep.outcome ?_
  rw [NodeEvent.action, Outcome.modify_iff]
  refine ⟨hlater.accepted, hlater.answered, fun id hid => ?_⟩
  refine h.known_push (m := ⟨n, wall, .reindexed b⟩) rfl ?_ hid
  have hlearns : Outcome (Action.pushBlock crypto wall b) n.chainDb
      (fun _ => n.chainDb.Learns (crypto.blockId b.toSignedBlockHeader))
      (fun _ => n.chainDb.Learns (crypto.blockId b.toSignedBlockHeader)) :=
    Action.pushBlock_learns b n.chainDb
  unfold Database.pushed
  split
  · rename_i hrun
    exact hlearns.of_ok hrun
  · rename_i hrun
    exact hlearns.of_error hrun

/-- The node goes on after a call. -/
theorem RemembersRight.callReturns {wall k : ℕ} (h : RemembersRight crypto past n)
    (hstep : Step crypto wall (.callReturns k) n n') :
    RemembersRight crypto (⟨n, wall, .callReturns k⟩ :: past) n' := by
  have hlater : RemembersRight crypto (⟨n, wall, .callReturns k⟩ :: past) n := h.later
  refine hstep.outcome ?_
  rw [NodeEvent.action, Outcome.bind_iff, Outcome.get_iff]
  cases hcall : n.handleMessageCalls[k]? with
  | none => exact hlater
  | some call =>
    cases hresult : call.result with
    | none =>
      dsimp only
      rw [hresult]
      exact hlater
    | some result =>
      have hremembers : ∀ n₁, Remembers (fun id => result = .ok () ∧ id = call.message.blockId)
          n n₁ → RemembersRight crypto (⟨n, wall, .callReturns k⟩ :: past) n₁ := by
        refine fun n₁ hR => hlater.remembers hR ?_
        rintro id ⟨rfl, rfl⟩
        exact Or.inl (hlater.answered call (List.mem_of_getElem? hcall) hresult)
      dsimp only
      rw [hresult]
      exact (remembers_callReturns k call result n).mono (fun _ n₁ => hremembers n₁)
        fun _ n₁ => hremembers n₁

/-- The node is started from the head of the chain. -/
theorem RemembersRight.syncFrom {wall : ℕ} (h : RemembersRight crypto past n)
    (hstep : Step crypto wall .syncFrom n n') :
    RemembersRight crypto (⟨n, wall, .syncFrom⟩ :: past) n' := by
  have hlater : RemembersRight crypto (⟨n, wall, .syncFrom⟩ :: past) n := h.later
  refine hstep.outcome ?_
  rw [NodeEvent.action, NodeAction.syncFrom, Outcome.modify_iff]
  refine ⟨fun id hid => Or.inr ?_, hlater.answered, hlater.known⟩
  rw [List.mem_singleton.1 hid]
  exact List.mem_filterMap.2 ⟨_, List.mem_cons_self, rfl⟩

/-- One step. -/
theorem RemembersRight.step {wall : ℕ} {e : NodeEvent} (h : RemembersRight crypto past n)
    (hK : RightClaims crypto past ⟨n, wall, e⟩) (hstep : Step crypto wall e n n') :
    RemembersRight crypto (⟨n, wall, e⟩ :: past) n' := by
  have hkeeps : Keeps memory (e.action crypto wall) →
      RemembersRight crypto (⟨n, wall, e⟩ :: past) n' := fun hkeeps =>
    h.later.remembers (S := fun _ => False) (hstep.follows (remembers_of_keeps hkeeps))
      fun _ hid => hid.elim
  have hpeers : OnPeers (e.action crypto wall) →
      RemembersRight crypto (⟨n, wall, e⟩ :: past) n' := fun hpeers =>
    hkeeps (hpeers.keeps fun _ => rfl)
  have hforgets : Follows (Remembers fun _ => False) (e.action crypto wall) →
      RemembersRight crypto (⟨n, wall, e⟩ :: past) n' := fun hR =>
    h.later.remembers (hstep.follows hR) fun _ hid => hid.elim
  cases e with
  | connected p inbound => exact hkeeps (keeps_modify (by exact fun _ => rfl))
  | handshakeDone p => exact hpeers (onPeers_activatePeer p)
  | disconnected p => exact hpeers (onPeers_disconnectFromPeer p)
  | closingConnection p => exact hpeers (onPeers_modifyPeer _ _)
  | connectionClosed p =>
    exact hkeeps ((keeps_getPeer p).bind fun _ => (keeps_modify (by exact fun _ => rfl)).bind
      fun _ => keeps_modify (by exact fun _ => rfl))
  | inactive gently forcibly => exact hpeers (onPeers_terminateInactiveConnections _ _)
  | itemIdsInventory p items => exact hpeers (onPeers_modifyPeer _ _)
  | inventoryExpires p item => exact hpeers (onPeers_modifyPeer _ _)
  | itemRequested p item => exact hpeers (onPeers_modifyPeer _ _)
  | fetchSyncItems => exact hkeeps keeps_fetchSyncItems
  | fetchBlockchainItemIds p itemType synopsis =>
    exact hpeers (onPeers_onFetchBlockchainItemIdsMessage _ _ _)
  | blockchainItemIdsInventory p itemType remaining ids =>
    exact hpeers (onPeers_onBlockchainItemIdsInventoryMessage _ _ _ _ _)
  | fetchItems p itemType items => exact hpeers (onPeers_onFetchItemsMessage _ _ _)
  | itemNotAvailable p item => exact hpeers (onPeers_onItemNotAvailableMessage _ _)
  | blockMessage p msg messageHash => exact hforgets (remembers_processBlockMessage _ _ _)
  | processBacklog => exact hforgets remembers_processBacklogOfSyncBlocks
  | clientHandles k => exact h.clientHandles hK hstep
  | callReturns k => exact h.callReturns hstep
  | produced b messageHash => exact h.produced hK hstep
  | startSynchronizing => exact hpeers onPeers_startSynchronizing
  | syncFrom => exact h.syncFrom hstep
  | cacheExpires messageHash => exact hkeeps (keeps_modify (by exact fun _ => rfl))
  | simulateDisconnect state => exact hkeeps (keeps_modify (by exact fun _ => rfl))
  | delegateLoop =>
    have hdb : n' = { n with chainDb := n.chainDb.verifySignatures } :=
      hstep.outcome (Q := fun n' => n' = _) rfl
    rw [hdb]
    exact ⟨h.later.accepted, h.later.answered, h.later.known⟩
  | reindexed b => exact h.reindexed hstep

theorem remembersRight_genesis {config : GenesisBlockConfig} {db : Database}
    (h : initializeGenesis crypto config = .ok db) :
    RemembersRight crypto [] { chainDb := db } := by
  refine ⟨fun _ hid => (List.not_mem_nil hid).elim, fun _ hcall => (List.not_mem_nil hcall).elim,
    fun id hid => Or.inl ?_⟩
  simp only [initializeGenesis, bind_eq_ok, pure_eq_ok] at h
  obtain ⟨ledger, -, rfl⟩ := h
  by_contra hne
  have hnone : ((∅ : Table BlockId BlockForkData).insert 0 Genesis.genesisFork)[id]? = none := by
    rw [Table.getElem?_insert_of_ne _ _ hne, Table.getElem?_empty']
  rw [Database.isKnownBlock, hnone] at hid
  cases hid

/-- **In every run in which each message the client handles claims an id rightly, the node takes
a block for accepted only if a block of that id was given to the chain database and not
rejected**, or it is the head the node was started from. -/
theorem accepted_taken {config : GenesisBlockConfig}
    (h : RunOf crypto config (RightClaims crypto) past n) :
    ∀ id ∈ n.mostRecentBlocksAccepted, id ∈ taken crypto past ∨ id ∈ syncedFrom past :=
  (h.invariant (I := RemembersRight crypto) (fun _ => remembersRight_genesis)
    fun _ _ _ _ _ hright hK hstep => hright.step hK hstep).accepted

/-! ### A message that names another block -/

/-- A first block. -/
def firstBlock : FullBlock :=
  Database.smallGenesis.blockOn 1 20 []

/-- A second block, on top of it. -/
def secondBlock : FullBlock :=
  (Database.smallGenesis.pushed .transparent 30 firstBlock).blockOn 2 30 []

/-- A peer connects and sends the first block, under an id it claims. -/
def firstBlockUnder (blockId : BlockId) : List (ℕ × NodeEvent) :=
  [(30, .connected 1 false), (30, .handshakeDone 1),
    (30, .blockchainItemIdsInventory 1 blockMessageType 0 []),
    (30, .itemIdsInventory 1 [⟨blockMessageType, 7⟩]),
    (30, .itemRequested 1 ⟨blockMessageType, 7⟩),
    (30, .blockMessage 1 ⟨firstBlock, blockId⟩ 7), (30, .clientHandles 0), (30, .callReturns 0)]

set_option maxRecDepth 100000 in
theorem accepted_taken_first :
    let run := play .transparent [] { chainDb := Database.smallGenesis }
      (firstBlockUnder (Crypto.transparent.blockId firstBlock.toSignedBlockHeader))
    Crypto.transparent.blockId firstBlock.toSignedBlockHeader ∈ run.2.mostRecentBlocksAccepted ∧
      ∀ id ∈ run.2.mostRecentBlocksAccepted,
        id ∈ taken .transparent run.1 ∨ id ∈ syncedFrom run.1 :=
  ⟨by decide +kernel, accepted_taken (RunOf.play
    (k := fun past m => decide (RightClaims .transparent past m))
    (fun _ _ h => of_decide_eq_true h) (.genesis Database.initialize_smallGenesis)
    (by decide +kernel))⟩

set_option maxRecDepth 100000 in
/-- A peer sends the first block under the id of the second. The node takes the second block for
accepted, which was never given to the chain database and which would be taken. -/
theorem mislabelled_block_accepted :
    ∃ past n, RunOf .transparent Database.smallConfig (fun _ _ => True) past n ∧
      Crypto.transparent.blockId secondBlock.toSignedBlockHeader ∈ n.mostRecentBlocksAccepted ∧
      Crypto.transparent.blockId secondBlock.toSignedBlockHeader ∉ taken .transparent past ∧
      Crypto.transparent.blockId secondBlock.toSignedBlockHeader ∉ syncedFrom past ∧
      returns (Action.pushBlock .transparent 40 secondBlock) n.chainDb = true := by
  have hplays : plays .transparent (fun _ _ => true) [] { chainDb := Database.smallGenesis }
      (firstBlockUnder (Crypto.transparent.blockId secondBlock.toSignedBlockHeader)) = true := by
    decide +kernel
  refine ⟨_, _, RunOf.play (fun _ _ _ => trivial) (.genesis Database.initialize_smallGenesis)
    hplays, ?_, ?_, ?_, ?_⟩ <;> decide +kernel

end Node

end LarkX
