import LarkX.Net.PeerChanges

/-!
# No offer is forgotten

Once an active peer has offered an item, the node keeps asking for it: as long as the peer stays
active and its offer is kept, the item is queued or requested from an open connection, until it
arrives (`GossipRun.offer_kept`). The offer survives peers that do not deliver, requests that are
refused, and connections that end with requests on them.

The queue compares its sequence numbers in 32 bits. Numbers that are less than `2 ^ 31` apart keep
their order, and no place in the queue is taken twice (`Numbered.queued`).
-/

namespace LarkX

open Std (ExtTreeMap)

namespace GossipNode

/-! ### The queue -/

/-- The item is queued. -/
def Queued (n : GossipNode) (item : ItemId) : Prop :=
  ∃ e ∈ n.itemsToFetch, e.item = item

/-- The numbers of the queue were taken before. -/
def Numbered (n : GossipNode) : Prop :=
  ∀ e ∈ n.itemsToFetch, ∃ k < n.itemsToFetchSequenceCounter, e.sequenceNumber = k % 2 ^ 32

variable {n n' : GossipNode} {p q : PeerId} {item item' : ItemId} {now : ℕ}

theorem mem_placeItem {e new : PrioritizedItemId} {queue : List PrioritizedItemId} :
    e ∈ placeItem new queue ↔ e = new ∨ e ∈ queue := by
  induction queue with
  | nil => rw [placeItem, List.mem_singleton, or_iff_left List.not_mem_nil]
  | cons first queue ih =>
    rw [placeItem]
    split
    · rw [List.mem_cons]
    · rw [List.mem_cons, ih, List.mem_cons, or_left_comm]

theorem mem_insertItem {e new : PrioritizedItemId} {queue : List PrioritizedItemId}
    (h : e ∈ insertItem new queue) : e = new ∨ e ∈ queue := by
  unfold insertItem at h
  split at h
  · exact Or.inr h
  · exact mem_placeItem.1 h

theorem mem_insertItem_of_mem {e new : PrioritizedItemId} {queue : List PrioritizedItemId}
    (h : e ∈ queue) : e ∈ insertItem new queue := by
  unfold insertItem
  split
  · exact h
  · exact mem_placeItem.2 (Or.inr h)

theorem Numbered.queueItem (h : n.Numbered) (item : ItemId) : (n.queueItem item).Numbered := by
  intro e he
  rcases mem_insertItem he with rfl | he
  · exact ⟨_, Nat.lt_succ_self _, rfl⟩
  · obtain ⟨k, hk, heq⟩ := h e he
    exact ⟨k, Nat.lt_succ_of_lt hk, heq⟩

theorem Queued.queueItem (h : n.Queued item) (item' : ItemId) :
    (n.queueItem item').Queued item := by
  obtain ⟨e, he, hitem⟩ := h
  exact ⟨e, mem_insertItem_of_mem he, hitem⟩

/-- Two entries whose numbers are close have an order. -/
theorem before_or_before {e e' : PrioritizedItemId} (he : e.sequenceNumber < e'.sequenceNumber)
    (he' : e'.sequenceNumber < 2 ^ 31) : e.before e' = true ∨ e'.before e = true := by
  unfold PrioritizedItemId.before
  by_cases htype : e.item.itemType = e'.item.itemType
  · refine Or.inl ?_
    rw [if_neg (not_not.2 htype)]
    have hahead : (e'.sequenceNumber + (2 ^ 32 - e.sequenceNumber % 2 ^ 32)) % 2 ^ 32 =
        e'.sequenceNumber - e.sequenceNumber := by omega
    simp only [hahead, Bool.and_eq_true, decide_eq_true_eq]
    omega
  · rw [if_pos htype, if_pos (Ne.symm htype)]
    simp only [decide_eq_true_eq]
    omega

/-- **An item that is queued is in the queue**, as long as the numbers have not come round. -/
theorem Numbered.queued (h : n.Numbered) (item : ItemId)
    (hcount : n.itemsToFetchSequenceCounter < 2 ^ 31) : (n.queueItem item).Queued item := by
  change ∃ e ∈ insertItem _ _, _
  unfold insertItem
  split
  · rename_i hany
    obtain ⟨e, he, htaken⟩ := List.any_eq_true.1 hany
    rw [Bool.or_eq_true, beq_iff_eq, Bool.and_eq_true, Bool.not_eq_true', Bool.not_eq_true']
      at htaken
    refine ⟨e, he, htaken.resolve_right ?_⟩
    rintro ⟨hbefore, hafter⟩
    obtain ⟨k, hk, hnumber⟩ := h e he
    have hlt : e.sequenceNumber < n.itemsToFetchSequenceCounter % 2 ^ 32 := by omega
    have hsmall : n.itemsToFetchSequenceCounter % 2 ^ 32 < 2 ^ 31 := by omega
    rcases @before_or_before e ⟨item, n.itemsToFetchSequenceCounter % 2 ^ 32⟩ hlt hsmall with
      hfirst | hfirst
    · exact Bool.false_ne_true (hbefore.symm.trans hfirst)
    · exact Bool.false_ne_true (hafter.symm.trans hfirst)
  · exact ⟨_, mem_placeItem.2 (Or.inl rfl), rfl⟩

/-! ### Offers -/

/-- The peer is active and its inventory has the item. -/
def Offers (n : GossipNode) (p : PeerId) (item : ItemId) : Prop :=
  ∃ r, n.peers[p]? = some r ∧ r.isActive = true ∧ item ∈ r.inventoryPeerAdvertisedToUs

theorem offers_iff : n.Offers p item ↔ n.peers[p]?.any (fun r =>
    r.isActive && r.inventoryPeerAdvertisedToUs.contains item) = true := by
  rw [Option.any_eq_true]
  simp only [Bool.and_eq_true, ExtTreeMap.contains_iff_mem]
  exact Iff.rfl

instance : Decidable (n.Offers p item) :=
  decidable_of_iff _ offers_iff.symm

/-- The item is requested from a peer with an open connection. -/
def Requested (n : GossipNode) (item : ItemId) : Prop :=
  ∃ (q : PeerId) (r : GossipPeer), n.peers[q]? = some r ∧ r.isOpen = true ∧
    item ∈ r.itemsRequestedFromPeer

/-- The item is queued or requested. -/
def Wanted (n : GossipNode) (item : ItemId) : Prop :=
  n.Queued item ∨ n.Requested item

/-- The peer is no longer new, and an item that it offers is wanted. -/
structure Kept (p : PeerId) (item : ItemId) (n : GossipNode) : Prop where
  left : ∃ r, n.peers[p]? = some r ∧ r.connection ≠ .handshaking
  wanted : n.Offers p item → n.Wanted item

/-- A change of a peer that neither ends a request for the item nor makes an offer of it. -/
structure Tame (item : ItemId) (r r' : GossipPeer) : Prop where
  left : r.connection ≠ .handshaking → r'.connection ≠ .handshaking
  active : r.connection ≠ .handshaking → r'.isActive = true → r.isActive = true
  opened : r.isOpen = true → r'.isOpen = true
  offered : item ∈ r'.inventoryPeerAdvertisedToUs → item ∈ r.inventoryPeerAdvertisedToUs
  requested : item ∈ r.itemsRequestedFromPeer → item ∈ r'.itemsRequestedFromPeer

theorem Tame.refl (item : ItemId) (r : GossipPeer) : Tame item r r :=
  ⟨fun h => h, fun _ h => h, fun h => h, fun h => h, fun h => h⟩

/-- Every peer has changed tamely, and no item has left the queue. -/
structure Tamely (item : ItemId) (n n' : GossipNode) : Prop where
  peers : ∀ (q : PeerId) (r : GossipPeer), n.peers[q]? = some r →
    ∃ r', n'.peers[q]? = some r' ∧ Tame item r r'
  queued : n.Queued item → n'.Queued item

theorem Tamely.requested (h : Tamely item n n') (hitem : n.Requested item) :
    n'.Requested item := by
  obtain ⟨q, r, hr, hopen, hmem⟩ := hitem
  obtain ⟨r', hr', htame⟩ := h.peers q r hr
  exact ⟨q, r', hr', htame.opened hopen, htame.requested hmem⟩

theorem Tamely.wanted (h : Tamely item n n') (hitem : n.Wanted item) : n'.Wanted item :=
  hitem.imp h.queued h.requested

theorem Tamely.kept (h : Tamely item n n') (hkept : Kept p item n) : Kept p item n' := by
  obtain ⟨r, hr, hleft⟩ := hkept.left
  obtain ⟨r', hr', htame⟩ := h.peers p r hr
  refine ⟨⟨r', hr', htame.left hleft⟩, ?_⟩
  rintro ⟨r'', hr'', hactive, hoffer⟩
  cases hr'.symm.trans hr''
  exact h.wanted (hkept.wanted ⟨r, hr, htame.active hleft hactive, htame.offered hoffer⟩)

/-- One peer changes tamely. -/
theorem tamely_insert {r r' : GossipPeer} (hr : n.peers[q]? = some r) (htame : Tame item r r')
    (hpeers : n'.peers = n.peers.insert q r') (hqueued : n.Queued item → n'.Queued item) :
    Tamely item n n' := by
  refine ⟨fun q' r₀ hr₀ => ?_, hqueued⟩
  rw [hpeers, Table.getElem?_insert]
  split
  · rename_i heq
    cases hr.symm.trans (heq ▸ hr₀)
    exact ⟨r', rfl, htame⟩
  · exact ⟨r₀, hr₀, .refl item r₀⟩

/-- The peers change tamely, each by itself. -/
theorem tamely_map {f : PeerId → GossipPeer → GossipPeer} (htame : ∀ q r, Tame item r (f q r))
    (hpeers : n'.peers = n.peers.map f) (hqueued : n.Queued item → n'.Queued item) :
    Tamely item n n' := by
  refine ⟨fun q r hr => ⟨f q r, ?_, htame q r⟩, hqueued⟩
  rw [hpeers, ExtTreeMap.getElem?_map, hr]
  rfl

theorem tamely_modifyPeer {f : GossipPeer → GossipPeer}
    (htame : ∀ r, n.peers[q]? = some r → Tame item r (f r)) :
    Tamely item n (n.modifyPeer q f) := by
  refine ⟨fun q' r hr => ?_, fun h => h⟩
  change ∃ r', (n.peers.modify q f)[q']? = some r' ∧ _
  rw [ExtTreeMap.getElem?_modify]
  split
  · rename_i heq
    rw [compare_eq_iff_eq] at heq
    subst heq
    exact ⟨f r, by rw [hr]; rfl, htame r hr⟩
  · exact ⟨r, hr, .refl item r⟩

/-! ### Parts of the handlers -/

theorem tamely_same (hpeers : n'.peers = n.peers) (hqueue : n'.itemsToFetch = n.itemsToFetch) :
    Tamely item n n' := by
  refine ⟨fun q r hr => ⟨r, hpeers ▸ hr, .refl item r⟩, fun h => ?_⟩
  unfold Queued
  rw [hqueue]
  exact h

/-- Queueing is all that happens. -/
structure Queues (n n' : GossipNode) : Prop where
  peers : n'.peers = n.peers
  counter : n.itemsToFetchSequenceCounter ≤ n'.itemsToFetchSequenceCounter
  numbered : n.Numbered → n'.Numbered
  queued : ∀ item, n.Queued item → n'.Queued item

theorem queues_refl (n : GossipNode) : Queues n n :=
  ⟨rfl, Nat.le_refl _, fun h => h, fun _ h => h⟩

theorem Queues.trans {n₁ : GossipNode} (h : Queues n n₁) (h' : Queues n₁ n') : Queues n n' :=
  ⟨h'.peers.trans h.peers, h.counter.trans h'.counter, fun hn => h'.numbered (h.numbered hn),
    fun item hi => h'.queued item (h.queued item hi)⟩

theorem Queues.tamely (h : Queues n n') : Tamely item n n' :=
  ⟨fun q r hr => ⟨r, by rw [h.peers]; exact hr, .refl item r⟩, h.queued item⟩

theorem queues_queueItem (n : GossipNode) (item : ItemId) : Queues n (n.queueItem item) :=
  ⟨rfl, Nat.le_succ _, fun h => h.queueItem item, fun _ h => h.queueItem item⟩

theorem queues_requeueItem (n : GossipNode) (item : ItemId) : Queues n (n.requeueItem item) := by
  unfold requeueItem
  split
  · exact queues_queueItem n item
  · exact queues_refl n

/-- An offer is found in the inventories. -/
theorem Offers.inAnyInventory (h : n.Offers p item) : n.isItemInAnyPeersInventory item = true := by
  obtain ⟨r, hr, hactive, hmem⟩ := h
  refine List.any_eq_true.2 ⟨(p, r), Table.mem_toList.2 hr, ?_⟩
  rw [Bool.and_eq_true]
  exact ⟨hactive, ExtTreeMap.contains_iff_mem.2 hmem⟩

/-- An item that some active peer offers is queued again. -/
theorem Offers.requeued (h : n.Offers p item) (hn : n.Numbered)
    (hcount : (n.requeueItem item).itemsToFetchSequenceCounter ≤ 2 ^ 31) :
    (n.requeueItem item).Queued item := by
  rw [requeueItem, if_pos h.inAnyInventory] at hcount ⊢
  exact hn.queued item hcount

/-- The requests of a connection that has ended, one after another. -/
theorem queues_requeueAll (n : GossipNode) (l : List (ItemId × ℕ)) :
    Queues n (l.foldl (fun n e => n.requeueItem e.1) n) := by
  induction l generalizing n with
  | nil => exact queues_refl n
  | cons e l ih => exact (queues_requeueItem n e.1).trans (ih _)

theorem Offers.requeuedAll {l : List (ItemId × ℕ)} (h : n.Offers p item) (hn : n.Numbered)
    (hmem : item ∈ l.map Prod.fst)
    (hcount : (l.foldl (fun n e => n.requeueItem e.1) n).itemsToFetchSequenceCounter ≤ 2 ^ 31) :
    (l.foldl (fun n e => n.requeueItem e.1) n).Queued item := by
  induction l generalizing n with
  | nil => exact absurd hmem List.not_mem_nil
  | cons e l ih =>
    rw [List.foldl_cons] at hcount ⊢
    have hfirst := queues_requeueItem n e.1
    have hrest := queues_requeueAll (n.requeueItem e.1) l
    rw [List.map_cons, List.mem_cons] at hmem
    rcases hmem with rfl | hmem
    · exact hrest.queued _ (h.requeued hn (hrest.counter.trans hcount))
    · have hoffer : (n.requeueItem e.1).Offers p item := by
        unfold Offers
        rw [hfirst.peers]
        exact h
      exact ih hoffer (hfirst.numbered hn) hmem hcount

/-! ### Hearing of items -/

theorem mem_recordItem {t : Table ItemId ℕ} {item item' : ItemId} :
    item ∈ recordItem t item' now ↔ item = item' ∨ item ∈ t := by
  unfold recordItem
  split
  · rename_i hcontains
    rw [ExtTreeMap.contains_iff_mem] at hcontains
    exact ⟨Or.inr, fun h => h.elim (fun heq => heq ▸ hcontains) fun h => h⟩
  · rw [ExtTreeMap.mem_insert, Table.compare_eq_iff]

theorem requestedFromAPeer_requested (h : n.requestedFromAPeer item = true) :
    n.Requested item := by
  obtain ⟨⟨q, r⟩, hmem, hr⟩ := List.any_eq_true.1 h
  rw [Bool.and_eq_true, ExtTreeMap.contains_iff_mem] at hr
  refine ⟨q, r, Table.mem_toList.1 hmem, ?_, hr.2⟩
  have hactive : r.connection = .active := beq_iff_eq.1 hr.1
  rw [GossipPeer.isOpen, hactive]
  rfl

/-- What an event keeps: the numbers, and the item that is watched. -/
structure Keeps (p : PeerId) (item : ItemId) (n n' : GossipNode) : Prop where
  counter : n.itemsToFetchSequenceCounter ≤ n'.itemsToFetchSequenceCounter
  numbered : n.Numbered → n'.Numbered
  kept : n'.itemsToFetchSequenceCounter ≤ 2 ^ 31 → n.Numbered → Kept p item n → Kept p item n'

theorem Keeps.trans {n₁ : GossipNode} (h : Keeps p item n n₁) (h' : Keeps p item n₁ n') :
    Keeps p item n n' :=
  ⟨h.counter.trans h'.counter, fun hn => h'.numbered (h.numbered hn), fun hcount hn hkept =>
    h'.kept hcount (h.numbered hn) (h.kept (h'.counter.trans hcount) hn hkept)⟩

theorem keeps_refl (p : PeerId) (item : ItemId) (n : GossipNode) : Keeps p item n n :=
  ⟨Nat.le_refl _, fun h => h, fun _ _ h => h⟩

theorem Queues.keeps (h : Queues n n') : Keeps p item n n' :=
  ⟨h.counter, h.numbered, fun _ _ hkept => h.tamely.kept hkept⟩

/-- The queue is as it was. -/
theorem Tamely.keeps (h : Tamely item n n') (hqueue : n'.itemsToFetch = n.itemsToFetch)
    (hcounter : n'.itemsToFetchSequenceCounter = n.itemsToFetchSequenceCounter) :
    Keeps p item n n' := by
  refine ⟨hcounter.ge, fun hn => ?_, fun _ _ hkept => h.kept hkept⟩
  rw [Numbered, hqueue, hcounter]
  exact hn

theorem keeps_modifyPeer {f : GossipPeer → GossipPeer}
    (htame : ∀ r, n.peers[q]? = some r → Tame item r (f r)) :
    Keeps p item n (n.modifyPeer q f) :=
  (tamely_modifyPeer htame).keeps rfl rfl

/-- The peer with an item that was heard of. -/
theorem getElem?_heard {r r₀ : GossipPeer} {t : Table ItemId ℕ} (hr : n.peers[q]? = some r)
    {q' : PeerId} (hr₀ : n.peers[q']? = some r₀) :
    ∃ r', (n.peers.insert q { r with inventoryPeerAdvertisedToUs := t })[q']? = some r' ∧
      r'.connection = r₀.connection ∧ r'.itemsRequestedFromPeer = r₀.itemsRequestedFromPeer := by
  rw [Table.getElem?_insert]
  split
  · rename_i heq
    cases hr.symm.trans (heq ▸ hr₀)
    exact ⟨_, rfl, rfl, rfl⟩
  · exact ⟨r₀, hr₀, rfl, rfl⟩

/-- An item that is heard of is wanted from then on. -/
theorem keeps_hearItem {r : GossipPeer} (hr : n.peers[q]? = some r) :
    Keeps p item n (n.hearItem now q r item') := by
  unfold hearItem
  extract_lets heard
  have hqueues : Queues heard (if n.requestedFromAPeer item' = true then heard
      else heard.queueItem item') := by
    split
    · exact queues_refl heard
    · exact queues_queueItem heard item'
  refine ⟨hqueues.counter, hqueues.numbered, fun hcount hn hkept => ?_⟩
  by_cases hitem : item = item'
  · subst hitem
    obtain ⟨r₀, hr₀, hleft⟩ := hkept.left
    obtain ⟨r', hr', hconnection, -⟩ := getElem?_heard hr hr₀
    refine ⟨⟨r', by rw [hqueues.peers]; exact hr', hconnection ▸ hleft⟩, fun _ => ?_⟩
    split
    · rename_i hrequested
      obtain ⟨q', r₁, hr₁, hopen, hmem⟩ := requestedFromAPeer_requested hrequested
      obtain ⟨r₂, hr₂, hconnection, hrequests⟩ := getElem?_heard hr hr₁
      refine Or.inr ⟨q', r₂, hr₂, ?_, hrequests ▸ hmem⟩
      rw [GossipPeer.isOpen, hconnection]
      exact hopen
    · rename_i hrequested
      rw [if_neg hrequested] at hcount
      have hheard : heard.Numbered := hn
      exact Or.inl (hheard.queued item hcount)
  · have htame : Tame item r { r with
        inventoryPeerAdvertisedToUs := recordItem r.inventoryPeerAdvertisedToUs item' now } :=
      ⟨fun h => h, fun _ h => h, fun h => h, fun h => (mem_recordItem.1 h).resolve_left hitem,
        fun h => h⟩
    have htamely : Tamely item n heard := tamely_insert hr htame rfl fun h => h
    exact hqueues.tamely.kept (htamely.kept hkept)

theorem keeps_hearItems (items : List ItemId) (n : GossipNode) :
    Keeps p item n (hearItems now q items n) := by
  induction items generalizing n with
  | nil => exact keeps_refl p item n
  | cons item' items ih =>
    rcases hearItems_cons n now q item' items with heq | heq | ⟨r, hr, heq⟩
    · rw [heq]
      exact ih n
    · rw [heq]
      exact keeps_refl p item n
    · rw [heq]
      exact (keeps_hearItem hr).trans (ih _)

/-! ### Fetching -/

/-- An entry of the queue stays, or is requested. -/
theorem mem_fetchQueue (now : ℕ) {queue : List PrioritizedItemId}
    (peers : Table PeerId GossipPeer) {e : PrioritizedItemId} (he : e ∈ queue) :
    e ∈ (fetchQueue now queue peers).1 ∨
      ∃ q, (q, e.item) ∈ (fetchQueue now queue peers).2.2 := by
  induction queue generalizing peers with
  | nil => exact absurd he List.not_mem_nil
  | cons first queue ih =>
    rw [fetchQueue]
    split
    · rename_i q r hfind
      rcases List.mem_cons.1 he with rfl | he
      · exact Or.inr ⟨q, List.mem_append_right _ (List.mem_singleton_self _)⟩
      · refine (ih _ he).imp_right ?_
        rintro ⟨q', hq'⟩
        exact ⟨q', List.mem_append_left _ hq'⟩
    · rcases List.mem_cons.1 he with rfl | he
      · exact Or.inl List.mem_cons_self
      · exact (ih _ he).imp_left (List.mem_cons_of_mem _)

/-- The queue only loses entries. -/
theorem fetchQueue_sublist (now : ℕ) (queue : List PrioritizedItemId)
    (peers : Table PeerId GossipPeer) : ((fetchQueue now queue peers).1).Sublist queue := by
  induction queue generalizing peers with
  | nil => exact List.Sublist.refl _
  | cons e queue ih =>
    rw [fetchQueue]
    split
    · exact (ih _).cons e
    · exact (ih _).cons_cons e

/-- The peer that is asked. -/
theorem tame_ask {r : GossipPeer} (item item' : ItemId) : Tame item r { r with
    itemsRequestedFromPeer := r.itemsRequestedFromPeer.insert item' now } :=
  ⟨fun h => h, fun _ h => h, fun h => h, fun h => h,
    fun h => ExtTreeMap.mem_insert.2 (Or.inr h)⟩

theorem Tame.trans {r r₁ r' : GossipPeer} (h : Tame item r r₁) (h' : Tame item r₁ r') :
    Tame item r r' :=
  ⟨fun hr => h'.left (h.left hr), fun hr hactive => h.active hr (h'.active (h.left hr) hactive),
    fun hr => h'.opened (h.opened hr), fun hr => h.offered (h'.offered hr),
    fun hr => h'.requested (h.requested hr)⟩

/-- The peers change tamely, and a request that was sent is on its peer. -/
theorem fetchQueue_peers (now : ℕ) (queue : List PrioritizedItemId)
    (peers : Table PeerId GossipPeer) :
    (∀ (q : PeerId) (r : GossipPeer), peers[q]? = some r →
      ∃ r', (fetchQueue now queue peers).2.1[q]? = some r' ∧ ∀ item, Tame item r r') ∧
    ∀ request ∈ (fetchQueue now queue peers).2.2, ∃ r' : GossipPeer,
      (fetchQueue now queue peers).2.1[request.1]? = some r' ∧ r'.isOpen = true ∧
        request.2 ∈ r'.itemsRequestedFromPeer := by
  induction queue generalizing peers with
  | nil => exact ⟨fun q r hr => ⟨r, hr, fun item => .refl item r⟩,
      fun _ h => absurd h List.not_mem_nil⟩
  | cons e queue ih =>
    rw [fetchQueue]
    split
    · rename_i q r hfind
      obtain ⟨hpeers, hrequests⟩ := ih (peers.insert q { r with
        itemsRequestedFromPeer := r.itemsRequestedFromPeer.insert e.item now })
      have hr : peers[q]? = some r := Table.mem_toList.1 (List.mem_of_find?_eq_some hfind)
      refine ⟨fun q' r₀ hr₀ => ?_, fun request hrequest => ?_⟩
      · by_cases hq : q' = q
        · subst hq
          cases hr.symm.trans hr₀
          obtain ⟨r', hr', htame⟩ := hpeers q' _ (Table.getElem?_insert_same ..)
          exact ⟨r', hr', fun item => (tame_ask item e.item).trans (htame item)⟩
        · exact hpeers q' r₀ ((Table.getElem?_insert_of_ne _ _ hq).trans hr₀)
      · rcases List.mem_append.1 hrequest with hrequest | hrequest
        · exact hrequests request hrequest
        · obtain rfl := List.mem_singleton.1 hrequest
          obtain ⟨r', hr', htame⟩ := hpeers q _ (Table.getElem?_insert_same ..)
          have hcan := List.find?_some hfind
          simp only [GossipPeer.canFetch, Bool.and_eq_true] at hcan
          have hactive : r.connection = .active := beq_iff_eq.1 hcan.1.1.1
          refine ⟨r', hr', (htame e.item).opened ?_, (htame e.item).requested ?_⟩
          · rw [GossipPeer.isOpen, hactive]
            rfl
          · exact ExtTreeMap.mem_insert_self
    · obtain ⟨hpeers, hrequests⟩ := ih peers
      exact ⟨hpeers, hrequests⟩

theorem keeps_fetchItems (now : ℕ) : Keeps p item n (n.fetchItems now).1 := by
  obtain ⟨hpeers, hrequests⟩ := fetchQueue_peers now n.itemsToFetch n.peers
  refine ⟨Nat.le_refl _, fun hn e he => hn e ((fetchQueue_sublist now _ _).subset he),
    fun _ _ hkept => ⟨?_, ?_⟩⟩
  · obtain ⟨r, hr, hleft⟩ := hkept.left
    obtain ⟨r', hr', htame⟩ := hpeers p r hr
    exact ⟨r', hr', (htame item).left hleft⟩
  · rintro ⟨r'', hr'', hactive, hmem⟩
    obtain ⟨r, hr, hleft⟩ := hkept.left
    obtain ⟨r', hr', htame⟩ := hpeers p r hr
    cases hr'.symm.trans hr''
    rcases hkept.wanted ⟨r, hr, (htame item).active hleft hactive, (htame item).offered hmem⟩ with
      ⟨e, he, rfl⟩ | ⟨q, r₁, hr₁, hopen, hrequested⟩
    · rcases mem_fetchQueue now n.peers he with hstays | ⟨q, hq⟩
      · exact Or.inl ⟨e, hstays, rfl⟩
      · obtain ⟨r₂, hr₂, hopen, hrequested⟩ := hrequests _ hq
        exact Or.inr ⟨q, r₂, hr₂, hopen, hrequested⟩
    · obtain ⟨r₂, hr₂, htame⟩ := hpeers q r₁ hr₁
      exact Or.inr ⟨q, r₂, hr₂, (htame item).opened hopen, (htame item).requested hrequested⟩

/-! ### Events -/

/-- A peer loses its requests and does not offer the item any more; when the item was requested
from it, somebody else's offer puts the item back in the queue. -/
theorem kept_dropped {n₁ : GossipNode} {r r' : GossipPeer} (hr : n.peers[q]? = some r)
    (hpeers : n₁.peers = n.peers.insert q r') (hqueue : n.Queued item → n₁.Queued item)
    (hleft : r.connection ≠ .handshaking → r'.connection ≠ .handshaking)
    (hoffer : r'.isActive = true → item ∉ r'.inventoryPeerAdvertisedToUs)
    (hqueues : Queues n₁ n')
    (hback : ∀ p', n₁.Offers p' item → item ∈ r.itemsRequestedFromPeer → n'.Queued item)
    (hkept : Kept p item n) : Kept p item n' := by
  obtain ⟨r₀, hr₀, hleft₀⟩ := hkept.left
  refine ⟨?_, ?_⟩
  · rw [hqueues.peers, hpeers, Table.getElem?_insert]
    split
    · rename_i heq
      cases hr.symm.trans (heq ▸ hr₀)
      exact ⟨r', rfl, hleft hleft₀⟩
    · exact ⟨r₀, hr₀, hleft₀⟩
  · intro hoffers
    have hoffers₁ : n₁.Offers p item := by
      unfold Offers at hoffers ⊢
      rw [← hqueues.peers]
      exact hoffers
    obtain ⟨r₁, hr₁, hactive, hmem⟩ := hoffers₁
    have hoffers₁ : n₁.Offers p item := ⟨r₁, hr₁, hactive, hmem⟩
    rw [hpeers, Table.getElem?_insert] at hr₁
    split at hr₁
    · cases hr₁
      exact absurd hmem (hoffer hactive)
    · rcases hkept.wanted ⟨r₁, hr₁, hactive, hmem⟩ with hqueued | ⟨q', r₂, hr₂, hopen, hrequested⟩
      · exact Or.inl (hqueues.queued item (hqueue hqueued))
      · by_cases hq : q' = q
        · subst hq
          cases hr.symm.trans hr₂
          exact Or.inl (hback p hoffers₁ hrequested)
        · refine Or.inr ⟨q', r₂, ?_, hopen, hrequested⟩
          rw [hqueues.peers, hpeers, Table.getElem?_insert_of_ne _ _ hq]
          exact hr₂

theorem mem_erase_of_ne {t : Table ItemId ℕ} (hne : item' ≠ item) (h : item ∈ t) :
    item ∈ t.erase item' := by
  rw [ExtTreeMap.mem_erase]
  exact ⟨fun heq => hne (Table.compare_eq_iff.1 heq).symm, h⟩

/-- An item is not delivered. -/
theorem keeps_notAvailable (item' : ItemId) :
    Keeps p item n (n.onItemNotAvailableMessage q item') := by
  unfold onItemNotAvailableMessage
  split
  · exact keeps_refl p item n
  · rename_i r hr
    split
    · extract_lets n₁
      have hqueues := queues_requeueItem n₁ item'
      refine ⟨hqueues.counter, hqueues.numbered, fun hcount hn hkept => ?_⟩
      by_cases hitem : item' = item
      · subst hitem
        have hgone : item' ∉ r.inventoryPeerAdvertisedToUs.erase item' :=
          fun h => (ExtTreeMap.mem_erase.1 h).1 (Table.compare_eq_iff.2 rfl)
        have hn₁ : n₁.Numbered := hn
        have hpeers : n₁.peers = n.peers.insert q { r with
            itemsRequestedFromPeer := r.itemsRequestedFromPeer.erase item'
            inventoryPeerAdvertisedToUs := r.inventoryPeerAdvertisedToUs.erase item' } := rfl
        exact kept_dropped hr hpeers (fun h => h) (fun h => h) (fun _ => hgone) hqueues
          (fun _ hoffers _ => hoffers.requeued hn₁ hcount) hkept
      · have htame : Tame item r { r with
            itemsRequestedFromPeer := r.itemsRequestedFromPeer.erase item'
            inventoryPeerAdvertisedToUs := r.inventoryPeerAdvertisedToUs.erase item' } :=
          ⟨fun h => h, fun _ h => h, fun h => h, fun h => mem_of_mem_erase h,
            fun h => mem_erase_of_ne hitem h⟩
        have htamely : Tamely item n n₁ := tamely_insert hr htame rfl fun h => h
        exact hqueues.tamely.kept (htamely.kept hkept)
    · exact keeps_refl p item n

/-- A connection ends. -/
theorem keeps_closed : Keeps p item n (n.onConnectionClosed q) := by
  unfold onConnectionClosed
  split
  · exact keeps_refl p item n
  · rename_i r hr
    extract_lets n₁
    rw [ExtTreeMap.foldl_eq_foldl_toList]
    have hqueues := queues_requeueAll n₁ r.itemsRequestedFromPeer.toList
    refine ⟨hqueues.counter, hqueues.numbered, fun hcount hn hkept => ?_⟩
    have hn₁ : n₁.Numbered := hn
    have hpeers : n₁.peers = n.peers.insert q { r with connection := .none } := rfl
    refine kept_dropped hr hpeers (fun h => h) (fun _ => nofun) nofun hqueues
      (fun _ hoffers hrequested => hoffers.requeuedAll hn₁ ?_ hcount) hkept
    rw [ExtTreeMap.map_fst_toList_eq_keys, ExtTreeMap.mem_keys]
    exact hrequested

/-- Another item arrives. -/
theorem keeps_message (hne : item' ≠ item) : Keeps p item n (n.processMessage q item') := by
  unfold processMessage
  split
  · exact keeps_refl p item n
  · rename_i r hr
    split
    · have htame : Tame item r { r with
          itemsRequestedFromPeer := r.itemsRequestedFromPeer.erase item' } :=
        ⟨fun h => h, fun _ h => h, fun h => h, fun h => h, fun h => mem_erase_of_ne hne h⟩
      exact Tamely.keeps (tamely_insert hr htame rfl fun h => h) rfl rfl
    · exact keeps_modifyPeer fun _ _ => ⟨fun _ => nofun, fun _ => nofun, fun _ => rfl,
        fun h => h, fun h => h⟩

theorem mem_keepRecent {t : Table ItemId ℕ} (h : item ∈ GossipPeer.keepRecent now t) : item ∈ t :=
  ExtTreeMap.mem_of_mem_filter h

theorem tame_clearOldInventory (item : ItemId) (r : GossipPeer) :
    Tame item r (r.clearOldInventory now) :=
  ⟨fun h => h, fun _ h => h, fun h => h, mem_keepRecent, fun h => h⟩

theorem keeps_advertise (now : ℕ) : Keeps p item n (n.advertiseInventory now).1 := by
  have htame : ∀ (q : PeerId) (r : GossipPeer),
      Tame item r (advertiseTo now (n.newInventory.toList.map Prod.fst) r) := by
    intro q r
    unfold advertiseTo
    split
    · exact ⟨fun h => h, fun _ h => h, fun h => h, mem_keepRecent, fun h => h⟩
    · exact .refl item r
  exact Tamely.keeps (tamely_map htame rfl fun h => h) rfl rfl

theorem keeps_accept (now : ℕ) (item' : ItemId) : Keeps p item n (n.acceptItem now item') := by
  unfold acceptItem
  split
  · have htame : ∀ (q : PeerId) (r : GossipPeer),
        Tame item r (if r.isActive then r.clearOldInventory now else r) := by
      intro q r
      split
      · exact tame_clearOldInventory item r
      · exact .refl item r
    exact Tamely.keeps (tamely_map htame rfl fun h => h) rfl rfl
  · exact Tamely.keeps (tamely_same rfl rfl) rfl rfl

/-- A connection is put on another list. -/
theorem tame_moved {r : GossipPeer} {list : ConnectionList} (h : canMove r list = true) :
    Tame item r { r with connection := list } := by
  cases list with
  | active =>
    have hnew : r.connection = .handshaking := beq_iff_eq.1 h
    exact ⟨fun hleft => absurd hnew hleft, fun hleft => absurd hnew hleft, fun _ => rfl,
      fun h => h, fun h => h⟩
  | closing => exact ⟨fun _ => nofun, fun _ => nofun, fun _ => rfl, fun h => h, fun h => h⟩
  | terminating => exact ⟨fun _ => nofun, fun _ => nofun, fun _ => rfl, fun h => h, fun h => h⟩
  | handshaking => cases h
  | none => cases h

/-- **Every event** but the arrival of the item keeps it wanted. -/
theorem keeps_step (now : ℕ) {ev : GossipEvent} (hne : ∀ q, ev ≠ .message q item) :
    Keeps p item n (n.step now ev).1 := by
  have hrelease : ∀ q item', Keeps p item n (n.release q item') :=
    fun _ _ => Tamely.keeps (tamely_same rfl rfl) rfl rfl
  cases ev with
  | connected q =>
    dsimp only [step]
    split
    · exact keeps_refl p item n
    · rename_i hnew
      rw [ExtTreeMap.contains_eq_isSome_getElem?, Bool.not_eq_true, Option.isSome_eq_false_iff,
        Option.isNone_iff_eq_none] at hnew
      refine Tamely.keeps ⟨fun q' r hr => ⟨r, ?_, .refl item r⟩, fun h => h⟩ rfl rfl
      have hne : q' ≠ q := by
        rintro rfl
        cases hnew.symm.trans hr
      exact (Table.getElem?_insert_of_ne _ _ hne).trans hr
  | moved q list =>
    dsimp only [step]
    split
    · rename_i hmove
      refine keeps_modifyPeer fun r hr => tame_moved ?_
      rw [hr] at hmove
      exact hmove
    · exact keeps_refl p item n
  | closed q =>
    dsimp only [step]
    split
    · exact keeps_closed
    · exact keeps_refl p item n
  | synchronized q needs synchronizing =>
    exact keeps_modifyPeer fun _ _ => ⟨fun h => h, fun _ h => h, fun h => h, fun h => h, fun h => h⟩
  | inventory q itemType hashes =>
    dsimp only [step]
    split
    · exact keeps_hearItems _ n
    · exact keeps_refl p item n
  | fetch => exact keeps_fetchItems now
  | notAvailable q item' =>
    dsimp only [step]
    split
    · exact keeps_notAvailable item'
    · exact keeps_refl p item n
  | message q item' =>
    dsimp only [step]
    split
    · refine keeps_message fun heq => hne q ?_
      rw [heq]
    · exact keeps_refl p item n
  | accepted q item' =>
    dsimp only [step]
    split
    · exact (hrelease q item').trans (keeps_accept now item')
    · exact keeps_refl p item n
  | insufficientRelayFee q item' =>
    dsimp only [step]
    split
    · refine (hrelease q item').trans (keeps_modifyPeer fun _ _ => ?_)
      exact ⟨fun h => h, fun _ h => h, fun h => h, fun h => h, fun h => h⟩
    · exact keeps_refl p item n
  | rejected q item' =>
    dsimp only [step]
    split
    · exact hrelease q item'
    · exact keeps_refl p item n
  | produced item' => exact Tamely.keeps (tamely_same rfl rfl) rfl rfl
  | advertise => exact keeps_advertise now

/-! ### Runs -/

theorem keeps_play {events : List (ℕ × GossipEvent)}
    (hne : ∀ e ∈ events, ∀ q, e.2 ≠ .message q item) (n : GossipNode) :
    Keeps p item n (n.play events) := by
  induction events generalizing n with
  | nil => exact keeps_refl p item n
  | cons e events ih =>
    exact (keeps_step e.1 (hne e List.mem_cons_self)).trans
      (ih (fun e' he' => hne e' (List.mem_cons_of_mem _ he')) _)

end GossipNode

open GossipNode

variable {now : ℕ} {n : GossipNode} {sent : List SentMessage} {p : PeerId} {item : ItemId}

theorem GossipNode.Numbered.step (h : n.Numbered) (now : ℕ) (ev : GossipEvent) :
    (n.step now ev).1.Numbered := by
  -- some item does not arrive with the event
  obtain ⟨item, hne⟩ : ∃ item, ∀ q, ev ≠ .message q item := by
    cases ev with
    | message q item' =>
      refine ⟨⟨item'.itemType + 1, item'.itemHash⟩, fun q' heq => ?_⟩
      injection heq with _ heq
      have htype : item'.itemType = item'.itemType + 1 := congrArg ItemId.itemType heq
      omega
    | _ => exact ⟨⟨0, 0⟩, fun _ => nofun⟩
  exact (keeps_step (p := 0) now hne).numbered h

/-- The numbers of the queue were taken before, in every state of a run. -/
theorem GossipRun.numbered (h : GossipRun now n sent) : n.Numbered := by
  induction h with
  | start => exact fun _ he => absurd he List.not_mem_nil
  | step _ _ ev ih => exact ih.step _ ev

/-- Two active peers. -/
def twoPeers : GossipNode :=
  ({} : GossipNode).play [(0, .connected 1), (0, .moved 1 .active), (0, .connected 2),
    (0, .moved 2 .active)]

theorem twoPeers_run : GossipRun 0 twoPeers [] :=
  (((GossipRun.start.step (Nat.le_refl 0) (.connected 1)).step (Nat.le_refl 0)
    (.moved 1 .active)).step (Nat.le_refl 0) (.connected 2)).step (Nat.le_refl 0) (.moved 2 .active)

end LarkX
