import LarkX.Net.Gossip

/-!
# What happens to a peer

`PeerChange` lists the changes that a handler of normal operation can make to a peer. Every event
changes each peer by a sequence of them (`peersChange_step`), so what every change keeps holds of
every peer in every state of a run: a peer is asked for one item at a time
(`GossipRun.one_request`).

An item that a peer has been told of stays in its inventory for two minutes. So it is not
advertised to the peer again before they are over (`GossipRun.advertised_once`).
-/

namespace LarkX

open Std (ExtTreeMap)
open Relation (ReflTransGen)

namespace GossipNode

/-- A change of a peer at the time `now`. -/
inductive PeerChange (now : ℕ) (r : GossipPeer) : GossipPeer → Prop
  | moved {list : ConnectionList} (h : canMove r list = true) :
      PeerChange now r { r with connection := list }
  | ended : PeerChange now r { r with connection := .none }
  | synchronized (peerNeedsSyncItemsFromUs synchronizing : Bool) :
      PeerChange now r { r with peerNeedsSyncItemsFromUs, synchronizing }
  | heard (item : ItemId) : PeerChange now r { r with
      inventoryPeerAdvertisedToUs := recordItem r.inventoryPeerAdvertisedToUs item now }
  | asked {item : ItemId} (h : r.canFetch now item = true) : PeerChange now r { r with
      itemsRequestedFromPeer := r.itemsRequestedFromPeer.insert item now }
  | undelivered (item : ItemId) : PeerChange now r { r with
      itemsRequestedFromPeer := r.itemsRequestedFromPeer.erase item
      inventoryPeerAdvertisedToUs := r.inventoryPeerAdvertisedToUs.erase item }
  | arrived (item : ItemId) : PeerChange now r { r with
      itemsRequestedFromPeer := r.itemsRequestedFromPeer.erase item }
  | inhibited (time : ℕ) : PeerChange now r { r with transactionFetchingInhibitedUntil := time }
  | told (items : List ItemId) : PeerChange now r (tellItems now items r)
  | cleared : PeerChange now r (r.clearOldInventory now)

variable {n n' : GossipNode} {p q : PeerId} {item : ItemId} {now : ℕ}
  {t t₁ t' : Table PeerId GossipPeer} {r r' : GossipPeer}

/-- Every peer has changed by a sequence of changes; a new peer has started from nothing. -/
structure PeersChange (now : ℕ) (t t' : Table PeerId GossipPeer) : Prop where
  old : ∀ (p : PeerId) (r : GossipPeer), t[p]? = some r →
    ∃ r', t'[p]? = some r' ∧ ReflTransGen (PeerChange now) r r'
  new : ∀ (p : PeerId) (r' : GossipPeer), t[p]? = none → t'[p]? = some r' →
    ReflTransGen (PeerChange now) {} r'

theorem peersChange_refl (now : ℕ) (t : Table PeerId GossipPeer) : PeersChange now t t :=
  ⟨fun _ r hr => ⟨r, hr, .refl⟩, fun _ _ hnone hr => by cases hnone.symm.trans hr⟩

theorem PeersChange.trans (h : PeersChange now t t₁) (h' : PeersChange now t₁ t') :
    PeersChange now t t' := by
  refine ⟨fun p r hr => ?_, fun p r' hnone hr' => ?_⟩
  · obtain ⟨r₁, hr₁, hfirst⟩ := h.old p r hr
    obtain ⟨r', hr', hsecond⟩ := h'.old p r₁ hr₁
    exact ⟨r', hr', hfirst.trans hsecond⟩
  · cases hr₁ : t₁[p]? with
    | none => exact h'.new p r' hr₁ hr'
    | some r₁ =>
      obtain ⟨r'', hr'', hsecond⟩ := h'.old p r₁ hr₁
      cases hr'.symm.trans hr''
      exact (h.new p r₁ hnone hr₁).trans hsecond

/-- A peer is written back. -/
theorem peersChange_insert (hr : t[q]? = some r) (hchange : PeerChange now r r') :
    PeersChange now t (t.insert q r') := by
  refine ⟨fun p r₀ hr₀ => ?_, fun p r₀ hnone hr₀ => ?_⟩
  · rw [Table.getElem?_insert]
    split
    · rename_i heq
      cases hr.symm.trans (heq ▸ hr₀)
      exact ⟨r', rfl, .single hchange⟩
    · exact ⟨r₀, hr₀, .refl⟩
  · rw [Table.getElem?_insert] at hr₀
    split at hr₀
    · rename_i heq
      cases hr.symm.trans (heq ▸ hnone)
    · cases hnone.symm.trans hr₀

theorem peersChange_modify {f : GossipPeer → GossipPeer}
    (hchange : ∀ r, t[q]? = some r → PeerChange now r (f r)) :
    PeersChange now t (t.modify q f) := by
  refine ⟨fun p r hr => ?_, fun p r' hnone hr' => ?_⟩
  · rw [ExtTreeMap.getElem?_modify]
    split
    · rename_i heq
      rw [compare_eq_iff_eq] at heq
      subst heq
      exact ⟨f r, by rw [hr]; rfl, .single (hchange r hr)⟩
    · exact ⟨r, hr, .refl⟩
  · rw [ExtTreeMap.getElem?_modify] at hr'
    split at hr'
    · rename_i heq
      rw [compare_eq_iff_eq] at heq
      subst heq
      rw [hnone] at hr'
      cases hr'
    · cases hnone.symm.trans hr'

theorem peersChange_map {f : PeerId → GossipPeer → GossipPeer}
    (hchange : ∀ q r, ReflTransGen (PeerChange now) r (f q r)) :
    PeersChange now t (t.map f) := by
  refine ⟨fun p r hr => ⟨f p r, ?_, hchange p r⟩, fun p r' hnone hr' => ?_⟩
  · rw [ExtTreeMap.getElem?_map, hr]
    rfl
  · rw [ExtTreeMap.getElem?_map, hnone] at hr'
    cases hr'

theorem mem_of_mem_erase {t : Table ItemId ℕ} {item' : ItemId} (h : item ∈ t.erase item') :
    item ∈ t :=
  (ExtTreeMap.mem_erase.1 h).2

/-! ### The handlers -/

/-- One item that is heard of. -/
def hearItem (n : GossipNode) (now : ℕ) (q : PeerId) (r : GossipPeer) (item : ItemId) :
    GossipNode :=
  let heard := { n with peers := n.peers.insert q { r with
    inventoryPeerAdvertisedToUs := recordItem r.inventoryPeerAdvertisedToUs item now } }
  if n.requestedFromAPeer item then heard else heard.queueItem item

theorem hearItems_cons (n : GossipNode) (now : ℕ) (q : PeerId) (item : ItemId)
    (items : List ItemId) : (hearItems now q (item :: items) n = hearItems now q items n) ∨
      hearItems now q (item :: items) n = n ∨
      ∃ r, n.peers[q]? = some r ∧ hearItems now q (item :: items) n =
        hearItems now q items (n.hearItem now q r item) := by
  rw [hearItems]
  split
  · exact Or.inl rfl
  · refine Or.inr ?_
    split
    · exact Or.inl rfl
    · rename_i r hr
      split
      · exact Or.inl rfl
      · refine Or.inr ⟨r, hr, ?_⟩
        unfold hearItem
        cases n.requestedFromAPeer item <;> rfl

theorem hearItem_peers (n : GossipNode) (now : ℕ) (q : PeerId) (r : GossipPeer) (item : ItemId) :
    (n.hearItem now q r item).peers = n.peers.insert q { r with
      inventoryPeerAdvertisedToUs := recordItem r.inventoryPeerAdvertisedToUs item now } := by
  unfold hearItem
  split <;> rfl

theorem peersChange_hearItems (items : List ItemId) (n : GossipNode) :
    PeersChange now n.peers (hearItems now q items n).peers := by
  induction items generalizing n with
  | nil => exact peersChange_refl now _
  | cons item items ih =>
    rcases hearItems_cons n now q item items with heq | heq | ⟨r, hr, heq⟩
    · rw [heq]
      exact ih n
    · rw [heq]
      exact peersChange_refl now _
    · rw [heq]
      refine PeersChange.trans ?_ (ih _)
      rw [hearItem_peers]
      exact peersChange_insert hr (.heard item)

theorem peersChange_fetchQueue (queue : List PrioritizedItemId) (t : Table PeerId GossipPeer) :
    PeersChange now t (fetchQueue now queue t).2.1 := by
  induction queue generalizing t with
  | nil => exact peersChange_refl now t
  | cons e queue ih =>
    rw [fetchQueue]
    split
    · rename_i q r hfind
      have hr : t[q]? = some r := Table.mem_toList.1 (List.mem_of_find?_eq_some hfind)
      have hcan := List.find?_some hfind
      exact (peersChange_insert hr (.asked hcan)).trans (ih _)
    · exact ih t

theorem requeueItem_peers (n : GossipNode) (item : ItemId) :
    (n.requeueItem item).peers = n.peers := by
  unfold requeueItem
  split <;> rfl

theorem requeueAll_peers (n : GossipNode) (l : List (ItemId × ℕ)) :
    (l.foldl (fun n e => n.requeueItem e.1) n).peers = n.peers := by
  induction l generalizing n with
  | nil => rfl
  | cons e l ih => exact (ih _).trans (requeueItem_peers n e.1)

theorem peersChange_advertiseTo (inventory : List ItemId) :
    PeersChange now t (t.map fun _ r => advertiseTo now inventory r) := by
  refine peersChange_map fun _ r => ?_
  unfold advertiseTo
  split
  · exact (ReflTransGen.single (.told _)).tail .cleared
  · exact .refl

theorem peersChange_acceptItem (n : GossipNode) (now : ℕ) (item : ItemId) :
    PeersChange now n.peers (n.acceptItem now item).peers := by
  unfold acceptItem
  split
  · refine peersChange_map fun _ r => ?_
    split
    · exact .single .cleared
    · exact .refl
  · exact peersChange_refl now _

/-- **Every event** makes such changes. -/
theorem peersChange_step (n : GossipNode) (now : ℕ) (ev : GossipEvent) :
    PeersChange now n.peers (n.step now ev).1.peers := by
  cases ev with
  | connected q =>
    dsimp only [step]
    split
    · exact peersChange_refl now _
    · rename_i hnew
      rw [ExtTreeMap.contains_eq_isSome_getElem?, Bool.not_eq_true, Option.isSome_eq_false_iff,
        Option.isNone_iff_eq_none] at hnew
      refine ⟨fun p r hr => ⟨r, ?_, .refl⟩, fun p r' hnone hr' => ?_⟩
      · have hne : p ≠ q := by
          rintro rfl
          cases hnew.symm.trans hr
        exact (Table.getElem?_insert_of_ne _ _ hne).trans hr
      · change (n.peers.insert q {})[p]? = some r' at hr'
        rw [Table.getElem?_insert] at hr'
        split at hr'
        · cases hr'
          exact .refl
        · cases hnone.symm.trans hr'
  | moved q list =>
    dsimp only [step]
    split
    · rename_i hmove
      refine peersChange_modify fun r hr => .moved ?_
      rw [hr] at hmove
      exact hmove
    · exact peersChange_refl now _
  | closed q =>
    dsimp only [step]
    split
    · unfold onConnectionClosed
      split
      · exact peersChange_refl now _
      · rename_i r hr
        rw [ExtTreeMap.foldl_eq_foldl_toList, requeueAll_peers]
        exact peersChange_insert hr .ended
    · exact peersChange_refl now _
  | synchronized q needs synchronizing =>
    exact peersChange_modify fun r _ => .synchronized needs synchronizing
  | inventory q itemType hashes =>
    dsimp only [step]
    split
    · exact peersChange_hearItems _ n
    · exact peersChange_refl now _
  | fetch => exact peersChange_fetchQueue _ _
  | notAvailable q item =>
    dsimp only [step]
    split
    · unfold onItemNotAvailableMessage
      split
      · exact peersChange_refl now _
      · rename_i r hr
        split
        · rw [requeueItem_peers]
          exact peersChange_insert hr (.undelivered item)
        · exact peersChange_refl now _
    · exact peersChange_refl now _
  | message q item =>
    dsimp only [step]
    split
    · rename_i hopen
      unfold processMessage
      split
      · exact peersChange_refl now _
      · rename_i r hr
        split
        · exact peersChange_insert hr (.arrived item)
        · refine peersChange_modify fun r' hr' => .moved ?_
          rw [hasOpen, hr'] at hopen
          exact hopen
    · exact peersChange_refl now _
  | accepted q item =>
    dsimp only [step]
    split
    · exact peersChange_acceptItem (n.release q item) now item
    · exact peersChange_refl now _
  | insufficientRelayFee q item =>
    dsimp only [step]
    split
    · exact peersChange_modify fun r _ => .inhibited _
    · exact peersChange_refl now _
  | rejected q item =>
    dsimp only [step]
    split <;> exact peersChange_refl now _
  | produced item => exact peersChange_refl now _
  | advertise => exact peersChange_advertiseTo _

end GossipNode

/-! ### Runs -/

open GossipNode

variable {now : ℕ} {n : GossipNode} {sent : List SentMessage}

/-- **Invariant rule for peers.** What holds of a new peer and is kept by every change holds of
every peer in every state of a run. -/
theorem GossipRun.peers {I : GossipPeer → Prop} (h : GossipRun now n sent) (new : I {})
    (change : ∀ now r r', PeerChange now r r' → I r → I r') {p : PeerId} {r : GossipPeer}
    (hr : n.peers[p]? = some r) : I r := by
  have hchanges : ∀ {now r r'}, ReflTransGen (PeerChange now) r r' → I r → I r' := by
    intro now r r' hpath hI
    induction hpath with
    | refl => exact hI
    | tail _ hchange ih => exact change _ _ _ hchange ih
  induction h generalizing p r with
  | start => cases (Table.getElem?_empty' p).symm.trans hr
  | @step _ now n _ _ _ ev ih =>
    have hstep := peersChange_step n now ev
    cases hr₀ : n.peers[p]? with
    | none => exact hchanges (hstep.new p r hr₀ hr) new
    | some r₀ =>
      obtain ⟨r', hr', hpath⟩ := hstep.old p r₀ hr₀
      cases hr.symm.trans hr'
      exact hchanges hpath (ih hr₀)

/-- **A peer is asked for one item at a time**, in every state of a run. -/
theorem GossipRun.one_request (h : GossipRun now n sent) {p : PeerId} {r : GossipPeer}
    (hr : n.peers[p]? = some r) {a b : ItemId} (ha : a ∈ r.itemsRequestedFromPeer)
    (hb : b ∈ r.itemsRequestedFromPeer) : a = b := by
  have hone : ∀ a b, a ∈ r.itemsRequestedFromPeer → b ∈ r.itemsRequestedFromPeer → a = b := by
    refine h.peers (I := fun r => ∀ a b, a ∈ r.itemsRequestedFromPeer →
      b ∈ r.itemsRequestedFromPeer → a = b) (fun a _ ha => absurd ha ExtTreeMap.not_mem_empty)
      (fun now r r' hchange hone => ?_) hr
    cases hchange with
    | asked hcan =>
      -- the peer was idle
      rename_i item
      simp only [GossipPeer.canFetch, GossipPeer.idle, Bool.and_eq_true] at hcan
      have hempty : r.itemsRequestedFromPeer = ∅ := ExtTreeMap.isEmpty_iff.1 hcan.1.1.2.1
      have honly : ∀ a, a ∈ r.itemsRequestedFromPeer.insert item now → a = item := by
        intro a ha
        rw [ExtTreeMap.mem_insert, hempty, Table.compare_eq_iff] at ha
        exact ha.resolve_right ExtTreeMap.not_mem_empty
      exact fun a b ha hb => (honly a ha).trans (honly b hb).symm
    | undelivered item => exact fun a b ha hb => hone a b (mem_of_mem_erase ha) (mem_of_mem_erase hb)
    | arrived item => exact fun a b ha hb => hone a b (mem_of_mem_erase ha) (mem_of_mem_erase hb)
    | _ => exact hone
  exact hone a b ha hb

/-- A peer that has offered two transactions. -/
def twoOffers : GossipNode :=
  ({} : GossipNode).play [(0, .connected 1), (0, .moved 1 .active), (5, .inventory 1 1000 [7, 8])]

theorem twoOffers_run : GossipRun 5 twoOffers [] :=
  ((GossipRun.start.step (Nat.le_refl 0) (.connected 1)).step (Nat.le_refl 0)
    (.moved 1 .active)).step (Nat.zero_le 5) (.inventory 1 1000 [7, 8])

/-- Of the two transactions the peer is asked for the first only. -/
theorem one_request_twoOffers : (twoOffers.step 5 .fetch).1.peers[1]?.any (fun r =>
    r.itemsRequestedFromPeer.contains ⟨1000, 7⟩ &&
      !r.itemsRequestedFromPeer.contains ⟨1000, 8⟩) = true := by
  have hrun := twoOffers_run.step (Nat.le_refl 5) .fetch
  have hasked : (twoOffers.step 5 .fetch).1.peers[1]?.any
      (fun r => r.itemsRequestedFromPeer.contains ⟨1000, 7⟩) = true := by decide
  obtain ⟨r, hr, hseven⟩ := (Option.any_eq_true _ _).1 hasked
  refine (Option.any_eq_true _ _).2 ⟨r, hr, ?_⟩
  rw [hseven, Bool.true_and, Bool.not_eq_true', ← Bool.not_eq_true]
  intro height
  have heq := hrun.one_request hr (ExtTreeMap.contains_iff_mem.1 hseven)
    (ExtTreeMap.contains_iff_mem.1 height)
  exact absurd heq (by decide)

/-! ### Advertisements -/

/-- The peer was told of the item at the second `s` or later, as far as the node remembers. -/
def ToldSince (r : GossipPeer) (s : ℕ) (item : ItemId) : Prop :=
  ∃ stamp, r.inventoryAdvertisedToPeer[item]? = some stamp ∧ s ≤ stamp

theorem getElem?_tell (items : List ItemId) (t : Table ItemId ℕ) (stamp : ℕ) (item : ItemId) :
    (items.foldl (fun t item => t.insert item stamp) t)[item]? =
      if item ∈ items then some stamp else t[item]? := by
  induction items generalizing t with
  | nil => rw [List.foldl_nil, if_neg List.not_mem_nil]
  | cons first items ih =>
    rw [List.foldl_cons, ih, Table.getElem?_insert]
    by_cases hitem : item ∈ items
    · rw [if_pos hitem, if_pos (List.mem_cons_of_mem _ hitem)]
    · rw [if_neg hitem]
      by_cases hfirst : item = first
      · rw [if_pos hfirst, if_pos (hfirst ▸ List.mem_cons_self)]
      · rw [if_neg hfirst, if_neg (List.not_mem_cons_of_ne_of_not_mem hfirst hitem)]

/-- What is told is remembered. -/
theorem toldSince_tellItems {items : List ItemId} {item : ItemId} (r : GossipPeer)
    (hitem : item ∈ items) : ToldSince (tellItems now items r) (secondsOf now) item :=
  ⟨secondsOf now, (getElem?_tell items _ _ item).trans (if_pos hitem), Nat.le_refl _⟩

/-- Two minutes pass before old inventory is cleared. -/
theorem ToldSince.cleared {r : GossipPeer} {s : ℕ} {item : ItemId} (h : ToldSince r s item)
    (hrecent : secondsOf now ≤ s + 120) : ToldSince (r.clearOldInventory now) s item := by
  obtain ⟨stamp, hstamp, hs⟩ := h
  refine ⟨stamp, ?_, hs⟩
  have hkeep : secondsOf now - btsNetMaxInventorySizeInMinutes * 60 ≤ stamp := by
    unfold btsNetMaxInventorySizeInMinutes
    omega
  change (GossipPeer.keepRecent now r.inventoryAdvertisedToPeer)[item]? = some stamp
  rw [GossipPeer.keepRecent, ExtTreeMap.getElem?_filter', hstamp, Option.filter_some,
    if_pos (decide_eq_true hkeep)]

theorem GossipNode.PeerChange.toldSince {r r' : GossipPeer} {s : ℕ} {item : ItemId}
    (hchange : PeerChange now r r') (hpast : s ≤ secondsOf now)
    (hrecent : secondsOf now ≤ s + 120) (h : ToldSince r s item) : ToldSince r' s item := by
  cases hchange with
  | told items =>
    by_cases hitem : item ∈ items
    · obtain ⟨stamp, hstamp, hs⟩ := @toldSince_tellItems now items item r hitem
      exact ⟨stamp, hstamp, hpast.trans hs⟩
    · obtain ⟨stamp, hstamp, hs⟩ := h
      exact ⟨stamp, ((getElem?_tell items _ _ item).trans (if_neg hitem)).trans hstamp, hs⟩
  | cleared => exact h.cleared hrecent
  | _ => exact h

/-- The advertisements of the last two minutes are on record. -/
def Recorded (now : ℕ) (n : GossipNode) (sent : List SentMessage) : Prop :=
  ∀ (t : ℕ) (p : PeerId) (items : List ItemId), (t, p, .itemIdsInventory items) ∈ sent →
    t ≤ now ∧ ∃ r, n.peers[p]? = some r ∧ ∀ item ∈ items, secondsOf now ≤ secondsOf t + 120 →
      ToldSince r (secondsOf t) item

theorem secondsOf_le_secondsOf {past now : ℕ} (h : past ≤ now) : secondsOf past ≤ secondsOf now :=
  Nat.div_le_div_right h

/-- What was advertised before the event stays on record. -/
theorem Recorded.later {past : ℕ} (h : Recorded past n sent) (htime : past ≤ now)
    (ev : GossipEvent) : Recorded now (n.step now ev).1 sent := by
  intro t p items hsent
  obtain ⟨ht, r, hr, htold⟩ := h t p items hsent
  obtain ⟨r', hr', hpath⟩ := (peersChange_step n now ev).old p r hr
  refine ⟨ht.trans htime, r', hr', fun item hitem hrecent => ?_⟩
  have hpast : secondsOf t ≤ secondsOf now := secondsOf_le_secondsOf (ht.trans htime)
  have hstart := htold item hitem ((secondsOf_le_secondsOf htime).trans hrecent)
  clear hr'
  induction hpath with
  | refl => exact hstart
  | tail _ hchange ih => exact hchange.toldSince hpast hrecent ih

/-- Inventory is only sent by an iteration of `advertise_inventory_loop`. -/
theorem inventory_of_step {ev : GossipEvent} {p : PeerId} {items : List ItemId}
    (h : (p, .itemIdsInventory items) ∈ (n.step now ev).2) : ev = .advertise ∧
      ∃ r, n.peers[p]? = some r ∧ r.isActive = true ∧
        items = itemsToAdvertise r (n.newInventory.toList.map Prod.fst) := by
  cases ev with
  | advertise =>
    refine ⟨rfl, ?_⟩
    obtain ⟨⟨q, r⟩, hmem, heq⟩ := List.mem_filterMap.1 h
    dsimp only at heq
    split at heq
    · cases heq
    · rename_i hsome
      cases heq
      refine ⟨r, Table.mem_toList.1 hmem, ?_, rfl⟩
      by_contra hactive
      rw [Bool.not_eq_true] at hactive
      rw [itemsToAdvertise, hactive] at hsome
      exact hsome rfl
  | fetch =>
    obtain ⟨request, -, heq⟩ := List.mem_map.1 h
    cases heq
  | _ => cases h

theorem GossipRun.recorded (h : GossipRun now n sent) : Recorded now n sent := by
  induction h with
  | start => exact fun _ _ _ hsent => absurd hsent List.not_mem_nil
  | @step past now n sent _ htime ev ih =>
    intro t p items hsent
    rcases List.mem_append.1 hsent with hsent | hsent
    · exact ih.later htime ev t p items hsent
    · obtain ⟨⟨q, m⟩, hmem, heq⟩ := List.mem_map.1 hsent
      cases heq
      obtain ⟨rfl, r, hr, hactive, rfl⟩ := inventory_of_step hmem
      refine ⟨Nat.le_refl _, _, (ExtTreeMap.getElem?_map ..).trans (congrArg _ hr), ?_⟩
      intro item hitem hrecent
      change ToldSince (advertiseTo now (n.newInventory.toList.map Prod.fst) r) _ item
      rw [advertiseTo, if_pos hactive]
      exact (toldSince_tellItems r hitem).cleared hrecent

/-- An event sends one inventory to each peer. -/
theorem inventories_apart (n : GossipNode) (now : ℕ) (ev : GossipEvent) :
    (n.step now ev).2.Pairwise fun m m' => ∀ (p : PeerId) (items items' : List ItemId),
      m = (p, .itemIdsInventory items) → m' ≠ (p, .itemIdsInventory items') := by
  cases ev with
  | advertise =>
    refine List.Pairwise.filterMap _ ?_ ExtTreeMap.distinct_keys_toList
    rintro ⟨q, r⟩ ⟨q', r'⟩ hne m hm m' hm' p items items' rfl rfl
    refine hne (compare_eq_iff_eq.2 ?_)
    dsimp only at hm hm'
    split at hm
    · cases hm
    · split at hm'
      · cases hm'
      · cases hm
        cases hm'
        rfl
  | fetch =>
    refine List.pairwise_map.2 (List.pairwise_of_forall fun request _ _ _ _ heq => ?_)
    cases heq
  | _ => exact List.Pairwise.nil

/-- The items of an inventory that is sent. -/
theorem nodup_itemsToAdvertise (r : GossipPeer) (inventory : KeySet ItemId) :
    (itemsToAdvertise r (inventory.toList.map Prod.fst)).Nodup := by
  unfold itemsToAdvertise
  split
  · refine List.Nodup.filter _ ?_
    rw [ExtTreeMap.map_fst_toList_eq_keys]
    exact ExtTreeMap.nodup_keys
  · exact List.nodup_nil

/-- **An item is advertised to a peer once in two minutes**: of two inventories that the peer is
sent and that both have the item, one is sent more than two minutes after the other, and no
inventory has the item twice. -/
theorem GossipRun.advertised_once (h : GossipRun now n sent) :
    (∀ (t : ℕ) (p : PeerId) (items : List ItemId), (t, p, .itemIdsInventory items) ∈ sent →
      items.Nodup) ∧
    sent.Pairwise fun m m' => ∀ (p : PeerId) (items items' : List ItemId) (item : ItemId),
      m.2 = (p, .itemIdsInventory items) → m'.2 = (p, .itemIdsInventory items') →
        item ∈ items → item ∈ items' → secondsOf m.1 + 120 < secondsOf m'.1 := by
  induction h with
  | start => exact ⟨fun _ _ _ hsent => absurd hsent List.not_mem_nil, List.Pairwise.nil⟩
  | @step past now n sent h htime ev ih =>
    refine ⟨fun t p items hsent => ?_, List.pairwise_append.2 ⟨ih.2, ?_, ?_⟩⟩
    · rcases List.mem_append.1 hsent with hsent | hsent
      · exact ih.1 t p items hsent
      · obtain ⟨⟨q, m⟩, hmem, heq⟩ := List.mem_map.1 hsent
        cases heq
        obtain ⟨-, r, -, -, rfl⟩ := inventory_of_step hmem
        exact nodup_itemsToAdvertise r _
    · refine List.pairwise_map.2 ((inventories_apart n now ev).imp ?_)
      exact fun happart p items items' _ hm hm' => absurd hm' (happart p items items' hm)
    · rintro ⟨t, m⟩ hm m' hm' p items items' item rfl hitems' hitem hitem'
      obtain ⟨⟨q, message⟩, hmem, rfl⟩ := List.mem_map.1 hm'
      cases hitems'
      obtain ⟨-, r, hr, -, rfl⟩ := inventory_of_step hmem
      obtain ⟨-, r', hr', htold⟩ := h.recorded t p items hm
      cases hr.symm.trans hr'
      by_contra hsoon
      -- the peer's record still has the item, so it was not advertised
      obtain ⟨stamp, hstamp, -⟩ := htold item hitem
        ((secondsOf_le_secondsOf htime).trans (Nat.le_of_not_lt hsoon))
      unfold itemsToAdvertise at hitem'
      split at hitem'
      · have hnew := (List.mem_filter.1 hitem').2
        rw [ExtTreeMap.contains_eq_isSome_getElem?, hstamp] at hnew
        cases hnew
      · exact absurd hitem' List.not_mem_nil

/-- A block and a transaction that a peer is told of. -/
theorem advertised_once_two : [(⟨1000, 3⟩ : ItemId), ⟨1001, 7⟩].Nodup := by
  have hrun := (((((GossipRun.start.step (Nat.le_refl 0) (.connected 1)).step (Nat.le_refl 0)
    (.moved 1 .active)).step (Nat.le_refl 0) (.synchronized 1 false false)).step (Nat.le_refl 0)
    (.produced ⟨1001, 7⟩)).step (Nat.le_refl 0) (.produced ⟨1000, 3⟩)).step
      (Nat.zero_le 1000000) .advertise
  exact hrun.advertised_once.1 1000000 1 _ (by decide)

end LarkX
