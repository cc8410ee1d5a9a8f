import LarkX.Market.Books

/-!
# The median feed

`get_median_delegate_price` collects the prices of the feeds that count (`FeedCounts`): of the asset, by
an active delegate, of the last day, and readable as a price of the market. The result is the middle
one of them in the order of their ratios. So it is one of the feeds that count, and it lies wherever
most of them do (`getMedianDelegatePrice_robust`).
-/

namespace LarkX

/-! ### The middle of a sorted list -/

section Middle

variable {α β : Type} [LinearOrder β] {f : α → β} {l : List α} {m : α}

/-- What comes before the middle of a sorted list is not above it, and what comes after is not
below. -/
theorem split_middle (hl : l.Pairwise fun x y => f x ≤ f y)
    (hm : l[l.length / 2]? = some m) : ∃ before after, l = before ++ m :: after ∧
      before.length = l.length / 2 ∧ (∀ x ∈ before, f x ≤ f m) ∧ ∀ x ∈ after, f m ≤ f x := by
  obtain ⟨hlt, rfl⟩ := List.getElem?_eq_some_iff.1 hm
  have hsplit : l = l.take (l.length / 2) ++ l[l.length / 2] :: l.drop (l.length / 2 + 1) := by
    rw [← List.drop_eq_getElem_cons, List.take_append_drop]
  refine ⟨_, _, hsplit, List.length_take_of_le hlt.le, fun x hx => ?_, fun x hx => ?_⟩
  · rw [hsplit] at hl
    exact (List.pairwise_append.1 hl).2.2 x hx _ List.mem_cons_self
  · rw [hsplit] at hl
    exact (List.pairwise_cons.1 (List.pairwise_append.1 hl).2.1).1 x hx

/-- **The middle of a sorted list lies wherever more than half of it does.** -/
theorem middle_between (hl : l.Pairwise fun x y => f x ≤ f y)
    (hm : l[l.length / 2]? = some m) {lo hi : β}
    (hmost : l.length < 2 * l.countP fun x => lo ≤ f x ∧ f x ≤ hi) : lo ≤ f m ∧ f m ≤ hi := by
  obtain ⟨before, after, hsplit, hlength, hbefore, hafter⟩ := split_middle hl hm
  have hlen : l.length = before.length + (after.length + 1) := by
    conv_lhs => rw [hsplit]
    rw [List.length_append, List.length_cons]
  rw [hsplit, List.countP_append, List.countP_cons] at hmost
  constructor
  · by_contra hlo
    -- nothing up to the middle lies in the interval
    have hnone : before.countP (fun x => lo ≤ f x ∧ f x ≤ hi) = 0 := by
      refine List.countP_eq_zero.2 fun x hx => ?_
      rw [decide_eq_true_eq]
      exact fun hin => hlo (hin.1.trans (hbefore x hx))
    rw [hnone, if_neg (by rw [decide_eq_true_eq]; exact fun hin => hlo hin.1)] at hmost
    have hle := after.countP_le_length (p := fun x => decide (lo ≤ f x ∧ f x ≤ hi))
    rw [← hsplit] at hmost
    omega
  · by_contra hhi
    have hnone : after.countP (fun x => lo ≤ f x ∧ f x ≤ hi) = 0 := by
      refine List.countP_eq_zero.2 fun x hx => ?_
      rw [decide_eq_true_eq]
      exact fun hin => hhi ((hafter x hx).trans hin.2)
    rw [hnone, if_neg (by rw [decide_eq_true_eq]; exact fun hin => hhi hin.2)] at hmost
    have hle := before.countP_le_length (p := fun x => decide (lo ≤ f x ∧ f x ≤ hi))
    rw [← hsplit] at hmost
    omega

end Middle

namespace ChainInterface

variable {c c' : ChainInterface} {assetId baseId : ℤ} {active : List ℤ}

/-! ### The feeds that count -/

/-- A feed counts with price `p`: it is of the asset and by an active delegate, it was updated in the
past day, and it reads as a price of the market. -/
structure FeedCounts (c : ChainInterface) (active : List ℤ) (assetId baseId : ℤ)
    (entry : FeedIndex × FeedRecord) (p : Price) : Prop where
  asset : entry.1.feedId = assetId
  scanned : 0 ≤ entry.1.delegateId
  active : entry.1.delegateId ∈ active
  unexpired : c.now < entry.2.lastUpdate + 24 * 60 * 60
  price : entry.2.value.asPrice = some p
  market : p.assetPair = ⟨assetId, baseId⟩

/-- The delegates whose feeds count, with their prices. -/
def countedFeeds (c : ChainInterface) (active : List ℤ) (assetId baseId : ℤ) : List (ℤ × Price) :=
  c.db.feeds.toList.filterMap fun e =>
    if e.1.feedId = assetId ∧ 0 ≤ e.1.delegateId ∧ e.1.delegateId ∈ active ∧
        c.now < e.2.lastUpdate + 24 * 60 * 60 then
      (e.2.value.asPrice.filter fun p => p.assetPair = ⟨assetId, baseId⟩).map (e.1.delegateId, ·)
    else none

private theorem counted_eq_some {entry : FeedIndex × FeedRecord} {d : ℤ × Price} :
    (if entry.1.feedId = assetId ∧ 0 ≤ entry.1.delegateId ∧ entry.1.delegateId ∈ active ∧
        c.now < entry.2.lastUpdate + 24 * 60 * 60 then
      (entry.2.value.asPrice.filter fun p => p.assetPair = ⟨assetId, baseId⟩).map
        (entry.1.delegateId, ·)
    else none) = some d ↔ entry.1.delegateId = d.1 ∧ c.FeedCounts active assetId baseId entry d.2 := by
  constructor
  · intro h
    split_ifs at h with hcounts
    obtain ⟨p, hp, rfl⟩ := Option.map_eq_some_iff.1 h
    obtain ⟨hprice, hmarket⟩ := Option.filter_eq_some_iff.1 hp
    exact ⟨rfl, hcounts.1, hcounts.2.1, hcounts.2.2.1, hcounts.2.2.2, hprice, of_decide_eq_true hmarket⟩
  · rintro ⟨hdelegate, hcounts⟩
    rw [if_pos ⟨hcounts.asset, hcounts.scanned, hcounts.active, hcounts.unexpired⟩, hcounts.price,
      Option.filter_some, if_pos (decide_eq_true hcounts.market), Option.map_some, hdelegate]

/-- The counted feeds are those that count. -/
theorem mem_countedFeeds {d : ℤ × Price} : d ∈ c.countedFeeds active assetId baseId ↔
    ∃ r : FeedRecord, c.db.feeds[(⟨assetId, d.1⟩ : FeedIndex)]? = some r ∧
      c.FeedCounts active assetId baseId (⟨assetId, d.1⟩, r) d.2 := by
  unfold countedFeeds
  rw [List.mem_filterMap]
  constructor
  · rintro ⟨⟨⟨feedId, delegateId⟩, r⟩, hmem, h⟩
    obtain ⟨rfl, hcounts⟩ := counted_eq_some.1 h
    obtain rfl := hcounts.asset
    exact ⟨r, Table.mem_toList.1 hmem, hcounts⟩
  · rintro ⟨r, hget, hcounts⟩
    exact ⟨_, Table.mem_toList.2 hget, counted_eq_some.2 ⟨rfl, hcounts⟩⟩

/-- The feeds are scanned in the order of the delegates. -/
theorem countedFeeds_sorted (c : ChainInterface) (active : List ℤ) (assetId baseId : ℤ) :
    (c.countedFeeds active assetId baseId).Pairwise fun x y => x.1 < y.1 := by
  have hkeys := Std.ExtTreeMap.ordered_keys_toList (t := c.db.feeds)
  refine List.Pairwise.filterMap _ (fun x y hlt d hd d' hd' => ?_) hkeys
  obtain ⟨hx, hxCounts⟩ := counted_eq_some.1 hd
  obtain ⟨hy, hyCounts⟩ := counted_eq_some.1 hd'
  have hcompare : compare x.1 y.1 =
      (compare x.1.feedId y.1.feedId).then (compare x.1.delegateId y.1.delegateId) := rfl
  rw [hcompare, hxCounts.asset, hyCounts.asset, Std.ReflOrd.compare_self, Ordering.eq_then,
    Int.compare_eq_lt] at hlt
  rwa [← hx, ← hy]

/-- The result is the middle one of the prices of the feeds that count. -/
theorem getMedianDelegatePrice_eq (c : ChainInterface) (assetId baseId : ℤ) :
    c.getMedianDelegatePrice assetId baseId = (do
      let active ← { c with overlays := [] }.getActiveDelegates
      let prices := (c.countedFeeds active assetId baseId).map Prod.snd
      if prices.length < btsBlockchainMinFeeds then return none
      else return (prices.insertionSort fun p q => p.ratio ≤ q.ratio)[prices.length / 2]?) := by
  have hprices : ∀ active, (c.countedFeeds active assetId baseId).map Prod.snd =
      c.db.feeds.toList.filterMap fun e =>
        if e.1.feedId = assetId ∧ 0 ≤ e.1.delegateId ∧ e.1.delegateId ∈ active ∧
            c.now < e.2.lastUpdate + 24 * 60 * 60 then
          e.2.value.asPrice.filter fun p => p.assetPair = ⟨assetId, baseId⟩
        else none := by
    intro active
    unfold countedFeeds
    rw [List.map_filterMap]
    congr 1
    funext e
    split_ifs
    · rw [Option.map_map]
      exact Option.map_id' ..
    · rfl
  unfold getMedianDelegatePrice
  simp only [hprices]

/-- **The median feed is robust.** It is the price of a feed that counts, at least the required number
of delegates have feeds that count, and it lies in every interval in which more than half of their
prices lie. Nothing else influences it: a state with the same active delegates in which the same feeds
count has the same median. -/
theorem getMedianDelegatePrice_robust {p : Price}
    (h : c.getMedianDelegatePrice assetId baseId = .ok (some p)) : ∃ active,
      { c with overlays := [] }.getActiveDelegates = .ok active ∧
      (∃ d r, c.db.feeds[(⟨assetId, d⟩ : FeedIndex)]? = some r ∧
        c.FeedCounts active assetId baseId (⟨assetId, d⟩, r) p) ∧
      (∃ feeds : List (ℤ × Price), (feeds.map Prod.fst).Nodup ∧
        (∀ d q, (d, q) ∈ feeds ↔ ∃ r, c.db.feeds[(⟨assetId, d⟩ : FeedIndex)]? = some r ∧
          c.FeedCounts active assetId baseId (⟨assetId, d⟩, r) q) ∧
        btsBlockchainMinFeeds ≤ feeds.length ∧
        ∀ lo hi, feeds.length < 2 * feeds.countP (fun e => lo ≤ e.2.ratio ∧ e.2.ratio ≤ hi) →
          lo ≤ p.ratio ∧ p.ratio ≤ hi) ∧
      ∀ c' : ChainInterface, { c' with overlays := [] }.getActiveDelegates = .ok active →
        (∀ d q, (∃ r, c'.db.feeds[(⟨assetId, d⟩ : FeedIndex)]? = some r ∧
            c'.FeedCounts active assetId baseId (⟨assetId, d⟩, r) q) ↔
          ∃ r, c.db.feeds[(⟨assetId, d⟩ : FeedIndex)]? = some r ∧
            c.FeedCounts active assetId baseId (⟨assetId, d⟩, r) q) →
        c'.getMedianDelegatePrice assetId baseId = .ok (some p) := by
  rw [getMedianDelegatePrice_eq] at h
  simp only [bind_eq_ok, ite_eq_ok, pure_eq_ok] at h
  obtain ⟨active, hactive, ⟨-, hnone⟩ | ⟨henough, hmiddle⟩⟩ := h
  · cases hnone
  rw [List.length_map] at henough hmiddle
  set feeds := c.countedFeeds active assetId baseId with hfeeds
  set sorted := (feeds.map Prod.snd).insertionSort fun p q => p.ratio ≤ q.ratio with hsorted
  have hperm : sorted.Perm (feeds.map Prod.snd) := List.perm_insertionSort _ _
  have hlength : sorted.length = feeds.length := by rw [hperm.length_eq, List.length_map]
  have hmem : p ∈ feeds.map Prod.snd := hperm.mem_iff.1 (List.mem_of_getElem? hmiddle)
  have hordered := countedFeeds_sorted c active assetId baseId
  refine ⟨active, hactive, ?_, ⟨feeds, ?_, fun d q => mem_countedFeeds, not_lt.1 henough, ?_⟩, ?_⟩
  · obtain ⟨⟨d, q⟩, hd, rfl⟩ := List.mem_map.1 hmem
    obtain ⟨r, hget, hcounts⟩ := mem_countedFeeds.1 hd
    exact ⟨d, r, hget, hcounts⟩
  · rw [← List.pairwise_map (f := Prod.fst) (R := fun x y : ℤ => x < y)] at hordered
    exact hordered.imp fun hlt => hlt.ne
  · intro lo hi hmost
    refine middle_between (f := Price.ratio) (l := sorted) ?_ (by rw [hlength]; exact hmiddle) ?_
    · exact List.pairwise_insertionSort (fun p q : Price => p.ratio ≤ q.ratio) _
    · rw [hlength, hperm.countP_eq, List.countP_map]
      exact hmost
  · intro c' hactive' hsame
    have hfeeds' : c'.countedFeeds active assetId baseId = feeds := by
      have hantisymm : Std.Antisymm fun x y : ℤ × Price => x.1 < y.1 :=
        ⟨fun x y hxy hyx => absurd hxy hyx.asymm⟩
      have hirrefl : Std.Irrefl fun x y : ℤ × Price => x.1 < y.1 := ⟨fun x => lt_irrefl x.1⟩
      refine (countedFeeds_sorted c' active assetId baseId).eq_of_mem_iff hordered fun e => ?_
      rw [mem_countedFeeds, hfeeds, mem_countedFeeds]
      exact hsame e.1 e.2
    rw [getMedianDelegatePrice_eq, hactive', ok_bind]
    dsimp only
    rw [hfeeds', List.length_map, if_neg henough]
    exact congrArg Except.ok hmiddle

/-- A feed price that all active delegates publish. -/
theorem getMedianDelegatePrice_robust_same : ∃ active d r,
    ChainInterface.FeedCounts (marketChain { id := 1 } { id := 0 } (.price ['2'] 1 0) [] [] [] []) active 1 0
      (⟨1, d⟩, r) ⟨2 * btsPricePrecision, 1, 0⟩ := by
  have hmedian : (marketChain { id := 1 } { id := 0 } (.price ['2'] 1 0) [] [] []
      []).getMedianDelegatePrice 1 0 = .ok (some ⟨2 * btsPricePrecision, 1, 0⟩) := by decide +kernel
  obtain ⟨active, -, ⟨d, r, -, hcounts⟩, -⟩ := getMedianDelegatePrice_robust hmedian
  exact ⟨active, d, r, hcounts⟩

end ChainInterface

end LarkX
