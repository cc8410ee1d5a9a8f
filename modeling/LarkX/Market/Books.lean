import LarkX.Market.Engine

/-!
# Order books

The order of prices and of the keys of a book: first the market, then the ratio, then the owner.
The iterators of the engine list the entries of the database around a market in this order
(`entriesBefore_sorted`, `entriesFrom_sorted`).
-/

namespace LarkX

/-! ### The order of prices -/

/-- **The order of prices**: the quote asset, then the base asset, then the ratio. -/
theorem Price.lt_iff {l r : Price} : l.lt r = true ↔
    l.quoteAssetId < r.quoteAssetId ∨ l.quoteAssetId = r.quoteAssetId ∧
      (l.baseAssetId < r.baseAssetId ∨ l.baseAssetId = r.baseAssetId ∧ l.ratio < r.ratio) := by
  have hcompare : l.lt r = true ↔ Ordering.then (compare l.quoteAssetId r.quoteAssetId)
      (Ordering.then (compare l.baseAssetId r.baseAssetId) (compare l.ratio r.ratio)) = .lt :=
    beq_iff_eq
  rw [hcompare, Ordering.then_eq_lt, Ordering.then_eq_lt, Int.compare_eq_lt, Int.compare_eq_eq,
    Int.compare_eq_lt, Int.compare_eq_eq, Nat.compare_eq_lt]

theorem Price.lt_irrefl (p : Price) : p.lt p = false := by
  rw [← Bool.not_eq_true, Price.lt_iff]
  omega

/-- In one market the order of prices is the order of their ratios. -/
theorem Price.lt_iff_of_assetPair {l r : Price} (h : l.assetPair = r.assetPair) :
    l.lt r = true ↔ l.ratio < r.ratio := by
  injection h with hquote hbase
  rw [Price.lt_iff]
  omega

theorem MarketIndexKey.assetPair_eq_iff {key : MarketIndexKey} {quoteId baseId : ℤ} :
    key.assetPair = ⟨quoteId, baseId⟩ ↔
      key.orderPrice.quoteAssetId = quoteId ∧ key.orderPrice.baseAssetId = baseId := by
  rw [MarketIndexKey.assetPair, Price.assetPair, AssetPair.mk.injEq]

/-- What lies between two prices of a market is a price of the market. -/
theorem Price.assetPair_of_between {l p r : Price} (hpair : l.assetPair = r.assetPair)
    (hl : p.lt l = false) (hr : r.lt p = false) : p.assetPair = r.assetPair := by
  injection hpair with hquote hbase
  rw [← Bool.not_eq_true, Price.lt_iff] at hl hr
  have hq : p.quoteAssetId = r.quoteAssetId := by omega
  have hb : p.baseAssetId = r.baseAssetId := by omega
  exact AssetPair.mk.injEq .. ▸ ⟨hq, hb⟩

/-- The lower of two prices is one of them, and not above the second. -/
theorem Price.min_cases (l r : Price) :
    (l.min r = r ∧ r.lt l = true) ∨ (l.min r = l ∧ r.lt l = false) := by
  unfold Price.min
  cases h : r.lt l with
  | true => exact Or.inl ⟨rfl, rfl⟩
  | false => exact Or.inr ⟨rfl, rfl⟩

/-- A feed price is a price of the market it is asked for. -/
theorem ChainInterface.getMedianDelegatePrice_assetPair {c : ChainInterface} {assetId baseId : ℤ}
    {feed : Price} (h : c.getMedianDelegatePrice assetId baseId = .ok (some feed)) :
    feed.assetPair = ⟨assetId, baseId⟩ := by
  simp only [getMedianDelegatePrice, bind_eq_ok, ite_eq_ok, pure_eq_ok] at h
  obtain ⟨active, -, ⟨-, hnone⟩ | ⟨-, hsome⟩⟩ := h
  · cases hnone
  · have hmem := List.mem_of_getElem? hsome
    rw [List.mem_insertionSort, List.mem_filterMap] at hmem
    obtain ⟨entry, -, hentry⟩ := hmem
    split at hentry
    · have hfilter := (Option.filter_eq_some_iff.1 hentry).2
      simpa using hfilter
    · cases hentry

/-! ### Iterators -/

/-- The entries of the market in an iterator. -/
def inMarket {α : Type} (pair : AssetPair) (itr : BookIterator α) : ℕ :=
  itr.countP fun entry => decide (entry.1.assetPair = pair)

@[simp] theorem inMarket_nil {α : Type} (pair : AssetPair) :
    inMarket pair ([] : BookIterator α) = 0 := rfl

theorem inMarket_cons {α : Type} {pair : AssetPair} {key : MarketIndexKey} {r : α}
    {rest : BookIterator α} (h : key.assetPair = pair) :
    inMarket pair ((key, r) :: rest) = inMarket pair rest + 1 :=
  List.countP_cons_of_pos (by exact decide_eq_true h)

theorem inMarket_sublist {α : Type} (pair : AssetPair) {itr itr' : BookIterator α}
    (h : itr.Sublist itr') : inMarket pair itr ≤ inMarket pair itr' :=
  h.countP_le

theorem inMarket_entriesBefore {α : Type} (pair : AssetPair) (book : Table MarketIndexKey α)
    (key : MarketIndexKey) :
    inMarket pair (MarketEngine.entriesBefore book key) ≤ inMarket pair book.toList := by
  unfold MarketEngine.entriesBefore inMarket
  rw [List.countP_reverse]
  exact List.filter_sublist.countP_le

theorem inMarket_entriesFrom {α : Type} (pair : AssetPair) (book : Table MarketIndexKey α)
    (key : MarketIndexKey) :
    inMarket pair (MarketEngine.entriesFrom book key) ≤ inMarket pair book.toList :=
  inMarket_sublist pair List.filter_sublist

/-- The entries of the market in an iterator, in its order. -/
def ofMarket {α : Type} (pair : AssetPair) (itr : BookIterator α) : BookIterator α :=
  itr.filter fun entry => decide (entry.1.assetPair = pair)

theorem mem_ofMarket {α : Type} {pair : AssetPair} {itr : BookIterator α}
    {x : MarketIndexKey × α} : x ∈ ofMarket pair itr ↔ x ∈ itr ∧ x.1.assetPair = pair := by
  rw [ofMarket, List.mem_filter, decide_eq_true_iff]

theorem ofMarket_cons {α : Type} {pair : AssetPair} {key : MarketIndexKey} {r : α}
    {rest : BookIterator α} (h : key.assetPair = pair) :
    ofMarket pair ((key, r) :: rest) = (key, r) :: ofMarket pair rest :=
  List.filter_cons_of_pos (by exact decide_eq_true h)

theorem ofMarket_tail {α : Type} {pair : AssetPair} {itr : BookIterator α}
    (h : ∀ entry ∈ itr.head?, entry.1.assetPair ≠ pair) :
    ofMarket pair itr.tail = ofMarket pair itr := by
  cases itr with
  | nil => rfl
  | cons entry rest =>
    exact (List.filter_cons_of_neg (by simpa using h entry rfl)).symm

/-- Once an iterator has left the market it does not come back. -/
def Departs {α : Type} (pair : AssetPair) (itr : BookIterator α) : Prop :=
  itr.Pairwise fun x y => x.1.assetPair ≠ pair → y.1.assetPair ≠ pair

/-- An iterator that stands outside the market has no entry of the market ahead. -/
theorem Departs.ofMarket_eq_nil {α : Type} {pair : AssetPair} {itr : BookIterator α}
    (h : Departs pair itr) (hout : ∀ entry ∈ itr.head?, entry.1.assetPair ≠ pair) :
    ofMarket pair itr = [] := by
  cases itr with
  | nil => rfl
  | cons entry rest =>
    have hhead := hout entry rfl
    obtain ⟨hrest, -⟩ := List.pairwise_cons.1 h
    refine List.eq_nil_iff_forall_not_mem.2 fun x hx => ?_
    obtain ⟨hmem, hpair⟩ := mem_ofMarket.1 hx
    rcases List.mem_cons.1 hmem with rfl | hmem
    · exact hhead hpair
    · exact hrest x hmem hhead hpair

namespace MarketEngine

/-- The key of an entry comes before the first key at a price when its price is lower. -/
theorem compare_first {key : MarketIndexKey} {p : Price} :
    compare key ⟨p, 0⟩ = .lt ↔ key.orderPrice.lt p = true := by
  have hcompare : compare key ⟨p, 0⟩ =
      Ordering.then (compare key.orderPrice p) (compare key.owner 0) := rfl
  have howner : compare key.owner 0 ≠ .lt := fun h => Nat.not_lt_zero _ (Nat.compare_eq_lt.1 h)
  rw [hcompare, Ordering.then_eq_lt]
  simp only [howner, and_false, or_false]
  exact beq_iff_eq.symm

/-- Keys in order have prices in order. -/
theorem not_lt_of_compare {x y : MarketIndexKey} (h : compare x y = .lt) :
    y.orderPrice.lt x.orderPrice = false := by
  have hcompare : compare x y =
      Ordering.then (compare x.orderPrice y.orderPrice) (compare x.owner y.owner) := rfl
  rw [hcompare, Ordering.then_eq_lt] at h
  rw [← Bool.not_eq_true]
  intro hlt
  have hlt' : compare y.orderPrice x.orderPrice = .lt := beq_iff_eq.1 hlt
  rw [Std.OrientedOrd.eq_swap] at hlt'
  rcases h with h | ⟨h, -⟩
  · rw [h] at hlt'
    cases hlt'
  · rw [h] at hlt'
    cases hlt'

theorem mem_entriesBefore {α : Type} {book : Table MarketIndexKey α} {key : MarketIndexKey}
    {x : MarketIndexKey × α} :
    x ∈ entriesBefore book key ↔ book[x.1]? = some x.2 ∧ compare x.1 key = .lt := by
  rw [entriesBefore, List.mem_reverse, List.mem_filter, beq_iff_eq, ← Table.mem_toList]

theorem mem_entriesFrom {α : Type} {book : Table MarketIndexKey α} {key : MarketIndexKey}
    {x : MarketIndexKey × α} :
    x ∈ entriesFrom book key ↔ book[x.1]? = some x.2 ∧ compare x.1 key ≠ .lt := by
  rw [entriesFrom, List.mem_filter, bne_iff_ne, ← Table.mem_toList]

theorem entriesBefore_sorted {α : Type} (book : Table MarketIndexKey α) (key : MarketIndexKey) :
    (entriesBefore book key).Pairwise fun x y => compare y.1 x.1 = .lt := by
  rw [entriesBefore, List.pairwise_reverse]
  exact Std.ExtTreeMap.ordered_keys_toList.sublist List.filter_sublist

theorem entriesFrom_sorted {α : Type} (book : Table MarketIndexKey α) (key : MarketIndexKey) :
    (entriesFrom book key).Pairwise fun x y => compare x.1 y.1 = .lt :=
  Std.ExtTreeMap.ordered_keys_toList.sublist List.filter_sublist

/-- The first price after a market, as `execute` names it. -/
def nextPair (quoteId baseId : ℤ) : Price :=
  if baseId + 1 = quoteId then { ratio := 0, quoteAssetId := quoteId + 1, baseAssetId := 0 }
  else { ratio := 0, quoteAssetId := quoteId, baseAssetId := baseId + 1 }

/-- What comes before `nextPair`: the market, what is below it, and, where the ids of the assets
follow each other, some other markets. -/
theorem lt_nextPair_iff {quoteId baseId : ℤ} (hids : baseId < quoteId) {p : Price} :
    p.lt (nextPair quoteId baseId) = true ↔
      p.assetPair = ⟨quoteId, baseId⟩ ∨ p.quoteAssetId < quoteId ∨
        (p.quoteAssetId = quoteId ∧ p.baseAssetId < baseId) ∨
        (baseId + 1 = quoteId ∧ (p.quoteAssetId = quoteId ∧ quoteId ≤ p.baseAssetId ∨
          p.quoteAssetId = quoteId + 1 ∧ p.baseAssetId < 0)) := by
  have hpair : p.assetPair = ⟨quoteId, baseId⟩ ↔
      p.quoteAssetId = quoteId ∧ p.baseAssetId = baseId := by
    rw [Price.assetPair, AssetPair.mk.injEq]
  rw [Price.lt_iff, hpair, nextPair]
  split
  · dsimp only
    omega
  · dsimp only
    omega

/-- The market of a lower key: the same or a lower one. -/
theorem assetPair_le {x y : MarketIndexKey} (h : compare x y = .lt) :
    x.orderPrice.quoteAssetId < y.orderPrice.quoteAssetId ∨
      x.orderPrice.quoteAssetId = y.orderPrice.quoteAssetId ∧
        x.orderPrice.baseAssetId ≤ y.orderPrice.baseAssetId := by
  have hle := not_lt_of_compare h
  rw [← Bool.not_eq_true, Price.lt_iff] at hle
  omega

/-- The lowest price of a market. -/
def firstPrice (quoteId baseId : ℤ) : Price :=
  { ratio := 0, quoteAssetId := quoteId, baseAssetId := baseId }

/-- An engine that is opened stands at the ends of the books of the database. -/
structure AtEnds (c : ChainInterface) (quoteId baseId : ℤ) (e : MarketEngine) : Prop where
  ordered : baseId < quoteId
  bidItr : e.bidItr = entriesBefore c.db.bids ⟨nextPair quoteId baseId, 0⟩
  askItr : e.askItr = entriesFrom c.db.asks ⟨firstPrice quoteId baseId, 0⟩ ∨
    entriesFrom c.db.asks ⟨firstPrice quoteId baseId, 0⟩ = [] ∧ e.askItr = c.db.asks.toList
  shortItr : e.shortItr = entriesBefore c.db.shorts ⟨nextPair quoteId baseId, 0⟩
  collateralItr : e.collateralItr = entriesBefore c.db.collateral ⟨nextPair quoteId baseId, 0⟩
  feed : c.getMedianDelegatePrice quoteId baseId = .ok e.feedPrice
  ordersFilled : e.ordersFilled = 0
  lastOrdersFilled : e.lastOrdersFilled = -1

private theorem zeroPrice_eq_ok {quote base : ℤ} {p : Price} (h : zeroPrice quote base = .ok p) :
    base < quote ∧ p = { ratio := 0, quoteAssetId := quote, baseAssetId := base } := by
  simp only [zeroPrice, bind_eq_ok, require_eq_ok, pure_eq_ok] at h
  obtain ⟨-, hlt, rfl⟩ := h
  exact ⟨hlt, rfl⟩

theorem openMarket_atEnds {c : ChainInterface} {quoteId baseId : ℤ} {e : MarketEngine}
    (h : openMarket c quoteId baseId = .ok e) : AtEnds c quoteId baseId e := by
  simp only [openMarket, ite_bind, bind_eq_ok, pure_eq_ok] at h
  obtain ⟨quoteAsset, -, baseAsset, -, next, hnext, first, hfirst, feed, hfeed, rfl⟩ := h
  obtain ⟨hlt, rfl⟩ := zeroPrice_eq_ok hfirst
  have hnext' : next = nextPair quoteId baseId := by
    unfold nextPair
    split_ifs at hnext ⊢ with heq
    · exact (zeroPrice_eq_ok hnext).2
    · exact (zeroPrice_eq_ok hnext).2
  subst hnext'
  refine ⟨hlt, rfl, ?_, rfl, rfl, hfeed, rfl, rfl⟩
  dsimp only
  split_ifs with hnil
  · exact Or.inr ⟨hnil, rfl⟩
  · exact Or.inl rfl

end MarketEngine

/-- The table with the entries of a list. -/
def tableOf {κ α : Type} [Ord κ] [Std.TransOrd κ] (entries : List (κ × α)) : Table κ α :=
  entries.foldl (fun t e => t.insert e.1 e.2) ∅

/-- A small state of the chain: two assets, their order books, and the same feed of every active
delegate. -/
def marketChain (quote base : AssetRecord) (feed : FeedValue)
    (bids asks shorts : List (MarketIndexKey × OrderRecord))
    (collateral : List (MarketIndexKey × CollateralRecord)) : ChainInterface where
  db := {
    properties := tableOf
      [(ChainProperty.activeDelegateListId, Variant.ids ((List.range 51).map Int.ofNat))]
    assets := tableOf [(quote.id, quote), (base.id, base)]
    bids := tableOf bids
    asks := tableOf asks
    shorts := tableOf shorts
    collateral := tableOf collateral
    feeds := tableOf ((List.range 51).map fun i =>
      (FeedIndex.mk quote.id i, ({ feed := ⟨quote.id, i⟩, value := feed, lastUpdate := 1000 } :
        FeedRecord))) }
  now := 1000
  headBlockNum := 1

end LarkX
