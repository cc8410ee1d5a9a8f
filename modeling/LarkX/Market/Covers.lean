import LarkX.Market.Completed

/-!
# Which margin positions are offered

`get_next_ask` walks the margin positions of the database down from the highest call price and
takes those that are called or have expired, until it meets one that is neither. What it has taken
is therefore an initial part of the walk (`Offers`), and when an ordinary ask comes up, every
position that is called or has expired was taken exactly when no other position stands above one
of them (`covers_taken`).
-/

namespace LarkX

namespace MarketEngine

variable {crypto : Crypto} {c : ChainInterface} {quoteId baseId : ℤ} {e₀ e e₁ e' v : MarketEngine}
  {bid ask : MarketOrder} {goOn : Bool} {feed : Price} {n : ℕ}
  {taken rest : BookIterator CollateralRecord}

/-! ### The asks of a run -/

/-- The states of a run after each look for the next ask. The first look is before the loop. -/
inductive Looks (crypto : Crypto) (e₀ : MarketEngine) : ℕ → MarketEngine → Prop
  | first {e₁ : MarketEngine} (hnext : e₀.getNextBid = .ok e₁) : Looks crypto e₀ 0 e₁.getNextAsk
  | next {n : ℕ} {e₁ e₂ e₃ : MarketEngine} (hnext : e₀.getNextBid = .ok e₁)
      (hrounds : Rounds crypto n e₁.getNextAsk e₂) (hbid : e₂.getNextBid = .ok e₃)
      (hsome : e₃.currentBid.isSome = true) : Looks crypto e₀ (n + 1) e₃.getNextAsk

/-- A margin position has been taken as an ask. -/
def TakenBy (crypto : Crypto) (e₀ : MarketEngine) (n : ℕ) (key : MarketIndexKey) : Prop :=
  ∃ m ≤ n, ∃ v ask, Looks crypto e₀ m v ∧ v.currentAsk = some ask ∧ ask.type = .coverOrder ∧
    ask.marketIndex = key

theorem TakenBy.mono {m : ℕ} {key : MarketIndexKey} (hle : n ≤ m) (h : TakenBy crypto e₀ n key) :
    TakenBy crypto e₀ m key := by
  obtain ⟨k, hk, htaken⟩ := h
  exact ⟨k, hk.trans hle, htaken⟩

/-- A margin position of the market whose call price is above the feed, or which has expired. -/
structure Called (c : ChainInterface) (pair : AssetPair) (feed : Price) (key : MarketIndexKey)
    (r : CollateralRecord) : Prop where
  position : c.db.collateral[key]? = some r
  market : key.assetPair = pair
  callable : feed.lt key.orderPrice = true ∨ r.expiration ≤ c.now

/-- No position that stays stands above one that is called: those in between are of the market,
and called as well. -/
def CalledFirst (c : ChainInterface) (quoteId baseId : ℤ) (feed : Price) : Prop :=
  ∀ key r key' r', Called c ⟨quoteId, baseId⟩ feed key r → c.db.collateral[key']? = some r' →
    compare key key' = .lt → key'.orderPrice.lt (nextPair quoteId baseId) = true →
    Called c ⟨quoteId, baseId⟩ feed key' r'

/-! ### What the walk has taken -/

/-- The walk has stopped in front of `rest`. -/
structure Abandoned (e₀ e : MarketEngine) (rest : BookIterator CollateralRecord) : Prop where
  dropped : e.collateralItr = []
  stuck : ∀ x ∈ rest.head?, x.1.assetPair = e₀.pair → e₀.isCallable x.1.orderPrice x.2 = false

/-- By the look `n`, the positions `taken` were taken, and the walk stands or has stopped in front
of `rest`; an ask that is not a margin position is there only after it has stopped. -/
structure Offers (crypto : Crypto) (e₀ e : MarketEngine) (n : ℕ)
    (taken rest : BookIterator CollateralRecord) : Prop where
  onMarket : OnMarket e
  pair : e.pair = e₀.pair
  feed : e.feedPrice = e₀.feedPrice
  now : e.pendingState.now = e₀.pendingState.now
  split : e₀.collateralItr = taken ++ rest
  called : ∀ x ∈ taken, x.1.assetPair = e₀.pair ∧ e₀.isCallable x.1.orderPrice x.2 = true ∧
    TakenBy crypto e₀ n x.1
  left : e.collateralItr = rest ∨ Abandoned e₀ e rest
  ask : ∀ ask, e.currentAsk = some ask →
    (ask.type = .coverOrder ∧ ∃ x ∈ taken, x.1 = ask.marketIndex) ∨
      (ask.type ≠ .coverOrder ∧ Abandoned e₀ e rest)

theorem isCallable_eq (hfeed : e.feedPrice = e₀.feedPrice)
    (hnow : e.pendingState.now = e₀.pendingState.now) (p : Price) (r : CollateralRecord) :
    e.isCallable p r = e₀.isCallable p r := by
  unfold isCallable
  rw [hfeed, hnow]

namespace Offers

theorem mono {m : ℕ} (hle : n ≤ m) (h : Offers crypto e₀ e n taken rest) :
    Offers crypto e₀ e m taken rest :=
  { h with called := fun x hx =>
      ⟨(h.called x hx).1, (h.called x hx).2.1, (h.called x hx).2.2.mono hle⟩ }

theorem getNextBid (h : Offers crypto e₀ e n taken rest) (hnext : e.getNextBid = .ok e') :
    Offers crypto e₀ e' n taken rest := by
  have hmarket := h.onMarket.getNextBid hnext
  obtain ⟨-, rfl⟩ | ⟨-, hfetch⟩ := getNextBid_eq_ok hnext
  · exact h
  · have hkeep : e'.pair = e.pair ∧ e'.feedPrice = e.feedPrice ∧
        e'.collateralItr = e.collateralItr ∧ e'.currentAsk = e.currentAsk := by
      cases hfetch <;> exact ⟨rfl, rfl, rfl, rfl⟩
    obtain ⟨hpair, hfeed, hitr, hask⟩ := hkeep
    have habandon : Abandoned e₀ e rest → Abandoned e₀ e' rest :=
      fun ha => ⟨hitr.trans ha.dropped, ha.stuck⟩
    refine { h with
      onMarket := hmarket
      pair := hpair.trans h.pair
      feed := hfeed.trans h.feed
      now := by rw [hfetch.pendingState, h.now]
      left := h.left.imp hitr.trans habandon
      ask := fun ask ho => ?_ }
    rw [hask] at ho
    exact (h.ask ask ho).imp_right fun hordinary => ⟨hordinary.1, habandon hordinary.2⟩

/-- **A look for the next ask.** It takes the next position, or the walk has stopped. -/
theorem getNextAsk (h : Offers crypto e₀ e n taken rest) (hbid : e.currentBid.isSome = true)
    (hlook : Looks crypto e₀ n e.getNextAsk) : ∃ taken rest,
      Offers crypto e₀ e.getNextAsk n taken rest ∧
        ((∀ ask, e.getNextAsk.currentAsk = some ask → ask.type ≠ .coverOrder) →
          Abandoned e₀ e.getNextAsk rest) := by
  obtain ⟨hlive, heq⟩ | ⟨-, hfetch⟩ := getNextAsk_cases e
  · rw [heq]
    refine ⟨taken, rest, h, fun hordinary => ?_⟩
    obtain ⟨ask, hask, -⟩ := hlive
    obtain ⟨hcover, -⟩ | ⟨-, habandon⟩ := h.ask ask hask
    · exact absurd hcover (hordinary ask hask)
    · exact habandon
  · have hmarket := h.onMarket.fetchesAsk hfetch
    have hcallable := isCallable_eq h.feed h.now
    -- a position that is refused is the first of those that are left
    have hstuck : ∀ {itr : BookIterator CollateralRecord}, e.Abandons itr →
        itr = [] ∧ ∀ x ∈ rest.head?, x.1.assetPair = e₀.pair →
          e₀.isCallable x.1.orderPrice x.2 = false := by
      intro itr habandons
      refine ⟨habandons.dropped hbid, ?_⟩
      obtain hitr | habandon := h.left
      · intro x hx hpair
        rw [← hcallable]
        exact habandons.notCalled hbid x (hitr ▸ hx) (hpair.trans h.pair.symm)
      · exact habandon.stuck
    generalize hv : e.getNextAsk = v at hfetch hlook hmarket ⊢
    cases hfetch with
    | @cover key r tail hsome hitr hpair hcall =>
      have hrest : rest = (key, r) :: tail := by
        obtain hsame | habandon := h.left
        · exact hsame.symm.trans hitr
        · rw [habandon.dropped] at hitr
          cases hitr
      have htaken : TakenBy crypto e₀ n key :=
        ⟨n, le_rfl, _, coverOf key r, hlook, rfl, rfl, rfl⟩
      refine ⟨taken ++ [(key, r)], tail, { h with
        onMarket := hmarket
        split := by rw [h.split, hrest, List.append_assoc]; rfl
        called := fun x hx => ?_
        left := Or.inl rfl
        ask := fun ask hask => ?_ }, fun hordinary => ?_⟩
      · rcases List.mem_append.1 hx with hx | hx
        · exact h.called x hx
        · obtain rfl := List.mem_singleton.1 hx
          exact ⟨hpair.trans h.pair, (hcallable _ _).symm.trans hcall, htaken⟩
      · obtain rfl : coverOf key r = ask := Option.some.inj hask
        exact Or.inl ⟨rfl, (key, r), List.mem_append_right _ (List.mem_singleton_self _), rfl⟩
      · exact absurd rfl (hordinary (coverOf key r) rfl)
    | @ask key r tail itr collat habandons hitr hpair =>
      obtain ⟨rfl, hstuck⟩ := hstuck habandons
      refine ⟨taken, rest, { h with
        onMarket := hmarket
        left := Or.inr ⟨rfl, hstuck⟩
        ask := fun ask hask => ?_ }, fun _ => ⟨rfl, hstuck⟩⟩
      obtain rfl : askOf key r = ask := Option.some.inj hask
      exact Or.inr ⟨fun h => (by cases h), rfl, hstuck⟩
    | @none itr collat habandons hasks =>
      obtain ⟨rfl, hstuck⟩ := hstuck habandons
      exact ⟨taken, rest, { h with
        onMarket := hmarket
        left := Or.inr ⟨rfl, hstuck⟩
        ask := fun ask hask => by cases hask }, fun _ => ⟨rfl, hstuck⟩⟩

/-- The body of the loop takes no order from the books. -/
theorem matchOrders (h : Offers crypto e₀ e n taken rest) (hbid : e.currentBid = some bid)
    (hask : e.currentAsk = some ask) (hmatch : Matches crypto e.counted bid ask e' goOn) :
    Offers crypto e₀ e' n taken rest := by
  obtain ⟨hmarket, hwalk, -⟩ :=
    OnMarket.matches (e := e.counted) { h.onMarket with } hbid hask hmatch
  have habandon : Abandoned e₀ e rest → Abandoned e₀ e' rest :=
    fun ha => ⟨hwalk.collateralItr.trans ha.dropped, ha.stuck⟩
  refine { h with
    onMarket := hmarket
    pair := hwalk.pair.trans h.pair
    feed := hwalk.feed.trans h.feed
    now := hwalk.now.trans h.now
    left := h.left.imp hwalk.collateralItr.trans habandon
    ask := fun ask' hask' => ?_ }
  have hsame : ask'.type = ask.type ∧ ask'.marketIndex = ask.marketIndex := by
    have hkept : ∀ {e' : MarketEngine}, e'.currentAsk = e.currentAsk →
        e'.currentAsk = some ask' → ask'.type = ask.type ∧ ask'.marketIndex = ask.marketIndex := by
      intro e' hkeep hask'
      obtain rfl : ask = ask' := Option.some.inj (hask.symm.trans (hkeep.symm.trans hask'))
      exact ⟨rfl, rfl⟩
    cases hmatch with
    | skipBid => exact hkept rfl hask'
    | skipAsk => cases hask'
    | spread => exact hkept rfl hask'
    | traded hprice hcross htrade hcollect =>
      have htypes := OnMarket.paired (e := e.counted) { h.onMarket with } hbid hask
      obtain ⟨bid₁, ask₁, -, hask₁, -, hsame, -⟩ :=
        trade_usesUp (e := e.counted) h.onMarket.pending htypes htrade
      obtain ⟨volume, quoteFees, baseFees, rfl⟩ := hcollect.rest
      obtain rfl : ask₁ = ask' := Option.some.inj (hask₁.symm.trans hask')
      exact ⟨hsame.type, hsame.marketIndex⟩
  obtain ⟨hcover, x, hx, hkey⟩ | ⟨hordinary, ha⟩ := h.ask ask hask
  · exact Or.inl ⟨hsame.1.trans hcover, x, hx, hkey.trans hsame.2.symm⟩
  · exact Or.inr ⟨hsame.1.symm ▸ hordinary, habandon ha⟩

end Offers

/-- An opened engine has taken nothing. -/
private theorem offers_of_open (crypto : Crypto)
    (hopen : openMarket c quoteId baseId = .ok e₀) : Offers crypto e₀ e₀ 0 [] e₀.collateralItr where
  onMarket := (openMarket_ordersLeft hopen).1.onMarket
  pair := rfl
  feed := rfl
  now := rfl
  split := rfl
  called _ hx := by cases hx
  left := Or.inl rfl
  ask ask hask := by rw [(openMarket_eq_ok hopen).1.ask] at hask; cases hask

/-- The rounds of a run, which starts with a bid or has none at all. -/
private theorem offers_of_rounds (hopen : openMarket c quoteId baseId = .ok e₀)
    (hnext : e₀.getNextBid = .ok e₁) (hrounds : Rounds crypto n e₁.getNextAsk e) :
    NoBids e ∨ ∃ taken rest, Offers crypto e₀ e n taken rest := by
  generalize hstart : e₁.getNextAsk = v at hrounds
  induction hrounds with
  | refl v =>
    subst hstart
    have h₁ := (offers_of_open crypto hopen).getNextBid hnext
    cases hbid : e₁.currentBid with
    | some bid =>
      obtain ⟨taken, rest, h, -⟩ := h₁.getNextAsk (hbid ▸ rfl) (.first hnext)
      exact Or.inr ⟨taken, rest, h⟩
    | none =>
      refine Or.inl (NoBids.getNextAsk ?_)
      obtain ⟨hlive, rfl⟩ | ⟨-, hfetch⟩ := getNextBid_eq_ok hnext
      · have hsome := hlive.isSome
        rw [hbid] at hsome
        cases hsome
      · cases hfetch with
        | bid => cases hbid
        | short => cases hbid
        | none hbids hshorts => exact ⟨rfl, hbids, hshorts⟩
  | @step n v e e' hrounds hround ih =>
    obtain hnone | ⟨taken, rest, h⟩ := ih hstart
    · cases (hnone.matchRound hround).1
    · cases matchRound_eq_ok hround with
      | @body e₂ _ bid ask _ henters hfilled hmatch =>
        obtain ⟨-, hbid⟩ := henters.onMarket h.onMarket
        obtain ⟨⟨e₃, hnext₃, hbid₃, rfl⟩, hask⟩ := henters
        have hlook : Looks crypto e₀ (n + 1) e₃.getNextAsk :=
          .next hnext (hstart ▸ hrounds) hnext₃ (hbid₃ ▸ rfl)
        obtain ⟨taken, rest, h', -⟩ :=
          ((h.getNextBid hnext₃).mono n.le_succ).getNextAsk (hbid₃ ▸ rfl) hlook
        exact Or.inr ⟨taken, rest, h'.matchOrders hbid hask hmatch⟩

/-- A look for the next ask with a bid at hand. -/
private theorem offers_of_looks (hopen : openMarket c quoteId baseId = .ok e₀)
    (hlook : Looks crypto e₀ n v) (hbid : v.currentBid.isSome = true) :
    ∃ taken rest, Offers crypto e₀ v n taken rest ∧
      ((∀ ask, v.currentAsk = some ask → ask.type ≠ .coverOrder) → Abandoned e₀ v rest) := by
  have hlook' := hlook
  cases hlook with
  | @first e₁ hnext =>
    rw [getNextAsk_currentBid] at hbid
    exact ((offers_of_open crypto hopen).getNextBid hnext).getNextAsk hbid hlook'
  | @next n e₁ e₂ e₃ hnext hrounds hbid₃ hsome =>
    obtain hnone | ⟨taken, rest, h⟩ := offers_of_rounds hopen hnext hrounds
    · rw [(hnone.getNextBid hbid₃).current] at hsome
      cases hsome
    · exact ((h.getNextBid hbid₃).mono n.le_succ).getNextAsk hsome hlook'

/-- A margin position is taken only with a bid at hand. -/
private theorem bid_of_cover (hopen : openMarket c quoteId baseId = .ok e₀)
    (hlook : Looks crypto e₀ n v) (hask : v.currentAsk = some ask) (htype : ask.type = .coverOrder) :
    v.currentBid.isSome = true := by
  cases hlook with
  | next hnext hrounds hbid₃ hsome => rwa [getNextAsk_currentBid]
  | @first e₁ hnext =>
    obtain ⟨-, heq⟩ | ⟨-, hfetch⟩ := getNextAsk_cases e₁
    · rw [heq] at hask
      obtain ⟨-, x, hx, -⟩ | ⟨hordinary, -⟩ :=
        ((offers_of_open crypto hopen).getNextBid hnext).ask ask hask
      · cases hx
      · exact absurd htype hordinary
    · rw [getNextAsk_currentBid]
      generalize e₁.getNextAsk = v at hfetch hask
      cases hfetch with
      | cover hsome => exact hsome
      | @ask key r =>
        obtain rfl : askOf key r = ask := Option.some.inj hask
        cases htype
      | none => cases hask

/-! ### The positions that are called -/

/-- The positions of the walk. -/
private theorem mem_collateralItr (hopen : openMarket c quoteId baseId = .ok e₀)
    {x : MarketIndexKey × CollateralRecord} : x ∈ e₀.collateralItr ↔
      c.db.collateral[x.1]? = some x.2 ∧
        x.1.orderPrice.lt (nextPair quoteId baseId) = true := by
  rw [(openMarket_atEnds hopen).collateralItr, mem_entriesBefore, compare_first]

private theorem called_iff (hopen : openMarket c quoteId baseId = .ok e₀)
    (hfeed : e₀.feedPrice = some feed) {x : MarketIndexKey × CollateralRecord}
    (hmem : x ∈ e₀.collateralItr) : Called c ⟨quoteId, baseId⟩ feed x.1 x.2 ↔
      x.1.assetPair = e₀.pair ∧ e₀.isCallable x.1.orderPrice x.2 = true := by
  have hopened := (openMarket_eq_ok hopen).1
  have hcallable : e₀.isCallable x.1.orderPrice x.2 = true ↔
      feed.lt x.1.orderPrice = true ∨ x.2.expiration ≤ c.now := by
    unfold isCallable
    rw [hfeed, hopened.pendingState, Option.any_some, Bool.or_eq_true, decide_eq_true_iff]
    rfl
  rw [hopened.pair, hcallable]
  exact ⟨fun h => ⟨h.market, h.callable⟩, fun h => ⟨((mem_collateralItr hopen).1 hmem).1, h.1, h.2⟩⟩

/-- **Called and expired positions are offered first.** When an ordinary ask comes up, or none,
while there is a bid, all positions of the market that are called or have expired were taken as
asks before, exactly when none of them stands below a position that is neither. -/
theorem covers_taken (crypto : Crypto) {c : ChainInterface} {quoteId baseId : ℤ}
    {e₀ v : MarketEngine} {feed : Price} {n : ℕ} (hopen : openMarket c quoteId baseId = .ok e₀)
    (hfeed : e₀.feedPrice = some feed) (hlook : Looks crypto e₀ n v)
    (hbid : v.currentBid.isSome = true)
    (hask : ∀ ask, v.currentAsk = some ask → ask.type ≠ .coverOrder) :
    (∀ key r, Called c ⟨quoteId, baseId⟩ feed key r → TakenBy crypto e₀ n key) ↔
      CalledFirst c quoteId baseId feed := by
  have hids := (openMarket_atEnds hopen).ordered
  have hsorted := entriesBefore_sorted c.db.collateral ⟨nextPair quoteId baseId, 0⟩
  rw [← (openMarket_atEnds hopen).collateralItr] at hsorted
  constructor
  · intro hall key r key' r' hcalled hget hlt hnext
    have hmem : (key', r') ∈ e₀.collateralItr := (mem_collateralItr hopen).2 ⟨hget, hnext⟩
    refine (called_iff hopen hfeed hmem).2 ?_
    obtain ⟨m, -, w, cover, hlook', hcover, htype, rfl⟩ := hall key r hcalled
    obtain ⟨taken, rest, h, -⟩ :=
      offers_of_looks hopen hlook' (bid_of_cover hopen hlook' hcover htype)
    obtain ⟨-, x, hx, hxkey⟩ | ⟨hordinary, -⟩ := h.ask cover hcover
    · -- a position above one that was taken was taken itself
      rw [h.split] at hmem hsorted
      rcases List.mem_append.1 hmem with hmem | hmem
      · exact ⟨(h.called _ hmem).1, (h.called _ hmem).2.1⟩
      · have hbefore := (List.pairwise_append.1 hsorted).2.2 x hx _ hmem
        rw [hxkey, Std.OrientedOrd.eq_swap, hlt] at hbefore
        cases hbefore
    · exact absurd htype hordinary
  · intro hfirst key r hcalled
    obtain ⟨taken, rest, h, habandon⟩ := offers_of_looks hopen hlook hbid
    have hstuck := (habandon hask).stuck
    have hmem : (key, r) ∈ taken ++ rest :=
      h.split ▸ (mem_collateralItr hopen).2
        ⟨hcalled.position, (lt_nextPair_iff hids).2 (Or.inl hcalled.market)⟩
    rcases List.mem_append.1 hmem with hmem | hmem
    · exact (h.called _ hmem).2.2
    · -- the first position that was left is not called, and stands above
      obtain ⟨x, tail, rfl⟩ := List.exists_cons_of_ne_nil (List.ne_nil_of_mem hmem)
      have hx : x ∈ e₀.collateralItr :=
        h.split ▸ List.mem_append_right _ List.mem_cons_self
      have hrefused : ¬Called c ⟨quoteId, baseId⟩ feed x.1 x.2 := by
        rw [called_iff hopen hfeed hx]
        rintro ⟨hpair, hcall⟩
        rw [hstuck x rfl hpair] at hcall
        cases hcall
      rcases List.mem_cons.1 hmem with rfl | hmem
      · exact absurd hcalled hrefused
      · obtain ⟨hget, hnext⟩ := (mem_collateralItr hopen).1 hx
        rw [h.split] at hsorted
        have hbefore := (List.pairwise_cons.1 (List.pairwise_append.1 hsorted).2.1).1 _ hmem
        exact absurd (hfirst key r x.1 x.2 hcalled hget hbefore hnext) hrefused

/-- A market with a feed price of 2, a bid at that price, an ask at 3, and margin positions. -/
def coverMarket (collateral : List (MarketIndexKey × CollateralRecord)) : ChainInterface :=
  (marketChain { id := 1, issuerAccountId := AssetRecord.marketIssuedAsset } { id := 0 }
    (.price ['2'] 1 0)
    [(⟨⟨2 * btsPricePrecision, 1, 0⟩, 7⟩, { balance := 100 })]
    [(⟨⟨3 * btsPricePrecision, 1, 0⟩, 8⟩, { balance := 30 })] [] collateral).push

/-- A margin position that has expired, with a call price of 1. -/
def expiredPosition : MarketIndexKey × CollateralRecord :=
  (⟨⟨btsPricePrecision, 1, 0⟩, 9⟩, ⟨100, 30, ⟨0, 1, 0⟩, 500⟩)

/-- A margin position that is neither called nor expired, with a call price of 3/2. -/
def healthyPosition : MarketIndexKey × CollateralRecord :=
  (⟨⟨3 * btsPricePrecision / 2, 1, 0⟩, 10⟩, ⟨100, 30, ⟨0, 1, 0⟩, 5000⟩)

theorem covers_taken_expired : ∃ e₀ v, openMarket (coverMarket [expiredPosition]) 1 0 = .ok e₀ ∧
    Looks .transparent e₀ 2 v ∧ TakenBy .transparent e₀ 2 expiredPosition.1 := by
  have hrun : (openMarket (coverMarket [expiredPosition]) 1 0 >>= fun e₀ => e₀.getNextBid >>= fun e₁ =>
      e₁.getNextAsk.matchRound .transparent >>= fun r => r.1.getNextBid >>= fun e₃ =>
        require (e₀.feedPrice = some ⟨2 * btsPricePrecision, 1, 0⟩ ∧ r.2 = true ∧
          e₃.currentBid.isSome = true ∧
          e₃.getNextAsk.currentAsk.all (·.type ≠ .coverOrder) = true) .outOfBounds).isOk = true := by
    decide +kernel
  obtain ⟨_, hrun⟩ := exists_eq_ok hrun
  simp only [bind_eq_ok, require_eq_ok] at hrun
  obtain ⟨e₀, hopen, e₁, hnext, ⟨e₂, goOn⟩, hround, e₃, hbid₃, hfeed, rfl, hsome, hask⟩ := hrun
  have hlook : Looks .transparent e₀ 2 e₃.getNextAsk :=
    .next hnext (.step (.refl _) hround) hbid₃ hsome
  have hentries : ∀ x ∈ (coverMarket [expiredPosition]).db.collateral.toList,
      x = expiredPosition := by decide +kernel
  have hfirst : CalledFirst (coverMarket [expiredPosition]) 1 0 ⟨2 * btsPricePrecision, 1, 0⟩ := by
    intro key r key' r' hcalled hget hlt _
    have heq := hentries _ (Table.mem_toList.2 hcalled.position)
    have heq' := hentries _ (Table.mem_toList.2 hget)
    obtain ⟨rfl, -⟩ := Prod.mk.inj (heq.trans heq'.symm)
    rw [Std.LawfulEqOrd.compare_eq_iff_eq.2 rfl] at hlt
    cases hlt
  refine ⟨e₀, e₃.getNextAsk, hopen, hlook, ?_⟩
  refine (covers_taken .transparent hopen hfeed hlook ((getNextAsk_currentBid e₃).symm ▸ hsome)
    fun ask ho => ?_).2 hfirst _ expiredPosition.2 ⟨?_, rfl, Or.inr (by decide)⟩
  · rw [ho] at hask
    simpa using hask
  · exact Table.mem_toList.1 (by decide +kernel)

/-- **An expired position is skipped** behind a healthy one: the run returns true, and the position
was never taken although a bid was there all the time. -/
theorem covers_taken_skipped : ∃ e₀ e c' v,
    Completes .transparent (coverMarket [expiredPosition, healthyPosition]) 1 0 e₀ e c' ∧
    e₀.feedPrice = some ⟨2 * btsPricePrecision, 1, 0⟩ ∧ Looks .transparent e₀ 0 v ∧
    v.currentBid.isSome = true ∧ (∃ ask, v.currentAsk = some ask ∧ ask.type = .askOrder) ∧
    Called (coverMarket [expiredPosition, healthyPosition]) ⟨1, 0⟩ ⟨2 * btsPricePrecision, 1, 0⟩
      expiredPosition.1 expiredPosition.2 ∧
    ∀ n, ¬TakenBy .transparent e₀ n expiredPosition.1 := by
  have hrun : (openMarket (coverMarket [expiredPosition, healthyPosition]) 1 0 >>= fun e₀ =>
      e₀.getNextBid >>= fun e₁ => e₁.getNextAsk.matchRound .transparent >>= fun r =>
        e₁.getNextAsk.getNextBid >>= fun e₃ => e₀.matchMarket .transparent >>= fun _ =>
        require (e₀.feedPrice = some ⟨2 * btsPricePrecision, 1, 0⟩ ∧ r.2 = false ∧
          e₁.currentBid.isSome = true ∧ e₁.getNextAsk.currentAsk.any (·.type = .askOrder) = true ∧
          e₃.getNextAsk.currentAsk.all (·.type ≠ .coverOrder) = true) .outOfBounds).isOk = true := by
    decide +kernel
  obtain ⟨_, hrun⟩ := exists_eq_ok hrun
  simp only [bind_eq_ok, require_eq_ok] at hrun
  obtain ⟨e₀, hopen, e₁, hnext, ⟨e₂, goOn⟩, hround, e₃, hbid₃, c', hmatch, hfeed, rfl, hsome, hask,
    hask₃⟩ := hrun
  obtain ⟨e, hcompletes⟩ := completes_of_matchMarket hopen hmatch
  obtain ⟨ask, hask, htype⟩ := (Option.any_eq_true ..).1 hask
  refine ⟨e₀, e, c', e₁.getNextAsk, hcompletes, hfeed, .first hnext,
    (getNextAsk_currentBid e₁).symm ▸ hsome, ⟨ask, hask, of_decide_eq_true htype⟩,
    ⟨Table.mem_toList.1 (by decide +kernel), rfl, Or.inr (by decide)⟩, ?_⟩
  rintro n ⟨m, -, w, cover, hlook, hcover, hcoverType, -⟩
  have hrounds : ∀ {k e'}, Rounds .transparent k e₁.getNextAsk e' → e' = e₁.getNextAsk := by
    intro k e' hrounds
    generalize hv : e₁.getNextAsk = v at hround hrounds ⊢
    induction hrounds with
    | refl => rfl
    | step hrounds hround' ih =>
      obtain rfl := ih hv hround
      rw [hround] at hround'
      cases hround'
  cases hlook with
  | @first e₁' hnext' =>
    rw [hnext] at hnext'
    cases hnext'
    rw [hask] at hcover
    cases hcover
    rw [of_decide_eq_true htype] at hcoverType
    cases hcoverType
  | @next k e₁' e₂' e₃' hnext' hrounds' hbid' =>
    rw [hnext] at hnext'
    cases hnext'
    obtain rfl := hrounds hrounds'
    rw [hbid₃] at hbid'
    cases hbid'
    rw [hcover] at hask₃
    exact absurd hcoverType (by simpa using hask₃)

end MarketEngine

end LarkX
