import LarkX.Market.Books
import LarkX.Market.Trades

/-!
# One round of the matching loop

What `get_next_bid`, `get_next_ask` and the body of the loop can do to the engine, as relations
with one case for each outcome: `FetchesBid`, `FetchesAsk`, `Matches` and, for the whole round,
`Round`. A case says everything that changes, so a later proof takes a round apart by its cases
and never unfolds the engine. `Rounds` is a run of rounds that went on, and `matchLoop_eq_ok`
reads the loop as such a run.
-/

namespace LarkX

namespace MarketEngine

variable {crypto : Crypto} {e e₁ e₂ e' : MarketEngine} {bid ask : MarketOrder} {goOn : Bool}

/-! ### The current orders -/

/-- Something is left of the current bid: `get_next_bid` keeps it. -/
def BidLive (e : MarketEngine) : Prop :=
  ∃ bid quantity, e.currentBid = some bid ∧ bid.getQuantity = .ok quantity ∧ 0 < quantity.amount

/-- Something is left of the current ask: `get_next_ask` keeps it. -/
def AskLive (e : MarketEngine) : Prop :=
  ∃ ask, e.currentAsk = some ask ∧ 0 < ask.state.balance

instance (e : MarketEngine) : Decidable e.BidLive :=
  decidable_of_iff (∃ bid ∈ e.currentBid, ∃ quantity ∈ bid.getQuantity.toOption, 0 < quantity.amount)
    (by
      have hok : ∀ {x : Fallible Asset} {a : Asset}, a ∈ x.toOption ↔ x = .ok a := by
        intro x a
        cases x <;> simp [Except.toOption]
      simp only [BidLive, hok, Option.mem_def, exists_and_left])

instance (e : MarketEngine) : Decidable e.AskLive :=
  inferInstanceAs (Decidable (∃ ask, ask ∈ e.currentAsk ∧ 0 < ask.state.balance))

/-- The entry an iterator is at is not of the market. -/
def Passed {α : Type} (pair : AssetPair) (itr : BookIterator α) : Prop :=
  ∀ entry ∈ itr.head?, entry.1.assetPair ≠ pair

/-- The engine with an order fetched as the current bid. -/
def withBid (e : MarketEngine) (bid : Option MarketOrder) (bidItr shortItr : BookIterator OrderRecord) :
    MarketEngine :=
  { e with ordersFilled := e.ordersFilled + 1, currentBid := bid, bidItr, shortItr }

/-- The engine with an order fetched as the current ask. -/
def withAsk (e : MarketEngine) (ask : Option MarketOrder) (askItr : BookIterator OrderRecord)
    (collateralItr : BookIterator CollateralRecord) (r : CollateralRecord) : MarketEngine :=
  { e with
    ordersFilled := e.ordersFilled + 1
    currentAsk := ask
    askItr, collateralItr
    currentCollatRecord := r }

/-- The bid of an entry of the book. -/
def bidOf (key : MarketIndexKey) (r : OrderRecord) : MarketOrder :=
  ⟨.bidOrder, key, r, 0, 0⟩

/-- The short of an entry of the book. -/
def shortOf (key : MarketIndexKey) (r : OrderRecord) : MarketOrder :=
  ⟨.shortOrder, key, r, 0, 0⟩

/-- The ask of an entry of the book. -/
def askOf (key : MarketIndexKey) (r : OrderRecord) : MarketOrder :=
  ⟨.askOrder, key, r, 0, 0⟩

/-- The ask of a margin position that is called. -/
def coverOf (key : MarketIndexKey) (r : CollateralRecord) : MarketOrder :=
  ⟨.coverOrder, key, { balance := r.payoffBalance }, r.collateralBalance, r.expiration⟩

/-! ### Fetching -/

/-- The outcomes of a search for a new bid. -/
inductive FetchesBid (e : MarketEngine) : MarketEngine → Prop
  | bid {key : MarketIndexKey} {r : OrderRecord} {rest : BookIterator OrderRecord}
      (hitr : e.bidItr = (key, r) :: rest) (hpair : key.assetPair = e.pair) :
      FetchesBid e (e.withBid (some (bidOf key r)) rest e.shortItr)
  | short {key : MarketIndexKey} {r : OrderRecord} {rest : BookIterator OrderRecord}
      (hitr : e.shortItr = (key, r) :: rest) (hpair : key.assetPair = e.pair) :
      FetchesBid e (e.withBid (some (shortOf key r)) e.bidItr rest)
  | none (hbid : Passed e.pair e.bidItr) (hshort : Passed e.pair e.shortItr) :
      FetchesBid e (e.withBid none e.bidItr e.shortItr)

/-- What becomes of the margin positions when none is fetched: with a bid at hand the first one
that is not called ends the margin calls. -/
structure Abandons (e : MarketEngine) (collateralItr : BookIterator CollateralRecord) : Prop where
  dropped : e.currentBid.isSome = true → collateralItr = []
  kept : e.currentBid = none → collateralItr = e.collateralItr
  notCalled : e.currentBid.isSome = true → ∀ entry ∈ e.collateralItr.head?,
    entry.1.assetPair = e.pair → e.isCallable entry.1.orderPrice entry.2 = false

/-- The outcomes of a search for a new ask. -/
inductive FetchesAsk (e : MarketEngine) : MarketEngine → Prop
  | cover {key : MarketIndexKey} {r : CollateralRecord} {rest : BookIterator CollateralRecord}
      (hbid : e.currentBid.isSome = true) (hitr : e.collateralItr = (key, r) :: rest)
      (hpair : key.assetPair = e.pair) (hcall : e.isCallable key.orderPrice r = true) :
      FetchesAsk e (e.withAsk (some (coverOf key r)) e.askItr rest r)
  | ask {key : MarketIndexKey} {r : OrderRecord} {rest : BookIterator OrderRecord}
      {collateralItr : BookIterator CollateralRecord} {collat : CollateralRecord}
      (hcovers : e.Abandons collateralItr) (hitr : e.askItr = (key, r) :: rest)
      (hpair : key.assetPair = e.pair) :
      FetchesAsk e (e.withAsk (some (askOf key r)) rest collateralItr collat)
  | none {collateralItr : BookIterator CollateralRecord} {collat : CollateralRecord}
      (hcovers : e.Abandons collateralItr) (hasks : Passed e.pair e.askItr) :
      FetchesAsk e (e.withAsk none e.askItr.tail collateralItr collat)

theorem passed_nil {α : Type} (pair : AssetPair) : Passed pair ([] : BookIterator α) :=
  fun _ h => by cases h

theorem passed_cons {α : Type} {pair : AssetPair} {key : MarketIndexKey} {r : α}
    {rest : BookIterator α} (h : key.assetPair ≠ pair) : Passed pair ((key, r) :: rest) :=
  fun _ hmem => Option.some.inj hmem ▸ h

/-- A search for a short, when no bid is taken. -/
private theorem fetches_short (hbid : Passed e.pair e.bidItr ∨
      ∃ key r rest, e.shortItr = (key, r) :: rest ∧ key.assetPair = e.pair) :
    FetchesBid e ({ e with ordersFilled := e.ordersFilled + 1, currentBid := none }.getNextShort).1 := by
  unfold getNextShort
  dsimp only
  split
  · rename_i key r rest hitr
    split
    · rename_i hpair
      exact .short hitr hpair
    · rename_i hpair
      refine .none (hbid.resolve_right ?_) (hitr ▸ passed_cons hpair)
      rintro ⟨key', r', rest', hitr', hpair'⟩
      rw [hitr] at hitr'
      cases hitr'
      exact hpair hpair'
  · rename_i hitr
    refine .none (hbid.resolve_right ?_) (hitr ▸ passed_nil _)
    rintro ⟨key', r', rest', hitr', -⟩
    rw [hitr] at hitr'
    cases hitr'

/-- `get_next_short` says whether there is a short of the market. -/
private theorem getNextShort_snd (e : MarketEngine) (h : e.getNextShort.2 = true) :
    ∃ key r rest, e.shortItr = (key, r) :: rest ∧ key.assetPair = e.pair := by
  unfold getNextShort at h
  split at h
  · split at h
    · exact ⟨_, _, _, ‹_›, ‹_›⟩
    · cases h
  · cases h

theorem fetchBid_fetches (e : MarketEngine) : FetchesBid e e.fetchBid := by
  unfold fetchBid
  dsimp only
  split
  · rename_i key r rest hitr
    split
    · rename_i hpair
      split
      · split
        · rename_i hshort
          exact fetches_short (Or.inr (getNextShort_snd _ hshort :))
        · exact .bid hitr hpair
      · exact .bid hitr hpair
    · rename_i hpair
      exact fetches_short (Or.inl (hitr ▸ passed_cons hpair))
  · rename_i hitr
    exact fetches_short (Or.inl (hitr ▸ passed_nil _))

/-- A search for an ordinary ask, when no margin position is taken. -/
private theorem fetches_ask {collateralItr : BookIterator CollateralRecord}
    {collat : CollateralRecord} (h : e.Abandons collateralItr) :
    FetchesAsk e { e with
      ordersFilled := e.ordersFilled + 1
      currentAsk := none
      collateralItr := collateralItr
      currentCollatRecord := collat }.fetchAsk := by
  unfold fetchAsk
  dsimp only
  split
  · rename_i key r rest hitr
    split
    · rename_i hpair
      exact .ask h hitr hpair
    · rename_i hpair
      have hnone : FetchesAsk e (e.withAsk none e.askItr.tail _ collat) :=
        .none h (hitr ▸ passed_cons hpair)
      rwa [hitr] at hnone
  · rename_i hitr
    have hnone : FetchesAsk e (e.withAsk none e.askItr.tail _ collat) :=
      .none h (hitr ▸ passed_nil _)
    rwa [hitr, List.tail_nil, ← hitr] at hnone

theorem fetchCoverOrAsk_fetches (e : MarketEngine) : FetchesAsk e e.fetchCoverOrAsk := by
  unfold fetchCoverOrAsk
  dsimp only
  split
  · rename_i hbid
    have hsome : e.currentBid ≠ none := fun h => by rw [h] at hbid; cases hbid
    split
    · rename_i key r rest hitr
      split
      · rename_i hpair
        split
        · rename_i hcall
          exact .cover hbid hitr hpair hcall
        · rename_i hcall
          refine fetches_ask ⟨fun _ => rfl, fun h => absurd h hsome, fun _ entry hmem _ => ?_⟩
          rw [hitr] at hmem
          cases hmem
          exact Bool.eq_false_of_not_eq_true hcall
      · rename_i hpair
        refine fetches_ask ⟨fun _ => rfl, fun h => absurd h hsome, fun _ entry hmem h => ?_⟩
        rw [hitr] at hmem
        cases hmem
        exact absurd h hpair
    · rename_i hitr
      exact fetches_ask ⟨fun _ => hitr, fun h => absurd h hsome, fun _ entry hmem => by
        rw [hitr] at hmem; cases hmem⟩
  · rename_i hbid
    exact fetches_ask ⟨fun h => absurd h hbid, fun _ => rfl, fun h => absurd h hbid⟩

/-- `get_next_bid` keeps a bid of which something is left, and fetches a new one otherwise. -/
theorem getNextBid_eq_ok (h : e.getNextBid = .ok e') :
    (e.BidLive ∧ e' = e) ∨ (¬e.BidLive ∧ FetchesBid e e') := by
  unfold getNextBid at h
  split at h
  · rename_i bid hbid
    simp only [bind_eq_ok, ite_eq_ok, pure_eq_ok] at h
    obtain ⟨quantity, hquantity, ⟨hpos, rfl⟩ | ⟨hpos, rfl⟩⟩ := h
    · exact Or.inl ⟨⟨bid, quantity, hbid, hquantity, hpos⟩, rfl⟩
    · refine Or.inr ⟨?_, fetchBid_fetches e⟩
      rintro ⟨bid', quantity', hbid', hquantity', hpos'⟩
      rw [hbid] at hbid'
      cases hbid'
      rw [hquantity] at hquantity'
      cases hquantity'
      exact hpos hpos'
  · rename_i hbid
    rw [pure_eq_ok] at h
    refine Or.inr ⟨?_, h ▸ fetchBid_fetches e⟩
    rintro ⟨bid, _, hbid', -⟩
    rw [hbid] at hbid'
    cases hbid'

/-- `get_next_ask` keeps an ask of which something is left, and fetches a new one otherwise. -/
theorem getNextAsk_cases (e : MarketEngine) :
    (e.AskLive ∧ e.getNextAsk = e) ∨ (¬e.AskLive ∧ FetchesAsk e e.getNextAsk) := by
  unfold getNextAsk
  split
  · rename_i ask hask
    split
    · rename_i hpos
      exact Or.inl ⟨⟨ask, hask, hpos⟩, rfl⟩
    · rename_i hpos
      refine Or.inr ⟨?_, fetchCoverOrAsk_fetches e⟩
      rintro ⟨ask', hask', hpos'⟩
      rw [hask] at hask'
      cases hask'
      exact hpos hpos'
  · rename_i hask
    refine Or.inr ⟨?_, fetchCoverOrAsk_fetches e⟩
    rintro ⟨ask', hask', -⟩
    rw [hask] at hask'
    cases hask'

/-! ### Rounds -/

/-- The transaction of two orders before any amount is known. -/
def openTransaction (bid ask : MarketOrder) (bidPrice askPrice : Price) : MarketTransaction :=
  { bidOwner := bid.getOwner, askOwner := ask.getOwner, bidPrice, askPrice }

/-- The outcomes of matching the current bid with the current ask. -/
inductive Matches (crypto : Crypto) (e : MarketEngine) (bid ask : MarketOrder) :
    MarketEngine → Bool → Prop
  | skipBid (hprice : e.bidPrice bid ask = .ok none) :
      Matches crypto e bid ask { e with currentBid := none } true
  | skipAsk {price : Price} (hprice : e.bidPrice bid ask = .ok (some price))
      (hcover : ask.type = .coverOrder) (hcalled : e.isCalled ask price = .ok false) :
      Matches crypto e bid ask { e with currentAsk := none } true
  | spread {price : Price} (hprice : e.bidPrice bid ask = .ok (some price))
      (hcover : ask.type ≠ .coverOrder) (hlt : price.lt ask.getPrice = true) :
      Matches crypto e bid ask e false
  | traded {price askPrice : Price} {mtrx : MarketTransaction} {e₁ e' : MarketEngine}
      (hprice : e.bidPrice bid ask = .ok (some price))
      (hask : (ask.type = .coverOrder ∧ e.isCalled ask price = .ok true ∧ askPrice = price) ∨
        (ask.type ≠ .coverOrder ∧ price.lt ask.getPrice = false ∧ askPrice = ask.getPrice))
      (htrade : e.trade crypto bid ask (openTransaction bid ask price askPrice) = .ok (e₁, mtrx))
      (hcollect : Collects e₁ mtrx e') : Matches crypto e bid ask e' true

theorem matchCurrent_eq_ok (h : e.matchCurrent crypto bid ask = .ok (e', goOn)) :
    Matches crypto e bid ask e' goOn := by
  simp only [MarketEngine.matchCurrent, bind_eq_ok] at h
  obtain ⟨price, hprice, h⟩ := h
  cases price with
  | none =>
    simp only [pure_eq_ok, Prod.mk.injEq] at h
    obtain ⟨rfl, rfl⟩ := h
    exact .skipBid hprice
  | some price =>
    simp only [ite_eq_ok, bind_eq_ok, pure_eq_ok, Prod.mk.injEq] at h
    obtain ⟨hcover, called, hcalled, ⟨rfl, ⟨e₁, mtrx⟩, htrade, e₂, hcollect, rfl, rfl⟩ |
      ⟨hnot, rfl, rfl⟩⟩ | ⟨hcover, ⟨hlt, rfl, rfl⟩ | ⟨hlt, ⟨e₁, mtrx⟩, htrade, e₂, hcollect, rfl, rfl⟩⟩ := h
    · exact .traded hprice (Or.inl ⟨hcover, hcalled, rfl⟩) htrade (collect_eq_ok hcollect)
    · exact .skipAsk hprice hcover (Bool.eq_false_of_not_eq_true hnot ▸ hcalled)
    · exact .spread hprice hcover hlt
    · exact .traded hprice (Or.inr ⟨hcover, Bool.eq_false_of_not_eq_true hlt, rfl⟩) htrade
        (collect_eq_ok hcollect)

/-- The engine when the body of the loop starts. -/
def counted (e : MarketEngine) : MarketEngine :=
  { e with lastOrdersFilled := e.ordersFilled }

/-- The body of the loop is entered from `e`: the current orders are those of `e₁`. -/
structure Enters (e e₁ : MarketEngine) (bid ask : MarketOrder) : Prop where
  next : ∃ e₀, e.getNextBid = .ok e₀ ∧ e₀.currentBid = some bid ∧ e₁ = e₀.getNextAsk
  ask : e₁.currentAsk = some ask

/-- The outcomes of a round of the loop. -/
inductive Round (crypto : Crypto) (e : MarketEngine) : MarketEngine → Bool → Prop
  | noBid {e₁ : MarketEngine} (hnext : e.getNextBid = .ok e₁) (hbid : e₁.currentBid = none) : Round crypto e e₁ false
  | noAsk {e₁ : MarketEngine} (hnext : e.getNextBid = .ok e₁)
      (hask : e₁.getNextAsk.currentAsk = none) :
      Round crypto e e₁.getNextAsk false
  | body {e₁ e' : MarketEngine} {bid ask : MarketOrder} {goOn : Bool}
      (henters : Enters e e₁ bid ask) (hfilled : e₁.ordersFilled ≠ e₁.lastOrdersFilled)
      (hmatch : Matches crypto e₁.counted bid ask e' goOn) : Round crypto e e' goOn

theorem matchRound_eq_ok (h : e.matchRound crypto = .ok (e', goOn)) : Round crypto e e' goOn := by
  simp only [MarketEngine.matchRound, bind_eq_ok] at h
  obtain ⟨e₀, hnext, h⟩ := h
  split at h
  · rename_i hbid
    simp only [pure_eq_ok, Prod.mk.injEq] at h
    obtain ⟨rfl, rfl⟩ := h
    exact .noBid hnext hbid
  · rename_i bid hbid
    split at h
    · rename_i hask
      simp only [pure_eq_ok, Prod.mk.injEq] at h
      obtain ⟨rfl, rfl⟩ := h
      exact .noAsk hnext hask
    · rename_i ask hask
      simp only [bind_eq_ok, require_eq_ok] at h
      obtain ⟨-, hfilled, hmatch⟩ := h
      exact .body ⟨⟨e₀, hnext, hbid, rfl⟩, hask⟩ hfilled (matchCurrent_eq_ok hmatch)

/-- `n` rounds after which the loop goes on. -/
inductive Rounds (crypto : Crypto) : ℕ → MarketEngine → MarketEngine → Prop
  | refl (e : MarketEngine) : Rounds crypto 0 e e
  | step {n : ℕ} {e e₁ e₂ : MarketEngine} (h : Rounds crypto n e e₁) (hround : e₁.matchRound crypto = .ok (e₂, true)) :
      Rounds crypto (n + 1) e e₂

/-- A run of the loop: it goes on for a while, and then a round ends it or the rounds are over. -/
theorem matchLoop_eq_ok {rounds : ℕ} (h : matchLoop crypto rounds e = .ok e') :
    ∃ n e₁, Rounds crypto n e e₁ ∧ (e₁.matchRound crypto = .ok (e', false) ∨ n = rounds ∧ e' = e₁) := by
  suffices hsuff : ∀ {k n : ℕ} {e₁ : MarketEngine}, Rounds crypto k e e₁ →
      matchLoop crypto n e₁ = .ok e' → ∃ m e₂, Rounds crypto m e e₂ ∧
        (e₂.matchRound crypto = .ok (e', false) ∨ m = k + n ∧ e' = e₂) by
    simpa only [Nat.zero_add] using hsuff (.refl e) h
  intro k n e₁ hrounds hloop
  induction n generalizing k e₁ with
  | zero =>
    rw [matchLoop, pure_eq_ok] at hloop
    exact ⟨k, e₁, hrounds, Or.inr ⟨rfl, hloop.symm⟩⟩
  | succ n ih =>
    simp only [matchLoop, bind_eq_ok, ite_eq_ok, pure_eq_ok] at hloop
    obtain ⟨⟨e₂, goOn⟩, hround, ⟨hgo, hloop⟩ | ⟨hstop, rfl⟩⟩ := hloop
    · obtain rfl : goOn = true := hgo
      obtain ⟨m, e₃, hrounds', hend⟩ := ih (hrounds.step hround) hloop
      exact ⟨m, e₃, hrounds', hend.imp_right (And.imp_left fun h => h.trans (by omega))⟩
    · obtain rfl : goOn = false := Bool.eq_false_of_not_eq_true hstop
      exact ⟨k, e₁, hrounds, Or.inl hround⟩

/-! ### Orders of the market -/

/-- A price is in the two assets of the market. -/
structure PricedIn (e : MarketEngine) (p : Price) : Prop where
  quote : p.quoteAssetId = e.quoteId
  base : p.baseAssetId = e.baseId

theorem PricedIn.of_assetPair {p : Price} (h : p.assetPair = e.pair) : PricedIn e p := by
  injection h with hquote hbase
  exact ⟨hquote, hbase⟩

theorem PricedIn.ne {p : Price} (h : PricedIn e p) (hids : e.baseId < e.quoteId) :
    p.quoteAssetId ≠ p.baseAssetId := by
  rw [h.quote, h.base]
  exact hids.ne'

/-- The current orders and the feed price are of the market. -/
structure OnMarket (e : MarketEngine) : Prop where
  pending : e.pendingState.IsPending
  ordered : e.baseId < e.quoteId
  feed : ∀ p, e.feedPrice = some p → p.assetPair = e.pair
  bid : ∀ o, e.currentBid = some o →
    (o.type = .bidOrder ∨ o.type = .shortOrder) ∧ o.getPrice.assetPair = e.pair
  ask : ∀ o, e.currentAsk = some o →
    (o.type = .askOrder ∨ o.type = .coverOrder) ∧ o.getPrice.assetPair = e.pair

theorem FetchesAsk.currentBid (h : FetchesAsk e e') : e'.currentBid = e.currentBid := by
  cases h <;> rfl

theorem OnMarket.fetchesBid (h : OnMarket e) (hfetch : FetchesBid e e') : OnMarket e' := by
  cases hfetch with
  | bid hitr hpair => exact { h with bid := fun o ho => Option.some.inj ho ▸ ⟨Or.inl rfl, hpair⟩ }
  | short hitr hpair => exact { h with bid := fun o ho => Option.some.inj ho ▸ ⟨Or.inr rfl, hpair⟩ }
  | none => exact { h with bid := fun o ho => by cases ho }

theorem OnMarket.fetchesAsk (h : OnMarket e) (hfetch : FetchesAsk e e') : OnMarket e' := by
  cases hfetch with
  | cover hbid hitr hpair hcall =>
    exact { h with ask := fun o ho => Option.some.inj ho ▸ ⟨Or.inr rfl, hpair⟩ }
  | ask hcovers hitr hpair =>
    exact { h with ask := fun o ho => Option.some.inj ho ▸ ⟨Or.inl rfl, hpair⟩ }
  | none => exact { h with ask := fun o ho => by cases ho }

theorem OnMarket.getNextBid (h : OnMarket e) (hnext : e.getNextBid = .ok e') : OnMarket e' := by
  obtain ⟨-, rfl⟩ | ⟨-, hfetch⟩ := getNextBid_eq_ok hnext
  · exact h
  · exact h.fetchesBid hfetch

theorem OnMarket.getNextAsk (h : OnMarket e) : OnMarket e.getNextAsk := by
  obtain ⟨-, heq⟩ | ⟨-, hfetch⟩ := getNextAsk_cases e
  · exact heq.symm ▸ h
  · exact h.fetchesAsk hfetch

/-- Two orders of the loop are a bid or a short and an ask or a margin position. -/
theorem OnMarket.paired (h : OnMarket e) (hbid : e.currentBid = some bid)
    (hask : e.currentAsk = some ask) : Paired bid ask :=
  ⟨(h.bid bid hbid).1, (h.ask ask hask).1⟩

/-- The engine in which the body of the loop works on its two orders. -/
theorem Enters.onMarket (h : OnMarket e) (henters : Enters e e₁ bid ask) :
    OnMarket e₁ ∧ e₁.currentBid = some bid := by
  obtain ⟨⟨e₀, hnext, hbid, rfl⟩, hask⟩ := henters
  have h₀ := h.getNextBid hnext
  refine ⟨h₀.getNextAsk, ?_⟩
  obtain ⟨-, heq⟩ | ⟨-, hfetch⟩ := getNextAsk_cases e₀
  · rw [heq, hbid]
  · exact hfetch.currentBid.trans hbid

/-- **The price a bid trades at is a price of the market.** A limit is taken only when it lies
between the ask and the feed price. -/
theorem OnMarket.bidPrice (h : OnMarket e) (hbid : e.currentBid = some bid)
    (hask : e.currentAsk = some ask) {price : Price} (hprice : e.bidPrice bid ask = .ok (some price)) :
    price.assetPair = e.pair := by
  unfold MarketEngine.bidPrice at hprice
  split at hprice
  · simp only [bind_eq_ok, require_eq_ok] at hprice
    obtain ⟨-, -, hprice⟩ := hprice
    cases hfeed : e.feedPrice with
    | none =>
      rw [hfeed] at hprice
      cases hprice
    | some feed =>
      have hmarket := h.feed feed hfeed
      cases hlimit : bid.state.shortPriceLimit with
      | none =>
        simp only [hfeed, hlimit, pure_eq_ok, Option.some.injEq] at hprice
        exact hprice ▸ hmarket
      | some limit =>
        simp only [hfeed, hlimit, ite_eq_ok, pure_eq_ok, reduceCtorEq, and_false, false_or,
          Option.some.injEq] at hprice
        obtain ⟨hlt, rfl⟩ := hprice
        obtain ⟨heq, -⟩ | ⟨heq, hle⟩ := Price.min_cases limit feed
        · rw [heq, hmarket]
        · have hsame : ask.getPrice.assetPair = feed.assetPair := (h.ask ask hask).2.trans hmarket.symm
          rw [heq, Price.assetPair_of_between hsame (Bool.eq_false_of_not_eq_true hlt) hle, hmarket]
  · cases hprice
    exact (h.bid bid hbid).2

end MarketEngine

end LarkX
