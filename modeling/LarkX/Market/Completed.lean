import LarkX.Market.Progress
import LarkX.State.Applied

/-!
# Completed runs

`Completes crypto c quoteId baseId e₀ e c'` says that `execute` returned true: the engine was opened
as `e₀`, its loop ended in `e`, and the state below became `c'`. The loop then ended in a round of
its own (`Completes.rounds`), and `c'` reads like the pending state of `e` with the two assets and
the status of the market stored (`Completes.flat`). `Rounds.invariant` is the induction over a run.
-/

namespace LarkX

namespace MarketEngine

open ChainInterface (Writes)

variable {crypto : Crypto} {c c' : ChainInterface} {quoteId baseId : ℤ} {e₀ e e' : MarketEngine}
  {goOn : Bool}

/-- **Invariant rule.** What every round that goes on keeps holds after any number of them. -/
theorem Rounds.invariant {I : MarketEngine → Prop}
    (step : ∀ e e', I e → e.matchRound crypto = .ok (e', true) → I e') {n : ℕ} (h : I e)
    (hrounds : Rounds crypto n e e') : I e' := by
  induction hrounds with
  | refl e => exact h
  | step hrounds hround ih => exact step _ _ (ih h) hround

/-- A loop with rounds enough is ended by a round. -/
theorem Progresses.matchLoop_ends (h : Progresses e) {rounds : ℕ} (hle : e.ordersLeft ≤ rounds)
    (htwo : 2 ≤ rounds) (hloop : matchLoop crypto rounds e = .ok e') :
    ∃ n e₁, Rounds crypto n e e₁ ∧ e₁.matchRound crypto = .ok (e', false) := by
  obtain ⟨n, e₁, hrounds, hend | ⟨rfl, rfl⟩⟩ := matchLoop_eq_ok hloop
  · exact ⟨n, e₁, hrounds, hend⟩
  · cases hrounds with
    | refl => omega
    | step hrounds hround =>
      obtain ⟨h₁, -, hle₁⟩ := hrounds.progresses h
      obtain ⟨-, -, -, hleft⟩ := h₁.round hround
      omega

/-- A run of `execute` that returns true. -/
structure Completes (crypto : Crypto) (c : ChainInterface) (quoteId baseId : ℤ) (e₀ e : MarketEngine)
    (c' : ChainInterface) : Prop where
  opened : openMarket c quoteId baseId = .ok e₀
  matched : ∃ e₁, e₀.getNextBid = .ok e₁ ∧
    matchLoop crypto (e₁.getNextAsk.entriesLeft + 2) e₁.getNextAsk = .ok e
  applied : e₀.matchMarket crypto = .ok c'

/-- When matching returns, the run completes. -/
theorem completes_of_matchMarket (hopen : openMarket c quoteId baseId = .ok e₀)
    (h : e₀.matchMarket crypto = .ok c') : ∃ e, Completes crypto c quoteId baseId e₀ e c' := by
  have happlied := h
  simp only [matchMarket, bind_eq_ok] at h
  obtain ⟨_, -, e₁, hnext, e, hloop, -⟩ := h
  exact ⟨e, hopen, ⟨e₁, hnext, hloop⟩, happlied⟩

theorem Completes.execute (h : Completes crypto c quoteId baseId e₀ e c') :
    MarketEngine.execute crypto c quoteId baseId = .ok c' := by
  unfold MarketEngine.execute
  rw [h.opened]
  dsimp only
  rw [h.applied]
  rfl

/-- The loop of a completed run: it goes on for some rounds, and then a round ends it. -/
theorem Completes.rounds (h : Completes crypto c quoteId baseId e₀ e c') :
    ∃ e₁ n e₂, e₀.getNextBid = .ok e₁ ∧ Progresses e₁.getNextAsk ∧
      Rounds crypto n e₁.getNextAsk e₂ ∧ e₂.matchRound crypto = .ok (e, false) := by
  obtain ⟨e₁, hnext, hloop⟩ := h.matched
  have hstart : Starts c quoteId baseId e₁.getNextAsk := ⟨e₀, e₁, h.opened, hnext, rfl⟩
  obtain ⟨hprogress, -⟩ := hstart.progresses
  obtain ⟨n, e₂, hrounds, hend⟩ :=
    hprogress.matchLoop_ends (ordersLeft_le _) (by omega) hloop
  exact ⟨e₁, n, e₂, hnext, hprogress, hrounds, hend⟩

/-! ### What a run writes -/

theorem FetchesBid.pendingState (h : FetchesBid e e') : e'.pendingState = e.pendingState := by
  cases h <;> rfl

theorem FetchesAsk.pendingState (h : FetchesAsk e e') : e'.pendingState = e.pendingState := by
  cases h <;> rfl

theorem getNextBid_pendingState (h : e.getNextBid = .ok e') : e'.pendingState = e.pendingState := by
  obtain ⟨-, rfl⟩ | ⟨-, hfetch⟩ := getNextBid_eq_ok h
  · rfl
  · exact hfetch.pendingState

theorem getNextAsk_pendingState (e : MarketEngine) : e.getNextAsk.pendingState = e.pendingState := by
  obtain ⟨-, heq⟩ | ⟨-, hfetch⟩ := getNextAsk_cases e
  · rw [heq]
  · exact hfetch.pendingState

theorem getNextAsk_currentBid (e : MarketEngine) : e.getNextAsk.currentBid = e.currentBid := by
  obtain ⟨-, heq⟩ | ⟨-, hfetch⟩ := getNextAsk_cases e
  · rw [heq]
  · exact hfetch.currentBid

theorem Enters.pendingState {e₁ : MarketEngine} {bid ask : MarketOrder} (h : Enters e e₁ bid ask) :
    e₁.pendingState = e.pendingState := by
  obtain ⟨⟨e₀, hnext, -, rfl⟩, -⟩ := h
  rw [getNextAsk_pendingState, getNextBid_pendingState hnext]

theorem OnMarket.round (h : OnMarket e) (hround : Round crypto e e' goOn) :
    OnMarket e' ∧ Writes crypto (fun _ _ => True) e.pendingState e'.pendingState := by
  cases hround with
  | noBid hnext hbid =>
    exact ⟨h.getNextBid hnext, getNextBid_pendingState hnext ▸ .refl⟩
  | @noAsk e₁ hnext hask =>
    refine ⟨(h.getNextBid hnext).getNextAsk, ?_⟩
    rw [getNextAsk_pendingState, getNextBid_pendingState hnext]
    exact .refl
  | @body e₁ _ bid ask _ henters hfilled hmatch =>
    obtain ⟨h₁, hbid⟩ := henters.onMarket h
    obtain ⟨hafter, hwalk, -⟩ :=
      OnMarket.matches (e := e₁.counted) { h₁ with } hbid henters.ask hmatch
    exact ⟨hafter, henters.pendingState ▸ hwalk.state⟩

/-- The writes of a completed run to the pending state of the engine. -/
theorem Completes.writes (h : Completes crypto c quoteId baseId e₀ e c') :
    OnMarket e ∧ Writes crypto (fun _ _ => True) c.push e.pendingState := by
  obtain ⟨e₁, n, e₂, hnext, hprogress, hrounds, hend⟩ := h.rounds
  have hstart : e₁.getNextAsk.pendingState = c.push := by
    rw [getNextAsk_pendingState, getNextBid_pendingState hnext, (openMarket_eq_ok h.opened).1.pendingState]
  have h₂ : OnMarket e₂ ∧ Writes crypto (fun _ _ => True) c.push e₂.pendingState := by
    refine hrounds.invariant (I := fun e => OnMarket e ∧ Writes crypto (fun _ _ => True) c.push
      e.pendingState) ?_ ⟨hprogress.onMarket, hstart ▸ .refl⟩
    rintro e e' ⟨hon, hw⟩ hround
    obtain ⟨hon', hw'⟩ := hon.round (matchRound_eq_ok hround)
    exact ⟨hon', hw.trans hw'⟩
  obtain ⟨hon, hw⟩ := h₂.1.round (matchRound_eq_ok hend)
  exact ⟨hon, h₂.2.trans hw⟩

/-- **What a completed run leaves**: the pending state of the engine, with the two assets and the
status of the market stored. -/
theorem Completes.flat (hp : c.IsPending) (h : Completes crypto c quoteId baseId e₀ e c') :
    ∃ properties marketStatuses, c'.flat = { e.pendingState.flat with
      assets := (e.pendingState.flat.assets.insert e.quoteAsset.id e.quoteAsset).insert
        e.baseAsset.id e.baseAsset
      properties, marketStatuses } := by
  obtain ⟨hon, hw⟩ := h.writes
  obtain ⟨e₁, hnext, hloop⟩ := h.matched
  have happlied := h.applied
  simp only [matchMarket, bind_eq_ok, hnext, hloop, Except.ok.injEq, exists_eq_left'] at happlied
  obtain ⟨_, -, stat, -, _, -, happlied⟩ := happlied
  have hp₁ := hon.pending
  rw [ChainInterface.storeAssetRecord_eq crypto hp₁] at happlied
  have hw₁ := hw.tail (w := .asset e.quoteAsset) trivial
  have hp₂ := hw₁.isPending (List.cons_ne_nil _ _)
  rw [ChainInterface.storeAssetRecord_eq crypto hp₂] at happlied
  have hw₂ := hw₁.tail (w := .asset e.baseAsset) trivial
  have hp₃ := hw₂.isPending (List.cons_ne_nil _ _)
  rw [ChainInterface.storeMarketStatus_eq crypto hp₃] at happlied
  have hw₃ := hw₂.tail (w := .marketStatus { stat.updateFeedPrice e.feedPrice with
    lastError := none }) trivial
  have hflat := ChainInterface.applyChanges_flat hp hw₃ happlied
  rw [ChainInterface.flat_write hp₃, ChainInterface.flat_write hp₂, ChainInterface.flat_write hp₁]
    at hflat
  exact ⟨_, _, hflat⟩

/-! ### A run without bids -/

/-- There is no bid, and none will be found. -/
structure NoBids (e : MarketEngine) : Prop where
  current : e.currentBid = none
  bids : Passed e.pair e.bidItr
  shorts : Passed e.pair e.shortItr

namespace NoBids

theorem getNextBid (h : NoBids e) (hnext : e.getNextBid = .ok e') : NoBids e' := by
  obtain ⟨-, rfl⟩ | ⟨-, hfetch⟩ := getNextBid_eq_ok hnext
  · exact h
  · cases hfetch with
    | @bid key r rest hitr hpair => exact absurd hpair (h.bids (key, r) (by rw [hitr]; rfl))
    | @short key r rest hitr hpair => exact absurd hpair (h.shorts (key, r) (by rw [hitr]; rfl))
    | none hbids hshorts => exact ⟨rfl, hbids, hshorts⟩

theorem getNextAsk (h : NoBids e) : NoBids e.getNextAsk := by
  obtain ⟨-, heq⟩ | ⟨-, hfetch⟩ := getNextAsk_cases e
  · rwa [heq]
  · generalize e.getNextAsk = e' at hfetch ⊢
    cases hfetch <;> exact ⟨h.current, h.bids, h.shorts⟩

/-- The loop ends at once. -/
theorem matchRound (h : NoBids e) (hround : e.matchRound crypto = .ok (e', goOn)) :
    goOn = false ∧ e'.pendingState = e.pendingState := by
  cases matchRound_eq_ok hround with
  | noBid hnext hbid => exact ⟨rfl, getNextBid_pendingState hnext⟩
  | noAsk hnext hask => exact ⟨rfl, (getNextAsk_pendingState _).trans (getNextBid_pendingState hnext)⟩
  | body henters hfilled hmatch =>
    obtain ⟨⟨e₂, hnext, hbid, -⟩, -⟩ := henters
    rw [(h.getNextBid hnext).current] at hbid
    cases hbid

end NoBids

end MarketEngine

end LarkX
