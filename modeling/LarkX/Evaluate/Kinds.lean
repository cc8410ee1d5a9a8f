import LarkX.Evaluate.Writes

/-!
# What an operation leaves alone

Each operation writes records of few kinds (`WritesKind`), so the tables of the other kinds are
the same after it. One frame rule (`evaluateOperation_frame`) states that for every part of the
tables at once, and one (`finish_frame`) for what follows the last operation.
-/

namespace LarkX

/-- The kinds of records that an operation writes. -/
def Operation.WritesKind : Operation → Write → Prop
  | .withdraw .., .asset _ | .withdraw .., .balance _ => True
  | .deposit .., .balance _ | .claim .., .balance _ => True
  | .burn .., .asset _ => True
  | .registerAccount .., .property .lastAccountId _ | .registerAccount .., .account _ => True
  | .updateAccount .., .account _ | .withdrawPay .., .account _ => True
  | .defineDelegateSlate _, .slate .. => True
  | .bid .., .bid .. | .ask .., .ask .. | .short .., .short .. => True
  | .cover .., .asset _ | .cover .., .collateral .. => True
  | .addCollateral .., .collateral .. => True
  | .updateFeed .., .feed _ | .updateFeed .., .dirty _ => True
  | _, _ => False

namespace EvaluationState

open ChainInterface (Writes)

variable {crypto : Crypto} {s s' : EvaluationState}

/-- A yield is paid out of the fees of an asset. -/
private theorem payYield_kinds {r r' : BalanceRecord} {P : ChainInterface → Write → Prop}
    (hP : ∀ c r, P c (.asset r)) (hp : s.currentState.IsPending)
    (h : s.payYield r = .ok (s', r')) :
    Writes crypto P s.currentState s'.currentState := by
  rcases payYield_eq_ok h with ⟨rfl, -⟩ | ⟨asset, y, -, -, -, -, rfl, -, -, -⟩
  · exact .refl
  · change Writes crypto P s.currentState (s.currentState.storeAssetRecord _)
    rw [ChainInterface.storeAssetRecord_eq crypto hp]
    exact .single (hP _ _)

/-- **Step.** An operation writes records of its kinds only. -/
theorem evaluateOperation_kinds {op : Operation} (hp : s.currentState.IsPending)
    (h : s.evaluateOperation crypto op = .ok s') :
    Writes crypto (fun _ w => op.WritesKind w) s.currentState s'.currentState := by
  have hpending {c : ChainInterface} (hc : c.IsPending) (w : Write) :
      (c.write crypto w).IsPending := (ChainInterface.sameBelow_write crypto c w).pending hc
  cases op with
  | withdraw =>
    obtain ⟨s₁, s₂, r, r₁, r', -, -, -, hvotes, hyield, -, -, -, hwithdraws⟩ := withdraw_eq_ok h
    rw [← hvotes.currentState] at hp ⊢
    have hpaid : Writes crypto (fun _ _ => True) s₁.currentState s₂.currentState :=
      payYield_kinds (fun _ _ => trivial) hp hyield
    have hp₂ := hpaid.isPending hp
    refine (payYield_kinds (fun _ _ => trivial) hp hyield).trans ?_
    rw [hwithdraws.currentState]
    change Writes crypto _ _ (s₂.currentState.storeBalanceRecord crypto r')
    rw [ChainInterface.storeBalanceRecord_eq hp₂]
    exact .single trivial
  | deposit =>
    obtain ⟨_, _, r', -, -, -, -, -, -, -, hstate⟩ := deposit_eq_ok h
    rw [hstate, ChainInterface.storeBalanceRecord_eq hp]
    exact .single trivial
  | claim =>
    obtain ⟨s₁, r, r', -, -, -, hvotes, -, -, -, hwithdraws⟩ := claim_eq_ok h
    rw [hwithdraws.currentState]
    change Writes crypto _ _ (s₁.currentState.storeBalanceRecord crypto r')
    rw [hvotes.currentState, ChainInterface.storeBalanceRecord_eq hp]
    exact .single trivial
  | burn =>
    obtain ⟨asset, -, -, -, hdeposits⟩ := burn_eq_ok h
    rw [hdeposits.currentState]
    change Writes crypto _ _ (s.currentState.storeAssetRecord _)
    rw [ChainInterface.storeAssetRecord_eq crypto hp]
    exact .single trivial
  | registerAccount =>
    obtain ⟨last, r, -, -, -, -, -, -, -, -, hstate⟩ := registerAccount_eq_ok h
    rw [hstate, ChainInterface.setProperty_eq crypto hp,
      ChainInterface.storeAccountRecord_eq (hpending hp _)]
    exact (Writes.single trivial).tail trivial
  | updateAccount =>
    obtain ⟨r, r', -, -, -, hstate⟩ := updateAccount_eq_ok h
    rw [hstate, ChainInterface.storeAccountRecord_eq hp]
    exact .single trivial
  | withdrawPay =>
    obtain ⟨s₁, r, info, -, -, -, -, hvotes, hwithdraws⟩ := withdrawPay_eq_ok h
    rw [hwithdraws.currentState]
    change Writes crypto _ _ (s₁.currentState.storeAccountRecord crypto _)
    rw [hvotes.currentState, ChainInterface.storeAccountRecord_eq hp]
    exact .single trivial
  | defineDelegateSlate =>
    rcases defineDelegateSlate_eq_ok h with rfl | ⟨-, rfl⟩
    · exact .refl
    · change Writes crypto _ _ (s.currentState.storeDelegateSlate _ _)
      rw [ChainInterface.storeDelegateSlate_eq crypto hp]
      exact .single trivial
  | bid =>
    obtain ⟨s₁, r, hmove, -, rfl⟩ := bid_eq_ok h
    change Writes crypto _ _ (s₁.currentState.storeBidRecord _ r)
    rw [moveOrderFunds_currentState hmove, ChainInterface.storeBidRecord_eq crypto hp]
    exact .single trivial
  | ask =>
    obtain ⟨s₁, r, hmove, -, -, rfl⟩ := ask_eq_ok h
    change Writes crypto _ _ (s₁.currentState.storeAskRecord _ r)
    rw [moveOrderFunds_currentState hmove, ChainInterface.storeAskRecord_eq crypto hp]
    exact .single trivial
  | short =>
    obtain ⟨s₁, r, hmove, -, -, -, -, rfl⟩ := short_eq_ok h
    change Writes crypto _ _ (s₁.currentState.storeShortRecord _ r)
    rw [moveOrderFunds_currentState hmove, ChainInterface.storeShortRecord_eq crypto hp]
    exact .single trivial
  | cover amount key newCoverPrice =>
    obtain ⟨s₁, position, position', asset, asset', principle, interest, -, -, -, -, -, -, -, -,
      -, -, hend⟩ := cover_eq_ok h
    rw [ChainInterface.storeAssetRecord_eq crypto hp,
      ChainInterface.storeCollateralRecord_eq crypto (hpending hp _)] at hend
    have hcleared : Writes crypto (fun _ w => (Operation.cover amount key newCoverPrice).WritesKind
        w) s.currentState ((s.currentState.write crypto (.asset asset')).write crypto
          (.collateral key {})) := (Writes.single trivial).tail trivial
    cases hend with
    | moved price _ _ hstate =>
      rw [hstate]
      change Writes crypto _ _ (ChainInterface.storeCollateralRecord _ _ _)
      exact ChainInterface.storeCollateralRecord_eq crypto (hcleared.isPending hp) _ _ ▸
        hcleared.tail trivial
    | closed _ hwithdraws =>
      rw [hwithdraws.currentState]
      exact hcleared
  | addCollateral amount key =>
    obtain ⟨s₁, position, position', price, -, -, -, -, -, -, rfl⟩ := addCollateral_eq_ok h
    change Writes crypto _ _ ((s.currentState.storeCollateralRecord key {}).storeCollateralRecord
      _ _)
    rw [ChainInterface.storeCollateralRecord_eq crypto hp,
      ChainInterface.storeCollateralRecord_eq crypto (hpending hp _)]
    exact (Writes.single trivial).tail trivial
  | updateFeed =>
    obtain ⟨r, c, -, -, hc, rfl⟩ := updateFeed_eq_ok h
    change Writes crypto _ _ c
    rw [ChainInterface.setFeed_eq crypto hp] at hc
    rw [ChainInterface.setMarketDirty_eq_ok crypto hc]
    exact (Writes.single trivial).tail trivial
  | withdrawAll | removeCollateral | linkAccount | releaseEscrow | unknown => cases h

/-- **Frame rule.** What no write of an operation's kinds touches is the same after it. -/
theorem evaluateOperation_frame {α : Type} (f : Tables → α) {op : Operation}
    (hp : s.currentState.IsPending) (hf : ∀ t w, op.WritesKind w → f (t.write crypto w) = f t)
    (h : s.evaluateOperation crypto op = .ok s') :
    f s'.currentState.flat = f s.currentState.flat := by
  refine (evaluateOperation_kinds hp h).invariant
    (I := fun c => f c.flat = f s.currentState.flat) (fun c w hc hI hw => ?_) hp rfl
  rw [ChainInterface.flat_write hc, hf _ _ hw, hI]

/-! ### After the last operation -/

/-- The kinds of records that are written after the last operation: fees and votes. -/
def EndKind : Write → Prop
  | .asset _ | .account _ => True
  | _ => False

/-- What follows the last operation writes assets and accounts only. -/
theorem finish_kinds {s₁ s₂ : EvaluationState} (hp : s₁.currentState.IsPending)
    (hpost : s₁.postEvaluate = .ok s₂) (hvotes : s₂.updateDelegateVotes crypto = .ok s') :
    Writes crypto (fun _ w => EndKind w) s₁.currentState s'.currentState := by
  obtain ⟨s₀, hstate, -, hfees⟩ := postEvaluate_eq_ok hpost
  rw [← hstate] at hp ⊢
  have hcollected : Writes crypto (fun _ w => EndKind w) s₀.currentState s₂.currentState := by
    refine foldlM_induction (P := fun s : EvaluationState =>
      Writes crypto (fun _ w => EndKind w) s₀.currentState s.currentState) ?_ .refl hfees
    rintro s fee s₃ - hs hfee
    obtain ⟨-, ⟨-, rfl⟩ | ⟨r, -, -, rfl⟩⟩ := collectFee_eq_ok hfee
    · exact hs
    · change Writes crypto _ _ (s.currentState.storeAssetRecord _)
      rw [ChainInterface.storeAssetRecord_eq crypto (hs.isPending hp)]
      exact hs.tail trivial
  refine foldlM_induction (P := fun s : EvaluationState =>
    Writes crypto (fun _ w => EndKind w) s₀.currentState s.currentState) ?_ hcollected hvotes
  rintro s delVote s₃ - hs hvote
  obtain ⟨r, r', -, -, -, -, rfl⟩ := updateDelegateVote_eq_ok hvote
  change Writes crypto _ _ (s.currentState.storeAccountRecord crypto r')
  rw [ChainInterface.storeAccountRecord_eq (hs.isPending hp)]
  exact hs.tail trivial

/-- **Frame rule** for what follows the last operation. -/
theorem finish_frame {α : Type} (f : Tables → α) {s₁ s₂ : EvaluationState}
    (hp : s₁.currentState.IsPending) (hf : ∀ t w, EndKind w → f (t.write crypto w) = f t)
    (hpost : s₁.postEvaluate = .ok s₂) (hvotes : s₂.updateDelegateVotes crypto = .ok s') :
    f s'.currentState.flat = f s₁.currentState.flat := by
  refine (finish_kinds hp hpost hvotes).invariant
    (I := fun c => f c.flat = f s₁.currentState.flat) (fun c w hc hI hw => ?_) hp rfl
  rw [ChainInterface.flat_write hc, hf _ _ hw, hI]

end EvaluationState

end LarkX
