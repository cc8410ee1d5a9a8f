import LarkX.Evaluate.Writes

/-!
# The request of an evaluation

What an evaluation was asked to do does not change while it runs: its transaction, the keys
that signed it, the chain it is for and whether signatures are checked. The record that is
stored for a transaction is therefore a record of that transaction (`evaluate_request`).
-/

namespace LarkX

namespace EvaluationState

variable {crypto : Crypto} {s s' : EvaluationState}

/-- Two evaluations of the same request. -/
structure SameRequest (s s' : EvaluationState) : Prop where
  trx : s'.trx = s.trx
  signedKeys : s'.signedKeys = s.signedKeys
  chainId : s'.chainId = s.chainId
  skipSignatureCheck : s'.skipSignatureCheck = s.skipSignatureCheck

theorem SameRequest.refl (s : EvaluationState) : SameRequest s s :=
  ⟨rfl, rfl, rfl, rfl⟩

theorem SameRequest.trans {s₁ s₂ s₃ : EvaluationState} (h : SameRequest s₁ s₂)
    (h' : SameRequest s₂ s₃) : SameRequest s₁ s₃ :=
  ⟨h'.trx.trans h.trx, h'.signedKeys.trans h.signedKeys, h'.chainId.trans h.chainId,
    h'.skipSignatureCheck.trans h.skipSignatureCheck⟩

theorem sameRequest_withState (s : EvaluationState) (c : ChainInterface) :
    SameRequest s (s.withState c) :=
  ⟨rfl, rfl, rfl, rfl⟩

/-! ### Bookkeeping -/

theorem subBalance_request {id : BalanceId} {x : Asset} (h : s.subBalance id x = .ok s') :
    SameRequest s s' := by
  simp only [subBalance, ite_bind, bind_eq_ok, pure_eq_ok] at h
  obtain ⟨provided, -, deposits, -, rfl⟩ := h
  exact ⟨rfl, rfl, rfl, rfl⟩

theorem addBalance_request {x : Asset} (h : s.addBalance x = .ok s') : SameRequest s s' := by
  simp only [addBalance, bind_eq_ok, pure_eq_ok] at h
  obtain ⟨withdraws, -, rfl⟩ := h
  exact ⟨rfl, rfl, rfl, rfl⟩

theorem requireFee_request {amount : ℤ} (h : s.requireFee amount = .ok s') : SameRequest s s' := by
  simp only [requireFee, bind_eq_ok, pure_eq_ok] at h
  obtain ⟨fees, -, rfl⟩ := h
  exact ⟨rfl, rfl, rfl, rfl⟩

theorem adjustVote_request {slateId : SlateId} {amount : ℤ}
    (h : s.adjustVote slateId amount = .ok s') : SameRequest s s' := by
  have key : ∀ (slate : List ℤ) (s₁ : EvaluationState), SameRequest s s₁ →
      SameRequest s (slate.foldl (fun s id => s.addNetVotes |id| amount) s₁) := by
    intro slate
    induction slate with
    | nil => exact fun _ h => h
    | cons id slate ih => exact fun s₁ h => ih _ (h.trans ⟨rfl, rfl, rfl, rfl⟩)
  unfold adjustVote at h
  rw [ite_eq_ok] at h
  rcases h with ⟨-, h⟩ | ⟨-, h⟩
  · simp only [bind_eq_ok, pure_eq_ok] at h
    obtain ⟨slate, -, rfl⟩ := h
    exact key slate s (SameRequest.refl s)
  · rw [pure_eq_ok] at h
    exact h ▸ SameRequest.refl s

theorem adjustVote_if_request {p : Prop} [Decidable p] {slateId : SlateId} {amount : ℤ}
    (h : (if p then s.adjustVote slateId amount else pure s) = .ok s') : SameRequest s s' := by
  rw [ite_eq_ok] at h
  rcases h with ⟨-, h⟩ | ⟨-, h⟩
  · exact adjustVote_request h
  · rw [pure_eq_ok] at h
    exact h ▸ SameRequest.refl s

theorem moveOrderFunds_request {current : Option OrderRecord} {x : Asset}
    (h : s.moveOrderFunds current x = .ok s') : SameRequest s s' := by
  simp only [moveOrderFunds, bind_eq_ok, ite_eq_ok] at h
  obtain ⟨-, -, ⟨-, r, -, -, -, h⟩ | ⟨-, h⟩⟩ := h
  · exact addBalance_request h
  · exact subBalance_request h

theorem payYield_request {r r' : BalanceRecord} (h : s.payYield r = .ok (s', r')) :
    SameRequest s s' := by
  rcases payYield_eq_ok h with ⟨rfl, -⟩ | ⟨asset, y, -, -, -, -, rfl, -⟩
  · exact SameRequest.refl _
  · exact sameRequest_withState _ _

theorem requireDelegateFee_request {payRate : ℕ} (h : s.requireDelegateFee payRate = .ok s') :
    SameRequest s s' := by
  rw [requireDelegateFee, bind_eq_ok] at h
  obtain ⟨fee, -, h⟩ := h
  exact requireFee_request h

theorem changePayRate_request {r r' : AccountRecord} {payRate : ℕ}
    (h : s.changePayRate r payRate = .ok (s', r')) : SameRequest s s' := by
  unfold changePayRate at h
  split at h
  · simp only [bind_eq_ok, pure_eq_ok, Prod.mk.injEq] at h
    obtain ⟨-, -, -, -, rfl, -⟩ := h
    exact SameRequest.refl _
  · rw [ite_eq_ok] at h
    rcases h with ⟨-, h⟩ | ⟨-, h⟩
    · simp only [bind_eq_ok, pure_eq_ok, Prod.mk.injEq] at h
      obtain ⟨s₁, hfee, rfl, -⟩ := h
      exact requireDelegateFee_request hfee
    · simp only [pure_eq_ok, Prod.mk.injEq] at h
      exact h.1 ▸ SameRequest.refl _

/-! ### Operations -/

theorem withdraw_request {id : BalanceId} {amount : ℤ} {data : ClaimInputData}
    (h : s.withdraw crypto id amount data = .ok s') : SameRequest s s' := by
  simp only [withdraw, ite_bind, bind_eq_ok] at h
  obtain ⟨-, -, r, -, -, -, -, -, s₁, hvote, ⟨s₂, r₁⟩, hyield, h⟩ := h
  have hstate := (adjustVote_if_request hvote).trans (payYield_request hyield)
  exact (hstate.trans (sameRequest_withState _ _)).trans (addBalance_request h)

theorem deposit_request {amount : ℤ} {condition : WithdrawCondition}
    (h : s.deposit crypto amount condition = .ok s') : SameRequest s s' := by
  simp only [deposit, ite_bind, bind_eq_ok, pure_eq_ok] at h
  obtain ⟨-, -, date, -, s₁, hsub, s₂, hvote, rfl⟩ := h
  exact ((subBalance_request hsub).trans (adjustVote_if_request hvote)).trans
    (sameRequest_withState _ _)

theorem claim_request {id : BalanceId} {amount : ℤ} {source : PtsAddress} {dest : PublicKey}
    {sig : Signature} (h : s.claim crypto id amount source dest sig = .ok s') :
    SameRequest s s' := by
  simp only [claim, withdrawClaimInput, ite_bind, bind_eq_ok, pure_eq_ok] at h
  obtain ⟨-, -, r, -, s₁, ⟨-, -, s₂, hvote, hadd⟩, -, -, rfl⟩ := h
  exact ((adjustVote_if_request hvote).trans (sameRequest_withState _ _)).trans
    (addBalance_request hadd)

theorem burn_request {amount : Asset} {accountId : ℤ} {message : List Char}
    (h : s.burn amount accountId message = .ok s') : SameRequest s s' := by
  simp only [burn, bind_eq_ok, pure_eq_ok] at h
  obtain ⟨-, -, -, -, asset, -, -, -, s₁, hsub, -, -, rfl⟩ := h
  exact (sameRequest_withState _ _).trans (subBalance_request hsub)

theorem registerAccount_request {name : Name} {publicData : ℕ} {ownerKey activeKey : PublicKey}
    {payRate : ℕ} {metaData : Option ℕ}
    (h : s.registerAccount crypto name publicData ownerKey activeKey payRate metaData = .ok s') :
    SameRequest s s' := by
  simp only [registerAccount, ite_bind, bind_eq_ok, pure_eq_ok] at h
  obtain ⟨-, -, -, -, s₁, hfee, -, -, -, -, -, -, -, -, ⟨id, c⟩, -, r, -, s₂, hpay, rfl⟩ := h
  have hp : SameRequest (s₁.withState c) s₂ := by
    rw [ite_eq_ok] at hpay
    rcases hpay with ⟨-, hpay⟩ | ⟨-, hpay⟩
    · exact requireDelegateFee_request hpay
    · rw [pure_eq_ok] at hpay
      exact hpay ▸ SameRequest.refl _
  exact ((requireFee_request hfee).trans (sameRequest_withState _ _)).trans
    (hp.trans (sameRequest_withState _ _))

theorem updateAccount_request {accountId : ℤ} {publicData : Option ℕ}
    {activeKey : Option PublicKey} {payRate : ℕ}
    (h : s.updateAccount crypto accountId publicData activeKey payRate = .ok s') :
    SameRequest s s' := by
  simp only [updateAccount, bind_eq_ok, pure_eq_ok] at h
  obtain ⟨r, -, -, -, r₁, -, ⟨s₁, r₂⟩, hpay, r₃, -, rfl⟩ := h
  exact (changePayRate_request hpay).trans (sameRequest_withState _ _)

theorem withdrawPay_request {amount accountId : ℤ}
    (h : s.withdrawPay crypto amount accountId = .ok s') : SameRequest s s' := by
  simp only [withdrawPay, bind_eq_ok] at h
  obtain ⟨-, -, r, -, -, -, info, -, -, -, -, -, h⟩ := h
  have hadd := addBalance_request h
  exact ⟨hadd.trx, hadd.signedKeys, hadd.chainId, hadd.skipSignatureCheck⟩

theorem defineDelegateSlate_request {slate : List ℤ}
    (h : s.defineDelegateSlate crypto slate = .ok s') : SameRequest s s' := by
  rcases defineDelegateSlate_eq_ok h with rfl | ⟨-, rfl⟩
  · exact SameRequest.refl _
  · exact sameRequest_withState _ _

theorem cover_request {amount : ℤ} {key : MarketIndexKey} {newCoverPrice : Option Price}
    (h : s.cover crypto amount key newCoverPrice = .ok s') : SameRequest s s' := by
  simp only [cover, bind_eq_ok, ite_eq_ok] at h
  obtain ⟨-, -, -, -, -, -, -, -, s₁, hsub, position, -, asset, -, owed, -, debt, -,
    ⟨principle, interest⟩, -, -, -, -, -, -, -, -, -, h⟩ := h
  have hs := subBalance_request hsub
  rcases h with ⟨-, price, -, h⟩ | ⟨-, h⟩
  · rw [pure_eq_ok] at h
    subst h
    exact hs.trans ⟨rfl, rfl, rfl, rfl⟩
  · exact hs.trans ((SameRequest.trans (sameRequest_withState _ _)
      (sameRequest_withState _ _)).trans (addBalance_request h))

theorem addCollateral_request {amount : ℤ} {key : MarketIndexKey}
    (h : s.addCollateral amount key = .ok s') : SameRequest s s' := by
  simp only [addCollateral, bind_eq_ok, pure_eq_ok] at h
  obtain ⟨-, -, -, -, -, -, s₁, hsub, position, -, price, -, rfl⟩ := h
  exact (subBalance_request hsub).trans ⟨rfl, rfl, rfl, rfl⟩

/-- **Step.** No operation changes the request. -/
theorem evaluateOperation_request {op : Operation} (h : s.evaluateOperation crypto op = .ok s') :
    SameRequest s s' := by
  cases op with
  | withdraw => exact withdraw_request h
  | deposit => exact deposit_request h
  | claim => exact claim_request h
  | burn => exact burn_request h
  | registerAccount => exact registerAccount_request h
  | updateAccount => exact updateAccount_request h
  | withdrawPay => exact withdrawPay_request h
  | defineDelegateSlate => exact defineDelegateSlate_request h
  | bid =>
    obtain ⟨s₁, r, hmove, -, rfl⟩ := bid_eq_ok h
    exact (moveOrderFunds_request hmove).trans (sameRequest_withState _ _)
  | ask =>
    obtain ⟨s₁, r, hmove, -, -, rfl⟩ := ask_eq_ok h
    exact (moveOrderFunds_request hmove).trans (sameRequest_withState _ _)
  | short =>
    obtain ⟨s₁, r, hmove, -, -, -, -, rfl⟩ := short_eq_ok h
    exact (moveOrderFunds_request hmove).trans (sameRequest_withState _ _)
  | cover => exact cover_request h
  | addCollateral => exact addCollateral_request h
  | updateFeed =>
    obtain ⟨r, c, -, -, -, rfl⟩ := updateFeed_eq_ok h
    exact sameRequest_withState _ _
  | withdrawAll | removeCollateral | linkAccount | releaseEscrow | unknown => cases h

/-! ### The transaction -/

theorem addAltFee_request {fee : ℤ × ℤ} (h : s.addAltFee fee = .ok s') : SameRequest s s' := by
  simp only [addAltFee, bind_eq_ok, ite_eq_ok, pure_eq_ok] at h
  obtain ⟨-, -, ⟨-, rfl⟩ | ⟨-, r, -, ⟨-, price, -, h⟩ | ⟨-, rfl⟩⟩⟩ := h
  · exact SameRequest.refl s
  · cases price with
    | none =>
      rw [pure_eq_ok] at h
      exact h ▸ SameRequest.refl s
    | some medianPrice =>
      simp only [bind_eq_ok, pure_eq_ok] at h
      obtain ⟨paid, -, altFeesPaid, -, rfl⟩ := h
      exact ⟨rfl, rfl, rfl, rfl⟩
  · exact SameRequest.refl s

theorem postEvaluate_request (h : s.postEvaluate = .ok s') : SameRequest s s' := by
  simp only [postEvaluate, bind_eq_ok] at h
  obtain ⟨s₁, halt, hcollect⟩ := h
  have h₁ : SameRequest s s₁ := by
    have hstart : SameRequest s { s with balance := s.balance.insert 0 (s.balanceOf 0) } :=
      ⟨rfl, rfl, rfl, rfl⟩
    refine hstart.trans ?_
    refine foldlM_induction (P := SameRequest _) ?_ (SameRequest.refl _) halt
    exact fun s₁ fee s₂ _ hs₁ hs₂ => hs₁.trans (addAltFee_request hs₂)
  refine foldlM_induction (P := fun s' => SameRequest s s') ?_ h₁ hcollect
  intro s₂ fee s₃ _ hs₂ hs₃
  obtain ⟨-, ⟨-, rfl⟩ | ⟨r, -, -, rfl⟩⟩ := collectFee_eq_ok hs₃
  · exact hs₂
  · exact hs₂.trans (sameRequest_withState _ _)

variable {c : ChainInterface} {chainId : Digest} {trx : SignedTransaction} {skip canonical : Bool}

/-- **The request of an evaluation stays what it was.** -/
theorem evaluate_request (h : evaluate crypto c chainId trx skip canonical = .ok s') :
    s'.trx = trx ∧ s'.chainId = chainId ∧ s'.skipSignatureCheck = skip := by
  obtain ⟨signedKeys, s₁, s₂, -, -, hops, hpost, hvotes⟩ := evaluate_eq_ok h
  have h₁ : SameRequest (initial c chainId trx skip signedKeys) s₁ := by
    refine foldlM_induction (P := fun s₁ => SameRequest (initial c chainId trx skip signedKeys) s₁)
      ?_ (SameRequest.refl _) hops
    exact fun s₁ op s₂ _ hs₁ hs₂ => hs₁.trans (evaluateOperation_request hs₂)
  have h₂ : SameRequest s₂ s' := by
    refine foldlM_induction (P := fun s' => SameRequest s₂ s') ?_ (SameRequest.refl _) hvotes
    intro s₃ delVote s₄ _ hs₃ hs₄
    obtain ⟨r, r', -, -, -, -, rfl⟩ := updateDelegateVote_eq_ok hs₄
    exact hs₃.trans (sameRequest_withState _ _)
  have h₃ := (h₁.trans (postEvaluate_request hpost)).trans h₂
  exact ⟨h₃.trx, h₃.chainId, h₃.skipSignatureCheck⟩

end EvaluationState

end LarkX
