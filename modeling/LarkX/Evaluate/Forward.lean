import LarkX.Evaluate.Owners

/-!
# Accounts move forward

What may become of an account while operations are evaluated at one time (`AccountRecord.Forward`):
its identity and its registration date stay, its last update stays or is now, no entry of its key
history but the one of now changes, a delegate stays one at no higher pay rate, and the blocks it
produced and missed are not forgotten. What an update writes of an account that is retracted stays
as it is. Every transaction takes the accounts forward (`evaluate_forward`): none is lost, and one
that was not there is new (`AccountsForward`).
-/

namespace LarkX

/-- The statistics of a delegate later on. -/
structure DelegateStats.Onward (i j : DelegateStats) : Prop where
  payRate : j.payRate ≤ i.payRate
  blocksProduced : i.blocksProduced ≤ j.blocksProduced
  blocksMissed : i.blocksMissed ≤ j.blocksMissed

theorem DelegateStats.Onward.refl (i : DelegateStats) : i.Onward i :=
  ⟨le_rfl, le_rfl, le_rfl⟩

theorem DelegateStats.Onward.trans {i j k : DelegateStats} (h : i.Onward j) (h' : j.Onward k) :
    i.Onward k :=
  ⟨h'.payRate.trans h.payRate, h.blocksProduced.trans h'.blocksProduced,
    h.blocksMissed.trans h'.blocksMissed⟩

namespace AccountRecord

/-! ### One account -/

/-- What an update may write of an account is as it was. -/
structure Untouched (r r' : AccountRecord) : Prop where
  publicData : r'.publicData = r.publicData
  activeKeyHistory : r'.activeKeyHistory = r.activeKeyHistory
  lastUpdate : r'.lastUpdate = r.lastUpdate
  payRate : r'.delegateInfo.map DelegateStats.payRate = r.delegateInfo.map DelegateStats.payRate

/-- What may become of an account at the time `now`, whether or not it was retracted. -/
structure Revised (now : ℕ) (r r' : AccountRecord) : Prop where
  identity : EvaluationState.SameIdentity r r'
  registrationDate : r'.registrationDate = r.registrationDate
  lastUpdate : r'.lastUpdate = r.lastUpdate ∨ r'.lastUpdate = now
  history : ∀ date, date ≠ now → r'.activeKeyHistory[date]? = r.activeKeyHistory[date]?
  delegate : ∀ info, r.delegateInfo = some info →
    ∃ info', r'.delegateInfo = some info' ∧ info.Onward info'
  rate : r.delegateInfo = none → ∀ info', r'.delegateInfo = some info' → info'.payRate ≤ 100

/-- What may become of an account at the time `now`. -/
structure Forward (now : ℕ) (r r' : AccountRecord) : Prop extends Revised now r r' where
  retracted : r.isRetracted = true → r.Untouched r'

variable {now : ℕ} {r r₁ r₂ r₃ : AccountRecord}

theorem Untouched.trans (h : r₁.Untouched r₂) (h' : r₂.Untouched r₃) : r₁.Untouched r₃ :=
  ⟨h'.publicData.trans h.publicData, h'.activeKeyHistory.trans h.activeKeyHistory,
    h'.lastUpdate.trans h.lastUpdate, h'.payRate.trans h.payRate⟩

/-- Only an update can revoke a retraction. -/
theorem Untouched.isRetracted (h : r₁.Untouched r₂) : r₂.isRetracted = r₁.isRetracted := by
  rw [AccountRecord.isRetracted, AccountRecord.isRetracted,
    EvaluationState.activeKey_congr h.activeKeyHistory]

theorem Revised.refl (now : ℕ) (r : AccountRecord) : r.Revised now r where
  identity := .refl r
  registrationDate := rfl
  lastUpdate := Or.inl rfl
  history _ _ := rfl
  delegate info hinfo := ⟨info, hinfo, .refl info⟩
  rate hnone info' hinfo' := by
    rw [hnone] at hinfo'
    cases hinfo'

theorem Revised.trans (h : r₁.Revised now r₂) (h' : r₂.Revised now r₃) : r₁.Revised now r₃ where
  identity := h.identity.trans h'.identity
  registrationDate := h'.registrationDate.trans h.registrationDate
  lastUpdate := by
    rcases h'.lastUpdate with heq | heq
    · rw [heq]
      exact h.lastUpdate
    · exact Or.inr heq
  history date hdate := (h'.history date hdate).trans (h.history date hdate)
  delegate info hinfo := by
    obtain ⟨info₂, hinfo₂, hon⟩ := h.delegate info hinfo
    obtain ⟨info₃, hinfo₃, hon'⟩ := h'.delegate info₂ hinfo₂
    exact ⟨info₃, hinfo₃, hon.trans hon'⟩
  rate hnone info₃ hinfo₃ := by
    cases hr₂ : r₂.delegateInfo with
    | none => exact h'.rate hr₂ info₃ hinfo₃
    | some info₂ =>
      -- it became a delegate on the way, and its rate did not rise since
      obtain ⟨info₃', hinfo₃', hon⟩ := h'.delegate info₂ hr₂
      rw [hinfo₃] at hinfo₃'
      cases hinfo₃'
      exact hon.payRate.trans (h.rate hnone info₂ hr₂)

theorem Forward.refl (now : ℕ) (r : AccountRecord) : r.Forward now r :=
  ⟨.refl now r, fun _ => ⟨rfl, rfl, rfl, rfl⟩⟩

theorem Forward.trans (h : r₁.Forward now r₂) (h' : r₂.Forward now r₃) : r₁.Forward now r₃ where
  toRevised := h.toRevised.trans h'.toRevised
  retracted hretracted := by
    have h₁ := h.retracted hretracted
    exact h₁.trans (h'.retracted (h₁.isRetracted.trans hretracted))

/-- Only the statistics of a delegate are written, at the same pay rate. -/
theorem forward_stats (now : ℕ) {info info' : DelegateStats} (hinfo : r.delegateInfo = some info)
    (hrate : info'.payRate = info.payRate) (hproduced : info.blocksProduced ≤ info'.blocksProduced)
    (hmissed : info.blocksMissed ≤ info'.blocksMissed) :
    r.Forward now { r with delegateInfo := some info' } where
  identity := ⟨rfl, rfl, rfl⟩
  registrationDate := rfl
  lastUpdate := Or.inl rfl
  history _ _ := rfl
  delegate info₀ hinfo₀ := by
    rw [hinfo] at hinfo₀
    cases hinfo₀
    exact ⟨info', rfl, hrate.le, hproduced, hmissed⟩
  rate hnone := by
    rw [hinfo] at hnone
    cases hnone
  retracted _ := by
    refine ⟨rfl, rfl, rfl, ?_⟩
    rw [hinfo, Option.map_some, Option.map_some, hrate]

/-- An account that was registered at the time `now`, or has been written since. -/
structure Fresh (now : ℕ) (r : AccountRecord) : Prop where
  lastUpdate : r.lastUpdate = now
  rate : ∀ info, r.delegateInfo = some info → info.payRate ≤ 100

theorem Fresh.revised (h : r₁.Fresh now) (h' : r₁.Revised now r₂) : r₂.Fresh now := by
  refine ⟨?_, fun info₂ hinfo₂ => ?_⟩
  · rcases h'.lastUpdate with heq | heq
    · rw [heq, h.lastUpdate]
    · exact heq
  · cases hr₁ : r₁.delegateInfo with
    | none => exact h'.rate hr₁ info₂ hinfo₂
    | some info₁ =>
      obtain ⟨info₂', hinfo₂', hon⟩ := h'.delegate info₁ hr₁
      rw [hinfo₂] at hinfo₂'
      cases hinfo₂'
      exact hon.payRate.trans (h.rate info₁ hr₁)

end AccountRecord

/-! ### All accounts -/

/-- No account is lost, and one that was not there is new. -/
structure AccountsForward (now : ℕ) (t t' : Table ℤ AccountRecord) : Prop where
  kept : t.Keeps (fun _ => AccountRecord.Forward now) t'
  made : ∀ (id : ℤ) (r' : AccountRecord), t'[id]? = some r' →
    (∃ r, t[id]? = some r ∧ r.Forward now r') ∨ r'.Fresh now

namespace AccountsForward

variable {now : ℕ} {t t₁ t₂ t₃ : Table ℤ AccountRecord} {r : AccountRecord}

theorem refl (now : ℕ) (t : Table ℤ AccountRecord) : AccountsForward now t t :=
  ⟨.refl (fun _ => .refl now) t, fun _ r' hr' => Or.inl ⟨r', hr', .refl now r'⟩⟩

theorem of_eq (now : ℕ) (h : t₂ = t₁) : AccountsForward now t₁ t₂ :=
  h ▸ refl now t₂

theorem trans (h : AccountsForward now t₁ t₂) (h' : AccountsForward now t₂ t₃) :
    AccountsForward now t₁ t₃ := by
  refine ⟨fun id r hr => ?_, fun id r₃ hr₃ => ?_⟩
  · obtain ⟨r₂, hr₂, hforward⟩ := h.kept id r hr
    obtain ⟨r₃, hr₃, hforward'⟩ := h'.kept id r₂ hr₂
    exact ⟨r₃, hr₃, hforward.trans hforward'⟩
  · rcases h'.made id r₃ hr₃ with ⟨r₂, hr₂, hforward'⟩ | hfresh
    · rcases h.made id r₂ hr₂ with ⟨r, hr, hforward⟩ | hfresh
      · exact Or.inl ⟨r, hr, hforward.trans hforward'⟩
      · exact Or.inr (hfresh.revised hforward'.toRevised)
    · exact Or.inr hfresh

/-- One account is written over. -/
theorem insert (hkeyed : t.KeyedBy AccountRecord.id) {id : ℤ} {old : AccountRecord}
    (hold : t[id]? = some old) (h : old.Forward now r) :
    AccountsForward now t (t.insert r.id r) := by
  have hid : r.id = id := h.identity.id.trans (hkeyed id old hold)
  subst hid
  refine ⟨(Table.keeps_insert_iff fun _ => .refl now).2 fun r₀ hr₀ => ?_, fun id' r' hr' => ?_⟩
  · rw [hold] at hr₀
    cases hr₀
    exact h
  · rw [Table.getElem?_insert] at hr'
    split at hr'
    · rename_i hmine
      cases hr'
      exact Or.inl ⟨old, hmine ▸ hold, h⟩
    · exact Or.inl ⟨r', hr', .refl now r'⟩

/-- A new account is written. -/
theorem insert_new (hnone : t[r.id]? = none) (h : r.Fresh now) :
    AccountsForward now t (t.insert r.id r) := by
  refine ⟨(Table.keeps_insert_iff fun _ => .refl now).2 fun r₀ hr₀ => ?_, fun id' r' hr' => ?_⟩
  · rw [hnone] at hr₀
    cases hr₀
  · rw [Table.getElem?_insert] at hr'
    split at hr'
    · cases hr'
      exact Or.inr h
    · exact Or.inl ⟨r', hr', .refl now r'⟩

end AccountsForward

/-- The accounts a reader sees move forward from one chain state to the next. -/
def ChainInterface.Forward (c c' : ChainInterface) : Prop :=
  c'.now = c.now ∧ AccountsForward c.now c.flat.accounts c'.flat.accounts

namespace ChainInterface.Forward

variable {crypto : Crypto} {c c₁ c₂ c₃ : ChainInterface}

theorem refl (c : ChainInterface) : c.Forward c :=
  ⟨rfl, .refl _ _⟩

theorem trans (h : c₁.Forward c₂) (h' : c₂.Forward c₃) : c₁.Forward c₃ := by
  obtain ⟨hnow, hforward⟩ := h
  obtain ⟨hnow', hforward'⟩ := h'
  rw [hnow] at hnow' hforward'
  exact ⟨hnow', hforward.trans hforward'⟩

/-- A write that leaves the accounts. -/
theorem write (hp : c.IsPending) {w : Write}
    (hw : (c.flat.write crypto w).accounts = c.flat.accounts) : c.Forward (c.write crypto w) := by
  refine ⟨(sameBelow_write crypto c w).now, .of_eq _ ?_⟩
  rw [flat_write hp, hw]

/-- An account is stored over the record that was read. -/
theorem storeAccountRecord (hp : c.IsPending) (hkeyed : c.flat.Keyed crypto) {id : ℤ}
    {r r' : AccountRecord} (hr : c.getAccountRecord id = some r) (h : r.Forward c.now r') :
    c.Forward (c.storeAccountRecord crypto r') := by
  rw [storeAccountRecord_eq hp]
  refine ⟨(sameBelow_write crypto c _).now, ?_⟩
  rw [flat_write hp]
  rw [getAccountRecord_eq] at hr
  exact .insert hkeyed.accounts hr h

end ChainInterface.Forward

namespace EvaluationState

variable {crypto : Crypto} {s s' : EvaluationState}

/-! ### Updates -/

/-- An active key that is set. -/
theorem setActiveKey_revised {now : ℕ} {r r' : AccountRecord} {key : PublicKey}
    (h : r.setActiveKey now key = .ok r') : r.Revised now r' := by
  rw [setActiveKey_eq_ok h]
  have hsame := AccountRecord.Revised.refl now r
  exact { hsame with
    identity := ⟨rfl, rfl, rfl⟩
    history := fun date hdate => Table.getElem?_insert_of_ne _ _ hdate }

theorem changeActiveKey_revised {r r' : AccountRecord} {activeKey : Option PublicKey}
    (h : s.changeActiveKey crypto r activeKey = .ok r') :
    r.Revised s.currentState.now r' := by
  unfold changeActiveKey at h
  split at h
  · simp only [bind_eq_ok] at h
    obtain ⟨-, -, -, -, h⟩ := h
    exact setActiveKey_revised h
  · simp only [bind_eq_ok, pure_eq_ok] at h
    obtain ⟨-, -, rfl⟩ := h
    exact .refl _ r

theorem setUpdatedKey_revised {r r' : AccountRecord} {activeKey : Option PublicKey}
    (h : s.setUpdatedKey crypto r activeKey = .ok r') : r.Revised s.currentState.now r' := by
  unfold setUpdatedKey at h
  split at h
  · simp only [bind_eq_ok, pure_eq_ok] at h
    obtain ⟨r₁, hr₁, -, -, rfl⟩ := h
    exact setActiveKey_revised hr₁
  · rw [pure_eq_ok] at h
    exact h ▸ .refl _ r

/-- A delegate stays one, at no higher rate; a new one has a rate of at most 100. -/
theorem changePayRate_revised (now : ℕ) {r r' : AccountRecord} {payRate : ℕ}
    (h : s.changePayRate r payRate = .ok (s', r')) : r.Revised now r' := by
  have hsame := AccountRecord.Revised.refl now r
  unfold changePayRate at h
  split at h
  · rename_i info hinfo
    simp only [bind_eq_ok, require_eq_ok, pure_eq_ok, Prod.mk.injEq] at h
    obtain ⟨-, -, -, hle, rfl, rfl⟩ := h
    refine { hsame with
      identity := ⟨rfl, rfl, rfl⟩
      delegate := fun info₀ hinfo₀ => ?_
      rate := fun hnone => ?_ }
    · rw [hinfo] at hinfo₀
      cases hinfo₀
      exact ⟨_, rfl, hle, le_rfl, le_rfl⟩
    · rw [hinfo] at hnone
      cases hnone
  · rename_i hnone
    rw [ite_eq_ok] at h
    rcases h with ⟨hrate, h⟩ | ⟨-, h⟩
    · simp only [bind_eq_ok, pure_eq_ok, Prod.mk.injEq] at h
      obtain ⟨s₁, -, rfl, rfl⟩ := h
      refine { hsame with
        identity := ⟨rfl, rfl, rfl⟩
        delegate := fun info hinfo => ?_
        rate := fun _ info' hinfo' => ?_ }
      · rw [hnone] at hinfo
        cases hinfo
      · cases hinfo'
        exact hrate
    · simp only [pure_eq_ok, Prod.mk.injEq] at h
      obtain ⟨rfl, rfl⟩ := h
      exact hsame

/-- An update of a retracted account throws. -/
theorem updateAccount_retracted {accountId : ℤ} {publicData : Option ℕ}
    {activeKey : Option PublicKey} {payRate : ℕ} {r : AccountRecord}
    (hr : s.currentState.getAccountRecord accountId = some r) (hretracted : r.isRetracted = true) :
    s.updateAccount crypto accountId publicData activeKey payRate = .error .accountRetracted := by
  rw [updateAccount, hr]
  simp [orThrow, require, hretracted]

theorem updateAccount_forward (hp : s.currentState.IsPending)
    (hkeyed : s.currentState.flat.Keyed crypto) {accountId : ℤ} {publicData : Option ℕ}
    {activeKey : Option PublicKey} {payRate : ℕ}
    (h : s.updateAccount crypto accountId publicData activeKey payRate = .ok s') :
    s.currentState.Forward s'.currentState := by
  simp only [updateAccount, bind_eq_ok, orThrow_eq_ok, require_eq_ok, pure_eq_ok] at h
  obtain ⟨r, hr, -, hretracted, r₁, hkey, ⟨s₁, r₂⟩, hpay, r₃, hset, rfl⟩ := h
  have hsame := (changePayRate_eq_ok activeKey hpay).1.currentState
  have hset' : AccountRecord.Revised s.currentState.now
      { r₂ with lastUpdate := s₁.currentState.now } r₃ := by
    have hrevised := setUpdatedKey_revised hset
    rw [hsame] at hrevised
    exact hsame ▸ hrevised
  have hdata : r₁.Revised s.currentState.now
      { r₁ with publicData := publicData.getD r₁.publicData } :=
    { AccountRecord.Revised.refl _ r₁ with identity := ⟨rfl, rfl, rfl⟩ }
  have htime : r₂.Revised s.currentState.now { r₂ with lastUpdate := s₁.currentState.now } :=
    { AccountRecord.Revised.refl _ r₂ with
      identity := ⟨rfl, rfl, rfl⟩
      lastUpdate := Or.inr (by rw [hsame]) }
  have hrevised : r.Revised s.currentState.now r₃ :=
    ((changeActiveKey_revised hkey).trans hdata).trans
      ((changePayRate_revised _ hpay).trans (htime.trans hset'))
  change s.currentState.Forward (s₁.currentState.storeAccountRecord crypto r₃)
  rw [hsame]
  refine .storeAccountRecord hp hkeyed hr ⟨hrevised, fun hr' => ?_⟩
  rw [hretracted] at hr'
  cases hr'

/-! ### Registration and pay -/

/-- A registration writes the next id, and an account of now under it. -/
theorem registerAccount_fresh {name : Name} {publicData : ℕ} {ownerKey activeKey : PublicKey}
    {payRate : ℕ} {metaData : Option ℕ}
    (h : s.registerAccount crypto name publicData ownerKey activeKey payRate metaData = .ok s') :
    ∃ (last : ℤ) (r : AccountRecord), s.currentState.lastAccountId = .ok last ∧
      r.id = last + 1 ∧ r.Fresh s.currentState.now ∧
      s'.currentState = (s.currentState.setProperty .lastAccountId
        (.int (last + 1))).storeAccountRecord crypto r := by
  simp only [registerAccount, ChainInterface.newAccountId, ite_bind, bind_eq_ok, require_eq_ok,
    pure_eq_ok] at h
  obtain ⟨-, -, -, -, s₁, hfee, -, -, -, -, -, -, -, -, ⟨id, c⟩, ⟨last, hlast, hid⟩, r, hr, s₂,
    hpay, rfl⟩ := h
  obtain ⟨rfl, rfl⟩ := Prod.mk.injEq .. ▸ hid
  have hf := requireFee_eq_ok hfee
  have hstate : s₂.currentState = s₁.currentState.setProperty .lastAccountId (.int (last + 1)) := by
    rw [ite_eq_ok] at hpay
    rcases hpay with ⟨-, hpay⟩ | ⟨-, hpay⟩
    · exact (requireDelegateFee_eq_ok hpay).currentState
    · rw [pure_eq_ok] at hpay
      exact hpay ▸ rfl
  rw [hf.currentState] at hlast hstate
  have hactive := setActiveKey_eq_ok hr
  subst hactive
  refine ⟨last, _, hlast, rfl, ⟨rfl, fun info hinfo => ?_⟩, congrArg
    (fun c : ChainInterface => c.storeAccountRecord crypto _) hstate⟩
  change (if payRate ≤ 100 then some { payRate := payRate : DelegateStats } else none) = some info
    at hinfo
  split at hinfo
  · rename_i hrate
    cases hinfo
    exact hrate
  · cases hinfo

theorem registerAccount_forward (hp : s.currentState.IsPending)
    (hbelow : s.currentState.flat.AccountsBelow) {name : Name} {publicData : ℕ}
    {ownerKey activeKey : PublicKey} {payRate : ℕ} {metaData : Option ℕ}
    (h : s.registerAccount crypto name publicData ownerKey activeKey payRate metaData = .ok s') :
    s.currentState.Forward s'.currentState := by
  obtain ⟨last, r, hlast, hid, hfresh, hstate⟩ := registerAccount_fresh h
  have hnone : s.currentState.flat.accounts[r.id]? = none := by
    cases hr : s.currentState.flat.accounts[r.id]? with
    | none => rfl
    | some r' =>
      have hle := hbelow last (ChainInterface.lastAccountId_eq_ok.1 hlast) r.id r' hr
      omega
  have hfirst := ChainInterface.sameBelow_write crypto s.currentState
    (.property .lastAccountId (.int (last + 1)))
  rw [hstate, ChainInterface.setProperty_eq crypto hp,
    ChainInterface.storeAccountRecord_eq (hfirst.pending hp)]
  refine ⟨(ChainInterface.sameBelow_write ..).now.trans hfirst.now, ?_⟩
  rw [ChainInterface.flat_write (hfirst.pending hp), ChainInterface.flat_write hp]
  exact .insert_new hnone hfresh

theorem withdrawPay_forward (hp : s.currentState.IsPending)
    (hkeyed : s.currentState.flat.Keyed crypto) {amount accountId : ℤ}
    (h : s.withdrawPay crypto amount accountId = .ok s') :
    s.currentState.Forward s'.currentState := by
  obtain ⟨s₁, r, info, hr, hinfo, -, -, hvotes, hwithdraws⟩ := withdrawPay_eq_ok h
  rw [hwithdraws.currentState]
  change s.currentState.Forward (s₁.currentState.storeAccountRecord crypto _)
  rw [hvotes.currentState]
  exact .storeAccountRecord hp hkeyed hr
    (AccountRecord.forward_stats _ hinfo rfl le_rfl le_rfl)

/-! ### Transactions -/

/-- What the evaluation of an operation assumes of the chain state, and keeps. -/
structure Registry (crypto : Crypto) (c : ChainInterface) : Prop where
  pending : c.IsPending
  keyed : c.flat.Keyed crypto
  below : c.flat.AccountsBelow

theorem Registry.writes {ops : List Operation} {c c' : ChainInterface} (h : Registry crypto c)
    (hw : ChainInterface.Writes crypto (EvaluationWrite crypto ops) c c') :
    Registry crypto c' := by
  have hinv := hw.invariant (I := fun c => c.flat.Keyed crypto ∧ c.flat.AccountsBelow)
    (fun c w hp hc hw => ChainInterface.flat_write hp w ▸
      ⟨hc.1.write w, accountsBelow_write hc.1 hc.2 hw⟩) h.pending ⟨h.keyed, h.below⟩
  exact ⟨hw.isPending h.pending, hinv.1, hinv.2⟩

/-- **Step.** Every operation takes the accounts forward. -/
theorem evaluateOperation_forward {op : Operation} (hreg : Registry crypto s.currentState)
    (h : s.evaluateOperation crypto op = .ok s') : s.currentState.Forward s'.currentState := by
  have hother (hop : OnAccounts op = false) : s.currentState.Forward s'.currentState :=
    ⟨(evaluateOperation_writes hreg.pending h).sameBelow.now,
      .of_eq _ (evaluateOperation_accounts hreg.pending hop h)⟩
  cases op with
  | registerAccount => exact registerAccount_forward hreg.pending hreg.below h
  | updateAccount => exact updateAccount_forward hreg.pending hreg.keyed h
  | withdrawPay => exact withdrawPay_forward hreg.pending hreg.keyed h
  | _ => exact hother rfl

/-- **Run.** The operations of a transaction, in any order. -/
theorem evaluateOperations_forward {ops : List Operation} (hreg : Registry crypto s.currentState)
    (h : s.evaluateOperations crypto ops = .ok s') :
    s.currentState.Forward s'.currentState ∧ Registry crypto s'.currentState := by
  refine foldlM_induction (P := fun s' : EvaluationState => s.currentState.Forward s'.currentState ∧
    Registry crypto s'.currentState) ?_ ⟨.refl _, hreg⟩ h
  rintro s₁ op s₂ - ⟨hforward, hreg₁⟩ hop
  exact ⟨hforward.trans (evaluateOperation_forward hreg₁ hop),
    hreg₁.writes (evaluateOperation_writes hreg₁.pending hop)⟩

/-- The votes of a delegate are added to the record that is there after the operations. -/
theorem updateDelegateVote_forward {v : ℤ × ℤ} (hp : s.currentState.IsPending)
    (hkeyed : s.currentState.flat.Keyed crypto) (h : s.updateDelegateVote crypto v = .ok s') :
    s.currentState.Forward s'.currentState := by
  simp only [updateDelegateVote, AccountRecord.adjustVotesFor, bind_eq_ok, orThrow_eq_ok,
    pure_eq_ok] at h
  obtain ⟨r, hr, r', ⟨info, hinfo, rfl⟩, rfl⟩ := h
  exact .storeAccountRecord hp hkeyed hr (AccountRecord.forward_stats _ hinfo rfl le_rfl le_rfl)

theorem updateDelegateVotes_forward (hreg : Registry crypto s.currentState)
    (h : s.updateDelegateVotes crypto = .ok s') : s.currentState.Forward s'.currentState := by
  have hall : s.currentState.Forward s'.currentState ∧ s'.currentState.IsPending ∧
      s'.currentState.flat.Keyed crypto := by
    refine foldlM_induction (P := fun s' : EvaluationState =>
      s.currentState.Forward s'.currentState ∧ s'.currentState.IsPending ∧
        s'.currentState.flat.Keyed crypto) ?_ ⟨.refl _, hreg.pending, hreg.keyed⟩ h
    rintro s₁ v s₂ - ⟨hforward, hp, hkeyed⟩ hvote
    obtain ⟨-, hp₂, hkeyed₂⟩ := updateDelegateVote_done hp hkeyed hvote
    exact ⟨hforward.trans (updateDelegateVote_forward hp hkeyed hvote), hp₂, hkeyed₂⟩
  exact hall.1

/-- **Every transaction takes the accounts forward.** -/
theorem evaluate_forward {c : ChainInterface} {chainId : Digest} {trx : SignedTransaction}
    {skip canonical : Bool} (hreg : Registry crypto c)
    (h : evaluate crypto c chainId trx skip canonical = .ok s') : c.Forward s'.currentState := by
  obtain ⟨signedKeys, s₁, s₂, -, -, hops, hpost, hvotes⟩ := evaluate_eq_ok h
  obtain ⟨hforward₁, hreg₁⟩ := evaluateOperations_forward
    (s := initial c chainId trx skip signedKeys) hreg hops
  have hwrites := postEvaluate_writes crypto trx.operations hreg₁.pending hpost
  have hforward₂ : s₁.currentState.Forward s₂.currentState :=
    ⟨hwrites.sameBelow.now, .of_eq _ (aside_postEvaluate hreg₁.pending hpost).votes.accounts⟩
  exact (hforward₁.trans hforward₂).trans (updateDelegateVotes_forward (hreg₁.writes hwrites) hvotes)

end EvaluationState

end LarkX
