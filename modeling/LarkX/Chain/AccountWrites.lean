import LarkX.Chain.Accounts

/-!
# What a block writes of an account

Each write of a block to an account is one of three: the head of the block is credited to its
producer, an account is updated, or one is registered (`AccountWrite`). An update keeps the identity
of the account and the terms of its delegate, and gives it no key that is in use. After
its producer is credited, a block writes accounts in these ways only
(`evaluateBlockChanges_accountWrites`), whatever its transactions are; an invariant of accounts has
one case for each.
-/

namespace LarkX

/-- The terms of a delegate: the secret it is bound to by the last of its blocks, and a pay rate
that is a percentage. -/
structure DelegateStats.SameTerms (i j : DelegateStats) : Prop where
  blocksProduced : j.blocksProduced = i.blocksProduced
  nextSecretHash : j.nextSecretHash = i.nextSecretHash
  lastBlockNumProduced : j.lastBlockNumProduced = i.lastBlockNumProduced
  payRate : i.payRate ≤ 100 → j.payRate ≤ 100

theorem DelegateStats.SameTerms.refl (i : DelegateStats) : i.SameTerms i :=
  ⟨rfl, rfl, rfl, id⟩

theorem DelegateStats.SameTerms.trans {i j k : DelegateStats} (h : i.SameTerms j)
    (h' : j.SameTerms k) : i.SameTerms k :=
  ⟨h'.blocksProduced.trans h.blocksProduced, h'.nextSecretHash.trans h.nextSecretHash,
    h'.lastBlockNumProduced.trans h.lastBlockNumProduced, fun hi => h'.payRate (h.payRate hi)⟩

namespace AccountRecord

theorem mem_activeKeys {r : AccountRecord} {key : PublicKey} :
    key ∈ r.activeKeys ↔ ∃ date : ℕ, r.activeKeyHistory[date]? = some key := by
  rw [activeKeys, List.mem_map]
  constructor
  · rintro ⟨⟨date, key'⟩, hmem, rfl⟩
    exact ⟨date, Table.mem_toList.1 hmem⟩
  · rintro ⟨date, hget⟩
    exact ⟨(date, key), Table.mem_toList.2 hget, rfl⟩

/-- The active key is the last one of the history. -/
theorem activeKey_mem {r : AccountRecord} (h : r.activeKeys ≠ []) : r.activeKey ∈ r.activeKeys := by
  rw [activeKeys, ne_eq, List.map_eq_nil_iff] at h
  rw [activeKey, activeKeys, List.getLast?_eq_some_getLast h]
  exact List.mem_map_of_mem (List.getLast_mem h)

/-- Setting a key adds it, and loses the one of the same date only. -/
theorem mem_activeKeys_insert {r : AccountRecord} {now : ℕ} {key key' : PublicKey}
    (h : key' ∈ ({ r with activeKeyHistory := r.activeKeyHistory.insert now key } :
      AccountRecord).activeKeys) : key' ∈ r.activeKeys ∨ key' = key := by
  obtain ⟨date, hget⟩ := mem_activeKeys.1 h
  by_cases hdate : date = now
  · subst hdate
    exact Or.inr (Option.some.inj (hget.symm.trans (Table.getElem?_insert_same ..)))
  · exact Or.inl (mem_activeKeys.2 ⟨date, (Table.getElem?_insert_of_ne _ _ hdate).symm.trans hget⟩)

theorem activeKeys_insert_ne_nil (r : AccountRecord) (now : ℕ) (key : PublicKey) :
    ({ r with activeKeyHistory := r.activeKeyHistory.insert now key } : AccountRecord).activeKeys ≠
      [] :=
  List.ne_nil_of_mem (mem_activeKeys.2 ⟨now, Table.getElem?_insert_same ..⟩)

end AccountRecord

namespace ChainInterface

/-- The address is in use: an account is found under it. -/
def Takes (c : ChainInterface) (a : Address) : Prop :=
  (c.getAccountRecordByAddress a).isSome = true

/-- What an account may become: the same one, with the same terms, and with no new key that is in
use. -/
structure Updates (crypto : Crypto) (c : ChainInterface) (old r : AccountRecord) : Prop where
  identity : EvaluationState.SameIdentity old r
  terms : old.stats.SameTerms r.stats
  keys : ∀ key ∈ r.activeKeys, key ∈ old.activeKeys ∨ ¬c.Takes (crypto.keyAddress key)
  keyed : old.activeKeys ≠ [] → r.activeKeys ≠ []

/-- The writes to accounts after the producer is credited. -/
inductive AccountWrite (crypto : Crypto) (c : ChainInterface) : AccountRecord → Prop
  | updated {old r : AccountRecord} (hold : c.flat.accounts[r.id]? = some old)
      (h : c.Updates crypto old r) : AccountWrite crypto c r
  | registered {r : AccountRecord} {key : PublicKey} (hnone : c.flat.accounts[r.id]? = none)
      (hkey : r.activeKeys = [key]) (hfree : ¬c.Takes (crypto.keyAddress key))
      (hterms : ({} : DelegateStats).SameTerms r.stats) : AccountWrite crypto c r

/-- A write that is none to an account, or one of these. -/
def AccountStep (crypto : Crypto) (c : ChainInterface) : Write → Prop
  | .account r => AccountWrite crypto c r
  | .newAccount _ => False
  | _ => True

theorem Updates.refl (crypto : Crypto) (c : ChainInterface) (r : AccountRecord) :
    c.Updates crypto r r :=
  ⟨.refl r, .refl _, fun _ hkey => Or.inl hkey, id⟩

theorem Updates.trans {crypto : Crypto} {c : ChainInterface} {r₁ r₂ r₃ : AccountRecord}
    (h : c.Updates crypto r₁ r₂) (h' : c.Updates crypto r₂ r₃) : c.Updates crypto r₁ r₃ where
  identity := h.identity.trans h'.identity
  terms := h.terms.trans h'.terms
  keys key hkey := by
    rcases h'.keys key hkey with hkey | hfree
    · exact h.keys key hkey
    · exact Or.inr hfree
  keyed hne := h'.keyed (h.keyed hne)

/-- Other statistics of a delegate, with the same terms. -/
theorem updates_stats (crypto : Crypto) (c : ChainInterface) {r : AccountRecord}
    {info info' : DelegateStats} (hinfo : r.delegateInfo = some info)
    (hterms : info.SameTerms info') :
    c.Updates crypto r { r with delegateInfo := some info' } where
  identity := ⟨rfl, rfl, rfl⟩
  terms := by
    rw [AccountRecord.stats, hinfo]
    exact hterms
  keys _ hkey := Or.inl hkey
  keyed := id

/-- Writes to anything but accounts leave the addresses that are in use. -/
theorem takes_aside {crypto : Crypto} {c : ChainInterface} {w : Write}
    (hw : ∀ r, w ≠ .account r ∧ w ≠ .newAccount r) {a : Address} :
    (c.write crypto w).Takes a ↔ c.Takes a := by
  have hread : (c.write crypto w).getAccountRecordByAddress a = c.getAccountRecordByAddress a := by
    obtain ⟨os, db, now, n⟩ := c
    cases os with
    | nil => rfl
    | cons o os =>
      cases w with
      | account r => exact absurd rfl (hw r).1
      | newAccount r => exact absurd rfl (hw r).2
      | _ => rfl
  rw [Takes, Takes, hread]

end ChainInterface

/-! ### Transactions -/

namespace EvaluationState

open ChainInterface (Writes AccountStep AccountWrite Takes Updates)

variable {crypto : Crypto} {s s' : EvaluationState}

/-- A key that was looked up in vain is not in use. -/
theorem not_takes {c : ChainInterface} {a : Address}
    (h : (c.getAccountRecordByAddress a).isNone = true) : ¬c.Takes a := by
  rw [Takes, Option.isNone_iff_eq_none.1 h]
  exact Bool.false_ne_true

theorem updates_setActiveKey {r r' : AccountRecord} {now : ℕ} {key : PublicKey}
    (h : r.setActiveKey now key = .ok r') {c : ChainInterface}
    (hfree : ¬c.Takes (crypto.keyAddress key)) : c.Updates crypto r r' := by
  rw [setActiveKey_eq_ok h]
  refine ⟨⟨rfl, rfl, rfl⟩, .refl _, fun key' hkey' => ?_,
    fun _ => r.activeKeys_insert_ne_nil now key⟩
  rcases AccountRecord.mem_activeKeys_insert hkey' with hold | rfl
  · exact Or.inl hold
  · exact Or.inr hfree

theorem changeActiveKey_updates {r r' : AccountRecord} {activeKey : Option PublicKey}
    (h : s.changeActiveKey crypto r activeKey = .ok r') : s.currentState.Updates crypto r r' := by
  unfold changeActiveKey at h
  split at h
  · simp only [bind_eq_ok, require_eq_ok] at h
    obtain ⟨-, hfree, -, -, h⟩ := h
    exact updates_setActiveKey h (not_takes hfree)
  · simp only [bind_eq_ok, pure_eq_ok] at h
    obtain ⟨-, -, rfl⟩ := h
    exact .refl ..

theorem setUpdatedKey_updates {r r' : AccountRecord} {activeKey : Option PublicKey}
    (h : s.setUpdatedKey crypto r activeKey = .ok r') : s.currentState.Updates crypto r r' := by
  unfold setUpdatedKey at h
  split at h
  · simp only [bind_eq_ok, require_eq_ok, pure_eq_ok] at h
    obtain ⟨r₁, hr₁, -, hfree, rfl⟩ := h
    exact updates_setActiveKey hr₁ (not_takes hfree)
  · rw [pure_eq_ok] at h
    exact h ▸ .refl ..

/-- An account that becomes a delegate is bound to no secret yet. -/
theorem changePayRate_updates (c : ChainInterface) {r r' : AccountRecord} {payRate : ℕ}
    (h : s.changePayRate r payRate = .ok (s', r')) : c.Updates crypto r r' := by
  unfold changePayRate at h
  split at h
  · rename_i info hinfo
    simp only [bind_eq_ok, pure_eq_ok, Prod.mk.injEq] at h
    obtain ⟨_, hrate, -, -, -, rfl⟩ := h
    exact ChainInterface.updates_stats crypto c hinfo
      ⟨rfl, rfl, rfl, fun _ => require_eq_ok.1 hrate⟩
  · rename_i hnone
    rw [ite_eq_ok] at h
    rcases h with ⟨hrate, h⟩ | ⟨-, h⟩
    · simp only [bind_eq_ok, pure_eq_ok, Prod.mk.injEq] at h
      obtain ⟨-, -, -, rfl⟩ := h
      refine ⟨⟨rfl, rfl, rfl⟩, ?_, fun _ hkey => Or.inl hkey, id⟩
      rw [AccountRecord.stats, AccountRecord.stats, hnone]
      exact ⟨rfl, rfl, rfl, fun _ => hrate⟩
    · simp only [pure_eq_ok, Prod.mk.injEq] at h
      exact h.2 ▸ .refl ..

theorem updateAccount_accountWrites (hp : s.currentState.IsPending)
    (hkeyed : s.currentState.flat.Keyed crypto) {accountId : ℤ} {publicData : Option ℕ}
    {activeKey : Option PublicKey} {payRate : ℕ}
    (h : s.updateAccount crypto accountId publicData activeKey payRate = .ok s') :
    Writes crypto (AccountStep crypto) s.currentState s'.currentState := by
  simp only [updateAccount, bind_eq_ok, orThrow_eq_ok, pure_eq_ok] at h
  obtain ⟨r, hr, -, -, r₁, hkey, ⟨s₁, r₂⟩, hpay, r₃, hset, rfl⟩ := h
  have hstate := (changePayRate_eq_ok activeKey hpay).1.currentState
  have hset' : s.currentState.Updates crypto { r₂ with lastUpdate := s₁.currentState.now } r₃ :=
    hstate ▸ setUpdatedKey_updates hset
  have hdata : s.currentState.Updates crypto r₁
      { r₁ with publicData := publicData.getD r₁.publicData } :=
    ⟨⟨rfl, rfl, rfl⟩, .refl _, fun _ hkey => Or.inl hkey, id⟩
  have htime : s.currentState.Updates crypto r₂ { r₂ with lastUpdate := s₁.currentState.now } :=
    ⟨⟨rfl, rfl, rfl⟩, .refl _, fun _ hkey => Or.inl hkey, id⟩
  have hall := ((changeActiveKey_updates hkey).trans hdata).trans
    ((changePayRate_updates s.currentState hpay).trans (htime.trans hset'))
  rw [ChainInterface.getAccountRecord_eq] at hr
  change Writes crypto _ _ (s₁.currentState.storeAccountRecord crypto r₃)
  rw [hstate, ChainInterface.storeAccountRecord_eq hp]
  refine .single (.updated ?_ hall)
  rw [hall.identity.id, hkeyed.accounts accountId r hr]
  exact hr

theorem registerAccount_accountWrites (hreg : Registry crypto s.currentState) {name : Name}
    {publicData : ℕ} {ownerKey activeKey : PublicKey} {payRate : ℕ} {metaData : Option ℕ}
    (h : s.registerAccount crypto name publicData ownerKey activeKey payRate metaData = .ok s') :
    Writes crypto (AccountStep crypto) s.currentState s'.currentState := by
  simp only [registerAccount, ChainInterface.newAccountId, ite_bind, bind_eq_ok, require_eq_ok,
    pure_eq_ok] at h
  obtain ⟨-, -, -, -, s₁, hfee, -, -, -, -, -, -, -, hfree, ⟨id, c⟩, ⟨last, hlast, hid⟩, r, hr,
    s₂, hpay, rfl⟩ := h
  obtain ⟨rfl, rfl⟩ := Prod.mk.injEq .. ▸ hid
  have hstate₁ := (requireFee_eq_ok hfee).currentState
  have hstate₂ : s₂.currentState =
      s₁.currentState.setProperty .lastAccountId (.int (last + 1)) := by
    rw [ite_eq_ok] at hpay
    rcases hpay with ⟨-, hpay⟩ | ⟨-, hpay⟩
    · exact (requireDelegateFee_eq_ok hpay).currentState
    · rw [pure_eq_ok] at hpay
      exact hpay ▸ rfl
  rw [hstate₁] at hlast hfree hstate₂
  obtain rfl := setActiveKey_eq_ok hr
  have hbelow : s.currentState.flat.accounts[last + 1]? = none := by
    cases hr' : s.currentState.flat.accounts[last + 1]? with
    | none => rfl
    | some r' =>
      have hle := hreg.below last (ChainInterface.lastAccountId_eq_ok.1 hlast) _ r' hr'
      omega
  change Writes crypto _ _ (s₂.currentState.storeAccountRecord crypto _)
  rw [hstate₂, ChainInterface.setProperty_eq crypto hreg.pending]
  have hp := (ChainInterface.sameBelow_write crypto s.currentState
    (.property .lastAccountId (.int (last + 1)))).pending hreg.pending
  rw [ChainInterface.storeAccountRecord_eq hp]
  refine .tail (.single (w := .property _ _) trivial)
    (.registered ?_ (Eq.refl [activeKey]) ?_ ?_)
  · rw [ChainInterface.flat_write hreg.pending]
    exact hbelow
  · rw [ChainInterface.takes_aside (w := .property .lastAccountId (.int (last + 1)))
      fun _ => ⟨nofun, nofun⟩]
    exact not_takes hfree
  · change DelegateStats.SameTerms {} ((if payRate ≤ 100 then some { payRate := payRate } else none
      : Option DelegateStats).getD {})
    split
    · rename_i hrate
      exact ⟨rfl, rfl, rfl, fun _ => hrate⟩
    · exact ⟨rfl, rfl, rfl, id⟩

/-- Statistics of a stored account are written, with the same terms. -/
theorem accountWrite_stats {c : ChainInterface} (hkeyed : c.flat.Keyed crypto) {id : ℤ}
    {r : AccountRecord} {info info' : DelegateStats} (hr : c.flat.accounts[id]? = some r)
    (hinfo : r.delegateInfo = some info) (hterms : info.SameTerms info') :
    AccountWrite crypto c { r with delegateInfo := some info' } := by
  refine .updated ?_ (ChainInterface.updates_stats crypto c hinfo hterms)
  change c.flat.accounts[r.id]? = some r
  rw [hkeyed.accounts id r hr]
  exact hr

theorem withdrawPay_accountWrites (hp : s.currentState.IsPending)
    (hkeyed : s.currentState.flat.Keyed crypto) {amount accountId : ℤ}
    (h : s.withdrawPay crypto amount accountId = .ok s') :
    Writes crypto (AccountStep crypto) s.currentState s'.currentState := by
  obtain ⟨s₁, r, info, hr, hinfo, -, -, hvotes, hwithdraws⟩ := withdrawPay_eq_ok h
  rw [ChainInterface.getAccountRecord_eq] at hr
  rw [hwithdraws.currentState]
  change Writes crypto _ _ (s₁.currentState.storeAccountRecord crypto _)
  rw [hvotes.currentState, ChainInterface.storeAccountRecord_eq hp]
  exact .single (accountWrite_stats hkeyed hr hinfo ⟨rfl, rfl, rfl, id⟩)

/-- **Step.** Every operation writes accounts in these ways. -/
theorem evaluateOperation_accountWrites {op : Operation} (hreg : Registry crypto s.currentState)
    (h : s.evaluateOperation crypto op = .ok s') :
    Writes crypto (AccountStep crypto) s.currentState s'.currentState := by
  have hother (hop : OnAccounts op = false) :
      Writes crypto (AccountStep crypto) s.currentState s'.currentState := by
    refine (evaluateOperation_kinds hreg.pending h).mono fun c w _ hw => ?_
    cases w with
    | account r | newAccount r => cases op <;> first | exact hw.elim | cases hop
    | _ => trivial
  cases op with
  | registerAccount => exact registerAccount_accountWrites hreg h
  | updateAccount => exact updateAccount_accountWrites hreg.pending hreg.keyed h
  | withdrawPay => exact withdrawPay_accountWrites hreg.pending hreg.keyed h
  | _ => exact hother rfl

/-- **Run.** The operations of a transaction, in any order. -/
theorem evaluateOperations_accountWrites {ops : List Operation}
    (hreg : Registry crypto s.currentState) (h : s.evaluateOperations crypto ops = .ok s') :
    Writes crypto (AccountStep crypto) s.currentState s'.currentState ∧
      Registry crypto s'.currentState := by
  refine foldlM_induction (P := fun s' : EvaluationState =>
    Writes crypto (AccountStep crypto) s.currentState s'.currentState ∧
      Registry crypto s'.currentState) ?_ ⟨.refl, hreg⟩ h
  rintro s₁ op s₂ - ⟨hwrites, hreg₁⟩ hop
  exact ⟨hwrites.trans (evaluateOperation_accountWrites hreg₁ hop),
    hreg₁.writes (evaluateOperation_writes hreg₁.pending hop)⟩

/-- The votes of a delegate are statistics. -/
theorem updateDelegateVotes_accountWrites (hreg : Registry crypto s.currentState)
    (h : s.updateDelegateVotes crypto = .ok s') :
    Writes crypto (AccountStep crypto) s.currentState s'.currentState := by
  have hall : Writes crypto (AccountStep crypto) s.currentState s'.currentState ∧
      s'.currentState.IsPending ∧ s'.currentState.flat.Keyed crypto := by
    refine foldlM_induction (P := fun s' : EvaluationState =>
      Writes crypto (AccountStep crypto) s.currentState s'.currentState ∧
        s'.currentState.IsPending ∧ s'.currentState.flat.Keyed crypto) ?_
      ⟨.refl, hreg.pending, hreg.keyed⟩ h
    rintro s₁ v s₂ - ⟨hwrites, hp, hkeyed⟩ hvote
    obtain ⟨-, hp₂, hkeyed₂⟩ := updateDelegateVote_done hp hkeyed hvote
    refine ⟨hwrites.trans ?_, hp₂, hkeyed₂⟩
    simp only [updateDelegateVote, AccountRecord.adjustVotesFor, bind_eq_ok, orThrow_eq_ok,
      pure_eq_ok] at hvote
    obtain ⟨r, hr, r', ⟨info, hinfo, rfl⟩, rfl⟩ := hvote
    rw [ChainInterface.getAccountRecord_eq] at hr
    change Writes crypto _ _ (s₁.currentState.storeAccountRecord crypto _)
    rw [ChainInterface.storeAccountRecord_eq hp]
    exact .single (accountWrite_stats hkeyed hr hinfo ⟨rfl, rfl, rfl, id⟩)
  exact hall.1

/-- Fees are assets. -/
theorem postEvaluate_accountWrites (hp : s.currentState.IsPending)
    (h : s.postEvaluate = .ok s') :
    Writes crypto (AccountStep crypto) s.currentState s'.currentState := by
  obtain ⟨s₀, hstate, -, hfees⟩ := postEvaluate_eq_ok h
  rw [← hstate] at hp ⊢
  refine foldlM_induction (P := fun s : EvaluationState =>
    Writes crypto (AccountStep crypto) s₀.currentState s.currentState) ?_ .refl hfees
  rintro s fee s₃ - hs hfee
  obtain ⟨-, ⟨-, rfl⟩ | ⟨r, -, -, rfl⟩⟩ := collectFee_eq_ok hfee
  · exact hs
  · change Writes crypto _ _ (s.currentState.storeAssetRecord _)
    rw [ChainInterface.storeAssetRecord_eq crypto (hs.isPending hp)]
    exact hs.tail trivial

/-- **Every transaction** writes accounts in these ways. -/
theorem evaluate_accountWrites {c : ChainInterface} {chainId : Digest} {trx : SignedTransaction}
    {skip canonical : Bool} (hreg : Registry crypto c)
    (h : evaluate crypto c chainId trx skip canonical = .ok s') :
    Writes crypto (AccountStep crypto) c s'.currentState := by
  obtain ⟨signedKeys, s₁, s₂, -, -, hops, hpost, hvotes⟩ := evaluate_eq_ok h
  obtain ⟨hwrites, hreg₁⟩ := evaluateOperations_accountWrites
    (s := initial c chainId trx skip signedKeys) hreg hops
  have hreg₂ := hreg₁.writes (postEvaluate_writes crypto trx.operations hreg₁.pending hpost)
  exact (hwrites.trans (postEvaluate_accountWrites hreg₁.pending hpost)).trans
    (updateDelegateVotes_accountWrites hreg₂ hvotes)

end EvaluationState

/-! ### Blocks -/

namespace ChainInterface

open EvaluationState (Registry)

variable {crypto : Crypto} {c c' : ChainInterface} {head : SignedBlockHeader} {b : FullBlock}
  {blockSignee : PublicKey}

/-- **The producer** is bound to the secret of its block. -/
theorem updateProducer_binds (h : Registry crypto c)
    (hrun : c.updateProducer crypto b blockSignee = .ok c') :
    ∃ signee r info, c.getDelegateRecordForSignee crypto blockSignee = .ok signee ∧
      c.getDelegate signee.id = .ok (r, info) ∧
      (info.blocksProduced = 0 ∨ crypto.secretHash b.previousSecret = info.nextSecretHash) ∧
      c' = (c.write crypto (.account { r with delegateInfo := some { info with
        blocksProduced := info.blocksProduced + 1
        nextSecretHash := b.nextSecretHash
        lastBlockNumProduced := b.blockNum } })).write crypto
          (.slot ⟨b.timestamp, signee.id, some (crypto.blockId b.toSignedBlockHeader)⟩) := by
  simp only [updateProducer, bind_eq_ok, require_eq_ok, pure_eq_ok] at hrun
  obtain ⟨signee, hsignee, ⟨r, info⟩, hr, -, hsecret, rfl⟩ := hrun
  refine ⟨signee, r, info, hsignee, hr, hsecret, ?_⟩
  rw [storeSlotRecord_eq crypto (retains_delegate h _ hr).registry.pending,
    storeAccountRecord_eq h.pending]

/-- Statistics of a delegate are written, with the same terms. -/
theorem storeDelegate_accountWrites (h : Registry crypto c) {id : ℤ} {r : AccountRecord}
    {info : DelegateStats} (info' : DelegateStats) (hr : c.getDelegate id = .ok (r, info))
    (hterms : info.SameTerms info') :
    Writes crypto (AccountStep crypto) c
      (c.storeAccountRecord crypto { r with delegateInfo := some info' }) := by
  obtain ⟨hold, hinfo⟩ := getDelegate_eq_ok hr
  rw [storeAccountRecord_eq h.pending]
  exact .single (EvaluationState.accountWrite_stats h.keyed hold hinfo hterms)

theorem updateMissedSlot_accountWrites (h : Registry crypto c) {active : List ℤ} {timestamp : ℕ}
    (hrun : c.updateMissedSlot crypto active timestamp = .ok c') :
    Writes crypto (AccountStep crypto) c c' := by
  simp only [updateMissedSlot, bind_eq_ok, pure_eq_ok] at hrun
  obtain ⟨signee, -, ⟨r, info⟩, hr, rfl⟩ := hrun
  rw [storeSlotRecord_eq crypto (retains_delegate h _ hr).registry.pending]
  exact (storeDelegate_accountWrites h { info with blocksMissed := info.blocksMissed + 1 } hr
    ⟨rfl, rfl, rfl, id⟩).tail trivial

theorem updateDelegateProductionInfo_accountWrites (h : Registry crypto c)
    (hrun : c.updateDelegateProductionInfo crypto head b blockSignee = .ok c') :
    ∃ c₁, c.updateProducer crypto b blockSignee = .ok c₁ ∧
      Writes crypto (AccountStep crypto) c₁ c' := by
  simp only [updateDelegateProductionInfo, bind_eq_ok, pure_eq_ok] at hrun
  obtain ⟨c₁, hproducer, _, -, required, -, active, -, c₂, hmissed, rfl⟩ := hrun
  obtain ⟨hreg, hwrites⟩ : Registry crypto c₂ ∧ Writes crypto (AccountStep crypto) c₁ c₂ := by
    refine foldlM_induction (P := fun c₂ => Registry crypto c₂ ∧
      Writes crypto (AccountStep crypto) c₁ c₂) (fun _ _ _ _ hc₁ hstep => ?_)
      ⟨(updateProducer_retains h hproducer).registry, .refl⟩ hmissed
    exact ⟨(updateMissedSlot_retains hc₁.1 hstep).registry,
      hc₁.2.trans (updateMissedSlot_accountWrites hc₁.1 hstep)⟩
  rw [setProperty_eq crypto hreg.pending]
  exact ⟨c₁, hproducer, hwrites.tail trivial⟩

theorem payDelegate_accountWrites (h : Registry crypto c)
    (hrun : c.payDelegate crypto blockSignee = .ok c') :
    Writes crypto (AccountStep crypto) c c' := by
  simp only [payDelegate, bind_eq_ok, orThrow_eq_ok, pure_eq_ok] at hrun
  obtain ⟨signee, -, ⟨r, info⟩, hr, _, -, maxAvailable, -, base, -, base', -, rfl⟩ := hrun
  rw [storeAssetRecord_eq crypto h.pending]
  have h₁ := retains_aside h (w := .asset { base with
    collectedFees := wrap64 (base.collectedFees - maxAvailable) }) rfl rfl rfl
  have hr₁ : (c.write crypto (.asset { base with
      collectedFees := wrap64 (base.collectedFees - maxAvailable) })).getDelegate signee.id =
        .ok (r, info) := by
    rw [getDelegate_write h.pending rfl]
    exact hr
  have hfirst : Writes crypto (AccountStep crypto) c (c.write crypto (.asset { base with
      collectedFees := wrap64 (base.collectedFees - maxAvailable) })) :=
    .single (w := .asset _) trivial
  rw [storeAssetRecord_eq crypto (retains_delegate h₁.registry _ hr₁).registry.pending]
  exact (hfirst.trans (storeDelegate_accountWrites h₁.registry { info with
    payBalance := wrap64 (info.payBalance + (info.payRate * maxAvailable).tdiv 100)
    votesFor := wrap64 (info.votesFor + (info.payRate * maxAvailable).tdiv 100) } hr₁
      ⟨rfl, rfl, rfl, id⟩)).tail trivial

theorem executeMarkets_accountWrites (h : Registry crypto c)
    (hrun : executeMarkets crypto c = .ok c') : Writes crypto (AccountStep crypto) c c' := by
  refine (executeMarkets_writes h.pending h.keyed hrun).mono fun c₁ w _ hw => ?_
  obtain ⟨pair, -, -, hw⟩ := hw
  cases hw <;> trivial

theorem applyTransactionsOf_accountWrites (h : Registry crypto c) {skip : Bool}
    (hrun : c.applyTransactionsOf crypto skip b = .ok c') :
    Writes crypto (AccountStep crypto) c c' := by
  have hall : Registry crypto c' ∧ Writes crypto (AccountStep crypto) c c' := by
    refine foldlM_induction (P := fun c' => Registry crypto c' ∧
      Writes crypto (AccountStep crypto) c c') (fun _ _ _ _ hc₁ hstep => ?_) ⟨h, .refl⟩ hrun
    refine ⟨(applyTransaction_retains hc₁.1 hstep).registry, hc₁.2.trans ?_⟩
    simp only [applyTransaction, bind_eq_ok] at hstep
    obtain ⟨s, heval, hstore⟩ := hstep
    have hreg := hc₁.1.writes (EvaluationState.evaluate_writes hc₁.1.pending heval)
    obtain ⟨chainId, -, rfl⟩ := storeTransaction_eq_ok hreg.pending hstore
    exact (EvaluationState.evaluate_accountWrites hc₁.1 heval).tail trivial
  exact hall.2

/-- **A block** credits its producer, and writes accounts in these ways only from then on. -/
theorem evaluateBlockChanges_accountWrites (h : Registry crypto c) {skip : Bool}
    (hrun : c.evaluateBlockChanges crypto head skip b blockSignee = .ok c') :
    ∃ c₁, c.updateProducer crypto b blockSignee = .ok c₁ ∧
      Writes crypto (AccountStep crypto) c₁ c' := by
  simp only [evaluateBlockChanges, bind_eq_ok] at hrun
  obtain ⟨c₁, hproduction, c₂, hpay, c₃, hmarkets, c₄, htransactions, c₅, hactive, hseed⟩ := hrun
  have h₁ := (updateDelegateProductionInfo_retains h hproduction).registry
  have h₂ := (payDelegate_retains h₁ hpay).registry
  have h₃ := (executeMarkets_retains h₂ hmarkets).registry
  have hp₄ := (applyTransactionsOf_retains h₃ htransactions).registry.pending
  obtain ⟨c₀, hproducer, hwrites⟩ := updateDelegateProductionInfo_accountWrites h hproduction
  have hrest := ((hwrites.trans (payDelegate_accountWrites h₁ hpay)).trans
    (executeMarkets_accountWrites h₂ hmarkets)).trans
      (applyTransactionsOf_accountWrites h₃ htransactions)
  have hlist : Writes crypto (AccountStep crypto) c₄ c₅ := by
    cases updateActiveDelegateList_reschedules hactive with
    | shuffled =>
      rw [setActiveDelegates, setProperty_eq crypto hp₄]
      exact .single (w := .property _ _) trivial
    | same => exact .refl
  simp only [updateRandomSeed, bind_eq_ok, pure_eq_ok] at hseed
  obtain ⟨seed, -, rfl⟩ := hseed
  rw [setProperty_eq crypto (hlist.isPending hp₄)]
  exact ⟨c₀, hproducer, (hrest.trans hlist).tail trivial⟩

end ChainInterface

end LarkX
