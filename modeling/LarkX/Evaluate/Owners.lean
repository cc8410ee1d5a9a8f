import LarkX.Evaluate.Kinds
import LarkX.Evaluate.Runs
import LarkX.Evaluate.Signed
import LarkX.Evaluate.Votes

/-!
# Who changes an account

With signature checking on, an operation changes the active key of an account only when its
owner key or a key of a parent account has signed, any other update of an account is signed by
one of its keys or of its parents, pay is only withdrawn with the active key, and an account
below another one is only registered with a signature of a parent (`OwnersStep`). A transaction
is a run of such steps (`OperationRun`), and what follows its last operation changes no key and
no pay (`accounts_authorised`).
-/

namespace LarkX

/-! ### The active key -/

/-- The active key after a key is set: that key, or the old one when an entry has a later
date. -/
theorem AccountRecord.activeKey_insert (r : AccountRecord) (now : ℕ) (key : PublicKey) :
    ({ r with activeKeyHistory := r.activeKeyHistory.insert now key } : AccountRecord).activeKey =
        key ∨
      ({ r with activeKeyHistory := r.activeKeyHistory.insert now key } :
        AccountRecord).activeKey = r.activeKey := by
  rw [activeKey, activeKey]
  rcases Table.getLast?_toList_insert r.activeKeyHistory now key with h | h
  · exact Or.inl (by rw [h])
  · exact Or.inr (by rw [h])

namespace EvaluationState

variable {crypto : Crypto} {s s' : EvaluationState}

/-! ### Operations on accounts -/

/-- The operation registers, updates or pays an account. -/
def OnAccounts : Operation → Bool
  | .registerAccount .. | .updateAccount .. | .withdrawPay .. => true
  | _ => false

/-- The other operations leave the accounts. -/
theorem evaluateOperation_accounts {op : Operation} (hp : s.currentState.IsPending)
    (hop : OnAccounts op = false) (h : s.evaluateOperation crypto op = .ok s') :
    s'.currentState.flat.accounts = s.currentState.flat.accounts := by
  refine evaluateOperation_frame Tables.accounts hp (fun t w hw => ?_) h
  cases w with
  | account r | newAccount r => cases op <;> first | exact hw.elim | cases hop
  | _ => rfl

/-- The active key is read from the history. -/
theorem activeKey_congr {r r' : AccountRecord} (h : r'.activeKeyHistory = r.activeKeyHistory) :
    r'.activeKey = r.activeKey := by
  rw [AccountRecord.activeKey, AccountRecord.activeKey, h]

/-- The second treatment of the key sets it, or leaves the active key. -/
theorem setUpdatedKey_activeKey {r r' : AccountRecord} {activeKey : Option PublicKey}
    (h : s.setUpdatedKey crypto r activeKey = .ok r') :
    r'.activeKey = r.activeKey ∨ activeKey = some r'.activeKey := by
  unfold setUpdatedKey at h
  split at h
  · rename_i key
    simp only [bind_eq_ok, pure_eq_ok] at h
    obtain ⟨r₁, hr₁, -, -, rfl⟩ := h
    rw [setActiveKey_eq_ok hr₁]
    rcases r.activeKey_insert s.currentState.now key with hkey | hkey
    · exact Or.inr (by rw [hkey])
    · exact Or.inl hkey
  · rw [pure_eq_ok] at h
    exact Or.inl (by rw [h])

section Checked

variable (hskip : s.skipSignatureCheck = false)

include hskip

/-- An update changes the active key only for the owner or a parent, and stores an account
that was not retracted. -/
theorem updateAccount_owned {accountId : ℤ} {publicData : Option ℕ}
    {activeKey : Option PublicKey} {payRate : ℕ}
    (h : s.updateAccount crypto accountId publicData activeKey payRate = .ok s') :
    ∃ r r' : AccountRecord, s.currentState.getAccountRecord accountId = some r ∧
      r.isRetracted = false ∧ SameIdentity r r' ∧ r'.payBalance = r.payBalance ∧
      (∃ a ∈ s.signedKeys, MayChange crypto s.currentState r a) ∧
      (r'.activeKey ≠ r.activeKey → crypto.keyAddress r.ownerKey ∈ s.signedKeys ∨
        ∃ a ∈ s.signedKeys, ParentKey crypto s.currentState r.name a) ∧
      s'.currentState = s.currentState.storeAccountRecord crypto r' := by
  simp only [updateAccount, bind_eq_ok, orThrow_eq_ok, require_eq_ok, pure_eq_ok] at h
  obtain ⟨r, hr, -, hretracted, r₁, hkey, ⟨s₁, r₂⟩, hpay, r₃, hset, rfl⟩ := h
  obtain ⟨hsame, hu₂⟩ := changePayRate_eq_ok activeKey hpay
  have hu₁ := changeActiveKey_eq_ok hkey
  have hu₃ := setUpdatedKey_eq_ok hset
  have hchange := changeActiveKey_spec hskip hkey
  refine ⟨r, r₃, hr, hretracted, ?_, ?_, hchange, fun hne => ?_, ?_⟩
  · have hdata : SameIdentity r₁ { r₁ with publicData := publicData.getD r₁.publicData } :=
      ⟨rfl, rfl, rfl⟩
    have htime : SameIdentity r₂ { r₂ with lastUpdate := s₁.currentState.now } := ⟨rfl, rfl, rfl⟩
    exact (hu₁.identity.trans hdata).trans (hu₂.identity.trans (htime.trans hu₃.identity))
  · rw [hu₃.payBalance]
    exact hu₂.payBalance.trans hu₁.payBalance
  · have hmiddle : r₂.activeKey = r₁.activeKey :=
      activeKey_congr ((changePayRate_eq_ok none hpay).2.keys rfl)
    have hlast : r₃.activeKey = r₂.activeKey ∨ activeKey = some r₃.activeKey := by
      have hupdated := setUpdatedKey_activeKey hset
      exact hupdated
    unfold changeActiveKey at hkey
    split at hkey
    · -- a key that differs from the current one needs the owner or a parent
      simp only [bind_eq_ok, require_eq_ok, checkSignature_iff hskip] at hkey
      obtain ⟨-, -, -, ha | hparent, -⟩ := hkey
      · exact Or.inl ha
      · exact Or.inr (anyParentHasSigned_spec hskip hparent)
    · -- any other key is the current one
      rename_i hfilter
      simp only [bind_eq_ok, pure_eq_ok] at hkey
      obtain ⟨-, -, rfl⟩ := hkey
      rcases hlast with hlast | hlast
      · exact absurd (hlast.trans hmiddle) hne
      · rw [hlast, Option.filter_some_pos (by simpa using hne)] at hfilter
        cases hfilter
  · change s₁.currentState.storeAccountRecord crypto r₃ = _
    rw [hsame.currentState]

/-- Pay is withdrawn with the active key, which stays. -/
theorem withdrawPay_owned {amount accountId : ℤ}
    (h : s.withdrawPay crypto amount accountId = .ok s') :
    ∃ r r' : AccountRecord, s.currentState.getAccountRecord |accountId| = some r ∧
      SameIdentity r r' ∧ r'.activeKey = r.activeKey ∧
      crypto.keyAddress r.activeKey ∈ s.signedKeys ∧
      s'.currentState = s.currentState.storeAccountRecord crypto r' := by
  simp only [withdrawPay, bind_eq_ok, require_eq_ok, orThrow_eq_ok, checkSignature_iff hskip] at h
  obtain ⟨-, -, r, hr, -, -, info, -, -, hsigned, -, -, h⟩ := h
  exact ⟨r, { r with
      delegateInfo := some { info with payBalance := wrap64 (info.payBalance - amount) } },
    hr, ⟨rfl, rfl, rfl⟩, activeKey_congr rfl, hsigned, (addBalance_eq_ok h).currentState⟩

end Checked

/-! ### The claim of the owners -/

/-- What the owners of accounts can rely on when an operation leads from one chain state to
another. -/
structure OwnersStep (crypto : Crypto) (signed : Address → Prop) (op : Operation)
    (c c' : ChainInterface) : Prop where
  /-- No account disappears. -/
  kept : ∀ id r, c.getAccountRecord id = some r → ∃ r', c'.getAccountRecord id = some r'
  /-- An active key changes only for the owner or a parent, while it is not retracted. -/
  activeKey : ∀ id r r', c.getAccountRecord id = some r → c'.getAccountRecord id = some r' →
    r'.activeKey ≠ r.activeKey → r.isRetracted = false ∧
      (signed (crypto.keyAddress r.ownerKey) ∨ ∃ a, signed a ∧ ParentKey crypto c r.name a)
  /-- An update is signed by a key of the account or of a parent. -/
  updated : ∀ id publicData activeKey payRate,
    op = .updateAccount id publicData activeKey payRate →
    ∃ r a, c.getAccountRecord id = some r ∧ signed a ∧ MayChange crypto c r a
  /-- No other account is changed by an update. -/
  others : ∀ id publicData activeKey payRate,
    op = .updateAccount id publicData activeKey payRate →
    ∀ id' ≠ id, c'.getAccountRecord id' = c.getAccountRecord id'
  /-- Pay leaves an account only with its active key. -/
  payBalance : ∀ id r r', c.getAccountRecord id = some r → c'.getAccountRecord id = some r' →
    r'.payBalance ≠ r.payBalance → signed (crypto.keyAddress r.activeKey)
  /-- An account below another one is registered by a parent. -/
  registered : ∀ id r', c.getAccountRecord id = none → c'.getAccountRecord id = some r' →
    getParentAccountName r'.name = none ∨ ∃ a, signed a ∧ ParentKey crypto c r'.name a

/-- What follows the last operation changes no key and no pay and registers nothing. -/
structure OwnersDone (c c' : ChainInterface) : Prop where
  same : ∀ id r, c.getAccountRecord id = some r → ∃ r', c'.getAccountRecord id = some r' ∧
    r'.activeKey = r.activeKey ∧ r'.payBalance = r.payBalance
  none : ∀ id, c.getAccountRecord id = none → c'.getAccountRecord id = none

/-- The accounts after one is stored. -/
theorem getAccountRecord_stored {c : ChainInterface} (hp : c.IsPending) (r : AccountRecord)
    (id : ℤ) : (c.storeAccountRecord crypto r).getAccountRecord id =
      if id = r.id then some r else c.getAccountRecord id := by
  rw [ChainInterface.getAccountRecord_eq, ChainInterface.getAccountRecord_eq,
    ChainInterface.storeAccountRecord_eq hp, ChainInterface.flat_write hp]
  exact Table.getElem?_insert ..

/-- An operation that leaves the accounts. -/
theorem ownersStep_same {signed : Address → Prop} {op : Operation} {c c' : ChainInterface}
    (hop : OnAccounts op = false)
    (hsame : ∀ id, c'.getAccountRecord id = c.getAccountRecord id) :
    OwnersStep crypto signed op c c' := by
  have hno {id : ℤ} {r r' : AccountRecord} (hr : c.getAccountRecord id = some r)
      (hr' : c'.getAccountRecord id = some r') : r' = r := by
    rw [hsame, hr] at hr'
    exact (Option.some.inj hr').symm
  refine ⟨fun id r hr => ⟨r, by rw [hsame, hr]⟩, fun id r r' hr hr' hne => ?_,
    fun id publicData activeKey payRate heq => ?_, fun id publicData activeKey payRate heq => ?_,
    fun id r r' hr hr' hne => ?_, fun id r' hr hr' => ?_⟩
  · exact absurd (by rw [hno hr hr']) hne
  · subst heq
    cases hop
  · subst heq
    cases hop
  · exact absurd (by rw [hno hr hr']) hne
  · rw [hsame, hr] at hr'
    cases hr'

/-- An operation that writes one account over. -/
theorem ownersStep_stored {signed : Address → Prop} {op : Operation} {c c' : ChainInterface}
    (hp : c.IsPending) {id : ℤ} {r r' : AccountRecord} (hr : c.getAccountRecord id = some r)
    (hid : r'.id = id) (hstate : c' = c.storeAccountRecord crypto r')
    (hkey : r'.activeKey ≠ r.activeKey → r.isRetracted = false ∧
      (signed (crypto.keyAddress r.ownerKey) ∨ ∃ a, signed a ∧ ParentKey crypto c r.name a))
    (hpay : r'.payBalance ≠ r.payBalance → signed (crypto.keyAddress r.activeKey))
    (hupdate : ∀ id' publicData activeKey payRate,
      op = .updateAccount id' publicData activeKey payRate →
        id' = id ∧ ∃ a, signed a ∧ MayChange crypto c r a) :
    OwnersStep crypto signed op c c' := by
  have hget (id' : ℤ) : c'.getAccountRecord id' =
      if id' = id then some r' else c.getAccountRecord id' := by
    rw [hstate, getAccountRecord_stored hp, hid]
  have hcases {id' : ℤ} {r₁ r₂ : AccountRecord} (h₁ : c.getAccountRecord id' = some r₁)
      (h₂ : c'.getAccountRecord id' = some r₂) : (r₁ = r ∧ r₂ = r') ∨ r₂ = r₁ := by
    rw [hget] at h₂
    split at h₂
    · rename_i hmine
      rw [hmine, hr] at h₁
      exact Or.inl ⟨(Option.some.inj h₁).symm, (Option.some.inj h₂).symm⟩
    · rw [h₁] at h₂
      exact Or.inr (Option.some.inj h₂).symm
  refine ⟨fun id' r₁ h₁ => ?_, fun id' r₁ r₂ h₁ h₂ hne => ?_,
    fun id' publicData activeKey payRate heq => ?_, fun id' publicData activeKey payRate heq => ?_,
    fun id' r₁ r₂ h₁ h₂ hne => ?_, fun id' r₂ h₁ h₂ => ?_⟩
  · rw [hget]
    split
    · exact ⟨r', rfl⟩
    · exact ⟨r₁, h₁⟩
  · rcases hcases h₁ h₂ with ⟨rfl, rfl⟩ | heq
    · exact hkey hne
    · exact absurd (by rw [heq]) hne
  · obtain ⟨rfl, a, ha, hchange⟩ := hupdate id' publicData activeKey payRate heq
    exact ⟨r, a, hr, ha, hchange⟩
  · intro id₂ hne
    obtain ⟨rfl, -⟩ := hupdate id' publicData activeKey payRate heq
    rw [hget, if_neg hne]
  · rcases hcases h₁ h₂ with ⟨rfl, rfl⟩ | heq
    · exact hpay hne
    · exact absurd (by rw [heq]) hne
  · rw [hget] at h₂
    split at h₂
    · rename_i hmine
      rw [hmine, hr] at h₁
      cases h₁
    · rw [h₁] at h₂
      cases h₂

/-- An operation that writes a new account. -/
theorem ownersStep_registered {signed : Address → Prop} {op : Operation} {c c' : ChainInterface}
    (r' : AccountRecord) (hnone : c.getAccountRecord r'.id = none)
    (hget : ∀ id, c'.getAccountRecord id = if id = r'.id then some r' else c.getAccountRecord id)
    (hupdate : ∀ id publicData activeKey payRate,
      op ≠ .updateAccount id publicData activeKey payRate)
    (hparent : getParentAccountName r'.name = none ∨
      ∃ a, signed a ∧ ParentKey crypto c r'.name a) :
    OwnersStep crypto signed op c c' := by
  have hold {id : ℤ} {r : AccountRecord} (hr : c.getAccountRecord id = some r) :
      c'.getAccountRecord id = some r := by
    rw [hget, if_neg, hr]
    rintro rfl
    rw [hnone] at hr
    cases hr
  refine ⟨fun id r hr => ⟨r, hold hr⟩, fun id r r' hr hr' hne => ?_,
    fun id publicData activeKey payRate heq => absurd heq (hupdate _ _ _ _),
    fun id publicData activeKey payRate heq => absurd heq (hupdate _ _ _ _),
    fun id r r' hr hr' hne => ?_, fun id r₂ hr hr₂ => ?_⟩
  · rw [hold hr] at hr'
    exact absurd (by rw [Option.some.inj hr']) hne
  · rw [hold hr] at hr'
    exact absurd (by rw [Option.some.inj hr']) hne
  · rw [hget] at hr₂
    split at hr₂
    · cases hr₂
      exact hparent
    · rw [hr] at hr₂
      cases hr₂

/-- **Step.** Every operation does only what the owners allow. -/
theorem evaluateOperation_owners (hskip : s.skipSignatureCheck = false)
    (hp : s.currentState.IsPending) (hkeyed : s.currentState.flat.Keyed crypto)
    (hbelow : s.currentState.flat.AccountsBelow) {op : Operation}
    (h : s.evaluateOperation crypto op = .ok s') :
    OwnersStep crypto (· ∈ s.signedKeys) op s.currentState s'.currentState := by
  have hauthorised := evaluateOperation_authorised hskip h
  have hown {id : ℤ} {r : AccountRecord} (hr : s.currentState.getAccountRecord id = some r) :
      r.id = id := by
    rw [ChainInterface.getAccountRecord_eq] at hr
    exact hkeyed.accounts id r hr
  cases op with
  | registerAccount name publicData ownerKey activeKey payRate metaData =>
    obtain ⟨last, r, hlast, -, hid, hname, -, -, -, -, hstate⟩ := registerAccount_eq_ok h
    rw [ChainInterface.setProperty_eq crypto hp] at hstate
    have hpending := (ChainInterface.sameBelow_write crypto s.currentState
      (.property .lastAccountId (.int (last + 1)))).pending hp
    have hlast' := ChainInterface.lastAccountId_eq_ok.1 hlast
    refine ownersStep_registered r ?_ (fun id => ?_)
      (fun _ _ _ _ heq => by cases heq) (hname ▸ hauthorised)
    · rw [ChainInterface.getAccountRecord_eq]
      cases hget : s.currentState.flat.accounts[r.id]? with
      | none => rfl
      | some old => exact absurd (hbelow last hlast' r.id old hget) (by omega)
    · rw [hstate, getAccountRecord_stored hpending, ChainInterface.getAccountRecord_eq,
        ChainInterface.getAccountRecord_eq, ChainInterface.flat_write hp]
      rfl
  | updateAccount accountId publicData activeKey payRate =>
    obtain ⟨r, r', hr, hretracted, hsame, hpay, ⟨a, ha, hchange⟩, hkey, hstate⟩ :=
      updateAccount_owned hskip h
    refine ownersStep_stored hp hr (hsame.id.trans (hown hr)) hstate
      (fun hne => ⟨hretracted, (hkey hne)⟩) (fun hne => absurd hpay hne) ?_
    intro id' publicData' activeKey' payRate' heq
    cases heq
    exact ⟨rfl, a, ha, hchange⟩
  | withdrawPay amount accountId =>
    obtain ⟨r, r', hr, hsame, hkey, hsigned, hstate⟩ := withdrawPay_owned hskip h
    exact ownersStep_stored hp hr (hsame.id.trans (hown hr)) hstate
      (fun hne => absurd hkey hne) (fun _ => hsigned) fun _ _ _ _ heq => by cases heq
  | _ =>
    refine ownersStep_same rfl fun id => ?_
    rw [ChainInterface.getAccountRecord_eq, ChainInterface.getAccountRecord_eq,
      evaluateOperation_accounts hp rfl h]

/-- More signatures allow more. -/
theorem OwnersStep.mono {signed signed' : Address → Prop} {op : Operation}
    {c c' : ChainInterface} (himp : ∀ a, signed a → signed' a)
    (h : OwnersStep crypto signed op c c') : OwnersStep crypto signed' op c c' := by
  have hparent {name : Name} (hp : ∃ a, signed a ∧ ParentKey crypto c name a) :
      ∃ a, signed' a ∧ ParentKey crypto c name a := by
    obtain ⟨a, ha, hkey⟩ := hp
    exact ⟨a, himp a ha, hkey⟩
  refine ⟨h.kept, fun id r r' hr hr' hne => ?_, fun id publicData activeKey payRate heq => ?_,
    h.others, fun id r r' hr hr' hne => himp _ (h.payBalance id r r' hr hr' hne),
    fun id r' hr hr' => (h.registered id r' hr hr').imp_right hparent⟩
  · obtain ⟨hretracted, hkey⟩ := h.activeKey id r r' hr hr' hne
    exact ⟨hretracted, hkey.imp (himp _) hparent⟩
  · obtain ⟨r, a, hr, ha, hchange⟩ := h.updated id publicData activeKey payRate heq
    exact ⟨r, a, hr, himp a ha, hchange⟩

/-! ### After the last operation -/

/-- The accounts before and after a change that keeps keys and pay. -/
theorem OwnersDone.of_accounts {c c' : ChainInterface}
    (h : c'.flat.accounts = c.flat.accounts) : OwnersDone c c' := by
  have hget (id : ℤ) : c'.getAccountRecord id = c.getAccountRecord id := by
    rw [ChainInterface.getAccountRecord_eq, ChainInterface.getAccountRecord_eq, h]
  refine ⟨fun id r hr => ⟨r, by rw [hget, hr], rfl, rfl⟩, fun id hr => ?_⟩
  rw [hget, hr]

theorem OwnersDone.trans {c₁ c₂ c₃ : ChainInterface} (h : OwnersDone c₁ c₂)
    (h' : OwnersDone c₂ c₃) : OwnersDone c₁ c₃ := by
  refine ⟨fun id r hr => ?_, fun id hr => h'.none id (h.none id hr)⟩
  obtain ⟨r₂, hr₂, hkey₂, hpay₂⟩ := h.same id r hr
  obtain ⟨r₃, hr₃, hkey₃, hpay₃⟩ := h'.same id r₂ hr₂
  exact ⟨r₃, hr₃, hkey₃.trans hkey₂, hpay₃.trans hpay₂⟩

/-- Votes move no key and no pay. -/
theorem updateDelegateVote_done {v : ℤ × ℤ} (hp : s.currentState.IsPending)
    (hkeyed : s.currentState.flat.Keyed crypto) (h : s.updateDelegateVote crypto v = .ok s') :
    OwnersDone s.currentState s'.currentState ∧ s'.currentState.IsPending ∧
      s'.currentState.flat.Keyed crypto := by
  obtain ⟨r, r', hr, hsame, hkeys, hpay, rfl⟩ := updateDelegateVote_eq_ok h
  have hid : r'.id = v.1 := by
    rw [ChainInterface.getAccountRecord_eq] at hr
    exact hsame.id.trans (hkeyed.accounts _ r hr)
  have hpending : (s.currentState.storeAccountRecord crypto r').IsPending := by
    rw [ChainInterface.storeAccountRecord_eq hp]
    exact (ChainInterface.sameBelow_write _ _ _).pending hp
  refine ⟨⟨fun id r₁ h₁ => ?_, fun id h₁ => ?_⟩, hpending, ?_⟩
  · change ∃ r₂, (s.currentState.storeAccountRecord crypto r').getAccountRecord id = some r₂ ∧ _
    rw [getAccountRecord_stored hp, hid]
    split
    · rename_i hmine
      rw [hmine, hr] at h₁
      cases h₁
      exact ⟨r', rfl, activeKey_congr hkeys, hpay⟩
    · exact ⟨r₁, h₁, rfl, rfl⟩
  · change (s.currentState.storeAccountRecord crypto r').getAccountRecord id = none
    rw [getAccountRecord_stored hp, hid, if_neg, h₁]
    rintro rfl
    rw [hr] at h₁
    cases h₁
  · change (s.currentState.storeAccountRecord crypto r').flat.Keyed crypto
    rw [ChainInterface.storeAccountRecord_eq hp, ChainInterface.flat_write hp]
    exact hkeyed.write _

/-- What follows the last operation. -/
theorem postEvaluate_done {s₁ s₂ : EvaluationState} (hp : s₁.currentState.IsPending)
    (hkeyed : s₁.currentState.flat.Keyed crypto) (hpost : s₁.postEvaluate = .ok s₂)
    (hvotes : s₂.updateDelegateVotes crypto = .ok s') :
    OwnersDone s₁.currentState s'.currentState := by
  have haside := aside_postEvaluate hp hpost
  have hkeyed₂ := (postEvaluate_writes crypto [] hp hpost).keyed hp hkeyed
  have hend : OwnersDone s₁.currentState s'.currentState ∧ s'.currentState.IsPending ∧
      s'.currentState.flat.Keyed crypto := by
    refine foldlM_induction (P := fun s : EvaluationState => OwnersDone s₁.currentState
      s.currentState ∧ s.currentState.IsPending ∧ s.currentState.flat.Keyed crypto) ?_
      ⟨.of_accounts haside.votes.accounts, haside.pending, hkeyed₂⟩ hvotes
    rintro s₃ delVote s₄ - ⟨hdone, hp₃, hkeyed₃⟩ hvote
    obtain ⟨hdone', hp₄, hkeyed₄⟩ := updateDelegateVote_done hp₃ hkeyed₃ hvote
    exact ⟨hdone.trans hdone', hp₄, hkeyed₄⟩
  exact hend.1

/-! ### Transactions -/

/-- **The owners were obeyed** in a transaction that leads to `s'`: it is a run of operations
each of which does only what the signatures on the transaction allow. -/
def OwnersObeyed (crypto : Crypto) (c : ChainInterface) (chainId : Digest)
    (trx : SignedTransaction) (canonical : Bool) (s' : EvaluationState) : Prop :=
  ∃ s, start crypto c chainId trx false canonical = .ok s ∧
    OperationRun crypto (fun s op s' => OwnersStep crypto
        (Signed crypto (crypto.transactionDigest trx.toTransaction chainId) canonical
          trx.signatures) op s.currentState s'.currentState)
      (fun s s' => OwnersDone s.currentState s'.currentState) s trx.operations s'

/-- The states an evaluation with signature checks goes through. -/
structure Checked (crypto : Crypto) (signedKeys : List Address) (s : EvaluationState) : Prop where
  skip : s.skipSignatureCheck = false
  keys : s.signedKeys = signedKeys
  pending : s.currentState.IsPending
  keyed : s.currentState.flat.Keyed crypto
  below : s.currentState.flat.AccountsBelow

theorem Checked.step {signedKeys : List Address} {op : Operation}
    (hs : Checked crypto signedKeys s) (h : s.evaluateOperation crypto op = .ok s') :
    Checked crypto signedKeys s' := by
  have hrequest := evaluateOperation_request h
  have hw := evaluateOperation_writes hs.pending h
  have hinv := hw.invariant (I := fun c => c.flat.Keyed crypto ∧ c.flat.AccountsBelow)
    (fun c w hp hc hw => ChainInterface.flat_write hp w ▸
      ⟨hc.1.write w, accountsBelow_write hc.1 hc.2 hw⟩) hs.pending ⟨hs.keyed, hs.below⟩
  exact ⟨hrequest.skipSignatureCheck.trans hs.skip, hrequest.signedKeys.trans hs.keys,
    hw.isPending hs.pending, hinv.1, hinv.2⟩

section Transactions

variable {c : ChainInterface} {chainId : Digest} {trx : SignedTransaction} {canonical : Bool}

/-- **Accounts change for their owners only.** A transaction that evaluates with signature
checking on obeys the owners of the accounts. -/
theorem accounts_authorised (hp : c.IsPending) (hkeyed : c.flat.Keyed crypto)
    (hbelow : c.flat.AccountsBelow)
    (h : evaluate crypto c chainId trx false canonical = .ok s') :
    OwnersObeyed crypto c chainId trx canonical s' := by
  obtain ⟨signedKeys, s₁, s₂, -, hkeys, hops, hpost, hvotes⟩ := evaluate_eq_ok h
  have hrecover := hkeys rfl
  refine ⟨initial c chainId trx false signedKeys, ?_, ?_⟩
  · simp only [start, ite_bind, bind_eq_ok]
    exact ⟨signedKeys, hrecover, rfl⟩
  · -- every address the evaluation takes as a signer has signed
    have hsigned := signed_of_mem hrecover
    refine operationRun_of (I := Checked crypto signedKeys) (fun s op s₃ hs hop => ?_)
      ⟨rfl, rfl, hp, hkeyed, hbelow⟩ hops
      fun hend => postEvaluate_done hend.pending hend.keyed hpost hvotes
    have hstep := evaluateOperation_owners hs.skip hs.pending hs.keyed hs.below hop
    rw [hs.keys] at hstep
    exact ⟨hstep.mono hsigned, hs.step hop⟩

end Transactions

/-! ### A parent that renews a key -/

/-- The history of one active key. -/
def keySince (now : ℕ) (key : PublicKey) : Table ℕ PublicKey :=
  (∅ : Table ℕ PublicKey).insert now key

/-- An account, an account below it, and the ids given out to them. -/
def families : ChainInterface :=
  let c := (ChainInterface.blank 100 1).write Crypto.transparent (.asset {})
  let c := c.write Crypto.transparent (.property .lastAccountId (.int 2))
  let c := c.write Crypto.transparent (.account
    { id := 1, name := ['b'], ownerKey := 2, activeKeyHistory := keySince 0 3 })
  c.write Crypto.transparent (.account
    { id := 2, name := ['a', '.', 'b'], ownerKey := 4, activeKeyHistory := keySince 0 5 })

/-- The parent sets the active key of the account below it. -/
def renewal : SignedTransaction :=
  { expiration := 200, operations := [.updateAccount 2 none (some 6) 255], signatures := [3] }

theorem renewal_authorised :
    ∃ s, evaluate Crypto.transparent families 0 renewal false false = .ok s ∧
      OwnersObeyed Crypto.transparent families 0 renewal false s := by
  obtain ⟨s, hs⟩ := exists_eq_ok (x := evaluate Crypto.transparent families 0 renewal
    false false) (by decide +kernel)
  have hready : ChainInterface.PendingKeyed Crypto.transparent families :=
    ((((ChainInterface.pendingKeyed_blank _ 100 1).write _).write _).write _).write _
  have hbelow : families.flat.AccountsBelow := by
    have hgiven : families.lastAccountId.toOption = some 2 := by decide +kernel
    have hids : ∀ e ∈ families.flat.accounts.toList, e.1 ≤ 2 := by decide +kernel
    intro last hlast id r hr
    rw [ChainInterface.lastAccountId_eq_ok.2 hlast] at hgiven
    cases hgiven
    exact hids (id, r) (Table.mem_toList.2 hr)
  exact ⟨s, hs, accounts_authorised hready.1 hready.2 hbelow hs⟩

end EvaluationState

end LarkX
