import LarkX.Evaluate.Claim
import LarkX.Evaluate.Request

/-!
# What the signatures of a transaction authorise

With signature checking on, an evaluation that returns has found a signature on the transaction
for everything an operation does in somebody's name: for the balance a withdrawal debits, for
the order that is placed or cancelled, for the account that is changed (`evaluate_authorised`).
With signature checking off nothing is asked for, and whatever is accepted with the check on is
accepted without it, with the same result (`evaluate_trusting`).
-/

namespace LarkX

namespace EvaluationState

variable {crypto : Crypto} {s s' : EvaluationState}

/-! ### Who signed -/

/-- A signature on the transaction belongs to a key that stands for the address. -/
def Signed (crypto : Crypto) (digest : Digest) (canonical : Bool) (signatures : List Signature)
    (a : Address) : Prop :=
  ∃ sig ∈ signatures, ∃ key, crypto.recover sig digest canonical = some key ∧
    a ∈ signatureAddresses crypto key

/-- The collected addresses are those that signed. -/
theorem signed_of_mem {digest : Digest} {canonical : Bool} {signatures : List Signature}
    {keys : List Address} (h : recoverSignedKeys crypto digest canonical signatures = .ok keys) :
    ∀ a ∈ keys, Signed crypto digest canonical signatures a := by
  refine foldlM_induction (P := fun keys => ∀ a ∈ keys, Signed crypto digest canonical signatures a)
    ?_ (fun a ha => absurd ha List.not_mem_nil) h
  intro keys sig keys' hsig hkeys hstep
  simp only [bind_eq_ok, orThrow_eq_ok, pure_eq_ok] at hstep
  obtain ⟨key, hkey, rfl⟩ := hstep
  intro a ha
  rcases List.mem_append.1 ha with ha | ha
  · exact hkeys a ha
  · exact ⟨sig, hsig, key, hkey, ha⟩

/-- Whoever has signed is among the collected addresses. -/
theorem mem_of_signed {digest : Digest} {canonical : Bool} {signatures : List Signature}
    {keys : List Address} (h : recoverSignedKeys crypto digest canonical signatures = .ok keys)
    {a : Address} (ha : Signed crypto digest canonical signatures a) : a ∈ keys := by
  obtain ⟨sig, hsig, key, hkey, hmem⟩ := ha
  -- an address stays once it is collected, and the signature in question adds this one
  have hcollected : ∀ (sigs : List Signature) (keys₀ : List Address),
      (sigs.foldlM (fun keys sig => do
        let key ← orThrow (crypto.recover sig digest canonical) (.assertion "public key recovery")
        return keys ++ signatureAddresses crypto key) keys₀ : Fallible (List Address)) = .ok keys →
      a ∈ keys₀ ∨ sig ∈ sigs → a ∈ keys := by
    intro sigs
    induction sigs with
    | nil =>
      rintro keys₀ hfold (hin | hin)
      · cases hfold
        exact hin
      · cases hin
    | cons sig₁ sigs ih =>
      intro keys₀ hfold hin
      simp only [List.foldlM_cons, bind_eq_ok, orThrow_eq_ok, pure_eq_ok] at hfold
      obtain ⟨keys₁, ⟨key₁, hkey₁, rfl⟩, hfold⟩ := hfold
      refine ih _ hfold ?_
      rcases hin with hin | hin
      · exact Or.inl (List.mem_append_left _ hin)
      · rcases List.mem_cons.1 hin with rfl | hin
        · rw [hkey] at hkey₁
          cases hkey₁
          exact Or.inl (List.mem_append_right _ hmem)
        · exact Or.inr hin
  exact hcollected signatures [] h (Or.inr hsig)

/-! ### Who may act -/

/-- The address of the active key or the owner key of an account. -/
def KeyOf (crypto : Crypto) (r : AccountRecord) (a : Address) : Prop :=
  a = crypto.keyAddress r.activeKey ∨ a = crypto.keyAddress r.ownerKey

/-- The address of a key of a parent account, which was not retracted. -/
def ParentKey (crypto : Crypto) (c : ChainInterface) (name : Name) (a : Address) : Prop :=
  ∃ (parent : Name) (r : AccountRecord), ('.' :: parent) <:+ name ∧
    c.getAccountRecordByName parent = some r ∧ r.isRetracted = false ∧ KeyOf crypto r a

/-- The addresses that may change an account: its own keys and those of its parents. -/
def MayChange (crypto : Crypto) (c : ChainInterface) (r : AccountRecord) (a : Address) : Prop :=
  KeyOf crypto r a ∨ ParentKey crypto c r.name a

/-- What an operation does in somebody's name is authorised by one of the addresses that
signed. A withdrawal may name, besides, a key that the owner has signed over the balance to. -/
def Authorised (crypto : Crypto) (signed : Address → Prop) (c : ChainInterface) :
    Operation → Prop
  | .withdraw id _ data => ∃ r owner, c.getBalanceRecord id = some r ∧
      r.condition.signatureOwner = .ok owner ∧
      match data with
      | .empty => signed owner
      | .withPts newKey ptsSignature => signed (crypto.keyAddress newKey) ∧
          ∃ chainId testKey, c.getProperty .chainId = .ok (.hash chainId) ∧
            crypto.recover ptsSignature (crypto.withdrawWithPtsDigest chainId newKey) true =
              some testKey ∧ owner ∈ withdrawWithPtsAddresses crypto testKey
      | .malformed => False
  | .claim _ _ source dest sig => signed (crypto.keyAddress dest) ∧
      ∃ key, crypto.recover sig (crypto.claimHash source dest) false = some key ∧
        crypto.ptsAddress key true source.version = source
  | .registerAccount name .. => getParentAccountName name = none ∨
      ∃ a, signed a ∧ ParentKey crypto c name a
  | .updateAccount id .. => ∃ r a, c.getAccountRecord id = some r ∧ signed a ∧
      MayChange crypto c r a
  | .withdrawPay _ id => ∃ r, c.getAccountRecord |id| = some r ∧
      signed (crypto.keyAddress r.activeKey)
  | .bid _ key | .ask _ key | .cover _ key _ => signed key.owner
  | .short amount key _ => amount < 0 → signed key.owner
  | .updateFeed feed _ => ∃ r, c.getAccountRecord feed.delegateId = some r ∧
      signed (crypto.keyAddress r.activeKey)
  | _ => True

/-- A larger set of signers authorises as much. -/
theorem Authorised.mono {signed signed' : Address → Prop} {c : ChainInterface}
    (hsub : ∀ a, signed a → signed' a) {op : Operation} (h : Authorised crypto signed c op) :
    Authorised crypto signed' c op := by
  cases op with
  | withdraw id amount data =>
    obtain ⟨r, owner, hr, howner, hdata⟩ := h
    refine ⟨r, owner, hr, howner, ?_⟩
    cases data with
    | empty => exact hsub owner hdata
    | withPts newKey sig => exact ⟨hsub _ hdata.1, hdata.2⟩
    | malformed => exact hdata
  | claim => exact ⟨hsub _ h.1, h.2⟩
  | registerAccount => exact h.imp_right fun ⟨a, ha, hparent⟩ => ⟨a, hsub a ha, hparent⟩
  | updateAccount =>
    obtain ⟨r, a, hr, ha, hchange⟩ := h
    exact ⟨r, a, hr, hsub a ha, hchange⟩
  | withdrawPay =>
    obtain ⟨r, hr, ha⟩ := h
    exact ⟨r, hr, hsub _ ha⟩
  | bid | ask | cover => exact hsub _ h
  | short => exact fun hneg => hsub _ (h hneg)
  | updateFeed =>
    obtain ⟨r, hr, ha⟩ := h
    exact ⟨r, hr, hsub _ ha⟩
  | deposit | burn | defineDelegateSlate | addCollateral | withdrawAll | removeCollateral
  | linkAccount | releaseEscrow | unknown => trivial

/-! ### The checks of the operations -/

section Checked

variable (hskip : s.skipSignatureCheck = false)

include hskip

theorem checkSignature_iff {a : Address} : s.checkSignature a = true ↔ a ∈ s.signedKeys := by
  rw [checkSignature, hskip, Bool.false_or, List.contains_iff_mem]

theorem parentHasSigned_spec {parent : Name} (h : parentHasSigned crypto s parent = true) :
    ∃ r, s.currentState.getAccountRecordByName parent = some r ∧ r.isRetracted = false ∧
      ∃ a ∈ s.signedKeys, KeyOf crypto r a := by
  unfold parentHasSigned at h
  split at h
  · rename_i r hr
    rw [Bool.and_eq_true, Bool.not_eq_true', Bool.or_eq_true, checkSignature_iff hskip,
      checkSignature_iff hskip] at h
    refine ⟨r, hr, h.1, ?_⟩
    rcases h.2 with ha | ha
    · exact ⟨_, ha, Or.inl rfl⟩
    · exact ⟨_, ha, Or.inr rfl⟩
  · cases h

/-- The parents are found from the front of the name. -/
theorem anyParentHasSigned_spec {name : Name} (h : anyParentHasSigned crypto s name = true) :
    ∃ a ∈ s.signedKeys, ParentKey crypto s.currentState name a := by
  induction name with
  | nil => cases h
  | cons c cs ih =>
    rw [anyParentHasSigned, Bool.or_eq_true, Bool.and_eq_true, beq_iff_eq] at h
    rcases h with ⟨rfl, hparent⟩ | hrest
    · obtain ⟨r, hr, hret, a, ha, hkey⟩ := parentHasSigned_spec hskip hparent
      exact ⟨a, ha, cs, r, List.suffix_refl _, hr, hret, hkey⟩
    · obtain ⟨a, ha, parent, r, hsuffix, hr, hret, hkey⟩ := ih hrest
      exact ⟨a, ha, parent, r, hsuffix.trans (List.suffix_cons c cs), hr, hret, hkey⟩

theorem accountOrAnyParentHasSigned_spec {r : AccountRecord}
    (h : s.accountOrAnyParentHasSigned crypto r = true) :
    ∃ a ∈ s.signedKeys, MayChange crypto s.currentState r a := by
  rw [accountOrAnyParentHasSigned, Bool.or_eq_true, Bool.and_eq_true, Bool.or_eq_true,
    checkSignature_iff hskip, checkSignature_iff hskip] at h
  rcases h with ⟨-, ha | ha⟩ | hparent
  · exact ⟨_, ha, Or.inl (Or.inl rfl)⟩
  · exact ⟨_, ha, Or.inl (Or.inr rfl)⟩
  · obtain ⟨a, ha, hkey⟩ := anyParentHasSigned_spec hskip hparent
    exact ⟨a, ha, Or.inr hkey⟩

theorem changeActiveKey_spec {r r' : AccountRecord} {activeKey : Option PublicKey}
    (h : s.changeActiveKey crypto r activeKey = .ok r') :
    ∃ a ∈ s.signedKeys, MayChange crypto s.currentState r a := by
  unfold changeActiveKey at h
  split at h
  · simp only [bind_eq_ok, require_eq_ok, checkSignature_iff hskip] at h
    obtain ⟨-, -, -, ha | hparent, -⟩ := h
    · exact ⟨_, ha, Or.inl (Or.inr rfl)⟩
    · obtain ⟨a, ha, hkey⟩ := anyParentHasSigned_spec hskip hparent
      exact ⟨a, ha, Or.inr hkey⟩
  · simp only [bind_eq_ok, require_eq_ok] at h
    obtain ⟨-, hsigned, -⟩ := h
    exact accountOrAnyParentHasSigned_spec hskip hsigned

theorem withdraw_authorised {id : BalanceId} {amount : ℤ} {data : ClaimInputData}
    (h : s.withdraw crypto id amount data = .ok s') :
    Authorised crypto (· ∈ s.signedKeys) s.currentState (.withdraw id amount data) := by
  simp only [withdraw, bind_eq_ok, orThrow_eq_ok] at h
  obtain ⟨-, -, r, hr, -, -, _, hcheck, -⟩ := h
  unfold checkWithdrawCondition at hcheck
  split at hcheck <;> simp only [bind_eq_ok, throw_eq_ok] at hcheck
  obtain ⟨owner, howner, hcheck⟩ := hcheck
  refine ⟨r, owner, hr, howner, ?_⟩
  cases data with
  | empty =>
    rw [require_eq_ok, checkSignature_iff hskip] at hcheck
    exact hcheck
  | malformed => cases hcheck
  | withPts newKey ptsSignature =>
    simp only [bind_eq_ok, require_eq_ok, orThrow_eq_ok, checkSignature_iff hskip] at hcheck
    obtain ⟨prop, hprop, chainId, hchain, testKey, hrecover, -, howns, hsigned⟩ := hcheck
    cases prop <;> simp only [Variant.asHash, throw_eq_ok, pure_eq_ok] at hchain
    subst hchain
    exact ⟨hsigned, _, testKey, hprop, hrecover, howns⟩

theorem claim_authorised {id : BalanceId} {amount : ℤ} {source : PtsAddress} {dest : PublicKey}
    {sig : Signature} (h : s.claim crypto id amount source dest sig = .ok s') :
    Authorised crypto (· ∈ s.signedKeys) s.currentState (.claim id amount source dest sig) := by
  have hbalance := claim_request h
  simp only [claim, validateClaimSignature, bind_eq_ok, orThrow_eq_ok, require_eq_ok,
    pure_eq_ok] at h
  obtain ⟨-, ⟨key, hkey, hsource⟩, r, -, s₁, -, -, hsigned, rfl⟩ := h
  rw [checkSignature_iff (hbalance.skipSignatureCheck.trans hskip), hbalance.signedKeys] at hsigned
  exact ⟨hsigned, key, hkey, hsource⟩

/-- **Step.** An operation that is evaluated is authorised by an address that signed. -/
theorem evaluateOperation_authorised {op : Operation}
    (h : s.evaluateOperation crypto op = .ok s') :
    Authorised crypto (· ∈ s.signedKeys) s.currentState op := by
  cases op with
  | withdraw => exact withdraw_authorised hskip h
  | claim => exact claim_authorised hskip h
  | registerAccount name =>
    simp only [evaluateOperation, registerAccount, bind_eq_ok, require_eq_ok] at h
    obtain ⟨-, -, -, -, s₁, hfee, -, -, -, -, -, hparent, -⟩ := h
    have hsame := requireFee_request hfee
    have hstate := (requireFee_eq_ok hfee).currentState
    refine hparent.imp_right fun hsigned => ?_
    obtain ⟨a, ha, hkey⟩ :=
      anyParentHasSigned_spec (hsame.skipSignatureCheck.trans hskip) hsigned
    exact ⟨a, hsame.signedKeys ▸ ha, hstate ▸ hkey⟩
  | updateAccount =>
    simp only [evaluateOperation, updateAccount, bind_eq_ok, orThrow_eq_ok] at h
    obtain ⟨r, hr, -, -, r₁, hkey, -⟩ := h
    obtain ⟨a, ha, hchange⟩ := changeActiveKey_spec hskip hkey
    exact ⟨r, a, hr, ha, hchange⟩
  | withdrawPay =>
    simp only [evaluateOperation, withdrawPay, bind_eq_ok, orThrow_eq_ok, require_eq_ok,
      checkSignature_iff hskip] at h
    obtain ⟨-, -, r, hr, -, -, info, -, -, hsigned, -⟩ := h
    exact ⟨r, hr, hsigned⟩
  | bid =>
    simp only [evaluateOperation, bid, bind_eq_ok, require_eq_ok, checkSignature_iff hskip] at h
    exact h.choose_spec.2.choose_spec.1
  | ask =>
    simp only [evaluateOperation, ask, bind_eq_ok, require_eq_ok, checkSignature_iff hskip] at h
    exact h.choose_spec.2.choose_spec.1
  | short amount key limit =>
    simp only [evaluateOperation, short, bind_eq_ok, orThrow_eq_ok, require_eq_ok,
      checkSignature_iff hskip] at h
    obtain ⟨-, -, -, -, -, -, -, -, r, -, -, -, -, -, -, hsigned, -⟩ := h
    exact fun hneg => hsigned.resolve_left (not_le.2 hneg)
  | cover =>
    simp only [evaluateOperation, cover, bind_eq_ok, require_eq_ok, checkSignature_iff hskip] at h
    obtain ⟨-, -, -, -, -, -, -, hsigned, -⟩ := h
    exact hsigned
  | updateFeed =>
    simp only [evaluateOperation, updateFeed, bind_eq_ok, orThrow_eq_ok, require_eq_ok,
      checkSignature_iff hskip] at h
    obtain ⟨-, -, -, -, r, hr, -, hsigned, -⟩ := h
    exact ⟨r, hr, hsigned⟩
  | deposit | burn | defineDelegateSlate | addCollateral | withdrawAll | removeCollateral
  | linkAccount | releaseEscrow | unknown => trivial

end Checked

/-! ### Without signature checking -/

/-- The same evaluation with signature checking off. -/
def trusting (s : EvaluationState) : EvaluationState :=
  { s with signedKeys := [], skipSignatureCheck := true }

/-- What the first program returns, the second returns as the trusting evaluation. -/
abbrev Trusts (x y : Fallible EvaluationState) : Prop :=
  Simulates (fun s t => t = s.trusting) x y

theorem checkSignature_trusting (s : EvaluationState) (a : Address) :
    s.trusting.checkSignature a = true :=
  rfl

theorem parentHasSigned_trusting {parent : Name} (h : parentHasSigned crypto s parent = true) :
    parentHasSigned crypto s.trusting parent = true := by
  have hsame : s.trusting.currentState.getAccountRecordByName parent =
      s.currentState.getAccountRecordByName parent := rfl
  unfold parentHasSigned at h ⊢
  rw [hsame]
  cases hr : s.currentState.getAccountRecordByName parent with
  | none =>
    rw [hr] at h
    cases h
  | some r =>
    simp only [hr, Bool.and_eq_true] at h
    rw [Bool.and_eq_true]
    exact ⟨h.1, rfl⟩

theorem anyParentHasSigned_trusting {name : Name} (h : anyParentHasSigned crypto s name = true) :
    anyParentHasSigned crypto s.trusting name = true := by
  induction name with
  | nil => cases h
  | cons c cs ih =>
    rw [anyParentHasSigned, Bool.or_eq_true, Bool.and_eq_true] at h ⊢
    exact h.imp (fun h => ⟨h.1, parentHasSigned_trusting h.2⟩) ih

theorem accountOrAnyParentHasSigned_trusting {r : AccountRecord}
    (h : s.accountOrAnyParentHasSigned crypto r = true) :
    s.trusting.accountOrAnyParentHasSigned crypto r = true := by
  rw [accountOrAnyParentHasSigned, Bool.or_eq_true, Bool.and_eq_true] at h ⊢
  exact h.imp (fun h => ⟨h.1, rfl⟩) anyParentHasSigned_trusting

/-! Bookkeeping. -/

theorem subBalance_trusting (id : BalanceId) (x : Asset) :
    Trusts (s.subBalance id x) (s.trusting.subBalance id x) := by
  unfold subBalance
  simp only [ite_bind]
  exact .bind_same fun _ _ => .bind_same fun _ _ => .pure rfl

theorem addBalance_trusting (x : Asset) : Trusts (s.addBalance x) (s.trusting.addBalance x) := by
  unfold addBalance
  exact .bind_same fun _ _ => .pure rfl

theorem requireFee_trusting (amount : ℤ) :
    Trusts (s.requireFee amount) (s.trusting.requireFee amount) := by
  unfold requireFee
  exact .bind_same fun _ _ => .pure rfl

theorem addNetVotes_trusting (id delta : ℤ) :
    s.trusting.addNetVotes id delta = (s.addNetVotes id delta).trusting :=
  rfl

theorem adjustVote_trusting (slateId : SlateId) (amount : ℤ) :
    Trusts (s.adjustVote slateId amount) (s.trusting.adjustVote slateId amount) := by
  have key : ∀ (slate : List ℤ) (s : EvaluationState),
      slate.foldl (fun s id => s.addNetVotes |id| amount) s.trusting =
        (slate.foldl (fun s id => s.addNetVotes |id| amount) s).trusting := by
    intro slate
    induction slate with
    | nil => exact fun _ => rfl
    | cons id slate ih => exact fun s => ih (s.addNetVotes |id| amount)
  unfold adjustVote
  exact .ite (fun _ => .bind_same fun slate _ => .pure (key slate s)) fun _ => .pure rfl

theorem adjustVote_if_trusting {p : Prop} [Decidable p] (slateId : SlateId) (amount : ℤ) :
    Trusts (if p then s.adjustVote slateId amount else pure s)
      (if p then s.trusting.adjustVote slateId amount else pure s.trusting) :=
  .ite (fun _ => adjustVote_trusting slateId amount) fun _ => .pure rfl

theorem moveOrderFunds_trusting (current : Option OrderRecord) (x : Asset) :
    Trusts (s.moveOrderFunds current x) (s.trusting.moveOrderFunds current x) := by
  unfold moveOrderFunds
  exact .bind_same fun _ _ => .ite
    (fun _ => .bind_same fun _ _ => .bind_same fun _ _ => addBalance_trusting _)
    fun _ => subBalance_trusting _ _

theorem payYield_trusting (r : BalanceRecord) :
    Simulates (fun p q => q = (p.1.trusting, p.2)) (s.payYield r) (s.trusting.payYield r) := by
  unfold payYield
  refine .bind_same fun asset _ => .ite (fun _ => .bind_same fun yield _ => ?_) fun _ => .pure rfl
  exact .ite (fun _ => .pure rfl) fun _ => .pure rfl

theorem requireDelegateFee_trusting (payRate : ℕ) :
    Trusts (s.requireDelegateFee payRate) (s.trusting.requireDelegateFee payRate) := by
  unfold requireDelegateFee
  exact .bind_same fun _ _ => requireFee_trusting _

theorem changePayRate_trusting (r : AccountRecord) (payRate : ℕ) :
    Simulates (fun p q => q = (p.1.trusting, p.2)) (s.changePayRate r payRate)
      (s.trusting.changePayRate r payRate) := by
  unfold changePayRate
  split
  · exact .bind_same fun _ _ => .bind_same fun _ _ => .pure rfl
  · refine .ite (fun _ => .bind (requireDelegateFee_trusting payRate) ?_) fun _ => .pure rfl
    rintro s₁ _ rfl
    exact .pure rfl

/-! Operations. -/

/-- A guard of the first program, which the second passes too. -/
theorem require_trusting {p q : Prop} [Decidable p] [Decidable q] {e : Error} (h : p → q) :
    Simulates (fun _ _ => True) (require p e : Fallible Unit) (require q e) :=
  fun _ ha => ⟨(), require_eq_ok.2 (h (require_eq_ok.1 ha)), trivial⟩

theorem checkWithdrawCondition_trusting (condition : WithdrawCondition) (data : ClaimInputData) :
    Simulates (fun _ _ => True) (s.checkWithdrawCondition crypto condition data)
      (s.trusting.checkWithdrawCondition crypto condition data) := by
  unfold checkWithdrawCondition
  split
  · refine .bind_same fun owner _ => ?_
    cases data with
    | empty => exact require_trusting fun _ => rfl
    | malformed => exact .throw
    | withPts newKey ptsSignature =>
      exact .bind_same fun _ _ => .bind_same fun _ _ => .bind_same fun _ _ => .bind_same fun _ _ =>
        require_trusting fun _ => rfl
  all_goals exact .throw

theorem changeActiveKey_trusting (r : AccountRecord) (activeKey : Option PublicKey) :
    Simulates Eq (s.changeActiveKey crypto r activeKey)
      (s.trusting.changeActiveKey crypto r activeKey) := by
  unfold changeActiveKey
  split
  · exact .bind_same fun _ _ => .bind (require_trusting fun _ => Or.inl rfl) fun _ _ _ =>
      .refl (fun _ => rfl) _
  · exact .bind (require_trusting accountOrAnyParentHasSigned_trusting) fun _ _ _ => .pure rfl

theorem withdraw_trusting (id : BalanceId) (amount : ℤ) (data : ClaimInputData) :
    Trusts (s.withdraw crypto id amount data) (s.trusting.withdraw crypto id amount data) := by
  unfold withdraw
  simp only [ite_bind]
  refine .bind_same fun _ _ => .bind_same fun r _ => .bind_same fun _ _ =>
    .bind (checkWithdrawCondition_trusting _ _) fun _ _ _ =>
    .bind (adjustVote_if_trusting _ _) ?_
  rintro s₁ _ rfl
  refine .bind (payYield_trusting _) ?_
  rintro ⟨s₂, r₂⟩ _ rfl
  exact addBalance_trusting (s := s₂.withState _) _

theorem deposit_trusting (amount : ℤ) (condition : WithdrawCondition) :
    Trusts (s.deposit crypto amount condition) (s.trusting.deposit crypto amount condition) := by
  unfold deposit
  simp only [ite_bind]
  refine .bind_same fun _ _ => .bind_same fun _ _ => .bind (subBalance_trusting _ _) ?_
  rintro s₁ _ rfl
  refine .bind (adjustVote_if_trusting _ _) ?_
  rintro s₂ _ rfl
  exact .pure rfl

theorem claim_trusting (id : BalanceId) (amount : ℤ) (source : PtsAddress) (dest : PublicKey)
    (sig : Signature) : Trusts (s.claim crypto id amount source dest sig)
      (s.trusting.claim crypto id amount source dest sig) := by
  unfold claim
  refine .bind_same fun _ _ => .bind_same fun r _ => .bind (R := fun s t => t = s.trusting) ?_ ?_
  · unfold withdrawClaimInput
    simp only [ite_bind]
    refine .bind_same fun _ _ => .bind (adjustVote_if_trusting _ _) ?_
    rintro s₁ _ rfl
    exact addBalance_trusting (s := s₁.withState _) _
  · rintro s₁ _ rfl
    exact .bind (require_trusting fun _ => rfl) fun _ _ _ => .pure rfl

theorem burn_trusting (amount : Asset) (accountId : ℤ) (message : List Char) :
    Trusts (s.burn amount accountId message) (s.trusting.burn amount accountId message) := by
  unfold burn
  refine .bind_same fun _ _ => .bind_same fun _ _ => .bind_same fun asset _ => .bind_same fun _ _ =>
    .bind (subBalance_trusting (s := s.withState _) _ _) ?_
  rintro s₁ _ rfl
  exact .bind_same fun _ _ => .pure rfl

theorem registerAccount_trusting (name : Name) (publicData : ℕ) (ownerKey activeKey : PublicKey)
    (payRate : ℕ) (metaData : Option ℕ) :
    Trusts (s.registerAccount crypto name publicData ownerKey activeKey payRate metaData)
      (s.trusting.registerAccount crypto name publicData ownerKey activeKey payRate metaData) := by
  unfold registerAccount
  simp only [ite_bind]
  refine .bind_same fun _ _ => .bind_same fun _ _ => .bind (requireFee_trusting _) ?_
  rintro s₁ _ rfl
  refine .bind_same fun _ _ => .bind_same fun _ _ =>
    .bind (require_trusting (Or.imp_right anyParentHasSigned_trusting)) fun _ _ _ =>
    .bind_same fun _ _ => .bind_same fun idc _ => .bind_same fun r _ => ?_
  refine .bind (R := fun s t => t = s.trusting) (.ite (fun _ => ?_) fun _ => .pure rfl) ?_
  · exact requireDelegateFee_trusting (s := s₁.withState _) _
  · rintro s₂ _ rfl
    exact .pure rfl

theorem updateAccount_trusting (accountId : ℤ) (publicData : Option ℕ)
    (activeKey : Option PublicKey) (payRate : ℕ) :
    Trusts (s.updateAccount crypto accountId publicData activeKey payRate)
      (s.trusting.updateAccount crypto accountId publicData activeKey payRate) := by
  unfold updateAccount
  refine .bind_same fun r _ => .bind_same fun _ _ => .bind (changeActiveKey_trusting _ _) ?_
  rintro r₁ _ rfl
  refine .bind (changePayRate_trusting _ _) ?_
  rintro ⟨s₂, r₂⟩ _ rfl
  exact .bind_same fun _ _ => .pure rfl

theorem withdrawPay_trusting (amount accountId : ℤ) :
    Trusts (s.withdrawPay crypto amount accountId)
      (s.trusting.withdrawPay crypto amount accountId) := by
  unfold withdrawPay
  exact .bind_same fun _ _ => .bind_same fun r _ => .bind_same fun _ _ => .bind_same fun info _ =>
    .bind (require_trusting fun _ => rfl) fun _ _ _ => .bind_same fun _ _ =>
    addBalance_trusting (s := (s.addNetVotes _ _).withState _) _

theorem defineDelegateSlate_trusting (slate : List ℤ) :
    Trusts (s.defineDelegateSlate crypto slate) (s.trusting.defineDelegateSlate crypto slate) := by
  have hsame : s.trusting.currentState.getDelegateSlate (crypto.slateId slate) =
      s.currentState.getDelegateSlate (crypto.slateId slate) := rfl
  unfold defineDelegateSlate
  dsimp only
  rw [hsame]
  refine .bind_same fun _ _ => ?_
  cases s.currentState.getDelegateSlate (crypto.slateId slate) with
  | some r => exact .pure rfl
  | none => exact .bind_same fun _ _ => .pure rfl

theorem bid_trusting (amount : ℤ) (key : MarketIndexKey) :
    Trusts (s.bid amount key) (s.trusting.bid amount key) := by
  unfold bid
  refine .bind_same fun _ _ => .bind (require_trusting fun _ => rfl) fun _ _ _ =>
    .bind_same fun _ _ => .bind (moveOrderFunds_trusting _ _) ?_
  rintro s₁ _ rfl
  exact .pure rfl

theorem ask_trusting (amount : ℤ) (key : MarketIndexKey) :
    Trusts (s.ask amount key) (s.trusting.ask amount key) := by
  unfold ask
  refine .bind_same fun _ _ => .bind (require_trusting fun _ => rfl) fun _ _ _ =>
    .bind_same fun _ _ => .bind (moveOrderFunds_trusting _ _) ?_
  rintro s₁ _ rfl
  exact .bind_same fun _ _ => .pure rfl

theorem short_trusting (amount : ℤ) (key : MarketIndexKey) (limit : Option Price) :
    Trusts (s.short amount key limit) (s.trusting.short amount key limit) := by
  unfold short
  refine .bind_same fun _ _ => .bind_same fun _ _ => .bind_same fun _ _ => .bind_same fun _ _ =>
    .bind_same fun r _ => .bind_same fun _ _ => .bind_same fun _ _ =>
    .bind (require_trusting fun _ => Or.inr rfl) fun _ _ _ => .bind (moveOrderFunds_trusting _ _) ?_
  rintro s₁ _ rfl
  exact .bind_same fun _ _ => .pure rfl

theorem cover_trusting (amount : ℤ) (key : MarketIndexKey) (newCoverPrice : Option Price) :
    Trusts (s.cover crypto amount key newCoverPrice)
      (s.trusting.cover crypto amount key newCoverPrice) := by
  unfold cover
  refine .bind_same fun _ _ => .bind_same fun _ _ => .bind_same fun _ _ =>
    .bind (require_trusting fun _ => rfl) fun _ _ _ => .bind (subBalance_trusting _ _) ?_
  rintro s₁ _ rfl
  refine .bind_same fun position _ => .bind_same fun asset _ => .bind_same fun owed _ =>
    .bind_same fun debt _ => .bind_same fun split _ => .bind_same fun _ _ => .bind_same fun _ _ =>
    .bind_same fun _ _ => .bind_same fun _ _ => .ite (fun _ => .bind_same fun _ _ => .pure rfl)
      fun _ => ?_
  exact addBalance_trusting (s := (s₁.withState _).withState _) _

theorem addCollateral_trusting (amount : ℤ) (key : MarketIndexKey) :
    Trusts (s.addCollateral amount key) (s.trusting.addCollateral amount key) := by
  unfold addCollateral
  refine .bind_same fun _ _ => .bind_same fun _ _ => .bind_same fun _ _ =>
    .bind (subBalance_trusting _ _) ?_
  rintro s₁ _ rfl
  exact .bind_same fun position _ => .bind_same fun _ _ => .pure rfl

theorem updateFeed_trusting (feed : FeedIndex) (value : FeedValue) :
    Trusts (s.updateFeed crypto feed value) (s.trusting.updateFeed crypto feed value) := by
  unfold updateFeed
  exact .bind_same fun _ _ => .bind_same fun _ _ => .bind_same fun r _ =>
    .bind (require_trusting fun _ => rfl) fun _ _ _ => .bind_same fun _ _ => .pure rfl

/-- **Step.** An operation that is evaluated is evaluated without signature checking, too. -/
theorem evaluateOperation_trusting (op : Operation) :
    Trusts (s.evaluateOperation crypto op) (s.trusting.evaluateOperation crypto op) := by
  cases op with
  | withdraw => exact withdraw_trusting _ _ _
  | deposit => exact deposit_trusting _ _
  | claim => exact claim_trusting _ _ _ _ _
  | burn => exact burn_trusting _ _ _
  | registerAccount => exact registerAccount_trusting _ _ _ _ _ _
  | updateAccount => exact updateAccount_trusting _ _ _ _
  | withdrawPay => exact withdrawPay_trusting _ _
  | defineDelegateSlate => exact defineDelegateSlate_trusting _
  | bid => exact bid_trusting _ _
  | ask => exact ask_trusting _ _
  | short => exact short_trusting _ _ _
  | cover => exact cover_trusting _ _ _
  | addCollateral => exact addCollateral_trusting _ _
  | updateFeed => exact updateFeed_trusting _ _
  | withdrawAll | removeCollateral | linkAccount | releaseEscrow | unknown => exact .throw

/-! The rest of the evaluation. -/

theorem addAltFee_trusting (fee : ℤ × ℤ) : Trusts (s.addAltFee fee) (s.trusting.addAltFee fee) := by
  unfold addAltFee
  refine .bind_same fun _ _ => .ite (fun _ => .pure rfl) fun _ => .bind_same fun r _ =>
    .ite (fun _ => .bind_same fun price _ => ?_) fun _ => .pure rfl
  cases price with
  | none => exact .pure rfl
  | some medianPrice => exact .bind_same fun _ _ => .bind_same fun _ _ => .pure rfl

theorem collectFee_trusting (fee : ℤ × ℤ) :
    Trusts (s.collectFee fee) (s.trusting.collectFee fee) := by
  unfold collectFee
  exact .bind_same fun _ _ => .ite (fun _ => .bind_same fun _ _ => .pure rfl) fun _ => .pure rfl

theorem postEvaluate_trusting : Trusts s.postEvaluate s.trusting.postEvaluate := by
  unfold postEvaluate
  refine .bind (R := fun s t => t = s.trusting) (.foldlM ?_ rfl) ?_
  · rintro s₁ _ fee - rfl
    exact addAltFee_trusting fee
  · rintro s₁ _ rfl
    refine .foldlM ?_ rfl
    rintro s₂ _ fee - rfl
    exact collectFee_trusting fee

theorem updateDelegateVotes_trusting :
    Trusts (s.updateDelegateVotes crypto) (s.trusting.updateDelegateVotes crypto) := by
  refine .foldlM ?_ rfl
  rintro s₁ _ delVote - rfl
  unfold updateDelegateVote
  exact .bind_same fun _ _ => .bind_same fun _ _ => .pure rfl

/-- **Whatever evaluates with signature checking on evaluates with it off**, with the same
result. -/
theorem evaluate_trusting (c : ChainInterface) (chainId : Digest) (trx : SignedTransaction)
    (canonical : Bool) : Trusts (evaluate crypto c chainId trx false canonical)
      (evaluate crypto c chainId trx true canonical) := by
  unfold evaluate
  simp only [Bool.false_eq_true, if_false, if_true, pure_bind]
  refine .bind_same fun _ _ => ?_
  intro s' hs'
  obtain ⟨signedKeys, -, hrest⟩ := bind_eq_ok.1 hs'
  refine Simulates.bind (R := fun s t => t = s.trusting) (Q := fun s t => t = s.trusting)
    ?_ ?_ s' hrest
  · refine .foldlM ?_ rfl
    rintro s₁ _ op - rfl
    exact evaluateOperation_trusting op
  · rintro s₁ _ rfl
    refine .bind postEvaluate_trusting ?_
    rintro s₂ _ rfl
    exact .bind_same fun _ _ => updateDelegateVotes_trusting

end EvaluationState

end LarkX
