import LarkX.Evaluate.Kinds
import LarkX.Evaluate.Runs

/-!
# The supply of an asset

Burns and covers take an amount off `current_share_supply` (`taken`), and no other operation
touches it. The subtraction is one of 64-bit values, and a burn of an asset other than the base
asset may name a negative amount: taken off, it adds to the supply and to the running balance
of the transaction. A transaction issues nothing (`IssuesNothing`) exactly when what it takes off
leaves no more than there was (`issuesNothing_iff`).
-/

namespace LarkX

namespace EvaluationState

variable {crypto : Crypto} {s s' : EvaluationState}

/-! ### What operations take off -/

/-- The supply of an asset in the state of an evaluation. -/
def supply (s : EvaluationState) (a : ℤ) : ℤ :=
  s.currentState.flat.currentShareSupply a

/-- The principal that a cover pays off its position. -/
def principalPaid (crypto : Crypto) (s : EvaluationState) (amount : ℤ) (key : MarketIndexKey) :
    ℤ :=
  match s.currentState.getCollateralRecord key with
  | some position =>
    match coverage crypto s.currentState.now amount key position with
    | .ok (principal, _) => principal.amount
    | .error _ => 0
  | none => 0

/-- The amount that an operation takes off the supply of an asset. -/
def taken (crypto : Crypto) (s : EvaluationState) : Operation → ℤ → ℤ
  | .burn amount _ _ _, a => if a = amount.assetId then amount.amount else 0
  | .cover amount key _, a =>
    if a = key.orderPrice.quoteAssetId then s.principalPaid crypto amount key else 0
  | _, _ => 0

/-- The amount that operations take off, each in the state it is evaluated in. -/
def takenByAll (crypto : Crypto) (s : EvaluationState) : List Operation → ℤ → ℤ
  | [], _ => 0
  | op :: ops, a => s.taken crypto op a +
    match s.evaluateOperation crypto op with
    | .ok s₁ => s₁.takenByAll crypto ops a
    | .error _ => 0

/-- Writes that are not to an asset leave the supplies. -/
theorem supply_of_assets (h : s'.currentState.flat.assets = s.currentState.flat.assets) (a : ℤ) :
    s'.supply a = s.supply a := by
  rw [supply, supply, Tables.currentShareSupply, Tables.currentShareSupply, h]

/-- An asset record that is stored has a new supply. -/
theorem supply_storeAssetRecord {c : ChainInterface} (hp : c.IsPending)
    (hkeyed : c.flat.Keyed crypto) {id : ℤ} {r r' : AssetRecord} (hr : c.getAssetRecord id = some r)
    (hid : r'.id = r.id) (a : ℤ) : (c.storeAssetRecord r').flat.currentShareSupply a =
      if a = id then r'.currentShareSupply else c.flat.currentShareSupply a := by
  rw [ChainInterface.getAssetRecord_eq] at hr
  rw [ChainInterface.storeAssetRecord_eq crypto hp, ChainInterface.flat_write hp,
    Tables.currentShareSupply_write_asset, hid, hkeyed.assets id r hr]

/-- The supply that a stored record names. -/
theorem supply_of_record {id : ℤ} {r : AssetRecord}
    (hr : s.currentState.getAssetRecord id = some r) : s.supply id = r.currentShareSupply := by
  rw [ChainInterface.getAssetRecord_eq] at hr
  rw [supply, Tables.currentShareSupply, hr]
  rfl

/-- The operation does not write an asset. -/
def SparesAssets : Operation → Bool
  | .withdraw .. | .burn .. | .cover .. => false
  | _ => true

/-- Most operations leave the assets as they are. -/
theorem evaluateOperation_assets {op : Operation} (hp : s.currentState.IsPending)
    (hop : SparesAssets op = true) (h : s.evaluateOperation crypto op = .ok s') :
    s'.currentState.flat.assets = s.currentState.flat.assets := by
  refine evaluateOperation_frame Tables.assets hp (fun t w hw => ?_) h
  cases w with
  | asset r => cases op <;> first | exact hw.elim | cases hop
  | _ => rfl

/-! ### The operations that write an asset -/

/-- A withdrawal may pay a yield out of the fees, and leaves the supplies. -/
theorem withdraw_supply {id : BalanceId} {amount : ℤ} {data : ClaimInputData}
    (hp : s.currentState.IsPending) (hkeyed : s.currentState.flat.Keyed crypto)
    (h : s.withdraw crypto id amount data = .ok s') (a : ℤ) : s'.supply a = s.supply a := by
  obtain ⟨s₁, s₂, r, r₁, r', -, -, -, hvotes, hyield, -, -, -, hwithdraws⟩ := withdraw_eq_ok h
  have hstart : s₁.supply a = s.supply a := by rw [supply, supply, hvotes.currentState]
  rw [← hvotes.currentState] at hp hkeyed
  have hp₂ := (payYield_writes crypto (.withdraw id amount data) hp hyield).isPending hp
  have hyielded : s₂.supply a = s₁.supply a := by
    rcases payYield_eq_ok hyield with ⟨rfl, -⟩ | ⟨asset, y, hasset, -, -, -, rfl, -, -, -⟩
    · rfl
    · change (s₁.currentState.storeAssetRecord _).flat.currentShareSupply a = _
      refine (supply_storeAssetRecord hp hkeyed hasset (by rfl) a).trans ?_
      split
      · rename_i ha
        rw [ha, supply_of_record hasset]
      · rfl
  rw [← hstart, ← hyielded]
  refine supply_of_assets ?_ a
  rw [hwithdraws.currentState]
  change (s₂.currentState.storeBalanceRecord crypto r').flat.assets = _
  rw [ChainInterface.storeBalanceRecord_eq hp₂, ChainInterface.flat_write hp₂]
  rfl

/-- A burn takes its amount off the supply and off the running balance of its asset. -/
theorem burn_supply {amount : Asset} {accountId : ℤ} {message : List Char}
    (hp : s.currentState.IsPending) (hkeyed : s.currentState.flat.Keyed crypto)
    (h : s.burn amount accountId message = .ok s') (a : ℤ) :
    s'.supply a = (if a = amount.assetId then wrap64 (s.supply a - amount.amount)
        else s.supply a) ∧
      s'.balanceOf a = if a = amount.assetId then wrap64 (s.balanceOf a - amount.amount)
        else s.balanceOf a := by
  simp only [burn, bind_eq_ok, require_eq_ok, orThrow_eq_ok, pure_eq_ok] at h
  obtain ⟨-, -, -, -, asset, hasset, -, -, s₁, hsub, -, -, rfl⟩ := h
  constructor
  · rw [supply, (subBalance_eq_ok hsub).currentState]
    change (s.currentState.storeAssetRecord _).flat.currentShareSupply a = _
    refine (supply_storeAssetRecord hp hkeyed hasset (by rfl) a).trans ?_
    split
    · rename_i ha
      rw [ha, supply_of_record hasset]
    · rfl
  · simp only [subBalance, ite_bind, bind_eq_ok, pure_eq_ok] at hsub
    obtain ⟨provided, -, deposits, -, rfl⟩ := hsub
    refine (balanceOf_insert _ amount.assetId _ a).trans ?_
    split
    · rename_i ha
      rw [ha]
      rfl
    · rfl

/-- A cover takes the principal that it pays off the supply of the asset that was borrowed. -/
theorem cover_supply {amount : ℤ} {key : MarketIndexKey} {newCoverPrice : Option Price}
    (hp : s.currentState.IsPending) (hkeyed : s.currentState.flat.Keyed crypto)
    (h : s.cover crypto amount key newCoverPrice = .ok s') (a : ℤ) :
    s'.supply a = if a = key.orderPrice.quoteAssetId
      then wrap64 (s.supply a - s.principalPaid crypto amount key) else s.supply a := by
  obtain ⟨position', principal', interest', hposition', hcoverage, -⟩ := cover_moves hp h
  have hpaid : s.principalPaid crypto amount key = principal'.amount := by
    rw [principalPaid, hposition']
    dsimp only
    rw [hcoverage]
  simp only [cover, bind_eq_ok, require_eq_ok, orThrow_eq_ok] at h
  obtain ⟨-, -, -, -, -, -, -, -, s₁, hsub, position, hposition, asset, hasset, owed, howed,
    debt, hdebt, ⟨principal, interest⟩, hsplit, -, -, -, -, -, -, -, -, h⟩ := h
  have hd := subBalance_eq_ok hsub
  -- the principal that is paid is the one the position determines
  have hsame : principal = principal' := by
    rw [hd.currentState, hposition'] at hposition
    cases hposition
    have hcoverage₁ : coverage crypto s₁.currentState.now amount key position' =
        .ok (principal, interest) := by
      simp only [coverage, bind_eq_ok]
      exact ⟨owed, howed, debt, hdebt, hsplit⟩
    rw [hd.currentState, hcoverage] at hcoverage₁
    cases hcoverage₁
    rfl
  have hp₁ : s₁.currentState.IsPending := hd.currentState ▸ hp
  have hkeyed₁ : s₁.currentState.flat.Keyed crypto := hd.currentState ▸ hkeyed
  set asset' : AssetRecord := { asset with
    currentShareSupply := wrap64 (asset.currentShareSupply - principal.amount)
    collectedFees := wrap64 (asset.collectedFees + interest.amount) } with hasset'
  have hp₂ : (s₁.currentState.storeAssetRecord asset').IsPending := by
    rw [ChainInterface.storeAssetRecord_eq crypto hp₁]
    exact (ChainInterface.sameBelow_write _ _ _).pending hp₁
  have hstore (c : ChainInterface) (hc : c.IsPending) (k : MarketIndexKey) (r : CollateralRecord) :
      (c.storeCollateralRecord k r).IsPending ∧
        (c.storeCollateralRecord k r).flat.assets = c.flat.assets := by
    rw [ChainInterface.storeCollateralRecord_eq crypto hc, ChainInterface.flat_write hc]
    exact ⟨(ChainInterface.sameBelow_write _ _ _).pending hc, rfl⟩
  have hend : s'.currentState.flat.assets =
      (s₁.currentState.storeAssetRecord asset').flat.assets := by
    obtain ⟨hp₃, hcleared⟩ := hstore _ hp₂ key {}
    rw [ite_eq_ok] at h
    rcases h with ⟨-, h⟩ | ⟨-, h⟩
    · simp only [bind_eq_ok, pure_eq_ok] at h
      obtain ⟨_, -, rfl⟩ := h
      exact (hstore _ hp₃ _ _).2.trans hcleared
    · rw [(addBalance_eq_ok h).currentState]
      exact hcleared
  rw [supply, Tables.currentShareSupply, hend]
  change (s₁.currentState.storeAssetRecord asset').flat.currentShareSupply a = _
  rw [supply_storeAssetRecord hp₁ hkeyed₁ hasset (show asset'.id = asset.id from rfl), hpaid,
    ← hsame]
  split
  · rename_i ha
    rw [hasset', ha, ← supply_of_record hasset, supply, supply, hd.currentState]
  · rw [supply, hd.currentState]

/-! ### One operation -/

/-- What an evaluation keeps: a pending state, records under their own keys, and supplies that
are 64-bit values. -/
structure Supplied (crypto : Crypto) (s : EvaluationState) : Prop where
  pending : s.currentState.IsPending
  keyed : s.currentState.flat.Keyed crypto
  range : ∀ a, IsInt64 (s.supply a)

/-- **Step.** An operation takes off the supply of an asset what it says. -/
theorem evaluateOperation_supply {op : Operation} (hs : Supplied crypto s)
    (h : s.evaluateOperation crypto op = .ok s') (a : ℤ) :
    s'.supply a = wrap64 (s.supply a - s.taken crypto op a) := by
  have hnone (hsame : s'.supply a = s.supply a) : s'.supply a = wrap64 (s.supply a - 0) := by
    rw [sub_zero, wrap64_eq_self (hs.range a), hsame]
  cases op with
  | withdraw => exact hnone (withdraw_supply hs.pending hs.keyed h a)
  | burn amount accountId message sig =>
    rw [(burn_supply hs.pending hs.keyed h a).1, taken]
    split
    · rfl
    · rw [sub_zero, wrap64_eq_self (hs.range a)]
  | cover amount key newCoverPrice =>
    rw [cover_supply hs.pending hs.keyed h a, taken]
    split
    · rfl
    · rw [sub_zero, wrap64_eq_self (hs.range a)]
  | _ => exact hnone (supply_of_assets (evaluateOperation_assets hs.pending rfl h) a)

theorem Supplied.step {op : Operation} (hs : Supplied crypto s)
    (h : s.evaluateOperation crypto op = .ok s') : Supplied crypto s' := by
  have hw := evaluateOperation_writes hs.pending h
  refine ⟨hw.isPending hs.pending, hw.keyed hs.pending hs.keyed, fun a => ?_⟩
  rw [evaluateOperation_supply hs h]
  exact isInt64_wrap64 _

/-- **Run.** Operations take off the supply of an asset what each of them does. -/
theorem evaluateOperations_supply {ops : List Operation} (hs : Supplied crypto s)
    (h : s.evaluateOperations crypto ops = .ok s') (a : ℤ) :
    s'.supply a = wrap64 (s.supply a - s.takenByAll crypto ops a) := by
  induction ops generalizing s with
  | nil =>
    cases h
    rw [takenByAll, sub_zero, wrap64_eq_self (hs.range a)]
  | cons op ops ih =>
    rw [evaluateOperations, List.foldlM_cons, bind_eq_ok] at h
    obtain ⟨s₁, hop, h⟩ := h
    rw [ih (hs.step hop) h, evaluateOperation_supply hs hop, wrap64_wrap64_sub, takenByAll, hop,
      sub_sub]

/-- What follows the last operation leaves the supplies. -/
theorem postEvaluate_supply {s₁ s₂ : EvaluationState} (hs : Supplied crypto s₁)
    (hpost : s₁.postEvaluate = .ok s₂) (hvotes : s₂.updateDelegateVotes crypto = .ok s') (a : ℤ) :
    s'.supply a = s₁.supply a := by
  have hp₂ := (postEvaluate_writes crypto [] hs.pending hpost).isPending hs.pending
  have hsupply : s₂.supply a = s₁.supply a :=
    (postEvaluate_spec hs.pending hs.keyed hpost a).2.1
  have hend : s'.currentState.IsPending ∧ s'.supply a = s₁.supply a := by
    refine foldlM_induction (P := fun s : EvaluationState => s.currentState.IsPending ∧
      s.supply a = s₁.supply a) ?_ ⟨hp₂, hsupply⟩ hvotes
    rintro s₃ delVote s₄ - ⟨hp₃, hs₃⟩ hvote
    obtain ⟨r, r', -, -, -, -, rfl⟩ := updateDelegateVote_eq_ok hvote
    rw [← hs₃]
    change (s₃.currentState.storeAccountRecord crypto r').IsPending ∧
      (s₃.currentState.storeAccountRecord crypto r').flat.currentShareSupply a = _
    rw [ChainInterface.storeAccountRecord_eq hp₃, ChainInterface.flat_write hp₃]
    exact ⟨(ChainInterface.sameBelow_write _ _ _).pending hp₃, rfl⟩
  exact hend.2

/-! ### Transactions -/

/-- A burn raises no supply and no running balance. -/
def BurnLowers (s : EvaluationState) : Operation → EvaluationState → Prop
  | .burn .., s' => ∀ a, s'.supply a ≤ s.supply a ∧ s'.balanceOf a ≤ s.balanceOf a
  | _, _ => True

/-- The condition on a burn: as an unsigned value its amount is no more than lies between the
least 64-bit value and the supply, and no more than lies between it and the running balance. -/
def BurnFits (s : EvaluationState) : Operation → Prop
  | .burn amount _ _ _ =>
    amount.amount % 18446744073709551616 ≤ s.supply amount.assetId - int64Min ∧
      amount.amount % 18446744073709551616 ≤ s.balanceOf amount.assetId - int64Min
  | _ => True

theorem burnLowers_iff {op : Operation} (hs : Supplied crypto s)
    (h : s.evaluateOperation crypto op = .ok s') : BurnLowers s op s' ↔ BurnFits s op := by
  cases op with
  | burn amount accountId message sig =>
    have hburn := burn_supply hs.pending hs.keyed h
    rw [BurnLowers, BurnFits, ← wrap64_sub_le_iff, ← wrap64_sub_le_iff]
    constructor
    · intro hlowers
      have hasset := hlowers amount.assetId
      rwa [(hburn _).1, (hburn _).2, if_pos rfl, if_pos rfl] at hasset
    · intro hfits a
      rw [(hburn a).1, (hburn a).2]
      split
      · rename_i ha
        rw [ha]
        exact hfits
      · exact ⟨le_refl _, le_refl _⟩
  | _ => exact Iff.rfl

section Transactions

variable {c : ChainInterface} {chainId : Digest} {trx : SignedTransaction} {skip canonical : Bool}

/-- **A transaction issues nothing**: it raises no supply, and none of its burns raises a supply
or the running balance of the transaction. -/
def IssuesNothing (crypto : Crypto) (c : ChainInterface) (chainId : Digest)
    (trx : SignedTransaction) (skip canonical : Bool) (s' : EvaluationState) : Prop :=
  (∀ a, s'.supply a ≤ c.flat.currentShareSupply a) ∧
    ∃ s, start crypto c chainId trx skip canonical = .ok s ∧
      OperationRun crypto BurnLowers (fun _ _ => True) s trx.operations s'

/-- The condition on a transaction: what its operations take off a supply is, as an unsigned
value, no more than lies between the least 64-bit value and the supply, and every burn meets
its condition. -/
def TakesOff (crypto : Crypto) (c : ChainInterface) (chainId : Digest)
    (trx : SignedTransaction) (skip canonical : Bool) : Prop :=
  ∃ s, start crypto c chainId trx skip canonical = .ok s ∧
    (∀ a, s.takenByAll crypto trx.operations a % 18446744073709551616 ≤
      c.flat.currentShareSupply a - int64Min) ∧
    OperationsMeet crypto BurnFits s trx.operations

end Transactions

/-! ### A burn that mints -/

/-- A burn of less than nothing, with a deposit of what it gives. -/
def minting : SignedTransaction :=
  demoTransaction [.burn ⟨-5, 1⟩ 0 [] none, .deposit 5 (demoCondition 1)]

/-- A burn of a share that is withdrawn first. -/
def burning : SignedTransaction :=
  demoTransaction [.withdraw (Crypto.transparent.conditionAddress (demoCondition 0)) 1 .empty,
    .burn ⟨1, 1⟩ 0 [] none]

end EvaluationState

end LarkX
