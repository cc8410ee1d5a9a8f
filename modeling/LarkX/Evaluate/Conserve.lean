import LarkX.Evaluate.Writes
import LarkX.State.Holdings

/-!
# Transactions conserve every asset

An evaluation moves funds between the amounts of the state through the running balance of the
transaction: for each asset it is a run of a `Till`. One lemma for each operation says which
move of the till of an asset it makes, if any; `evaluate_conserves` puts them together with the
fees that are collected at the end.

Operations on margin positions are not covered: a cover may overwrite a position.
-/

namespace LarkX

/-! ### The conditions -/

namespace Operation

/-- The operations on margin positions. -/
def isMargin : Operation → Bool
  | .cover .. | .addCollateral .. => true
  | _ => false

/-- The amount of an asset an order is changed by. -/
def ordered (a : ℤ) : Operation → ℤ
  | .bid amount key => if key.orderPrice.quoteAssetId = a then amount else 0
  | .ask amount key | .short amount key _ => if key.orderPrice.baseAssetId = a then amount else 0
  | _ => 0

/-- What the burn of a negative amount creates of an asset. -/
def created (a : ℤ) : Operation → ℤ
  | .burn amount _ _ _ => if amount.assetId = a then max 0 (-amount.amount) else 0
  | _ => 0

end Operation

/-- No account has an id above the last one given out. -/
def Tables.AccountsBelow (t : Tables) : Prop :=
  ∀ last, t.properties[ChainProperty.lastAccountId]? = some (.int last) →
    ∀ (id : ℤ) (r : AccountRecord), t.accounts[id]? = some r → id ≤ last

/-! ### Moves -/

namespace EvaluationState

variable {crypto : Crypto} {s s' : EvaluationState} {a : ℤ}

/-- The evaluation as the till of an asset. -/
def till (s : EvaluationState) (a : ℤ) : Till :=
  s.currentState.flat.till a (s.withdrawn a) (s.deposited a)

/-- One move of the till of an asset, or none, that creates `x`. -/
def Moves (a x : ℤ) (s s' : EvaluationState) : Prop :=
  (s'.till a = s.till a ∧ x = 0) ∨ Till.Step 0 x (s.till a) (s'.till a)

/-- What the lemmas on the operations assume of an evaluation, and keep. -/
structure Ready (crypto : Crypto) (a : ℤ) (s : EvaluationState) : Prop where
  pending : s.currentState.IsPending
  keyed : s.currentState.flat.Keyed crypto
  below : s.currentState.flat.AccountsBelow
  booked : s.Booked a

/-- Nothing happens to an asset. -/
theorem till_eq (hw : s'.withdrawn a = s.withdrawn a) (hd : s'.deposited a = s.deposited a)
    (hfunds : Tables.SameFunds a s.currentState.flat s'.currentState.flat)
    (hfees : s'.currentState.flat.collectedFees a = s.currentState.flat.collectedFees a)
    (hsupply : s'.currentState.flat.currentShareSupply a =
      s.currentState.flat.currentShareSupply a) : s'.till a = s.till a := by
  unfold till Tables.till
  rw [hw, hd, hfees, hsupply, hfunds posPart rfl, hfunds negPart rfl, hfunds negCount rfl,
    hfunds outCount (by decide)]

/-- The totals of a booked evaluation. -/
theorem Booked.totals {w d : ℤ} (hb : s'.Booked a) (hw : s'.withdrawn a = s.withdrawn a + w)
    (hd : s'.deposited a = s.deposited a + d) : Till.Totals w d (s.till a) (s'.till a) :=
  ⟨hw, hd, hb.withdrawn, hb.deposited⟩

variable (crypto) in
/-- A write that is not to an asset keeps supply and fees. -/
theorem supply_write (t : Tables) (w : Write) (h : (t.write crypto w).assets = t.assets) (a : ℤ) :
    (t.write crypto w).collectedFees a = t.collectedFees a ∧
      (t.write crypto w).currentShareSupply a = t.currentShareSupply a := by
  unfold Tables.collectedFees Tables.currentShareSupply
  rw [h]
  exact ⟨rfl, rfl⟩

/-- A balance of an asset goes from one record to another. -/
theorem balance_moved {t : Tables} {r r' : BalanceRecord} (hcond : r'.condition = r.condition)
    (hold : t.heldBefore crypto a (.balance r') = r.held a) :
    (r.assetId = a → Tables.Moved a r.balance r'.balance t (t.write crypto (.balance r'))) ∧
      (r.assetId ≠ a → Tables.SameFunds a t (t.write crypto (.balance r'))) := by
  have hasset : r'.assetId = r.assetId := congrArg WithdrawCondition.assetId hcond
  refine ⟨fun ha => ?_, fun ha => ?_⟩
  · have hmoved := Tables.moved_write crypto t a (.balance r')
    rw [hold] at hmoved
    change Tables.Moved a (r.held a) (r'.held a) _ _ at hmoved
    unfold BalanceRecord.held at hmoved
    rwa [hasset, if_pos ha, if_pos ha] at hmoved
  · refine Tables.sameFunds_write ?_ ?_
    · rw [hold]
      exact if_neg ha
    · change r'.held a = 0
      unfold BalanceRecord.held
      rw [hasset, if_neg ha]

/-- The amount a stored balance holds, as found under its condition. -/
theorem Ready.heldBefore_balance (hr : Ready crypto a s) {id : BalanceId} {r r' : BalanceRecord}
    (hget : s.currentState.getBalanceRecord id = some r) (hcond : r'.condition = r.condition) :
    s.currentState.flat.heldBefore crypto a (.balance r') = r.held a := by
  rw [ChainInterface.getBalanceRecord_eq] at hget
  have hkey : crypto.conditionAddress r.condition = id := hr.keyed.balances id r hget
  change (s.currentState.flat.balances[crypto.conditionAddress r'.condition]?).elim 0 _ = _
  rw [hcond, hkey, hget]
  rfl

/-! ### One lemma for each operation -/

/-- A deposit puts its amount into the balance of its condition. -/
theorem deposit_moves {amount : ℤ} {condition : WithdrawCondition} (hr : Ready crypto a s)
    (hrange : IsInt64 amount) (h : s.deposit crypto amount condition = .ok s') :
    s'.Booked a ∧ Moves a 0 s s' := by
  obtain ⟨s₁, r, r', hget, hpos, hcond, -, hbal, hdeposits, hbooks, hstate⟩ := deposit_eq_ok h
  have hb := hbooks.booked (hdeposits.booked a hrange hr.booked)
  refine ⟨hb, ?_⟩
  rw [ChainInterface.storeBalanceRecord_eq hr.pending] at hstate
  have hflat : s'.currentState.flat = _ :=
    (congrArg ChainInterface.flat hstate).trans (ChainInterface.flat_write hr.pending _)
  have hold : s.currentState.flat.heldBefore crypto a (.balance r') = r.held a := by
    cases hfound : s.currentState.getBalanceRecord (crypto.conditionAddress condition) with
    | some r₀ =>
      rw [hfound] at hget
      cases hget
      exact hr.heldBefore_balance hfound hcond
    | none =>
      rw [hfound, Option.getD_none] at hget
      rw [ChainInterface.getBalanceRecord_eq] at hfound
      change (s.currentState.flat.balances[crypto.conditionAddress r'.condition]?).elim 0 _ = _
      rw [hcond, hget, hfound]
      exact (ite_self _).symm
  obtain ⟨hmoved, hsame⟩ := balance_moved hcond hold
  obtain ⟨hfees, hsupply⟩ := supply_write crypto s.currentState.flat (.balance r') rfl a
  rw [← hflat] at hmoved hsame hfees hsupply
  have hw : s'.withdrawn a = s.withdrawn a := by rw [hbooks.withdrawn, hdeposits.withdrawn]
  have hd := hdeposits.deposited a
  rw [← hbooks.deposited] at hd
  by_cases ha : r.assetId = a
  · rw [if_pos ha.symm] at hd
    refine Or.inr (.put amount r.balance hpos ?_ (hb.totals (by rw [hw, add_zero]) hd) hfees
      hsupply)
    rw [← hbal]
    exact (hmoved ha).account _ _ _ _
  · rw [if_neg (Ne.symm ha), add_zero] at hd
    exact Or.inl ⟨till_eq hw hd (hsame ha) hfees hsupply, rfl⟩

/-- The books after an amount was withdrawn. -/
theorem Withdraws.books {s₁ : EvaluationState} {x : Asset} (h : Withdraws s₁ s' x)
    (hsame : SameBooks s s₁) (hrange : IsInt64 x.amount) (hb : s.Booked a) :
    s'.Booked a ∧ s'.deposited a = s.deposited a ∧
      s'.withdrawn a = s.withdrawn a + if a = x.assetId then x.amount else 0 :=
  ⟨h.booked a hrange (hsame.booked hb), by rw [h.deposited, hsame.deposited],
    by rw [h.withdrawn, hsame.withdrawn]⟩

/-- A withdrawal takes its amount from a balance, possibly after a yield. -/
theorem withdraw_moves {id : BalanceId} {amount : ℤ} {data : ClaimInputData}
    (hr : Ready crypto a s) (hrange : IsInt64 amount)
    (h : s.withdraw crypto id amount data = .ok s') : s'.Booked a ∧ Moves a 0 s s' := by
  obtain ⟨s₁, s₂, r, r₁, r', hget, hpos, hle, hvotes, hyield, hcond, -, hbal, hwithdraws⟩ :=
    withdraw_eq_ok h
  have hold := fun (hcond' : r'.condition = r.condition) => hr.heldBefore_balance hget hcond'
  have hp := hr.pending
  rw [← hvotes.currentState] at hp
  rcases payYield_eq_ok hyield with ⟨rfl, rfl⟩ | ⟨asset, y, hasset, -, hy, hyf, rfl, hcond₁, -, hbal₁⟩
  · -- no yield
    obtain ⟨hb, hd, hw⟩ := hwithdraws.books (hvotes.books.trans (sameBooks_withState _ _)) hrange
      hr.booked
    refine ⟨hb, ?_⟩
    have hflat : s'.currentState.flat = s.currentState.flat.write crypto (.balance r') := by
      rw [hwithdraws.currentState]
      change (s₂.currentState.storeBalanceRecord crypto r').flat = _
      rw [ChainInterface.storeBalanceRecord_eq hp, ChainInterface.flat_write hp,
        hvotes.currentState]
    obtain ⟨hmoved, hsame⟩ := balance_moved hcond (hold hcond)
    obtain ⟨hfees, hsupply⟩ := supply_write crypto s.currentState.flat (.balance r')
      rfl a
    rw [← hflat] at hmoved hsame hfees hsupply
    have hasset : r'.assetId = r₁.assetId := congrArg WithdrawCondition.assetId hcond
    dsimp only at hw
    rw [hasset] at hw
    by_cases ha : r₁.assetId = a
    · rw [if_pos ha.symm] at hw
      refine Or.inr (.take amount r₁.balance hpos hle ?_ (hb.totals hw (by rw [hd, add_zero]))
        hfees hsupply)
      rw [← hbal]
      exact (hmoved ha).account _ _ _ _
    · rw [if_neg (Ne.symm ha), add_zero] at hw
      exact Or.inl ⟨till_eq hw hd (hsame ha) hfees hsupply, rfl⟩
  · -- the fund pays a yield first
    obtain ⟨hb, hd, hw⟩ := hwithdraws.books
      (hvotes.books.trans ((sameBooks_withState _ _).trans (sameBooks_withState _ _))) hrange
      hr.booked
    refine ⟨hb, ?_⟩
    set asset' : AssetRecord :=
      { asset with collectedFees := wrap64 (asset.collectedFees - y) }
    rw [hvotes.currentState, ChainInterface.getAssetRecord_eq] at hasset
    have hid : asset.id = r.assetId := hr.keyed.assets _ _ hasset
    set t := s.currentState.flat with ht
    set t₁ := t.write crypto (.asset asset') with ht₁
    have hp₁ : (s₁.currentState.write crypto (.asset asset')).IsPending :=
      (ChainInterface.sameBelow_write ..).pending hp
    have hflat : s'.currentState.flat = t₁.write crypto (.balance r') := by
      rw [hwithdraws.currentState]
      change ((s₁.currentState.storeAssetRecord asset').storeBalanceRecord crypto r').flat = _
      rw [ChainInterface.storeAssetRecord_eq crypto hp, ChainInterface.storeBalanceRecord_eq hp₁,
        ChainInterface.flat_write hp₁, ChainInterface.flat_write hp, hvotes.currentState]
    have hcond' : r'.condition = r.condition := hcond.trans hcond₁
    obtain ⟨hmoved, hsame⟩ := balance_moved (t := t₁) hcond' (hold hcond')
    obtain ⟨hfees, hsupply⟩ := supply_write crypto t₁ (.balance r') rfl a
    have hfunds : Tables.SameFunds a t t₁ := Tables.sameFunds_write rfl rfl
    rw [ht₁, Tables.collectedFees_write_asset] at hfees
    rw [ht₁, Tables.currentShareSupply_write_asset] at hsupply
    rw [← ht₁, ← hflat] at hfees hsupply
    rw [← hflat] at hmoved hsame
    change _ = if a = asset.id then wrap64 (asset.collectedFees - y) else _ at hfees
    change _ = if a = asset.id then asset.currentShareSupply else _ at hsupply
    rw [hid] at hfees hsupply
    have hasset' : r'.assetId = r.assetId := congrArg WithdrawCondition.assetId hcond'
    dsimp only at hw
    rw [hasset'] at hw
    by_cases ha : r.assetId = a
    · subst ha
      rw [if_pos rfl] at hw hfees hsupply
      have hfund : (s.till r.assetId).fund = asset.collectedFees := by
        change (t.assets[r.assetId]?).elim 0 _ = _
        rw [hasset]
        rfl
      have hissued : (s.till r.assetId).issued = asset.currentShareSupply := by
        change (t.assets[r.assetId]?).elim 0 _ = _
        rw [hasset]
        rfl
      refine Or.inr (.yield amount y r.balance hpos hle hy (by rw [hfund]; exact hyf) ?_
        (hb.totals hw (by rw [hd, add_zero])) (by rw [hfund]; exact hfees)
        (by rw [hissued]; exact hsupply))
      rw [hbal₁, wrap64_wrap64_sub] at hbal
      rw [← hbal]
      exact (hfunds.trans_moved (hmoved rfl)).account _ _ _ _
    · rw [if_neg (Ne.symm ha)] at hw hfees hsupply
      rw [add_zero] at hw
      exact Or.inl ⟨till_eq hw hd (hfunds.trans (hsame ha)) hfees hsupply, rfl⟩

/-- A claim empties a balance. -/
theorem claim_moves {id : BalanceId} {amount : ℤ} {source : PtsAddress} {dest : PublicKey}
    {sig : Signature} (hr : Ready crypto a s) (hrange : IsInt64 amount)
    (h : s.claim crypto id amount source dest sig = .ok s') : s'.Booked a ∧ Moves a 0 s s' := by
  obtain ⟨s₁, r, r', hget, hchecked, rfl, hvotes, hcond, -, hzero, hwithdraws⟩ := claim_eq_ok h
  obtain ⟨hb, hd, hw⟩ := hwithdraws.books (hvotes.books.trans (sameBooks_withState _ _)) hrange
    hr.booked
  refine ⟨hb, ?_⟩
  have hflat : s'.currentState.flat = s.currentState.flat.write crypto (.balance r') := by
    rw [hwithdraws.currentState]
    change (s₁.currentState.storeBalanceRecord crypto r').flat = _
    rw [hvotes.currentState, ChainInterface.storeBalanceRecord_eq hr.pending,
      ChainInterface.flat_write hr.pending]
  obtain ⟨hmoved, hsame⟩ := balance_moved hcond (hr.heldBefore_balance hget hcond)
  obtain ⟨hfees, hsupply⟩ := supply_write crypto s.currentState.flat (.balance r') rfl a
  rw [← hflat] at hmoved hsame hfees hsupply
  rw [hchecked.base] at hmoved hsame
  dsimp only at hw
  by_cases ha : 0 = a
  · rw [if_pos ha.symm] at hw
    refine Or.inr (.empty r.balance ?_ (hb.totals hw (by rw [hd, add_zero])) hfees hsupply)
    rw [← hzero]
    exact (hmoved ha).account _ _ _ _
  · rw [if_neg (Ne.symm ha), add_zero] at hw
    exact Or.inl ⟨till_eq hw hd (hsame ha) hfees hsupply, rfl⟩

/-- A burn takes its amount out of the supply, or adds a negative amount to it. -/
theorem burn_moves {amount : Asset} {accountId : ℤ} {message : List Char}
    {sig : Option Signature} (hr : Ready crypto a s) (hrange : IsInt64 amount.amount)
    (h : s.burn amount accountId message = .ok s') :
    s'.Booked a ∧ Moves a ((Operation.burn amount accountId message sig).created a) s s' := by
  obtain ⟨asset, hasset, -, -, hdeposits⟩ := burn_eq_ok h
  have hbooks := sameBooks_withState s (s.currentState.storeAssetRecord { asset with
    currentShareSupply := wrap64 (asset.currentShareSupply - amount.amount) })
  have hb := hdeposits.booked a hrange (hbooks.booked hr.booked)
  refine ⟨hb, ?_⟩
  have hw : s'.withdrawn a = s.withdrawn a := by rw [hdeposits.withdrawn, hbooks.withdrawn]
  have hd := hdeposits.deposited a
  rw [hbooks.deposited] at hd
  rw [ChainInterface.getAssetRecord_eq] at hasset
  have hid : asset.id = amount.assetId := hr.keyed.assets _ _ hasset
  have hflat : s'.currentState.flat = s.currentState.flat.write crypto (.asset { asset with
      currentShareSupply := wrap64 (asset.currentShareSupply - amount.amount) }) := by
    rw [hdeposits.currentState]
    change (s.currentState.storeAssetRecord _).flat = _
    rw [ChainInterface.storeAssetRecord_eq crypto hr.pending,
      ChainInterface.flat_write hr.pending]
  have hfunds : Tables.SameFunds a s.currentState.flat s'.currentState.flat :=
    hflat ▸ Tables.sameFunds_write rfl rfl
  have hfees := Tables.collectedFees_write_asset crypto s.currentState.flat
    { asset with currentShareSupply := wrap64 (asset.currentShareSupply - amount.amount) } a
  have hsupply := Tables.currentShareSupply_write_asset crypto s.currentState.flat
    { asset with currentShareSupply := wrap64 (asset.currentShareSupply - amount.amount) } a
  rw [← hflat] at hfees hsupply
  dsimp only at hfees hsupply
  rw [hid] at hfees hsupply
  by_cases ha : amount.assetId = a
  · subst ha
    rw [if_pos rfl] at hd hfees hsupply
    have hfund : (s.till amount.assetId).fund = asset.collectedFees := by
      change (s.currentState.flat.assets[amount.assetId]?).elim 0 _ = _
      rw [hasset]
      rfl
    have hissued : (s.till amount.assetId).issued = asset.currentShareSupply := by
      change (s.currentState.flat.assets[amount.assetId]?).elim 0 _ = _
      rw [hasset]
      rfl
    have haccount : Till.Account 0 0 (s.till amount.assetId) (s'.till amount.assetId) :=
      hfunds.moved.account _ _ _ _
    have hcreated : (Operation.burn amount accountId message sig).created amount.assetId =
        max 0 (-amount.amount) := if_pos rfl
    rw [hcreated]
    rcases le_or_gt 0 amount.amount with hnonneg | hneg
    · rw [max_eq_left (by omega)]
      exact Or.inr (.burn amount.amount hnonneg haccount (hb.totals (by rw [hw, add_zero]) hd)
        (hfees.trans hfund.symm) (by rw [hissued]; exact hsupply))
    · rw [max_eq_right (by omega)]
      refine Or.inr (.create (-amount.amount) (by omega) haccount
        (hb.totals (by rw [hw, add_zero]) (by rw [hd, neg_neg])) (hfees.trans hfund.symm) ?_)
      rw [hissued, ← sub_eq_add_neg]
      exact hsupply
  · rw [if_neg (Ne.symm ha)] at hd hfees hsupply
    rw [add_zero] at hd
    have hcreated : (Operation.burn amount accountId message sig).created a = 0 := if_neg ha
    exact Or.inl ⟨till_eq hw hd hfunds hfees hsupply, hcreated⟩

/-- An evaluation whose books stay and whose one write holds nothing before or after. -/
theorem still_moves {w : Write} (hr : Ready crypto a s) (hbooks : SameBooks s s')
    (hflat : s'.currentState.flat = s.currentState.flat.write crypto w)
    (hassets : (s.currentState.flat.write crypto w).assets = s.currentState.flat.assets)
    (hfunds : Tables.SameFunds a s.currentState.flat (s.currentState.flat.write crypto w)) :
    s'.Booked a ∧ Moves a 0 s s' := by
  obtain ⟨hfees, hsupply⟩ := supply_write crypto s.currentState.flat w hassets a
  rw [← hflat] at hfees hsupply hfunds
  exact ⟨hbooks.booked hr.booked,
    Or.inl ⟨till_eq (hbooks.withdrawn a) (hbooks.deposited a) hfunds hfees hsupply, rfl⟩⟩

/-- An account that keeps its pay moves nothing. -/
theorem sameFunds_account {t : Tables} {id : ℤ} {r r' : AccountRecord} (hkeyed : t.Keyed crypto)
    (hget : t.accounts[id]? = some r) (hid : r'.id = r.id) (hpay : r'.payBalance = r.payBalance) :
    Tables.SameFunds a t (t.write crypto (.account r')) := by
  intro w hw
  have hkey : r.id = id := hkeyed.accounts id r hget
  have hold : t.heldBefore crypto a (.account r') = r.held a := by
    change (t.accounts[r'.id]?).elim 0 _ = _
    rw [hid, hkey, hget]
    rfl
  have hnew : (Write.account r').held a = r.held a := by
    change r'.held a = r.held a
    unfold AccountRecord.held
    rw [hpay]
  rw [Tables.sumOf_write hw, hold, hnew, sub_self, add_zero]

/-- A new account holds nothing, and its id holds nothing before. -/
theorem registerAccount_moves {name : Name} {publicData : ℕ} {ownerKey activeKey : PublicKey}
    {payRate : ℕ} {metaData : Option ℕ} (hr : Ready crypto a s)
    (h : s.registerAccount crypto name publicData ownerKey activeKey payRate metaData = .ok s') :
    s'.Booked a ∧ Moves a 0 s s' := by
  obtain ⟨last, r, hlast, -, hid, -, -, hpay, -, hbooks, hstate⟩ := registerAccount_eq_ok h
  have hp := hr.pending
  rw [← hid, ChainInterface.setProperty_eq crypto hp,
    ChainInterface.storeAccountRecord_eq ((ChainInterface.sameBelow_write ..).pending hp),
    ChainInterface.write_lastAccountId_account] at hstate
  refine still_moves (w := .newAccount r) hr hbooks ?_ rfl (Tables.sameFunds_write ?_ ?_)
  · rw [hstate, ChainInterface.flat_write hp]
  · change (s.currentState.flat.accounts[r.id]?).elim 0 _ = 0
    cases hget : s.currentState.flat.accounts[r.id]? with
    | none => rfl
    | some old =>
      have hle := hr.below last (ChainInterface.lastAccountId_eq_ok.1 hlast) r.id old hget
      omega
  · change r.held a = 0
    unfold AccountRecord.held
    rw [hpay, ite_self]

theorem updateAccount_moves {accountId : ℤ} {publicData : Option ℕ}
    {activeKey : Option PublicKey} {payRate : ℕ} (hr : Ready crypto a s)
    (h : s.updateAccount crypto accountId publicData activeKey payRate = .ok s') :
    s'.Booked a ∧ Moves a 0 s s' := by
  obtain ⟨r, r', hget, hupdated, hbooks, hstate⟩ := updateAccount_eq_ok h
  rw [ChainInterface.storeAccountRecord_eq hr.pending] at hstate
  rw [ChainInterface.getAccountRecord_eq] at hget
  refine still_moves (w := .account r') hr hbooks ?_ rfl
    (sameFunds_account hr.keyed hget hupdated.identity.id hupdated.payBalance)
  rw [hstate, ChainInterface.flat_write hr.pending]

/-- A withdrawal of pay takes its amount from the pay balance of a delegate. -/
theorem withdrawPay_moves {amount accountId : ℤ} (hr : Ready crypto a s)
    (hrange : IsInt64 amount) (h : s.withdrawPay crypto amount accountId = .ok s') :
    s'.Booked a ∧ Moves a 0 s s' := by
  obtain ⟨s₁, r, info, hget, hinfo, hpos, hle, hvotes, hwithdraws⟩ := withdrawPay_eq_ok h
  obtain ⟨hb, hd, hw⟩ := hwithdraws.books (hvotes.books.trans (sameBooks_withState _ _)) hrange
    hr.booked
  refine ⟨hb, ?_⟩
  set r' : AccountRecord := { r with
    delegateInfo := some { info with payBalance := wrap64 (info.payBalance - amount) } }
  have hflat : s'.currentState.flat = s.currentState.flat.write crypto (.account r') := by
    rw [hwithdraws.currentState]
    change (s₁.currentState.storeAccountRecord crypto r').flat = _
    rw [hvotes.currentState, ChainInterface.storeAccountRecord_eq hr.pending,
      ChainInterface.flat_write hr.pending]
  rw [ChainInterface.getAccountRecord_eq] at hget
  have hid : r.id = |accountId| := hr.keyed.accounts _ _ hget
  have hpay : r.payBalance = info.payBalance := by
    unfold AccountRecord.payBalance
    rw [hinfo]
    rfl
  have hold : s.currentState.flat.heldBefore crypto a (.account r') = r.held a := by
    change (s.currentState.flat.accounts[r.id]?).elim 0 _ = _
    rw [hid, hget]
    rfl
  have hmoved := Tables.moved_write crypto s.currentState.flat a (.account r')
  obtain ⟨hfees, hsupply⟩ := supply_write crypto s.currentState.flat (.account r') rfl a
  rw [hold] at hmoved
  rw [← hflat] at hmoved hfees hsupply
  change Tables.Moved a (r.held a) (r'.held a) _ _ at hmoved
  unfold AccountRecord.held at hmoved
  rw [hpay, show r'.payBalance = wrap64 (info.payBalance - amount) from rfl] at hmoved
  dsimp only at hw
  by_cases ha : a = 0
  · rw [if_pos ha] at hw
    rw [if_pos ha, if_pos ha] at hmoved
    exact Or.inr (.take amount info.payBalance hpos hle (hmoved.account _ _ _ _)
      (hb.totals hw (by rw [hd, add_zero])) hfees hsupply)
  · rw [if_neg ha, add_zero] at hw
    refine Or.inl ⟨till_eq hw hd (hflat ▸ Tables.sameFunds_write ?_ ?_) hfees hsupply, rfl⟩
    · rw [hold]
      exact if_neg ha
    · exact if_neg ha

theorem defineDelegateSlate_moves {slate : List ℤ} (hr : Ready crypto a s)
    (h : s.defineDelegateSlate crypto slate = .ok s') : s'.Booked a ∧ Moves a 0 s s' := by
  rcases defineDelegateSlate_eq_ok h with rfl | ⟨-, rfl⟩
  · exact ⟨hr.booked, Or.inl ⟨rfl, rfl⟩⟩
  · refine still_moves (w := .slate (crypto.slateId slate) slate) hr (sameBooks_withState _ _) ?_
      rfl (Tables.sameFunds_write rfl rfl)
    change (s.currentState.storeDelegateSlate _ _).flat = _
    rw [ChainInterface.storeDelegateSlate_eq crypto hr.pending,
      ChainInterface.flat_write hr.pending]

theorem updateFeed_moves {feed : FeedIndex} {value : FeedValue} (hr : Ready crypto a s)
    (h : s.updateFeed crypto feed value = .ok s') : s'.Booked a ∧ Moves a 0 s s' := by
  obtain ⟨r, c, -, -, hc, rfl⟩ := updateFeed_eq_ok h
  rw [ChainInterface.setFeed_eq crypto hr.pending] at hc
  have hp := (ChainInterface.sameBelow_write crypto s.currentState (.feed r)).pending hr.pending
  refine still_moves (w := .feed r) hr (sameBooks_withState _ _) ?_ rfl
    (Tables.sameFunds_write rfl rfl)
  change c.flat = _
  rw [ChainInterface.setMarketDirty_eq_ok crypto hc, ChainInterface.flat_write hp,
    ChainInterface.flat_write hr.pending]
  rfl

/-- The negation of an amount other than the least one. -/
theorem wrap64_neg {x : ℤ} (h : IsInt64 x) (hne : x ≠ int64Min) : wrap64 (-x) = -x := by
  refine wrap64_eq_self ?_
  unfold IsInt64 int64Min int64Max at *
  omega

/-- An order is changed by an amount, which it must have when it is negative. -/
theorem order_moves {s₁ : EvaluationState} {x : Asset} {current : Option OrderRecord} {w : Write}
    {r : OrderRecord} (hr : Ready crypto a s) (hrange : IsInt64 x.amount)
    (hmin : x.assetId = a → x.amount ≠ int64Min) (hmove : s.moveOrderFunds current x = .ok s₁)
    (hbal : r.balance = wrap64 ((current.getD {}).balance + x.amount)) (hbooks : SameBooks s₁ s')
    (hflat : s'.currentState.flat = s.currentState.flat.write crypto w)
    (hassets : (s.currentState.flat.write crypto w).assets = s.currentState.flat.assets)
    (hold : s.currentState.flat.heldBefore crypto a w =
      if x.assetId = a then (current.getD {}).balance else 0)
    (hnew : w.held a = if x.assetId = a then r.balance else 0) :
    s'.Booked a ∧ Moves a 0 s s' := by
  obtain ⟨hfees, hsupply⟩ := supply_write crypto s.currentState.flat w hassets a
  have hmoved := Tables.moved_write crypto s.currentState.flat a w
  rw [hold, hnew] at hmoved
  rw [← hflat] at hmoved hfees hsupply
  have hneg : IsInt64 x.neg.amount := isInt64_wrap64 _
  -- the books after the funds have moved
  have hsame : x.assetId ≠ a → s'.withdrawn a = s.withdrawn a ∧ s'.deposited a = s.deposited a := by
    intro ha
    rcases moveOrderFunds_eq_ok hmove with ⟨-, -, -, -, hwithdraws⟩ | ⟨-, hdeposits⟩
    · have hw := hwithdraws.withdrawn a
      rw [show x.neg.assetId = x.assetId from rfl, if_neg (Ne.symm ha), add_zero] at hw
      rw [hbooks.withdrawn, hbooks.deposited]
      exact ⟨hw, hwithdraws.deposited a⟩
    · have hd := hdeposits.deposited a
      rw [if_neg (Ne.symm ha), add_zero] at hd
      rw [hbooks.withdrawn, hbooks.deposited]
      exact ⟨hdeposits.withdrawn a, hd⟩
  have hb : s'.Booked a := by
    rcases moveOrderFunds_eq_ok hmove with ⟨-, -, -, -, hwithdraws⟩ | ⟨-, hdeposits⟩
    · exact hbooks.booked (hwithdraws.booked a hneg hr.booked)
    · exact hbooks.booked (hdeposits.booked a hrange hr.booked)
  refine ⟨hb, ?_⟩
  by_cases ha : x.assetId = a
  · rw [if_pos ha, if_pos ha, hbal] at hmoved
    rcases moveOrderFunds_eq_ok hmove with ⟨r₀, rfl, hlt, hle, hwithdraws⟩ | ⟨hpos, hdeposits⟩
    · have hamount : x.neg.amount = -x.amount := wrap64_neg hrange (hmin ha)
      rw [abs_of_neg hlt, wrap64_neg hrange (hmin ha)] at hle
      have hw := hwithdraws.withdrawn a
      rw [show x.neg.assetId = x.assetId from rfl, if_pos ha.symm, hamount,
        ← hbooks.withdrawn] at hw
      have hd : s'.deposited a = s.deposited a + 0 := by
        rw [hbooks.deposited, hwithdraws.deposited, add_zero]
      refine Or.inr (.take (-x.amount) r₀.balance (by omega) hle ?_ (hb.totals hw hd) hfees
        hsupply)
      rw [sub_neg_eq_add]
      exact hmoved.account _ _ _ _
    · have hd := hdeposits.deposited a
      rw [if_pos ha.symm, ← hbooks.deposited] at hd
      have hw : s'.withdrawn a = s.withdrawn a + 0 := by
        rw [hbooks.withdrawn, hdeposits.withdrawn, add_zero]
      exact Or.inr (.put x.amount (current.getD {}).balance hpos (hmoved.account _ _ _ _)
        (hb.totals hw hd) hfees hsupply)
  · obtain ⟨hw, hd⟩ := hsame ha
    rw [if_neg ha] at hold hnew
    exact Or.inl ⟨till_eq hw hd (hflat ▸ Tables.sameFunds_write hold hnew) hfees hsupply, rfl⟩

/-- What an order that may be absent holds. -/
private theorem elim_order {p : Prop} [Decidable p] (o : Option OrderRecord) :
    o.elim 0 (fun r => if p then r.balance else 0) = if p then (o.getD {}).balance else 0 := by
  cases o with
  | none => exact (ite_self _).symm
  | some r => rfl

theorem bid_moves {amount : ℤ} {key : MarketIndexKey} (hr : Ready crypto a s)
    (hrange : IsInt64 amount) (hmin : (Operation.bid amount key).ordered a ≠ int64Min)
    (h : s.bid amount key = .ok s') : s'.Booked a ∧ Moves a 0 s s' := by
  obtain ⟨s₁, r, hmove, hbal, rfl⟩ := bid_eq_ok h
  rw [ChainInterface.getBidRecord_eq] at hmove hbal
  refine order_moves (w := .bid key r) hr hrange (fun ha => ?_) hmove hbal
    (sameBooks_withState _ _) ?_ rfl (elim_order _) rfl
  · exact fun hamount => hmin ((if_pos ha).trans hamount)
  · change (s₁.currentState.storeBidRecord key r).flat = _
    rw [moveOrderFunds_currentState hmove, ChainInterface.storeBidRecord_eq crypto hr.pending,
      ChainInterface.flat_write hr.pending]

theorem ask_moves {amount : ℤ} {key : MarketIndexKey} (hr : Ready crypto a s)
    (hrange : IsInt64 amount) (hmin : (Operation.ask amount key).ordered a ≠ int64Min)
    (h : s.ask amount key = .ok s') : s'.Booked a ∧ Moves a 0 s s' := by
  obtain ⟨s₁, r, hmove, hbal, -, rfl⟩ := ask_eq_ok h
  rw [ChainInterface.getAskRecord_eq] at hmove hbal
  refine order_moves (w := .ask key r) hr hrange (fun ha => ?_) hmove hbal
    (sameBooks_withState _ _) ?_ rfl (elim_order _) rfl
  · exact fun hamount => hmin ((if_pos ha).trans hamount)
  · change (s₁.currentState.storeAskRecord key r).flat = _
    rw [moveOrderFunds_currentState hmove, ChainInterface.storeAskRecord_eq crypto hr.pending,
      ChainInterface.flat_write hr.pending]

theorem short_moves {amount : ℤ} {key : MarketIndexKey} {limit : Option Price}
    (hr : Ready crypto a s) (hrange : IsInt64 amount)
    (hmin : (Operation.short amount key limit).ordered a ≠ int64Min)
    (h : s.short amount key limit = .ok s') : s'.Booked a ∧ Moves a 0 s s' := by
  obtain ⟨s₁, r, hmove, -, -, hbal, -, rfl⟩ := short_eq_ok h
  rw [ChainInterface.getShortRecord_eq] at hmove hbal
  refine order_moves (w := .short key r) hr hrange (fun ha => ?_) hmove hbal
    (sameBooks_withState _ _) ?_ rfl (elim_order _) rfl
  · exact fun hamount => hmin ((if_pos ha).trans hamount)
  · change (s₁.currentState.storeShortRecord key r).flat = _
    rw [moveOrderFunds_currentState hmove, ChainInterface.storeShortRecord_eq crypto hr.pending,
      ChainInterface.flat_write hr.pending]

/-! ### Step and run -/

/-- No write of an evaluation puts an account above the last id. -/
theorem accountsBelow_write {ops : List Operation} {c : ChainInterface} {w : Write}
    (hkeyed : c.flat.Keyed crypto) (h : c.flat.AccountsBelow)
    (hw : EvaluationWrite crypto ops c w) : (c.flat.write crypto w).AccountsBelow := by
  cases hw with
  | @account id old r hold hsame hkeys =>
    intro last hlast id' r' hget
    by_cases hid : id' = r.id
    · have hkey : old.id = id := hkeyed.accounts id old hold
      rw [hid, hsame.id, hkey]
      exact h last hlast id old hold
    · exact h last hlast id' r' ((Table.getElem?_insert_of_ne _ _ hid).symm.trans hget)
  | @newAccount last r hop hlast hid hname =>
    intro last' hlast' id' r' hget
    have hr : last' = r.id := by
      have hsame := (Table.getElem?_insert_same _ _ _).symm.trans hlast'
      cases hsame
      rfl
    by_cases hid' : id' = r.id
    · omega
    · have hle := h last (ChainInterface.lastAccountId_eq_ok.1 hlast) id' r'
        ((Table.getElem?_insert_of_ne _ _ hid').symm.trans hget)
      omega
  | asset | balance | bid | ask | short | clearPosition | coverPrice | callPrice | slate | feed
  | dirtyFeed => exact h

/-- **Step.** Every operation makes one move of the till of an asset, or none. -/
theorem evaluateOperation_moves {op : Operation} (hr : Ready crypto a s)
    (hmargin : op.isMargin = false) (hrange : IsInt64 op.namedAmount)
    (hmin : op.ordered a ≠ int64Min) (h : s.evaluateOperation crypto op = .ok s') :
    s'.Booked a ∧ Moves a (op.created a) s s' := by
  cases op with
  | withdraw id amount data => exact withdraw_moves hr hrange h
  | deposit amount condition => exact deposit_moves hr hrange h
  | claim id amount source dest sig => exact claim_moves hr hrange h
  | burn amount accountId message sig => exact burn_moves hr hrange h
  | registerAccount => exact registerAccount_moves hr h
  | updateAccount => exact updateAccount_moves hr h
  | withdrawPay => exact withdrawPay_moves hr hrange h
  | defineDelegateSlate => exact defineDelegateSlate_moves hr h
  | bid => exact bid_moves hr hrange hmin h
  | ask => exact ask_moves hr hrange hmin h
  | short => exact short_moves hr hrange hmin h
  | cover | addCollateral => cases hmargin
  | updateFeed => exact updateFeed_moves hr h
  | withdrawAll | removeCollateral | linkAccount | releaseEscrow | unknown => cases h

/-- What an operation keeps. -/
theorem Ready.step {op : Operation} (hr : Ready crypto a s)
    (h : s.evaluateOperation crypto op = .ok s') (hb : s'.Booked a) : Ready crypto a s' := by
  have hw := evaluateOperation_writes hr.pending h
  have hinv := hw.invariant (I := fun c => c.flat.Keyed crypto ∧ c.flat.AccountsBelow)
    (fun c w hp hc hw => ChainInterface.flat_write hp w ▸
      ⟨hc.1.write w, accountsBelow_write hc.1 hc.2 hw⟩) hr.pending ⟨hr.keyed, hr.below⟩
  exact ⟨hw.isPending hr.pending, hinv.1, hinv.2, hb⟩

/-- The conditions on an operation under which it conserves an asset: it is none on a margin
position, its amount is a 64-bit value, and no order of the asset is changed by the least
one, whose negation overflows. -/
structure Orderly (a : ℤ) (op : Operation) : Prop where
  margin : op.isMargin = false
  range : IsInt64 op.namedAmount
  ordered : op.ordered a ≠ int64Min

/-- **Run.** The operations of a transaction are a run of the till of an asset, which creates
what their burns create. -/
theorem evaluateOperations_run {ops : List Operation} (hr : Ready crypto a s)
    (hops : ∀ op ∈ ops, Orderly a op) (h : s.evaluateOperations crypto ops = .ok s')
    {t₀ : Till} {created : ℤ} (hrun : Till.Run t₀ 0 created (s.till a)) :
    Ready crypto a s' ∧
      Till.Run t₀ 0 (created + (ops.map (·.created a)).sum) (s'.till a) := by
  induction ops generalizing s created with
  | nil =>
    cases h
    rw [List.map_nil, List.sum_nil, add_zero]
    exact ⟨hr, hrun⟩
  | cons op ops ih =>
    rw [evaluateOperations, List.foldlM_cons, bind_eq_ok] at h
    obtain ⟨s₁, hop, h⟩ := h
    have horderly := hops op List.mem_cons_self
    obtain ⟨hb, hmoves⟩ := evaluateOperation_moves hr horderly.margin horderly.range
      horderly.ordered hop
    have hrun₁ : Till.Run t₀ 0 (created + op.created a) (s₁.till a) := by
      rcases hmoves with ⟨heq, hzero⟩ | hstep
      · rw [heq, hzero, add_zero]
        exact hrun
      · have := Till.Run.step hrun hstep
        rwa [add_zero] at this
    have hrest := ih (hr.step hop hb) (fun op' hop' => hops op' (List.mem_cons_of_mem _ hop')) h
      hrun₁
    rwa [List.map_cons, List.sum_cons, ← add_assoc]

/-! ### Fees and votes -/

/-- One balance is collected: the fees of its asset grow by it, and nothing else happens. -/
theorem collectFee_spec {fee : ℤ × ℤ} (hp : s.currentState.IsPending)
    (hkeyed : s.currentState.flat.Keyed crypto) (h : s.collectFee fee = .ok s') (a : ℤ) :
    Tables.SameFunds a s.currentState.flat s'.currentState.flat ∧
      s'.currentState.flat.currentShareSupply a = s.currentState.flat.currentShareSupply a ∧
      s'.currentState.flat.collectedFees a =
        if a = fee.1 ∧ 0 < fee.2 then wrap64 (s.currentState.flat.collectedFees a + fee.2)
        else s.currentState.flat.collectedFees a := by
  obtain ⟨-, ⟨hzero, rfl⟩ | ⟨r, hpos, hr, rfl⟩⟩ := collectFee_eq_ok h
  · rw [if_neg fun hcond => by omega]
    exact ⟨Tables.SameFunds.refl _ _, rfl, rfl⟩
  · rw [ChainInterface.getAssetRecord_eq] at hr
    have hid : r.id = fee.1 := hkeyed.assets _ _ hr
    set r' : AssetRecord := { r with collectedFees := wrap64 (r.collectedFees + fee.2) }
    have hflat : (s.withState (s.currentState.storeAssetRecord r')).currentState.flat =
        s.currentState.flat.write crypto (.asset r') := by
      change (s.currentState.storeAssetRecord r').flat = _
      rw [ChainInterface.storeAssetRecord_eq crypto hp, ChainInterface.flat_write hp]
    rw [hflat, Tables.collectedFees_write_asset, Tables.currentShareSupply_write_asset]
    refine ⟨Tables.sameFunds_write rfl rfl, ?_, ?_⟩
    · split
      · rename_i ha
        change r.currentShareSupply = (s.currentState.flat.assets[a]?).elim 0 _
        rw [show a = fee.1 from ha.trans hid, hr]
        rfl
      · rfl
    · change (if a = r.id then wrap64 (r.collectedFees + fee.2) else _) = _
      rw [hid]
      by_cases ha : a = fee.1
      · rw [if_pos ha, if_pos ⟨ha, hpos⟩]
        change _ = wrap64 ((s.currentState.flat.assets[a]?).elim 0 _ + fee.2)
        rw [ha, hr]
        rfl
      · rw [if_neg ha, if_neg fun hcond => ha hcond.1]

/-- All balances are collected: what is left over of an asset goes to its fees. -/
theorem collectFees_spec {fees : List (ℤ × ℤ)} (hp : s.currentState.IsPending)
    (hkeyed : s.currentState.flat.Keyed crypto) (hnodup : (fees.map Prod.fst).Nodup)
    (h : fees.foldlM collectFee s = .ok s') (a : ℤ) :
    Tables.SameFunds a s.currentState.flat s'.currentState.flat ∧
      s'.currentState.flat.currentShareSupply a = s.currentState.flat.currentShareSupply a ∧
      (∀ b, (a, b) ∈ fees → 0 ≤ b ∧ s'.currentState.flat.collectedFees a =
        if 0 < b then wrap64 (s.currentState.flat.collectedFees a + b)
        else s.currentState.flat.collectedFees a) ∧
      ((∀ b, (a, b) ∉ fees) →
        s'.currentState.flat.collectedFees a = s.currentState.flat.collectedFees a) := by
  induction fees generalizing s with
  | nil =>
    cases h
    exact ⟨Tables.SameFunds.refl _ _, rfl, fun b hb => absurd hb List.not_mem_nil, fun _ => rfl⟩
  | cons fee fees ih =>
    rw [List.foldlM_cons, bind_eq_ok] at h
    obtain ⟨s₁, hfee, h⟩ := h
    rw [List.map_cons, List.nodup_cons] at hnodup
    have hw := collectFee_writes crypto [] hp hfee
    obtain ⟨hfunds, hsupply, hfees⟩ := collectFee_spec hp hkeyed hfee a
    obtain ⟨hfunds', hsupply', hmem, hnot⟩ :=
      ih (hw.isPending hp) (hw.keyed hp hkeyed) hnodup.2 h
    refine ⟨hfunds.trans hfunds', hsupply'.trans hsupply, fun b hb => ?_, fun hall => ?_⟩
    · rcases List.mem_cons.1 hb with heq | hb
      · -- the keys are distinct, so the rest leaves the asset alone
        have hfst : a = fee.1 := congrArg Prod.fst heq
        have hrest : ∀ b', (a, b') ∉ fees := fun b' hb' =>
          hnodup.1 (List.mem_map.2 ⟨(a, b'), hb', hfst⟩)
        have hsnd : b = fee.2 := congrArg Prod.snd heq
        refine ⟨hsnd ▸ (collectFee_eq_ok hfee).1, ?_⟩
        rw [hnot hrest, hfees, hsnd]
        simp only [hfst, true_and]
      · have hne : ¬(a = fee.1 ∧ 0 < fee.2) := fun hcond =>
          hnodup.1 (List.mem_map.2 ⟨_, hb, hcond.1⟩)
        rw [if_neg hne] at hfees
        rw [← hfees]
        exact hmem b hb
    · rw [hnot fun b hb => hall b (List.mem_cons_of_mem _ hb), hfees, if_neg]
      rintro ⟨hfst, -⟩
      exact hall fee.2 (by rw [hfst]; exact List.mem_cons_self)

/-- `post_evaluate` collects what is left over of an asset, which is not negative. -/
theorem postEvaluate_spec (hp : s.currentState.IsPending)
    (hkeyed : s.currentState.flat.Keyed crypto) (h : s.postEvaluate = .ok s') (a : ℤ) :
    Tables.SameFunds a s.currentState.flat s'.currentState.flat ∧
      s'.currentState.flat.currentShareSupply a = s.currentState.flat.currentShareSupply a ∧
      0 ≤ s.balanceOf a ∧
      s'.currentState.flat.collectedFees a =
        if 0 < s.balanceOf a then
          wrap64 (s.currentState.flat.collectedFees a + s.balanceOf a)
        else s.currentState.flat.collectedFees a := by
  obtain ⟨s₁, hstate, hbalance, hcollect⟩ := postEvaluate_eq_ok h
  rw [← hstate] at hp hkeyed ⊢
  obtain ⟨hfunds, hsupply, hmem, hnot⟩ :=
    collectFees_spec hp hkeyed (Table.nodup_toList_keys _) hcollect a
  refine ⟨hfunds, hsupply, ?_⟩
  have hget : s₁.balance[a]?.getD 0 = s.balanceOf a := by
    rw [hbalance, Table.getElem?_insert]
    split
    · rename_i ha
      rw [ha]
      rfl
    · rfl
  cases hb : s₁.balance[a]? with
  | some b =>
    rw [hb, Option.getD_some] at hget
    subst hget
    exact hmem _ (Table.mem_toList.2 hb)
  | none =>
    rw [hb, Option.getD_none] at hget
    rw [← hget, if_neg (lt_irrefl 0)]
    refine ⟨le_rfl, hnot fun b hmem => ?_⟩
    rw [Table.mem_toList, hb] at hmem
    cases hmem

/-- The votes move no funds. -/
theorem updateDelegateVotes_spec (hp : s.currentState.IsPending)
    (hkeyed : s.currentState.flat.Keyed crypto) (h : s.updateDelegateVotes crypto = .ok s')
    (a : ℤ) : Tables.SameFunds a s.currentState.flat s'.currentState.flat ∧
      s'.currentState.flat.assets = s.currentState.flat.assets := by
  refine (foldlM_induction (P := fun s' : EvaluationState =>
    (s'.currentState.IsPending ∧ s'.currentState.flat.Keyed crypto) ∧
      Tables.SameFunds a s.currentState.flat s'.currentState.flat ∧
      s'.currentState.flat.assets = s.currentState.flat.assets) ?_
    ⟨⟨hp, hkeyed⟩, Tables.SameFunds.refl _ _, rfl⟩ h).2
  rintro s₁ delVote s₂ - ⟨⟨hp₁, hkeyed₁⟩, hfunds, hassets⟩ hvote
  obtain ⟨r, r', hr, hsame, -, hpay, rfl⟩ := updateDelegateVote_eq_ok hvote
  rw [ChainInterface.getAccountRecord_eq] at hr
  have hstate : (s₁.withState (s₁.currentState.storeAccountRecord crypto r')).currentState =
      s₁.currentState.write crypto (.account r') :=
    ChainInterface.storeAccountRecord_eq hp₁ r'
  rw [hstate, ChainInterface.flat_write hp₁]
  exact ⟨⟨(ChainInterface.sameBelow_write ..).pending hp₁, hkeyed₁.write _⟩,
    hfunds.trans (sameFunds_account hkeyed₁ hr hsame.id hpay), hassets⟩

/-! ### The transaction -/

variable {c : ChainInterface} {chainId : Digest} {trx : SignedTransaction} {skip canonical : Bool}

/-- What the operations of a transaction create of an asset. -/
def createdBy (ops : List Operation) (a : ℤ) : ℤ :=
  (ops.map (·.created a)).sum

theorem createdBy_nonneg (ops : List Operation) (a : ℤ) : 0 ≤ createdBy ops a := by
  refine List.sum_nonneg fun x hx => ?_
  obtain ⟨op, -, rfl⟩ := List.mem_map.1 hx
  unfold Operation.created
  split
  · split
    · exact le_max_left _ _
    · exact le_rfl
  · exact le_rfl

/-- The state before the first operation is ready, and its till has not moved. -/
theorem ready_initial (hp : c.IsPending) (hkeyed : c.flat.Keyed crypto)
    (hbelow : c.flat.AccountsBelow) (signedKeys : List Address) (a : ℤ) :
    Ready crypto a (initial c chainId trx skip signedKeys) := by
  refine ⟨hp, hkeyed, hbelow, ?_, ?_, ?_⟩
  · rfl
  · change IsInt64 0
    decide
  · change IsInt64 0
    decide

/-- The condition and the order keys of one owner. -/
def demoCondition (memo : ℕ) : WithdrawCondition :=
  { WithdrawCondition.ofSignature 18 1 0 with data := .withSignature 18 (some memo) }

def demoKey (ratio : ℕ) : MarketIndexKey :=
  ⟨⟨ratio, 1, 0⟩, 18⟩

/-- A chain state in which one owner has a balance and two bids of an asset. -/
def demoState : ChainInterface :=
  let c := (ChainInterface.blank 100 1).write Crypto.transparent (.asset {})
  let c := c.write Crypto.transparent (.asset { id := 1, currentShareSupply := 3 })
  let c := c.write Crypto.transparent (.balance { balance := 1, condition := demoCondition 0 })
  let c := c.write Crypto.transparent (.bid (demoKey 1) { balance := 1 })
  c.write Crypto.transparent (.bid (demoKey 2) { balance := 1 })

def demoTransaction (operations : List Operation) : SignedTransaction :=
  { expiration := 200, operations, signatures := [9] }

/-- Both bids are changed by the least amount, which is no less than what they hold since its
negation overflows; the running balance wraps twice, and the bids end below zero. -/
def leastOrders : SignedTransaction :=
  demoTransaction
    [.deposit int64Max (demoCondition 1), .bid int64Min (demoKey 1),
      .withdraw (Crypto.transparent.conditionAddress (demoCondition 1)) int64Max .empty,
      .withdraw (Crypto.transparent.conditionAddress (demoCondition 0)) 1 .empty,
      .bid int64Min (demoKey 2)]

/-- A payment of what the owner has. -/
def payment : SignedTransaction :=
  demoTransaction [.withdraw (Crypto.transparent.conditionAddress (demoCondition 0)) 1 .empty,
    .deposit 1 (demoCondition 1)]

theorem solvent_demoState : demoState.flat.Solvent 1 0 := by
  refine ⟨⟨?_, ?_, ?_, ?_, ?_, ?_⟩, ?_, ?_, ?_⟩
  · exact Table.forall_of_toList (by decide +kernel)
  · exact Table.forall_of_toList (by decide +kernel)
  · exact Table.forall_of_toList (by decide +kernel)
  · exact Table.forall_of_toList (by decide +kernel)
  · exact Table.forall_of_toList (by decide +kernel)
  · exact Table.forall_of_toList (by decide +kernel)
  · decide +kernel
  · decide +kernel
  · decide +kernel

end EvaluationState

end LarkX
