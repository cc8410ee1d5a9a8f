import LarkX.Evaluate.Claim
import LarkX.Evaluate.Conserve

/-!
# Margin positions under cover and add_collateral

Both operations take a position from under its key and store what is left of it under a new
price of the same owner. The new price is a division of the remaining debt by the collateral,
or for a cover a price of the owner's choice; neither is checked against the market of the
position or against the positions that are already there. `marginSurvives_iff` says exactly
when debts, collateral and the other positions come through: when every position goes back
into its own market, to a key that is free.
-/

namespace LarkX

/-! ### Debt and collateral of a market asset -/

/-- What a position owes in a market asset. -/
def CollateralRecord.debtIn (a : ℤ) (key : MarketIndexKey) (r : CollateralRecord) : ℤ :=
  if key.orderPrice.quoteAssetId = a then r.payoffBalance else 0

/-- The collateral a position holds against a market asset. -/
def CollateralRecord.backingIn (a : ℤ) (key : MarketIndexKey) (r : CollateralRecord) : ℤ :=
  if key.orderPrice.quoteAssetId = a then r.collateralBalance else 0

/-- `chain_database::calculate_debt`: the debt in a market asset. -/
def Tables.debt (t : Tables) (a : ℤ) : ℤ :=
  Table.sum (CollateralRecord.debtIn a) t.collateral

/-- The collateral against a market asset. -/
def Tables.backing (t : Tables) (a : ℤ) : ℤ :=
  Table.sum (CollateralRecord.backingIn a) t.collateral

/-- What an operation on the position at `key` leaves of the positions: the debt of its market
falls by `covered` and its collateral grows by `gained`, all other positions are as they were,
and what is written is a position of the same owner in the same market. -/
structure PositionsSurvive (key : MarketIndexKey) (covered gained : ℤ) (t t' : Tables) : Prop where
  debt : ∀ a, t'.debt a = t.debt a - if key.orderPrice.quoteAssetId = a then covered else 0
  backing : ∀ a, t'.backing a = t.backing a + if key.orderPrice.quoteAssetId = a then gained else 0
  others : ∀ (k : MarketIndexKey) r, k ≠ key → t.collateral[k]? = some r → r.isNull = false →
    t'.collateral[k]? = some r
  market : ∀ (k : MarketIndexKey) r, t'.collateral[k]? = some r → t.collateral[k]? ≠ some r →
    r.isNull = false → k.assetPair = key.assetPair ∧ k.owner = key.owner

/-- A position fits in at a price: it stays in the market of its key, and no other position is
in its place. -/
structure HasRoom (t : Tables) (key : MarketIndexKey) (rest : CollateralRecord) (price : Price) :
    Prop where
  free : (⟨price, key.owner⟩ : MarketIndexKey) ≠ key → ∀ r,
    t.collateral[(⟨price, key.owner⟩ : MarketIndexKey)]? = some r → r.isNull = true
  market : rest.isNull = false → price.assetPair = key.orderPrice.assetPair

/-- The positions after one was taken from its key. -/
def Tables.takePosition (t : Tables) (key : MarketIndexKey) : Tables :=
  { t with collateral := t.collateral.insert key {} }

/-- The positions after one was stored again at a price. -/
def Tables.movePosition (t : Tables) (key : MarketIndexKey) (price : Price)
    (rest : CollateralRecord) : Tables :=
  { t with collateral := (t.collateral.insert key {}).insert ⟨price, key.owner⟩ rest }

/-! ### When a move of a position survives -/

section Move

variable {t : Tables} {key : MarketIndexKey} {position rest : CollateralRecord} {price : Price}
  {covered gained : ℤ}

/-- A sum over the positions after a position was taken from its key. -/
private theorem sum_takePosition {f : MarketIndexKey → CollateralRecord → ℤ}
    (hf : ∀ k, f k {} = 0) (hposition : t.collateral[key]? = some position) :
    Table.sum f (t.takePosition key).collateral = Table.sum f t.collateral - f key position := by
  rw [Tables.takePosition, Table.sum_insert, hposition, Option.elim_some, hf]
  ring

/-- A sum over the positions after a position was moved to a price. -/
private theorem sum_movePosition {f : MarketIndexKey → CollateralRecord → ℤ} (price : Price)
    (rest : CollateralRecord) (hf : ∀ k, f k {} = 0) (hposition : t.collateral[key]? = some position) :
    Table.sum f (t.movePosition key price rest).collateral =
      Table.sum f t.collateral - f key position + (f ⟨price, key.owner⟩ rest -
        ((t.takePosition key).collateral[(⟨price, key.owner⟩ : MarketIndexKey)]?).elim 0
          (f ⟨price, key.owner⟩)) := by
  have htake := sum_takePosition hf hposition
  rw [Tables.movePosition, Table.sum_insert]
  rw [Tables.takePosition] at htake ⊢
  rw [htake]

/-- Where there is room, the place a position moves to weighs nothing. -/
private theorem HasRoom.weighs_nothing {f : MarketIndexKey → CollateralRecord → ℤ}
    (hf : ∀ k r, r.isNull = true → f k r = 0) (h : HasRoom t key rest price) :
    ((t.takePosition key).collateral[(⟨price, key.owner⟩ : MarketIndexKey)]?).elim 0
      (f ⟨price, key.owner⟩) = 0 := by
  by_cases hkey : (⟨price, key.owner⟩ : MarketIndexKey) = key
  · rw [hkey, Tables.takePosition, Table.getElem?_insert_same, Option.elim_some]
    exact hf _ _ rfl
  · rw [Tables.takePosition, Table.getElem?_insert_of_ne _ _ hkey]
    cases hat : t.collateral[(⟨price, key.owner⟩ : MarketIndexKey)]? with
    | none => rfl
    | some r => exact hf _ _ (h.free hkey r hat)

private theorem isNull_iff {r : CollateralRecord} :
    r.isNull = true ↔ r.payoffBalance = 0 ∧ r.collateralBalance = 0 := by
  rw [CollateralRecord.isNull, Bool.and_eq_true, beq_iff_eq, beq_iff_eq]

private theorem debtIn_null {a : ℤ} (k : MarketIndexKey) (r : CollateralRecord)
    (h : r.isNull = true) : r.debtIn a k = 0 := by
  rw [CollateralRecord.debtIn, (isNull_iff.1 h).1, ite_self]

private theorem backingIn_null {a : ℤ} (k : MarketIndexKey) (r : CollateralRecord)
    (h : r.isNull = true) : r.backingIn a k = 0 := by
  rw [CollateralRecord.backingIn, (isNull_iff.1 h).2, ite_self]

/-- A position that is taken away leaves the others when its debt was covered and its
collateral released. -/
theorem survive_takePosition_iff (hposition : t.collateral[key]? = some position) :
    PositionsSurvive key covered gained t (t.takePosition key) ↔
      position.payoffBalance = covered ∧ position.collateralBalance = -gained := by
  have hdebt (a : ℤ) : (t.takePosition key).debt a = t.debt a - position.debtIn a key :=
    sum_takePosition (fun k => debtIn_null k _ rfl) hposition
  have hbacking (a : ℤ) :
      (t.takePosition key).backing a = t.backing a - position.backingIn a key :=
    sum_takePosition (fun k => backingIn_null k _ rfl) hposition
  constructor
  · intro h
    have hdebt' := h.debt key.orderPrice.quoteAssetId
    have hbacking' := h.backing key.orderPrice.quoteAssetId
    rw [hdebt, CollateralRecord.debtIn, if_pos rfl, if_pos rfl] at hdebt'
    rw [hbacking, CollateralRecord.backingIn, if_pos rfl, if_pos rfl] at hbacking'
    constructor <;> omega
  · rintro ⟨hcovered, hgained⟩
    refine ⟨fun a => ?_, fun a => ?_, fun k r hk hr _ => ?_, fun k r hr hne hnull => ?_⟩
    · rw [hdebt, CollateralRecord.debtIn, hcovered]
    · rw [hbacking, CollateralRecord.backingIn, hgained]
      split <;> omega
    · rwa [Tables.takePosition, Table.getElem?_insert_of_ne _ _ hk]
    · by_cases hk : k = key
      · exact hk ▸ ⟨rfl, rfl⟩
      · rw [Tables.takePosition, Table.getElem?_insert_of_ne _ _ hk] at hr
        exact absurd hr hne

/-- **When a move survives.** A position stored again at a price leaves debts, collateral and
the other positions in order exactly when there is room for it and its amounts do not wrap. -/
theorem survive_movePosition_iff (hposition : t.collateral[key]? = some position)
    (hpayoff : rest.payoffBalance = wrap64 (position.payoffBalance - covered))
    (hcollateral : rest.collateralBalance = wrap64 (position.collateralBalance + gained)) :
    PositionsSurvive key covered gained t (t.movePosition key price rest) ↔
      HasRoom t key rest price ∧ IsInt64 (position.payoffBalance - covered) ∧
        IsInt64 (position.collateralBalance + gained) := by
  set target : MarketIndexKey := ⟨price, key.owner⟩ with htarget
  have hdebt (a : ℤ) := sum_movePosition (f := CollateralRecord.debtIn a) price rest
    (fun k => debtIn_null k _ rfl) hposition
  have hbacking (a : ℤ) := sum_movePosition (f := CollateralRecord.backingIn a) price rest
    (fun k => backingIn_null k _ rfl) hposition
  have hat : (t.movePosition key price rest).collateral[target]? = some rest :=
    Table.getElem?_insert_same _ _ _
  have hother (k : MarketIndexKey) (hk : k ≠ key) (hk' : k ≠ target) :
      (t.movePosition key price rest).collateral[k]? = t.collateral[k]? := by
    rw [Tables.movePosition, Table.getElem?_insert_of_ne _ _ hk',
      Table.getElem?_insert_of_ne _ _ hk]
  constructor
  · intro h
    have hdebt' := h.debt key.orderPrice.quoteAssetId
    have hbacking' := h.backing key.orderPrice.quoteAssetId
    rw [if_pos rfl] at hdebt' hbacking'
    have hfree : target ≠ key → ∀ r, t.collateral[target]? = some r → r.isNull = true := by
      intro hkey r hr
      by_contra hlive
      rw [Bool.not_eq_true] at hlive
      -- the record in the place would have to be the one that is written over it
      have hsame := h.others target r hkey hr hlive
      rw [hat, Option.some.injEq] at hsame
      have hplace : (t.takePosition key).collateral[target]? = some rest := by
        rw [Tables.takePosition, Table.getElem?_insert_of_ne _ _ hkey, hr, hsame]
      rw [Tables.debt, hdebt, hplace, CollateralRecord.debtIn, if_pos rfl] at hdebt'
      rw [Tables.backing, hbacking, hplace, CollateralRecord.backingIn, if_pos rfl] at hbacking'
      have hcovered : position.payoffBalance - covered = 0 := by
        simp only [Option.elim_some, sub_self, Tables.debt] at hdebt'
        omega
      have hgained : position.collateralBalance + gained = 0 := by
        simp only [Option.elim_some, sub_self, Tables.backing] at hbacking'
        omega
      rw [hcovered, wrap64_eq_self (by decide)] at hpayoff
      rw [hgained, wrap64_eq_self (by decide)] at hcollateral
      have hnull := isNull_iff.2 ⟨hpayoff, hcollateral⟩
      rw [hsame, hlive] at hnull
      cases hnull
    have hroom : HasRoom t key rest price := by
      refine ⟨hfree, fun hlive => ?_⟩
      by_cases hkey : target = key
      · exact congrArg (fun k : MarketIndexKey => k.orderPrice.assetPair) hkey
      · refine (h.market target rest hat (fun hr => ?_) hlive).1
        rw [hfree hkey rest hr] at hlive
        cases hlive
    rw [Tables.debt, hdebt, hroom.weighs_nothing debtIn_null, CollateralRecord.debtIn,
      if_pos rfl] at hdebt'
    rw [Tables.backing, hbacking, hroom.weighs_nothing backingIn_null,
      CollateralRecord.backingIn, if_pos rfl] at hbacking'
    have hweights : rest.debtIn key.orderPrice.quoteAssetId target = rest.payoffBalance ∧
        rest.backingIn key.orderPrice.quoteAssetId target = rest.collateralBalance := by
      cases hnull : rest.isNull with
      | true =>
        rw [debtIn_null _ _ hnull, backingIn_null _ _ hnull, (isNull_iff.1 hnull).1,
          (isNull_iff.1 hnull).2]
        exact ⟨rfl, rfl⟩
      | false =>
        have hquote : price.quoteAssetId = key.orderPrice.quoteAssetId :=
          congrArg AssetPair.quote (hroom.market hnull)
        exact ⟨if_pos hquote, if_pos hquote⟩
    rw [hweights.1] at hdebt'
    rw [hweights.2] at hbacking'
    refine ⟨hroom, wrap64_eq_self_iff.1 ?_, wrap64_eq_self_iff.1 ?_⟩
    · rw [← hpayoff]
      simp only [Tables.debt] at hdebt'
      omega
    · rw [← hcollateral]
      simp only [Tables.backing] at hbacking'
      omega
  · rintro ⟨hroom, hcovered, hgained⟩
    rw [wrap64_eq_self hcovered] at hpayoff
    rw [wrap64_eq_self hgained] at hcollateral
    have hweights (a : ℤ) : rest.debtIn a target =
          (if key.orderPrice.quoteAssetId = a then rest.payoffBalance else 0) ∧
        rest.backingIn a target =
          if key.orderPrice.quoteAssetId = a then rest.collateralBalance else 0 := by
      cases hnull : rest.isNull with
      | true =>
        rw [debtIn_null _ _ hnull, backingIn_null _ _ hnull, (isNull_iff.1 hnull).1,
          (isNull_iff.1 hnull).2, ite_self]
        exact ⟨rfl, rfl⟩
      | false =>
        have hquote : price.quoteAssetId = key.orderPrice.quoteAssetId :=
          congrArg AssetPair.quote (hroom.market hnull)
        rw [← hquote]
        exact ⟨rfl, rfl⟩
    refine ⟨fun a => ?_, fun a => ?_, fun k r hk hr hlive => ?_, fun k r hr hne hlive => ?_⟩
    · rw [Tables.debt, hdebt, hroom.weighs_nothing debtIn_null, (hweights a).1,
        CollateralRecord.debtIn, Tables.debt, hpayoff]
      split <;> omega
    · rw [Tables.backing, hbacking, hroom.weighs_nothing backingIn_null, (hweights a).2,
        CollateralRecord.backingIn, Tables.backing, hcollateral]
      split <;> omega
    · by_cases hk' : k = target
      · rw [hk'] at hk hr
        have hnull := hroom.free hk r hr
        rw [hlive] at hnull
        cases hnull
      · rw [hother k hk hk', hr]
    · by_cases hk' : k = target
      · rw [hk', hat, Option.some.injEq] at hr
        exact hk' ▸ ⟨hroom.market (hr ▸ hlive), rfl⟩
      · by_cases hk : k = key
        · exact hk ▸ ⟨rfl, rfl⟩
        · rw [hother k hk hk'] at hr
          exact absurd hr hne

end Move

/-! ### The two operations -/

namespace EvaluationState

variable {crypto : Crypto} {s s' : EvaluationState}

/-- The principal and the interest of a payment into a position. -/
def coverage (crypto : Crypto) (now : ℕ) (amount : ℤ) (key : MarketIndexKey)
    (position : CollateralRecord) : Fallible (Asset × Asset) := do
  let elapsedSec : ℤ := max 0 (now - (position.expiration - btsBlockchainMaxShortPeriodSec))
  let principle : Asset := ⟨position.payoffBalance, key.orderPrice.quoteAssetId⟩
  let interestOwed ← getInterestOwed crypto principle position.interestRate elapsedSec
  let totalDebt ← interestOwed.add principle
  splitPayment crypto ⟨amount, key.orderPrice.quoteAssetId⟩ principle totalDebt
    position.interestRate elapsedSec

/-- The call price of a position. -/
def callPrice (key : MarketIndexKey) (position : CollateralRecord) : Fallible Price :=
  Asset.divAsset ⟨position.payoffBalance, key.orderPrice.quoteAssetId⟩
    ⟨callCollateral position.collateralBalance, key.orderPrice.baseAssetId⟩

/-- The price under which a cover stores a position: one of the owner's choice when that is
above the call price. -/
def coverPrice (key : MarketIndexKey) (newCoverPrice : Option Price)
    (position : CollateralRecord) : Fallible Price := do
  let newCallPrice ← callPrice key position
  return (newCoverPrice.filter fun p => newCallPrice.lt p).getD newCallPrice

/-- A position after a payment of principal. -/
def covered (position : CollateralRecord) (principal : ℤ) : CollateralRecord :=
  { position with payoffBalance := wrap64 (position.payoffBalance - principal) }

/-- A position after collateral was added. -/
def collateralized (position : CollateralRecord) (amount : ℤ) : CollateralRecord :=
  { position with collateralBalance := wrap64 (position.collateralBalance + amount) }

/-- The principal that a payment covers is a 64-bit value. -/
theorem isInt64_coverage {now : ℕ} {amount : ℤ} {key : MarketIndexKey}
    {position : CollateralRecord} {principal interest : Asset} (hamount : IsInt64 amount)
    (hpayoff : IsInt64 position.payoffBalance)
    (h : coverage crypto now amount key position = .ok (principal, interest)) :
    IsInt64 principal.amount := by
  simp only [coverage, bind_eq_ok] at h
  obtain ⟨owed, -, debt, -, hsplit⟩ := h
  rw [splitPayment, ite_eq_ok] at hsplit
  rcases hsplit with ⟨-, hsplit⟩ | ⟨-, hsplit⟩
  · simp only [bind_eq_ok, pure_eq_ok, Prod.mk.injEq] at hsplit
    obtain ⟨-, -, rfl, -⟩ := hsplit
    exact hpayoff
  · simp only [bind_eq_ok, pure_eq_ok, Prod.mk.injEq] at hsplit
    obtain ⟨paid, -, _, hpaid, rfl, -⟩ := hsplit
    exact (Asset.sub_eq_ok hpaid).2.2.2 hamount

/-- How a cover leaves the positions: one is moved to the cover price with the debt that is
left, or it is taken away and its collateral withdrawn. -/
inductive CoverMoves (key : MarketIndexKey) (newCoverPrice : Option Price)
    (rest : CollateralRecord) (s s' : EvaluationState) : Prop
  | moved (price : Price) (hpos : 0 < rest.payoffBalance)
      (hprice : coverPrice key newCoverPrice rest = .ok price)
      (hpositions : s'.currentState.flat.collateral =
        (s.currentState.flat.movePosition key price rest).collateral)
      (hwithdrawn : ∀ a, s'.withdrawn a = s.withdrawn a)
  | closed (hzero : rest.payoffBalance = 0)
      (hpositions : s'.currentState.flat.collateral =
        (s.currentState.flat.takePosition key).collateral)
      (hwithdrawn : ∀ a, s'.withdrawn a =
        s.withdrawn a + if a = key.orderPrice.baseAssetId then rest.collateralBalance else 0)

/-- An asset record that is stored leaves the positions as they are. -/
private theorem collateral_storeAssetRecord {c : ChainInterface}
    (hp : c.IsPending) (r : AssetRecord) : (c.storeAssetRecord r).IsPending ∧
      (c.storeAssetRecord r).flat.collateral = c.flat.collateral := by
  rw [ChainInterface.storeAssetRecord_eq .transparent hp, ChainInterface.flat_write hp]
  exact ⟨(ChainInterface.sameBelow_write _ c _).pending hp, rfl⟩

/-- A position that is stored. -/
private theorem collateral_storeCollateralRecord {c : ChainInterface}
    (hp : c.IsPending) (key : MarketIndexKey) (r : CollateralRecord) :
    (c.storeCollateralRecord key r).IsPending ∧
      (c.storeCollateralRecord key r).flat.collateral = c.flat.collateral.insert key r := by
  rw [ChainInterface.storeCollateralRecord_eq .transparent hp, ChainInterface.flat_write hp]
  exact ⟨(ChainInterface.sameBelow_write _ c _).pending hp, rfl⟩

/-- A payment of the whole debt leaves nothing, which is what the subtraction leaves too. -/
theorem payoff_covered {position : CollateralRecord} {amount principle debt principal
    interest : Asset} {elapsed : ℤ} (hprinciple : principle.amount = position.payoffBalance)
    (h : splitPayment crypto amount principle debt position.interestRate elapsed =
      .ok (principal, interest)) :
    (if amount.ge debt then 0 else wrap64 (position.payoffBalance - principal.amount)) =
      (covered position principal.amount).payoffBalance := by
  rw [covered]
  split
  · rename_i hge
    rw [splitPayment, if_pos hge] at h
    simp only [bind_eq_ok, pure_eq_ok, Prod.mk.injEq] at h
    obtain ⟨-, -, rfl, -⟩ := h
    rw [hprinciple, sub_self]
    rfl
  · rfl

/-- A cover moves or closes the position it names, by the terms of its payment. -/
theorem cover_moves {amount : ℤ} {key : MarketIndexKey} {newCoverPrice : Option Price}
    (hp : s.currentState.IsPending) (h : s.cover crypto amount key newCoverPrice = .ok s') :
    ∃ (position : CollateralRecord) (principal interest : Asset),
      s.currentState.getCollateralRecord key = some position ∧
      coverage crypto s.currentState.now amount key position = .ok (principal, interest) ∧
      0 ≤ principal.amount ∧ 0 ≤ (covered position principal.amount).payoffBalance ∧
      CoverMoves key newCoverPrice (covered position principal.amount) s s' := by
  simp only [cover, bind_eq_ok, require_eq_ok, orThrow_eq_ok] at h
  obtain ⟨-, -, -, -, -, -, -, -, s₁, hsub, position, hposition, asset, -, owed, howed,
    debt, hdebt, ⟨principal, interest⟩, hsplit, -, hprincipal, -, -, -, hpayoff, -, -, h⟩ := h
  have hd := subBalance_eq_ok hsub
  have hp₁ : s₁.currentState.IsPending := hd.currentState ▸ hp
  have hstart : s₁.currentState.flat.collateral = s.currentState.flat.collateral := by
    rw [hd.currentState]
  dsimp only at hprincipal hpayoff h
  have hrest : (if Asset.ge ⟨amount, key.orderPrice.quoteAssetId⟩ debt then 0
      else wrap64 (position.payoffBalance - principal.amount)) =
      (covered position principal.amount).payoffBalance := payoff_covered rfl hsplit
  rw [hrest] at hpayoff h
  rw [show ({ position with payoffBalance := (covered position principal.amount).payoffBalance } :
    CollateralRecord) = covered position principal.amount from rfl] at h
  refine ⟨position, principal, interest, ?_, ?_, hprincipal, hpayoff, ?_⟩
  · rw [← hd.currentState, hposition]
  · simp only [coverage, bind_eq_ok]
    rw [← hd.currentState]
    exact ⟨owed, howed, debt, hdebt, hsplit⟩
  · obtain ⟨hp₂, hasset⟩ := collateral_storeAssetRecord hp₁ { asset with
      currentShareSupply := wrap64 (asset.currentShareSupply - principal.amount)
      collectedFees := wrap64 (asset.collectedFees + interest.amount) }
    obtain ⟨hp₃, htaken⟩ := collateral_storeCollateralRecord hp₂ key {}
    rw [hasset, hstart] at htaken
    rw [ite_eq_ok] at h
    rcases h with ⟨hpos, h⟩ | ⟨hnot, h⟩
    · simp only [bind_eq_ok, pure_eq_ok] at h
      obtain ⟨newCallPrice, hcall, rfl⟩ := h
      obtain ⟨-, hmoved⟩ := collateral_storeCollateralRecord hp₃
        ⟨(newCoverPrice.filter fun p => newCallPrice.lt p).getD newCallPrice, key.owner⟩
        (covered position principal.amount)
      rw [htaken] at hmoved
      refine .moved _ hpos ?_ hmoved fun a => hd.withdrawn a
      rw [coverPrice, bind_eq_ok]
      exact ⟨newCallPrice, hcall, rfl⟩
    · have hw := addBalance_eq_ok h
      refine .closed (le_antisymm (not_lt.1 hnot) hpayoff) ?_ fun a => ?_
      · rw [hw.currentState]
        exact htaken
      · rw [hw.withdrawn, ← hd.withdrawn]
        rfl

/-- Adding collateral moves the position it names to its call price. -/
theorem addCollateral_moves {amount : ℤ} {key : MarketIndexKey} (hp : s.currentState.IsPending)
    (h : s.addCollateral amount key = .ok s') :
    ∃ (position : CollateralRecord) (price : Price),
      s.currentState.getCollateralRecord key = some position ∧
      callPrice key (collateralized position amount) = .ok price ∧
      s'.currentState.flat.collateral =
        (s.currentState.flat.movePosition key price (collateralized position amount)).collateral ∧
      ∀ a, s'.deposited a = s.deposited a + if a = key.orderPrice.baseAssetId then amount else 0 := by
  simp only [addCollateral, bind_eq_ok, require_eq_ok, orThrow_eq_ok, pure_eq_ok] at h
  obtain ⟨-, -, -, -, -, -, s₁, hsub, position, hposition, price, hprice, rfl⟩ := h
  have hd := subBalance_eq_ok hsub
  have hp₁ : s₁.currentState.IsPending := hd.currentState ▸ hp
  obtain ⟨hp₂, htaken⟩ := collateral_storeCollateralRecord hp₁ key {}
  obtain ⟨-, hmoved⟩ := collateral_storeCollateralRecord hp₂ ⟨price, key.owner⟩
    (collateralized position amount)
  have hstart : s₁.currentState.flat.collateral = s.currentState.flat.collateral := by
    rw [hd.currentState]
  rw [htaken, hstart] at hmoved
  exact ⟨position, price, hd.currentState ▸ hposition, hprice, hmoved, fun a => hd.deposited a⟩

/-! ### When an operation survives -/

/-- What `cover` and `add_collateral` should do to the positions: the debt falls by the
principal of the payment, collateral that is released goes to the books of the transaction,
and collateral that is added comes from them. -/
def OperationSurvives (crypto : Crypto) (s : EvaluationState) :
    Operation → EvaluationState → Prop
  | .cover amount key _, s' => ∃ (position : CollateralRecord) (principal interest : Asset)
      (released : ℤ), s.currentState.getCollateralRecord key = some position ∧
      coverage crypto s.currentState.now amount key position = .ok (principal, interest) ∧
      PositionsSurvive key principal.amount (-released) s.currentState.flat s'.currentState.flat ∧
      ∀ a, s'.withdrawn a =
        s.withdrawn a + if a = key.orderPrice.baseAssetId then released else 0
  | .addCollateral amount key, s' =>
    PositionsSurvive key 0 amount s.currentState.flat s'.currentState.flat ∧
      ∀ a, s'.deposited a = s.deposited a + if a = key.orderPrice.baseAssetId then amount else 0
  | _, _ => True

/-- The condition for that: the position does not owe a negative amount, the collateral that
results fits in 64 bits, and there is room at the price where the rest is stored again. -/
def OperationFits (crypto : Crypto) (c : ChainInterface) : Operation → Prop
  | .cover amount key newCoverPrice => ∀ position, c.getCollateralRecord key = some position →
      0 ≤ position.payoffBalance ∧ ∀ principal interest,
        coverage crypto c.now amount key position = .ok (principal, interest) →
        0 < (covered position principal.amount).payoffBalance → ∀ price,
        coverPrice key newCoverPrice (covered position principal.amount) = .ok price →
        HasRoom c.flat key (covered position principal.amount) price
  | .addCollateral amount key => ∀ position, c.getCollateralRecord key = some position →
      IsInt64 (position.collateralBalance + amount) ∧ ∀ price,
        callPrice key (collateralized position amount) = .ok price →
        HasRoom c.flat key (collateralized position amount) price
  | _ => True

/-- The amounts of a position are 64-bit values. -/
def InRange (c : ChainInterface) : Prop :=
  ∀ (key : MarketIndexKey) r, c.flat.collateral[key]? = some r →
    IsInt64 r.payoffBalance ∧ IsInt64 r.collateralBalance

/-- Only the positions matter for their survival. -/
private theorem PositionsSurvive.congr {key : MarketIndexKey} {covered gained : ℤ}
    {t t' t'' : Tables} (h : t'.collateral = t''.collateral) :
    PositionsSurvive key covered gained t t' ↔ PositionsSurvive key covered gained t t'' := by
  constructor
  · intro hs
    have hdebt (a : ℤ) : t''.debt a = t'.debt a := by rw [Tables.debt, ← h, Tables.debt]
    have hbacking (a : ℤ) : t''.backing a = t'.backing a := by
      rw [Tables.backing, ← h, Tables.backing]
    exact ⟨fun a => hdebt a ▸ hs.debt a, fun a => hbacking a ▸ hs.backing a, h ▸ hs.others,
      h ▸ hs.market⟩
  · intro hs
    have hdebt (a : ℤ) : t'.debt a = t''.debt a := by rw [Tables.debt, h, Tables.debt]
    have hbacking (a : ℤ) : t'.backing a = t''.backing a := by
      rw [Tables.backing, h, Tables.backing]
    exact ⟨fun a => hdebt a ▸ hs.debt a, fun a => hbacking a ▸ hs.backing a, h ▸ hs.others,
      h ▸ hs.market⟩

theorem cover_survives_iff {amount : ℤ} {key : MarketIndexKey} {newCoverPrice : Option Price}
    (hp : s.currentState.IsPending) (hrange : InRange s.currentState) (hamount : IsInt64 amount)
    (h : s.cover crypto amount key newCoverPrice = .ok s') :
    OperationSurvives crypto s (.cover amount key newCoverPrice) s' ↔
      OperationFits crypto s.currentState (.cover amount key newCoverPrice) := by
  obtain ⟨position, principal, interest, hposition, hcoverage, hprincipal, hpayoff, hmoves⟩ :=
    cover_moves hp h
  have hposition' := hposition
  rw [ChainInterface.getCollateralRecord_eq] at hposition'
  obtain ⟨hpayoffRange, hcollateralRange⟩ := hrange key position hposition'
  have hprincipalRange := isInt64_coverage hamount hpayoffRange hcoverage
  -- the debt that is left did not wrap exactly when the debt was not negative
  have hwrap : IsInt64 (position.payoffBalance - principal.amount) ↔
      0 ≤ position.payoffBalance := by
    constructor
    · intro hfits
      rw [covered, wrap64_eq_self hfits] at hpayoff
      exact hprincipal.trans (sub_nonneg.1 hpayoff)
    · intro hnonneg
      unfold IsInt64 int64Min int64Max at hpayoffRange hprincipalRange ⊢
      constructor <;> omega
  constructor
  · rintro ⟨position₁, principal₁, interest₁, released, hposition₁, hcoverage₁, hsurvives,
      hwithdrawn⟩ position₂ hposition₂
    rw [hposition] at hposition₁ hposition₂
    cases hposition₁
    cases hposition₂
    rw [hcoverage] at hcoverage₁
    cases hcoverage₁
    cases hmoves with
    | moved price hpos hprice hpositions hsame =>
      have hreleased := hwithdrawn key.orderPrice.baseAssetId
      rw [if_pos rfl, hsame] at hreleased
      have hzero : released = 0 := by omega
      rw [hzero, neg_zero, PositionsSurvive.congr hpositions, survive_movePosition_iff hposition'
        rfl (by rw [add_zero, wrap64_eq_self hcollateralRange]; rfl)] at hsurvives
      obtain ⟨hroom, hfits, -⟩ := hsurvives
      refine ⟨hwrap.1 hfits, fun principal₂ interest₂ hcoverage₂ _ price₂ hprice₂ => ?_⟩
      rw [hcoverage] at hcoverage₂
      cases hcoverage₂
      rw [hprice] at hprice₂
      cases hprice₂
      exact hroom
    | closed hzero hpositions _ =>
      rw [PositionsSurvive.congr hpositions, survive_takePosition_iff hposition'] at hsurvives
      refine ⟨hsurvives.1 ▸ hprincipal, fun principal₂ interest₂ hcoverage₂ hpos => ?_⟩
      rw [hcoverage] at hcoverage₂
      cases hcoverage₂
      omega
  · intro hfits
    obtain ⟨hnonneg, hroom⟩ := hfits position hposition
    cases hmoves with
    | moved price hpos hprice hpositions hsame =>
      refine ⟨position, principal, interest, 0, hposition, hcoverage, ?_, fun a => ?_⟩
      · rw [neg_zero, PositionsSurvive.congr hpositions, survive_movePosition_iff hposition' rfl
          (by rw [add_zero, wrap64_eq_self hcollateralRange]; rfl), add_zero]
        exact ⟨hroom principal interest hcoverage hpos price hprice, hwrap.2 hnonneg,
          hcollateralRange⟩
      · rw [hsame, ite_self, add_zero]
    | closed hzero hpositions hsame =>
      refine ⟨position, principal, interest, position.collateralBalance, hposition, hcoverage, ?_,
        hsame⟩
      rw [PositionsSurvive.congr hpositions, survive_takePosition_iff hposition', neg_neg]
      rw [covered, wrap64_eq_self (hwrap.2 hnonneg)] at hzero
      exact ⟨sub_eq_zero.1 hzero, rfl⟩

theorem addCollateral_survives_iff {amount : ℤ} {key : MarketIndexKey}
    (hp : s.currentState.IsPending) (hrange : InRange s.currentState)
    (h : s.addCollateral amount key = .ok s') :
    OperationSurvives crypto s (.addCollateral amount key) s' ↔
      OperationFits crypto s.currentState (.addCollateral amount key) := by
  obtain ⟨position, price, hposition, hprice, hpositions, hdeposited⟩ := addCollateral_moves hp h
  have hposition' := hposition
  rw [ChainInterface.getCollateralRecord_eq] at hposition'
  obtain ⟨hpayoffRange, -⟩ := hrange key position hposition'
  have hiff : PositionsSurvive key 0 amount s.currentState.flat s'.currentState.flat ↔ _ :=
    (PositionsSurvive.congr hpositions).trans (survive_movePosition_iff hposition'
      (by rw [sub_zero, wrap64_eq_self hpayoffRange]; rfl) rfl)
  rw [sub_zero] at hiff
  constructor
  · rintro ⟨hsurvives, -⟩ position₁ hposition₁
    rw [hposition] at hposition₁
    cases hposition₁
    obtain ⟨hroom, -, hfits⟩ := hiff.1 hsurvives
    refine ⟨hfits, fun price₁ hprice₁ => ?_⟩
    rw [hprice] at hprice₁
    cases hprice₁
    exact hroom
  · intro hfits
    obtain ⟨hsum, hroom⟩ := hfits position hposition
    exact ⟨hiff.2 ⟨hroom price hprice, hpayoffRange, hsum⟩, hdeposited⟩

/-! ### Transactions -/

/-- A position in range is stored over a table in range. -/
private theorem inRange_insert {t : Table MarketIndexKey CollateralRecord}
    (ht : ∀ (k : MarketIndexKey) r, t[k]? = some r →
      IsInt64 r.payoffBalance ∧ IsInt64 r.collateralBalance)
    (key : MarketIndexKey) {rest : CollateralRecord}
    (hrest : IsInt64 rest.payoffBalance ∧ IsInt64 rest.collateralBalance) (k : MarketIndexKey)
    (r : CollateralRecord) (hr : (t.insert key rest)[k]? = some r) :
    IsInt64 r.payoffBalance ∧ IsInt64 r.collateralBalance := by
  by_cases hk : k = key
  · rw [hk, Table.getElem?_insert_same, Option.some.injEq] at hr
    exact hr ▸ hrest
  · rw [Table.getElem?_insert_of_ne _ _ hk] at hr
    exact ht k r hr

theorem InRange.cover {amount : ℤ} {key : MarketIndexKey} {newCoverPrice : Option Price}
    (hrange : InRange s.currentState) (hp : s.currentState.IsPending)
    (h : s.cover crypto amount key newCoverPrice = .ok s') : InRange s'.currentState := by
  obtain ⟨position, principal, interest, hposition, -, -, -, hmoves⟩ := cover_moves hp h
  rw [ChainInterface.getCollateralRecord_eq] at hposition
  have hnull : IsInt64 ({} : CollateralRecord).payoffBalance ∧
      IsInt64 ({} : CollateralRecord).collateralBalance := ⟨by decide, by decide⟩
  have htaken := inRange_insert hrange key hnull
  cases hmoves with
  | moved price _ _ hpositions _ =>
    intro k r hr
    rw [hpositions] at hr
    have hrest : IsInt64 (covered position principal.amount).payoffBalance ∧
        IsInt64 (covered position principal.amount).collateralBalance :=
      ⟨isInt64_wrap64 _, (hrange key position hposition).2⟩
    exact inRange_insert htaken _ hrest k r hr
  | closed _ hpositions _ =>
    intro k r hr
    rw [hpositions] at hr
    exact htaken k r hr

theorem InRange.addCollateral {amount : ℤ} {key : MarketIndexKey}
    (hrange : InRange s.currentState) (hp : s.currentState.IsPending)
    (h : s.addCollateral amount key = .ok s') : InRange s'.currentState := by
  obtain ⟨position, price, hposition, -, hpositions, -⟩ := addCollateral_moves hp h
  rw [ChainInterface.getCollateralRecord_eq] at hposition
  intro k r hr
  rw [hpositions] at hr
  have hnull : IsInt64 ({} : CollateralRecord).payoffBalance ∧
      IsInt64 ({} : CollateralRecord).collateralBalance := ⟨by decide, by decide⟩
  have htaken := inRange_insert hrange key hnull
  have hrest : IsInt64 (collateralized position amount).payoffBalance ∧
      IsInt64 (collateralized position amount).collateralBalance :=
    ⟨(hrange key position hposition).1, isInt64_wrap64 _⟩
  exact inRange_insert htaken _ hrest k r hr

/-- The positions through the operations of a transaction: each operation does what it should,
and what follows the last one does nothing. -/
inductive MarginRun (crypto : Crypto) : EvaluationState → List Operation → EvaluationState → Prop
  | done {s s' : EvaluationState}
      (h : s'.currentState.flat.collateral = s.currentState.flat.collateral) : MarginRun crypto s [] s'
  | step {s s₁ s' : EvaluationState} {op : Operation} {ops : List Operation}
      (hop : s.evaluateOperation crypto op = .ok s₁) (hsurvives : OperationSurvives crypto s op s₁)
      (hrest : MarginRun crypto s₁ ops s') : MarginRun crypto s (op :: ops) s'

/-- Every operation meets its condition in the state it is evaluated in. -/
def OperationsFit (crypto : Crypto) (s : EvaluationState) : List Operation → Prop
  | [] => True
  | op :: ops => OperationFits crypto s.currentState op ∧
    ∀ s₁, s.evaluateOperation crypto op = .ok s₁ → OperationsFit crypto s₁ ops

/-- **Step.** One operation on a margin position. -/
theorem operation_survives_iff {op : Operation} (hp : s.currentState.IsPending)
    (hrange : InRange s.currentState) (hmargin : op.isMargin = true)
    (hamount : IsInt64 op.namedAmount) (h : s.evaluateOperation crypto op = .ok s') :
    (OperationSurvives crypto s op s' ↔ OperationFits crypto s.currentState op) ∧
      InRange s'.currentState ∧ s'.currentState.IsPending := by
  have hpending := (evaluateOperation_writes hp h).isPending hp
  cases op with
  | cover amount key newCoverPrice =>
    exact ⟨cover_survives_iff hp hrange hamount h, hrange.cover hp h, hpending⟩
  | addCollateral amount key =>
    exact ⟨addCollateral_survives_iff hp hrange h, hrange.addCollateral hp h, hpending⟩
  | _ => cases hmargin

/-- **Run.** The operations of a transaction, one after the other. -/
theorem marginRun_iff {ops : List Operation} {s₁ : EvaluationState}
    (hp : s.currentState.IsPending) (hrange : InRange s.currentState)
    (hops : ∀ op ∈ ops, op.isMargin = true ∧ IsInt64 op.namedAmount)
    (h : s.evaluateOperations crypto ops = .ok s₁)
    (hend : s'.currentState.flat.collateral = s₁.currentState.flat.collateral) :
    MarginRun crypto s ops s' ↔ OperationsFit crypto s ops := by
  induction ops generalizing s with
  | nil =>
    cases h
    exact ⟨fun _ => trivial, fun _ => .done hend⟩
  | cons op ops ih =>
    rw [evaluateOperations, List.foldlM_cons, bind_eq_ok] at h
    obtain ⟨s₂, hop, h⟩ := h
    obtain ⟨hmargin, hamount⟩ := hops op List.mem_cons_self
    obtain ⟨hiff, hrange₂, hp₂⟩ := operation_survives_iff hp hrange hmargin hamount hop
    have hrest := ih hp₂ hrange₂ (fun op' hop' => hops op' (List.mem_cons_of_mem _ hop')) h
    constructor
    · intro hrun
      cases hrun with
      | step hop' hsurvives hrun =>
        rw [hop] at hop'
        cases hop'
        refine ⟨hiff.1 hsurvives, fun s₃ hs₃ => ?_⟩
        rw [hop] at hs₃
        cases hs₃
        exact hrest.1 hrun
    · rintro ⟨hfits, hafter⟩
      exact .step hop (hiff.2 hfits) (hrest.2 (hafter s₂ hop))

section Transactions

variable {c : ChainInterface} {chainId : Digest} {trx : SignedTransaction} {skip canonical : Bool}

/-- The state in which the first operation of a transaction is evaluated. -/
def start (crypto : Crypto) (c : ChainInterface) (chainId : Digest) (trx : SignedTransaction)
    (skip canonical : Bool) : Fallible EvaluationState := do
  let signedKeys ← if skip then pure [] else
    recoverSignedKeys crypto (crypto.transactionDigest trx.toTransaction chainId) canonical
      trx.signatures
  return initial c chainId trx skip signedKeys

/-- **Margin positions survive** a transaction that leads to `s'`. -/
def MarginSurvives (crypto : Crypto) (c : ChainInterface) (chainId : Digest)
    (trx : SignedTransaction) (skip canonical : Bool) (s' : EvaluationState) : Prop :=
  ∃ s, start crypto c chainId trx skip canonical = .ok s ∧ MarginRun crypto s trx.operations s'

/-- The condition on a transaction. -/
def MarginFits (crypto : Crypto) (c : ChainInterface) (chainId : Digest)
    (trx : SignedTransaction) (skip canonical : Bool) : Prop :=
  ∃ s, start crypto c chainId trx skip canonical = .ok s ∧
    OperationsFit crypto s trx.operations

/-- What follows the operations writes assets and accounts only. -/
theorem collateral_of_postEvaluate {s₁ s₂ : EvaluationState} (hp : s₁.currentState.IsPending)
    (hpost : s₁.postEvaluate = .ok s₂) (hvotes : s₂.updateDelegateVotes crypto = .ok s') :
    s'.currentState.flat.collateral = s₁.currentState.flat.collateral := by
  obtain ⟨s₀, hstate, -, hfees⟩ := postEvaluate_eq_ok hpost
  rw [← hstate] at hp ⊢
  have h₂ : s₂.currentState.IsPending ∧
      s₂.currentState.flat.collateral = s₀.currentState.flat.collateral := by
    refine foldlM_induction (P := fun s : EvaluationState => s.currentState.IsPending ∧
      s.currentState.flat.collateral = s₀.currentState.flat.collateral) ?_ ⟨hp, rfl⟩ hfees
    rintro s fee s' - ⟨hps, hs⟩ hfee
    obtain ⟨-, ⟨-, rfl⟩ | ⟨r, -, -, rfl⟩⟩ := collectFee_eq_ok hfee
    · exact ⟨hps, hs⟩
    · obtain ⟨hps', hs'⟩ := collateral_storeAssetRecord hps
        { r with collectedFees := wrap64 (r.collectedFees + fee.2) }
      exact ⟨hps', hs'.trans hs⟩
  have h₃ : s'.currentState.IsPending ∧
      s'.currentState.flat.collateral = s₀.currentState.flat.collateral := by
    refine foldlM_induction (P := fun s : EvaluationState => s.currentState.IsPending ∧
      s.currentState.flat.collateral = s₀.currentState.flat.collateral) ?_ h₂ hvotes
    rintro s delVote s' - ⟨hps, hs⟩ hvote
    obtain ⟨r, r', -, -, -, -, rfl⟩ := updateDelegateVote_eq_ok hvote
    change (s.currentState.storeAccountRecord crypto r').IsPending ∧
      (s.currentState.storeAccountRecord crypto r').flat.collateral = _
    rw [ChainInterface.storeAccountRecord_eq hps, ChainInterface.flat_write hps]
    exact ⟨(ChainInterface.sameBelow_write _ _ _).pending hps, hs⟩
  exact h₃.2

/-- **When margin positions survive.** A transaction of covers and additions of collateral
that evaluates leaves debts, collateral and the other positions in order exactly when each of
its operations meets its condition. -/
theorem marginSurvives_iff (hp : c.IsPending) (hrange : InRange c)
    (hops : ∀ op ∈ trx.operations, op.isMargin = true ∧ IsInt64 op.namedAmount)
    (h : evaluate crypto c chainId trx skip canonical = .ok s') :
    MarginSurvives crypto c chainId trx skip canonical s' ↔
      MarginFits crypto c chainId trx skip canonical := by
  simp only [evaluate, ite_bind, bind_eq_ok] at h
  obtain ⟨-, -, signedKeys, hkeys, s₁, hrun, s₂, hpost, -, -, hvotes⟩ := h
  have hstart : start crypto c chainId trx skip canonical =
      .ok (initial c chainId trx skip signedKeys) := by
    simp only [start, ite_bind, bind_eq_ok]
    exact ⟨signedKeys, hkeys, rfl⟩
  have hp₁ : s₁.currentState.IsPending := (evaluateOperations_writes hp hrun).isPending hp
  have hiff : MarginRun crypto (initial c chainId trx skip signedKeys) trx.operations s' ↔ _ :=
    marginRun_iff hp hrange hops hrun (collateral_of_postEvaluate hp₁ hpost hvotes)
  constructor
  · rintro ⟨s, hs, hsurvives⟩
    rw [hstart] at hs
    cases hs
    exact ⟨_, hstart, hiff.1 hsurvives⟩
  · rintro ⟨s, hs, hfits⟩
    rw [hstart] at hs
    cases hs
    exact ⟨_, hstart, hiff.2 hfits⟩

end Transactions

/-! ### A position written over another -/

/-- The price of one asset in the base asset. -/
def priceOf (ratio : ℕ) : Price :=
  ⟨ratio, 1, 0⟩

/-- A position of the key `9`. -/
def positionAt (ratio : ℕ) : MarketIndexKey :=
  ⟨priceOf ratio, Crypto.transparent.keyAddress 9⟩

/-- A chain state with two positions of one owner, one at its call price and one above. -/
def twoPositions : ChainInterface :=
  ((((ChainInterface.blank 100 1).write .transparent (.asset {})).write .transparent
    (.asset { id := 1, issuerAccountId := -2, currentShareSupply := 30 })).write .transparent
    (.collateral (positionAt 50000000000000000)
      { collateralBalance := 300, payoffBalance := 10, interestRate := priceOf 1 })).write
    .transparent (.collateral (positionAt 1000000000000000000)
      { collateralBalance := 30, payoffBalance := 20, interestRate := priceOf 1 })

/-- Nothing is paid, and the first position is moved to a price of the owner's choice. -/
def moveTo (ratio : ℕ) : SignedTransaction where
  expiration := 200
  operations := [.cover 0 (positionAt 50000000000000000) (some (priceOf ratio))]
  signatures := [9]

theorem inRange_twoPositions : InRange twoPositions :=
  Table.forall_of_toList (by decide +kernel)

/-- **A position is written over another.** The owner moves one position to the price of the
other, and the transaction evaluates; the other position is gone. -/
theorem position_overwritten :
    ∃ s, evaluate Crypto.transparent twoPositions 0 (moveTo 1000000000000000000) false false =
        .ok s ∧
      ¬MarginSurvives Crypto.transparent twoPositions 0 (moveTo 1000000000000000000) false false
        s := by
  obtain ⟨s, hs⟩ := exists_eq_ok (x := evaluate Crypto.transparent twoPositions 0
    (moveTo 1000000000000000000) false false) (by decide +kernel)
  refine ⟨s, hs, ?_⟩
  rintro ⟨s₀, hstart, hrun⟩
  have hbefore : s₀.currentState = twoPositions := by
    simp only [start, ite_bind, bind_eq_ok] at hstart
    obtain ⟨signedKeys, -, hstart⟩ := hstart
    cases hstart
    rfl
  -- the other position should be there at the end, with the debt it had
  have hother : s.currentState.flat.collateral[positionAt 1000000000000000000]? =
      some { collateralBalance := 30, payoffBalance := 20, interestRate := priceOf 1 } := by
    cases hrun with
    | step hop hsurvives hrest =>
      obtain ⟨_, _, _, _, _, _, hpositions, _⟩ := hsurvives
      cases hrest with
      | done hend =>
        rw [hend]
        refine hpositions.others _ _ (by decide) ?_ rfl
        rw [hbefore]
        decide +kernel
  have hdebt : (evaluate Crypto.transparent twoPositions 0 (moveTo 1000000000000000000) false
      false).map (fun s => (s.currentState.flat.collateral[positionAt
        1000000000000000000]?).map CollateralRecord.payoffBalance) = .ok (some 10) := by
    decide +kernel
  rw [hs] at hdebt
  have hafter : (s.currentState.flat.collateral[positionAt 1000000000000000000]?).map
      CollateralRecord.payoffBalance = some 10 := Except.ok.inj hdebt
  rw [hother] at hafter
  revert hafter
  decide

/-- The position is moved to a price that is free. -/
theorem marginSurvives_free :
    ∃ s, evaluate Crypto.transparent twoPositions 0 (moveTo 200000000000000000) false false =
        .ok s ∧
      (MarginSurvives Crypto.transparent twoPositions 0 (moveTo 200000000000000000) false false
          s ↔
        MarginFits Crypto.transparent twoPositions 0 (moveTo 200000000000000000) false false) := by
  obtain ⟨s, hs⟩ := exists_eq_ok (x := evaluate Crypto.transparent twoPositions 0
    (moveTo 200000000000000000) false false) (by decide +kernel)
  have hp : twoPositions.IsPending := List.cons_ne_nil _ _
  exact ⟨s, hs, marginSurvives_iff hp inRange_twoPositions (by decide) hs⟩

end EvaluationState

end LarkX
