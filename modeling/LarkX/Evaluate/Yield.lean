import LarkX.Evaluate.Spec

/-!
# The yield of a balance

`calculate_yield` divides the fee fund by the shares outside it, scaled by the amount and the age of
the balance. In exact arithmetic (`yieldOf`) it is monotone in both and stays below the fund while the
amount is no more than the shares outside it. The code keeps 128 bits and divides by the shares
outside the fund, so it is safe where these are positive and the products fit
(`calculateYield_fair_iff`).
-/

namespace LarkX

namespace EvaluationState

/-! ### The yield in exact arithmetic -/

/-- The millionths of the fee fund that an amount earns in a year or more. -/
def fullYield (amount yieldPool shareSupply : ℕ) : ℕ :=
  amount * 1000000 * yieldPool / (shareSupply - yieldPool)

/-- The yield after the discount for balances younger than a year: four fifths grow with the age, one
fifth with its square. -/
def yieldOf (yield elapsed : ℕ) : ℕ :=
  if elapsed < btsBlockchainSecondsPerYear then
    yield * 8 / 10 * elapsed / btsBlockchainSecondsPerYear +
      (yield - yield * 8 / 10) * elapsed / btsBlockchainSecondsPerYear * elapsed /
        btsBlockchainSecondsPerYear
  else yield

variable {yield yield' elapsed elapsed' : ℕ}

theorem yieldOf_of_lt (h : elapsed < btsBlockchainSecondsPerYear) : yieldOf yield elapsed =
    yield * 8 / 10 * elapsed / btsBlockchainSecondsPerYear +
      (yield - yield * 8 / 10) * elapsed / btsBlockchainSecondsPerYear * elapsed /
        btsBlockchainSecondsPerYear :=
  if_pos h

/-- The yield grows with the amount and with the age, up to a year. -/
theorem yieldOf_mono (hyield : yield ≤ yield') (helapsed : elapsed ≤ elapsed')
    (hyear : elapsed' < btsBlockchainSecondsPerYear) :
    yieldOf yield elapsed ≤ yieldOf yield' elapsed' := by
  have hsimple : yield * 8 / 10 ≤ yield' * 8 / 10 := by omega
  have hdelta : yield - yield * 8 / 10 ≤ yield' - yield' * 8 / 10 := by omega
  rw [yieldOf_of_lt (helapsed.trans_lt hyear), yieldOf_of_lt hyear]
  refine Nat.add_le_add ?_ ?_
  · exact Nat.div_le_div_right (Nat.mul_le_mul hsimple helapsed)
  · refine Nat.div_le_div_right (Nat.mul_le_mul ?_ helapsed)
    exact Nat.div_le_div_right (Nat.mul_le_mul hdelta helapsed)

/-- Below a year a share of the yield is less than it. -/
theorem mul_div_year_lt {n : ℕ} (hn : 0 < n) (h : elapsed < btsBlockchainSecondsPerYear) :
    n * elapsed / btsBlockchainSecondsPerYear < n :=
  (Nat.div_lt_iff_lt_mul (by decide)).2 (Nat.mul_lt_mul_of_pos_left h hn)

/-- Below a year the discounted yield is less than the full one. -/
theorem yieldOf_lt (hyield : 0 < yield) (h : elapsed < btsBlockchainSecondsPerYear) :
    yieldOf yield elapsed < yield := by
  have hdelta : 0 < yield - yield * 8 / 10 := by omega
  have honce := mul_div_year_lt hdelta h
  have hsimple : yield * 8 / 10 * elapsed / btsBlockchainSecondsPerYear ≤ yield * 8 / 10 := by
    rcases Nat.eq_zero_or_pos (yield * 8 / 10) with hzero | hpos
    · rw [hzero, Nat.zero_mul, Nat.zero_div]
    · exact (mul_div_year_lt hpos h).le
  have htwice : (yield - yield * 8 / 10) * elapsed / btsBlockchainSecondsPerYear * elapsed /
      btsBlockchainSecondsPerYear ≤
        (yield - yield * 8 / 10) * elapsed / btsBlockchainSecondsPerYear := by
    rcases Nat.eq_zero_or_pos ((yield - yield * 8 / 10) * elapsed / btsBlockchainSecondsPerYear)
      with hzero | hpos
    · rw [hzero, Nat.zero_mul, Nat.zero_div]
    · exact (mul_div_year_lt hpos h).le
  rw [yieldOf_of_lt h]
  omega

/-! ### The 128-bit intermediates -/

/-- No intermediate of the discount wraps 128 bits. -/
structure DiscountFits (yield elapsed : ℕ) : Prop where
  eight : yield * 8 < 2 ^ 128
  simple : yield * 8 / 10 * elapsed < 2 ^ 128
  once : (yield - yield * 8 / 10) * elapsed < 2 ^ 128
  twice : (yield - yield * 8 / 10) * elapsed / btsBlockchainSecondsPerYear * elapsed < 2 ^ 128
  sum : yieldOf yield elapsed < 2 ^ 128

/-- No intermediate of the yield wraps 128 bits. -/
structure YieldFits (amount yieldPool shareSupply elapsed : ℕ) : Prop where
  outside : yieldPool ≤ shareSupply
  millions : amount * 1000000 < 2 ^ 128
  product : amount * 1000000 * yieldPool < 2 ^ 128
  discount : elapsed < btsBlockchainSecondsPerYear →
    DiscountFits (fullYield amount yieldPool shareSupply) elapsed

/-- Without wraps the code computes the exact discount. -/
theorem scaledYield_eq (h : elapsed < btsBlockchainSecondsPerYear → DiscountFits yield elapsed) :
    scaledYield yield elapsed = yieldOf yield elapsed := by
  unfold scaledYield
  split_ifs with hyear
  · obtain ⟨height, hsimple, honce, htwice, hsum⟩ := h hyear
    have hle : yield * 8 / 10 ≤ yield := by omega
    have hdelta : (yield + 2 ^ 128 - yield * 8 / 10) % 2 ^ 128 = yield - yield * 8 / 10 := by
      have hsub : yield + 2 ^ 128 - yield * 8 / 10 = yield - yield * 8 / 10 + 2 ^ 128 := by omega
      rw [hsub, Nat.add_mod_right, Nat.mod_eq_of_lt (by omega)]
    rw [yieldOf_of_lt hyear] at hsum ⊢
    dsimp only
    rw [Nat.mod_eq_of_lt height, hdelta, Nat.mod_eq_of_lt hsimple, Nat.mod_eq_of_lt honce,
      Nat.mod_eq_of_lt htwice, Nat.mod_eq_of_lt hsum]
  · rw [yieldOf, if_neg hyear]

/-- A discount that fits in 64 bits had no wrap on the way, past the first day. -/
theorem discountFits_of_lt (hday : 86400 < elapsed) (hyear : elapsed < btsBlockchainSecondsPerYear)
    (h : yieldOf yield elapsed / 1000000 < 2 ^ 64) : DiscountFits yield elapsed := by
  have hseconds : btsBlockchainSecondsPerYear = 31536000 := rfl
  have hsum := h
  rw [yieldOf_of_lt hyear] at hsum
  rw [hseconds] at hyear hsum
  have hsimple : yield * 8 / 10 * elapsed < 18446744073709551616000000 * 31536000 := by omega
  have hday' : yield * 8 / 10 * 86401 ≤ yield * 8 / 10 * elapsed := Nat.mul_le_mul_left _ hday
  have honce : (yield - yield * 8 / 10) * elapsed ≤ (yield - yield * 8 / 10) * 31536000 :=
    Nat.mul_le_mul_left _ hyear.le
  have htwice : (yield - yield * 8 / 10) * elapsed / 31536000 * elapsed ≤
      (yield - yield * 8 / 10) * elapsed / 31536000 * 31536000 :=
    Nat.mul_le_mul_left _ hyear.le
  refine ⟨by omega, by omega, by omega, by rw [hseconds]; omega, by omega⟩

variable {r : BalanceRecord} {now : ℕ} {amount yieldPool shareSupply : ℤ}

/-- Whether `calculate_yield` gets past its early returns. -/
def EarnsYield (r : BalanceRecord) (now : ℕ) (amount yieldPool shareSupply : ℤ) : Prop :=
  0 < amount ∧ 0 < shareSupply ∧ 0 < yieldPool ∧ btsBlockchainMinYieldPeriodSec < now - r.depositDate

/-- A balance that earns no yield gets none. -/
theorem calculateYield_of_not (h : ¬ EarnsYield r now amount yieldPool shareSupply) :
    calculateYield r now amount yieldPool shareSupply = .ok 0 := by
  unfold EarnsYield at h
  unfold calculateYield
  exact if_pos (by omega)

theorem toUint128_natCast {n : ℕ} (hn : n < 2 ^ 128) : toUint128 n = n := by
  unfold toUint128
  omega

/-- Where nothing wraps, the yield is the exact one. -/
theorem calculateYield_eq {amount yieldPool shareSupply : ℕ}
    (hearns : EarnsYield r now amount yieldPool shareSupply)
    (hamount : IsInt64 amount) (hpool : IsInt64 yieldPool) (hsupply : IsInt64 shareSupply)
    (hdate : r.depositDate ≤ now)
    (hfits : YieldFits amount yieldPool shareSupply (now - r.depositDate)) :
    calculateYield r now amount yieldPool shareSupply = (do
      require (shareSupply - yieldPool ≠ 0) (.assertion "division by zero")
      let yieldAmount :=
        yieldOf (fullYield amount yieldPool shareSupply) (now - r.depositDate) / 1000000
      require (yieldAmount < 2 ^ 64) (.assertion "hi == 0")
      return if 0 < yieldAmount ∧ yieldAmount < yieldPool then (yieldAmount : ℤ) else 0) := by
  obtain ⟨hsub, hmillions, hproduct, hdiscount⟩ := hfits
  unfold EarnsYield at hearns
  have hnot : ¬ ((amount : ℤ) ≤ 0 ∨ (shareSupply : ℤ) ≤ 0 ∨ (yieldPool : ℤ) ≤ 0 ∨
      (now : ℤ) - r.depositDate ≤ btsBlockchainMinYieldPeriodSec) := by omega
  have hlimit : int64Max < 2 ^ 128 := by decide
  have hwrap : toUint128 (wrap64 ((shareSupply : ℤ) - yieldPool)) = shareSupply - yieldPool := by
    have hin : IsInt64 ((shareSupply : ℤ) - yieldPool) := by
      unfold IsInt64 int64Min int64Max at *
      omega
    rw [wrap64_eq_self hin, ← Nat.cast_sub hsub]
    exact toUint128_natCast (by have := hsupply.2; omega)
  have helapsed : ((now : ℤ) - r.depositDate).toNat = now - r.depositDate := by omega
  unfold calculateYield
  dsimp only
  rw [if_neg hnot, hwrap, toUint128_natCast (n := amount) (by have := hamount.2; omega),
    toUint128_natCast (n := yieldPool) (by have := hpool.2; omega), Nat.mod_eq_of_lt hmillions,
    Nat.mod_eq_of_lt hproduct, helapsed]
  unfold divUint128
  simp only [bind_assoc, pure_bind]
  rw [← fullYield, scaledYield_eq hdiscount]
  simp only [Nat.cast_lt]

/-! ### Where the yield is safe and fair -/

/-- The inputs whose yield is exact: there are shares outside the fee fund, the product of the amount
and the fund fits in 128 bits, and the yield in 64. -/
structure YieldInRange (amount yieldPool shareSupply : ℤ) (elapsed : ℕ) : Prop where
  outside : yieldPool < shareSupply
  product : amount * 1000000 * yieldPool < 2 ^ 128
  result : yieldOf (fullYield amount.toNat yieldPool.toNat shareSupply.toNat) elapsed / 1000000 <
    2 ^ 64

/-- The yield of a balance is safe and fair: it is computed without a division by zero or a wrap, it is
non-negative and less than the fee fund, and below a year a smaller amount or a younger balance gets
no more. -/
structure YieldFair (r : BalanceRecord) (now : ℕ) (amount yieldPool shareSupply : ℤ) : Prop where
  returns : ∃ y, calculateYield r now amount yieldPool shareSupply = .ok y ∧ 0 ≤ y ∧ y < yieldPool
  fits : EarnsYield r now amount yieldPool shareSupply →
    YieldFits amount.toNat yieldPool.toNat shareSupply.toNat (now - r.depositDate)
  monotone : now - r.depositDate < btsBlockchainSecondsPerYear → amount ≤ shareSupply - yieldPool →
    ∀ a t, IsInt64 a → a ≤ amount → r.depositDate ≤ t → t ≤ now →
      ∃ y₀ y, calculateYield r t a yieldPool shareSupply = .ok y₀ ∧
        calculateYield r now amount yieldPool shareSupply = .ok y ∧ y₀ ≤ y

/-- What the code pays in range: the exact yield if it is positive and less than the fund. -/
def paidYield (amount yieldPool shareSupply : ℤ) (elapsed : ℕ) : ℤ :=
  let yieldAmount :=
    yieldOf (fullYield amount.toNat yieldPool.toNat shareSupply.toNat) elapsed / 1000000
  if 0 < yieldAmount ∧ (yieldAmount : ℤ) < yieldPool then yieldAmount else 0

/-- In range nothing wraps. -/
theorem YieldInRange.fits (hearns : EarnsYield r now amount yieldPool shareSupply)
    (h : YieldInRange amount yieldPool shareSupply (now - r.depositDate)) :
    YieldFits amount.toNat yieldPool.toNat shareSupply.toNat (now - r.depositDate) := by
  obtain ⟨hpos, hsupply, hpool, hday⟩ := hearns
  lift amount to ℕ using hpos.le
  lift yieldPool to ℕ using hpool.le
  lift shareSupply to ℕ using hsupply.le
  obtain ⟨houtside, hproduct, hresult⟩ := h
  simp only [Int.toNat_natCast] at hresult ⊢
  have hproduct' : amount * 1000000 * yieldPool < 2 ^ 128 := by exact_mod_cast hproduct
  have hmillions : amount * 1000000 ≤ amount * 1000000 * yieldPool :=
    Nat.le_mul_of_pos_right _ (by exact_mod_cast hpool)
  have hmin : btsBlockchainMinYieldPeriodSec = 86400 := rfl
  refine ⟨by omega, by omega, hproduct', fun hyear => ?_⟩
  exact discountFits_of_lt (by omega) hyear hresult

variable (hamount : IsInt64 amount) (hpool : IsInt64 yieldPool) (hsupply : IsInt64 shareSupply)
  (hdate : r.depositDate ≤ now)

include hamount hpool hsupply hdate

/-- Where nothing wraps, the code pays unless there are no shares outside the fund or the yield takes
more than 64 bits. -/
theorem calculateYield_of_fits (hearns : EarnsYield r now amount yieldPool shareSupply)
    (hfits : YieldFits amount.toNat yieldPool.toNat shareSupply.toNat (now - r.depositDate)) (y : ℤ) :
    calculateYield r now amount yieldPool shareSupply = .ok y ↔
      YieldInRange amount yieldPool shareSupply (now - r.depositDate) ∧
        y = paidYield amount yieldPool shareSupply (now - r.depositDate) := by
  have hearns' := hearns
  obtain ⟨hpos, hshares, hfund, -⟩ := hearns
  lift amount to ℕ using hpos.le
  lift yieldPool to ℕ using hfund.le
  lift shareSupply to ℕ using hshares.le
  simp only [Int.toNat_natCast] at hfits
  rw [calculateYield_eq hearns' hamount hpool hsupply hdate hfits]
  simp only [bind_eq_ok, require_eq_ok, pure_eq_ok, paidYield, Int.toNat_natCast, Nat.cast_lt]
  constructor
  · rintro ⟨-, houtside, -, hresult, rfl⟩
    refine ⟨⟨?_, ?_, ?_⟩, rfl⟩
    · have := hfits.outside
      omega
    · exact_mod_cast hfits.product
    · exact hresult
  · rintro ⟨hrange, rfl⟩
    have houtside := hrange.outside
    exact ⟨(), by omega, (), hrange.result, rfl⟩

/-- In range the code pays the exact yield. -/
theorem calculateYield_of_inRange (hearns : EarnsYield r now amount yieldPool shareSupply)
    (hrange : YieldInRange amount yieldPool shareSupply (now - r.depositDate)) :
    calculateYield r now amount yieldPool shareSupply =
      .ok (paidYield amount yieldPool shareSupply (now - r.depositDate)) :=
  (calculateYield_of_fits hamount hpool hsupply hdate hearns (hrange.fits hearns) _).2 ⟨hrange, rfl⟩

omit hamount hpool hsupply hdate

theorem paidYield_bounds {e : ℕ} (hfund : 0 < yieldPool) : 0 ≤ paidYield amount yieldPool shareSupply e ∧
    paidYield amount yieldPool shareSupply e < yieldPool := by
  unfold paidYield
  dsimp only
  split_ifs <;> omega

/-- An amount no more than the shares outside the fund earns no more than the fund in a year. -/
theorem fullYield_le {amount yieldPool shareSupply : ℕ} (hamount : amount ≤ shareSupply - yieldPool) :
    fullYield amount yieldPool shareSupply ≤ 1000000 * yieldPool := by
  refine Nat.div_le_of_le_mul ?_
  calc amount * 1000000 * yieldPool = amount * (1000000 * yieldPool) := Nat.mul_assoc ..
    _ ≤ (shareSupply - yieldPool) * (1000000 * yieldPool) := Nat.mul_le_mul_right _ hamount

/-- Below a year such an amount is paid what it earned. -/
theorem paidYield_eq {e : ℕ} (hyear : e < btsBlockchainSecondsPerYear) (hpos : 0 ≤ amount)
    (hfund : 0 < yieldPool) (houtside : yieldPool < shareSupply)
    (hle : amount ≤ shareSupply - yieldPool) : paidYield amount yieldPool shareSupply e =
      (yieldOf (fullYield amount.toNat yieldPool.toNat shareSupply.toNat) e / 1000000 : ℕ) := by
  lift amount to ℕ using hpos
  lift yieldPool to ℕ using hfund.le
  lift shareSupply to ℕ using by omega
  simp only [paidYield, Int.toNat_natCast]
  have hfull : fullYield amount yieldPool shareSupply ≤ _ := fullYield_le (by omega)
  have hlt : yieldOf (fullYield amount yieldPool shareSupply) e / 1000000 < yieldPool := by
    rcases Nat.eq_zero_or_pos (fullYield amount yieldPool shareSupply) with hzero | hearned
    · have hnone : yieldOf 0 e = 0 := by
        rw [yieldOf_of_lt hyear]
        simp
      rw [hzero, hnone]
      omega
    · have := yieldOf_lt hearned hyear
      omega
  split_ifs with h
  · rfl
  · omega

theorem YieldInRange.mono {a : ℤ} {e₀ e : ℕ} (hrange : YieldInRange amount yieldPool shareSupply e)
    (hfund : 0 < yieldPool) (hle : a ≤ amount) (hage : e₀ ≤ e)
    (hyear : e < btsBlockchainSecondsPerYear) :
    YieldInRange a yieldPool shareSupply e₀ ∧
      yieldOf (fullYield a.toNat yieldPool.toNat shareSupply.toNat) e₀ ≤
        yieldOf (fullYield amount.toNat yieldPool.toNat shareSupply.toNat) e := by
  obtain ⟨houtside, hproduct, hresult⟩ := hrange
  have hfull : fullYield a.toNat yieldPool.toNat shareSupply.toNat ≤
      fullYield amount.toNat yieldPool.toNat shareSupply.toNat := by
    refine Nat.div_le_div_right (Nat.mul_le_mul_right _ (Nat.mul_le_mul_right _ ?_))
    omega
  have hyield := yieldOf_mono hfull hage hyear
  refine ⟨⟨houtside, lt_of_le_of_lt ?_ hproduct, lt_of_le_of_lt ?_ hresult⟩, hyield⟩
  · exact mul_le_mul_of_nonneg_right (by omega) hfund.le
  · exact Nat.div_le_div_right hyield

/-- Reading an asset record just stored. -/
theorem getAssetRecord_storeAssetRecord {c : ChainInterface} (hp : c.IsPending) (asset : AssetRecord)
    (id : ℤ) : (c.storeAssetRecord asset).getAssetRecord id =
      if id = asset.id then some asset else c.getAssetRecord id := by
  obtain ⟨os, db, now, n⟩ := c
  cases os with
  | nil => exact absurd rfl hp
  | cons o os =>
    have hget : (o.storeAssetRecord asset).toTables.assets[id]? =
        if id = asset.id then some asset else o.assets[id]? := Table.getElem?_insert ..
    change ChainInterface.lookupIn Tables.assets db id (o.storeAssetRecord asset :: os) = _
    rw [ChainInterface.lookupIn, hget]
    split_ifs
    · rfl
    · rfl

/-- **Yield is safe and fair in range.** For all inputs of 64 bits: the yield is computed without a
division by zero or a wrap, lies between zero and the fee fund, and is monotone, if and only if the
fund is not empty and, where the balance earns yield, there are shares outside the fund, the product
of amount and fund fits in 128 bits and the yield in 64. In range no payment throws, and no payment
makes the collected fees negative. -/
theorem calculateYield_fair_iff (hamount : IsInt64 amount) (hpool : IsInt64 yieldPool)
    (hsupply : IsInt64 shareSupply) (hdate : r.depositDate ≤ now) :
    (YieldFair r now amount yieldPool shareSupply ↔ 0 < yieldPool ∧
      (EarnsYield r now amount yieldPool shareSupply →
        YieldInRange amount yieldPool shareSupply (now - r.depositDate))) ∧
    ∀ (s : EvaluationState) (asset : AssetRecord), s.currentState.IsPending →
      s.currentState.getAssetRecord r.assetId = some asset → s.currentState.now = now →
      r.balance = amount → asset.collectedFees = yieldPool → asset.currentShareSupply = shareSupply →
      ((EarnsYield r now amount yieldPool shareSupply →
          YieldInRange amount yieldPool shareSupply (now - r.depositDate)) →
        ∃ out, s.payYield r = .ok out) ∧
      ∀ s' r' asset', s.payYield r = .ok (s', r') → 0 ≤ yieldPool →
        s'.currentState.getAssetRecord r.assetId = some asset' → 0 ≤ asset'.collectedFees := by
  have hok : (EarnsYield r now amount yieldPool shareSupply →
      YieldInRange amount yieldPool shareSupply (now - r.depositDate)) →
        ∃ y, calculateYield r now amount yieldPool shareSupply = .ok y := by
    intro hrange
    by_cases hearns : EarnsYield r now amount yieldPool shareSupply
    · exact ⟨_, calculateYield_of_inRange hamount hpool hsupply hdate hearns (hrange hearns)⟩
    · exact ⟨0, calculateYield_of_not hearns⟩
  refine ⟨⟨fun h => ⟨?_, fun hearns => ?_⟩, fun ⟨hfund, hrange⟩ => ?_⟩,
    ?_⟩
  · obtain ⟨y, -, hnonneg, hlt⟩ := h.returns
    omega
  · obtain ⟨y, hy, -⟩ := h.returns
    exact ((calculateYield_of_fits hamount hpool hsupply hdate hearns (h.fits hearns) y).1 hy).1
  · refine ⟨?_, fun hearns => (hrange hearns).fits hearns, fun hyear hle a t ha haLe ht htLe => ?_⟩
    · by_cases hearns : EarnsYield r now amount yieldPool shareSupply
      · exact ⟨_, calculateYield_of_inRange hamount hpool hsupply hdate hearns (hrange hearns),
          paidYield_bounds hfund⟩
      · exact ⟨0, calculateYield_of_not hearns, le_rfl, hfund⟩
    · obtain ⟨y, hy⟩ := hok hrange
      by_cases hless : EarnsYield r t a yieldPool shareSupply
      · -- what earns less or later earns as well
        have hearns : EarnsYield r now amount yieldPool shareSupply := by
          unfold EarnsYield at hless ⊢
          omega
        have hin := hrange hearns
        obtain ⟨hin₀, hyield⟩ := hin.mono hfund haLe (Nat.sub_le_sub_right htLe _) hyear
        refine ⟨_, _, calculateYield_of_inRange ha hpool hsupply ht hless hin₀,
          calculateYield_of_inRange hamount hpool hsupply hdate hearns hin, ?_⟩
        have hyear₀ : t - r.depositDate < btsBlockchainSecondsPerYear := by omega
        rw [paidYield_eq hyear₀ hless.1.le hfund hin.outside (haLe.trans hle),
          paidYield_eq hyear hearns.1.le hfund hin.outside hle]
        exact_mod_cast Nat.div_le_div_right hyield
      · exact ⟨0, y, calculateYield_of_not hless, hy, (calculateYield_bounds hy).1⟩
  · rintro s asset hp hasset rfl rfl rfl rfl
    constructor
    · intro hrange
      obtain ⟨y, hy⟩ := hok hrange
      have hrecord : s.currentState.getAssetRecord r.condition.assetId = some asset := hasset
      unfold payYield
      rw [hrecord, orThrow, ok_bind, hy]
      dsimp only
      rw [ok_bind]
      split_ifs
      · exact ⟨_, rfl⟩
      · exact ⟨_, rfl⟩
      · exact ⟨_, rfl⟩
    · intro s' r' asset' hpay hfund hasset'
      rcases payYield_eq_ok hpay with ⟨rfl, -⟩ | ⟨asset₀, y, hasset₀, -, hpos, hlt, rfl, -⟩
      · rw [hasset, Option.some.injEq] at hasset'
        rwa [← hasset']
      · rw [hasset, Option.some.injEq] at hasset₀
        change (s.currentState.storeAssetRecord _).getAssetRecord r.assetId = _ at hasset'
        rw [getAssetRecord_storeAssetRecord hp] at hasset'
        split_ifs at hasset' with hid
        · obtain rfl := Option.some.inj hasset'
          obtain rfl := hasset₀
          have hin : IsInt64 (asset.collectedFees - y) := by
            unfold IsInt64 int64Min at *
            omega
          dsimp only
          rw [wrap64_eq_self hin]
          omega
        · rw [hasset, Option.some.injEq] at hasset'
          rwa [← hasset']

/-- A balance of one share, two days old, of an asset whose fee fund is half of its two thousand
shares. -/
theorem calculateYield_fair_half : YieldFair { condition := { assetId := 1 } } 172800 1 1000 2000 := by
  have hfair := @calculateYield_fair_iff { condition := { assetId := 1 } } 172800 1 1000 2000
    (by decide) (by decide) (by decide) (by decide)
  exact hfair.1.2 ⟨by decide, fun _ => ⟨by decide, by decide, by decide⟩⟩

/-- When all shares are in the fee fund the yield divides by zero. -/
theorem calculateYield_fair_empty : ¬ YieldFair { condition := { assetId := 1 } } 172800 1 1000 1000 ∧
    calculateYield { condition := { assetId := 1 } } 172800 1 1000 1000 =
      .error (.assertion "division by zero") := by
  have hzero : calculateYield { condition := { assetId := 1 } } 172800 1 1000 1000 =
      .error (.assertion "division by zero") := by decide
  refine ⟨fun h => ?_, hzero⟩
  obtain ⟨y, hy, -⟩ := h.returns
  rw [hzero] at hy
  cases hy

end EvaluationState

end LarkX
