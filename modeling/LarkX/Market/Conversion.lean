import Mathlib.Data.Rat.Floor
import LarkX.ForMathlib.Exchange
import LarkX.Market.Trades

/-!
# Conversion at a price

A price converts in both directions: an amount of its base asset at its rate, an amount of its
quote asset at the inverse of the rate. The big integers of the code round down in either
direction, so a conversion is an exchange in whole units (`Asset.mulPrice_exchange`) at the rate
that the truncated ratio stands for, and what holds of exchanges holds of it: nothing is gained
by converting there and back, or by converting in parts (`Price.CreatesNoValue`).

The price of one amount in another rounds its ratio down as well, which leaves the amount of the
quote asset above what the base amount is worth at it.
-/

namespace LarkX

/-- Units of the quote asset for one of the base. -/
def Price.rate (p : Price) : ℚ :=
  p.ratio / btsPricePrecision

/-- The rate at which an amount of the asset is converted. -/
def Price.rateOf (p : Price) (id : ℤ) : ℚ :=
  if id = p.baseAssetId then p.rate else p.rate⁻¹

/-- The asset an amount of the asset is converted to. -/
def Price.counterpart (p : Price) (id : ℤ) : ℤ :=
  if id = p.baseAssetId then p.quoteAssetId else p.baseAssetId

variable {p : Price}

theorem Price.rate_pos (hratio : 0 < p.ratio) : 0 < p.rate := by
  have hprecision : 0 < btsPricePrecision := by decide
  unfold Price.rate
  positivity

theorem Price.rateOf_pos (hratio : 0 < p.ratio) (id : ℤ) : 0 < p.rateOf id := by
  unfold Price.rateOf
  split
  · exact Price.rate_pos hratio
  · exact inv_pos.2 (Price.rate_pos hratio)

/-- From the base asset, the quotient the code computes is the exchange at the rate. -/
theorem Price.exchange_rate (p : Price) (x : ℤ) :
    exchange p.rate x = x * p.ratio / btsPricePrecision := by
  have h := Rat.floor_intCast_div_natCast (x * p.ratio) btsPricePrecision
  rwa [Int.cast_mul, Int.cast_natCast, mul_div_assoc] at h

/-- From the quote asset, it is the exchange at the inverse. -/
theorem Price.exchange_rate_inv (p : Price) (x : ℤ) :
    exchange p.rate⁻¹ x = x * btsPricePrecision / p.ratio := by
  have h := Rat.floor_intCast_div_natCast (x * btsPricePrecision) p.ratio
  rwa [Int.cast_mul, Int.cast_natCast, mul_div_assoc, ← inv_div] at h

/-- A conversion that does not overflow is the exchange at the rate of its asset. -/
theorem Asset.mulPrice_exchange {a b : Asset} (hnonneg : 0 ≤ a.amount)
    (h : a.mulPrice p = .ok b) :
    (a.assetId = p.baseAssetId ∨ a.assetId = p.quoteAssetId) ∧
      b = ⟨exchange (p.rateOf a.assetId) a.amount, p.counterpart a.assetId⟩ := by
  obtain ⟨x, id⟩ := a
  by_cases hbase : id = p.baseAssetId
  · subst hbase
    obtain ⟨-, hb⟩ := (Asset.mulPrice_base_of_nonneg hnonneg).1 h
    refine ⟨Or.inl rfl, ?_⟩
    rw [hb, Price.rateOf, if_pos rfl, Price.exchange_rate, Price.counterpart, if_pos rfl]
  · by_cases hquote : id = p.quoteAssetId
    · subst hquote
      obtain ⟨-, hb⟩ := (Asset.mulPrice_quote_of_nonneg hnonneg hbase).1 h
      refine ⟨Or.inr rfl, ?_⟩
      rw [hb, Price.rateOf, if_neg hbase, Price.exchange_rate_inv, Price.counterpart, if_neg hbase]
    · unfold Asset.mulPrice at h
      rw [if_neg hbase, if_neg hquote] at h
      cases h

/-- The other asset is converted at the inverse rate, back to the asset. -/
theorem Price.rateOf_counterpart {id : ℤ} (hid : id = p.baseAssetId ∨ id = p.quoteAssetId)
    (hother : p.counterpart id ≠ id) :
    p.rateOf (p.counterpart id) = (p.rateOf id)⁻¹ ∧ p.counterpart (p.counterpart id) = id := by
  by_cases hbase : id = p.baseAssetId
  · have hcounter : p.counterpart id = p.quoteAssetId := if_pos hbase
    have hne : p.quoteAssetId ≠ p.baseAssetId := fun heq =>
      hother (hcounter.trans (heq.trans hbase.symm))
    rw [hcounter, Price.rateOf, if_neg hne, Price.rateOf, if_pos hbase, Price.counterpart,
      if_neg hne]
    exact ⟨rfl, hbase.symm⟩
  · have hcounter : p.counterpart id = p.baseAssetId := if_neg hbase
    rw [hcounter, Price.rateOf, if_pos rfl, Price.rateOf, if_neg hbase, Price.counterpart,
      if_pos rfl, inv_inv]
    exact ⟨rfl, (hid.resolve_left hbase).symm⟩

/-- Nothing is gained by conversions at the price, as far as they do not overflow. -/
structure Price.CreatesNoValue (p : Price) : Prop where
  /-- Converted to the other asset and back, no more returns than was given. -/
  back : ∀ {a b c : Asset}, 0 ≤ a.amount → a.mulPrice p = .ok b → b.assetId ≠ a.assetId →
    b.mulPrice p = .ok c → c.assetId = a.assetId ∧ c.amount ≤ a.amount
  /-- More is worth no less. -/
  mono : ∀ {a a' b b' : Asset}, 0 ≤ a.amount → a.assetId = a'.assetId → a.amount ≤ a'.amount →
    a.mulPrice p = .ok b → a'.mulPrice p = .ok b' → b.assetId = b'.assetId ∧ b.amount ≤ b'.amount
  /-- A sum is worth as much as its parts, or one share more. -/
  sum : ∀ {x y id : ℤ} {b b' t : Asset}, 0 ≤ x → 0 ≤ y → Asset.mulPrice ⟨x, id⟩ p = .ok b →
    Asset.mulPrice ⟨y, id⟩ p = .ok b' → Asset.mulPrice ⟨x + y, id⟩ p = .ok t →
    b.amount + b'.amount ≤ t.amount ∧ t.amount ≤ b.amount + b'.amount + 1

/-- There and back. -/
theorem Price.back_le (hratio : 0 < p.ratio) {a b c : Asset} (hnonneg : 0 ≤ a.amount)
    (hthere : a.mulPrice p = .ok b) (hother : b.assetId ≠ a.assetId)
    (hback : b.mulPrice p = .ok c) : c.assetId = a.assetId ∧ c.amount ≤ a.amount := by
  have hpos : 0 < p.rateOf a.assetId := Price.rateOf_pos hratio _
  obtain ⟨hid, rfl⟩ := Asset.mulPrice_exchange hnonneg hthere
  obtain ⟨hrate, hcounter⟩ := Price.rateOf_counterpart hid hother
  obtain ⟨-, rfl⟩ := Asset.mulPrice_exchange (exchange_nonneg hpos.le hnonneg) hback
  rw [hrate]
  exact ⟨hcounter, exchange_inv_exchange_le hpos _⟩

theorem Price.createsNoValue (hratio : 0 < p.ratio) : p.CreatesNoValue where
  back := Price.back_le hratio
  mono := by
    intro a a' b b' hnonneg hid hle hb hb'
    obtain ⟨-, rfl⟩ := Asset.mulPrice_exchange hnonneg hb
    obtain ⟨-, rfl⟩ := Asset.mulPrice_exchange (hnonneg.trans hle) hb'
    rw [hid]
    exact ⟨rfl, exchange_mono (Price.rateOf_pos hratio _) hle⟩
  sum := by
    intro x y id b b' t hx hy hb hb' ht
    obtain ⟨-, rfl⟩ := Asset.mulPrice_exchange hx hb
    obtain ⟨-, rfl⟩ := Asset.mulPrice_exchange hy hb'
    obtain ⟨-, rfl⟩ := Asset.mulPrice_exchange (add_nonneg hx hy) ht
    exact ⟨add_exchange_le _ x y, exchange_le_add _ x y⟩

/-! ### The price of an amount in another -/

/-- The price at which two amounts exchange, whichever of them is divided by the other: its ratio
is cut down from the quotient. -/
theorem Asset.divAsset_exists {base quote : Asset} (hlt : base.assetId < quote.assetId)
    (hbase : 0 < base.amount) (hquote : 0 < quote.amount) :
    ∃ p : Price, quote.divAsset base = .ok p ∧ base.divAsset quote = .ok p ∧
      p.baseAssetId = base.assetId ∧ p.quoteAssetId = quote.assetId ∧
      (p.ratio : ℤ) ≤ quote.amount * btsPricePrecision / base.amount := by
  have hdiv : (quote.amount * btsPricePrecision).tdiv base.amount =
      quote.amount * btsPricePrecision / base.amount :=
    Int.tdiv_eq_ediv_of_nonneg (mul_nonneg hquote.le (Int.natCast_nonneg _))
  have hnonneg : 0 ≤ quote.amount * btsPricePrecision / base.amount :=
    Int.ediv_nonneg (mul_nonneg hquote.le (Int.natCast_nonneg _)) hbase.le
  refine ⟨⟨bigintToUint128 ((quote.amount * btsPricePrecision).tdiv base.amount), quote.assetId,
    base.assetId⟩, ?_, ?_, rfl, rfl, ?_⟩
  · unfold Asset.divAsset
    rw [if_neg hlt.not_gt, if_neg hlt.not_gt]
    simp only [bind_eq_ok, require_eq_ok, pure_eq_ok]
    exact ⟨(), hlt.ne', (), hbase.ne', trivial⟩
  · unfold Asset.divAsset
    rw [if_pos hlt, if_pos hlt]
    simp only [bind_eq_ok, require_eq_ok, pure_eq_ok]
    exact ⟨(), hlt.ne, (), hbase.ne', trivial⟩
  · rw [hdiv]
    calc (bigintToUint128 (quote.amount * btsPricePrecision / base.amount) : ℤ)
        ≤ (quote.amount * btsPricePrecision / base.amount).natAbs :=
          Int.ofNat_le.2 (Nat.mod_le _ _)
      _ = quote.amount * btsPricePrecision / base.amount := Int.natAbs_of_nonneg hnonneg

/-- At the price of the quote amount in the base amount, the base amount is worth no more than
the quote amount. -/
theorem Asset.mulPrice_divAsset {base quote : Asset} (hlt : base.assetId < quote.assetId)
    (hbase : 0 < base.amount) (hquote : 0 < quote.amount) (hfits : IsInt64 quote.amount) :
    ∃ p c, quote.divAsset base = .ok p ∧ base.divAsset quote = .ok p ∧
      base.mulPrice p = .ok c ∧ c.assetId = quote.assetId ∧ c.amount ≤ quote.amount := by
  obtain ⟨p, hp, hp', hbaseId, hquoteId, hratio⟩ := Asset.divAsset_exists hlt hbase hquote
  have hmul : base.amount * p.ratio ≤ quote.amount * btsPricePrecision :=
    calc base.amount * p.ratio
        ≤ base.amount * (quote.amount * btsPricePrecision / base.amount) :=
          mul_le_mul_of_nonneg_left hratio hbase.le
      _ ≤ quote.amount * btsPricePrecision := Int.mul_ediv_self_le hbase.ne'
  have hle : base.amount * p.ratio / btsPricePrecision ≤ quote.amount :=
    Int.ediv_le_of_le_mul (by decide) hmul
  have hmulPrice : Asset.mulPrice ⟨base.amount, p.baseAssetId⟩ p =
      .ok ⟨base.amount * p.ratio / btsPricePrecision, p.quoteAssetId⟩ := by
    refine (Asset.mulPrice_base_of_nonneg hbase.le).2 ⟨?_, rfl⟩
    have hmax := hfits.2
    unfold int64Max at hmax
    omega
  rw [hbaseId, hquoteId] at hmulPrice
  exact ⟨p, _, hp, hp', hmulPrice, rfl, hle⟩

/-- Conversion never creates value, at any price and for any amounts. -/
theorem conversion_creates_no_value :
    (∀ p : Price, 0 < p.ratio → p.CreatesNoValue) ∧
    ∀ base quote : Asset, base.assetId < quote.assetId → 0 < base.amount → 0 < quote.amount →
      IsInt64 base.amount → IsInt64 quote.amount →
      ∃ p c, quote.divAsset base = .ok p ∧ base.divAsset quote = .ok p ∧
        base.mulPrice p = .ok c ∧ c.assetId = quote.assetId ∧ c.amount ≤ quote.amount :=
  ⟨fun _ hratio => Price.createsNoValue hratio,
    fun _ _ hlt hbase hquote _ hfits => Asset.mulPrice_divAsset hlt hbase hquote hfits⟩

/-- At a third of a unit of asset 1 for one of asset 0, cut off at the eighteenth digit, ten of
asset 0 are worth three of asset 1, and these return no more than the ten. -/
theorem conversion_creates_no_value_third :
    Asset.mulPrice ⟨10, 0⟩ ⟨333333333333333333, 1, 0⟩ = .ok ⟨3, 1⟩ ∧
    Asset.mulPrice ⟨3, 1⟩ ⟨333333333333333333, 1, 0⟩ = .ok ⟨9, 0⟩ ∧ (9 : ℤ) ≤ 10 := by
  have hthere : Asset.mulPrice ⟨10, 0⟩ ⟨333333333333333333, 1, 0⟩ = .ok ⟨3, 1⟩ := by
    decide +kernel
  have hback : Asset.mulPrice ⟨3, 1⟩ ⟨333333333333333333, 1, 0⟩ = .ok ⟨9, 0⟩ := by
    decide +kernel
  exact ⟨hthere, hback, ((conversion_creates_no_value.1 ⟨333333333333333333, 1, 0⟩
    (by decide)).back (by decide) hthere (by decide) hback).2⟩

end LarkX
