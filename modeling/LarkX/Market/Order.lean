import LarkX.Market.Books

/-!
# Comparing prices and order keys

`asset.hpp` and `market_records.hpp` write each comparison of prices and keys on its own, and
the comparator of `level_map` asks first `<`, then `==`. The order looks at the assets before the
ratio. Equality looks at the ratio alone, and so does inequality, which is written like equality.

So the operators on prices agree only within one market, and the comparator takes two keys of
different markets with one ratio and one owner for the same key, when it is asked in the wrong
order (`order_agrees_iff`).
-/

namespace LarkX

/-! ### Prices -/

namespace Price

/-- `operator !=`. -/
def ne (l r : Price) : Bool :=
  l.ratio == r.ratio

/-- `operator >`. -/
def gt (l r : Price) : Bool :=
  if r.quoteAssetId < l.quoteAssetId then true
  else if l.quoteAssetId < r.quoteAssetId then false
  else if r.baseAssetId < l.baseAssetId then true
  else if l.baseAssetId < r.baseAssetId then false
  else r.ratio < l.ratio

/-- `operator <=`. -/
def le (l r : Price) : Bool :=
  l.ratio ≤ r.ratio && l.assetPair == r.assetPair

/-- `operator >=`. -/
def ge (l r : Price) : Bool :=
  r.ratio ≤ l.ratio && l.assetPair == r.assetPair

variable {l r : Price}

theorem eqRatio_iff : l.eqRatio r = true ↔ l.ratio = r.ratio :=
  beq_iff_eq

theorem ne_eq_eqRatio (l r : Price) : l.ne r = l.eqRatio r :=
  rfl

theorem le_iff : l.le r = true ↔ l.ratio ≤ r.ratio ∧ l.assetPair = r.assetPair := by
  unfold le
  rw [Bool.and_eq_true, decide_eq_true_eq, beq_iff_eq]

theorem ge_iff : l.ge r = true ↔ r.ratio ≤ l.ratio ∧ l.assetPair = r.assetPair := by
  unfold ge
  rw [Bool.and_eq_true, decide_eq_true_eq, beq_iff_eq]

/-- `operator >` is `operator <` the other way. -/
theorem gt_eq_lt (l r : Price) : l.gt r = r.lt l := by
  rw [Bool.eq_iff_iff, lt_iff]
  unfold gt
  split_ifs with h₁ h₂ h₃ h₄
  · simp only [true_iff]
    omega
  · simp only [false_iff]
    omega
  · simp only [true_iff]
    omega
  · simp only [false_iff]
    omega
  · rw [decide_eq_true_eq]
    omega

/-- `<`, `==` and `>` tell two prices apart in exactly one way. -/
def Trichotomy (l r : Price) : Prop :=
  l.lt r = true ∧ l.eqRatio r = false ∧ r.lt l = false ∨
    l.lt r = false ∧ l.eqRatio r = true ∧ r.lt l = false ∨
      l.lt r = false ∧ l.eqRatio r = false ∧ r.lt l = true

/-- The operators on two prices, but for `!=`, are those of one total order. -/
structure Ordered (l r : Price) : Prop where
  trichotomy : Trichotomy l r
  gt : l.gt r = r.lt l
  le : l.le r = (l.lt r || l.eqRatio r)
  ge : l.ge r = (l.gt r || l.eqRatio r)

/-- Different markets are ordered by their assets. -/
theorem lt_or_lt_of_assetPair_ne (h : l.assetPair ≠ r.assetPair) : l.lt r = true ∨ r.lt l = true := by
  have hids : ¬(l.quoteAssetId = r.quoteAssetId ∧ l.baseAssetId = r.baseAssetId) :=
    fun hids => h (congrArg₂ AssetPair.mk hids.1 hids.2)
  rw [lt_iff, lt_iff]
  omega

theorem lt_asymm (h : l.lt r = true) : r.lt l = false := by
  rw [← Bool.not_eq_true, lt_iff]
  rw [lt_iff] at h
  omega

/-- **The operators agree exactly within one market.** -/
theorem ordered_iff : Ordered l r ↔ l.assetPair = r.assetPair := by
  constructor
  · intro h
    by_contra hpair
    -- one of the two is smaller by its assets, and neither `<=` nor `>=` says so
    rcases lt_or_lt_of_assetPair_ne hpair with hlt | hlt
    · have hle := h.le
      rw [hlt, Bool.true_or, le_iff] at hle
      exact hpair hle.2
    · have hge := h.ge
      rw [h.gt, hlt, Bool.true_or, ge_iff] at hge
      exact hpair hge.2
  · intro hpair
    have hlt : l.lt r = decide (l.ratio < r.ratio) := by
      rw [Bool.eq_iff_iff, lt_iff_of_assetPair hpair, decide_eq_true_eq]
    have hgt : r.lt l = decide (r.ratio < l.ratio) := by
      rw [Bool.eq_iff_iff, lt_iff_of_assetPair hpair.symm, decide_eq_true_eq]
    have heq : l.eqRatio r = decide (l.ratio = r.ratio) := by
      rw [Bool.eq_iff_iff, eqRatio_iff, decide_eq_true_eq]
    refine ⟨?_, gt_eq_lt l r, ?_, ?_⟩
    · unfold Trichotomy
      rw [hlt, hgt, heq]
      simp only [decide_eq_true_eq, decide_eq_false_iff_not]
      omega
    · rw [Bool.eq_iff_iff, le_iff, hlt, heq, Bool.or_eq_true, decide_eq_true_eq, decide_eq_true_eq,
        and_iff_left hpair, le_iff_lt_or_eq]
    · rw [Bool.eq_iff_iff, ge_iff, gt_eq_lt, hgt, heq, Bool.or_eq_true, decide_eq_true_eq,
        decide_eq_true_eq, and_iff_left hpair, le_iff_lt_or_eq, eq_comm (a := r.ratio)]

end Price

/-! ### Keys -/

namespace MarketIndexKey

/-- `operator ==`. -/
def eq (a b : MarketIndexKey) : Bool :=
  a.orderPrice.eqRatio b.orderPrice && a.owner == b.owner

/-- `operator <`, by `std::tie`. -/
def lt (a b : MarketIndexKey) : Bool :=
  a.orderPrice.lt b.orderPrice || (!b.orderPrice.lt a.orderPrice && decide (a.owner < b.owner))

/-- `level_map::key_compare::Compare`. -/
def keyCompare (a b : MarketIndexKey) : ℤ :=
  if a.lt b then -1 else if a.eq b then 0 else 1

variable {a b c : MarketIndexKey}

theorem eq_iff : a.eq b = true ↔ a.orderPrice.ratio = b.orderPrice.ratio ∧ a.owner = b.owner := by
  unfold eq
  rw [Bool.and_eq_true, Price.eqRatio_iff, beq_iff_eq]

/-- Two keys of different markets that `operator ==` takes for one. -/
def Confused (a b : MarketIndexKey) : Prop :=
  a.assetPair ≠ b.assetPair ∧ a.eq b = true

theorem Confused.symm (h : Confused a b) : Confused b a := by
  refine ⟨h.1.symm, ?_⟩
  rw [eq_iff]
  exact (eq_iff.1 h.2).imp Eq.symm Eq.symm

/-- `operator <` on keys is the order of the book. -/
theorem lt_iff : a.lt b = true ↔ compare a b = .lt := by
  unfold lt
  have hcompare : compare a b = (compare a.orderPrice b.orderPrice).then (compare a.owner b.owner) := rfl
  rw [hcompare]
  unfold Price.lt
  rw [Std.OrientedOrd.eq_swap (a := b.orderPrice)]
  cases compare a.orderPrice b.orderPrice with
  | lt => simp
  | eq => simp [Nat.compare_eq_lt]
  | gt => simp

/-- Equal keys are equal. -/
theorem eq_self (a : MarketIndexKey) : a.eq a = true :=
  eq_iff.2 ⟨rfl, rfl⟩

/-- In one market `operator ==` is equality. -/
theorem eq_iff_of_not_confused (h : ¬Confused a b) : a.eq b = true ↔ a = b := by
  constructor
  · intro heq
    have hpair : a.assetPair = b.assetPair := not_not.1 fun hne => h ⟨hne, heq⟩
    obtain ⟨hratio, howner⟩ := eq_iff.1 heq
    obtain ⟨⟨aRatio, aQuote, aBase⟩, aOwner⟩ := a
    obtain ⟨⟨bRatio, bQuote, bBase⟩, bOwner⟩ := b
    injection hpair with hquote hbase
    dsimp only at hratio howner hquote hbase
    rw [hratio, howner, hquote, hbase]
  · rintro rfl
    exact eq_self a

/-- What a comparator is to return. -/
def sign : Ordering → ℤ
  | .lt => -1
  | .eq => 0
  | .gt => 1

/-- **The comparator returns the order of the keys**, unless it is asked about a key and a smaller
one that it is confused with. -/
theorem keyCompare_eq_sign (h : ¬Confused a b) : keyCompare a b = sign (compare a b) := by
  unfold keyCompare
  cases hcompare : compare a b with
  | lt =>
    rw [if_pos (lt_iff.2 hcompare)]
    rfl
  | eq =>
    obtain rfl := Std.LawfulEqOrd.eq_of_compare hcompare
    rw [if_neg (by rw [lt_iff, hcompare]; decide), if_pos (eq_self a)]
    rfl
  | gt =>
    have hne : ¬a.eq b = true := by
      rw [eq_iff_of_not_confused h]
      rintro rfl
      rw [Std.ReflOrd.compare_self] at hcompare
      cases hcompare
    rw [if_neg (by rw [lt_iff, hcompare]; decide), if_neg hne]
    rfl

/-- Of two keys that are confused, the comparator takes one for the other. -/
theorem Confused.keyCompare (h : Confused a b) :
    MarketIndexKey.keyCompare a b = 0 ∨ MarketIndexKey.keyCompare b a = 0 := by
  unfold MarketIndexKey.keyCompare
  by_cases hlt : a.lt b = true
  · refine Or.inr ?_
    rw [lt_iff] at hlt
    have hgt : ¬b.lt a = true := by
      rw [lt_iff, Std.OrientedOrd.eq_swap, hlt]
      decide
    rw [if_neg hgt, if_pos h.symm.2]
  · rw [if_neg hlt, if_pos h.2]
    exact Or.inl rfl

/-- What the databases need of the comparator on the keys of a set, and of `<` and `==`. -/
structure ConsistentOn (keys : Set MarketIndexKey) : Prop where
  trichotomy : ∀ a ∈ keys, ∀ b ∈ keys, a.lt b = true ∧ a.eq b = false ∧ b.lt a = false ∨
    a.lt b = false ∧ a.eq b = true ∧ b.lt a = false ∨ a.lt b = false ∧ a.eq b = false ∧ b.lt a = true
  zero : ∀ a ∈ keys, ∀ b ∈ keys, keyCompare a b = 0 ↔ a = b
  antisymm : ∀ a ∈ keys, ∀ b ∈ keys, keyCompare a b = -keyCompare b a
  trans : ∀ a ∈ keys, ∀ b ∈ keys, ∀ c ∈ keys, keyCompare a b ≤ 0 → keyCompare b c ≤ 0 →
    keyCompare a c ≤ 0

theorem sign_eq_zero {o : Ordering} : sign o = 0 ↔ o = .eq := by
  cases o <;> decide

theorem sign_le_zero {o : Ordering} : sign o ≤ 0 ↔ o.isLE = true := by
  cases o <;> decide

theorem sign_swap (o : Ordering) : sign o.swap = -sign o := by
  cases o <;> rfl

/-- **The comparator is consistent on the keys of which no two are confused.** -/
theorem consistentOn_iff {keys : Set MarketIndexKey} :
    ConsistentOn keys ↔ ∀ a ∈ keys, ∀ b ∈ keys, ¬Confused a b := by
  constructor
  · intro h a ha b hb hconfused
    rcases hconfused.keyCompare with hzero | hzero
    · exact hconfused.1 (congrArg assetPair ((h.zero a ha b hb).1 hzero))
    · exact hconfused.1 (congrArg assetPair ((h.zero b hb a ha).1 hzero)).symm
  · intro h
    have hsign : ∀ a ∈ keys, ∀ b ∈ keys, keyCompare a b = sign (compare a b) :=
      fun a ha b hb => keyCompare_eq_sign (h a ha b hb)
    refine ⟨fun a ha b hb => ?_, fun a ha b hb => ?_, fun a ha b hb => ?_,
      fun a ha b hb c hc hab hbc => ?_⟩
    · have heq : a.eq b = true ↔ compare a b = .eq := by
        rw [eq_iff_of_not_confused (h a ha b hb), Std.LawfulEqOrd.compare_eq_iff_eq]
      rw [← Bool.not_eq_true, ← Bool.not_eq_true, ← Bool.not_eq_true, lt_iff, lt_iff, heq,
        Std.OrientedOrd.eq_swap (a := b)]
      cases compare a b <;> decide
    · rw [hsign a ha b hb, sign_eq_zero, Std.LawfulEqOrd.compare_eq_iff_eq]
    · rw [hsign a ha b hb, hsign b hb a ha, ← sign_swap, ← Std.OrientedOrd.eq_swap]
    · rw [hsign a ha b hb, sign_le_zero] at hab
      rw [hsign b hb c hc, sign_le_zero] at hbc
      rw [hsign a ha c hc, sign_le_zero]
      exact Std.TransOrd.isLE_trans hab hbc

/-- **Order and equality agree** on the prices of one market, and on keys of which no two of different
markets have the same ratio and owner; `operator !=` never is the negation of `operator ==`. -/
theorem order_agrees_iff (prices : Set Price) (keys : Set MarketIndexKey) :
    (∀ l r : Price, ¬l.ne r = !l.eqRatio r) ∧
      ((∀ l ∈ prices, ∀ r ∈ prices, l.Ordered r) ↔
        ∀ l ∈ prices, ∀ r ∈ prices, l.assetPair = r.assetPair) ∧
      (ConsistentOn keys ↔ ∀ a ∈ keys, ∀ b ∈ keys, a.assetPair ≠ b.assetPair →
        ¬(a.orderPrice.ratio = b.orderPrice.ratio ∧ a.owner = b.owner)) := by
  refine ⟨fun l r h => ?_, ?_, ?_⟩
  · rw [Price.ne_eq_eqRatio] at h
    exact (Bool.not_ne_self _).symm h
  · simp only [Price.ordered_iff]
  · rw [consistentOn_iff]
    simp only [Confused, not_and, eq_iff]

/-- The bids of one owner at a price of one, for the assets 1 and 2: equality does not tell them
apart, and the comparator finds the second at the place of the first. -/
theorem order_agrees_markets :
    MarketIndexKey.lt ⟨⟨btsPricePrecision, 1, 0⟩, 7⟩ ⟨⟨btsPricePrecision, 2, 0⟩, 7⟩ = true ∧
      MarketIndexKey.eq ⟨⟨btsPricePrecision, 1, 0⟩, 7⟩ ⟨⟨btsPricePrecision, 2, 0⟩, 7⟩ = true ∧
      keyCompare ⟨⟨btsPricePrecision, 1, 0⟩, 7⟩ ⟨⟨btsPricePrecision, 2, 0⟩, 7⟩ = -1 ∧
      keyCompare ⟨⟨btsPricePrecision, 2, 0⟩, 7⟩ ⟨⟨btsPricePrecision, 1, 0⟩, 7⟩ = 0 ∧
      Price.ne ⟨btsPricePrecision, 1, 0⟩ ⟨btsPricePrecision, 1, 0⟩ = true ∧
      Price.le ⟨btsPricePrecision, 1, 0⟩ ⟨btsPricePrecision, 2, 0⟩ = false := by
  decide +kernel

end MarketIndexKey

end LarkX
