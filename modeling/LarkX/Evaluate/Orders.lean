import LarkX.Evaluate.Kinds
import LarkX.Evaluate.Runs
import LarkX.Evaluate.Signed

/-!
# Who changes an order

What an operation does to the orders and margin positions of owners who have not signed. A bid,
an ask and a cover need the signature of the owner; a deposit to a short and an addition of
collateral do not, and they write more than the funds: the short takes the price limit that is
named, and the position moves to its new call price. `ordersObeyed_iff` says when a transaction
does no more than add funds to what is not its own (`OrdersObeyed`).
-/

namespace LarkX

namespace EvaluationState

variable {crypto : Crypto} {s s' : EvaluationState}

/-! ### What owners can rely on -/

/-- An order keeps its price limit and loses no funds. -/
structure OrderKept (r r' : OrderRecord) : Prop where
  shortPriceLimit : r'.shortPriceLimit = r.shortPriceLimit
  balance : r.balance ≤ r'.balance

/-- A margin position is still there, with its terms and its debt, and loses no collateral. -/
structure PositionKept (r r' : CollateralRecord) : Prop where
  there : r'.isNull = false
  payoffBalance : r'.payoffBalance = r.payoffBalance
  interestRate : r'.interestRate = r.interestRate
  expiration : r'.expiration = r.expiration
  collateralBalance : r.collateralBalance ≤ r'.collateralBalance

/-- An order is kept for an owner who has not signed. -/
def OrderSafe (signed : Address → Prop) (key : MarketIndexKey) (r r' : OrderRecord) : Prop :=
  ¬signed key.owner → r.isNull = false → OrderKept r r'

/-- A margin position is kept for an owner who has not signed. -/
def PositionSafe (signed : Address → Prop) (key : MarketIndexKey) (r r' : CollateralRecord) :
    Prop :=
  ¬signed key.owner → r.isNull = false → PositionKept r r'

/-- The orders and margin positions of the owners who have not signed are under the keys they
were under, with the terms and at least the funds they had. -/
structure OrdersSafe (signed : Address → Prop) (t t' : Tables) : Prop where
  bids : t.bids.Keeps (OrderSafe signed) t'.bids
  asks : t.asks.Keeps (OrderSafe signed) t'.asks
  shorts : t.shorts.Keeps (OrderSafe signed) t'.shorts
  collateral : t.collateral.Keeps (PositionSafe signed) t'.collateral

theorem OrderSafe.refl (signed : Address → Prop) (key : MarketIndexKey) (r : OrderRecord) :
    OrderSafe signed key r r :=
  fun _ _ => ⟨rfl, le_refl _⟩

theorem PositionSafe.refl (signed : Address → Prop) (key : MarketIndexKey)
    (r : CollateralRecord) : PositionSafe signed key r r :=
  fun _ hthere => ⟨hthere, rfl, rfl, rfl, le_refl _⟩

/-- The bids, asks and shorts. -/
def booksOf (t : Tables) : Table MarketIndexKey OrderRecord × Table MarketIndexKey OrderRecord ×
    Table MarketIndexKey OrderRecord :=
  (t.bids, t.asks, t.shorts)

/-- Where bids, asks and shorts are the same, the margin positions decide. -/
theorem ordersSafe_of_books {signed : Address → Prop} {t t' : Tables} (h : booksOf t' = booksOf t)
    (hcollateral : t.collateral.Keeps (PositionSafe signed) t'.collateral) :
    OrdersSafe signed t t' := by
  simp only [booksOf, Prod.mk.injEq] at h
  obtain ⟨hbids, hasks, hshorts⟩ := h
  refine ⟨?_, ?_, ?_, hcollateral⟩
  · rw [hbids]
    exact .refl (OrderSafe.refl signed) _
  · rw [hasks]
    exact .refl (OrderSafe.refl signed) _
  · rw [hshorts]
    exact .refl (OrderSafe.refl signed) _

/-- Tables with the same orders and positions are safe. -/
theorem ordersSafe_of_eq {signed : Address → Prop} {t t' : Tables} (h : booksOf t' = booksOf t)
    (hcollateral : t'.collateral = t.collateral) : OrdersSafe signed t t' := by
  refine ordersSafe_of_books h ?_
  rw [hcollateral]
  exact .refl (PositionSafe.refl signed) _

/-! ### When an operation is safe -/

/-- The condition on an addition of collateral to the position `r`, which goes to `price`: a
position that is there must be stored at that price already, and its collateral must fit in 64
bits; one that was cleared must not go over a position that would not be kept. -/
def AdditionFits (s : EvaluationState) (amount : ℤ) (key : MarketIndexKey) (r : CollateralRecord)
    (price : Price) : Prop :=
  if r.isNull then
    ∀ r₂, s.currentState.getCollateralRecord ⟨price, key.owner⟩ = some r₂ → r₂.isNull = false →
      PositionKept r₂ (collateralized r amount)
  else price = key.orderPrice ∧ r.collateralBalance + amount ≤ int64Max ∧
    (collateralized r amount).isNull = false

/-- The condition on an operation: a short that is not signed by the owner of the order names
the price limit that the order has, and an addition of collateral that is not signed by the
owner of the position fits. -/
def OrderFits (signed : Address → Prop) (s : EvaluationState) : Operation → Prop
  | .short _ key limit => ¬signed key.owner → ∀ r, s.currentState.getShortRecord key = some r →
      r.isNull = false → limit = r.shortPriceLimit
  | .addCollateral amount key => ¬signed key.owner → ∀ r price,
      s.currentState.getCollateralRecord key = some r →
      callPrice key (collateralized r amount) = .ok price → AdditionFits s amount key r price
  | _ => True

/-- The operation is none on orders or margin positions. -/
def SparesOrders : Operation → Bool
  | .bid .. | .ask .. | .short .. | .cover .. | .addCollateral .. => false
  | _ => true

/-- Other operations leave the orders. -/
theorem evaluateOperation_orders {op : Operation} (hp : s.currentState.IsPending)
    (hop : SparesOrders op = true) (h : s.evaluateOperation crypto op = .ok s') :
    booksOf s'.currentState.flat = booksOf s.currentState.flat ∧
      s'.currentState.flat.collateral = s.currentState.flat.collateral := by
  constructor
  · refine evaluateOperation_frame booksOf hp (fun t w hw => ?_) h
    cases w with
    | bid | ask | short => cases op <;> first | exact hw.elim | cases hop
    | _ => rfl
  · refine evaluateOperation_frame Tables.collateral hp (fun t w hw => ?_) h
    cases w with
    | collateral => cases op <;> first | exact hw.elim | cases hop
    | _ => rfl

/-- A bid is placed or changed by its owner. -/
theorem bid_safe {signed : Address → Prop} {amount : ℤ} {key : MarketIndexKey}
    (hp : s.currentState.IsPending) (hsigned : ∀ a ∈ s.signedKeys, signed a)
    (hskip : s.skipSignatureCheck = false) (h : s.bid amount key = .ok s') :
    OrdersSafe signed s.currentState.flat s'.currentState.flat := by
  have hcheck := h
  simp only [bid, bind_eq_ok, require_eq_ok, checkSignature_iff hskip] at hcheck
  obtain ⟨-, -, -, howner, -⟩ := hcheck
  obtain ⟨s₁, r, hmove, -, rfl⟩ := bid_eq_ok h
  change OrdersSafe signed _ (s₁.currentState.storeBidRecord key r).flat
  rw [moveOrderFunds_currentState hmove, ChainInterface.storeBidRecord_eq .transparent hp,
    ChainInterface.flat_write hp]
  have hsafe (r₀ : OrderRecord) : OrderSafe signed key r₀ r :=
    fun hnot => absurd (hsigned _ howner) hnot
  exact ⟨(Table.keeps_insert_iff (OrderSafe.refl signed)).2 fun r₀ _ => hsafe r₀,
    .refl (OrderSafe.refl signed) _, .refl (OrderSafe.refl signed) _,
    .refl (PositionSafe.refl signed) _⟩

/-- An ask is placed or changed by its owner. -/
theorem ask_safe {signed : Address → Prop} {amount : ℤ} {key : MarketIndexKey}
    (hp : s.currentState.IsPending) (hsigned : ∀ a ∈ s.signedKeys, signed a)
    (hskip : s.skipSignatureCheck = false) (h : s.ask amount key = .ok s') :
    OrdersSafe signed s.currentState.flat s'.currentState.flat := by
  have hcheck := h
  simp only [ask, bind_eq_ok, require_eq_ok, checkSignature_iff hskip] at hcheck
  obtain ⟨-, -, -, howner, -⟩ := hcheck
  obtain ⟨s₁, r, hmove, -, -, rfl⟩ := ask_eq_ok h
  change OrdersSafe signed _ (s₁.currentState.storeAskRecord key r).flat
  rw [moveOrderFunds_currentState hmove, ChainInterface.storeAskRecord_eq .transparent hp,
    ChainInterface.flat_write hp]
  have hsafe (r₀ : OrderRecord) : OrderSafe signed key r₀ r :=
    fun hnot => absurd (hsigned _ howner) hnot
  exact ⟨.refl (OrderSafe.refl signed) _,
    (Table.keeps_insert_iff (OrderSafe.refl signed)).2 fun r₀ _ => hsafe r₀,
    .refl (OrderSafe.refl signed) _, .refl (PositionSafe.refl signed) _⟩

/-- A deposit to a short is safe exactly when it names the price limit of the order. -/
theorem short_safe_iff {signed : Address → Prop} {amount : ℤ} {key : MarketIndexKey}
    {limit : Option Price} (hp : s.currentState.IsPending)
    (hrange : ∀ (k : MarketIndexKey) r, s.currentState.flat.shorts[k]? = some r →
      IsInt64 r.balance) (hamount : IsInt64 amount)
    (hsigned : ∀ a ∈ s.signedKeys, signed a) (hskip : s.skipSignatureCheck = false)
    (h : s.short amount key limit = .ok s') :
    OrdersSafe signed s.currentState.flat s'.currentState.flat ↔
      OrderFits signed s (.short amount key limit) := by
  simp only [short, bind_eq_ok, require_eq_ok, pure_eq_ok, checkSignature_iff hskip] at h
  obtain ⟨-, -, -, -, -, -, -, -, -, -, -, -, -, -, -, howner, s₁, hmove, -, hnonneg, rfl⟩ := h
  set r : OrderRecord := { updatedOrder (s.currentState.getShortRecord key) s₁.currentState.now
    amount with shortPriceLimit := limit } with hr
  change OrdersSafe signed _ (s₁.currentState.storeShortRecord key r).flat ↔ _
  rw [moveOrderFunds_currentState hmove, ChainInterface.storeShortRecord_eq .transparent hp,
    ChainInterface.flat_write hp]
  have hkeeps : s.currentState.flat.shorts.Keeps (OrderSafe signed)
      (s.currentState.flat.shorts.insert key r) ↔ ∀ r₀, s.currentState.flat.shorts[key]? = some r₀ →
        OrderSafe signed key r₀ r := Table.keeps_insert_iff (OrderSafe.refl signed)
  constructor
  · intro hsafe hnot r₀ hr₀ hnull
    rw [ChainInterface.getShortRecord_eq] at hr₀
    exact (hkeeps.1 hsafe.shorts r₀ hr₀ hnot hnull).shortPriceLimit
  · intro hfits
    refine ⟨.refl (OrderSafe.refl signed) _, .refl (OrderSafe.refl signed) _,
      hkeeps.2 fun r₀ hr₀ hnot hnull => ?_, .refl (PositionSafe.refl signed) _⟩
    have hget : s.currentState.getShortRecord key = some r₀ := by
      rw [ChainInterface.getShortRecord_eq, hr₀]
    -- without the signature of the owner funds are only added
    have hdeposit : 0 ≤ amount := howner.resolve_right fun ha => hnot (hsigned _ ha)
    have hbalance : r.balance = wrap64 (r₀.balance + amount) := by
      rw [hr, hget]
      rfl
    rw [hbalance] at hnonneg
    refine ⟨hfits hnot r₀ hget hnull, ?_⟩
    rw [hbalance]
    exact le_wrap64_add (hrange key r₀ hr₀) hamount hdeposit hnonneg

/-- A cover moves positions of the owner who signed it. -/
theorem cover_safe {signed : Address → Prop} {amount : ℤ} {key : MarketIndexKey}
    {newCoverPrice : Option Price} (hp : s.currentState.IsPending)
    (hsigned : ∀ a ∈ s.signedKeys, signed a) (hskip : s.skipSignatureCheck = false)
    (h : s.evaluateOperation crypto (.cover amount key newCoverPrice) = .ok s') :
    OrdersSafe signed s.currentState.flat s'.currentState.flat := by
  have howner : signed key.owner := by
    change s.cover crypto amount key newCoverPrice = .ok s' at h
    simp only [cover, bind_eq_ok, require_eq_ok, checkSignature_iff hskip] at h
    obtain ⟨-, -, -, -, -, -, -, hmem, -⟩ := h
    exact hsigned _ hmem
  have hbooks : booksOf s'.currentState.flat = booksOf s.currentState.flat := by
    refine evaluateOperation_frame booksOf hp (fun t w hw => ?_) h
    cases w <;> first | exact hw.elim | rfl
  have hsafe {price : Price} (r₀ r : CollateralRecord) : PositionSafe signed ⟨price, key.owner⟩ r₀ r :=
    fun hnot => absurd howner hnot
  have hcollateral : s.currentState.flat.collateral.Keeps (PositionSafe signed)
      s'.currentState.flat.collateral := by
    have hcleared : s.currentState.flat.collateral.Keeps (PositionSafe signed)
        (s.currentState.flat.collateral.insert key {}) :=
      (Table.keeps_insert_iff (PositionSafe.refl signed)).2 fun r₀ _ => hsafe r₀ _
    obtain ⟨position, principal, interest, -, -, -, -, hmoves⟩ := cover_moves hp h
    cases hmoves with
    | moved price _ _ hpositions _ =>
      rw [hpositions, Tables.movePosition]
      by_cases hkey : (⟨price, key.owner⟩ : MarketIndexKey) = key
      · rw [hkey, Table.insert_insert_same]
        exact (Table.keeps_insert_iff (PositionSafe.refl signed)).2 fun r₀ _ => hsafe r₀ _
      · exact (Table.keeps_insert_insert_iff (PositionSafe.refl signed) hkey).2
          ⟨fun r₀ _ => hsafe r₀ _, fun r₀ _ => hsafe r₀ _⟩
    | closed _ hpositions _ =>
      rw [hpositions]
      exact hcleared
  exact ordersSafe_of_books hbooks hcollateral

/-- An addition of collateral is safe exactly when the position can take it where it is. -/
theorem addCollateral_safe_iff {signed : Address → Prop} {amount : ℤ} {key : MarketIndexKey}
    (hp : s.currentState.IsPending) (hrange : InRange s.currentState) (hamount : IsInt64 amount)
    (h : s.evaluateOperation crypto (.addCollateral amount key) = .ok s') :
    OrdersSafe signed s.currentState.flat s'.currentState.flat ↔
      OrderFits signed s (.addCollateral amount key) := by
  have hpos : 0 ≤ amount := by
    change s.addCollateral amount key = .ok s' at h
    simp only [addCollateral, bind_eq_ok, require_eq_ok] at h
    obtain ⟨-, -, -, -, -, hnonneg, -⟩ := h
    exact hnonneg
  have hbooks : booksOf s'.currentState.flat = booksOf s.currentState.flat := by
    refine evaluateOperation_frame booksOf hp (fun t w hw => ?_) h
    cases w <;> first | exact hw.elim | rfl
  obtain ⟨position, price, hget, hprice, hpositions, -⟩ := addCollateral_moves hp h
  have hposition : s.currentState.flat.collateral[key]? = some position := by
    rw [← ChainInterface.getCollateralRecord_eq, hget]
  set added := collateralized position amount with hadded
  -- the two keys that are written belong to one owner
  have hfits : OrderFits signed s (.addCollateral amount key) ↔
      (¬signed key.owner → AdditionFits s amount key position price) := by
    constructor
    · exact fun hfits hnot => hfits hnot position price hget hprice
    · intro hfits hnot r price' hr hprice'
      rw [hget] at hr
      cases hr
      rw [hprice] at hprice'
      cases hprice'
      exact hfits hnot
  have hkeeps : OrdersSafe signed s.currentState.flat s'.currentState.flat ↔
      s.currentState.flat.collateral.Keeps (PositionSafe signed)
        ((s.currentState.flat.collateral.insert key {}).insert ⟨price, key.owner⟩ added) := by
    constructor
    · intro hsafe
      have hcollateral := hsafe.collateral
      rwa [hpositions, Tables.movePosition] at hcollateral
    · intro hcollateral
      refine ordersSafe_of_books hbooks ?_
      rwa [hpositions, Tables.movePosition]
  rw [hkeeps, hfits]
  by_cases hkey : price = key.orderPrice
  · -- the position stays under its key
    have heq : (⟨price, key.owner⟩ : MarketIndexKey) = key := by rw [hkey]
    rw [heq, Table.insert_insert_same, Table.keeps_insert_iff (PositionSafe.refl signed)]
    have hgrows := le_wrap64_add_iff (hrange key position hposition).2 hamount hpos
    constructor
    · intro hsafe hnot
      unfold AdditionFits
      split
      · rename_i hnull
        intro r₂ hr₂ hthere
        rw [heq, hget] at hr₂
        cases hr₂
        rw [hnull] at hthere
        cases hthere
      · rename_i hnull
        have hkept := hsafe position hposition hnot (by simpa using hnull)
        exact ⟨hkey, hgrows.1 hkept.collateralBalance, hkept.there⟩
    · intro hfit r₀ hr₀ hnot hnull
      rw [hposition] at hr₀
      cases hr₀
      have hadd := hfit hnot
      rw [AdditionFits, if_neg (by rw [hnull]; exact Bool.false_ne_true)] at hadd
      obtain ⟨-, hfit', hthere⟩ := hadd
      exact ⟨hthere, rfl, rfl, rfl, hgrows.2 hfit'⟩
  · -- the position leaves its key
    have hne : (⟨price, key.owner⟩ : MarketIndexKey) ≠ key := by
      intro heq
      exact hkey (congrArg MarketIndexKey.orderPrice heq)
    rw [Table.keeps_insert_insert_iff (PositionSafe.refl signed) hne]
    constructor
    · rintro ⟨hcleared, hwritten⟩ hnot
      unfold AdditionFits
      split
      · intro r₂ hr₂ hthere
        rw [ChainInterface.getCollateralRecord_eq] at hr₂
        exact hwritten r₂ hr₂ hnot hthere
      · rename_i hnull
        have hkept := hcleared position hposition hnot (by simpa using hnull)
        cases hkept.there
    · intro hfit
      refine ⟨fun r₀ hr₀ hnot hnull => ?_, fun r₂ hr₂ hnot hthere => ?_⟩
      · rw [hposition] at hr₀
        cases hr₀
        have hadd := hfit hnot
        rw [AdditionFits, if_neg (by rw [hnull]; exact Bool.false_ne_true)] at hadd
        exact absurd hadd.1 hkey
      · have hadd := hfit hnot
        unfold AdditionFits at hadd
        split at hadd
        · rw [← ChainInterface.getCollateralRecord_eq] at hr₂
          exact hadd r₂ hr₂ hthere
        · exact absurd hadd.1 hkey

/-! ### One operation -/

/-- What an evaluation keeps: the signatures it checks, and amounts that are 64-bit values. -/
structure OrdersReady (signedKeys : List Address) (s : EvaluationState) : Prop where
  skip : s.skipSignatureCheck = false
  keys : s.signedKeys = signedKeys
  pending : s.currentState.IsPending
  positions : InRange s.currentState
  shorts : ∀ (key : MarketIndexKey) r, s.currentState.flat.shorts[key]? = some r →
    IsInt64 r.balance

/-- A short that is stored holds a 64-bit value. -/
theorem shorts_inRange {op : Operation} (hp : s.currentState.IsPending)
    (hrange : ∀ (key : MarketIndexKey) r, s.currentState.flat.shorts[key]? = some r →
      IsInt64 r.balance) (h : s.evaluateOperation crypto op = .ok s') (key : MarketIndexKey)
    (r : OrderRecord) (hr : s'.currentState.flat.shorts[key]? = some r) : IsInt64 r.balance := by
  have hsame (hop : ∀ w, op.WritesKind w → ∀ key r, w ≠ .short key r) :
      s'.currentState.flat.shorts = s.currentState.flat.shorts := by
    refine evaluateOperation_frame Tables.shorts hp (fun t w hw => ?_) h
    cases w with
    | short key r => exact absurd rfl (hop _ hw key r)
    | _ => rfl
  cases op with
  | short amount shortKey limit =>
    obtain ⟨s₁, r', hmove, -, -, hbalance, -, rfl⟩ := short_eq_ok h
    change (s₁.currentState.storeShortRecord shortKey r').flat.shorts[key]? = some r at hr
    rw [moveOrderFunds_currentState hmove, ChainInterface.storeShortRecord_eq crypto hp,
      ChainInterface.flat_write hp] at hr
    change (s.currentState.flat.shorts.insert shortKey r')[key]? = some r at hr
    rw [Table.getElem?_insert] at hr
    split at hr
    · cases hr
      rw [hbalance]
      exact isInt64_wrap64 _
    · exact hrange key r hr
  | _ =>
    rw [hsame fun w hw key r heq => by subst heq; exact hw.elim] at hr
    exact hrange key r hr

/-- **Step.** The amounts of the positions stay 64-bit values. -/
theorem InRange.step {op : Operation} (hrange : InRange s.currentState)
    (hp : s.currentState.IsPending) (h : s.evaluateOperation crypto op = .ok s') :
    InRange s'.currentState := by
  have hsame (hop : ∀ w, op.WritesKind w → ∀ key r, w ≠ .collateral key r) :
      InRange s'.currentState := by
    have hcollateral : s'.currentState.flat.collateral = s.currentState.flat.collateral := by
      refine evaluateOperation_frame Tables.collateral hp (fun t w hw => ?_) h
      cases w with
      | collateral key r => exact absurd rfl (hop _ hw key r)
      | _ => rfl
    intro key r hr
    rw [hcollateral] at hr
    exact hrange key r hr
  cases op with
  | cover => exact hrange.cover hp h
  | addCollateral => exact hrange.addCollateral hp h
  | _ => exact hsame fun w hw key r heq => by subst heq; exact hw.elim

theorem OrdersReady.step {signedKeys : List Address} {op : Operation}
    (hs : OrdersReady signedKeys s) (h : s.evaluateOperation crypto op = .ok s') :
    OrdersReady signedKeys s' := by
  have hrequest := evaluateOperation_request h
  exact ⟨hrequest.skipSignatureCheck.trans hs.skip, hrequest.signedKeys.trans hs.keys,
    (evaluateOperation_kinds hs.pending h).isPending hs.pending, hs.positions.step hs.pending h,
    shorts_inRange hs.pending hs.shorts h⟩

/-- **Step.** An operation does no more than add funds to what belongs to an owner who has not
signed exactly when it meets its condition. -/
theorem operation_safe_iff {signed : Address → Prop} {signedKeys : List Address} {op : Operation}
    (hs : OrdersReady signedKeys s) (hsigned : ∀ a ∈ signedKeys, signed a)
    (hamount : IsInt64 op.namedAmount) (h : s.evaluateOperation crypto op = .ok s') :
    OrdersSafe signed s.currentState.flat s'.currentState.flat ↔ OrderFits signed s op := by
  have hkeys : ∀ a ∈ s.signedKeys, signed a := by
    rw [hs.keys]
    exact hsigned
  have hspared (hop : SparesOrders op = true) :
      OrdersSafe signed s.currentState.flat s'.currentState.flat := by
    obtain ⟨hbooks, hcollateral⟩ := evaluateOperation_orders hs.pending hop h
    exact ordersSafe_of_eq hbooks hcollateral
  cases op with
  | bid => exact iff_of_true (bid_safe hs.pending hkeys hs.skip h) trivial
  | ask => exact iff_of_true (ask_safe hs.pending hkeys hs.skip h) trivial
  | short => exact short_safe_iff hs.pending hs.shorts hamount hkeys hs.skip h
  | cover => exact iff_of_true (cover_safe hs.pending hkeys hs.skip h) trivial
  | addCollateral => exact addCollateral_safe_iff hs.pending hs.positions hamount h
  | _ => exact iff_of_true (hspared rfl) trivial

/-! ### Transactions -/

section Transactions

variable {c : ChainInterface} {chainId : Digest} {trx : SignedTransaction} {canonical : Bool}

/-- Who has signed a transaction. -/
def Signer (crypto : Crypto) (chainId : Digest) (trx : SignedTransaction) (canonical : Bool) :
    Address → Prop :=
  Signed crypto (crypto.transactionDigest trx.toTransaction chainId) canonical trx.signatures

/-- **Orders obey their owners** in a transaction that leads to `s'`: every operation, in the
state it is evaluated in, does no more than add funds to the orders and margin positions of
owners who have not signed. -/
def OrdersObeyed (crypto : Crypto) (c : ChainInterface) (chainId : Digest)
    (trx : SignedTransaction) (canonical : Bool) (s' : EvaluationState) : Prop :=
  ∃ s, start crypto c chainId trx false canonical = .ok s ∧
    OperationRun crypto (fun s _ s' => OrdersSafe (Signer crypto chainId trx canonical)
        s.currentState.flat s'.currentState.flat)
      (fun s s' => OrdersSafe (Signer crypto chainId trx canonical) s.currentState.flat
        s'.currentState.flat) s trx.operations s'

/-- The condition on a transaction: every operation meets its own in the state it is evaluated
in. -/
def OrdersFit (crypto : Crypto) (c : ChainInterface) (chainId : Digest)
    (trx : SignedTransaction) (canonical : Bool) : Prop :=
  ∃ s, start crypto c chainId trx false canonical = .ok s ∧
    OperationsMeet crypto (OrderFits (Signer crypto chainId trx canonical)) s trx.operations

/-- **When orders obey their owners.** A transaction that evaluates with signature checking on
does no more than add funds to the orders and margin positions of owners who have not signed
exactly when its unsigned deposits to shorts keep the price limits and its unsigned additions of
collateral leave the positions where they are. -/
theorem ordersObeyed_iff (hp : c.IsPending) (hpositions : InRange c)
    (hshorts : ∀ (key : MarketIndexKey) r, c.flat.shorts[key]? = some r → IsInt64 r.balance)
    (hops : ∀ op ∈ trx.operations, IsInt64 op.namedAmount)
    (h : evaluate crypto c chainId trx false canonical = .ok s') :
    OrdersObeyed crypto c chainId trx canonical s' ↔
      OrdersFit crypto c chainId trx canonical := by
  obtain ⟨signedKeys, s₁, s₂, -, hkeys, hrun, hpost, hvotes⟩ := evaluate_eq_ok h
  have hrecover := hkeys rfl
  have hstart : start crypto c chainId trx false canonical =
      .ok (initial c chainId trx false signedKeys) := by
    simp only [start, ite_bind, bind_eq_ok]
    exact ⟨signedKeys, hrecover, rfl⟩
  have hsigned : ∀ a ∈ signedKeys, Signer crypto chainId trx canonical a :=
    signed_of_mem hrecover
  have hfinish (hs₁ : OrdersReady signedKeys s₁) :
      OrdersSafe (Signer crypto chainId trx canonical) s₁.currentState.flat
        s'.currentState.flat := by
    refine ordersSafe_of_eq ?_ ?_
    · exact finish_frame booksOf hs₁.pending (fun t w hw => by
        cases w <;> first | exact hw.elim | rfl) hpost hvotes
    · exact finish_frame Tables.collateral hs₁.pending (fun t w hw => by
        cases w <;> first | exact hw.elim | rfl) hpost hvotes
  have hiff : OperationRun crypto (fun s _ s' => OrdersSafe (Signer crypto chainId trx canonical)
        s.currentState.flat s'.currentState.flat)
      (fun s s' => OrdersSafe (Signer crypto chainId trx canonical) s.currentState.flat
        s'.currentState.flat) (initial c chainId trx false signedKeys) trx.operations s' ↔
      OperationsMeet crypto (OrderFits (Signer crypto chainId trx canonical))
        (initial c chainId trx false signedKeys) trx.operations := by
    refine operationRun_iff (I := OrdersReady signedKeys) (fun s op hop s₃ hs hstep => ?_)
      ⟨rfl, rfl, hp, hpositions, hshorts⟩ hrun hfinish
    exact ⟨operation_safe_iff hs hsigned (hops op hop) hstep, hs.step hstep⟩
  constructor
  · rintro ⟨s, hs, hobeyed⟩
    rw [hstart] at hs
    cases hs
    exact ⟨_, hstart, hiff.1 hobeyed⟩
  · rintro ⟨s, hs, hfit⟩
    rw [hstart] at hs
    cases hs
    exact ⟨_, hstart, hiff.2 hfit⟩

end Transactions

/-! ### Collateral from a stranger -/

/-- The condition of the balance of a stranger. -/
def strangerFunds : WithdrawCondition :=
  .ofSignature (Crypto.transparent.keyAddress 7) 0 0

/-- The chain state with two positions, and a stranger who has funds. -/
def besideStranger : ChainInterface :=
  twoPositions.write .transparent (.balance { balance := 30, condition := strangerFunds })

/-- The stranger adds collateral to the first position. -/
def addition (amount : ℤ) : SignedTransaction where
  expiration := 200
  operations := [.withdraw (Crypto.transparent.conditionAddress strangerFunds) amount .empty,
    .addCollateral amount (positionAt 50000000000000000)]
  signatures := [7]

theorem owner_not_signer (amount : ℤ) (key : MarketIndexKey)
    (hkey : key.owner = Crypto.transparent.keyAddress 9) :
    ¬Signer .transparent 0 (addition amount) false key.owner := by
  rintro ⟨sig, hsig, pub, hpub, hmem⟩
  obtain rfl := List.mem_singleton.1 hsig
  cases hpub
  rw [hkey] at hmem
  revert hmem
  decide

/-- **A stranger moves a position.** With 30 more of collateral the position goes to its call
price, and leaves the price it was stored under. -/
theorem position_moved_by_stranger :
    ∃ s, evaluate Crypto.transparent besideStranger 0 (addition 30) false false = .ok s ∧
      ¬OrdersObeyed Crypto.transparent besideStranger 0 (addition 30) false s := by
  obtain ⟨s, hs⟩ := exists_eq_ok (x := evaluate Crypto.transparent besideStranger 0
    (addition 30) false false) (by decide +kernel)
  refine ⟨s, hs, ?_⟩
  rintro ⟨s₀, hstart, hrun⟩
  have hbefore : s₀.currentState = besideStranger := by
    simp only [start, ite_bind, bind_eq_ok] at hstart
    obtain ⟨signedKeys, -, hstart⟩ := hstart
    cases hstart
    rfl
  have hstranger := owner_not_signer 30 (positionAt 50000000000000000) rfl
  have hposition : s₀.currentState.flat.collateral[positionAt 50000000000000000]? =
      some { collateralBalance := 300, payoffBalance := 10, interestRate := priceOf 1 } := by
    rw [hbefore]
    decide +kernel
  -- the position should be there after every step
  have hthere : ∃ r, s.currentState.flat.collateral[positionAt 50000000000000000]? = some r ∧
      r.isNull = false := by
    cases hrun with
    | step _ hsafe₁ hrest =>
      cases hrest with
      | step _ hsafe₂ hrest =>
        cases hrest with
        | done hsafe₃ =>
          obtain ⟨r₁, hr₁, hkept₁⟩ := hsafe₁.collateral _ _ hposition
          obtain ⟨r₂, hr₂, hkept₂⟩ := hsafe₂.collateral _ _ hr₁
          obtain ⟨r₃, hr₃, hkept₃⟩ := hsafe₃.collateral _ _ hr₂
          have hthere₂ := (hkept₂ hstranger (hkept₁ hstranger rfl).there).there
          exact ⟨r₃, hr₃, (hkept₃ hstranger hthere₂).there⟩
  obtain ⟨r, hr, hthere⟩ := hthere
  have hnull : (evaluate Crypto.transparent besideStranger 0 (addition 30) false false).map
      (fun s => (s.currentState.flat.collateral[positionAt 50000000000000000]?).map
        CollateralRecord.isNull) = .ok (some true) := by
    decide +kernel
  rw [hs] at hnull
  have hafter : (s.currentState.flat.collateral[positionAt 50000000000000000]?).map
      CollateralRecord.isNull = some true := Except.ok.inj hnull
  rw [hr, Option.map_some, hthere] at hafter
  cases hafter

/-- One more share of collateral leaves the position where it is. -/
theorem ordersObeyed_addition :
    ∃ s, evaluate Crypto.transparent besideStranger 0 (addition 1) false false = .ok s ∧
      (OrdersObeyed Crypto.transparent besideStranger 0 (addition 1) false s ↔
        OrdersFit Crypto.transparent besideStranger 0 (addition 1) false) := by
  obtain ⟨s, hs⟩ := exists_eq_ok (x := evaluate Crypto.transparent besideStranger 0
    (addition 1) false false) (by decide +kernel)
  have hp : besideStranger.IsPending := List.cons_ne_nil _ _
  have hpositions : InRange besideStranger := Table.forall_of_toList (by decide +kernel)
  have hshorts : ∀ (key : MarketIndexKey) r, besideStranger.flat.shorts[key]? = some r →
      IsInt64 r.balance := Table.forall_of_toList (by decide +kernel)
  exact ⟨s, hs, ordersObeyed_iff hp hpositions hshorts (by decide) hs⟩

end EvaluationState

end LarkX
