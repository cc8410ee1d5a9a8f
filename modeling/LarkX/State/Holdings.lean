import LarkX.ForMathlib.Till
import LarkX.State.Keyed

/-!
# Who holds an asset

The funds of an asset are spread over balances, orders, margin positions and the pay of the
delegates. `Tables.sumOf w t a` is the sum of a weight `w` over all those amounts, and
`Tables.holdings` their plain sum. One write moves the sum from the amount it overwrites to the
amount it writes (`Tables.sumOf_write`), whatever the weight; so a set of tables is a `Till`
(`Tables.till`), and a write is the move of one account of it (`Tables.account_write`).
-/

namespace LarkX

/-! ### What a record holds -/

/-- What a balance holds of an asset. -/
def BalanceRecord.held (r : BalanceRecord) (a : ℤ) : ℤ :=
  if r.assetId = a then r.balance else 0

/-- What a bid holds of an asset: it pays in the quote asset. -/
def OrderRecord.bidHeld (r : OrderRecord) (a : ℤ) (key : MarketIndexKey) : ℤ :=
  if key.orderPrice.quoteAssetId = a then r.balance else 0

/-- What an ask or a short holds of an asset: both pay in the base asset. -/
def OrderRecord.askHeld (r : OrderRecord) (a : ℤ) (key : MarketIndexKey) : ℤ :=
  if key.orderPrice.baseAssetId = a then r.balance else 0

/-- What a margin position holds of an asset. -/
def CollateralRecord.held (r : CollateralRecord) (a : ℤ) (key : MarketIndexKey) : ℤ :=
  if key.orderPrice.baseAssetId = a then r.collateralBalance else 0

/-- What the pay balance of a delegate holds of an asset: pay is in the base asset. -/
def AccountRecord.held (r : AccountRecord) (a : ℤ) : ℤ :=
  if a = 0 then r.payBalance else 0

namespace Tables

variable {crypto : Crypto}

/-- The sum of a weight over all amounts of an asset. -/
def sumOf (w : ℤ → ℤ) (t : Tables) (a : ℤ) : ℤ :=
  t.balances.sum (fun _ r => w (r.held a)) + t.bids.sum (fun key r => w (r.bidHeld a key)) +
    t.asks.sum (fun key r => w (r.askHeld a key)) +
    t.shorts.sum (fun key r => w (r.askHeld a key)) +
    t.collateral.sum (fun key r => w (r.held a key)) + t.accounts.sum (fun _ r => w (r.held a))

/-- All balances, orders, collateral and pay balances of an asset. -/
def holdings (t : Tables) (a : ℤ) : ℤ :=
  t.sumOf id a

/-- `collected_fees` of an asset, `0` when there is no such asset. -/
def collectedFees (t : Tables) (a : ℤ) : ℤ :=
  (t.assets[a]?).elim 0 AssetRecord.collectedFees

/-- `current_share_supply` of an asset, `0` when there is no such asset. -/
def currentShareSupply (t : Tables) (a : ℤ) : ℤ :=
  (t.assets[a]?).elim 0 AssetRecord.currentShareSupply

/-- The supply less everything that is held and the fees: what the books leave unexplained. -/
def surplus (t : Tables) (a : ℤ) : ℤ :=
  t.currentShareSupply a - t.holdings a - t.collectedFees a

/-! ### One write -/

/-- The amount a write overwrites. -/
def heldBefore (crypto : Crypto) (t : Tables) (a : ℤ) : Write → ℤ
  | .balance r => (t.balances[crypto.conditionAddress r.condition]?).elim 0 (·.held a)
  | .bid key _ => (t.bids[key]?).elim 0 (·.bidHeld a key)
  | .ask key _ => (t.asks[key]?).elim 0 (·.askHeld a key)
  | .short key _ => (t.shorts[key]?).elim 0 (·.askHeld a key)
  | .collateral key _ => (t.collateral[key]?).elim 0 (·.held a key)
  | .account r | .newAccount r => (t.accounts[r.id]?).elim 0 (·.held a)
  | _ => 0

/-- A weight that vanishes at `0` passes through an optional amount. -/
private theorem elim_weight {α : Type} {w : ℤ → ℤ} (hw : w 0 = 0) (o : Option α) (f : α → ℤ) :
    o.elim 0 (fun r => w (f r)) = w (o.elim 0 f) := by
  cases o with
  | none => exact hw.symm
  | some r => rfl

end Tables

/-- The amount a write leaves. -/
def Write.held (a : ℤ) : Write → ℤ
  | .balance r => r.held a
  | .bid key r => r.bidHeld a key
  | .ask key r => r.askHeld a key
  | .short key r => r.askHeld a key
  | .collateral key r => r.held a key
  | .account r | .newAccount r => r.held a
  | _ => 0

/-- The same write with nothing in it. -/
def Write.emptied : Write → Write
  | .balance r => .balance { r with balance := 0 }
  | .bid key r => .bid key { r with balance := 0 }
  | .ask key r => .ask key { r with balance := 0 }
  | .short key r => .short key { r with balance := 0 }
  | .collateral key r => .collateral key { r with collateralBalance := 0 }
  | .account r => .account { r with delegateInfo := none }
  | .newAccount r => .newAccount { r with delegateInfo := none }
  | x => x

theorem Write.held_emptied (a : ℤ) (x : Write) : x.emptied.held a = 0 := by
  cases x with
  | balance | bid | ask | short | collateral => exact ite_self _
  | account | newAccount => exact ite_self _
  | _ => rfl

namespace Tables

variable {crypto : Crypto}

theorem heldBefore_emptied (t : Tables) (a : ℤ) (x : Write) :
    t.heldBefore crypto a x.emptied = t.heldBefore crypto a x := by
  cases x <;> rfl

/-- **One write.** It moves any sum from the amount it overwrites to the amount it leaves. -/
theorem sumOf_write {w : ℤ → ℤ} (hw : w 0 = 0) (t : Tables) (a : ℤ) (x : Write) :
    (t.write crypto x).sumOf w a = t.sumOf w a + (w (x.held a) - w (t.heldBefore crypto a x)) := by
  cases x with
  | balance | bid | ask | short | collateral | account | newAccount =>
    simp only [sumOf, write, Table.sum_insert, elim_weight hw, Write.held, heldBefore]
    ring
  | _ =>
    simp only [sumOf, write, Write.held, heldBefore, sub_self, add_zero]

/-- A write between states that holds nothing before and after moves no sum. -/
theorem sumOf_write_of_zero {w : ℤ → ℤ} (hw : w 0 = 0) {t : Tables} {a : ℤ} {x : Write}
    (hold : t.heldBefore crypto a x = 0) (hnew : x.held a = 0) :
    (t.write crypto x).sumOf w a = t.sumOf w a := by
  rw [sumOf_write hw, hold, hnew, sub_self, add_zero]

theorem sumOf_nonneg {w : ℤ → ℤ} (hw : ∀ x, 0 ≤ w x) (t : Tables) (a : ℤ) : 0 ≤ t.sumOf w a := by
  unfold sumOf
  have hbalances := Table.sum_nonneg (t := t.balances) fun _ r _ => hw (r.held a)
  have hbids := Table.sum_nonneg (t := t.bids) fun key r _ => hw (r.bidHeld a key)
  have hasks := Table.sum_nonneg (t := t.asks) fun key r _ => hw (r.askHeld a key)
  have hshorts := Table.sum_nonneg (t := t.shorts) fun key r _ => hw (r.askHeld a key)
  have hcollateral := Table.sum_nonneg (t := t.collateral) fun key r _ => hw (r.held a key)
  have haccounts := Table.sum_nonneg (t := t.accounts) fun _ r _ => hw (r.held a)
  omega

/-- When a sum of non-negative weights vanishes, so does any sum of weights that vanish with
them. -/
theorem sumOf_eq_zero_of {v w : ℤ → ℤ} (hv : ∀ x, 0 ≤ v x) (hvw : ∀ x, v x = 0 → w x = 0)
    {t : Tables} {a : ℤ} (h : t.sumOf v a = 0) : t.sumOf w a = 0 := by
  unfold sumOf at h ⊢
  have hbalances := Table.sum_nonneg (t := t.balances) fun _ r _ => hv (r.held a)
  have hbids := Table.sum_nonneg (t := t.bids) fun key r _ => hv (r.bidHeld a key)
  have hasks := Table.sum_nonneg (t := t.asks) fun key r _ => hv (r.askHeld a key)
  have hshorts := Table.sum_nonneg (t := t.shorts) fun key r _ => hv (r.askHeld a key)
  have hcollateral := Table.sum_nonneg (t := t.collateral) fun key r _ => hv (r.held a key)
  have haccounts := Table.sum_nonneg (t := t.accounts) fun _ r _ => hv (r.held a)
  rw [Table.sum_eq_zero_of (fun _ r => hv (r.held a)) (by omega) fun _ r => hvw (r.held a),
    Table.sum_eq_zero_of (fun key r => hv (r.bidHeld a key)) (by omega)
      fun key r => hvw (r.bidHeld a key),
    Table.sum_eq_zero_of (t := t.asks) (fun key r => hv (r.askHeld a key)) (by omega)
      fun key r => hvw (r.askHeld a key),
    Table.sum_eq_zero_of (t := t.shorts) (fun key r => hv (r.askHeld a key)) (by omega)
      fun key r => hvw (r.askHeld a key),
    Table.sum_eq_zero_of (fun key r => hv (r.held a key)) (by omega)
      fun key r => hvw (r.held a key),
    Table.sum_eq_zero_of (fun _ r => hv (r.held a)) (by omega) fun _ r => hvw (r.held a)]
  rfl

/-! ### The tables as a till -/

/-- The tables, with the totals of a transaction, as the till of an asset. -/
def till (t : Tables) (a withdrawn deposited : ℤ) : Till where
  withdrawn := withdrawn
  deposited := deposited
  fund := t.collectedFees a
  issued := t.currentShareSupply a
  positive := t.sumOf posPart a
  negative := t.sumOf negPart a
  overdrawn := t.sumOf negCount a
  outside := t.sumOf outCount a

/-- Two sets of tables in which the same funds are held of an asset. -/
def SameFunds (a : ℤ) (t t' : Tables) : Prop :=
  ∀ w : ℤ → ℤ, w 0 = 0 → t'.sumOf w a = t.sumOf w a

/-- One amount of an asset goes from `old` to `new`: between the two states there is one in
which it is gone. -/
def Moved (a old new : ℤ) (t t' : Tables) : Prop :=
  ∃ t'' : Tables, (∀ w : ℤ → ℤ, w 0 = 0 → t''.sumOf w a = t.sumOf w a - w old) ∧
    ∀ w : ℤ → ℤ, w 0 = 0 → t'.sumOf w a = t''.sumOf w a + w new

theorem SameFunds.refl (a : ℤ) (t : Tables) : SameFunds a t t :=
  fun _ _ => rfl

theorem SameFunds.trans {a : ℤ} {t₁ t₂ t₃ : Tables} (h : SameFunds a t₁ t₂)
    (h' : SameFunds a t₂ t₃) : SameFunds a t₁ t₃ :=
  fun w hw => (h' w hw).trans (h w hw)

theorem SameFunds.moved {a : ℤ} {t t' : Tables} (h : SameFunds a t t') : Moved a 0 0 t t' :=
  ⟨t, fun w hw => by rw [hw, sub_zero], fun w hw => by rw [h w hw, hw, add_zero]⟩

theorem Moved.trans_same {a old new : ℤ} {t₁ t₂ t₃ : Tables} (h : Moved a old new t₁ t₂)
    (h' : SameFunds a t₂ t₃) : Moved a old new t₁ t₃ := by
  obtain ⟨t, hout, hin⟩ := h
  exact ⟨t, hout, fun w hw => (h' w hw).trans (hin w hw)⟩

theorem SameFunds.trans_moved {a old new : ℤ} {t₁ t₂ t₃ : Tables} (h : SameFunds a t₁ t₂)
    (h' : Moved a old new t₂ t₃) : Moved a old new t₁ t₃ := by
  obtain ⟨t, hout, hin⟩ := h'
  exact ⟨t, fun w hw => by rw [hout w hw, h w hw], hin⟩

variable (crypto) in
/-- One write moves one amount. -/
theorem moved_write (t : Tables) (a : ℤ) (x : Write) :
    Moved a (t.heldBefore crypto a x) (x.held a) t (t.write crypto x) := by
  have hempty : ∀ w : ℤ → ℤ, w 0 = 0 → (t.write crypto x.emptied).sumOf w a =
      t.sumOf w a - w (t.heldBefore crypto a x) := fun w hw => by
    rw [sumOf_write hw, Write.held_emptied, heldBefore_emptied, hw]
    ring
  refine ⟨t.write crypto x.emptied, hempty, fun w hw => ?_⟩
  rw [hempty w hw, sumOf_write hw]
  ring

theorem sameFunds_write {t : Tables} {a : ℤ} {x : Write} (hold : t.heldBefore crypto a x = 0)
    (hnew : x.held a = 0) : SameFunds a t (t.write crypto x) :=
  fun _ hw => sumOf_write_of_zero hw hold hnew

/-- **An account of the till.** A move of one amount is a move of one account. -/
theorem Moved.account {a old new : ℤ} {t t' : Tables} (h : Moved a old new t t')
    (w d w' d' : ℤ) : Till.Account old new (t.till a w d) (t'.till a w' d') := by
  obtain ⟨t'', hout, hin⟩ := h
  have hposOut := hout posPart rfl
  have hnegOut := hout negPart rfl
  have hcountOut := hout negCount rfl
  have houtOut := hout outCount (by decide)
  have hpos := sumOf_nonneg posPart_nonneg t'' a
  have hneg := sumOf_nonneg negPart_nonneg t'' a
  have hcount := sumOf_nonneg negCount_nonneg t'' a
  have houts := sumOf_nonneg outCount_nonneg t'' a
  refine ⟨?_, ?_, ?_, ?_, ?_, ?_, ?_, fun hall => ?_, ?_⟩
  · have hposIn := hin posPart rfl
    change t'.sumOf posPart a = t.sumOf posPart a + posPart new - posPart old
    omega
  · have hnegIn := hin negPart rfl
    change t'.sumOf negPart a = t.sumOf negPart a + negPart new - negPart old
    omega
  · have hcountIn := hin negCount rfl
    change t'.sumOf negCount a = t.sumOf negCount a + negCount new - negCount old
    omega
  · have houtIn := hin outCount (by decide)
    change t'.sumOf outCount a = t.sumOf outCount a + outCount new - outCount old
    omega
  · change posPart old ≤ t.sumOf posPart a
    omega
  · change negPart old ≤ t.sumOf negPart a
    omega
  · change negCount old ≤ t.sumOf negCount a
    omega
  · -- what remains has no negative amount
    change negCount old = t.sumOf negCount a at hall
    change negPart old = t.sumOf negPart a
    have hzero : t''.sumOf negPart a = 0 := by
      refine sumOf_eq_zero_of negCount_nonneg (fun x hx => ?_) (show t''.sumOf negCount a = 0 by omega)
      rcases parts x with ⟨-, -, hn, -⟩ | ⟨-, -, -, hn⟩
      · exact hn
      · omega
    omega
  · change outCount old ≤ t.sumOf outCount a
    omega

/-! ### Supply and fees -/

variable (crypto) in
theorem collectedFees_write_asset (t : Tables) (r : AssetRecord) (a : ℤ) :
    (t.write crypto (.asset r)).collectedFees a =
      if a = r.id then r.collectedFees else t.collectedFees a := by
  unfold collectedFees
  change ((t.assets.insert r.id r)[a]?).elim 0 AssetRecord.collectedFees = _
  rw [Table.getElem?_insert]
  split <;> rfl

variable (crypto) in
theorem currentShareSupply_write_asset (t : Tables) (r : AssetRecord) (a : ℤ) :
    (t.write crypto (.asset r)).currentShareSupply a =
      if a = r.id then r.currentShareSupply else t.currentShareSupply a := by
  unfold currentShareSupply
  change ((t.assets.insert r.id r)[a]?).elim 0 AssetRecord.currentShareSupply = _
  rw [Table.getElem?_insert]
  split <;> rfl

/-- The funds of an asset as the positive amounts less the negative ones. -/
theorem holdings_eq (t : Tables) (a : ℤ) :
    t.holdings a = t.sumOf posPart a - t.sumOf negPart a := by
  have hparts : (id : ℤ → ℤ) = fun x => posPart x - negPart x :=
    funext fun x => (posPart_sub_negPart x).symm
  rw [holdings, hparts]
  simp only [sumOf, Table.sum_sub]
  ring

end Tables

/-! ### Funds in order -/

/-- Every single amount that is held of an asset satisfies `p`. -/
structure Tables.EachHeld (p : ℤ → Prop) (t : Tables) (a : ℤ) : Prop where
  balances : ∀ (k : BalanceId) (r : BalanceRecord), t.balances[k]? = some r → p (r.held a)
  bids : ∀ (k : MarketIndexKey) (r : OrderRecord), t.bids[k]? = some r → p (r.bidHeld a k)
  asks : ∀ (k : MarketIndexKey) (r : OrderRecord), t.asks[k]? = some r → p (r.askHeld a k)
  shorts : ∀ (k : MarketIndexKey) (r : OrderRecord), t.shorts[k]? = some r → p (r.askHeld a k)
  collateral : ∀ (k : MarketIndexKey) (r : CollateralRecord), t.collateral[k]? = some r → p (r.held a k)
  accounts : ∀ (k : ℤ) (r : AccountRecord), t.accounts[k]? = some r → p (r.held a)

/-- The funds of an asset are in order, also after `created` more: nothing is negative, and
they fit in 64 bits together with the fees. -/
structure Tables.Solvent (t : Tables) (a created : ℤ) : Prop where
  nonneg : t.EachHeld (0 ≤ ·) a
  fits : t.holdings a + max 0 (t.collectedFees a) + created ≤ int64Max
  fees : int64Min ≤ t.collectedFees a
  supply : 0 ≤ t.currentShareSupply a ∧ t.currentShareSupply a + created ≤ int64Max

namespace Tables

/-- A weight that vanishes on every amount has the sum `0`. -/
theorem EachHeld.sumOf_eq_zero {p : ℤ → Prop} {w : ℤ → ℤ} (hw : ∀ x, p x → w x = 0) {t : Tables}
    {a : ℤ} (h : t.EachHeld p a) : t.sumOf w a = 0 := by
  unfold sumOf
  rw [Table.sum_eq_zero fun k r hr => hw _ (h.balances k r hr),
    Table.sum_eq_zero fun k r hr => hw _ (h.bids k r hr),
    Table.sum_eq_zero fun k r hr => hw _ (h.asks k r hr),
    Table.sum_eq_zero fun k r hr => hw _ (h.shorts k r hr),
    Table.sum_eq_zero fun k r hr => hw _ (h.collateral k r hr),
    Table.sum_eq_zero fun k r hr => hw _ (h.accounts k r hr)]
  rfl

theorem EachHeld.imp₂ {p q r : ℤ → Prop} {t : Tables} {a : ℤ} (h : t.EachHeld p a)
    (h' : t.EachHeld q a) (hpq : ∀ x, p x → q x → r x) : t.EachHeld r a where
  balances k x hx := hpq _ (h.balances k x hx) (h'.balances k x hx)
  bids k x hx := hpq _ (h.bids k x hx) (h'.bids k x hx)
  asks k x hx := hpq _ (h.asks k x hx) (h'.asks k x hx)
  shorts k x hx := hpq _ (h.shorts k x hx) (h'.shorts k x hx)
  collateral k x hx := hpq _ (h.collateral k x hx) (h'.collateral k x hx)
  accounts k x hx := hpq _ (h.accounts k x hx) (h'.accounts k x hx)

/-- Every single amount weighs at most the sum. -/
theorem eachHeld_le {w : ℤ → ℤ} (hw : ∀ x, 0 ≤ w x) (t : Tables) (a : ℤ) :
    t.EachHeld (fun x => w x ≤ t.sumOf w a) a := by
  have hbalances := Table.sum_nonneg (t := t.balances) fun _ r _ => hw (r.held a)
  have hbids := Table.sum_nonneg (t := t.bids) fun key r _ => hw (r.bidHeld a key)
  have hasks := Table.sum_nonneg (t := t.asks) fun key r _ => hw (r.askHeld a key)
  have hshorts := Table.sum_nonneg (t := t.shorts) fun key r _ => hw (r.askHeld a key)
  have hcollateral := Table.sum_nonneg (t := t.collateral) fun key r _ => hw (r.held a key)
  have haccounts := Table.sum_nonneg (t := t.accounts) fun _ r _ => hw (r.held a)
  unfold sumOf
  refine ⟨fun k r hr => ?_, fun k r hr => ?_, fun k r hr => ?_, fun k r hr => ?_,
    fun k r hr => ?_, fun k r hr => ?_⟩
  · have hle := Table.le_sum (fun _ r _ => hw (r.held a)) hr
    omega
  · have hle := Table.le_sum (fun key r _ => hw (r.bidHeld a key)) hr
    omega
  · have hle := Table.le_sum (fun key r _ => hw (r.askHeld a key)) hr
    omega
  · have hle := Table.le_sum (fun key r _ => hw (r.askHeld a key)) hr
    omega
  · have hle := Table.le_sum (fun key r _ => hw (r.held a key)) hr
    omega
  · have hle := Table.le_sum (fun _ r _ => hw (r.held a)) hr
    omega

/-- Funds in order are a sound till. -/
theorem Solvent.sound {t : Tables} {a created : ℤ} (h : t.Solvent a created)
    (hcreated : 0 ≤ created) : (t.till a 0 0).Sound created := by
  have hneg : t.sumOf negPart a = 0 :=
    h.nonneg.sumOf_eq_zero fun x hx => (parts_of_nonneg hx).2.1
  have hholdings : t.holdings a = t.sumOf posPart a := by rw [holdings_eq, hneg, sub_zero]
  have hfits := h.fits
  rw [hholdings] at hfits
  refine ⟨rfl, rfl, hneg, h.nonneg.sumOf_eq_zero fun x hx => (parts_of_nonneg hx).2.2, ?_,
    sumOf_nonneg posPart_nonneg t a, ?_, h.fees, h.supply⟩
  · -- an amount is no larger than the sum, which fits
    have hrange : t.EachHeld IsInt64 a := h.nonneg.imp₂ (eachHeld_le posPart_nonneg t a)
      fun x hx hle => by
        rw [(parts_of_nonneg hx).1] at hle
        unfold IsInt64 int64Min
        omega
    exact hrange.sumOf_eq_zero fun x hx => outCount_of_range hx
  · change t.sumOf posPart a + posPart (t.collectedFees a) + created ≤ int64Max
    have hfund := parts (t.collectedFees a)
    omega

end Tables

end LarkX
