import LarkX.Market.Trades

/-!
# Credits to a balance

Five paths of the code credit a balance that exists: a deposit, a filled bid, a filled ask, collateral
that is returned, and a cancelled short (`CreditStep`). The deposit sets the deposit date to the average
of the old date and now, weighted by the amounts; the market paths set it to now, so the yield the
holder has earned is lost (`depositDate_average_iff`).
-/

namespace LarkX

open ChainInterface (Writes)

namespace MarketEngine

/-- `cancel_current_short`: the balance of the short is refunded in the base asset of the chain and
the order removed. -/
def cancelCurrentShort (crypto : Crypto) (e : MarketEngine) (bid : MarketOrder)
    (mtrx : MarketTransaction) (quoteAssetId : ℤ) : Fallible (MarketEngine × MarketTransaction) := do
  require (bid.type = .shortOrder) (.assertion "_current_bid->type == short_order")
  let mtrx := { mtrx with
    askPaid := {}
    askReceived := ⟨0, quoteAssetId⟩
    bidReceived := bid.getBalance
    bidPaid := ⟨0, quoteAssetId⟩
    shortCollateral := {} }
  let e := e.payOut crypto mtrx.bidOwner ⟨mtrx.bidReceived.amount, 0⟩
  let bid := bid.setBalance 0
  let e := e.withState (e.pendingState.storeShortRecord bid.marketIndex bid.state)
  return ({ e with currentBid := some bid }, mtrx)

/-! ### What a market path does to the balances -/

variable {crypto : Crypto} {e e' : MarketEngine} {bid ask : MarketOrder}
  {mtrx mtrx' : MarketTransaction} {c c' : ChainInterface} {id : BalanceId} {r r' : BalanceRecord}

/-- The balances change by one credit, if at all. -/
def CreditsOne (crypto : Crypto) (c c' : ChainInterface) : Prop :=
  c'.flat.balances = c.flat.balances ∨ ∃ owner funds,
    c'.flat.balances = (c.flat.write crypto (.balance (credited crypto c owner funds))).balances

theorem payCurrentBid_credits (hp : e.pendingState.IsPending)
    (h : e.payCurrentBid crypto bid mtrx = .ok e') :
    CreditsOne crypto e.pendingState e'.pendingState := by
  obtain ⟨-, -, kept, fees, -, rfl⟩ := payCurrentBid_eq_ok hp h
  refine Or.inr ⟨mtrx.bidOwner, ⟨mtrx.bidReceived.amount, e.baseId⟩, ?_⟩
  rw [afterBid_flat hp]
  rfl

theorem payCurrentAsk_credits (hp : e.pendingState.IsPending) {feesToQuote : Bool}
    (h : e.payCurrentAsk crypto ask mtrx feesToQuote = .ok e') :
    CreditsOne crypto e.pendingState e'.pendingState := by
  obtain ⟨-, -, kept, quoteFees, baseFees, rfl, -⟩ := payCurrentAsk_eq_ok hp h
  refine Or.inr ⟨mtrx.askOwner, ⟨mtrx.askReceived.amount, e.quoteId⟩, ?_⟩
  rw [afterAsk_flat hp]
  rfl

theorem payCurrentCover_credits (hp : e.pendingState.IsPending)
    (h : e.payCurrentCover crypto ask mtrx = .ok (e', mtrx')) :
    CreditsOne crypto e.pendingState e'.pendingState := by
  obtain ⟨-, _, _, _, left, owed, -, hcloses⟩ := payCurrentCover_eq_ok hp h
  cases hcloses with
  | atLoss hleft =>
    exact Or.inl ((congrArg Tables.balances (ChainInterface.flat_write hp _)).trans rfl)
  | paidOff hleft howed hid hfees hbase =>
    refine Or.inr ⟨ask.getOwner, ⟨wrap64 (left - e.coverFee left), e.baseId⟩, ?_⟩
    rw [payOut_eq (e := e.repaid _ _) hp]
    exact (congrArg Tables.balances (flat_write_write hp _ _)).trans rfl
  | kept hleft howed =>
    exact Or.inl ((congrArg Tables.balances (ChainInterface.flat_write hp _)).trans rfl)

theorem cancelCurrentShort_credits (hp : e.pendingState.IsPending) {quoteAssetId : ℤ}
    (h : e.cancelCurrentShort crypto bid mtrx quoteAssetId = .ok (e', mtrx')) :
    CreditsOne crypto e.pendingState e'.pendingState := by
  simp only [cancelCurrentShort, bind_eq_ok, require_eq_ok, pure_eq_ok, Prod.mk.injEq,
    payOut_eq hp] at h
  obtain ⟨-, -, rfl, -⟩ := h
  refine Or.inr ⟨mtrx.bidOwner, ⟨bid.getBalance.amount, 0⟩, ?_⟩
  have hp₁ : (e.pendingState.write crypto (.balance (credited crypto e.pendingState mtrx.bidOwner
      ⟨bid.getBalance.amount, 0⟩))).IsPending :=
    (ChainInterface.sameBelow_write ..).pending hp
  simp only [withState]
  rw [ChainInterface.storeShortRecord_eq crypto hp₁]
  exact (congrArg Tables.balances (flat_write_write hp _ _)).trans rfl

/-- A record that a market path changed is dated now. -/
theorem CreditsOne.depositDate (h : CreditsOne crypto c c') (hr : c.flat.balances[id]? = some r)
    (hr' : c'.flat.balances[id]? = some r') (hne : r' ≠ r) : r'.depositDate = c.now := by
  obtain hsame | ⟨owner, funds, hwrite⟩ := h
  · rw [hsame, hr, Option.some.injEq] at hr'
    exact absurd hr'.symm hne
  · change _ = c.flat.balances.insert _ _ at hwrite
    rw [hwrite, Table.getElem?_insert] at hr'
    split_ifs at hr' with hid
    · obtain rfl := Option.some.inj hr'
      rfl
    · rw [hr, Option.some.injEq] at hr'
      exact absurd hr'.symm hne

end MarketEngine

/-! ### Deposits -/

namespace EvaluationState

variable {crypto : Crypto} {s s' : EvaluationState} {amount : ℤ} {condition : WithdrawCondition}

/-- What a deposit stores. -/
theorem deposit_stores (h : s.deposit crypto amount condition = .ok s') : ∃ r date,
    r = (s.currentState.getBalanceRecord (crypto.conditionAddress condition)).getD { condition } ∧
    0 < amount ∧
    (r.balance ≠ 0 → averageDepositDate r s.currentState.now amount = .ok date) ∧
    s'.currentState = s.currentState.storeBalanceRecord crypto
      { r with
        balance := wrap64 (r.balance + amount)
        lastUpdate := s.currentState.now
        depositDate := date } := by
  simp only [deposit, ite_bind, bind_eq_ok, require_eq_ok, pure_eq_ok] at h
  obtain ⟨-, hpos, date, hdate, s₁, hsub, s₂, hvote, rfl⟩ := h
  refine ⟨_, date, rfl, hpos, fun hne => ?_, ?_⟩
  · rwa [if_neg hne] at hdate
  · change s₂.currentState.storeBalanceRecord crypto _ = _
    rw [(adjustVote_if_eq_ok hvote).currentState, (subBalance_eq_ok hsub).currentState]

/-- A negative value becomes a large unsigned one. -/
theorem lt_toUint128_of_neg {x : ℤ} (hx : IsInt64 x) (hneg : x < 0) :
    100000000000000000000000000000 < toUint128 x := by
  obtain ⟨hlo, -⟩ := hx
  unfold int64Min at hlo
  unfold toUint128
  omega

/-- The average of two dates, weighted by the amounts. -/
def averageDate (old : ℕ) (balance : ℤ) (now : ℕ) (amount : ℤ) : ℤ :=
  (old * balance + now * amount) / (balance + amount)

/-- The average is exact if the sum of the amounts is in range; a sum that wraps gives the date
zero. -/
theorem averageDepositDate_eq {r : BalanceRecord} {now date : ℕ} (hbalance : 0 < r.balance)
    (hamount : 0 < amount) (hin : IsInt64 r.balance) (hin' : IsInt64 amount)
    (hold : r.depositDate < 2 ^ 32) (hnow : now < 2 ^ 32)
    (h : averageDepositDate r now amount = .ok date) :
    (date : ℤ) = if r.balance + amount ≤ int64Max then
      averageDate r.depositDate r.balance now amount else 0 := by
  simp only [averageDepositDate, divUint128, bind_eq_ok, require_eq_ok, pure_eq_ok] at h
  obtain ⟨avg, ⟨-, hdivisor, rfl⟩, -, -, rfl⟩ := h
  have hmax : int64Max = 9223372036854775807 := rfl
  have hmin : int64Min = -9223372036854775808 := rfl
  obtain ⟨-, hle⟩ := hin
  obtain ⟨-, hle'⟩ := hin'
  generalize hb : r.balance = balance at *
  lift balance to ℕ using hbalance.le
  lift amount to ℕ using hamount.le
  rw [hmax] at hle hle'
  have hbytes : toUint128 balance = balance := by
    unfold toUint128
    omega
  have hbytes' : toUint128 amount = amount := by
    unfold toUint128
    omega
  -- dates of 32 bits and amounts of 63 leave room in 128
  have hweight : r.depositDate * balance ≤ 4294967296 * balance := Nat.mul_le_mul_right _ hold.le
  have hweight' : now * amount ≤ 4294967296 * amount := Nat.mul_le_mul_right _ hnow.le
  rw [hbytes, hbytes', Nat.mod_eq_of_lt (by omega : r.depositDate * balance < 2 ^ 128),
    Nat.mod_eq_of_lt (by omega : now * amount < 2 ^ 128),
    Nat.mod_eq_of_lt (by omega : r.depositDate * balance + now * amount < 2 ^ 128)]
  split_ifs with hsum
  · have hexact : toUint128 (wrap64 ((balance : ℤ) + amount)) = balance + amount := by
      rw [wrap64_eq_self ⟨by omega, hsum⟩]
      unfold toUint128
      omega
    rw [hexact, averageDate]
    push_cast
    rfl
  · have hnegative : wrap64 ((balance : ℤ) + amount) < 0 := by
      unfold wrap64
      omega
    have hlarge := lt_toUint128_of_neg (isInt64_wrap64 _) hnegative
    rw [Nat.div_eq_of_lt (by omega)]
    rfl

end EvaluationState

/-! ### The five paths -/

inductive CreditPath
  | deposit
  | filledBid
  | filledAsk
  | returnedCollateral
  | cancelledShort
  deriving DecidableEq, Repr

/-- A step of the code that credits a balance, by its path, from the state it finds to the one it
leaves. -/
inductive CreditStep (crypto : Crypto) : CreditPath → ChainInterface → ChainInterface → Prop
  | deposit {s s' : EvaluationState} {amount : ℤ} {condition : WithdrawCondition}
      (hin : IsInt64 amount) (h : s.deposit crypto amount condition = .ok s') :
      CreditStep crypto .deposit s.currentState s'.currentState
  | filledBid {e e' : MarketEngine} {bid : MarketOrder} {mtrx : MarketTransaction}
      (h : e.payCurrentBid crypto bid mtrx = .ok e') :
      CreditStep crypto .filledBid e.pendingState e'.pendingState
  | filledAsk {e e' : MarketEngine} {ask : MarketOrder} {mtrx : MarketTransaction}
      {feesToQuote : Bool} (h : e.payCurrentAsk crypto ask mtrx feesToQuote = .ok e') :
      CreditStep crypto .filledAsk e.pendingState e'.pendingState
  | returnedCollateral {e e' : MarketEngine} {ask : MarketOrder} {mtrx mtrx' : MarketTransaction}
      (h : e.payCurrentCover crypto ask mtrx = .ok (e', mtrx')) :
      CreditStep crypto .returnedCollateral e.pendingState e'.pendingState
  | cancelledShort {e e' : MarketEngine} {bid : MarketOrder} {mtrx mtrx' : MarketTransaction}
      {quoteAssetId : ℤ}
      (h : e.cancelCurrentShort crypto bid mtrx quoteAssetId = .ok (e', mtrx')) :
      CreditStep crypto .cancelledShort e.pendingState e'.pendingState

variable {crypto : Crypto} {path : CreditPath} {c c' : ChainInterface} {id : BalanceId}
  {r r' : BalanceRecord} {amount : ℤ}

/-- The market paths credit one balance, dated now. -/
theorem CreditStep.creditsOne (hp : c.IsPending) (h : CreditStep crypto path c c')
    (hmarket : path ≠ .deposit) : MarketEngine.CreditsOne crypto c c' := by
  cases h with
  | deposit => exact absurd rfl hmarket
  | filledBid h => exact MarketEngine.payCurrentBid_credits hp h
  | filledAsk h => exact MarketEngine.payCurrentAsk_credits hp h
  | returnedCollateral h => exact MarketEngine.payCurrentCover_credits hp h
  | cancelledShort h => exact MarketEngine.cancelCurrentShort_credits hp h

/-- Now is the average only for a balance that is not younger than its credit. -/
theorem averageDate_eq_now_iff {old now : ℕ} {balance : ℤ} (hbalance : 0 < balance)
    (hamount : 0 < amount) : (now : ℤ) = EvaluationState.averageDate old balance now amount ↔
      now ≤ old ∧ ((old : ℤ) - now) * balance < balance + amount := by
  have hsum : 0 < balance + amount := by omega
  have hsplit : (old : ℤ) * balance + now * amount =
      (old - now) * balance + now * (balance + amount) := by ring
  have hzero : ∀ x : ℤ, (now : ℤ) = x + now ↔ x = 0 := by
    intro x
    omega
  rw [EvaluationState.averageDate, hsplit, Int.add_mul_ediv_right _ _ hsum.ne', hzero]
  constructor
  · intro h
    have hle := Int.ediv_mul_le ((old - now : ℤ) * balance) hsum.ne'
    have hlt := Int.lt_ediv_add_one_mul_self ((old - now : ℤ) * balance) hsum
    rw [h] at hle hlt
    have hnonneg : (0 : ℤ) ≤ old - now := nonneg_of_mul_nonneg_left (by linarith) hbalance
    exact ⟨by omega, by linarith⟩
  · rintro ⟨hle, hlt⟩
    exact Int.ediv_eq_zero_of_lt (mul_nonneg (by omega) hbalance.le) hlt

/-- A deposit changes the record of its own balance, to the date it computed. -/
theorem EvaluationState.deposit_dates {s s' : EvaluationState} {deposited : ℤ}
    {condition : WithdrawCondition} (hp : s.currentState.IsPending)
    (hkeyed : s.currentState.flat.Keyed crypto)
    (h : s.deposit crypto deposited condition = .ok s')
    (hr : s.currentState.flat.balances[id]? = some r)
    (hr' : s'.currentState.flat.balances[id]? = some r') (hne : r' ≠ r) (hbalance : r.balance ≠ 0) :
    0 < deposited ∧ r'.balance = wrap64 (r.balance + deposited) ∧
      averageDepositDate r s.currentState.now deposited = .ok r'.depositDate := by
  obtain ⟨r₀, date, hr₀, hpos, hdate, hstate⟩ := deposit_stores h
  have hkey : crypto.conditionAddress r₀.condition = crypto.conditionAddress condition := by
    rw [hr₀, ChainInterface.getBalanceRecord_eq]
    cases hfound : s.currentState.flat.balances[crypto.conditionAddress condition]? with
    | none => rfl
    | some q => exact hkeyed.balances _ q hfound
  have hbalances : s'.currentState.flat.balances = s.currentState.flat.balances.insert
      (crypto.conditionAddress r₀.condition) { r₀ with
        balance := wrap64 (r₀.balance + deposited)
        lastUpdate := s.currentState.now
        depositDate := date } := by
    rw [hstate, ChainInterface.storeBalanceRecord_eq hp, ChainInterface.flat_write hp]
    rfl
  rw [hbalances, Table.getElem?_insert, hkey] at hr'
  split_ifs at hr' with hid
  · obtain rfl := Option.some.inj hr'
    have hsame : r₀ = r := by
      rw [hr₀, ChainInterface.getBalanceRecord_eq, ← hid, hr, Option.getD_some]
    rw [hsame] at hdate
    exact ⟨hpos, by rw [hsame], hdate hbalance⟩
  · rw [hr, Option.some.injEq] at hr'
    exact absurd hr'.symm hne

/-- The credits that keep the age of a balance: deposits, unless the sum of the amounts wraps, and on
the market paths credits to a balance that is no older than now. -/
def CreditPath.KeepsAge (path : CreditPath) (r : BalanceRecord) (now : ℕ) (amount : ℤ) : Prop :=
  match path with
  | .deposit => r.balance + amount ≤ int64Max ∨
      EvaluationState.averageDate r.depositDate r.balance now amount = 0
  | _ => now ≤ r.depositDate ∧ ((r.depositDate : ℤ) - now) * r.balance < r.balance + amount

theorem CreditPath.keepsAge_of_ne (h : path ≠ .deposit) {now : ℕ} : path.KeepsAge r now amount ↔
    now ≤ r.depositDate ∧ ((r.depositDate : ℤ) - now) * r.balance < r.balance + amount := by
  cases path with
  | deposit => exact absurd rfl h
  | filledBid => exact Iff.rfl
  | filledAsk => exact Iff.rfl
  | returnedCollateral => exact Iff.rfl
  | cancelledShort => exact Iff.rfl

/-- **Which credits age a balance by the average.** When a step of the code credits an existing balance,
its deposit date becomes the average of the old date and now, weighted by the amounts, if and only if
the step is a deposit whose sum is in range, or the balance has no age to lose. -/
theorem depositDate_average_iff (hp : c.IsPending) (hkeyed : c.flat.Keyed crypto)
    (hstep : CreditStep crypto path c c') (hr : c.getBalanceRecord id = some r)
    (hr' : c'.getBalanceRecord id = some r') (hbalance : 0 < r.balance) (hamount : 0 < amount)
    (hcredit : r'.balance = wrap64 (r.balance + amount)) (hin : IsInt64 r.balance)
    (hin' : IsInt64 amount) (hold : r.depositDate < 2 ^ 32) (hnow : c.now < 2 ^ 32) :
    (r'.depositDate : ℤ) =
        EvaluationState.averageDate r.depositDate r.balance c.now amount ↔
      path.KeepsAge r c.now amount := by
  rw [ChainInterface.getBalanceRecord_eq] at hr hr'
  have hrange := hin
  unfold IsInt64 int64Min int64Max at hin hin'
  have hne : r' ≠ r := by
    rintro rfl
    unfold wrap64 at hcredit
    omega
  by_cases hdeposit : path = .deposit
  · subst hdeposit
    cases hstep with
    | deposit hinDeposit h =>
      obtain ⟨hpos, hbalance', hdate⟩ :=
        EvaluationState.deposit_dates hp hkeyed h hr hr' hne hbalance.ne'
      rename_i deposited condition
      have hsame : deposited = amount := by
        unfold IsInt64 int64Min int64Max at hinDeposit
        rw [hbalance'] at hcredit
        unfold wrap64 at hcredit
        omega
      subst hsame
      rw [EvaluationState.averageDepositDate_eq hbalance hpos hrange hinDeposit hold hnow hdate,
        CreditPath.KeepsAge]
      split_ifs with hsum
      · exact iff_of_true rfl (Or.inl hsum)
      · rw [or_iff_right hsum, eq_comm]
  · rw [CreditPath.keepsAge_of_ne hdeposit,
      (hstep.creditsOne hp hdeposit).depositDate hr hr' hne]
    exact averageDate_eq_now_iff hbalance hamount

/-- A pending state with a balance of 100 shares that owner 7 has held since the beginning. -/
def agedState : ChainInterface :=
  (ChainInterface.blank 1000 1).write .transparent (.balance (.ofOwner 7 ⟨100, 0⟩ 0))

theorem agedState_pendingKeyed : agedState.PendingKeyed .transparent :=
  (ChainInterface.pendingKeyed_blank .transparent 1000 1).write _

/-- A deposit of as many shares halves the age. -/
theorem depositDate_average_half : ∃ s' r', EvaluationState.deposit .transparent
      { currentState := agedState, chainId := 0 } 100 (.ofSignature 7 0 0) = .ok s' ∧
    s'.currentState.getBalanceRecord (Crypto.transparent.conditionAddress (.ofSignature 7 0 0)) =
      some r' ∧ (r'.depositDate : ℤ) = EvaluationState.averageDate 0 100 1000 100 := by
  have hrun : (EvaluationState.deposit .transparent { currentState := agedState, chainId := 0 } 100
      (.ofSignature 7 0 0) >>= fun s' => require ((s'.currentState.getBalanceRecord
        (Crypto.transparent.conditionAddress (.ofSignature 7 0 0))).map BalanceRecord.balance =
          some 200) .outOfBounds).isOk = true := by decide +kernel
  obtain ⟨_, hrun⟩ := exists_eq_ok hrun
  simp only [bind_eq_ok, require_eq_ok, Option.map_eq_some_iff] at hrun
  obtain ⟨s', hdeposit, r', hr', hbalance⟩ := hrun
  have hiff := @depositDate_average_iff _ _ _ _ _ (.ofOwner 7 ⟨100, 0⟩ 0) _ 100
    agedState_pendingKeyed.1 agedState_pendingKeyed.2 (.deposit (by decide) hdeposit)
    (by decide +kernel) hr' (by decide) (by decide) (by rw [hbalance]; decide) (by decide) (by decide)
    (by decide) (by decide)
  exact ⟨s', r', hdeposit, hr', hiff.2 (Or.inl (by decide))⟩

/-- A filled bid of one share makes the balance as young as the share. -/
theorem depositDate_average_bid : ∃ e' r', MarketEngine.payCurrentBid .transparent
      { pendingState := agedState, quoteId := 1, baseId := 0, quoteAsset := { id := 1 },
        baseAsset := { id := 0 } }
      ⟨.bidOrder, ⟨⟨btsPricePrecision, 1, 0⟩, 7⟩, { balance := 10 }, 0, 0⟩
      { bidOwner := 7, askOwner := 8, bidPrice := ⟨btsPricePrecision, 1, 0⟩,
        askPrice := ⟨btsPricePrecision, 1, 0⟩, bidPaid := ⟨1, 1⟩, bidReceived := ⟨1, 0⟩ } = .ok e' ∧
    e'.pendingState.getBalanceRecord (Crypto.transparent.conditionAddress (.ofSignature 7 0 0)) =
      some r' ∧ r'.depositDate = 1000 ∧ EvaluationState.averageDate 0 100 1000 1 = 9 := by
  have hrun : (MarketEngine.payCurrentBid .transparent
      { pendingState := agedState, quoteId := 1, baseId := 0, quoteAsset := { id := 1 },
        baseAsset := { id := 0 } }
      ⟨.bidOrder, ⟨⟨btsPricePrecision, 1, 0⟩, 7⟩, { balance := 10 }, 0, 0⟩
      { bidOwner := 7, askOwner := 8, bidPrice := ⟨btsPricePrecision, 1, 0⟩,
        askPrice := ⟨btsPricePrecision, 1, 0⟩, bidPaid := ⟨1, 1⟩, bidReceived := ⟨1, 0⟩ } >>= fun e' =>
      require ((e'.pendingState.getBalanceRecord
        (Crypto.transparent.conditionAddress (.ofSignature 7 0 0))).map BalanceRecord.depositDate =
          some 1000) .outOfBounds).isOk = true := by decide +kernel
  obtain ⟨_, hrun⟩ := exists_eq_ok hrun
  simp only [bind_eq_ok, require_eq_ok, Option.map_eq_some_iff] at hrun
  obtain ⟨e', hpay, r', hr', hdate⟩ := hrun
  exact ⟨e', r', hpay, hr', hdate, by decide⟩

end LarkX
