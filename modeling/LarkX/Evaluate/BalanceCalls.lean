import LarkX.Evaluate.Orders
import LarkX.Evaluate.Running

/-!
# The calls of the operations

Which calls of `add_balance` and `sub_balance` an operation makes is a function of the operation
and of the records it reads (`Operation.calls`). The books after an evaluation are the books after
its calls, one by one (`evaluateOperations_books`), so what holds of the calls holds of the running
balance.

Two slips let go of the bound on the running balance: the least amount of an order passes the
check of its funds and is its own negation, and a burn takes negative amounts of a user-issued
asset. `running_balance_exact_iff` says that there is no third.
-/

namespace LarkX

open BalanceCall EvaluationState RunningBooks

/-! ### Calls of an operation -/

/-- The call that moves the funds of an order: what is withdrawn is the exact opposite. -/
def orderCalls (x : Asset) : List BalanceCall :=
  if x.amount < 0 then [.add ⟨-x.amount, x.assetId⟩] else [.sub x]

/-- The call that releases the collateral of a position, when a cover closes it. -/
def releaseCalls (crypto : Crypto) (c : ChainInterface) (amount : ℤ) (key : MarketIndexKey) :
    List BalanceCall :=
  match c.getCollateralRecord key with
  | none => []
  | some position =>
    match coverage crypto c.now amount key position with
    | .error _ => []
    | .ok (principal, _) =>
      if 0 < (covered position principal.amount).payoffBalance then []
      else [.add ⟨position.collateralBalance, key.orderPrice.baseAssetId⟩]

/-- The calls an operation makes in a state, in order. -/
def Operation.calls (crypto : Crypto) (c : ChainInterface) : Operation → List BalanceCall
  | .withdraw balanceId amount _ =>
    match c.getBalanceRecord balanceId with
    | none => []
    | some r => [.add ⟨amount, r.assetId⟩]
  | .deposit amount condition =>
    [.sub ⟨amount, ((c.getBalanceRecord (crypto.conditionAddress condition)).getD
      { condition }).assetId⟩]
  | .claim _ amount _ _ _ => [.add ⟨amount, 0⟩]
  | .burn amount _ _ _ => [.sub amount]
  | .withdrawPay amount _ => [.add ⟨amount, 0⟩]
  | .bid amount key => orderCalls ⟨amount, key.orderPrice.quoteAssetId⟩
  | .ask amount key | .short amount key _ => orderCalls ⟨amount, key.orderPrice.baseAssetId⟩
  | .cover amount key _ =>
    .sub ⟨amount, key.orderPrice.quoteAssetId⟩ :: releaseCalls crypto c amount key
  | .addCollateral amount key => [.sub ⟨amount, key.orderPrice.baseAssetId⟩]
  | _ => []

/-- An order is changed by the least 64-bit amount. -/
def Operation.IsLeastOrder : Operation → Prop
  | .bid amount _ | .ask amount _ | .short amount _ _ => amount = int64Min
  | _ => False

/-! ### Orders in range -/

/-- The balances of the orders are 64-bit values. -/
structure Tables.OrdersInRange (t : Tables) : Prop where
  bids : ∀ (key : MarketIndexKey) r, t.bids[key]? = some r → IsInt64 r.balance
  asks : ∀ (key : MarketIndexKey) r, t.asks[key]? = some r → IsInt64 r.balance
  shorts : ∀ (key : MarketIndexKey) r, t.shorts[key]? = some r → IsInt64 r.balance

/-- An order that is written has a 64-bit balance. -/
def Write.OrderInRange : Write → Prop
  | .bid _ r | .ask _ r | .short _ r => IsInt64 r.balance
  | _ => True

private theorem orderInRange_insert {t : Table MarketIndexKey OrderRecord}
    (ht : ∀ (key : MarketIndexKey) r, t[key]? = some r → IsInt64 r.balance) (key : MarketIndexKey)
    {rest : OrderRecord} (hrest : IsInt64 rest.balance) (k : MarketIndexKey) (r : OrderRecord)
    (hr : (t.insert key rest)[k]? = some r) : IsInt64 r.balance := by
  rw [Table.getElem?_insert] at hr
  split at hr
  · cases hr
    exact hrest
  · exact ht k r hr

theorem Tables.OrdersInRange.write {crypto : Crypto} {t : Tables} {w : Write}
    (ht : t.OrdersInRange) (hw : w.OrderInRange) : (t.write crypto w).OrdersInRange := by
  cases w with
  | bid key r => exact ⟨orderInRange_insert ht.bids key hw, ht.asks, ht.shorts⟩
  | ask key r => exact ⟨ht.bids, orderInRange_insert ht.asks key hw, ht.shorts⟩
  | short key r => exact ⟨ht.bids, ht.asks, orderInRange_insert ht.shorts key hw⟩
  | _ => exact ⟨ht.bids, ht.asks, ht.shorts⟩

namespace EvaluationState

variable {crypto : Crypto} {s s₁ s' : EvaluationState}

/-- The calls the operations make, each in the state it is evaluated in. -/
def callsOf (crypto : Crypto) (s : EvaluationState) : List Operation → List BalanceCall
  | [] => []
  | op :: ops => op.calls crypto s.currentState ++
    match s.evaluateOperation crypto op with
    | .ok s₁ => callsOf crypto s₁ ops
    | .error _ => []

/-- The books of an evaluation. -/
def books (s : EvaluationState) : RunningBooks :=
  ⟨s.withdraws, s.deposits, s.balance⟩

/-! ### The books after the calls -/

@[simp]
theorem books_withState (s : EvaluationState) (c : ChainInterface) :
    (s.withState c).books = s.books :=
  rfl

theorem SameBooks.books_eq (h : SameBooks s s') : s'.books = s.books := by
  unfold books
  rw [h.withdraws, h.deposits, h.balance]

/-- Calls in two parts. -/
theorem foldlM_append_eq_ok {b b' : RunningBooks} {l l' : List BalanceCall} :
    (l ++ l').foldlM book b = .ok b' ↔
      ∃ b₁, l.foldlM book b = .ok b₁ ∧ l'.foldlM book b₁ = .ok b' := by
  rw [List.foldlM_append, bind_eq_ok]

/-- `add_balance` of the 64-bit value of an amount. -/
theorem addBalance_books {y id : ℤ} (h : s.addBalance ⟨wrap64 y, id⟩ = .ok s') :
    [BalanceCall.add ⟨y, id⟩].foldlM book s.books = .ok s'.books := by
  simp only [addBalance, bind_eq_ok, pure_eq_ok] at h
  obtain ⟨withdraws, hadd, rfl⟩ := h
  simp only [List.foldlM_cons, List.foldlM_nil, book, bind_eq_ok, pure_eq_ok]
  exact ⟨_, ⟨withdraws, hadd, rfl⟩, rfl⟩

/-- `sub_balance` of the 64-bit value of an amount. -/
theorem subBalance_books {balanceId : BalanceId} {y id : ℤ}
    (h : s.subBalance balanceId ⟨wrap64 y, id⟩ = .ok s') :
    [BalanceCall.sub ⟨y, id⟩].foldlM book s.books = .ok s'.books := by
  simp only [subBalance, ite_bind, bind_eq_ok, pure_eq_ok] at h
  obtain ⟨provided, -, deposits, hadd, rfl⟩ := h
  simp only [List.foldlM_cons, List.foldlM_nil, book, bind_eq_ok, pure_eq_ok]
  exact ⟨_, ⟨deposits, hadd, rfl⟩, rfl⟩

theorem addBalance_books_of_fits {x : Asset} (hx : IsInt64 x.amount)
    (h : s.addBalance x = .ok s') : [BalanceCall.add x].foldlM book s.books = .ok s'.books := by
  have hpassed : s.addBalance ⟨wrap64 x.amount, x.assetId⟩ = .ok s' := by
    rwa [wrap64_eq_self hx]
  exact addBalance_books hpassed

theorem subBalance_books_of_fits {balanceId : BalanceId} {x : Asset} (hx : IsInt64 x.amount)
    (h : s.subBalance balanceId x = .ok s') :
    [BalanceCall.sub x].foldlM book s.books = .ok s'.books := by
  have hpassed : s.subBalance balanceId ⟨wrap64 x.amount, x.assetId⟩ = .ok s' := by
    rwa [wrap64_eq_self hx]
  exact subBalance_books hpassed

theorem moveOrderFunds_books {current : Option OrderRecord} {x : Asset} (hx : IsInt64 x.amount)
    (h : s.moveOrderFunds current x = .ok s') :
    (orderCalls x).foldlM book s.books = .ok s'.books := by
  simp only [moveOrderFunds, bind_eq_ok, require_eq_ok] at h
  obtain ⟨-, -, h⟩ := h
  unfold orderCalls
  split
  · rename_i hneg
    rw [if_pos hneg] at h
    simp only [bind_eq_ok] at h
    obtain ⟨-, -, -, -, h⟩ := h
    exact addBalance_books h
  · rename_i hnot
    rw [if_neg hnot] at h
    exact subBalance_books_of_fits hx h

theorem payYield_same {r r' : BalanceRecord} (h : s.payYield r = .ok (s', r')) :
    SameBooks s s' ∧ r'.condition = r.condition := by
  rcases payYield_eq_ok h with ⟨rfl, rfl⟩ | ⟨_, _, -, -, -, -, rfl, hcondition, -, -⟩
  · exact ⟨SameBooks.refl _, rfl⟩
  · exact ⟨sameBooks_withState _ _, hcondition⟩

theorem withdraw_books {balanceId : BalanceId} {amount : ℤ} {data : ClaimInputData}
    (hamount : IsInt64 amount) (h : s.withdraw crypto balanceId amount data = .ok s') :
    ((Operation.withdraw balanceId amount data).calls crypto s.currentState).foldlM book s.books =
      .ok s'.books := by
  simp only [withdraw, ite_bind, bind_eq_ok, require_eq_ok, orThrow_eq_ok] at h
  obtain ⟨-, -, r, hr, -, -, -, -, s₁, hvote, ⟨s₂, r₁⟩, hyield, h⟩ := h
  obtain ⟨hpaid, hcondition⟩ := payYield_same hyield
  have hsame := (adjustVote_if_eq_ok hvote).books.trans hpaid
  have hid : r₁.condition.assetId = r.assetId := congrArg WithdrawCondition.assetId hcondition
  have hcalls : (Operation.withdraw balanceId amount data).calls crypto s.currentState =
      [.add ⟨amount, r₁.condition.assetId⟩] := by
    simp only [Operation.calls, hr, hid]
  have hcall := addBalance_books_of_fits hamount h
  rwa [books_withState, hsame.books_eq, ← hcalls] at hcall

theorem deposit_books {amount : ℤ} {condition : WithdrawCondition} (hamount : IsInt64 amount)
    (h : s.deposit crypto amount condition = .ok s') :
    ((Operation.deposit amount condition).calls crypto s.currentState).foldlM book s.books =
      .ok s'.books := by
  simp only [deposit, ite_bind, bind_eq_ok, require_eq_ok, pure_eq_ok] at h
  obtain ⟨-, -, date, -, s₁, hsub, s₂, hvote, rfl⟩ := h
  have hsame := (adjustVote_if_eq_ok hvote).books
  rw [books_withState, hsame.books_eq]
  exact subBalance_books_of_fits hamount hsub

theorem claim_books {id : BalanceId} {amount : ℤ} {source : PtsAddress} {dest : PublicKey}
    {sig : Signature} (hamount : IsInt64 amount)
    (h : s.claim crypto id amount source dest sig = .ok s') :
    ((Operation.claim id amount source dest sig).calls crypto s.currentState).foldlM book
      s.books = .ok s'.books := by
  simp only [claim, validateClaimSignature, checkClaimInput, withdrawClaimInput, ite_bind,
    bind_eq_ok, require_eq_ok, orThrow_eq_ok, pure_eq_ok] at h
  obtain ⟨-, -, r, -, s₁, ⟨-, -, s₂, hvote, h⟩, -, -, rfl⟩ := h
  have hcall := addBalance_books_of_fits hamount h
  rwa [books_withState, (adjustVote_if_eq_ok hvote).books.books_eq] at hcall

theorem burn_books {amount : Asset} {accountId : ℤ} {message : List Char} {sig : Option Signature}
    (hamount : IsInt64 amount.amount) (h : s.burn amount accountId message = .ok s') :
    ((Operation.burn amount accountId message sig).calls crypto s.currentState).foldlM book
      s.books = .ok s'.books := by
  simp only [burn, bind_eq_ok, require_eq_ok, orThrow_eq_ok, pure_eq_ok] at h
  obtain ⟨-, -, -, -, asset, -, -, -, s₁, hsub, -, -, rfl⟩ := h
  have hcall := subBalance_books_of_fits hamount hsub
  rwa [books_withState] at hcall

theorem withdrawPay_books {amount accountId : ℤ} (hamount : IsInt64 amount)
    (h : s.withdrawPay crypto amount accountId = .ok s') :
    ((Operation.withdrawPay amount accountId).calls crypto s.currentState).foldlM book s.books =
      .ok s'.books := by
  simp only [withdrawPay, bind_eq_ok, require_eq_ok, orThrow_eq_ok] at h
  obtain ⟨-, -, r, -, -, -, info, -, -, -, -, -, h⟩ := h
  have hcall := addBalance_books_of_fits hamount h
  rwa [books_withState, (addNetVotes_same _ _ _).books.books_eq] at hcall

theorem cover_books {amount : ℤ} {key : MarketIndexKey} {newCoverPrice : Option Price}
    (hrange : InRange s.currentState) (hamount : IsInt64 amount)
    (h : s.cover crypto amount key newCoverPrice = .ok s') :
    ((Operation.cover amount key newCoverPrice).calls crypto s.currentState).foldlM book s.books =
      .ok s'.books := by
  simp only [cover, bind_eq_ok, require_eq_ok, orThrow_eq_ok] at h
  obtain ⟨-, -, -, -, -, -, -, -, s₁, hsub, position, hposition, asset, -, owed, howed, debt, hdebt,
    ⟨principal, interest⟩, hsplit, -, -, -, -, -, -, -, -, h⟩ := h
  have hstate := (subBalance_eq_ok hsub).currentState
  rw [hstate] at hposition howed hsplit
  have hcoverage : coverage crypto s.currentState.now amount key position =
      .ok (principal, interest) := by
    simp only [coverage, bind_eq_ok]
    exact ⟨owed, howed, debt, hdebt, hsplit⟩
  dsimp only at h
  rw [payoff_covered rfl hsplit] at h
  have hfirst := subBalance_books_of_fits hamount hsub
  -- the release of the collateral is the second call, if the debt is paid
  have hrest : (releaseCalls crypto s.currentState amount key).foldlM book s₁.books =
      .ok s'.books := by
    simp only [releaseCalls, hposition, hcoverage]
    rw [ite_eq_ok] at h
    rcases h with ⟨hpos, h⟩ | ⟨hnot, h⟩
    · simp only [bind_eq_ok, pure_eq_ok] at h
      obtain ⟨-, -, rfl⟩ := h
      rw [if_pos hpos]
      rfl
    · rw [if_neg hnot]
      have hcollateral : IsInt64 position.collateralBalance := by
        rw [ChainInterface.getCollateralRecord_eq] at hposition
        exact (hrange key position hposition).2
      have hcall := addBalance_books_of_fits hcollateral h
      rwa [books_withState, books_withState] at hcall
  exact foldlM_append_eq_ok.2 ⟨s₁.books, hfirst, hrest⟩

theorem addCollateral_books {amount : ℤ} {key : MarketIndexKey} (hamount : IsInt64 amount)
    (h : s.addCollateral amount key = .ok s') :
    ((Operation.addCollateral amount key).calls crypto s.currentState).foldlM book s.books =
      .ok s'.books := by
  simp only [addCollateral, bind_eq_ok, require_eq_ok, orThrow_eq_ok, pure_eq_ok] at h
  obtain ⟨-, -, -, -, -, -, s₁, hsub, position, -, price, -, rfl⟩ := h
  rw [books_withState, books_withState]
  exact subBalance_books_of_fits hamount hsub

/-- **Step.** The books after an operation are the books after its calls. -/
theorem evaluateOperation_books {op : Operation} (hrange : InRange s.currentState)
    (hamount : IsInt64 op.namedAmount) (h : s.evaluateOperation crypto op = .ok s') :
    (op.calls crypto s.currentState).foldlM book s.books = .ok s'.books := by
  have hsame (hbooks : SameBooks s s') :
      ([] : List BalanceCall).foldlM book s.books = .ok s'.books :=
    congrArg Except.ok hbooks.books_eq.symm
  cases op with
  | withdraw => exact withdraw_books hamount h
  | deposit => exact deposit_books hamount h
  | claim => exact claim_books hamount h
  | burn => exact burn_books hamount h
  | registerAccount =>
    obtain ⟨_, _, -, -, -, -, -, -, -, hbooks, -⟩ := registerAccount_eq_ok h
    exact hsame hbooks
  | updateAccount =>
    obtain ⟨_, _, -, -, hbooks, -⟩ := updateAccount_eq_ok h
    exact hsame hbooks
  | withdrawPay => exact withdrawPay_books hamount h
  | defineDelegateSlate =>
    rcases defineDelegateSlate_eq_ok h with rfl | ⟨-, rfl⟩
    · exact hsame (SameBooks.refl _)
    · exact hsame (sameBooks_withState _ _)
  | bid =>
    obtain ⟨s₁, r, hmove, -, rfl⟩ := bid_eq_ok h
    rw [books_withState]
    exact moveOrderFunds_books hamount hmove
  | ask =>
    obtain ⟨s₁, r, hmove, -, -, rfl⟩ := ask_eq_ok h
    rw [books_withState]
    exact moveOrderFunds_books hamount hmove
  | short =>
    obtain ⟨s₁, r, hmove, -, -, -, -, rfl⟩ := short_eq_ok h
    rw [books_withState]
    exact moveOrderFunds_books hamount hmove
  | cover => exact cover_books hrange hamount h
  | addCollateral => exact addCollateral_books hamount h
  | updateFeed =>
    obtain ⟨_, _, -, -, -, rfl⟩ := updateFeed_eq_ok h
    exact hsame (sameBooks_withState _ _)
  | withdrawAll | removeCollateral | linkAccount | releaseEscrow | unknown => cases h

/-! ### Records in range -/

/-- The amounts of the records that the operations move funds from are 64-bit values. -/
structure RecordsInRange (c : ChainInterface) : Prop where
  pending : c.IsPending
  positions : InRange c
  orders : c.flat.OrdersInRange

/-- An operation writes orders with 64-bit balances. -/
theorem evaluateOperation_ordersInRange {op : Operation} (hp : s.currentState.IsPending)
    (h : s.evaluateOperation crypto op = .ok s') :
    ChainInterface.Writes crypto (fun _ w => w.OrderInRange) s.currentState s'.currentState := by
  have hkinds := evaluateOperation_kinds hp h
  cases op with
  | bid =>
    obtain ⟨s₁, r, hmove, hbalance, rfl⟩ := bid_eq_ok h
    change ChainInterface.Writes crypto _ _ (s₁.currentState.storeBidRecord _ r)
    rw [moveOrderFunds_currentState hmove, ChainInterface.storeBidRecord_eq crypto hp]
    have hfits : IsInt64 r.balance := hbalance ▸ isInt64_wrap64 _
    exact .single hfits
  | ask =>
    obtain ⟨s₁, r, hmove, hbalance, -, rfl⟩ := ask_eq_ok h
    change ChainInterface.Writes crypto _ _ (s₁.currentState.storeAskRecord _ r)
    rw [moveOrderFunds_currentState hmove, ChainInterface.storeAskRecord_eq crypto hp]
    have hfits : IsInt64 r.balance := hbalance ▸ isInt64_wrap64 _
    exact .single hfits
  | short =>
    obtain ⟨s₁, r, hmove, -, -, hbalance, -, rfl⟩ := short_eq_ok h
    change ChainInterface.Writes crypto _ _ (s₁.currentState.storeShortRecord _ r)
    rw [moveOrderFunds_currentState hmove, ChainInterface.storeShortRecord_eq crypto hp]
    have hfits : IsInt64 r.balance := hbalance ▸ isInt64_wrap64 _
    exact .single hfits
  | _ =>
    refine hkinds.mono fun _ w _ hw => ?_
    cases w with
    | bid | ask | short => exact hw.elim
    | _ => trivial

/-- **Step.** The amounts of the records stay 64-bit values. -/
theorem RecordsInRange.step {op : Operation} (hs : RecordsInRange s.currentState)
    (h : s.evaluateOperation crypto op = .ok s') : RecordsInRange s'.currentState := by
  have hwrites := evaluateOperation_ordersInRange hs.pending h
  refine ⟨hwrites.isPending hs.pending, hs.positions.step hs.pending h, ?_⟩
  refine hwrites.invariant (I := fun c => c.flat.OrdersInRange) (fun c w hc hI hw => ?_) hs.pending
    hs.orders
  rw [ChainInterface.flat_write hc]
  exact hI.write hw

/-- **Run.** -/
theorem RecordsInRange.run {ops : List Operation} (hs : RecordsInRange s.currentState)
    (h : s.evaluateOperations crypto ops = .ok s') : RecordsInRange s'.currentState :=
  foldlM_induction (P := fun s : EvaluationState => RecordsInRange s.currentState)
    (fun _ _ _ _ hs₁ hop => hs₁.step hop) hs h

/-- The amounts of the calls are 64-bit values, unless an order is changed by the least amount. -/
theorem calls_inRange {op : Operation} (hs : RecordsInRange s.currentState)
    (hamount : IsInt64 op.namedAmount) (hleast : ¬op.IsLeastOrder) (call : BalanceCall)
    (hmem : call ∈ op.calls crypto s.currentState) : IsInt64 call.asset.amount := by
  have horder {x : Asset} (hcall : call ∈ orderCalls x) (hx : IsInt64 x.amount)
      (hne : x.amount ≠ int64Min) : IsInt64 call.asset.amount := by
    unfold orderCalls at hcall
    split at hcall
    · rw [List.mem_singleton] at hcall
      subst hcall
      change IsInt64 (-x.amount)
      unfold IsInt64 int64Min int64Max at hx ⊢
      unfold int64Min at hne
      constructor <;> omega
    · rw [List.mem_singleton] at hcall
      exact hcall ▸ hx
  cases op with
  | withdraw =>
    simp only [Operation.calls] at hmem
    split at hmem
    · cases hmem
    · rw [List.mem_singleton] at hmem
      exact hmem ▸ hamount
  | deposit | claim | burn | withdrawPay | addCollateral =>
    exact List.mem_singleton.1 hmem ▸ hamount
  | bid | ask | short => exact horder hmem hamount hleast
  | cover amount key =>
    rcases List.mem_cons.1 hmem with rfl | hmem
    · exact hamount
    · unfold releaseCalls at hmem
      split at hmem
      · cases hmem
      · rename_i position hposition
        rw [ChainInterface.getCollateralRecord_eq] at hposition
        split at hmem
        · cases hmem
        · split at hmem
          · cases hmem
          · exact List.mem_singleton.1 hmem ▸ (hs.positions key position hposition).2
  | _ => cases hmem

end EvaluationState

end LarkX
