import LarkX.Wallet.Fee

/-!
# Finalizing a transaction

What is left of every outstanding balance after the fee is levelled by one deposit or by
withdrawals, with operations of the account's own (`Levels`). So the books balance exactly if the
fee is held back as it should be (`booksBalance_iff`).

All deposits carry one slate id. It is zero when the chain knows the slate already, and such a
deposit votes for nobody (`keepsVotes_iff`).
-/

namespace LarkX

open TransactionBuilder

/-- What an operation gives to the account it is for, less what it takes from it. -/
def Operation.netDeposit : Operation → ℤ
  | .deposit amount _ => amount
  | .withdraw _ amount _ => -amount
  | _ => 0

/-- The key in the builder, or else the one that is made, is the order key of the account. -/
def IsOrderKey (w : BuilderWallet) (orderKeys : Table Address PublicKey) (key : BalanceKey)
    (orderKey : PublicKey) : Prop :=
  (orderKeys[key.account]?).getD 0 = orderKey ∧ orderKey ≠ 0 ∨
    (orderKeys[key.account]?).getD 0 = 0 ∧ w.newPrivateKey key = .ok orderKey

/-- A withdrawal from a balance of the account, in the asset. -/
def WithdrawsFrom (w : BuilderWallet) (name : Name) (assetId : ℤ) (op : Operation) : Prop :=
  ∃ balanceRecords records record amount,
    w.getAccountBalanceRecords name true = .ok balanceRecords ∧
    balanceRecords[name]? = some records ∧ record ∈ records ∧ record.assetId = assetId ∧
    op = .withdraw (w.crypto.conditionAddress record.condition) amount .empty

/-- An operation of an account in an asset: a deposit to its order key, or a withdrawal from one of
its balances. -/
def IsOwn (w : BuilderWallet) (slateId : SlateId) (orderKeys : Table Address PublicKey)
    (key : BalanceKey) (op : Operation) : Prop :=
  (∃ orderKey amount, IsOrderKey w orderKeys key orderKey ∧
    op = .deposit amount (.ofSignature (w.crypto.keyAddress orderKey) key.assetId slateId)) ∨
  ∃ name, w.lookupAccount key.account = .ok (some name) ∧ WithdrawsFrom w name key.assetId op

/-- Operations of an account in an asset that come to an amount. There is a deposit among them for a
positive one. -/
structure Levels (w : BuilderWallet) (slateId : SlateId) (orderKeys : Table Address PublicKey)
    (entry : BalanceKey × Share) (ops : List Operation) : Prop where
  net : (ops.map Operation.netDeposit).sum = entry.2.1
  deposits : (∃ amount condition, .deposit amount condition ∈ ops) ↔ 0 < entry.2.1
  own : ∀ op ∈ ops, IsOwn w slateId orderKeys entry.1 op

/-- What levelling a balance leaves as it is. -/
structure Untouched (b b' : TransactionBuilder) : Prop where
  fee : b'.fee = b.fee
  outstandingBalances : b'.outstandingBalances = b.outstandingBalances
  orderKeys : ∀ account : Address, (b'.orderKeys[account]?).getD 0 = (b.orderKeys[account]?).getD 0

namespace Untouched

variable {b b₁ b₂ : TransactionBuilder}

theorem refl (b : TransactionBuilder) : Untouched b b :=
  ⟨rfl, rfl, fun _ => rfl⟩

theorem trans (h : Untouched b b₁) (h' : Untouched b₁ b₂) : Untouched b b₂ :=
  ⟨h'.fee.trans h.fee, h'.outstandingBalances.trans h.outstandingBalances,
    fun account => (h'.orderKeys account).trans (h.orderKeys account)⟩

theorem levels {w : BuilderWallet} {slateId : SlateId} {entry : BalanceKey × Share}
    {ops : List Operation} (h : Untouched b b₁) (hlevels : Levels w slateId b₁.orderKeys entry ops) :
    Levels w slateId b.orderKeys entry ops where
  net := hlevels.net
  deposits := hlevels.deposits
  own op hop := (hlevels.own op hop).imp_left fun ⟨orderKey, amount, hkey, hop⟩ =>
    ⟨orderKey, amount, by rwa [IsOrderKey, ← h.orderKeys], hop⟩

end Untouched

/-! ### Levelling one balance -/

variable {w : BuilderWallet} {b : TransactionBuilder}

theorem withdraw_spec (record : BalanceRecord) (amount : ℤ) :
    Outcome (withdraw w record amount) b
      (fun _ b' => 0 < amount ∧ Untouched b b' ∧ b'.operations = b.operations ++
        [.withdraw (w.crypto.conditionAddress record.condition) amount .empty])
      fun _ _ => True := by
  unfold withdraw
  rw [Outcome.bind_iff, Outcome.ofExcept_iff]
  refine ⟨fun _ hpos => ?_, fun _ _ => trivial⟩
  rw [Outcome.bind_iff, Outcome.modify_iff, Outcome.bind_iff, Outcome.ofExcept_iff]
  refine ⟨fun owner _ => ⟨require_eq_ok.1 hpos, ⟨rfl, rfl, fun _ => rfl⟩, rfl⟩,
    fun _ _ => trivial⟩

/-- The withdrawals come to the amount that is asked for. -/
theorem withdrawFrom_spec (records : List BalanceRecord) (amountRemaining : Asset) :
    Outcome (withdrawFrom w amountRemaining records) b
      (fun _ b' => 0 < amountRemaining.amount ∧ Untouched b b' ∧
        ∃ ops, b'.operations = b.operations ++ ops ∧
        (ops.map Operation.netDeposit).sum = -amountRemaining.amount ∧
        ∀ op ∈ ops, ∃ record ∈ records, ∃ amount, record.assetId = amountRemaining.assetId ∧
          op = .withdraw (w.crypto.conditionAddress record.condition) amount .empty)
      fun _ _ => True := by
  induction records generalizing amountRemaining b with
  | nil => exact trivial
  | cons record rest ih =>
    unfold withdrawFrom
    by_cases hskip : record.balance ≤ 0 ∨ record.assetId ≠ amountRemaining.assetId
    · rw [if_pos hskip]
      refine (ih amountRemaining).mono (fun _ b' h => ?_) fun _ _ _ => trivial
      obtain ⟨hpos, huntouched, ops, hops, hsum, hall⟩ := h
      refine ⟨hpos, huntouched, ops, hops, hsum, fun op hop => ?_⟩
      obtain ⟨record', hrecord', hrest⟩ := hall op hop
      exact ⟨record', List.mem_cons_of_mem _ hrecord', hrest⟩
    · have hasset : record.assetId = amountRemaining.assetId := by
        by_contra hne
        exact hskip (Or.inr hne)
      rw [if_neg hskip]
      split
      · rename_i hlt
        set op : Operation :=
          .withdraw (w.crypto.conditionAddress record.condition) record.balance .empty
        rw [Outcome.bind_iff]
        refine (withdraw_spec record record.balance).mono (fun _ b₁ h₁ => ?_) fun _ _ _ => trivial
        rw [Outcome.bind_iff, Outcome.ofExcept_iff]
        refine ⟨fun left hleft => ?_, fun _ _ => trivial⟩
        obtain ⟨-, hid, hamount, -⟩ := Asset.sub_eq_ok hleft
        refine (ih left).mono (fun _ b' h => ?_) fun _ _ _ => trivial
        obtain ⟨-, huntouched, ops, hops, hsum, hall⟩ := h
        refine ⟨h₁.1.trans hlt, h₁.2.1.trans huntouched, op :: ops, ?_, ?_, ?_⟩
        · rw [hops, h₁.2.2, List.append_assoc]
          rfl
        · rw [List.map_cons, List.sum_cons, hsum, hamount]
          change -record.balance + -(amountRemaining.amount - record.balance) = _
          ring
        · intro op' hop
          rcases List.mem_cons.1 hop with rfl | hop
          · exact ⟨record, List.mem_cons_self, _, hasset, rfl⟩
          · obtain ⟨record', hrecord', amount, hasset', hop⟩ := hall op' hop
            exact ⟨record', List.mem_cons_of_mem _ hrecord', amount, hasset'.trans hid, hop⟩
      · refine (withdraw_spec record amountRemaining.amount).mono (fun _ b' h => ?_)
          fun _ _ _ => trivial
        refine ⟨h.1, h.2.1, _, h.2.2, ?_, fun op hop => ?_⟩
        · exact add_zero _
        · exact ⟨record, List.mem_cons_self, _, hasset, List.mem_singleton.1 hop⟩

/-- The order key of an account does not change the builder's order keys. -/
theorem orderKeyForAccount_spec (key : BalanceKey) :
    Outcome (orderKeyForAccount w key) b
      (fun orderKey b' => Untouched b b' ∧ b'.operations = b.operations ∧
        IsOrderKey w b.orderKeys key orderKey)
      fun _ _ => True := by
  unfold orderKeyForAccount
  rw [Outcome.bind_iff, Outcome.get_iff]
  dsimp only
  rw [Outcome.bind_iff, Outcome.set_iff]
  set orderKey := (b.orderKeys[key.account]?).getD 0 with horder
  have huntouched : Untouched b { b with orderKeys := b.orderKeys.insert key.account orderKey } := by
    refine ⟨rfl, rfl, fun account => ?_⟩
    by_cases hsame : account = key.account
    · rw [hsame, Table.getElem?_insert_same, Option.getD_some, horder]
    · rw [Table.getElem?_insert_of_ne _ _ hsame]
  split
  · rename_i hnew
    rw [Outcome.ofExcept_iff]
    exact ⟨fun orderKey hkey => ⟨huntouched, rfl, Or.inr ⟨hnew, hkey⟩⟩, fun _ _ => trivial⟩
  · rename_i hold
    exact ⟨huntouched, rfl, Or.inl ⟨rfl, hold⟩⟩

/-- **Levelling** an outstanding balance takes operations of the account's own that come to it. -/
theorem level_spec (slateId : SlateId) (entry : BalanceKey × Share) :
    Outcome (level w slateId entry) b
      (fun _ b' => Untouched b b' ∧ ∃ ops, b'.operations = b.operations ++ ops ∧
        Levels w slateId b.orderKeys entry ops)
      fun _ _ => True := by
  obtain ⟨key, amount⟩ := entry
  unfold level
  dsimp only
  split
  · rename_i hzero
    refine ⟨.refl b, [], (List.append_nil _).symm, hzero.symm, ⟨?_, fun hpos => ?_⟩, fun _ hop => ?_⟩
    · exact fun ⟨_, _, hop⟩ => (List.not_mem_nil hop).elim
    · exact absurd hzero hpos.ne'
    · exact (List.not_mem_nil hop).elim
  · rename_i hne
    split
    · rename_i hpos
      rw [Outcome.bind_iff]
      refine (orderKeyForAccount_spec key).mono (fun orderKey b₁ h₁ => ?_) fun _ _ _ => trivial
      obtain ⟨huntouched, hops, hkey⟩ := h₁
      unfold deposit
      rw [Outcome.bind_iff, Outcome.ofExcept_iff]
      refine ⟨fun _ _ => ?_, fun _ _ => trivial⟩
      refine ⟨huntouched.trans ⟨rfl, rfl, fun _ => rfl⟩, _, congrArg (· ++ _) hops,
        add_zero _, iff_of_true ⟨_, _, List.mem_singleton_self _⟩ hpos, fun op hop => ?_⟩
      exact Or.inl ⟨orderKey, amount.1, hkey, List.mem_singleton.1 hop⟩
    · rename_i hnonpos
      rw [Outcome.bind_iff, Outcome.ofExcept_iff]
      refine ⟨fun account haccount => ?_, fun _ _ => trivial⟩
      rw [Outcome.bind_iff, Outcome.ofExcept_iff]
      refine ⟨fun name hname => ?_, fun _ _ => trivial⟩
      rw [orThrow_eq_ok] at hname
      subst hname
      unfold withdrawToTransaction
      rw [Outcome.bind_iff, Outcome.ofExcept_iff]
      refine ⟨fun _ _ => ?_, fun _ _ => trivial⟩
      rw [Outcome.bind_iff, Outcome.ofExcept_iff]
      refine ⟨fun balanceRecords hrecords => ?_, fun _ _ => trivial⟩
      rw [Outcome.bind_iff, Outcome.ofExcept_iff]
      refine ⟨fun records hname => ?_, fun _ _ => trivial⟩
      rw [orThrow_eq_ok] at hname
      refine (withdrawFrom_spec records _).mono (fun _ b' h => ?_) fun _ _ _ => trivial
      obtain ⟨hpos, huntouched, ops, hops, hsum, hall⟩ := h
      have hexact : wrap64 (-amount.1) = -amount.1 := by
        have hint := amount.2
        unfold Asset.neg wrap64 at hpos
        unfold IsInt64 int64Min int64Max at hint
        unfold wrap64
        dsimp only at hpos hne hnonpos
        omega
      refine ⟨huntouched, ops, hops, ?_, iff_of_false ?_ hnonpos,
        fun op hop => Or.inr ⟨name, haccount, ?_⟩⟩
      · rw [hsum]
        change -wrap64 (-amount.1) = amount.1
        rw [hexact, neg_neg]
      · rintro ⟨_, _, hop⟩
        obtain ⟨_, _, _, -, hwithdraw⟩ := hall _ hop
        cases hwithdraw
      · obtain ⟨record, hrecord, amount', hasset, hop⟩ := hall op hop
        exact ⟨balanceRecords, records, record, amount', hrecords, hname, hrecord, hasset, hop⟩

/-! ### Finalizing -/

theorem levelAll_spec (slateId : SlateId) (entries : List (BalanceKey × Share)) :
    Outcome (entries.forM (level w slateId)) b
      (fun _ b' => Untouched b b' ∧ ∃ opss, b'.operations = b.operations ++ opss.flatten ∧
        List.Forall₂ (Levels w slateId b.orderKeys) entries opss)
      fun _ _ => True := by
  induction entries generalizing b with
  | nil => exact ⟨.refl b, [], (List.append_nil _).symm, .nil⟩
  | cons entry entries ih =>
    change Outcome (level w slateId entry >>= fun _ => entries.forM (level w slateId)) b _ _
    rw [Outcome.bind_iff]
    refine (level_spec slateId entry).mono (fun _ b₁ h₁ => ?_) fun _ _ _ => trivial
    obtain ⟨huntouched, ops, hops, hlevels⟩ := h₁
    refine ih.mono (fun _ b' h => ?_) fun _ _ _ => trivial
    obtain ⟨huntouched', opss, hopss, hall⟩ := h
    refine ⟨huntouched.trans huntouched', ops :: opss, ?_, .cons hlevels ?_⟩
    · rw [hopss, hops, List.append_assoc, List.flatten_cons]
    · exact hall.imp fun _ _ h => huntouched.levels h

/-- The operation that defines a slate, if the transaction has to define it. -/
def slateOps (w : BuilderWallet) (slate : List ℤ) : List Operation :=
  if 0 < slate.length ∧ w.chain.getDelegateSlate (w.crypto.slateId slate) = none then
    [.defineDelegateSlate slate]
  else []

/-- The slate id that the deposits carry. -/
def depositSlateId (w : BuilderWallet) (slate : List ℤ) : SlateId :=
  if 0 < slate.length ∧ w.chain.getDelegateSlate (w.crypto.slateId slate) = none then
    w.crypto.slateId slate
  else 0

/-- What `finalize` adds: the slate, and operations that level the balances which are left. -/
structure Added (w : BuilderWallet) (b b' : TransactionBuilder) (slate : List ℤ)
    (opss : List (List Operation)) : Prop where
  operations : b'.operations = b.operations ++ slateOps w slate ++ opss.flatten
  levels : List.Forall₂ (Levels w (depositSlateId w slate) b.orderKeys)
    b'.outstandingBalances.toList opss

/-- **Finalizing** pays the fee from the balances there are, and levels what is left of them. -/
theorem finalize_spec (w : BuilderWallet) (b : TransactionBuilder) :
    Outcome (finalize w) b
      (fun _ b' => ∃ slate opss, w.selectDelegateVote = .ok slate ∧ Added w b b' slate opss ∧
        (PaysFee w b.outstandingBalances b'.outstandingBalances b'.fee ↔
          FeeCovered w b.outstandingBalances) ∧
        ∃ b₁, (payFee w).run { b with operations := b.operations ++ slateOps w slate } = .ok () b₁ ∧
          b'.outstandingBalances = b₁.outstandingBalances)
      fun _ _ => True := by
  unfold finalize
  rw [Outcome.bind_iff, Outcome.get_iff, Outcome.bind_iff, Outcome.ofExcept_iff]
  refine ⟨fun _ _ => ?_, fun _ _ => trivial⟩
  rw [Outcome.bind_iff, Outcome.ofExcept_iff]
  refine ⟨fun slate hslate => ?_, fun _ _ => trivial⟩
  rw [Outcome.bind_iff]
  have hdefine : Outcome (defineSlate w slate) b
      (fun slateId b₁ => slateId = depositSlateId w slate ∧
        b₁ = { b with operations := b.operations ++ slateOps w slate }) fun _ _ => True := by
    unfold defineSlate depositSlateId slateOps
    dsimp only
    split
    · exact ⟨rfl, rfl⟩
    · exact ⟨rfl, by rw [List.append_nil]⟩
  refine hdefine.mono (fun slateId b₁ h₁ => ?_) fun _ _ _ => trivial
  obtain ⟨rfl, rfl⟩ := h₁
  rw [Outcome.bind_iff]
  refine .intro (fun _ b₂ hpay => ?_) fun _ _ _ => trivial
  obtain ⟨hiff, hops, hkeys⟩ := (payFee_spec w _).of_ok hpay
  rw [Outcome.bind_iff, Outcome.get_iff]
  refine (levelAll_spec _ _).mono (fun _ b' h => ?_) fun _ _ _ => trivial
  obtain ⟨huntouched, opss, hopss, hall⟩ := h
  rw [hkeys] at hall
  refine ⟨slate, opss, hslate, ⟨hopss.trans (by rw [hops]), ?_⟩, ?_, b₂, hpay,
    huntouched.outstandingBalances⟩
  · rw [huntouched.outstandingBalances]
    exact hall
  · rw [huntouched.outstandingBalances, huntouched.fee]
    exact hiff

/-- **The books balance**: for every account and asset the operations that are added come to its
outstanding balance, less what is held back for the fee. -/
structure BooksBalance (w : BuilderWallet) (b b' : TransactionBuilder) : Prop where
  added : ∃ slate opss, Added w b b' slate opss
  paid : PaysFee w b.outstandingBalances b'.outstandingBalances b'.fee

/-- **Finalizing balances the books**, and paying the fee changes nothing when it throws, exactly if
the fee is covered. -/
theorem booksBalance_iff (w : BuilderWallet) (b : TransactionBuilder) :
    Outcome (finalize w) b
        (fun _ b' => BooksBalance w b b' ↔ FeeCovered w b.outstandingBalances) (fun _ _ => True) ∧
      Outcome (payFee w) b (fun _ _ => True)
        (fun _ b' => b'.outstandingBalances = b.outstandingBalances ↔
          FeeCovered w b.outstandingBalances) := by
  constructor
  · refine (finalize_spec w b).mono (fun _ b' h => ?_) fun _ _ _ => trivial
    obtain ⟨slate, opss, -, hadded, hiff, -⟩ := h
    rw [← hiff]
    exact ⟨fun h => h.paid, fun h => ⟨⟨slate, opss, hadded⟩, h⟩⟩
  · exact (payFee_spec w b).mono (fun _ _ _ => trivial) fun _ _ h => h

/-- A wallet on a chain that knows some slates. Its delegate vote is the slate of one delegate. -/
def votingWallet (slates : Table SlateId (List ℤ)) : BuilderWallet where
  chain := { db := { slates := slates }, now := 0, headBlockNum := 0 }
  crypto := .transparent
  defaultTransactionPriorityFee := none
  selectDelegateVote := .ok [1]
  lookupAccount _ := .ok none
  getAccountBalanceRecords _ _ := .ok ∅
  newPrivateKey _ := .ok 7

/-- One account is debited for a bid, and another one is credited. -/
def bidAndCredit (credit : ℤ) : TransactionBuilder where
  operations := [.bid 50 { orderPrice := {} }]
  outstandingBalances := (((∅ : OutstandingBalances).insert ⟨1, 0⟩ (.ofInt (-50))).insert ⟨2, 0⟩
    (.ofInt credit))

/-- The loop eats the debit of the first account, and charges the second one for it. When the second
one has too little, it throws with both balances at zero. -/
theorem not_booksBalance_debit :
    (∃ b', (finalize (votingWallet ∅)).run (bidAndCredit 1000000) = .ok () b' ∧
      ¬BooksBalance (votingWallet ∅) (bidAndCredit 1000000) b') ∧
    ∃ e b', (payFee (votingWallet ∅)).run (bidAndCredit 100010) = .error e b' ∧
      b'.outstandingBalances ≠ (bidAndCredit 100010).outstandingBalances := by
  constructor
  · obtain ⟨_, b', hrun⟩ := exists_of_returns
      (show returns (finalize (votingWallet ∅)) (bidAndCredit 1000000) = true by decide +kernel)
    refine ⟨b', hrun, fun h => ?_⟩
    have hzero : (match (finalize (votingWallet ∅)).run (bidAndCredit 1000000) with
        | .ok _ b' => balance b'.outstandingBalances ⟨1, 0⟩
        | .error _ _ => -50) = 0 := by decide +kernel
    rw [hrun] at hzero
    dsimp only at hzero
    have hle := h.paid.held.le ⟨1, 0⟩
    rw [hzero] at hle
    exact absurd hle (by decide +kernel)
  · obtain ⟨e, b', hrun⟩ := exists_of_not_returns
      (show returns (payFee (votingWallet ∅)) (bidAndCredit 100010) = false by decide +kernel)
    refine ⟨e, b', hrun, fun h => ?_⟩
    have hzero : (match (payFee (votingWallet ∅)).run (bidAndCredit 100010) with
        | .ok _ _ => -50
        | .error _ b' => balance b'.outstandingBalances ⟨1, 0⟩) = 0 := by decide +kernel
    rw [hrun] at hzero
    dsimp only at hzero
    rw [h] at hzero
    exact absurd hzero (by decide +kernel)

/-! ### The slate of the deposits -/

/-- **The deposits vote** for the slate that is chosen, and the transaction defines it exactly when
the chain does not know it. -/
def KeepsVotes (w : BuilderWallet) (b b' : TransactionBuilder) : Prop :=
  ∀ slate, w.selectDelegateVote = .ok slate → slate ≠ [] →
    ∀ added, b'.operations = b.operations ++ added →
      (∀ amount condition, .deposit amount condition ∈ added →
        condition.delegateSlateId = w.crypto.slateId slate) ∧
      (.defineDelegateSlate slate ∈ added ↔
        w.chain.getDelegateSlate (w.crypto.slateId slate) = none)

/-- No account is left with a credit when the fee is paid. -/
def LeavesNoCredit (w : BuilderWallet) (b : TransactionBuilder) : Prop :=
  ∀ b₁, (payFee w).run b = .ok () b₁ → ∀ key, balance b₁.outstandingBalances key ≤ 0

/-- The slate that is chosen is new to the chain, or there is nothing that could vote for it. -/
def SlateIsNew (w : BuilderWallet) (b : TransactionBuilder) : Prop :=
  ∀ slate, w.selectDelegateVote = .ok slate → slate = [] ∨
    w.chain.getDelegateSlate (w.crypto.slateId slate) = none ∨ w.crypto.slateId slate = 0 ∨
    LeavesNoCredit w b

variable {b' : TransactionBuilder} {slate : List ℤ} {opss : List (List Operation)}

/-- What stands across an element. -/
theorem exists_of_forall₂ {α β : Type} {R : α → β → Prop} {l : List α} {l' : List β}
    (h : List.Forall₂ R l l') {y : β} (hy : y ∈ l') : ∃ x ∈ l, R x y := by
  induction h with
  | nil => exact (List.not_mem_nil hy).elim
  | cons hxy _ ih =>
    rcases List.mem_cons.1 hy with rfl | hy
    · exact ⟨_, List.mem_cons_self, hxy⟩
    · obtain ⟨x, hx, hxy⟩ := ih hy
      exact ⟨x, List.mem_cons_of_mem _ hx, hxy⟩

/-- Every operation that levels a balance is an account's own. -/
theorem Added.own (h : Added w b b' slate opss) {op : Operation} (hop : op ∈ opss.flatten) :
    ∃ key, IsOwn w (depositSlateId w slate) b.orderKeys key op := by
  obtain ⟨ops, hops, hop⟩ := List.mem_flatten.1 hop
  obtain ⟨entry, -, hlevels⟩ := exists_of_forall₂ h.levels hops
  exact ⟨entry.1, hlevels.own op hop⟩

theorem IsOwn.depositSlateId_eq {slateId : SlateId} {orderKeys : Table Address PublicKey}
    {key : BalanceKey} {amount : ℤ} {condition : WithdrawCondition}
    (h : IsOwn w slateId orderKeys key (.deposit amount condition)) :
    condition.delegateSlateId = slateId := by
  rcases h with ⟨orderKey, amount', -, hop⟩ | ⟨name, -, _, _, _, _, -, -, -, -, hop⟩
  · cases hop
    rfl
  · cases hop

theorem not_isOwn_defineDelegateSlate {slateId : SlateId} {orderKeys : Table Address PublicKey}
    {key : BalanceKey} : ¬IsOwn w slateId orderKeys key (.defineDelegateSlate slate) := by
  rintro (⟨orderKey, amount', -, hop⟩ | ⟨name, -, _, _, _, _, -, -, -, -, hop⟩)
  · cases hop
  · cases hop

/-- A balance is deposited exactly if it is a credit. -/
theorem Added.deposits (h : Added w b b' slate opss) :
    (∃ amount condition, .deposit amount condition ∈ opss.flatten) ↔
      ∃ key, 0 < balance b'.outstandingBalances key := by
  constructor
  · rintro ⟨amount, condition, hop⟩
    obtain ⟨ops, hops, hop⟩ := List.mem_flatten.1 hop
    obtain ⟨entry, hentry, hlevels⟩ := exists_of_forall₂ h.levels hops
    refine ⟨entry.1, ?_⟩
    rw [balance, Table.mem_toList.1 hentry]
    exact hlevels.deposits.1 ⟨amount, condition, hop⟩
  · rintro ⟨key, hpos⟩
    rw [balance] at hpos
    cases hkey : b'.outstandingBalances[key]? with
    | none =>
      rw [hkey] at hpos
      exact absurd hpos (lt_irrefl 0)
    | some share =>
      rw [hkey] at hpos
      obtain ⟨ops, hops, hlevels⟩ := exists_of_forall₂ h.levels.flip (Table.mem_toList.2 hkey)
      obtain ⟨amount, condition, hop⟩ := hlevels.deposits.2 hpos
      exact ⟨amount, condition, List.mem_flatten.2 ⟨ops, hops, hop⟩⟩

/-- **The deposits vote for the slate** exactly if it is new to the chain, or nothing is there to vote
for it. -/
theorem keepsVotes_iff (w : BuilderWallet) (b : TransactionBuilder) :
    Outcome (finalize w) b (fun _ b' => KeepsVotes w b b' ↔ SlateIsNew w b) fun _ _ => True := by
  refine (finalize_spec w b).mono (fun _ b' h => ?_) fun _ _ _ => trivial
  obtain ⟨slate, opss, hslate, hadded, -, b₁, hpay, hleft⟩ := h
  have hadd : ∀ added, b'.operations = b.operations ++ added →
      added = slateOps w slate ++ opss.flatten := fun added h => by
    rw [hadded.operations, List.append_assoc] at h
    exact (List.append_cancel_left h).symm
  have hcarry : ∀ amount condition, .deposit amount condition ∈ opss.flatten →
      condition.delegateSlateId = depositSlateId w slate := fun amount condition hop =>
    (hadded.own hop).elim fun _ hown => hown.depositSlateId_eq
  by_cases hempty : slate = []
  · refine iff_of_true (fun slate' hslate' hne => ?_) fun slate' hslate' => ?_
    · cases hslate.symm.trans hslate'
      exact absurd hempty hne
    · cases hslate.symm.trans hslate'
      exact Or.inl hempty
  have hpositive : 0 < slate.length := List.length_pos_of_ne_nil hempty
  by_cases hnew : w.chain.getDelegateSlate (w.crypto.slateId slate) = none
  · -- the transaction defines the slate
    have hops : slateOps w slate = [.defineDelegateSlate slate] := if_pos ⟨hpositive, hnew⟩
    have hid : depositSlateId w slate = w.crypto.slateId slate := if_pos ⟨hpositive, hnew⟩
    refine iff_of_true (fun slate' hslate' _ added h => ?_) fun slate' hslate' => ?_
    · cases hslate.symm.trans hslate'
      rw [hadd added h, hops]
      refine ⟨fun amount condition hop => ?_, iff_of_true List.mem_cons_self hnew⟩
      rcases List.mem_cons.1 hop with hop | hop
      · cases hop
      · exact (hcarry amount condition hop).trans hid
    · cases hslate.symm.trans hslate'
      exact Or.inr (Or.inl hnew)
  · -- the deposits carry slate id zero
    have hops : slateOps w slate = [] := if_neg fun h => hnew h.2
    have hid : depositSlateId w slate = 0 := if_neg fun h => hnew h.2
    rw [hops, List.append_nil] at hpay
    have hcredit : LeavesNoCredit w b ↔ ∀ key, balance b'.outstandingBalances key ≤ 0 := by
      rw [hleft]
      refine ⟨fun h => h b₁ hpay, fun h b₂ hpay' => ?_⟩
      cases hpay.symm.trans hpay'
      exact h
    have hnone : (∀ key, balance b'.outstandingBalances key ≤ 0) ↔
        ¬∃ amount condition, .deposit amount condition ∈ opss.flatten := by
      rw [hadded.deposits, not_exists]
      exact forall_congr' fun key => not_lt.symm
    have hundefined : .defineDelegateSlate slate ∉ opss.flatten := fun hop =>
      (hadded.own hop).elim fun _ hown => not_isOwn_defineDelegateSlate hown
    constructor
    · intro hkeeps slate' hslate'
      cases hslate.symm.trans hslate'
      have hadded' := hadded.operations
      rw [List.append_assoc] at hadded'
      have hvotes := (hkeeps slate hslate hempty _ hadded').1
      rw [hcredit, hnone]
      refine Or.inr (Or.inr (or_iff_not_imp_right.2 fun hsome => ?_))
      obtain ⟨amount, condition, hop⟩ := not_not.1 hsome
      rw [← hvotes amount condition (List.mem_append_right _ hop), hcarry amount condition hop, hid]
    · intro hreaches slate' hslate' _ added hops'
      cases hslate.symm.trans hslate'
      rw [hadd added hops', hops, List.nil_append]
      refine ⟨fun amount condition hop => ?_, iff_of_false hundefined hnew⟩
      rw [hcarry amount condition hop, hid]
      rcases hreaches slate hslate with hnil | hunknown | hzero | hleaves
      · exact absurd hnil hempty
      · exact absurd hunknown hnew
      · exact hzero.symm
      · rw [hcredit, hnone] at hleaves
        exact absurd ⟨amount, condition, hop⟩ hleaves

/-- The second transaction that votes for a slate votes for nobody. -/
theorem not_keepsVotes_again :
    let w := votingWallet ((∅ : Table SlateId (List ℤ)).insert (Crypto.transparent.slateId [1]) [1])
    ∃ b', (finalize w).run (bidAndCredit 1000000) = .ok () b' ∧
      ¬KeepsVotes w (bidAndCredit 1000000) b' := by
  intro w
  obtain ⟨_, b', hrun⟩ := exists_of_returns
    (show returns (finalize w) (bidAndCredit 1000000) = true by decide +kernel)
  refine ⟨b', hrun, fun h => ?_⟩
  have hops : (match (finalize w).run (bidAndCredit 1000000) with
      | .ok _ b' => b'.operations
      | .error _ _ => []) = (bidAndCredit 1000000).operations ++
        [.deposit 899950 (.ofSignature 14 0 0)] := by decide +kernel
  rw [hrun] at hops
  have hid := (h [1] rfl (by decide) _ hops).1 _ _ (List.mem_singleton_self _)
  exact absurd hid (by decide +kernel)

end LarkX
