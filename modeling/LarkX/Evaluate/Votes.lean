import LarkX.Evaluate.Conserve
import LarkX.State.Votes

/-!
# Votes and statistics through a transaction

The votes of a delegate are collected while the operations of a transaction run and moved once
at its end. `Tallied` is what every operation keeps: what it adds to the votes that are to be
moved is what it adds to the votes due, up to the wrap of 64 bits, and the votes and the blocks
of the delegates stay what they are.
-/

namespace LarkX

namespace EvaluationState

variable {crypto : Crypto} {s s' : EvaluationState}

/-- The votes of a delegate that are to be moved. -/
def net (s : EvaluationState) (d : ℤ) : ℤ :=
  s.netDelegateVotes[d]?.getD 0

/-- What an operation does to votes and statistics. -/
structure Tallied (s s' : EvaluationState) : Prop where
  votesFor : ∀ d, (s'.currentState.flat.stats d).votesFor = (s.currentState.flat.stats d).votesFor
  blocks : s.currentState.flat.SameBlocks s'.currentState.flat
  net : ∀ d, 0 ≤ d → (s'.net d + s.currentState.flat.votesDue d : Word) =
    s.net d + s'.currentState.flat.votesDue d

theorem Tallied.refl (s : EvaluationState) : Tallied s s :=
  ⟨fun _ => rfl, .refl _, fun _ _ => rfl⟩

theorem Tallied.trans {s₁ s₂ s₃ : EvaluationState} (h : Tallied s₁ s₂) (h' : Tallied s₂ s₃) :
    Tallied s₁ s₃ where
  votesFor d := (h'.votesFor d).trans (h.votesFor d)
  blocks := h.blocks.trans h'.blocks
  net d hd := by
    have h₁ := h.net d hd
    have h₂ := h'.net d hd
    linear_combination h₁ + h₂

/-! ### Adjusting votes -/

theorem net_addNetVotes (s : EvaluationState) (id delta d : ℤ) :
    ((s.addNetVotes id delta).net d : Word) = s.net d + if d = id then (delta : Word) else 0 := by
  rw [net, addNetVotes, Table.getElem?_insert]
  split
  · rename_i hd
    rw [hd, Option.getD_some, wrap64_cast, Int.cast_add]
    rfl
  · rw [add_zero]
    rfl

/-- The votes of a slate go to the delegates it names. -/
theorem net_foldl (amount : ℤ) {d : ℤ} (hd : 0 ≤ d) (slate : List ℤ) (s : EvaluationState) :
    ((slate.foldl (fun s id => s.addNetVotes |id| amount) s).net d : Word) =
      s.net d + amount * namings d slate := by
  induction slate generalizing s with
  | nil => rw [List.foldl_nil, namings, List.countP_nil, Nat.cast_zero, mul_zero, add_zero]
  | cons id slate ih =>
    rw [List.foldl_cons, ih, net_addNetVotes, namings, namings, List.countP_cons]
    have hid : d = |id| ↔ id = d ∨ id = -d := by
      constructor
      · rintro rfl
        rcases abs_choice id with h | h
        · exact Or.inl h.symm
        · exact Or.inr (by omega)
      · rintro (rfl | rfl)
        · exact (abs_of_nonneg hd).symm
        · rw [abs_neg, abs_of_nonneg hd]
    by_cases h : id = d ∨ id = -d
    · rw [if_pos (hid.2 h), if_pos (by simpa using h)]
      push_cast
      ring
    · rw [if_neg fun hd => h (hid.1 hd), if_neg (by simpa using h)]
      push_cast
      ring

/-- The vote of an amount, with the slate it is for. -/
theorem adjustVote_net {slateId : SlateId} {amount : ℤ} (hslate : slateId ≠ 0)
    (h : s.adjustVote slateId amount = .ok s') :
    ∃ slate, s.currentState.flat.slates[slateId]? = some slate ∧
      ∀ d, 0 ≤ d → (s'.net d : Word) = s.net d + amount * namings d slate := by
  rw [adjustVote, if_pos hslate] at h
  simp only [bind_eq_ok, orThrow_eq_ok, pure_eq_ok] at h
  obtain ⟨slate, hget, rfl⟩ := h
  rw [ChainInterface.getDelegateSlate_eq] at hget
  exact ⟨slate, hget, fun d hd => net_foldl amount hd slate s⟩

/-- The vote of a balance that changes: nothing, unless the balance votes. -/
theorem voting_net {r : BalanceRecord} {p : Prop} [Decidable p] (hp : p ↔ r.Voting) {amount : ℤ}
    (h : (if p then s.adjustVote r.condition.delegateSlateId amount else pure s) = .ok s') :
    (r.Voting → s.currentState.flat.slates[r.condition.delegateSlateId]? ≠ none) ∧
      ∀ d, 0 ≤ d → (s'.net d : Word) = s.net d + if r.Voting then
        (amount * namings d (s.currentState.flat.slates[r.condition.delegateSlateId]?.getD []) :
          Word) else 0 := by
  rw [ite_eq_ok] at h
  rcases h with ⟨hvotes, h⟩ | ⟨hnot, h⟩
  · have hvoting := hp.1 hvotes
    obtain ⟨slate, hslate, hnet⟩ := adjustVote_net hvoting.2 h
    refine ⟨fun _ => by rw [hslate]; exact Option.some_ne_none _, fun d hd => ?_⟩
    rw [hnet d hd, hslate, if_pos hvoting, Option.getD_some]
  · rw [pure_eq_ok] at h
    have hvoting : ¬r.Voting := fun hvoting => hnot (hp.2 hvoting)
    refine ⟨fun hv => absurd hv hvoting, fun d _ => ?_⟩
    rw [if_neg hvoting, add_zero, h]

theorem net_subBalance {id : BalanceId} {x : Asset} (h : s.subBalance id x = .ok s') (d : ℤ) :
    s'.net d = s.net d := by
  simp only [subBalance, ite_bind, bind_eq_ok, pure_eq_ok] at h
  obtain ⟨_, -, _, -, rfl⟩ := h
  rfl

theorem net_addBalance {x : Asset} (h : s.addBalance x = .ok s') (d : ℤ) :
    s'.net d = s.net d := by
  simp only [addBalance, bind_eq_ok, pure_eq_ok] at h
  obtain ⟨_, -, rfl⟩ := h
  rfl

/-! ### Balances -/

/-- A balance is stored with another amount, and its votes move by the difference. -/
theorem tallied_balance (hp : s.currentState.IsPending)
    (hknown : s.currentState.flat.SlatesKnown) {r r' : BalanceRecord}
    (hold : s.currentState.flat.balances[crypto.conditionAddress r.condition]? = some r ∨
      (s.currentState.flat.balances[crypto.conditionAddress r.condition]? = none ∧ r.balance = 0))
    (hstate : s'.currentState = s.currentState.storeBalanceRecord crypto r')
    (hcondition : r'.condition = r.condition)
    (hslate : r.Voting → r'.balance ≠ 0 →
      s.currentState.flat.slates[r.condition.delegateSlateId]? ≠ none)
    (hnet : ∀ d, 0 ≤ d → (s'.net d : Word) = s.net d + if r.Voting then
      ((r'.balance - r.balance) *
        namings d (s.currentState.flat.slates[r.condition.delegateSlateId]?.getD []) : Word)
      else 0) : Tallied s s' ∧ s'.currentState.flat.SlatesKnown := by
  have hflat : s'.currentState.flat = s.currentState.flat.write crypto (.balance r') := by
    rw [hstate, ChainInterface.storeBalanceRecord_eq hp, ChainInterface.flat_write hp]
  have hvoting : r'.Voting ↔ r.Voting := by
    rw [BalanceRecord.Voting, BalanceRecord.Voting, BalanceRecord.assetId,
      BalanceRecord.assetId, hcondition]
  refine ⟨⟨fun d => by rw [hflat]; rfl, ⟨fun d => by rw [hflat]; rfl, fun d => by rw [hflat]; rfl⟩,
    fun d hd => ?_⟩, ?_⟩
  · have hbefore : (s.currentState.flat.balances[crypto.conditionAddress r'.condition]?).elim 0
        (·.votes s.currentState.flat.slates d) = r.votes s.currentState.flat.slates d := by
      rw [hcondition]
      rcases hold with hold | ⟨hold, hzero⟩
      · rw [hold, Option.elim_some]
      · rw [hold, Option.elim_none, BalanceRecord.votes_zero hzero]
    have hvotes : (r'.votes s.currentState.flat.slates d -
        r.votes s.currentState.flat.slates d : Word) = if r.Voting then
          ((r'.balance - r.balance) * namings d
            (s.currentState.flat.slates[r.condition.delegateSlateId]?.getD []) : Word) else 0 := by
      by_cases hv : r.Voting
      · rw [if_pos hv, BalanceRecord.votes, BalanceRecord.votes, if_pos hv, if_pos (hvoting.2 hv),
          hcondition]
        push_cast
        ring
      · rw [if_neg hv, BalanceRecord.votes_of_not_voting hv,
          BalanceRecord.votes_of_not_voting fun hv' => hv (hvoting.1 hv'), sub_self]
    have hdue : s'.currentState.flat.votesDue d = s.currentState.flat.votesDue d +
        (r'.votes s.currentState.flat.slates d - r.votes s.currentState.flat.slates d) := by
      rw [hflat, Tables.votesDue, Tables.votesCast_balance, hbefore, Tables.votesDue]
      change _ + (s.currentState.flat.stats d).payBalance = _
      ring
    rw [hdue, hnet d hd, ← hvotes]
    push_cast
    ring
  · rw [hflat]
    refine hknown.balance fun hv hbalance => ?_
    rw [hcondition]
    exact hslate (hvoting.1 hv) hbalance

/-- What is stored under the address of a condition has that condition. -/
theorem condition_of_stored (hideal : Function.Injective crypto.conditionAddress)
    {t : Tables} (hkeyed : t.Keyed crypto) {condition : WithdrawCondition} {r : BalanceRecord}
    (hr : t.balances[crypto.conditionAddress condition]? = some r) : r.condition = condition :=
  hideal (hkeyed.balances _ r hr)

theorem deposit_tallied (hideal : Function.Injective crypto.conditionAddress)
    (hp : s.currentState.IsPending) (hc : s.currentState.flat.Countable crypto) {amount : ℤ}
    {condition : WithdrawCondition} (h : s.deposit crypto amount condition = .ok s') :
    Tallied s s' ∧ s'.currentState.flat.SlatesKnown := by
  simp only [deposit, ite_bind, bind_eq_ok, require_eq_ok, pure_eq_ok] at h
  obtain ⟨-, hpos, date, -, s₁, hsub, s₂, hvote, rfl⟩ := h
  have hd := subBalance_eq_ok hsub
  have hv := adjustVote_if_eq_ok hvote
  have hstate : s₂.currentState = s.currentState := hv.currentState.trans hd.currentState
  obtain ⟨hslate, hnet⟩ := voting_net (r := (s.currentState.getBalanceRecord
    (crypto.conditionAddress condition)).getD { condition }) Iff.rfl hvote
  rw [hd.currentState] at hslate hnet
  have hold : ∃ r : BalanceRecord, (s.currentState.getBalanceRecord
      (crypto.conditionAddress condition)).getD { condition } = r ∧ r.condition = condition ∧
      (s.currentState.flat.balances[crypto.conditionAddress condition]? = some r ∨
        (s.currentState.flat.balances[crypto.conditionAddress condition]? = none ∧
          r.balance = 0)) := by
    rw [ChainInterface.getBalanceRecord_eq]
    cases hget : s.currentState.flat.balances[crypto.conditionAddress condition]? with
    | none => exact ⟨_, rfl, rfl, Or.inr ⟨rfl, rfl⟩⟩
    | some r => exact ⟨r, rfl, condition_of_stored hideal hc.keyed hget, Or.inl rfl⟩
  obtain ⟨r, hr, hcondition, hstored⟩ := hold
  rw [hr] at hslate hnet ⊢
  rw [← hcondition] at hstored
  have hstate' : (s₂.withState (s₂.currentState.storeBalanceRecord crypto { r with
        lastUpdate := s.currentState.now
        depositDate := date
        balance := wrap64 (r.balance + amount) })).currentState =
      s.currentState.storeBalanceRecord crypto { r with
        lastUpdate := s.currentState.now
        depositDate := date
        balance := wrap64 (r.balance + amount) } := by
    rw [← hstate]
    rfl
  refine tallied_balance hp hc.known hstored hstate' rfl (fun hv _ => hslate hv) fun d hd => ?_
  refine (hnet d hd).trans ?_
  rw [net_subBalance hsub, wrap64_cast, Int.cast_add, add_sub_cancel_left]

/-- An evaluation that leaves the tables the votes depend on and the votes to be moved. -/
theorem tallied_same (h : s.currentState.flat.SameVotes s'.currentState.flat)
    (hnet : ∀ d, s'.net d = s.net d) : Tallied s s' :=
  ⟨fun d => by rw [h.stats], h.sameBlocks, fun d _ => by rw [h.votesDue, hnet]⟩

theorem sameVotes_storeAssetRecord {c : ChainInterface} (hp : c.IsPending) (r : AssetRecord) :
    c.flat.SameVotes (c.storeAssetRecord r).flat := by
  rw [ChainInterface.storeAssetRecord_eq .transparent hp, ChainInterface.flat_write hp]
  exact ⟨rfl, rfl, rfl⟩

theorem withdraw_tallied (hp : s.currentState.IsPending)
    (hc : s.currentState.flat.Countable crypto) {id : BalanceId} {amount : ℤ}
    {data : ClaimInputData} (h : s.withdraw crypto id amount data = .ok s') :
    Tallied s s' ∧ s'.currentState.flat.SlatesKnown := by
  simp only [withdraw, ite_bind, bind_eq_ok, require_eq_ok, orThrow_eq_ok] at h
  obtain ⟨-, -, r, hr, -, -, -, -, s₁, hvote, ⟨s₂, r₁⟩, hyield, h⟩ := h
  have hv := adjustVote_if_eq_ok hvote
  obtain ⟨hslate, hnet⟩ := voting_net (r := r) Iff.rfl hvote
  rw [ChainInterface.getBalanceRecord_eq] at hr
  have haddress := hc.keyed.balances id r hr
  rw [← haddress] at hr
  have hw := addBalance_eq_ok h
  -- the yield, which a balance that votes does not have, moves to the balance first
  have hyielded : s.currentState.flat.SameVotes s₂.currentState.flat ∧
      s₂.currentState.IsPending ∧ (∀ d, s₂.net d = s₁.net d) ∧ r₁.condition = r.condition ∧
      (r.Voting → r₁.balance = r.balance) := by
    rcases payYield_eq_ok hyield with ⟨rfl, rfl⟩ | ⟨asset, y, hasset, hissued, -, -, rfl, hcond, -, -⟩
    · rw [hv.currentState]
      exact ⟨⟨rfl, rfl, rfl⟩, hp, fun _ => rfl, rfl, fun _ => rfl⟩
    · change Tables.SameVotes _ (s₁.currentState.storeAssetRecord _).flat ∧
        (s₁.currentState.storeAssetRecord _).IsPending ∧ _
      rw [hv.currentState] at hasset ⊢
      refine ⟨sameVotes_storeAssetRecord hp _, ?_, fun _ => rfl, hcond, fun hvoting => ?_⟩
      · rw [ChainInterface.storeAssetRecord_eq .transparent hp]
        exact (ChainInterface.sameBelow_write _ _ _).pending hp
      · rw [hvoting.1, ChainInterface.getAssetRecord_eq] at hasset
        rw [hc.base asset hasset] at hissued
        cases hissued
  obtain ⟨hsame, hp₂, hnet₂, hcondition, hbalance⟩ := hyielded
  have hfirst : Tallied s (s.withState s₂.currentState) := tallied_same hsame fun _ => rfl
  have hstate' : s'.currentState = (s.withState s₂.currentState).currentState.storeBalanceRecord
      crypto { r₁ with
        balance := wrap64 (r₁.balance - amount)
        lastUpdate := s₂.currentState.now } := hw.currentState
  have hsecond := tallied_balance (s := s.withState s₂.currentState) (r := r) hp₂
    (hsame.known hc.known) (Or.inl (by rw [← hr, ← hsame.balances]; rfl)) hstate' hcondition
    (fun hvoting _ => by
      have hknown := hslate hvoting
      rw [← hsame.slates] at hknown
      exact hknown) fun d hd => ?_
  · exact ⟨hfirst.trans hsecond.1, hsecond.2⟩
  · rw [net_addBalance h]
    change (s₂.net d : Word) = s.net d + _
    rw [hnet₂, hnet d hd]
    change _ = (s.net d : Word) + if r.Voting then ((wrap64 (r₁.balance - amount) - r.balance) *
      namings d (s₂.currentState.flat.slates[r.condition.delegateSlateId]?.getD []) : Word) else 0
    rw [hsame.slates]
    by_cases hvoting : r.Voting
    · rw [if_pos hvoting, if_pos hvoting, hbalance hvoting, wrap64_cast]
      push_cast
      ring
    · rw [if_neg hvoting, if_neg hvoting]

theorem claim_tallied (hp : s.currentState.IsPending)
    (hc : s.currentState.flat.Countable crypto) {id : BalanceId} {amount : ℤ} {source : PtsAddress}
    {dest : PublicKey} {sig : Signature} (h : s.claim crypto id amount source dest sig = .ok s') :
    Tallied s s' ∧ s'.currentState.flat.SlatesKnown := by
  simp only [claim, validateClaimSignature, checkClaimInput, withdrawClaimInput, ite_bind,
    bind_eq_ok, require_eq_ok, orThrow_eq_ok, pure_eq_ok] at h
  obtain ⟨-, -, r, ⟨r₀, hr, -, hbase, -, -, rfl⟩, s₁, ⟨-, hall, s₂, hvote, hadd⟩, -, -, rfl⟩ := h
  have hv := adjustVote_if_eq_ok hvote
  have hvoting : r₀.condition.delegateSlateId ≠ 0 ↔ r₀.Voting :=
    ⟨fun hslate => ⟨hbase, hslate⟩, fun hvoting => hvoting.2⟩
  obtain ⟨hslate, hnet⟩ := voting_net hvoting hvote
  rw [ChainInterface.getBalanceRecord_eq] at hr
  rw [← hc.keyed.balances id r₀ hr] at hr
  have hw := addBalance_eq_ok hadd
  have hstate : s₁.currentState = s.currentState.storeBalanceRecord crypto { r₀ with
      balance := 0
      lastUpdate := s₂.currentState.now } := by
    rw [hw.currentState, ← hv.currentState]
    rfl
  refine tallied_balance hp hc.known (Or.inl hr) hstate rfl (fun hv _ => hslate hv)
    fun d hd => ?_
  rw [net_addBalance hadd]
  change (s₂.net d : Word) = _
  rw [hnet d hd, wrap64_cast, hall]
  push_cast
  rw [zero_sub]

/-! ### Accounts -/

/-- The statistics of a delegate apart from its pay and its pay rate. -/
structure SameStats (i j : DelegateStats) : Prop where
  votesFor : j.votesFor = i.votesFor
  blocksProduced : j.blocksProduced = i.blocksProduced
  blocksMissed : j.blocksMissed = i.blocksMissed

/-- An account is stored with other pay, and the votes to be moved follow. -/
theorem tallied_account {r : AccountRecord}
    (hbalances : s'.currentState.flat.balances = s.currentState.flat.balances)
    (hslates : s'.currentState.flat.slates = s.currentState.flat.slates)
    (haccounts : s'.currentState.flat.accounts = s.currentState.flat.accounts.insert r.id r)
    (hsame : SameStats (s.currentState.flat.stats r.id) r.stats)
    (hnet : ∀ d, 0 ≤ d → (s'.net d : Word) = s.net d + if d = r.id then
      (r.stats.payBalance - (s.currentState.flat.stats r.id).payBalance : Word) else 0) :
    Tallied s s' := by
  have hstats (d : ℤ) : s'.currentState.flat.stats d =
      if d = r.id then r.stats else s.currentState.flat.stats d := by
    rw [Tables.stats, haccounts, Table.getElem?_insert]
    split <;> rfl
  have hcast (d : ℤ) : s'.currentState.flat.votesCast d = s.currentState.flat.votesCast d := by
    rw [Tables.votesCast, hbalances, hslates]
    rfl
  refine ⟨fun d => ?_, ⟨fun d => ?_, fun d => ?_⟩, fun d hd => ?_⟩
  · rw [hstats]
    split
    · rename_i hid
      rw [hid, hsame.votesFor]
    · rfl
  · rw [hstats]
    split
    · rename_i hid
      rw [hid, hsame.blocksProduced]
    · rfl
  · rw [hstats]
    split
    · rename_i hid
      rw [hid, hsame.blocksMissed]
    · rfl
  · rw [Tables.votesDue, Tables.votesDue, hcast, hstats, hnet d hd]
    split
    · rename_i hid
      rw [hid]
      push_cast
      ring
    · push_cast
      ring

theorem net_requireFee {amount : ℤ} (h : s.requireFee amount = .ok s') (d : ℤ) :
    s'.net d = s.net d := by
  simp only [requireFee, bind_eq_ok, pure_eq_ok] at h
  obtain ⟨_, -, rfl⟩ := h
  rfl

theorem net_requireDelegateFee {payRate : ℕ} (h : s.requireDelegateFee payRate = .ok s') (d : ℤ) :
    s'.net d = s.net d := by
  rw [requireDelegateFee, bind_eq_ok] at h
  obtain ⟨fee, -, h⟩ := h
  exact net_requireFee h d

/-- A new account has an id no account has. -/
theorem accounts_fresh {t : Tables} (hgiven : t.IdsGiven) {last : ℤ}
    (hlast : t.properties[ChainProperty.lastAccountId]? = some (.int last)) :
    t.accounts[last + 1]? = none := by
  obtain ⟨last', hlast', -, hbelow⟩ := hgiven
  rw [hlast] at hlast'
  cases hlast'
  cases hr : t.accounts[last + 1]? with
  | none => rfl
  | some r => exact absurd (hbelow _ r hr).2 (by omega)

/-- A registration writes the next id and an account without votes, blocks or pay. -/
theorem registerAccount_stats {name : Name} {publicData : ℕ} {ownerKey activeKey : PublicKey}
    {payRate : ℕ} {metaData : Option ℕ}
    (h : s.registerAccount crypto name publicData ownerKey activeKey payRate metaData = .ok s') :
    ∃ (last : ℤ) (r : AccountRecord), s.currentState.lastAccountId = .ok last ∧
      r.id = last + 1 ∧ SameStats {} r.stats ∧ r.stats.payBalance = 0 ∧
      s'.currentState = (s.currentState.setProperty .lastAccountId
        (.int (last + 1))).storeAccountRecord crypto r ∧ ∀ d, s'.net d = s.net d := by
  simp only [registerAccount, ChainInterface.newAccountId, ite_bind, bind_eq_ok, require_eq_ok,
    pure_eq_ok] at h
  obtain ⟨-, -, -, -, s₁, hfee, -, -, -, -, -, -, -, -, ⟨id, c⟩, ⟨last, hlast, hid⟩, r, hr,
    s₂, hpay, rfl⟩ := h
  obtain ⟨rfl, rfl⟩ := Prod.mk.injEq .. ▸ hid
  have hf := requireFee_eq_ok hfee
  have hafter : s₂.currentState = s₁.currentState.setProperty .lastAccountId (.int (last + 1)) ∧
      ∀ d, s₂.net d = s.net d := by
    rw [ite_eq_ok] at hpay
    rcases hpay with ⟨-, hpay⟩ | ⟨-, hpay⟩
    · exact ⟨(requireDelegateFee_eq_ok hpay).currentState,
        fun d => (net_requireDelegateFee hpay d).trans (net_requireFee hfee d)⟩
    · rw [pure_eq_ok] at hpay
      exact hpay ▸ ⟨rfl, fun d => net_requireFee hfee d⟩
  have hr' := setActiveKey_eq_ok hr
  subst hr'
  rw [hf.currentState] at hlast hafter
  refine ⟨last, { id := last + 1, name, publicData, ownerKey, metaData
                  registrationDate := s.currentState.now
                  lastUpdate := s.currentState.now
                  activeKeyHistory := (∅ : Table ℕ PublicKey).insert s.currentState.now activeKey
                  delegateInfo := if payRate ≤ 100 then some { payRate } else none },
    hlast, rfl, ?_, ?_, ?_, hafter.2⟩
  · rw [AccountRecord.stats]
    split <;> exact ⟨rfl, rfl, rfl⟩
  · rw [AccountRecord.stats]
    split <;> rfl
  · change s₂.currentState.storeAccountRecord crypto _ = _
    rw [hafter.1]

theorem registerAccount_tallied (hp : s.currentState.IsPending)
    (hc : s.currentState.flat.Countable crypto) {name : Name} {publicData : ℕ}
    {ownerKey activeKey : PublicKey} {payRate : ℕ} {metaData : Option ℕ}
    (h : s.registerAccount crypto name publicData ownerKey activeKey payRate metaData = .ok s') :
    Tallied s s' ∧ s'.currentState.flat.SlatesKnown := by
  obtain ⟨last, r, hlast, hid, hsame, hpay, hstate, hnet⟩ := registerAccount_stats h
  have hpending := (ChainInterface.sameBelow_write crypto s.currentState
    (.property .lastAccountId (.int (last + 1)))).pending hp
  rw [ChainInterface.setProperty_eq crypto hp, ChainInterface.storeAccountRecord_eq hpending]
    at hstate
  have hflat : s'.currentState.flat = (s.currentState.flat.write crypto
      (.property .lastAccountId (.int (last + 1)))).write crypto (.account r) := by
    rw [hstate, ChainInterface.flat_write hpending, ChainInterface.flat_write hp]
  have hold : s.currentState.flat.stats r.id = {} := by
    rw [Tables.stats, hid, accounts_fresh hc.given (ChainInterface.lastAccountId_eq_ok.1 hlast),
      Option.elim_none]
  refine ⟨tallied_account (by rw [hflat]; rfl) (by rw [hflat]; rfl) (by rw [hflat]; rfl)
    (hold ▸ hsame) fun d _ => ?_, by rw [hflat]; exact hc.known⟩
  rw [hold, hpay, hnet, sub_self, ite_self, add_zero]

/-- An account is written over, and the votes to be moved follow its pay. -/
theorem tallied_storeAccountRecord (hp : s.currentState.IsPending)
    (hc : s.currentState.flat.Countable crypto) {id : ℤ} {old r : AccountRecord}
    (hold : s.currentState.getAccountRecord id = some old) (hid : r.id = old.id)
    (hstate : s'.currentState = s.currentState.storeAccountRecord crypto r)
    (hsame : SameStats old.stats r.stats)
    (hnet : ∀ d, 0 ≤ d → (s'.net d : Word) = s.net d + if d = r.id then
      (r.stats.payBalance - old.stats.payBalance : Word) else 0) :
    Tallied s s' ∧ s'.currentState.flat.SlatesKnown := by
  rw [ChainInterface.storeAccountRecord_eq hp] at hstate
  have hflat : s'.currentState.flat = s.currentState.flat.write crypto (.account r) := by
    rw [hstate, ChainInterface.flat_write hp]
  rw [ChainInterface.getAccountRecord_eq] at hold
  have hstats : s.currentState.flat.stats r.id = old.stats := by
    rw [Tables.stats, hid, hc.keyed.accounts id old hold, hold, Option.elim_some]
  refine ⟨tallied_account (by rw [hflat]; rfl) (by rw [hflat]; rfl) (by rw [hflat]; rfl)
    (hstats ▸ hsame) (hstats ▸ hnet), by rw [hflat]; exact hc.known⟩

theorem changeActiveKey_delegateInfo {r r' : AccountRecord} {activeKey : Option PublicKey}
    (h : s.changeActiveKey crypto r activeKey = .ok r') : r'.delegateInfo = r.delegateInfo := by
  rw [changeActiveKey] at h
  split at h
  · simp only [bind_eq_ok] at h
    obtain ⟨-, -, -, -, h⟩ := h
    rw [setActiveKey_eq_ok h]
  · simp only [bind_eq_ok, pure_eq_ok] at h
    obtain ⟨-, -, rfl⟩ := h
    rfl

theorem setUpdatedKey_delegateInfo {r r' : AccountRecord} {activeKey : Option PublicKey}
    (h : s.setUpdatedKey crypto r activeKey = .ok r') : r'.delegateInfo = r.delegateInfo := by
  unfold setUpdatedKey at h
  split at h
  · simp only [bind_eq_ok, pure_eq_ok] at h
    obtain ⟨r₁, hr₁, -, -, rfl⟩ := h
    rw [setActiveKey_eq_ok hr₁]
  · rw [pure_eq_ok] at h
    rw [h]

/-- A delegate keeps its votes, blocks and pay when its pay rate changes, and an account that
becomes a delegate has none. -/
theorem changePayRate_stats {r r' : AccountRecord} {payRate : ℕ}
    (h : s.changePayRate r payRate = .ok (s', r')) :
    SameStats r.stats r'.stats ∧ r'.stats.payBalance = r.stats.payBalance ∧
      ∀ d, s'.net d = s.net d := by
  rw [changePayRate] at h
  split at h
  · rename_i info hinfo
    simp only [bind_eq_ok, pure_eq_ok, Prod.mk.injEq] at h
    obtain ⟨-, -, -, -, rfl, rfl⟩ := h
    rw [AccountRecord.stats, AccountRecord.stats, hinfo]
    exact ⟨⟨rfl, rfl, rfl⟩, rfl, fun _ => rfl⟩
  · rename_i hnone
    rw [ite_eq_ok] at h
    rcases h with ⟨-, h⟩ | ⟨-, h⟩
    · simp only [bind_eq_ok, pure_eq_ok, Prod.mk.injEq] at h
      obtain ⟨s₁, hfee, rfl, rfl⟩ := h
      rw [AccountRecord.stats, AccountRecord.stats, hnone]
      exact ⟨⟨rfl, rfl, rfl⟩, rfl, net_requireDelegateFee hfee⟩
    · simp only [pure_eq_ok, Prod.mk.injEq] at h
      obtain ⟨rfl, rfl⟩ := h
      exact ⟨⟨rfl, rfl, rfl⟩, rfl, fun _ => rfl⟩

theorem updateAccount_tallied (hp : s.currentState.IsPending)
    (hc : s.currentState.flat.Countable crypto) {accountId : ℤ} {publicData : Option ℕ}
    {activeKey : Option PublicKey} {payRate : ℕ}
    (h : s.updateAccount crypto accountId publicData activeKey payRate = .ok s') :
    Tallied s s' ∧ s'.currentState.flat.SlatesKnown := by
  simp only [updateAccount, bind_eq_ok, orThrow_eq_ok, pure_eq_ok] at h
  obtain ⟨r, hr, -, -, r₁, hkey, ⟨s₁, r₂⟩, hpay, r₃, hset, rfl⟩ := h
  have hstate := (changePayRate_eq_ok activeKey hpay).1.currentState
  have hid : r₃.id = r.id := by
    rw [(setUpdatedKey_eq_ok hset).identity.id, (changePayRate_eq_ok activeKey hpay).2.identity.id,
      (changeActiveKey_eq_ok hkey).identity.id]
  obtain ⟨hsame, hbalance, hnet⟩ := changePayRate_stats hpay
  have hfirst : ({ r₁ with publicData := publicData.getD r₁.publicData } : AccountRecord).stats =
      r.stats := by
    rw [AccountRecord.stats, AccountRecord.stats, changeActiveKey_delegateInfo hkey]
  have hlast : r₃.stats = r₂.stats := by
    rw [AccountRecord.stats, AccountRecord.stats, setUpdatedKey_delegateInfo hset]
  rw [hfirst] at hsame hbalance
  refine tallied_storeAccountRecord (r := r₃) hp hc hr hid ?_ (hlast ▸ hsame) fun d _ => ?_
  · change s₁.currentState.storeAccountRecord crypto r₃ = _
    rw [hstate]
  · change (s₁.net d : Word) = _
    rw [hlast, hbalance, hnet, sub_self, ite_self, add_zero]

theorem withdrawPay_tallied (hp : s.currentState.IsPending)
    (hc : s.currentState.flat.Countable crypto) {amount accountId : ℤ}
    (h : s.withdrawPay crypto amount accountId = .ok s') :
    Tallied s s' ∧ s'.currentState.flat.SlatesKnown := by
  simp only [withdrawPay, bind_eq_ok, require_eq_ok, orThrow_eq_ok] at h
  obtain ⟨-, -, r, hr, -, -, info, hinfo, -, -, -, -, h⟩ := h
  have hid : r.id = |accountId| := by
    rw [ChainInterface.getAccountRecord_eq] at hr
    exact hc.keyed.accounts _ r hr
  have hold : r.stats = info := by rw [AccountRecord.stats, hinfo, Option.getD_some]
  refine tallied_storeAccountRecord (r := { r with
    delegateInfo := some { info with payBalance := wrap64 (info.payBalance - amount) } })
    hp hc hr rfl (addBalance_eq_ok h).currentState ?_ fun d _ => ?_
  · rw [hold]
    exact ⟨rfl, rfl, rfl⟩
  · have hpaid : (AccountRecord.stats { r with delegateInfo := some { info with
        payBalance := wrap64 (info.payBalance - amount) } }).payBalance =
          wrap64 (info.payBalance - amount) := rfl
    rw [net_addBalance h, hpaid, hold, wrap64_cast]
    change ((s.addNetVotes |accountId| (-amount)).net d : Word) = _
    rw [net_addNetVotes, hid, Int.cast_sub, sub_sub_cancel_left, Int.cast_neg]

/-! ### Operations that have no votes -/

/-- An evaluation aside from the votes. -/
structure Aside (s s' : EvaluationState) : Prop where
  pending : s'.currentState.IsPending
  votes : s.currentState.flat.SameVotes s'.currentState.flat
  net : ∀ d, s'.net d = s.net d

theorem Aside.trans {s₁ s₂ s₃ : EvaluationState} (h : Aside s₁ s₂) (h' : Aside s₂ s₃) :
    Aside s₁ s₃ :=
  ⟨h'.pending, ⟨h'.votes.balances.trans h.votes.balances, h'.votes.accounts.trans h.votes.accounts,
    h'.votes.slates.trans h.votes.slates⟩, fun d => (h'.net d).trans (h.net d)⟩

theorem Aside.tallied (h : Aside s s') (hknown : s.currentState.flat.SlatesKnown) :
    Tallied s s' ∧ s'.currentState.flat.SlatesKnown :=
  ⟨tallied_same h.votes h.net, h.votes.known hknown⟩

theorem aside_same (hp : s.currentState.IsPending) (hstate : s'.currentState = s.currentState)
    (hnet : ∀ d, s'.net d = s.net d) : Aside s s' :=
  ⟨hstate ▸ hp, by rw [hstate]; exact ⟨rfl, rfl, rfl⟩, hnet⟩

theorem aside_write (hp : s.currentState.IsPending) {w : Write} (hw : w.ofVotes = false)
    (hstate : s'.currentState = s.currentState.write crypto w)
    (hnet : ∀ d, s'.net d = s.net d) : Aside s s' := by
  refine ⟨?_, ?_, hnet⟩
  · rw [hstate]
    exact (ChainInterface.sameBelow_write ..).pending hp
  · rw [hstate, ChainInterface.flat_write hp]
    exact Tables.sameVotes_write hw

theorem aside_storeAssetRecord (hp : s.currentState.IsPending) (r : AssetRecord) :
    Aside s (s.withState (s.currentState.storeAssetRecord r)) :=
  aside_write (w := .asset r) hp rfl (ChainInterface.storeAssetRecord_eq .transparent hp _)
    fun _ => rfl

theorem aside_subBalance {id : BalanceId} {x : Asset} (hp : s.currentState.IsPending)
    (h : s.subBalance id x = .ok s') : Aside s s' :=
  aside_same hp (subBalance_eq_ok h).currentState (net_subBalance h)

theorem aside_addBalance {x : Asset} (hp : s.currentState.IsPending)
    (h : s.addBalance x = .ok s') : Aside s s' :=
  aside_same hp (addBalance_eq_ok h).currentState (net_addBalance h)

theorem aside_moveOrderFunds {current : Option OrderRecord} {x : Asset}
    (hp : s.currentState.IsPending) (h : s.moveOrderFunds current x = .ok s') : Aside s s' := by
  simp only [moveOrderFunds, bind_eq_ok, require_eq_ok] at h
  obtain ⟨-, -, h⟩ := h
  rw [ite_eq_ok] at h
  rcases h with ⟨-, h⟩ | ⟨-, h⟩
  · simp only [bind_eq_ok, orThrow_eq_ok, require_eq_ok] at h
    obtain ⟨r, -, -, -, h⟩ := h
    exact aside_addBalance hp h
  · exact aside_subBalance hp h

theorem aside_burn {amount : Asset} {accountId : ℤ} {message : List Char}
    (hp : s.currentState.IsPending) (h : s.burn amount accountId message = .ok s') :
    Aside s s' := by
  simp only [burn, bind_eq_ok, require_eq_ok, orThrow_eq_ok, pure_eq_ok] at h
  obtain ⟨-, -, -, -, asset, -, -, -, s₁, hsub, -, -, rfl⟩ := h
  have hasset := aside_storeAssetRecord hp { asset with
    currentShareSupply := wrap64 (asset.currentShareSupply - amount.amount) }
  exact hasset.trans (aside_subBalance hasset.pending hsub)

theorem aside_bid {amount : ℤ} {key : MarketIndexKey} (hp : s.currentState.IsPending)
    (h : s.bid amount key = .ok s') : Aside s s' := by
  obtain ⟨s₁, r, hmove, -, rfl⟩ := bid_eq_ok h
  have hfunds := aside_moveOrderFunds hp hmove
  exact hfunds.trans (aside_write (w := .bid key r) hfunds.pending rfl
    (ChainInterface.storeBidRecord_eq .transparent hfunds.pending _ _) fun _ => rfl)

theorem aside_ask {amount : ℤ} {key : MarketIndexKey} (hp : s.currentState.IsPending)
    (h : s.ask amount key = .ok s') : Aside s s' := by
  obtain ⟨s₁, r, hmove, -, -, rfl⟩ := ask_eq_ok h
  have hfunds := aside_moveOrderFunds hp hmove
  exact hfunds.trans (aside_write (w := .ask key r) hfunds.pending rfl
    (ChainInterface.storeAskRecord_eq .transparent hfunds.pending _ _) fun _ => rfl)

theorem aside_short {amount : ℤ} {key : MarketIndexKey} {limit : Option Price}
    (hp : s.currentState.IsPending) (h : s.short amount key limit = .ok s') : Aside s s' := by
  obtain ⟨s₁, r, hmove, -, -, -, -, rfl⟩ := short_eq_ok h
  have hfunds := aside_moveOrderFunds hp hmove
  exact hfunds.trans (aside_write (w := .short key r) hfunds.pending rfl
    (ChainInterface.storeShortRecord_eq .transparent hfunds.pending _ _) fun _ => rfl)

theorem aside_storeCollateralRecord (hp : s.currentState.IsPending) (key : MarketIndexKey)
    (r : CollateralRecord) :
    Aside s (s.withState (s.currentState.storeCollateralRecord key r)) :=
  aside_write (w := .collateral key r) hp rfl
    (ChainInterface.storeCollateralRecord_eq .transparent hp _ _) fun _ => rfl

theorem aside_cover {amount : ℤ} {key : MarketIndexKey} {newCoverPrice : Option Price}
    (hp : s.currentState.IsPending) (h : s.cover crypto amount key newCoverPrice = .ok s') :
    Aside s s' := by
  simp only [cover, bind_eq_ok, require_eq_ok, orThrow_eq_ok] at h
  obtain ⟨-, -, -, -, -, -, -, -, s₁, hsub, position, -, asset, -, owed, -, debt, -,
    ⟨principle, interest⟩, -, -, -, -, -, -, -, -, -, h⟩ := h
  have hpaid := aside_subBalance hp hsub
  have hasset := hpaid.trans (aside_storeAssetRecord hpaid.pending { asset with
    currentShareSupply := wrap64 (asset.currentShareSupply - principle.amount)
    collectedFees := wrap64 (asset.collectedFees + interest.amount) })
  have hcleared := hasset.trans (aside_storeCollateralRecord hasset.pending key {})
  rw [ite_eq_ok] at h
  rcases h with ⟨-, h⟩ | ⟨-, h⟩
  · simp only [bind_eq_ok, pure_eq_ok] at h
    obtain ⟨callPrice, -, rfl⟩ := h
    exact hcleared.trans (aside_storeCollateralRecord hcleared.pending _ _)
  · exact hcleared.trans (aside_addBalance hcleared.pending h)

theorem aside_addCollateral {amount : ℤ} {key : MarketIndexKey} (hp : s.currentState.IsPending)
    (h : s.addCollateral amount key = .ok s') : Aside s s' := by
  simp only [addCollateral, bind_eq_ok, require_eq_ok, orThrow_eq_ok, pure_eq_ok] at h
  obtain ⟨-, -, -, -, -, -, s₁, hsub, position, -, price, -, rfl⟩ := h
  have hpaid := aside_subBalance hp hsub
  have hcleared := hpaid.trans (aside_storeCollateralRecord hpaid.pending key {})
  exact hcleared.trans (aside_storeCollateralRecord hcleared.pending _ _)

theorem aside_updateFeed {feed : FeedIndex} {value : FeedValue} (hp : s.currentState.IsPending)
    (h : s.updateFeed crypto feed value = .ok s') : Aside s s' := by
  obtain ⟨r, c, -, -, hc, rfl⟩ := updateFeed_eq_ok h
  rw [ChainInterface.setFeed_eq crypto hp] at hc
  have hfeed : Aside s (s.withState (s.currentState.write crypto (.feed r))) :=
    aside_write hp rfl rfl fun _ => rfl
  exact hfeed.trans (aside_write (w := .dirty _) hfeed.pending rfl
    (ChainInterface.setMarketDirty_eq_ok crypto hc) fun _ => rfl)

/-! ### The operations -/

theorem defineDelegateSlate_tallied (hp : s.currentState.IsPending)
    (hc : s.currentState.flat.Countable crypto) {slate : List ℤ}
    (h : s.defineDelegateSlate crypto slate = .ok s') :
    Tallied s s' ∧ s'.currentState.flat.SlatesKnown := by
  rcases defineDelegateSlate_eq_ok h with rfl | ⟨hnone, rfl⟩
  · exact ⟨.refl _, hc.known⟩
  · rw [ChainInterface.getDelegateSlate_eq] at hnone
    have hflat : (s.withState (s.currentState.storeDelegateSlate (crypto.slateId slate)
        slate)).currentState.flat =
          s.currentState.flat.write crypto (.slate (crypto.slateId slate) slate) := by
      change (s.currentState.storeDelegateSlate (crypto.slateId slate) slate).flat = _
      rw [ChainInterface.storeDelegateSlate_eq crypto hp, ChainInterface.flat_write hp]
    refine ⟨⟨fun d => by rw [hflat]; rfl, ⟨fun d => by rw [hflat]; rfl,
      fun d => by rw [hflat]; rfl⟩, fun d _ => ?_⟩, ?_⟩
    · rw [hflat, Tables.votesDue, Tables.votesDue, Tables.votesCast_slate hc.known hnone]
      rfl
    · rw [hflat]
      exact hc.known.slate _ _

/-- **Step.** Every operation counts the votes it moves. -/
theorem evaluateOperation_tallied (hideal : Function.Injective crypto.conditionAddress)
    (hp : s.currentState.IsPending) (hc : s.currentState.flat.Countable crypto) {op : Operation}
    (h : s.evaluateOperation crypto op = .ok s') :
    Tallied s s' ∧ s'.currentState.flat.SlatesKnown := by
  cases op with
  | withdraw => exact withdraw_tallied hp hc h
  | deposit => exact deposit_tallied hideal hp hc h
  | claim => exact claim_tallied hp hc h
  | burn => exact (aside_burn hp h).tallied hc.known
  | registerAccount => exact registerAccount_tallied hp hc h
  | updateAccount => exact updateAccount_tallied hp hc h
  | withdrawPay => exact withdrawPay_tallied hp hc h
  | defineDelegateSlate => exact defineDelegateSlate_tallied hp hc h
  | bid => exact (aside_bid hp h).tallied hc.known
  | ask => exact (aside_ask hp h).tallied hc.known
  | short => exact (aside_short hp h).tallied hc.known
  | cover => exact (aside_cover hp h).tallied hc.known
  | addCollateral => exact (aside_addCollateral hp h).tallied hc.known
  | updateFeed => exact (aside_updateFeed hp h).tallied hc.known
  | withdrawAll | removeCollateral | linkAccount | releaseEscrow | unknown => cases h

/-- **Step.** One write of an evaluation. -/
theorem based_write {ops : List Operation} {c : ChainInterface} {w : Write}
    (h : c.flat.Based crypto) (hw : EvaluationWrite crypto ops c w) :
    (c.flat.write crypto w).Based crypto := by
  refine ⟨h.keyed.write w, ?_, ?_, ?_⟩
  · cases hw with
    | @slate slate hnone => exact h.named.slate rfl
    | _ => exact h.named
  · cases hw with
    | asset hold hsame => exact h.base.asset h.keyed hold hsame.id hsame.issuerAccountId
    | _ => exact h.base
  · cases hw with
    | account hold hsame hkeys => exact h.given.account h.keyed hold hsame.id
    | newAccount hop hlast hid hname =>
      exact h.given.newAccount (ChainInterface.lastAccountId_eq_ok.1 hlast) hid
    | _ => exact h.given

/-- What the writes of an evaluation keep of `Countable`, when the slates are known at the
end. -/
theorem countable_writes {ops : List Operation} {c c' : ChainInterface} (hp : c.IsPending)
    (hc : c.flat.Countable crypto)
    (hw : ChainInterface.Writes crypto (EvaluationWrite crypto ops) c c')
    (hknown : c'.flat.SlatesKnown) : c'.flat.Countable crypto :=
  ⟨hw.invariant (I := fun c => c.flat.Based crypto)
    (fun _ w hp hc hw => ChainInterface.flat_write hp w ▸ based_write hc hw) hp hc.toBased, hknown⟩

/-- **Run.** The operations of a transaction count the votes they move. -/
theorem evaluateOperations_tallied (hideal : Function.Injective crypto.conditionAddress)
    (hp : s.currentState.IsPending) (hc : s.currentState.flat.Countable crypto)
    {ops : List Operation} (h : s.evaluateOperations crypto ops = .ok s') :
    s'.currentState.IsPending ∧ s'.currentState.flat.Countable crypto ∧ Tallied s s' := by
  refine foldlM_induction (P := fun s' : EvaluationState => s'.currentState.IsPending ∧
    s'.currentState.flat.Countable crypto ∧ Tallied s s') ?_ ⟨hp, hc, .refl s⟩ h
  rintro s₁ op s₂ - ⟨hp₁, hc₁, ht₁⟩ hs₂
  obtain ⟨ht₂, hknown⟩ := evaluateOperation_tallied hideal hp₁ hc₁ hs₂
  have hw := evaluateOperation_writes hp₁ hs₂
  exact ⟨hw.isPending hp₁, countable_writes hp₁ hc₁ hw hknown, ht₁.trans ht₂⟩

/-! ### Fees and the move of the votes -/

theorem aside_addAltFee {fee : ℤ × ℤ} (hp : s.currentState.IsPending)
    (h : s.addAltFee fee = .ok s') : Aside s s' := by
  refine aside_same hp (addAltFee_same h).currentState fun d => ?_
  simp only [addAltFee, bind_eq_ok, ite_eq_ok, require_eq_ok, pure_eq_ok] at h
  obtain ⟨-, -, ⟨-, rfl⟩ | ⟨-, r, -, ⟨-, price, -, h⟩ | ⟨-, rfl⟩⟩⟩ := h
  · rfl
  · cases price with
    | none =>
      rw [pure_eq_ok] at h
      rw [h]
    | some medianPrice =>
      simp only [bind_eq_ok, pure_eq_ok] at h
      obtain ⟨paid, -, altFeesPaid, -, rfl⟩ := h
      rfl
  · rfl

theorem aside_collectFee {fee : ℤ × ℤ} (hp : s.currentState.IsPending)
    (h : s.collectFee fee = .ok s') : Aside s s' := by
  obtain ⟨-, ⟨-, rfl⟩ | ⟨r, -, -, rfl⟩⟩ := collectFee_eq_ok h
  · exact aside_same hp rfl fun _ => rfl
  · exact aside_storeAssetRecord hp _

/-- The fees have no votes. -/
theorem aside_postEvaluate (hp : s.currentState.IsPending) (h : s.postEvaluate = .ok s') :
    Aside s s' := by
  simp only [postEvaluate, bind_eq_ok] at h
  obtain ⟨s₁, halt, h⟩ := h
  have hstart : Aside s { s with balance := s.balance.insert 0 (s.balanceOf 0) } :=
    aside_same hp rfl fun _ => rfl
  have hfirst : Aside s s₁ := foldlM_induction (P := fun s' : EvaluationState => Aside s s')
    (fun _ _ _ _ hs₁ hs₂ => hs₁.trans (aside_addAltFee hs₁.pending hs₂)) hstart halt
  exact foldlM_induction (P := fun s' : EvaluationState => Aside s s')
    (fun _ _ _ _ hs₁ hs₂ => hs₁.trans (aside_collectFee hs₁.pending hs₂)) hfirst h

/-- The votes of the delegates are moved by a list of changes, and nothing else is. -/
structure Voted (changes : List (ℤ × ℤ)) (t t' : Tables) : Prop where
  balances : t'.balances = t.balances
  slates : t'.slates = t.slates
  payBalance : ∀ d, (t'.stats d).payBalance = (t.stats d).payBalance
  blocks : t.SameBlocks t'
  votesFor : ∀ d, ((t'.stats d).votesFor : Word) = (t.stats d).votesFor +
    ((changes.map fun v => if v.1 = d then v.2 else 0).sum : ℤ)
  range : ∀ d, IsInt64 (t.stats d).votesFor → IsInt64 (t'.stats d).votesFor

theorem Voted.nil (t : Tables) : Voted [] t t :=
  ⟨rfl, rfl, fun _ => rfl, .refl t, fun _ => by
    rw [List.map_nil, List.sum_nil, Int.cast_zero, add_zero], fun _ => id⟩

theorem Voted.cons {v : ℤ × ℤ} {changes : List (ℤ × ℤ)} {t₁ t₂ t₃ : Tables}
    (h : Voted [v] t₁ t₂) (h' : Voted changes t₂ t₃) : Voted (v :: changes) t₁ t₃ := by
  refine ⟨h'.balances.trans h.balances, h'.slates.trans h.slates,
    fun d => (h'.payBalance d).trans (h.payBalance d), h.blocks.trans h'.blocks, fun d => ?_,
    fun d hd => h'.range d (h.range d hd)⟩
  rw [h'.votesFor, h.votesFor, List.map_cons, List.map_cons, List.map_nil, List.sum_cons,
    List.sum_cons, List.sum_nil, add_zero, Int.cast_add, add_assoc]

/-- **Step.** One delegate gets its change. -/
theorem updateDelegateVote_voted (hp : s.currentState.IsPending)
    (hkeyed : s.currentState.flat.Keyed crypto) {v : ℤ × ℤ}
    (h : s.updateDelegateVote crypto v = .ok s') :
    s'.currentState.IsPending ∧ s'.currentState.flat.Keyed crypto ∧
      Voted [v] s.currentState.flat s'.currentState.flat := by
  simp only [updateDelegateVote, AccountRecord.adjustVotesFor, bind_eq_ok, orThrow_eq_ok,
    pure_eq_ok] at h
  obtain ⟨r, hr, r', ⟨info, hinfo, rfl⟩, rfl⟩ := h
  rw [ChainInterface.getAccountRecord_eq] at hr
  have hid : r.id = v.1 := hkeyed.accounts v.1 r hr
  have hpending := (ChainInterface.sameBelow_write crypto s.currentState
    (.account { r with
      delegateInfo := some { info with votesFor := wrap64 (info.votesFor + v.2) } })).pending hp
  have hold : s.currentState.flat.stats v.1 = info := by
    rw [Tables.stats, hr, Option.elim_some, AccountRecord.stats, hinfo, Option.getD_some]
  have hstats (d : ℤ) : (s.currentState.flat.write crypto (.account { r with
      delegateInfo := some { info with votesFor := wrap64 (info.votesFor + v.2) } })).stats d =
        if d = v.1 then { info with votesFor := wrap64 (info.votesFor + v.2) }
        else s.currentState.flat.stats d := by
    rw [Tables.stats_account, hid]
    rfl
  change (s.currentState.storeAccountRecord crypto _).IsPending ∧
    (s.currentState.storeAccountRecord crypto _).flat.Keyed crypto ∧
    Voted [v] _ (s.currentState.storeAccountRecord crypto _).flat
  rw [ChainInterface.storeAccountRecord_eq hp, ChainInterface.flat_write hp]
  refine ⟨hpending, hkeyed.write _, rfl, rfl, fun d => ?_, ⟨fun d => ?_, fun d => ?_⟩, fun d => ?_,
    fun d hrange => ?_⟩
  · rw [hstats]
    split
    · rename_i hd
      rw [hd, hold]
    · rfl
  · rw [hstats]
    split
    · rename_i hd
      rw [hd, hold]
    · rfl
  · rw [hstats]
    split
    · rename_i hd
      rw [hd, hold]
    · rfl
  · rw [hstats, List.map_cons, List.map_nil, List.sum_cons, List.sum_nil, add_zero]
    split
    · rename_i hd
      rw [if_pos hd.symm, hd, hold, wrap64_cast, Int.cast_add]
    · rename_i hd
      rw [if_neg (Ne.symm hd), Int.cast_zero, add_zero]
  · rw [hstats]
    split
    · exact isInt64_wrap64 _
    · exact hrange

/-- **Run.** The delegates get the votes that were collected. -/
theorem updateDelegateVotes_voted (hp : s.currentState.IsPending)
    (hkeyed : s.currentState.flat.Keyed crypto) {changes : List (ℤ × ℤ)}
    (h : changes.foldlM (updateDelegateVote crypto) s = .ok s') :
    Voted changes s.currentState.flat s'.currentState.flat := by
  induction changes generalizing s with
  | nil =>
    cases h
    exact .nil _
  | cons v changes ih =>
    rw [List.foldlM_cons, bind_eq_ok] at h
    obtain ⟨s₁, hs₁, h⟩ := h
    obtain ⟨hp₁, hkeyed₁, hvoted⟩ := updateDelegateVote_voted hp hkeyed hs₁
    exact hvoted.cons (ih hp₁ hkeyed₁ h)

/-! ### The transaction -/

/-- **A transaction keeps the votes of every delegate as far from what they should be as they
were, and leaves the blocks of all delegates.** -/
theorem evaluate_votesKept (hideal : Function.Injective crypto.conditionAddress)
    {c : ChainInterface} (hp : c.IsPending) (hc : c.flat.Countable crypto) {chainId : Digest}
    {trx : SignedTransaction} {skip canonical : Bool}
    (h : evaluate crypto c chainId trx skip canonical = .ok s') :
    s'.currentState.flat.Countable crypto ∧ c.flat.VotesKept s'.currentState.flat ∧
      c.flat.SameBlocks s'.currentState.flat := by
  obtain ⟨signedKeys, s₁, s₂, -, -, hops, hpost, hvotes⟩ := evaluate_eq_ok h
  obtain ⟨hp₁, hc₁, htallied⟩ := evaluateOperations_tallied hideal hp hc hops
  have haside := aside_postEvaluate hp₁ hpost
  have hkeyed₂ := (postEvaluate_writes crypto trx.operations hp₁ hpost).keyed hp₁ hc₁.keyed
  have hvoted := updateDelegateVotes_voted haside.pending hkeyed₂ hvotes
  have htallied₂ := htallied.trans (tallied_same haside.votes haside.net)
  have hknown : s'.currentState.flat.SlatesKnown := by
    have hknown₂ := haside.votes.known hc₁.known
    intro id r hr
    rw [hvoted.balances] at hr
    rw [hvoted.slates]
    exact hknown₂ id r hr
  refine ⟨countable_writes hp hc (evaluate_writes hp h) hknown, ⟨fun d hd => ?_, fun d hrange => ?_⟩,
    htallied₂.blocks.trans hvoted.blocks⟩
  · have hsum : ((s₂.netDelegateVotes.toList.map fun v => if v.1 = d then v.2 else 0).sum : ℤ) =
        s₂.net d := by
      have hsingle := Table.sum_single id s₂.netDelegateVotes d
      rw [net]
      cases hget : s₂.netDelegateVotes[d]? with
      | none => rwa [hget] at hsingle
      | some n => rwa [hget] at hsingle
    have hnet := htallied₂.net d hd
    have hzero : (initial c chainId trx skip signedKeys).net d = 0 := rfl
    have hdue : s'.currentState.flat.votesDue d = s₂.currentState.flat.votesDue d := by
      rw [Tables.votesDue, Tables.votesDue, Tables.votesCast, Tables.votesCast, hvoted.balances,
        hvoted.slates, hvoted.payBalance]
    rw [hzero] at hnet
    rw [Tables.votesGap, Tables.votesGap, hvoted.votesFor, hsum, htallied₂.votesFor, hdue]
    rw [Int.cast_zero, zero_add] at hnet
    change ((c.flat.stats d).votesFor + s₂.net d - s₂.currentState.flat.votesDue d : Word) =
      (c.flat.stats d).votesFor - c.flat.votesDue d
    change (s₂.net d + c.flat.votesDue d : Word) = _ at hnet
    linear_combination hnet
  · refine hvoted.range d ?_
    rw [htallied₂.votesFor]
    exact hrange

end EvaluationState

end LarkX
