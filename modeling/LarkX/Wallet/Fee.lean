import LarkX.Wallet.Builder

/-!
# Paying the fee

The loop of `pay_fee` eats every balance in the asset of the fee that does not cover it, also a
debit: eating a debit makes the fee higher, and forgets what the account owes. So the fee is held
back from credits exactly if credits that cover it come before the first debit (`Covers`).
-/

namespace LarkX

open Std (ExtTreeMap)

open TransactionBuilder

/-! ### The fee that is chosen -/

/-- What a price makes of an amount that is not negative. -/
theorem Asset.mulPrice_nonneg {a r : Asset} {p : Price} (ha : 0 ≤ a.amount)
    (h : a.mulPrice p = .ok r) : 0 ≤ r.amount ∧ IsInt64 r.amount := by
  have hint : ∀ x y : ℤ, 0 ≤ x → bigintToInt64 x = .ok y → 0 ≤ y ∧ IsInt64 y := by
    intro x y hx hy
    obtain ⟨hlt, rfl⟩ := bigintToInt64_eq_ok.1 hy
    refine ⟨hx, ?_⟩
    unfold IsInt64 int64Min int64Max
    omega
  have hratio : (0 : ℤ) ≤ a.amount * p.ratio := by positivity
  have hprecision : (0 : ℤ) ≤ a.amount * btsPricePrecision := by positivity
  unfold mulPrice at h
  split at h
  · simp only [bind_eq_ok, require_eq_ok, pure_eq_ok] at h
    obtain ⟨-, -, amount, hamount, rfl⟩ := h
    exact hint _ _ (Int.tdiv_nonneg hratio (by positivity)) hamount
  · split at h
    · simp only [bind_eq_ok, require_eq_ok, pure_eq_ok] at h
      obtain ⟨-, -, amount, hamount, rfl⟩ := h
      exact hint _ _ (Int.tdiv_nonneg hprecision (by positivity)) hamount
    · cases h

namespace BuilderWallet

variable {w : BuilderWallet} {fee : Asset} {assetId : ℤ}

/-- A fee is an amount that is not negative. -/
theorem getTransactionFee_nonneg (h : w.getTransactionFee assetId = .ok fee) :
    0 ≤ fee.amount ∧ IsInt64 fee.amount := by
  set xtsFee : Asset :=
    w.defaultTransactionPriorityFee.elim ⟨btsWalletDefaultTransactionFee, 0⟩ (·.1) with hxts
  have hpriority : 0 ≤ xtsFee.amount ∧ IsInt64 xtsFee.amount := by
    rw [hxts]
    cases w.defaultTransactionPriorityFee with
    | none => exact ⟨by decide, by decide⟩
    | some fee => exact ⟨fee.2.1, fee.2.2.1⟩
  unfold getTransactionFee at h
  rw [← hxts] at h
  split at h
  · exact Except.ok.inj h ▸ hpriority
  · simp only [bind_eq_ok] at h
    obtain ⟨assetRec, -, h⟩ := h
    split at h
    · simp only [bind_eq_ok] at h
      obtain ⟨price, -, h⟩ := h
      cases price with
      | none => exact Except.ok.inj h ▸ hpriority
      | some price =>
        simp only [bind_eq_ok] at h
        obtain ⟨twice, htwice, thrice, hthrice, h⟩ := h
        have hdouble := (Asset.add_eq_ok htwice).2.2.1
        have htriple := (Asset.add_eq_ok hthrice).2.2.1
        have hpos := hpriority.1
        exact Asset.mulPrice_nonneg (by omega) h
    · exact Except.ok.inj h ▸ hpriority

/-- The fee that is chosen is in an asset of the list, if one is. -/
theorem chooseFee_spec {available : List (ℤ × ℤ)} (h : w.chooseFee available = .ok fee)
    (hasset : fee.assetId ≠ -1) :
    0 ≤ fee.amount ∧ IsInt64 fee.amount ∧ ∃ amount, (fee.assetId, amount) ∈ available := by
  induction available with
  | nil =>
    cases h
    exact absurd rfl hasset
  | cons e rest ih =>
    obtain ⟨assetId, amount⟩ := e
    have hrest : w.chooseFee rest = .ok fee →
        0 ≤ fee.amount ∧ IsInt64 fee.amount ∧
          ∃ amount', (fee.assetId, amount') ∈ (assetId, amount) :: rest := fun h => by
      obtain ⟨hpos, hint, amount', hmem⟩ := ih h
      exact ⟨hpos, hint, amount', List.mem_cons_of_mem _ hmem⟩
    simp only [chooseFee, bind_eq_ok] at h
    obtain ⟨pays, hpays, h⟩ := h
    split at h
    · rename_i hyes
      simp only [bind_eq_ok] at h
      obtain ⟨fee', hfee', h⟩ := h
      split at h
      · cases h
        simp only [assetCanPayFee, hfee', ok_bind, pure_eq_ok] at hpays
        have hid : fee.assetId = assetId := by
          rw [hyes] at hpays
          exact beq_iff_eq.1 hpays
        obtain ⟨hpos, hint⟩ := getTransactionFee_nonneg hfee'
        exact ⟨hpos, hint, amount, hid ▸ List.mem_cons_self⟩
      · exact hrest h
    · exact hrest h

theorem lunchMoney_nonneg {balances : List (ℤ × ℤ)} (h : w.lunchMoney balances = .ok (some fee)) :
    0 ≤ fee.amount ∧ IsInt64 fee.amount := by
  induction balances with
  | nil => cases h
  | cons e rest ih =>
    simp only [lunchMoney, bind_eq_ok] at h
    obtain ⟨fee', hfee', h⟩ := h
    split at h
    · exact ih h
    · cases h
      exact getTransactionFee_nonneg hfee'

theorem bagHolder_nonneg {balances : Table Name (Table ℤ ℤ)} {l : List (BalanceKey × Share)}
    {holder : Address} (h : w.bagHolder balances l = .ok (some (holder, fee))) :
    0 ≤ fee.amount ∧ IsInt64 fee.amount := by
  induction l with
  | nil => cases h
  | cons e rest ih =>
    simp only [bagHolder, bind_eq_ok] at h
    obtain ⟨account, -, h⟩ := h
    split at h
    · exact ih h
    · simp only [bind_eq_ok] at h
      obtain ⟨found, hfound, h⟩ := h
      cases found with
      | none => exact ih h
      | some fee' =>
        cases h
        exact lunchMoney_nonneg hfound

end BuilderWallet

/-- An asset with a positive balance has an account with one. -/
theorem exists_of_mem_allPositiveBalances {t : OutstandingBalances} {assetId amount : ℤ}
    (h : (assetId, amount) ∈ (allPositiveBalances t).toList) :
    ∃ (key : BalanceKey) (share : Share), t[key]? = some share ∧ key.assetId = assetId ∧
      0 < share.1 := by
  have hall : ∀ (assetId amount : ℤ), (allPositiveBalances t)[assetId]? = some amount →
      ∃ (key : BalanceKey) (share : Share), t[key]? = some share ∧ key.assetId = assetId ∧
        0 < share.1 := by
    unfold allPositiveBalances
    refine Table.foldl_induction (P := fun balances : Table ℤ ℤ => ∀ (assetId amount : ℤ),
      balances[assetId]? = some amount → ∃ (key : BalanceKey) (share : Share),
        t[key]? = some share ∧ key.assetId = assetId ∧ 0 < share.1) t (fun balances key share hkey hrest => ?_) ?_
    · split
      · rename_i hpos
        intro assetId amount hmem
        by_cases hsame : assetId = key.assetId
        · exact ⟨key, share, hkey, hsame.symm, hpos⟩
        · rw [Table.getElem?_insert_of_ne _ _ hsame] at hmem
          exact hrest assetId amount hmem
      · exact hrest
    · intro assetId amount hmem
      rw [Table.getElem?_empty'] at hmem
      cases hmem
  exact hall assetId amount (Table.mem_toList.1 h)

/-! ### The loop -/

variable {t : OutstandingBalances} {l : List (BalanceKey × Share)} {assetId required : ℤ}
  {key : BalanceKey} {amount : Share}

/-- The credits of the accounts in an asset, less their debits. -/
def creditIn (assetId : ℤ) (l : List (BalanceKey × Share)) : ℤ :=
  ((l.filter fun e => e.1.assetId = assetId).map fun e => e.2.1).sum

/-- The accounts up to some account have no debit in the asset, and together cover what is
required. -/
def Covers (assetId required : ℤ) (l : List (BalanceKey × Share)) : Prop :=
  ∃ before key amount after, l = before ++ (key, amount) :: after ∧ key.assetId = assetId ∧
    0 ≤ amount.1 ∧ (∀ e ∈ before, e.1.assetId = assetId → 0 ≤ e.2.1) ∧
    required ≤ creditIn assetId before + amount.1

theorem not_covers_nil : ¬Covers assetId required [] := by
  rintro ⟨before, key, amount, after, h, -⟩
  cases before <;> cases h

theorem covers_cons_of_ne (h : key.assetId ≠ assetId) :
    Covers assetId required ((key, amount) :: l) ↔ Covers assetId required l := by
  have hcredit : ∀ before, creditIn assetId ((key, amount) :: before) = creditIn assetId before :=
    fun before => by rw [creditIn, List.filter_cons_of_neg (by simpa using h), creditIn]
  constructor
  · rintro ⟨before, key', amount', after, hl, hkey, hpos, hbefore, hle⟩
    cases before with
    | nil =>
      cases hl
      exact absurd hkey h
    | cons e before =>
      cases hl
      rw [hcredit] at hle
      exact ⟨before, key', amount', after, rfl, hkey, hpos,
        fun e he => hbefore e (List.mem_cons_of_mem _ he), hle⟩
  · rintro ⟨before, key', amount', after, rfl, hkey, hpos, hbefore, hle⟩
    refine ⟨(key, amount) :: before, key', amount', after, rfl, hkey, hpos, fun e he hasset => ?_,
      (hcredit before).symm ▸ hle⟩
    rcases List.mem_cons.1 he with rfl | he
    · exact absurd hasset h
    · exact hbefore e he hasset

theorem covers_cons (h : key.assetId = assetId) :
    Covers assetId required ((key, amount) :: l) ↔
      0 ≤ amount.1 ∧ (required ≤ amount.1 ∨ Covers assetId (required - amount.1) l) := by
  have hcredit : ∀ before, creditIn assetId ((key, amount) :: before) =
      amount.1 + creditIn assetId before := fun before => by
    rw [creditIn, List.filter_cons_of_pos (by simpa using h), creditIn]
    rfl
  constructor
  · rintro ⟨before, key', amount', after, hl, hkey, hpos, hbefore, hle⟩
    cases before with
    | nil =>
      cases hl
      exact ⟨hpos, Or.inl (hle.trans (zero_add _).le)⟩
    | cons e before =>
      cases hl
      rw [hcredit] at hle
      exact ⟨hbefore _ List.mem_cons_self h, Or.inr ⟨before, key', amount', after, rfl, hkey, hpos,
        fun e he => hbefore e (List.mem_cons_of_mem _ he), by linarith⟩⟩
  · rintro ⟨hpos, hle | ⟨before, key', amount', after, rfl, hkey, hpos', hbefore, hle⟩⟩
    · exact ⟨[], key, amount, l, rfl, h, hpos, fun _ he => (List.not_mem_nil he).elim,
        hle.trans (zero_add _).ge⟩
    · refine ⟨(key, amount) :: before, key', amount', after, rfl, hkey, hpos', fun e he hasset => ?_,
        by rw [hcredit]; linarith⟩
      rcases List.mem_cons.1 he with rfl | he
      · exact hpos
      · exact hbefore e he hasset

/-! ### What the loop does -/

theorem balance_insert_same (t : OutstandingBalances) (key : BalanceKey) (amount : Share) :
    balance (t.insert key amount) key = amount.1 := by
  rw [balance, Table.getElem?_insert_same]
  rfl

theorem balance_insert_of_ne {key' : BalanceKey} (h : key' ≠ key) :
    balance (t.insert key amount) key' = balance t key' := by
  rw [balance, Table.getElem?_insert_of_ne _ _ h, balance]

/-- The loop leaves the accounts alone that are not on its list, and the other assets. -/
theorem payFrom_frame (h : key ∉ l.map Prod.fst ∨ key.assetId ≠ assetId) :
    balance (payFrom assetId required l t).1 key = balance t key := by
  induction l generalizing required t with
  | nil => rfl
  | cons e l ih =>
    obtain ⟨key', amount'⟩ := e
    have hrest : key ∉ l.map Prod.fst ∨ key.assetId ≠ assetId :=
      h.imp_left fun hnot hmem => hnot (List.mem_cons_of_mem _ hmem)
    rw [payFrom]
    by_cases hasset : key'.assetId = assetId
    · have hne : key ≠ key' := by
        rintro rfl
        exact h.elim (fun hnot => hnot List.mem_cons_self) fun hne => hne hasset
      rw [if_neg (not_not.2 hasset)]
      split
      · rw [ih hrest, balance_insert_of_ne hne]
      · exact balance_insert_of_ne hne
    · rw [if_pos hasset]
      exact ih hrest

/-- A loop that finds no cover eats every balance in the asset. -/
theorem payFrom_unpaid (hnodup : (l.map Prod.fst).Nodup)
    (h : (payFrom assetId required l t).2 = false) {e : BalanceKey × Share} (he : e ∈ l)
    (hasset : e.1.assetId = assetId) : balance (payFrom assetId required l t).1 e.1 = 0 := by
  induction l generalizing required t with
  | nil => exact (List.not_mem_nil he).elim
  | cons e' l ih =>
    obtain ⟨key', amount'⟩ := e'
    rw [List.map_cons, List.nodup_cons] at hnodup
    rw [payFrom] at h ⊢
    by_cases hasset' : key'.assetId = assetId
    · rw [if_neg (not_not.2 hasset')] at h ⊢
      split at h
      · rename_i hlt
        rw [if_pos hlt]
        rcases List.mem_cons.1 he with rfl | he
        · rw [payFrom_frame (Or.inl hnodup.1), balance_insert_same]
          rfl
        · exact ih hnodup.2 h he
      · cases h
    · rw [if_pos hasset'] at h ⊢
      rcases List.mem_cons.1 he with rfl | he
      · exact absurd hasset hasset'
      · exact ih hnodup.2 h he

/-- The sum of all outstanding balances. -/
def outstandingSum (t : OutstandingBalances) : ℤ :=
  Table.sum (fun _ amount => amount.1) t

theorem outstandingSum_insert (t : OutstandingBalances) (key : BalanceKey) (amount : Share) :
    outstandingSum (t.insert key amount) = outstandingSum t + (amount.1 - balance t key) :=
  Table.sum_insert ..

/-- What is held back of the balances for a fee: its amount, all in its asset, and no account gets
more than it had. -/
structure HeldBack (fee : Asset) (t t' : OutstandingBalances) : Prop where
  other : ∀ key, key.assetId ≠ fee.assetId → balance t' key = balance t key
  le : ∀ key, balance t' key ≤ balance t key
  total : outstandingSum t = outstandingSum t' + fee.amount

/-- It is held back from credits. -/
def FromCredits (t t' : OutstandingBalances) : Prop :=
  ∀ key, balance t' key ≠ balance t key → 0 < balance t key

theorem HeldBack.insert (hasset : key.assetId = assetId) (hle : amount.1 ≤ balance t key) :
    HeldBack ⟨balance t key - amount.1, assetId⟩ t (t.insert key amount) where
  other key' hne := balance_insert_of_ne fun heq => hne (heq ▸ hasset)
  le key' := by
    by_cases heq : key' = key
    · rw [heq, balance_insert_same]
      exact hle
    · exact (balance_insert_of_ne heq).le
  total := by
    rw [outstandingSum_insert]
    ring

theorem HeldBack.trans {t₁ t₂ : OutstandingBalances} {first second : ℤ}
    (h : HeldBack ⟨first, assetId⟩ t t₁) (h' : HeldBack ⟨second, assetId⟩ t₁ t₂) :
    HeldBack ⟨first + second, assetId⟩ t t₂ where
  other key hne := (h'.other key hne).trans (h.other key hne)
  le key := (h'.le key).trans (h.le key)
  total := by
    have htotal := h.total
    have htotal' := h'.total
    dsimp only at htotal htotal' ⊢
    linarith

theorem FromCredits.insert (hpos : amount.1 ≠ balance t key → 0 < balance t key) :
    FromCredits t (t.insert key amount) := by
  intro key' hne
  by_cases heq : key' = key
  · rw [heq, balance_insert_same] at hne
    exact heq ▸ hpos hne
  · exact absurd (balance_insert_of_ne heq) hne

theorem FromCredits.trans {t₁ t₂ : OutstandingBalances} (h : FromCredits t t₁)
    (h' : FromCredits t₁ t₂) : FromCredits t t₂ := by
  intro key hne
  by_cases hsame : balance t₁ key = balance t key
  · rw [← hsame] at hne ⊢
    exact h' key hne
  · exact h key hsame

/-- The entries of a list stay in the table when a key is written that is not on the list. -/
theorem forall_insert (hkey : key ∉ l.map Prod.fst) (ht : ∀ e ∈ l, t[e.1]? = some e.2) :
    ∀ e ∈ l, (t.insert key amount)[e.1]? = some e.2 := fun e he => by
  have hne : e.1 ≠ key := fun heq => hkey (heq ▸ List.mem_map.2 ⟨e, he, rfl⟩)
  rw [Table.getElem?_insert_of_ne _ _ hne]
  exact ht e he

/-- **A fee that is covered** is paid, and held back from credits. -/
theorem payFrom_of_covers (hrequired : 0 ≤ required) (h64 : IsInt64 required)
    (hnodup : (l.map Prod.fst).Nodup) (ht : ∀ e ∈ l, t[e.1]? = some e.2)
    (h : Covers assetId required l) :
    (payFrom assetId required l t).2 = true ∧
      HeldBack ⟨required, assetId⟩ t (payFrom assetId required l t).1 ∧
      FromCredits t (payFrom assetId required l t).1 := by
  induction l generalizing required t with
  | nil => exact absurd h not_covers_nil
  | cons e l ih =>
    obtain ⟨key, amount⟩ := e
    rw [List.map_cons, List.nodup_cons] at hnodup
    have hbalance : balance t key = amount.1 := by
      rw [balance, ht _ List.mem_cons_self]
      rfl
    have hrest : ∀ e ∈ l, t[e.1]? = some e.2 := fun e he => ht e (List.mem_cons_of_mem _ he)
    have hint := amount.2
    rw [payFrom]
    by_cases hasset : key.assetId = assetId
    · obtain ⟨hpos, hcover⟩ := (covers_cons hasset).1 h
      rw [if_neg (not_not.2 hasset)]
      by_cases hlt : amount.1 < required
      · -- the balance is eaten, and the rest of the list covers the rest of the fee
        have hleft : IsInt64 (required - amount.1) := by
          unfold IsInt64 int64Min int64Max at h64 ⊢
          omega
        rw [if_pos hlt, wrap64_eq_self hleft]
        obtain ⟨hpaid, hheld, hfrom⟩ := ih (sub_nonneg.2 hlt.le) hleft hnodup.2
          (forall_insert hnodup.1 hrest) (hcover.resolve_left (not_le.2 hlt))
        have hzero : (Share.ofInt 0).1 ≤ balance t key := hbalance ▸ hpos
        have heaten : FromCredits t (t.insert key (.ofInt 0)) :=
          .insert fun hne => hbalance ▸ hpos.lt_of_ne fun heq => hne (hbalance ▸ heq)
        have hheld' := (HeldBack.insert hasset hzero).trans hheld
        rw [hbalance, show (Share.ofInt 0).1 = 0 from rfl, sub_zero,
          add_sub_cancel] at hheld'
        exact ⟨hpaid, hheld', heaten.trans hfrom⟩
      · -- the balance covers what is left
        have hle := not_lt.1 hlt
        have hleft : (Share.ofInt (amount.1 - required)).1 = amount.1 - required :=
          wrap64_eq_self (by
            unfold IsInt64 int64Min int64Max at hint ⊢
            omega)
        rw [if_neg hlt]
        have hless : (Share.ofInt (amount.1 - required)).1 ≤ balance t key := by
          rw [hleft, hbalance]
          omega
        have hheld := HeldBack.insert hasset hless
        rw [hleft, hbalance, sub_sub_cancel] at hheld
        refine ⟨rfl, hheld, .insert fun hne => ?_⟩
        rw [hleft, hbalance] at hne
        omega
    · rw [if_pos hasset]
      exact ih hrequired h64 hnodup.2 hrest ((covers_cons_of_ne hasset).1 h)

/-- A fee that is not covered, and yet paid, is paid by a debit that is forgotten. -/
theorem payFrom_of_not_covers (hrequired : 0 ≤ required) (h64 : IsInt64 required)
    (hnodup : (l.map Prod.fst).Nodup) (ht : ∀ e ∈ l, t[e.1]? = some e.2)
    (h : ¬Covers assetId required l) (hpaid : (payFrom assetId required l t).2 = true) :
    ∃ key, balance t key < balance (payFrom assetId required l t).1 key := by
  induction l generalizing required t with
  | nil => cases hpaid
  | cons e l ih =>
    obtain ⟨key, amount⟩ := e
    rw [List.map_cons, List.nodup_cons] at hnodup
    have hbalance : balance t key = amount.1 := by
      rw [balance, ht _ List.mem_cons_self]
      rfl
    have hrest : ∀ e ∈ l, t[e.1]? = some e.2 := fun e he => ht e (List.mem_cons_of_mem _ he)
    rw [payFrom] at hpaid ⊢
    by_cases hasset : key.assetId = assetId
    · rw [if_neg (not_not.2 hasset)] at hpaid ⊢
      rw [covers_cons hasset] at h
      by_cases hpos : 0 ≤ amount.1
      · have hlt : amount.1 < required := not_le.1 fun hle => h ⟨hpos, Or.inl hle⟩
        have hleft : IsInt64 (required - amount.1) := by
          unfold IsInt64 int64Min int64Max at h64 ⊢
          omega
        rw [if_pos hlt, wrap64_eq_self hleft] at hpaid ⊢
        obtain ⟨key', hkey'⟩ := ih (sub_nonneg.2 hlt.le) hleft hnodup.2
          (forall_insert hnodup.1 hrest) (fun hcover => h ⟨hpos, Or.inr hcover⟩) hpaid
        have hne : key' ≠ key := by
          rintro rfl
          rw [payFrom_frame (Or.inl hnodup.1)] at hkey'
          exact lt_irrefl _ hkey'
        rw [balance_insert_of_ne hne] at hkey'
        exact ⟨key', hkey'⟩
      · have hlt : amount.1 < required := lt_of_lt_of_le (not_le.1 hpos) hrequired
        rw [if_pos hlt]
        refine ⟨key, ?_⟩
        rw [payFrom_frame (Or.inl hnodup.1), balance_insert_same, hbalance]
        exact not_le.1 hpos
    · rw [if_pos hasset] at hpaid ⊢
      exact ih hrequired h64 hnodup.2 hrest (fun hcover => h ((covers_cons_of_ne hasset).2 hcover))
        hpaid

/-! ### `pay_fee` -/

/-- No asset has credits that cover the fee in it. -/
def NoAssetPays (w : BuilderWallet) (t : OutstandingBalances) : Prop :=
  ∃ fee, w.chooseFee (allPositiveBalances t).toList = .ok fee ∧ fee.assetId = -1

/-- The fee is held back, from credits or, where no asset has enough of them, from one account. -/
structure PaysFee (w : BuilderWallet) (t t' : OutstandingBalances) (fee : Asset) : Prop where
  held : HeldBack fee t t'
  payers : FromCredits t t' ∨
    NoAssetPays w t ∧ ∃ payer, ∀ key, key ≠ payer → balance t' key = balance t key

/-- Credits in the asset that is chosen cover the fee before there is a debit in it. Where no asset
is chosen, charging the fee to an account does not overflow. -/
structure FeeCovered (w : BuilderWallet) (t : OutstandingBalances) : Prop where
  covers : ∀ fee, w.chooseFee (allPositiveBalances t).toList = .ok fee → fee.assetId ≠ -1 →
    Covers fee.assetId fee.amount t.toList
  charges : NoAssetPays w t → ∀ balances holder fee, w.getAccountBalances [] false = .ok balances →
    w.bagHolder balances t.toList = .ok (some (holder, fee)) →
    int64Min ≤ balance t ⟨holder, fee.assetId⟩ - fee.amount

variable {w : BuilderWallet} {fee : Asset}

theorem feeCovered_iff_covers (h : w.chooseFee (allPositiveBalances t).toList = .ok fee)
    (hasset : fee.assetId ≠ -1) :
    FeeCovered w t ↔ Covers fee.assetId fee.amount t.toList := by
  refine ⟨fun hcovered => hcovered.covers fee h hasset, fun hcovers => ⟨fun fee' h' _ => ?_, ?_⟩⟩
  · cases h.symm.trans h'
    exact hcovers
  · rintro ⟨fee', h', hnone⟩
    cases h.symm.trans h'
    exact absurd hnone hasset

/-- **A fee that is paid in the transaction**, or cannot be. -/
theorem payFrom_spec (h : w.chooseFee (allPositiveBalances t).toList = .ok fee)
    (hasset : fee.assetId ≠ -1) :
    if (payFrom fee.assetId fee.amount t.toList t).2 then
      PaysFee w t (payFrom fee.assetId fee.amount t.toList t).1 fee ↔ FeeCovered w t
    else ((payFrom fee.assetId fee.amount t.toList t).1 = t ↔ FeeCovered w t) := by
  obtain ⟨hpos, h64, amount, hmem⟩ := BuilderWallet.chooseFee_spec h hasset
  have hnodup := Table.nodup_toList_keys t
  have ht : ∀ e ∈ t.toList, t[e.1]? = some e.2 := fun e he => Table.mem_toList.1 he
  rw [feeCovered_iff_covers h hasset]
  by_cases hcovers : Covers fee.assetId fee.amount t.toList
  · obtain ⟨hpaid, hheld, hfrom⟩ := payFrom_of_covers hpos h64 hnodup ht hcovers
    rw [if_pos hpaid]
    exact iff_of_true ⟨hheld, Or.inl hfrom⟩ hcovers
  · split
    · rename_i hpaid
      obtain ⟨key, hlt⟩ := payFrom_of_not_covers hpos h64 hnodup ht hcovers hpaid
      exact iff_of_false (fun hpays => absurd (hpays.held.le key) (not_le.2 hlt)) hcovers
    · rename_i hunpaid
      -- the asset was chosen for a credit, and that one is eaten
      obtain ⟨key, share, hkey, hid, hcredit⟩ := exists_of_mem_allPositiveBalances hmem
      have hzero := payFrom_unpaid hnodup (Bool.eq_false_iff.2 hunpaid)
        (Table.mem_toList.2 hkey) hid
      refine iff_of_false (fun hsame => ?_) hcovers
      rw [hsame, balance, hkey] at hzero
      exact absurd hzero hcredit.ne'

/-- **A fee that is charged to an account.** -/
theorem charge_spec {balances : Table Name (Table ℤ ℤ)} {holder : Address}
    (hnone : NoAssetPays w t) (hbalances : w.getAccountBalances [] false = .ok balances)
    (h : w.bagHolder balances t.toList = .ok (some (holder, fee))) :
    PaysFee w t (t.insert ⟨holder, fee.assetId⟩
        (.ofInt (balance t ⟨holder, fee.assetId⟩ - fee.amount))) fee ↔ FeeCovered w t := by
  obtain ⟨hpos, -⟩ := BuilderWallet.bagHolder_nonneg h
  set key : BalanceKey := ⟨holder, fee.assetId⟩ with hkey
  have hcovered : FeeCovered w t ↔ int64Min ≤ balance t key - fee.amount := by
    refine ⟨fun hcovered => hcovered.charges hnone balances holder fee hbalances h,
      fun hle => ⟨fun fee' h' hasset => ?_, fun _ balances' holder' fee' hbalances' h' => ?_⟩⟩
    · obtain ⟨fee'', h'', hid⟩ := hnone
      cases h'.symm.trans h''
      exact absurd hid hasset
    · cases hbalances.symm.trans hbalances'
      cases h.symm.trans h'
      exact hle
  rw [hcovered]
  constructor
  · intro hpays
    have htotal := hpays.held.total
    rw [outstandingSum_insert] at htotal
    have hexact : wrap64 (balance t key - fee.amount) = balance t key - fee.amount := by
      have hvalue : (Share.ofInt (balance t key - fee.amount)).1 =
          wrap64 (balance t key - fee.amount) := rfl
      linarith
    exact (wrap64_eq_self_iff.1 hexact).1
  · intro hle
    have hmax : balance t key ≤ int64Max := by
      rw [balance]
      cases t[key]? with
      | none => decide
      | some share => exact share.2.2
    have hexact : (Share.ofInt (balance t key - fee.amount)).1 = balance t key - fee.amount :=
      wrap64_eq_self ⟨hle, by omega⟩
    have hless : (Share.ofInt (balance t key - fee.amount)).1 ≤ balance t key := by
      rw [hexact]
      omega
    have hheld := HeldBack.insert (show key.assetId = fee.assetId from rfl) hless
    rw [hexact, sub_sub_cancel] at hheld
    exact ⟨hheld, Or.inr ⟨hnone, key, fun key' hne => balance_insert_of_ne hne⟩⟩

/-- `withdraw_fee` changes nothing when it does not charge anybody. -/
theorem withdrawFee_spec {b : TransactionBuilder} (hnone : NoAssetPays w b.outstandingBalances) :
    Outcome (withdrawFee w) b
      (fun paid b' => if paid then
          (PaysFee w b.outstandingBalances b'.outstandingBalances b'.fee ↔
            FeeCovered w b.outstandingBalances) ∧ b'.operations = b.operations ∧
              b'.orderKeys = b.orderKeys
        else b' = b ∧ FeeCovered w b.outstandingBalances)
      (fun _ b' => b' = b ∧ FeeCovered w b.outstandingBalances) := by
  have hcovers : ∀ fee, w.chooseFee (allPositiveBalances b.outstandingBalances).toList = .ok fee →
      fee.assetId ≠ -1 → Covers fee.assetId fee.amount b.outstandingBalances.toList := by
    intro fee hfee hasset
    obtain ⟨fee', hfee', hid⟩ := hnone
    cases hfee.symm.trans hfee'
    exact absurd hid hasset
  unfold withdrawFee
  rw [Outcome.bind_iff, Outcome.ofExcept_iff]
  constructor
  · intro balances hbalances
    rw [Outcome.bind_iff, Outcome.get_iff, Outcome.bind_iff, Outcome.ofExcept_iff]
    constructor
    · intro found hfound
      cases found with
      | none =>
        refine ⟨rfl, hcovers, fun _ balances' holder fee hbalances' h => ?_⟩
        cases hbalances.symm.trans hbalances'
        cases hfound.symm.trans h
      | some charged =>
        obtain ⟨holder, fee⟩ := charged
        have hpos := (BuilderWallet.bagHolder_nonneg hfound).1
        have hrequire : require (0 ≤ fee.amount) (Error.assertion
            "Don't deduct a negative amount. Call credit_balance instead.") = .ok () :=
          if_pos hpos
        dsimp only
        rw [Outcome.bind_iff, deductBalance, Outcome.bind_iff, hrequire]
        exact ⟨charge_spec hnone hbalances hfound, rfl, rfl⟩
    · intro e he
      refine ⟨rfl, hcovers, fun _ balances' holder fee hbalances' h => ?_⟩
      cases hbalances.symm.trans hbalances'
      cases he.symm.trans h
  · intro e he
    refine ⟨rfl, hcovers, fun _ balances' holder fee hbalances' _ => ?_⟩
    cases he.symm.trans hbalances'

/-- **`pay_fee`** pays the fee as it should, or leaves the balances as they were, exactly if the fee
is covered. -/
theorem payFee_spec (w : BuilderWallet) (b : TransactionBuilder) :
    Outcome (payFee w) b
      (fun _ b' => (PaysFee w b.outstandingBalances b'.outstandingBalances b'.fee ↔
        FeeCovered w b.outstandingBalances) ∧ b'.operations = b.operations ∧
          b'.orderKeys = b.orderKeys)
      (fun _ b' => b'.outstandingBalances = b.outstandingBalances ↔
        FeeCovered w b.outstandingBalances) := by
  have hvacuous : (∀ fee, w.chooseFee (allPositiveBalances b.outstandingBalances).toList ≠ .ok fee) →
      FeeCovered w b.outstandingBalances := fun h =>
    ⟨fun fee hfee => absurd hfee (h fee), fun ⟨fee, hfee, _⟩ => absurd hfee (h fee)⟩
  unfold payFee
  rw [Outcome.bind_iff, Outcome.get_iff, Outcome.bind_iff, Outcome.ofExcept_iff]
  refine ⟨fun fee hfee => ?_, fun e he => iff_of_true rfl (hvacuous fun fee hfee => ?_)⟩
  · dsimp only
    by_cases hasset : fee.assetId ≠ -1
    · rw [if_pos hasset]
      have hspec := payFrom_spec hfee hasset
      generalize hrun : payFrom fee.assetId fee.amount b.outstandingBalances.toList
        b.outstandingBalances = run at hspec ⊢
      obtain ⟨balances, paid⟩ := run
      cases paid with
      | true => exact ⟨hspec, rfl, rfl⟩
      | false => exact hspec
    · have hnone : NoAssetPays w b.outstandingBalances := ⟨fee, hfee, not_not.1 hasset⟩
      rw [if_neg hasset, Outcome.bind_iff]
      refine (withdrawFee_spec hnone).mono (fun paid b' hpaid => ?_) fun e b' hfailed => ?_
      · cases paid with
        | true => exact hpaid
        | false => exact iff_of_true (congrArg outstandingBalances hpaid.1) hpaid.2
      · exact iff_of_true (congrArg outstandingBalances hfailed.1) hfailed.2
  · rw [he] at hfee
    cases hfee

end LarkX
