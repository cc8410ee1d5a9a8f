import LarkX.Evaluate.Books

/-!
# The running balance of a transaction

`add_balance` and `sub_balance` keep checked totals and, next to them, the running balance of each
asset in unchecked 64-bit arithmetic. `RunningBooks` is what they keep, and `RunningBooks.book` is
one call of either.

The running balance is the exact difference of what was withdrawn and deposited, wrapped to 64
bits (`run_balanceOf`). As long as no call passes a negative amount, the checked totals bound the
difference, and there is nothing to wrap (`fits_of_nonneg`).
-/

namespace LarkX

/-! ### Calls -/

/-- A call of `add_balance` or of `sub_balance`, with the amount that it stands for. -/
inductive BalanceCall
  | add (amount : Asset)
  | sub (amount : Asset)
  deriving DecidableEq, Repr

namespace BalanceCall

/-- The amount of a call. -/
def asset : BalanceCall → Asset
  | add x | sub x => x

/-- What a call withdraws of an asset. -/
def withdrawn (a : ℤ) : BalanceCall → ℤ
  | add x => if a = x.assetId then x.amount else 0
  | sub _ => 0

/-- What a call deposits of an asset. -/
def deposited (a : ℤ) : BalanceCall → ℤ
  | add _ => 0
  | sub x => if a = x.assetId then x.amount else 0

/-- The exact sum of the amounts withdrawn of an asset. -/
def withdrawnBy (a : ℤ) (calls : List BalanceCall) : ℤ :=
  (calls.map (withdrawn a)).sum

/-- The exact sum of the amounts deposited of an asset. -/
def depositedBy (a : ℤ) (calls : List BalanceCall) : ℤ :=
  (calls.map (deposited a)).sum

/-- A negative amount of the asset is booked. -/
def Negative (a : ℤ) (call : BalanceCall) : Prop :=
  call.asset.assetId = a ∧ call.asset.amount < 0

variable {a : ℤ}

@[simp]
theorem withdrawn_add (x : Asset) :
    (add x).withdrawn a = if a = x.assetId then x.amount else 0 :=
  rfl

@[simp]
theorem deposited_add (x : Asset) : (add x).deposited a = 0 :=
  rfl

@[simp]
theorem withdrawn_sub (x : Asset) : (sub x).withdrawn a = 0 :=
  rfl

@[simp]
theorem deposited_sub (x : Asset) :
    (sub x).deposited a = if a = x.assetId then x.amount else 0 :=
  rfl

theorem withdrawnBy_cons (call : BalanceCall) (calls : List BalanceCall) :
    withdrawnBy a (call :: calls) = call.withdrawn a + withdrawnBy a calls :=
  List.sum_cons

theorem depositedBy_cons (call : BalanceCall) (calls : List BalanceCall) :
    depositedBy a (call :: calls) = call.deposited a + depositedBy a calls :=
  List.sum_cons

/-- Without negative amounts, what is withdrawn and what is deposited is not negative. -/
theorem sums_nonneg {calls : List BalanceCall} (h : ∀ call ∈ calls, ¬call.Negative a) :
    0 ≤ withdrawnBy a calls ∧ 0 ≤ depositedBy a calls := by
  have hcall : ∀ call ∈ calls, 0 ≤ call.withdrawn a ∧ 0 ≤ call.deposited a := by
    intro call hmem
    have hnot := h call hmem
    unfold Negative at hnot
    cases call with
    | add x =>
      refine ⟨?_, le_rfl⟩
      rw [withdrawn_add]
      split
      · rename_i hid
        exact not_lt.1 fun hneg => hnot ⟨hid.symm, hneg⟩
      · exact le_rfl
    | sub x =>
      refine ⟨le_rfl, ?_⟩
      rw [deposited_sub]
      split
      · rename_i hid
        exact not_lt.1 fun hneg => hnot ⟨hid.symm, hneg⟩
      · exact le_rfl
  constructor
  · refine List.sum_nonneg fun x hx => ?_
    obtain ⟨call, hmem, rfl⟩ := List.mem_map.1 hx
    exact (hcall call hmem).1
  · refine List.sum_nonneg fun x hx => ?_
    obtain ⟨call, hmem, rfl⟩ := List.mem_map.1 hx
    exact (hcall call hmem).2

end BalanceCall

/-! ### Books -/

/-- The books of an evaluation: the totals and the running balances. -/
structure RunningBooks where
  withdraws : Table ℤ Asset := ∅
  deposits : Table ℤ Asset := ∅
  balance : Table ℤ ℤ := ∅

namespace RunningBooks

open BalanceCall EvaluationState

/-- The running balance of an asset, `0` before its first entry. -/
def balanceOf (b : RunningBooks) (assetId : ℤ) : ℤ :=
  b.balance[assetId]?.getD 0

/-- The books after a call. The amount that is passed is a 64-bit value: the one the call stands
for, but for the negation of the least amount, which is the least amount again. -/
def book (b : RunningBooks) : BalanceCall → Fallible RunningBooks
  | .add x => do
    let amount := wrap64 x.amount
    let withdraws ← addTotal b.withdraws x.assetId ⟨amount, x.assetId⟩
    return { b with
      withdraws
      balance := b.balance.insert x.assetId (wrap64 (b.balanceOf x.assetId + amount)) }
  | .sub x => do
    let amount := wrap64 x.amount
    let deposits ← addTotal b.deposits x.assetId ⟨amount, x.assetId⟩
    return { b with
      deposits
      balance := b.balance.insert x.assetId (wrap64 (b.balanceOf x.assetId - amount)) }

variable {b b' : RunningBooks} {call : BalanceCall} {calls : List BalanceCall}

private theorem balanceOf_insert (b : RunningBooks) (id v a : ℤ) :
    { b with balance := b.balance.insert id v }.balanceOf a =
      if a = id then v else b.balanceOf a := by
  unfold balanceOf
  rw [Table.getElem?_insert]
  split <;> rfl

/-- **Step.** A call moves the running balance by its amount, up to a wrap. -/
theorem book_balanceOf {a x : ℤ} (hx : b.balanceOf a = wrap64 x) (h : b.book call = .ok b') :
    b'.balanceOf a = wrap64 (x + (call.withdrawn a - call.deposited a)) := by
  cases call with
  | add y =>
    simp only [book, bind_eq_ok, pure_eq_ok] at h
    obtain ⟨withdraws, -, rfl⟩ := h
    change { b with balance := b.balance.insert y.assetId _ }.balanceOf a = _
    rw [balanceOf_insert, withdrawn_add, deposited_add, sub_zero]
    by_cases hid : a = y.assetId
    · rw [if_pos hid, if_pos hid, ← hid, hx, wrap64_eq_iff]
      push_cast
      rw [wrap64_cast, wrap64_cast]
    · rw [if_neg hid, if_neg hid, add_zero, hx]
  | sub y =>
    simp only [book, bind_eq_ok, pure_eq_ok] at h
    obtain ⟨deposits, -, rfl⟩ := h
    change { b with balance := b.balance.insert y.assetId _ }.balanceOf a = _
    rw [balanceOf_insert, withdrawn_sub, deposited_sub, zero_sub]
    by_cases hid : a = y.assetId
    · rw [if_pos hid, if_pos hid, ← hid, hx, wrap64_eq_iff]
      push_cast
      rw [wrap64_cast, wrap64_cast, sub_eq_add_neg]
    · rw [if_neg hid, if_neg hid, neg_zero, add_zero, hx]

/-- The totals of an asset, which are in range. -/
structure Totals (b : RunningBooks) (a w d : ℤ) : Prop where
  withdrawn : totalOf b.withdraws a = w
  deposited : totalOf b.deposits a = d
  withdrawn_fits : IsInt64 w
  deposited_fits : IsInt64 d

/-- **Step.** A call of a 64-bit amount keeps the totals exact and in range. -/
theorem Totals.step {a w d : ℤ} (ht : b.Totals a w d) (hrange : IsInt64 call.asset.amount)
    (h : b.book call = .ok b') : b'.Totals a (w + call.withdrawn a) (d + call.deposited a) := by
  cases call with
  | add x =>
    have hwrap : wrap64 x.amount = x.amount := wrap64_eq_self hrange
    simp only [book, hwrap, bind_eq_ok, pure_eq_ok] at h
    obtain ⟨withdraws, hadd, rfl⟩ := h
    obtain ⟨htotal, hfits⟩ := addTotal_eq_ok (x := x) hadd a
    rw [ht.withdrawn] at htotal hfits
    refine ⟨htotal, ht.deposited.trans (add_zero d).symm, ?_, ?_⟩
    · exact htotal ▸ hfits hrange ht.withdrawn_fits
    · exact (add_zero d).symm ▸ ht.deposited_fits
  | sub x =>
    have hwrap : wrap64 x.amount = x.amount := wrap64_eq_self hrange
    simp only [book, hwrap, bind_eq_ok, pure_eq_ok] at h
    obtain ⟨deposits, hadd, rfl⟩ := h
    obtain ⟨htotal, hfits⟩ := addTotal_eq_ok (x := x) hadd a
    rw [ht.deposited] at htotal hfits
    refine ⟨ht.withdrawn.trans (add_zero w).symm, htotal, ?_, ?_⟩
    · exact (add_zero w).symm ▸ ht.withdrawn_fits
    · exact htotal ▸ hfits hrange ht.deposited_fits

/-- **Run.** The running balance is what was withdrawn less what was deposited, wrapped. -/
theorem run_balanceOf {a x : ℤ} (hx : b.balanceOf a = wrap64 x)
    (h : calls.foldlM book b = .ok b') :
    b'.balanceOf a = wrap64 (x + (withdrawnBy a calls - depositedBy a calls)) := by
  induction calls generalizing b x with
  | nil =>
    cases h
    rw [hx]
    exact congrArg wrap64 (add_zero x).symm
  | cons call calls ih =>
    rw [List.foldlM_cons, bind_eq_ok] at h
    obtain ⟨b₁, hcall, h⟩ := h
    rw [ih (book_balanceOf hx hcall) h, withdrawnBy_cons, depositedBy_cons]
    congr 1
    ring

/-- **Run.** Calls of 64-bit amounts keep the totals exact and in range. -/
theorem Totals.run {a w d : ℤ} (ht : b.Totals a w d)
    (hrange : ∀ call ∈ calls, IsInt64 call.asset.amount) (h : calls.foldlM book b = .ok b') :
    b'.Totals a (w + withdrawnBy a calls) (d + depositedBy a calls) := by
  induction calls generalizing b w d with
  | nil =>
    cases h
    have hw : w + withdrawnBy a [] = w := add_zero w
    have hd : d + depositedBy a [] = d := add_zero d
    rwa [hw, hd]
  | cons call calls ih =>
    rw [List.foldlM_cons, bind_eq_ok] at h
    obtain ⟨b₁, hcall, h⟩ := h
    have hrest := ih (ht.step (hrange call List.mem_cons_self) hcall)
      (fun call' hmem => hrange call' (List.mem_cons_of_mem _ hmem)) h
    rwa [withdrawnBy_cons, depositedBy_cons, ← add_assoc, ← add_assoc]

/-- Nothing is booked before the first call. -/
theorem totals_empty (a : ℤ) : ({} : RunningBooks).Totals a 0 0 :=
  ⟨rfl, rfl, by decide, by decide⟩

/-- Calls of 64-bit amounts none of which is negative leave a difference that fits. -/
theorem fits_of_nonneg {a : ℤ} (hrange : ∀ call ∈ calls, IsInt64 call.asset.amount)
    (hnonneg : ∀ call ∈ calls, ¬call.Negative a)
    (h : calls.foldlM book ({} : RunningBooks) = .ok b) :
    IsInt64 (withdrawnBy a calls - depositedBy a calls) := by
  obtain ⟨hw, hd⟩ := sums_nonneg hnonneg
  have ht := (totals_empty a).run hrange h
  have hwithdrawn := ht.withdrawn_fits
  have hdeposited := ht.deposited_fits
  unfold IsInt64 int64Min int64Max at hwithdrawn hdeposited ⊢
  constructor <;> omega

end RunningBooks

end LarkX
