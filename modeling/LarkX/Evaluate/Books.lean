import LarkX.Evaluate.Transaction
import LarkX.State.Write

/-!
# The books of a transaction

What the bookkeeping of an evaluation does, as one lemma for each helper of
`Evaluate/State.lean`. `withdrawn` and `deposited` read the two checked totals of an asset, and
`Booked` ties the running balance to them: it is their difference, wrapped to 64 bits.
-/

namespace LarkX

namespace EvaluationState

/-! ### Reading the books -/

/-- The total of an asset in a table of totals. -/
def totalOf (t : Table ℤ Asset) (a : ℤ) : ℤ :=
  (t[a]?).elim 0 Asset.amount

/-- What the transaction has withdrawn of an asset so far. -/
def withdrawn (s : EvaluationState) (a : ℤ) : ℤ :=
  totalOf s.withdraws a

/-- What the transaction has deposited of an asset so far. -/
def deposited (s : EvaluationState) (a : ℤ) : ℤ :=
  totalOf s.deposits a

/-- The running balance of an asset is what was withdrawn less what was deposited, wrapped. -/
structure Booked (s : EvaluationState) (a : ℤ) : Prop where
  balance : s.balanceOf a = wrap64 (s.withdrawn a - s.deposited a)
  withdrawn : IsInt64 (s.withdrawn a)
  deposited : IsInt64 (s.deposited a)

/-- Two evaluations with the same books. -/
structure SameBooks (s s' : EvaluationState) : Prop where
  withdraws : s'.withdraws = s.withdraws
  deposits : s'.deposits = s.deposits
  balance : s'.balance = s.balance

theorem SameBooks.refl (s : EvaluationState) : SameBooks s s :=
  ⟨rfl, rfl, rfl⟩

theorem SameBooks.trans {s₁ s₂ s₃ : EvaluationState} (h : SameBooks s₁ s₂) (h' : SameBooks s₂ s₃) :
    SameBooks s₁ s₃ :=
  ⟨h'.withdraws.trans h.withdraws, h'.deposits.trans h.deposits, h'.balance.trans h.balance⟩

theorem SameBooks.withdrawn {s s' : EvaluationState} (h : SameBooks s s') (a : ℤ) :
    s'.withdrawn a = s.withdrawn a := by
  unfold EvaluationState.withdrawn
  rw [h.withdraws]

theorem SameBooks.deposited {s s' : EvaluationState} (h : SameBooks s s') (a : ℤ) :
    s'.deposited a = s.deposited a := by
  unfold EvaluationState.deposited
  rw [h.deposits]

theorem SameBooks.balanceOf {s s' : EvaluationState} (h : SameBooks s s') (a : ℤ) :
    s'.balanceOf a = s.balanceOf a := by
  unfold EvaluationState.balanceOf
  rw [h.balance]

theorem SameBooks.booked {s s' : EvaluationState} (h : SameBooks s s') {a : ℤ}
    (hb : s.Booked a) : s'.Booked a :=
  ⟨by rw [h.balanceOf, h.withdrawn, h.deposited]; exact hb.balance,
    by rw [h.withdrawn]; exact hb.withdrawn, by rw [h.deposited]; exact hb.deposited⟩

theorem sameBooks_withState (s : EvaluationState) (c : ChainInterface) :
    SameBooks s (s.withState c) :=
  ⟨rfl, rfl, rfl⟩

/-! ### Adding to a total -/

/-- A total after an addition: the amount is added at its key, and the result is in range. -/
theorem addTotal_eq_ok {t t' : Table ℤ Asset} {x : Asset}
    (h : addTotal t x.assetId x = .ok t') (a : ℤ) :
    totalOf t' a = totalOf t a + (if a = x.assetId then x.amount else 0) ∧
      (IsInt64 x.amount → IsInt64 (totalOf t a) → IsInt64 (totalOf t' a)) := by
  unfold addTotal at h
  unfold totalOf
  by_cases ha : a = x.assetId
  · subst ha
    rw [if_pos rfl]
    split at h
    · rename_i hnone
      rw [pure_eq_ok] at h
      rw [← h, hnone, Table.getElem?_insert_same]
      exact ⟨(zero_add _).symm, fun hx _ => hx⟩
    · rename_i total hsome
      simp only [bind_eq_ok, pure_eq_ok] at h
      obtain ⟨total', hadd, rfl⟩ := h
      obtain ⟨-, -, hamount, hrange⟩ := Asset.add_eq_ok hadd
      rw [hsome, Table.getElem?_insert_same]
      exact ⟨hamount, fun _ ht => hrange ht⟩
  · rw [if_neg ha, add_zero]
    have key : t'[a]? = t[a]? := by
      split at h
      · rw [pure_eq_ok] at h
        rw [← h, Table.getElem?_insert_of_ne _ _ ha]
      · simp only [bind_eq_ok, pure_eq_ok] at h
        obtain ⟨total', -, rfl⟩ := h
        exact Table.getElem?_insert_of_ne _ _ ha
    rw [key]
    exact ⟨rfl, fun _ ht => ht⟩

/-! ### The two directions of the running balance -/

/-- The running balance after one entry. -/
theorem balanceOf_insert (s : EvaluationState) (b v a : ℤ) :
    { s with balance := s.balance.insert b v }.balanceOf a = if a = b then v else s.balanceOf a := by
  unfold balanceOf
  rw [Table.getElem?_insert]
  split <;> rfl

/-- What `sub_balance` does: the amount is booked as deposited. -/
structure Deposits (s s' : EvaluationState) (x : Asset) : Prop where
  currentState : s'.currentState = s.currentState
  deposited : ∀ a, s'.deposited a = s.deposited a + if a = x.assetId then x.amount else 0
  withdrawn : ∀ a, s'.withdrawn a = s.withdrawn a
  booked : ∀ a, IsInt64 x.amount → s.Booked a → s'.Booked a

/-- What `add_balance` does: the amount is booked as withdrawn. -/
structure Withdraws (s s' : EvaluationState) (x : Asset) : Prop where
  currentState : s'.currentState = s.currentState
  withdrawn : ∀ a, s'.withdrawn a = s.withdrawn a + if a = x.assetId then x.amount else 0
  deposited : ∀ a, s'.deposited a = s.deposited a
  booked : ∀ a, IsInt64 x.amount → s.Booked a → s'.Booked a

/-- Wrapping a wrapped value once more after an addition. -/
theorem wrap64_wrap64_add (x y : ℤ) : wrap64 (wrap64 x + y) = wrap64 (x + y) := by
  unfold wrap64
  omega

theorem wrap64_wrap64_sub (x y : ℤ) : wrap64 (wrap64 x - y) = wrap64 (x - y) := by
  unfold wrap64
  omega

theorem subBalance_eq_ok {s s' : EvaluationState} {id : BalanceId} {x : Asset}
    (h : s.subBalance id x = .ok s') : Deposits s s' x := by
  simp only [subBalance, ite_bind, bind_eq_ok, pure_eq_ok] at h
  obtain ⟨provided, -, deposits, hdep, rfl⟩ := h
  have hd : ∀ a, totalOf deposits a =
      s.deposited a + if a = x.assetId then x.amount else 0 :=
    fun a => (addTotal_eq_ok hdep a).1
  refine ⟨rfl, hd, fun a => rfl, fun a hx hb => ⟨?_, hb.withdrawn, ?_⟩⟩
  · change { s with balance := s.balance.insert x.assetId _ }.balanceOf a = _
    rw [balanceOf_insert]
    change _ = wrap64 (s.withdrawn a - totalOf deposits a)
    rw [hd]
    split
    · rename_i ha
      subst ha
      rw [hb.balance, wrap64_wrap64_sub]
      congr 1
      ring
    · rw [add_zero]
      exact hb.balance
  · exact (addTotal_eq_ok hdep a).2 hx hb.deposited

theorem addBalance_eq_ok {s s' : EvaluationState} {x : Asset} (h : s.addBalance x = .ok s') :
    Withdraws s s' x := by
  simp only [addBalance, bind_eq_ok, pure_eq_ok] at h
  obtain ⟨withdraws, hwd, rfl⟩ := h
  have hw : ∀ a, totalOf withdraws a =
      s.withdrawn a + if a = x.assetId then x.amount else 0 :=
    fun a => (addTotal_eq_ok hwd a).1
  refine ⟨rfl, hw, fun a => rfl, fun a hx hb => ⟨?_, ?_, hb.deposited⟩⟩
  · change { s with balance := s.balance.insert x.assetId _ }.balanceOf a = _
    rw [balanceOf_insert]
    change _ = wrap64 (totalOf withdraws a - s.deposited a)
    rw [hw]
    split
    · rename_i ha
      subst ha
      rw [hb.balance, wrap64_wrap64_add]
      congr 1
      ring
    · rw [add_zero]
      exact hb.balance
  · exact (addTotal_eq_ok hwd a).2 hx hb.withdrawn

/-! ### Votes and fees -/

/-- Two evaluations that differ in votes and required fees only. -/
structure SameButVotes (s s' : EvaluationState) : Prop where
  books : SameBooks s s'
  currentState : s'.currentState = s.currentState

theorem SameButVotes.refl (s : EvaluationState) : SameButVotes s s :=
  ⟨SameBooks.refl s, rfl⟩

theorem addNetVotes_same (s : EvaluationState) (id delta : ℤ) :
    SameButVotes s (s.addNetVotes id delta) :=
  ⟨⟨rfl, rfl, rfl⟩, rfl⟩

theorem adjustVote_eq_ok {s s' : EvaluationState} {slateId : SlateId} {amount : ℤ}
    (h : s.adjustVote slateId amount = .ok s') : SameButVotes s s' := by
  have key : ∀ (slate : List ℤ) (s₁ : EvaluationState), SameButVotes s s₁ →
      SameButVotes s (slate.foldl (fun s id => s.addNetVotes |id| amount) s₁) := by
    intro slate
    induction slate with
    | nil => exact fun _ h => h
    | cons id slate ih =>
      intro s₁ h
      have hadd := addNetVotes_same s₁ |id| amount
      exact ih _ ⟨h.books.trans hadd.books, hadd.currentState.trans h.currentState⟩
  unfold adjustVote at h
  rw [ite_eq_ok] at h
  rcases h with ⟨-, h⟩ | ⟨-, h⟩
  · simp only [bind_eq_ok, pure_eq_ok] at h
    obtain ⟨slate, -, rfl⟩ := h
    exact key slate s (SameButVotes.refl s)
  · rw [pure_eq_ok] at h
    exact h ▸ SameButVotes.refl s

/-- The vote of a balance, which only balances of the base asset with a slate have. -/
theorem adjustVote_if_eq_ok {p : Prop} [Decidable p] {s s' : EvaluationState} {slateId : SlateId}
    {amount : ℤ} (h : (if p then s.adjustVote slateId amount else pure s) = .ok s') :
    SameButVotes s s' := by
  rw [ite_eq_ok] at h
  rcases h with ⟨-, h⟩ | ⟨-, h⟩
  · exact adjustVote_eq_ok h
  · rw [pure_eq_ok] at h
    exact h ▸ SameButVotes.refl s

theorem requireFee_eq_ok {s s' : EvaluationState} {amount : ℤ}
    (h : s.requireFee amount = .ok s') : SameButVotes s s' := by
  simp only [requireFee, bind_eq_ok, pure_eq_ok] at h
  obtain ⟨fees, -, rfl⟩ := h
  exact ⟨⟨rfl, rfl, rfl⟩, rfl⟩

end EvaluationState

end LarkX
