import Mathlib.Logic.Relation

/-!
# Outcomes of stateful programs

A program over a state that may throw is an `EStateM ε σ α`; what it has written stays written
when it throws. `Outcome x s Q E` says how a run of `x` from `s` ends: with a result and a state
in `Q`, or with an error and a state in `E`. There is one rule for each construct, as an
equivalence, so that a program is taken apart by rewriting; loops have an invariant rule.

`Follows R x` is the special case of a relation between the first and the last state that does
not mind how the run ends.
-/

namespace LarkX

variable {ε σ α β : Type}

/-- How a run of `x` from `s` ends: with a result in `Q`, or with an error in `E`. -/
def Outcome (x : EStateM ε σ α) (s : σ) (Q : α → σ → Prop) (E : ε → σ → Prop) : Prop :=
  match x.run s with
  | .ok a s' => Q a s'
  | .error e s' => E e s'

/-- A fallible computation that does not touch the state. -/
def ofExcept (x : Except ε α) : EStateM ε σ α :=
  match x with
  | .ok a => pure a
  | .error e => throw e

/-- A run of `x` from `s` returns. -/
def returns (x : EStateM ε σ α) (s : σ) : Bool :=
  match x.run s with
  | .ok _ _ => true
  | .error _ _ => false

/-- A program goes on after a part that returns. -/
theorem run_bind_ok {x : EStateM ε σ α} {f : α → EStateM ε σ β} {s s' : σ} {a : α}
    (h : x.run s = .ok a s') : (x >>= f).run s = (f a).run s' := by
  change (match x.run s with
    | .ok a s' => (f a).run s'
    | .error e s' => .error e s') = _
  rw [h]

/-- A program ends where a part throws. -/
theorem run_bind_error {x : EStateM ε σ α} {f : α → EStateM ε σ β} {s s' : σ} {e : ε}
    (h : x.run s = .error e s') : (x >>= f).run s = .error e s' := by
  change (match x.run s with
    | .ok a s' => (f a).run s'
    | .error e s' => .error e s') = _
  rw [h]

theorem run_get_bind {f : σ → EStateM ε σ β} {s : σ} :
    ((get : EStateM ε σ σ) >>= f).run s = (f s).run s :=
  rfl

theorem run_tryCatch {x : EStateM ε σ α} {f : ε → EStateM ε σ α} {s : σ} :
    (tryCatch x f).run s = match x.run s with
      | .ok a s' => .ok a s'
      | .error e s' => (f e).run s' := by
  change (EStateM.tryCatch x f) s = match x s with
    | .ok a s' => .ok a s'
    | .error e s' => f e s'
  unfold EStateM.tryCatch
  cases x s <;> rfl

theorem exists_of_returns {x : EStateM ε σ α} {s : σ} (h : returns x s = true) :
    ∃ a s', x.run s = .ok a s' := by
  unfold returns at h
  split at h
  · rename_i a s' hrun
    exact ⟨a, s', hrun⟩
  · cases h

theorem exists_of_not_returns {x : EStateM ε σ α} {s : σ} (h : returns x s = false) :
    ∃ e s', x.run s = .error e s' := by
  unfold returns at h
  split at h
  · cases h
  · rename_i e s' hrun
    exact ⟨e, s', hrun⟩

namespace Outcome

variable {x : EStateM ε σ α} {s s' : σ} {Q Q' : α → σ → Prop} {E E' : ε → σ → Prop}

theorem of_ok {a : α} (h : Outcome x s Q E) (hrun : x.run s = .ok a s') : Q a s' := by
  unfold Outcome at h
  rwa [hrun] at h

theorem of_error {e : ε} (h : Outcome x s Q E) (hrun : x.run s = .error e s') : E e s' := by
  unfold Outcome at h
  rwa [hrun] at h

/-- What is known of every run is known of its outcome. -/
theorem intro (hQ : ∀ a s', x.run s = .ok a s' → Q a s')
    (hE : ∀ e s', x.run s = .error e s' → E e s') : Outcome x s Q E := by
  unfold Outcome
  cases h : x.run s with
  | ok a s' => exact hQ a s' h
  | error e s' => exact hE e s' h

theorem mono (h : Outcome x s Q E) (hQ : ∀ a s', Q a s' → Q' a s')
    (hE : ∀ e s', E e s' → E' e s') : Outcome x s Q' E' :=
  intro (fun _ _ hrun => hQ _ _ (h.of_ok hrun)) fun _ _ hrun => hE _ _ (h.of_error hrun)

/-- The outcome of a run determines it. -/
theorem run_eq {a : α} (h : Outcome x s (fun a' s'' => a' = a ∧ s'' = s') fun _ _ => False) :
    x.run s = .ok a s' := by
  cases hrun : x.run s with
  | ok a' s'' =>
    obtain ⟨rfl, rfl⟩ := h.of_ok hrun
    rfl
  | error e s'' => exact (h.of_error hrun).elim

/-! ### One rule for each construct -/

@[simp]
theorem pure_iff {a : α} : Outcome (pure a : EStateM ε σ α) s Q E ↔ Q a s :=
  Iff.rfl

@[simp]
theorem throw_iff {e : ε} : Outcome (throw e : EStateM ε σ α) s Q E ↔ E e s :=
  Iff.rfl

@[simp]
theorem get_iff {Q : σ → σ → Prop} : Outcome (get : EStateM ε σ σ) s Q E ↔ Q s s :=
  Iff.rfl

@[simp]
theorem set_iff {Q : PUnit → σ → Prop} : Outcome (set s' : EStateM ε σ PUnit) s Q E ↔ Q ⟨⟩ s' :=
  Iff.rfl

@[simp]
theorem modify_iff {f : σ → σ} {Q : PUnit → σ → Prop} :
    Outcome (modify f : EStateM ε σ PUnit) s Q E ↔ Q ⟨⟩ (f s) :=
  Iff.rfl

@[simp]
theorem ofExcept_iff {x : Except ε α} : Outcome (ofExcept x : EStateM ε σ α) s Q E ↔
    (∀ a, x = .ok a → Q a s) ∧ ∀ e, x = .error e → E e s := by
  cases x with
  | ok a => exact ⟨fun h => ⟨fun _ ha => Except.ok.inj ha ▸ h, nofun⟩, fun h => h.1 a rfl⟩
  | error e => exact ⟨fun h => ⟨nofun, fun _ he => Except.error.inj he ▸ h⟩, fun h => h.2 e rfl⟩

@[simp]
theorem bind_iff {f : α → EStateM ε σ β} {Q : β → σ → Prop} :
    Outcome (x >>= f) s Q E ↔ Outcome x s (fun a s' => Outcome (f a) s' Q E) E := by
  have hrun : (x >>= f).run s = match x.run s with
      | .ok a s' => (f a).run s'
      | .error e s' => .error e s' := rfl
  unfold Outcome
  rw [hrun]
  cases x.run s <;> rfl

theorem bind_of_run {f : α → EStateM ε σ β} {Q : β → σ → Prop} {a : α}
    (h : x.run s = .ok a s') : Outcome (x >>= f) s Q E ↔ Outcome (f a) s' Q E := by
  unfold Outcome
  rw [run_bind_ok h]

/-- A handler runs in the state in which the error was thrown. -/
@[simp]
theorem tryCatch_iff {f : ε → EStateM ε σ α} :
    Outcome (tryCatch x f) s Q E ↔ Outcome x s Q (fun e s' => Outcome (f e) s' Q E) := by
  unfold Outcome
  rw [run_tryCatch]
  cases x.run s <;> rfl

/-- **Loop rule.** An invariant of the accumulator and the state that every iteration keeps,
also when it throws. -/
theorem foldlM {f : β → α → EStateM ε σ β} {I : β → σ → Prop} {E : ε → σ → Prop} {l : List α}
    (step : ∀ b a s, a ∈ l → I b s → Outcome (f b a) s I E) {b : β} (h : I b s) :
    Outcome (l.foldlM f b) s I E := by
  induction l generalizing b s with
  | nil => exact h
  | cons a l ih =>
    rw [List.foldlM_cons, bind_iff]
    refine (step b a s List.mem_cons_self h).mono (fun b' s' hb' => ?_) fun _ _ he => he
    exact ih (fun b a s ha => step b a s (List.mem_cons_of_mem _ ha)) hb'

/-- The loop rule for a loop without an accumulator. -/
theorem forM {f : α → EStateM ε σ PUnit} {I : σ → Prop} {E : ε → σ → Prop} {l : List α}
    (step : ∀ a s, a ∈ l → I s → Outcome (f a) s (fun _ => I) E) (h : I s) :
    Outcome (l.forM f) s (fun _ => I) E := by
  induction l generalizing s with
  | nil => exact h
  | cons a l ih =>
    change Outcome (f a >>= fun _ => l.forM f) s (fun _ => I) E
    rw [bind_iff]
    refine (step a s List.mem_cons_self h).mono (fun _ s' hs' => ?_) fun _ _ he => he
    exact ih (fun a s ha => step a s (List.mem_cons_of_mem _ ha)) hs'

/-- What the iteration for one element reaches and every other one keeps holds after the loop. -/
theorem forM_of_mem {f : α → EStateM ε σ PUnit} {I J : σ → Prop} {E : ε → σ → Prop} {l : List α}
    {a : α} (ha : a ∈ l) (before : ∀ b s, I s → Outcome (f b) s (fun _ => I) E)
    (reach : ∀ s, I s → Outcome (f a) s (fun _ => J) E)
    (after : ∀ b s, J s → Outcome (f b) s (fun _ => J) E) (h : I s) :
    Outcome (l.forM f) s (fun _ => J) E := by
  induction l generalizing s with
  | nil => exact (List.not_mem_nil ha).elim
  | cons b l ih =>
    change Outcome (f b >>= fun _ => l.forM f) s (fun _ => J) E
    rw [bind_iff]
    rcases List.mem_cons.1 ha with rfl | ha
    · exact (reach s h).mono (fun _ _ hJ => forM (fun b s _ => after b s) hJ) fun _ _ he => he
    · exact (before b s h).mono (fun _ _ hI => ih ha hI) fun _ _ he => he

end Outcome

/-! ### Relations between the first and the last state -/

/-- However a run of `x` ends, the last state is related to the first. -/
def Follows (R : σ → σ → Prop) (x : EStateM ε σ α) : Prop :=
  ∀ s, Outcome x s (fun _ => R s) (fun _ => R s)

namespace Follows

variable {R : σ → σ → Prop} {x : EStateM ε σ α}

theorem mono {R' : σ → σ → Prop} (h : Follows R x) (hR : ∀ s s', R s s' → R' s s') :
    Follows R' x :=
  fun s => (h s).mono (fun _ _ => hR s _) fun _ _ => hR s _

/-- Steps of a relation that can be chained follow each other. -/
theorem bind [IsTrans σ R] {f : α → EStateM ε σ β} (hx : Follows R x) (hf : ∀ a, Follows R (f a)) :
    Follows R (x >>= f) := by
  intro s
  rw [Outcome.bind_iff]
  refine (hx s).mono (fun a s₁ h => ?_) fun _ _ h => h
  exact (hf a s₁).mono (fun _ _ h' => IsTrans.trans _ _ _ h h') fun _ _ h' =>
    IsTrans.trans _ _ _ h h'

/-- A program is run in a state that was reached before. -/
theorem after [IsTrans σ R] (hx : Follows R x) {s s₁ : σ} (h : R s s₁) :
    Outcome x s₁ (fun _ => R s) (fun _ => R s) :=
  (hx s₁).mono (fun _ _ h' => IsTrans.trans _ _ _ h h') fun _ _ h' => IsTrans.trans _ _ _ h h'

theorem modify {f : σ → σ} (h : ∀ s, R s (f s)) :
    Follows R (modify f : EStateM ε σ PUnit) := by
  intro s
  rw [Outcome.modify_iff]
  exact h s

end Follows

end LarkX
