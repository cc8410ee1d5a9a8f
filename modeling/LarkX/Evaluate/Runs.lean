import LarkX.Evaluate.Margin

/-!
# Runs of operations

A transaction evaluates its operations one after the other, and what it does in all is what
follows the last one. A run (`OperationRun`) says of each operation what it does to the
evaluation it starts from; a run of such steps is built from an invariant (`operationRun_of`),
and exists exactly when every operation meets its condition (`operationRun_iff`).
-/

namespace LarkX

namespace EvaluationState

variable {crypto : Crypto} {s s' : EvaluationState}

/-- The operations of a transaction, one after the other: each is evaluated and does what
`Step` says, and what follows the last one does what `Done` says. -/
inductive OperationRun (crypto : Crypto)
    (Step : EvaluationState → Operation → EvaluationState → Prop)
    (Done : EvaluationState → EvaluationState → Prop) :
    EvaluationState → List Operation → EvaluationState → Prop
  | done {s s' : EvaluationState} (h : Done s s') : OperationRun crypto Step Done s [] s'
  | step {s s₁ s' : EvaluationState} {op : Operation} {ops : List Operation}
      (hop : s.evaluateOperation crypto op = .ok s₁) (h : Step s op s₁)
      (hrest : OperationRun crypto Step Done s₁ ops s') :
      OperationRun crypto Step Done s (op :: ops) s'

/-- **Run rule.** When every operation keeps an invariant and does what `Step` says from it, a
transaction is a run of such steps. -/
theorem operationRun_of {I : EvaluationState → Prop}
    {Step : EvaluationState → Operation → EvaluationState → Prop}
    {Done : EvaluationState → EvaluationState → Prop}
    (step : ∀ s op s', I s → s.evaluateOperation crypto op = .ok s' → Step s op s' ∧ I s')
    {ops : List Operation} {s₁ : EvaluationState} (hs : I s)
    (h : s.evaluateOperations crypto ops = .ok s₁) (hend : I s₁ → Done s₁ s') :
    OperationRun crypto Step Done s ops s' := by
  induction ops generalizing s with
  | nil =>
    cases h
    exact .done (hend hs)
  | cons op ops ih =>
    rw [evaluateOperations, List.foldlM_cons, bind_eq_ok] at h
    obtain ⟨s₂, hop, h⟩ := h
    obtain ⟨hstep, hs₂⟩ := step s op s₂ hs hop
    exact .step hop hstep (ih hs₂ h)

/-- Every operation meets its condition in the state it is evaluated in. -/
def OperationsMeet (crypto : Crypto) (Meets : EvaluationState → Operation → Prop)
    (s : EvaluationState) : List Operation → Prop
  | [] => True
  | op :: ops => Meets s op ∧
    ∀ s₁, s.evaluateOperation crypto op = .ok s₁ → OperationsMeet crypto Meets s₁ ops

/-- **Run rule, in both directions.** When an operation does what `Step` says exactly under a
condition, a transaction is a run of such steps exactly when its operations meet theirs. -/
theorem operationRun_iff {I : EvaluationState → Prop}
    {Step : EvaluationState → Operation → EvaluationState → Prop}
    {Done : EvaluationState → EvaluationState → Prop} {Meets : EvaluationState → Operation → Prop}
    {ops : List Operation}
    (step : ∀ s, ∀ op ∈ ops, ∀ s', I s → s.evaluateOperation crypto op = .ok s' →
      (Step s op s' ↔ Meets s op) ∧ I s')
    {s₁ : EvaluationState} (hs : I s) (h : s.evaluateOperations crypto ops = .ok s₁)
    (hend : I s₁ → Done s₁ s') :
    OperationRun crypto Step Done s ops s' ↔ OperationsMeet crypto Meets s ops := by
  induction ops generalizing s with
  | nil =>
    cases h
    exact ⟨fun _ => trivial, fun _ => .done (hend hs)⟩
  | cons op ops ih =>
    rw [evaluateOperations, List.foldlM_cons, bind_eq_ok] at h
    obtain ⟨s₂, hop, h⟩ := h
    obtain ⟨hiff, hs₂⟩ := step s op List.mem_cons_self s₂ hs hop
    have hrest := ih (fun s op' hop' => step s op' (List.mem_cons_of_mem _ hop')) hs₂ h
    constructor
    · rintro (_ | ⟨hop', hstep, hrun⟩)
      rw [hop] at hop'
      cases hop'
      refine ⟨hiff.1 hstep, fun s₃ hs₃ => ?_⟩
      rw [hop] at hs₃
      cases hs₃
      exact hrest.1 hrun
    · rintro ⟨hmeets, hafter⟩
      exact .step hop (hiff.2 hmeets) (hrest.2 (hafter s₂ hop))

end EvaluationState

end LarkX
