import LarkX.ForMathlib.Fallible

/-!
# Fallible programs that concur

Two programs concur when both return, with results that are related, or both throw the same error.
A program over one kind of state is compared with the same program over another with the rules of
this module, one for each way to build a program.
-/

namespace LarkX

variable {ε α β γ δ : Type}

/-- Both programs return related results, or throw the same error. -/
inductive Concurs (R : α → β → Prop) : Except ε α → Except ε β → Prop
  | ok {a : α} {b : β} (h : R a b) : Concurs R (.ok a) (.ok b)
  | error (e : ε) : Concurs R (.error e) (.error e)

namespace Concurs

variable {R : α → β → Prop} {Q : γ → δ → Prop} {x : Except ε α} {y : Except ε β}

theorem pure {a : α} {b : β} (h : R a b) :
    Concurs R (Pure.pure a : Except ε α) (Pure.pure b) :=
  .ok h

theorem bind {f : α → Except ε γ} {g : β → Except ε δ} (h : Concurs R x y)
    (hf : ∀ a b, R a b → Concurs Q (f a) (g b)) : Concurs Q (x >>= f) (y >>= g) := by
  cases h with
  | ok h => exact hf _ _ h
  | error e => exact .error e

/-- Both programs start with the same computation. -/
theorem bind_same {z : Except ε γ} {f : γ → Except ε α} {g : γ → Except ε β}
    (hf : ∀ c, z = .ok c → Concurs R (f c) (g c)) : Concurs R (z >>= f) (z >>= g) := by
  cases z with
  | ok c => exact hf c rfl
  | error e => exact .error e

/-- Both programs take the same branch. -/
theorem ite {p : Prop} [Decidable p] {x' : Except ε α} {y' : Except ε β}
    (h : p → Concurs R x y) (h' : ¬p → Concurs R x' y') :
    Concurs R (if p then x else x') (if p then y else y') := by
  split
  · exact h ‹p›
  · exact h' ‹¬p›

end Concurs

end LarkX
