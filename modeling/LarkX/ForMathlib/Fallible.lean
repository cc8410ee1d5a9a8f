import Mathlib.Data.List.Forall2
import Mathlib.Tactic.Common

/-!
# Fallible programs

Programs that may throw are `Except ε α` values. The lemmas here turn "this `do` block
returned `b`" into the list of things that must have happened on the way: every guard held
and every intermediate call returned. They are the only facts about `Except` that the later
modules use, so no proof unfolds the monad. `Simulates` compares two programs, rule by rule.
-/

namespace LarkX

variable {ε α β γ : Type}

/-- Continue if `p` holds, throw `e` otherwise. -/
def require (p : Prop) [Decidable p] (e : ε) : Except ε Unit :=
  if p then .ok () else .error e

/-- The value of an option, or throw `e`. -/
def orThrow (o : Option α) (e : ε) : Except ε α :=
  match o with
  | some a => .ok a
  | none => .error e

/-- A sequenced program returns exactly when both halves do. -/
@[simp]
theorem bind_eq_ok {x : Except ε α} {f : α → Except ε β} {b : β} :
    (x >>= f) = .ok b ↔ ∃ a, x = .ok a ∧ f a = .ok b := by
  cases x with
  | error e => exact ⟨fun h => (nomatch h), fun ⟨_, h, _⟩ => nomatch h⟩
  | ok a => exact ⟨fun h => ⟨a, rfl, h⟩, fun ⟨_, h, h'⟩ => by cases h; exact h'⟩

@[simp]
theorem pure_eq_ok {a b : α} : (pure a : Except ε α) = .ok b ↔ a = b :=
  ⟨fun h => by cases h; rfl, fun h => h ▸ rfl⟩

@[simp]
theorem map_eq_ok {x : Except ε α} {f : α → β} {b : β} :
    (f <$> x) = .ok b ↔ ∃ a, x = .ok a ∧ f a = b := by
  cases x with
  | error e => exact ⟨fun h => (nomatch h), fun ⟨_, h, _⟩ => nomatch h⟩
  | ok a => exact ⟨fun h => ⟨a, rfl, by cases h; rfl⟩, fun ⟨_, h, h'⟩ => by cases h; cases h'; rfl⟩

/-- A guard passes exactly when its condition holds. -/
@[simp]
theorem require_eq_ok {p : Prop} [Decidable p] {e : ε} {u : Unit} :
    require p e = .ok u ↔ p := by
  unfold require
  split
  · exact ⟨fun _ => ‹p›, fun _ => rfl⟩
  · exact ⟨fun h => (nomatch h), fun h => absurd h ‹¬p›⟩

@[simp]
theorem orThrow_eq_ok {o : Option α} {e : ε} {a : α} : orThrow o e = .ok a ↔ o = some a := by
  cases o with
  | none => exact ⟨fun h => (nomatch h), fun h => nomatch h⟩
  | some b => exact ⟨fun h => by cases h; rfl, fun h => by cases h; rfl⟩

@[simp]
theorem throw_eq_ok {e : ε} {a : α} : (throw e : Except ε α) = .ok a ↔ False :=
  ⟨fun h => (nomatch h), False.elim⟩

@[simp]
theorem error_eq_ok {e : ε} {a : α} : (Except.error e : Except ε α) = .ok a ↔ False :=
  ⟨fun h => (nomatch h), False.elim⟩

/-- A sequenced program throws in its first half or in its second. -/
theorem bind_eq_error {x : Except ε α} {f : α → Except ε β} {e : ε} :
    (x >>= f) = .error e ↔ x = .error e ∨ ∃ a, x = .ok a ∧ f a = .error e := by
  cases x with
  | error e' =>
    refine ⟨fun h => Or.inl (Except.error.inj h ▸ rfl), ?_⟩
    rintro (h | ⟨_, h, _⟩)
    · cases h
      rfl
    · cases h
  | ok a =>
    refine ⟨fun h => Or.inr ⟨a, rfl, h⟩, ?_⟩
    rintro (h | ⟨_, h, h'⟩)
    · cases h
    · cases h
      exact h'

theorem pure_eq_error {a : α} {e : ε} : (pure a : Except ε α) = .error e ↔ False :=
  ⟨nofun, False.elim⟩

theorem require_eq_error {p : Prop} [Decidable p] {e e' : ε} :
    require p e = .error e' ↔ ¬p ∧ e = e' := by
  unfold require
  split
  · exact ⟨nofun, fun h => absurd ‹p› h.1⟩
  · exact ⟨fun h => ⟨‹¬p›, Except.error.inj h⟩, fun h => h.2 ▸ rfl⟩

theorem orThrow_eq_error {o : Option α} {e e' : ε} :
    orThrow o e = .error e' ↔ o = none ∧ e = e' := by
  cases o with
  | none => exact ⟨fun h => ⟨rfl, Except.error.inj h⟩, fun h => h.2 ▸ rfl⟩
  | some a => exact ⟨nofun, nofun⟩

/-- A program that is seen to return, returns something. -/
theorem exists_eq_ok {x : Except ε α} (h : x.isOk = true) : ∃ a, x = .ok a := by
  cases x with
  | error e => cases h
  | ok a => exact ⟨a, rfl⟩

/-- Left unit, as a simp lemma in the spelling `do` blocks produce. -/
@[simp]
theorem ok_bind {a : α} {f : α → Except ε β} : ((Except.ok a : Except ε α) >>= f) = f a :=
  rfl

@[simp]
theorem error_bind {e : ε} {f : α → Except ε β} :
    ((Except.error e : Except ε α) >>= f) = .error e :=
  rfl

/-- A conditional program returns exactly when the branch it takes does. -/
theorem ite_eq_ok {p : Prop} [Decidable p] {x y : Except ε α} {a : α} :
    (if p then x else y) = .ok a ↔ (p ∧ x = .ok a) ∨ (¬p ∧ y = .ok a) := by
  by_cases h : p
  · simp [h]
  · simp [h]

/-- A conditional in the middle of a program, put back in front of what follows it. -/
theorem ite_bind {p : Prop} [Decidable p] {x y : Except ε α} {k : α → Except ε β} :
    (if p then x >>= k else y >>= k) = (if p then x else y) >>= k := by
  split <;> rfl

/-- A change of the result goes into the branches of a conditional. -/
theorem map_ite {p : Prop} [Decidable p] {x y : Except ε α} (f : α → β) :
    f <$> (if p then x else y) = if p then f <$> x else f <$> y :=
  apply_ite _ _ _ _

/-- What follows a program need only agree on what the program returns. -/
theorem bind_congr_of_ok {x : Except ε α} {f g : α → Except ε β}
    (h : ∀ a, x = .ok a → f a = g a) : (x >>= f) = (x >>= g) := by
  cases x with
  | error e => rfl
  | ok a => exact h a rfl

/-- A list of computations returns what each of them returns. -/
theorem mapM_eq_ok {f : α → Except ε β} {l : List α} {l' : List β} :
    l.mapM f = .ok l' ↔ List.Forall₂ (fun a b => f a = .ok b) l l' := by
  induction l generalizing l' with
  | nil =>
    rw [List.mapM_nil, pure_eq_ok, List.forall₂_nil_left_iff]
    exact eq_comm
  | cons a l ih =>
    simp only [List.mapM_cons, bind_eq_ok, pure_eq_ok, List.forall₂_cons_left_iff, ih]
    constructor
    · rintro ⟨b, hb, bs, hbs, rfl⟩
      exact ⟨b, bs, hb, hbs, rfl⟩
    · rintro ⟨b, bs, hb, hbs, rfl⟩
      exact ⟨b, hb, bs, hbs, rfl⟩

/-- **Loop rule.** A property every iteration preserves holds when the loop returns. -/
theorem foldlM_induction {P : β → Prop} {f : β → α → Except ε β} {l : List α}
    (step : ∀ b a b', a ∈ l → P b → f b a = .ok b' → P b') {b b' : β} (h : P b)
    (hl : l.foldlM f b = .ok b') : P b' := by
  induction l generalizing b with
  | nil =>
    cases hl
    exact h
  | cons a l ih =>
    rw [List.foldlM_cons, bind_eq_ok] at hl
    obtain ⟨c, hc, hl⟩ := hl
    exact ih (fun b a b' ha => step b a b' (List.mem_cons_of_mem _ ha))
      (step b a c List.mem_cons_self h hc) hl

/-- A loop that returns has gone through every element. -/
theorem foldlM_ok_of_mem {f : β → α → Except ε β} {l : List α} {b b' : β} {a : α}
    (hl : l.foldlM f b = .ok b') (ha : a ∈ l) : ∃ c c', f c a = .ok c' := by
  induction l generalizing b with
  | nil => cases ha
  | cons x l ih =>
    rw [List.foldlM_cons, bind_eq_ok] at hl
    obtain ⟨c, hc, hl⟩ := hl
    rcases List.mem_cons.1 ha with rfl | ha
    · exact ⟨b, c, hc⟩
    · exact ih hl ha

/-- A loop whose iterations all return is a fold. -/
theorem foldlM_eq_foldl {f : β → α → Except ε β} {g : β → α → β} {l : List α}
    (h : ∀ b a, a ∈ l → f b a = .ok (g b a)) (b : β) : l.foldlM f b = .ok (l.foldl g b) := by
  induction l generalizing b with
  | nil => rfl
  | cons a l ih =>
    rw [List.foldlM_cons, h b a List.mem_cons_self, ok_bind, List.foldl_cons]
    exact ih (fun b a ha => h b a (List.mem_cons_of_mem _ ha)) _

/-- A loop whose iterations all return, returns. -/
theorem foldlM_eq_ok {P : β → Prop} {f : β → α → Except ε β} {l : List α}
    (step : ∀ b a, a ∈ l → P b → ∃ b', f b a = .ok b' ∧ P b') {b : β} (h : P b) :
    ∃ b', l.foldlM f b = .ok b' ∧ P b' := by
  induction l generalizing b with
  | nil => exact ⟨b, rfl, h⟩
  | cons a l ih =>
    obtain ⟨c, hc, hPc⟩ := step b a List.mem_cons_self h
    obtain ⟨b', hb', hPb'⟩ := ih (fun b a ha => step b a (List.mem_cons_of_mem _ ha)) hPc
    refine ⟨b', ?_, hPb'⟩
    rw [List.foldlM_cons, hc]
    exact hb'

/-! ### Simulation -/

/-- Whenever `x` returns, so does `y`, and the results are related. -/
def Simulates (R : α → β → Prop) (x : Except ε α) (y : Except ε β) : Prop :=
  ∀ a, x = .ok a → ∃ b, y = .ok b ∧ R a b

namespace Simulates

variable {δ : Type} {R : α → β → Prop} {Q : γ → δ → Prop} {x : Except ε α} {y : Except ε β}

theorem pure {a : α} {b : β} (h : R a b) :
    Simulates R (Pure.pure a : Except ε α) (Pure.pure b) :=
  fun _ ha => ⟨b, rfl, pure_eq_ok.1 ha ▸ h⟩

/-- The same program, with results that are related to themselves. -/
theorem refl {R : α → α → Prop} (h : ∀ a, R a a) (x : Except ε α) : Simulates R x x :=
  fun a ha => ⟨a, ha, h a⟩

theorem throw {e : ε} : Simulates R (throw e : Except ε α) y :=
  fun _ ha => (throw_eq_ok.1 ha).elim

/-- A guard that follows from the one of the first program. -/
theorem require {p q : Prop} [Decidable p] [Decidable q] {e e' : ε} (h : p → q) :
    Simulates (fun _ _ => q) (LarkX.require p e) (LarkX.require q e') :=
  fun _ ha => ⟨(), require_eq_ok.2 (h (require_eq_ok.1 ha)), h (require_eq_ok.1 ha)⟩

theorem bind {f : α → Except ε γ} {g : β → Except ε δ} (h : Simulates R x y)
    (hf : ∀ a b, R a b → Simulates Q (f a) (g b)) : Simulates Q (x >>= f) (y >>= g) := by
  intro c hc
  obtain ⟨a, ha, hc⟩ := bind_eq_ok.1 hc
  obtain ⟨b, hb, hab⟩ := h a ha
  obtain ⟨d, hd, hcd⟩ := hf a b hab c hc
  exact ⟨d, bind_eq_ok.2 ⟨b, hb, hd⟩, hcd⟩

/-- Both programs start with the same computation. -/
theorem bind_same {z : Except ε γ} {f : γ → Except ε α} {g : γ → Except ε β}
    (hf : ∀ c, z = .ok c → Simulates R (f c) (g c)) : Simulates R (z >>= f) (z >>= g) := by
  intro a ha
  obtain ⟨c, hc, ha⟩ := bind_eq_ok.1 ha
  obtain ⟨b, hb, hab⟩ := hf c hc a ha
  exact ⟨b, bind_eq_ok.2 ⟨c, hc, hb⟩, hab⟩

/-- Both programs take the same branch. -/
theorem ite {p : Prop} [Decidable p] {x' : Except ε α} {y' : Except ε β}
    (h : p → Simulates R x y) (h' : ¬p → Simulates R x' y') :
    Simulates R (if p then x else x') (if p then y else y') := by
  split
  · exact h ‹p›
  · exact h' ‹¬p›

/-- Loops whose rounds simulate one another. -/
theorem foldlM {f : α → γ → Except ε α} {g : β → γ → Except ε β} {l : List γ}
    (step : ∀ a b c, c ∈ l → R a b → Simulates R (f a c) (g b c)) {a : α} {b : β} (h : R a b) :
    Simulates R (l.foldlM f a) (l.foldlM g b) := by
  induction l generalizing a b with
  | nil => exact .pure h
  | cons c l ih =>
    rw [List.foldlM_cons, List.foldlM_cons]
    exact (step a b c List.mem_cons_self h).bind fun a' b' h' =>
      ih (fun a b c hc => step a b c (List.mem_cons_of_mem _ hc)) h'

end Simulates

end LarkX
