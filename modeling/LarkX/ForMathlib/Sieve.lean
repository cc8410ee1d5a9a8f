import Mathlib.Data.List.Nodup
import Mathlib.Data.List.Perm.Basic

/-!
# Sieving a list

A step that may refuse an entry goes along a list: an entry it accepts changes the state, an
entry it refuses is passed over. `passed` is the list of the entries that were accepted.

Which entries pass depends on the order of the list. A set of entries is the one that passes
exactly when each entry is in the set if and only if it is accepted after the entries of the set
before it (`passed_eq_filter_iff`). Two orders of the same entries let the same ones pass exactly
when this holds in the one order of what passes in the other (`passes_agree_iff`).
-/

namespace LarkX

namespace Sieve

variable {α σ : Type} (step : σ → α → Option σ)

/-- The entries that are accepted, each after those accepted before it. -/
def passed (s : σ) : List α → List α
  | [] => []
  | a :: l =>
    match step s a with
    | some t => a :: passed t l
    | none => passed s l

/-- The entries that are refused. -/
def refused (s : σ) : List α → List α
  | [] => []
  | a :: l =>
    match step s a with
    | some t => refused t l
    | none => a :: refused s l

/-- The entries of `before` are accepted one after the other, and then `a` is. -/
def Passes (s : σ) (before : List α) (a : α) : Prop :=
  ∃ t, before.foldlM step s = some t ∧ (step t a).isSome

instance (s : σ) (before : List α) (a : α) : Decidable (Passes step s before a) :=
  decidable_of_iff (((before.foldlM step s).bind fun t => step t a).isSome) <| by
    unfold Passes
    cases before.foldlM step s with
    | none => simp only [Option.bind_none, Option.isSome_none, Bool.false_eq_true, reduceCtorEq,
        false_and, exists_false]
    | some t => simp only [Option.bind_some, Option.some.injEq, exists_eq_left']

/-- The set `p` has exactly the entries that are accepted after those of the set before them. -/
def Sifted (s : σ) (l : List α) (p : α → Prop) [DecidablePred p] : Prop :=
  ∀ before a after, l = before ++ a :: after → (p a ↔ Passes step s (before.filter p) a)

variable {step} {s t : σ} {a : α} {l l' : List α} {p : α → Prop} [DecidablePred p]

theorem passed_cons_some (h : step s a = some t) : passed step s (a :: l) = a :: passed step t l := by
  rw [passed, h]

theorem passed_cons_none (h : step s a = none) : passed step s (a :: l) = passed step s l := by
  rw [passed, h]

/-- What passes is among what there was, in the same order. -/
theorem passed_sublist (s : σ) (l : List α) : (passed step s l).Sublist l := by
  induction l generalizing s with
  | nil => exact List.Sublist.refl []
  | cons a l ih =>
    cases h : step s a with
    | none =>
      rw [passed_cons_none h]
      exact (ih s).cons a
    | some t =>
      rw [passed_cons_some h]
      exact (ih t).cons_cons a

theorem mem_of_mem_passed (h : a ∈ passed step s l) : a ∈ l :=
  (passed_sublist s l).subset h

theorem refused_cons_some (h : step s a = some t) : refused step s (a :: l) = refused step t l := by
  rw [refused, h]

theorem refused_cons_none (h : step s a = none) :
    refused step s (a :: l) = a :: refused step s l := by
  rw [refused, h]

/-- Every entry passes or is refused. -/
theorem passed_append_refused (s : σ) (l : List α) :
    (passed step s l ++ refused step s l).Perm l := by
  induction l generalizing s with
  | nil => exact List.Perm.refl []
  | cons a l ih =>
    cases h : step s a with
    | none =>
      rw [passed_cons_none h, refused_cons_none h]
      exact List.perm_middle.trans ((ih s).cons a)
    | some t =>
      rw [passed_cons_some h, refused_cons_some h]
      exact (ih t).cons a

/-- An entry passes when none with its key is refused, if keys are not repeated. -/
theorem mem_passed_iff {κ : Type} {key : α → κ} (hkeys : (l.map key).Nodup) :
    a ∈ passed step s l ↔ a ∈ l ∧ key a ∉ (refused step s l).map key := by
  have hperm : (passed step s l ++ refused step s l).Perm l := passed_append_refused s l
  have hdisjoint : ((passed step s l).map key ++ (refused step s l).map key).Nodup := by
    rw [← List.map_append]
    exact (hperm.map key).nodup_iff.2 hkeys
  constructor
  · intro h
    exact ⟨mem_of_mem_passed h, fun hrefused =>
      (List.nodup_append'.1 hdisjoint).2.2 (List.mem_map_of_mem h) hrefused⟩
  · rintro ⟨ha, hkey⟩
    refine (List.mem_append.1 (hperm.mem_iff.2 ha)).resolve_right fun hrefused => ?_
    exact hkey (List.mem_map_of_mem hrefused)

/-! ### The set that passes -/

theorem sifted_congr {q : α → Prop} [DecidablePred q] (h : ∀ a, p a ↔ q a) :
    Sifted step s l p ↔ Sifted step s l q := by
  unfold Sifted
  simp only [h]

/-- The first entry is accepted or refused where the list starts. -/
theorem passes_nil : Passes step s [] a ↔ (step s a).isSome := by
  unfold Passes
  constructor
  · rintro ⟨_, ⟨⟩, h⟩
    exact h
  · exact fun h => ⟨s, rfl, h⟩

/-- An entry that is accepted first changes the state the others meet. -/
theorem passes_cons {b : α} {before : List α} (h : step s b = some t) :
    Passes step s (b :: before) a ↔ Passes step t before a := by
  unfold Passes
  rw [List.foldlM_cons, h]
  rfl

/-- After an accepted entry, the rest is sifted from the state it leaves. -/
theorem sifted_cons_some (h : step s a = some t) :
    Sifted step s (a :: l) p ↔ p a ∧ Sifted step t l p := by
  constructor
  · intro hs
    have ha : p a := (hs [] a l rfl).2 (passes_nil.2 (h ▸ rfl))
    refine ⟨ha, fun before b after hl => ?_⟩
    rw [hs (a :: before) b after (congrArg (a :: ·) hl),
      List.filter_cons_of_pos (by simpa using ha), passes_cons h]
  · rintro ⟨ha, hs⟩ before b after hl
    cases before with
    | nil =>
      cases hl
      exact iff_of_true ha (passes_nil.2 (h ▸ rfl))
    | cons c before =>
      cases hl
      rw [hs before b after rfl, List.filter_cons_of_pos (by simpa using ha), passes_cons h]

/-- After a refused entry, the rest is sifted from the same state. -/
theorem sifted_cons_none (h : step s a = none) :
    Sifted step s (a :: l) p ↔ ¬p a ∧ Sifted step s l p := by
  have hrefused : ¬Passes step s [] a := by
    rw [passes_nil, h]
    exact Bool.false_ne_true
  constructor
  · intro hs
    have ha : ¬p a := fun ha => hrefused ((hs [] a l rfl).1 ha)
    refine ⟨ha, fun before b after hl => ?_⟩
    rw [hs (a :: before) b after (congrArg (a :: ·) hl), List.filter_cons_of_neg (by simpa using ha)]
  · rintro ⟨ha, hs⟩ before b after hl
    cases before with
    | nil =>
      cases hl
      exact iff_of_false ha hrefused
    | cons c before =>
      cases hl
      rw [hs before b after rfl, List.filter_cons_of_neg (by simpa using ha)]

/-- **The set that passes** is the only one that is sifted. -/
theorem passed_eq_filter_iff (hl : l.Nodup) :
    passed step s l = l.filter p ↔ Sifted step s l p := by
  induction l generalizing s with
  | nil =>
    refine iff_of_true rfl fun before a after h => ?_
    cases before <;> cases h
  | cons a l ih =>
    obtain ⟨ha, hl⟩ := List.nodup_cons.1 hl
    cases h : step s a with
    | some t =>
      rw [passed_cons_some h, sifted_cons_some h, ← ih hl]
      by_cases hp : p a
      · rw [List.filter_cons_of_pos (by simpa using hp), List.cons_inj_right]
        exact (and_iff_right hp).symm
      · rw [List.filter_cons_of_neg (by simpa using hp)]
        refine iff_of_false (fun heq => ?_) fun h => hp h.1
        exact ha (List.mem_of_mem_filter (heq ▸ List.mem_cons_self))
    | none =>
      rw [passed_cons_none h, sifted_cons_none h, ← ih hl]
      by_cases hp : p a
      · rw [List.filter_cons_of_pos (by simpa using hp)]
        refine iff_of_false (fun heq => ?_) fun h => h.1 hp
        exact ha (mem_of_mem_passed (heq ▸ List.mem_cons_self))
      · rw [List.filter_cons_of_neg (by simpa using hp)]
        exact (and_iff_right hp).symm

/-! ### Two orders -/

/-- When no entry is repeated, a set is the one that passes if it has the same entries. -/
theorem sifted_iff_mem (hl : l.Nodup) :
    Sifted step s l p ↔ ∀ a ∈ l, (p a ↔ a ∈ passed step s l) := by
  rw [← passed_eq_filter_iff hl,
    ← hl.perm_iff_eq_of_sublist (passed_sublist s l) List.filter_sublist,
    List.perm_ext_iff_of_nodup (hl.sublist (passed_sublist s l)) (hl.filter _)]
  constructor
  · intro h a ha
    rw [h a, List.mem_filter, decide_eq_true_iff]
    exact (and_iff_right ha).symm
  · intro h a
    rw [List.mem_filter, decide_eq_true_iff]
    exact ⟨fun ha => ⟨mem_of_mem_passed ha, (h a (mem_of_mem_passed ha)).2 ha⟩,
      fun ha => (h a ha.1).1 ha.2⟩

/-- **Two orders of the same entries.** What passes in the second order is sifted in the first
one, exactly when what passes in the first order is sifted in the second. -/
theorem sifted_comm [DecidablePred (· ∈ passed step s l)] [DecidablePred (· ∈ passed step s l')]
    (hl : l.Nodup) (hperm : l.Perm l') :
    Sifted step s l (· ∈ passed step s l') ↔ Sifted step s l' (· ∈ passed step s l) := by
  rw [sifted_iff_mem hl, sifted_iff_mem (hperm.nodup_iff.1 hl)]
  constructor
  · exact fun h a ha => (h a (hperm.mem_iff.2 ha)).symm
  · exact fun h a ha => (h a (hperm.mem_iff.1 ha)).symm

end Sieve

end LarkX
