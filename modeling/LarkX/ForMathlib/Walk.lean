import LarkX.ForMathlib.Table

/-!
# Going through the keys of a table in order

A position in an ordered table is one of its keys or the end. The functions here go from a key
to the one after it and to the one before it, and find the first key that is not below a given
one; the lemmas say what they do to the place of a key in the sorted list of all keys.
-/

namespace LarkX

open Std (ExtTreeMap TransOrd OrientedCmp ReflCmp TransCmp)

/-- An element of a list with what stands before and after it. -/
theorem exists_split_of_getElem? {α : Type} {l : List α} {i : ℕ} {a : α} (h : l[i]? = some a) :
    ∃ l₁ l₂, l = l₁ ++ a :: l₂ ∧ l₁.length = i := by
  obtain ⟨hi, rfl⟩ := List.getElem?_eq_some_iff.1 h
  refine ⟨l.take i, l.drop (i + 1), ?_, List.length_take_of_le hi.le⟩
  rw [← List.drop_eq_getElem_cons hi, List.take_append_drop]

namespace Table

variable {κ α : Type} [Ord κ] [TransOrd κ]

/-- The least key. -/
def firstKey (t : Table κ α) : Option κ :=
  t.keys.head?

/-- The greatest key. -/
def lastKey (t : Table κ α) : Option κ :=
  t.keys.getLast?

/-- The first key that is not below `k`. -/
def keyFrom (t : Table κ α) (k : κ) : Option κ :=
  t.keys.find? fun j => (compare j k).isGE

/-- The first key above `k`. -/
def keyAfter (t : Table κ α) (k : κ) : Option κ :=
  t.keys.find? fun j => (compare j k).isGT

/-- The last key below `k`. -/
def keyBefore (t : Table κ α) (k : κ) : Option κ :=
  t.keys.reverse.find? fun j => (compare j k).isLT

variable {t : Table κ α} {k : κ} {i : ℕ}

/-- What stands before a key is below it, and what stands after it is above. -/
theorem ordered_split {l₁ l₂ : List κ} (h : t.keys = l₁ ++ k :: l₂) :
    (∀ j ∈ l₁, compare j k = .lt) ∧ ∀ j ∈ l₂, compare j k = .gt := by
  have hsorted := ExtTreeMap.ordered_keys (t := t)
  rw [h, List.pairwise_append, List.pairwise_cons] at hsorted
  obtain ⟨-, ⟨hafter, -⟩, hbefore⟩ := hsorted
  refine ⟨fun j hj => hbefore j hj k List.mem_cons_self, fun j hj => ?_⟩
  rw [OrientedCmp.gt_iff_lt]
  exact hafter j hj

theorem keyAfter_of_getElem? (h : t.keys[i]? = some k) : t.keyAfter k = t.keys[i + 1]? := by
  obtain ⟨l₁, l₂, hkeys, rfl⟩ := exists_split_of_getElem? h
  obtain ⟨hbefore, hafter⟩ := ordered_split hkeys
  have hnone : l₁.find? (fun j => (compare j k).isGT) = none :=
    List.find?_eq_none.2 fun j hj => by rw [hbefore j hj]; exact Bool.false_ne_true
  have hself : (compare k k).isGT = false := by rw [show compare k k = .eq from ReflCmp.compare_self]; rfl
  rw [keyAfter, hkeys, List.find?_append, hnone, Option.none_or, List.find?_cons, hself,
    List.getElem?_append_right (by omega), Nat.add_sub_cancel_left, List.getElem?_cons_succ]
  cases l₂ with
  | nil => rfl
  | cons j l₂ =>
    have hj : (compare j k).isGT = true := by rw [hafter j List.mem_cons_self]; rfl
    rw [List.find?_cons, hj, List.getElem?_cons_zero]

theorem keyBefore_of_getElem? (h : t.keys[i + 1]? = some k) : t.keyBefore k = t.keys[i]? := by
  obtain ⟨l₁, l₂, hkeys, hlen⟩ := exists_split_of_getElem? h
  obtain ⟨hbefore, hafter⟩ := ordered_split hkeys
  have hnone : l₂.reverse.find? (fun j => (compare j k).isLT) = none :=
    List.find?_eq_none.2 fun j hj => by
      rw [hafter j (List.mem_reverse.1 hj)]
      exact Bool.false_ne_true
  have hself : (compare k k).isLT = false := by rw [show compare k k = .eq from ReflCmp.compare_self]; rfl
  obtain ⟨l₀, j, rfl⟩ : ∃ l₀ j, l₁ = l₀ ++ [j] := by
    refine ⟨l₁.dropLast, l₁.getLast ?_, (List.dropLast_append_getLast _).symm⟩
    rintro rfl
    cases hlen
  have hj : (compare j k).isLT = true := by rw [hbefore j (by simp)]; rfl
  have hi : l₀.length = i := by simpa using hlen
  rw [keyBefore, hkeys, List.reverse_append, List.reverse_cons, List.append_assoc,
    List.find?_append, hnone, Option.none_or, List.singleton_append, List.find?_cons, hself,
    List.reverse_append, List.reverse_singleton, List.singleton_append, List.find?_cons, hj,
    List.append_assoc, List.getElem?_append_right (by omega), hi, Nat.sub_self]
  rfl

/-- The place of the first key that is not below `k`: all keys before it are below `k`, and none
from there on. -/
theorem exists_keyFrom (t : Table κ α) (k : κ) :
    ∃ i ≤ t.keys.length, t.keyFrom k = t.keys[i]? ∧
      ∀ (n : ℕ) (j : κ), t.keys[n]? = some j → (n < i ↔ compare j k = .lt) := by
  have hfrom : ∀ j, ((compare j k).isGE = false ↔ compare j k = .lt) := fun j => by
    cases compare j k <;> decide
  cases hfound : t.keyFrom k with
  | none =>
    refine ⟨t.keys.length, le_rfl, ?_, fun n j hj => ?_⟩
    · rw [List.getElem?_eq_none le_rfl]
    · have hn := (List.getElem?_eq_some_iff.1 hj).1
      have hbelow := List.find?_eq_none.1 hfound j (List.mem_of_getElem? hj)
      exact ⟨fun _ => (hfrom j).1 (Bool.eq_false_iff.2 hbelow), fun _ => hn⟩
  | some b =>
    obtain ⟨hb, l₁, l₂, hkeys, hbelow⟩ := List.find?_eq_some_iff_append.1 hfound
    have hbefore : ∀ j ∈ l₁, compare j k = .lt := fun j hj =>
      (hfrom j).1 (by simpa using hbelow j hj)
    obtain ⟨-, hafter⟩ := ordered_split hkeys
    refine ⟨l₁.length, ?_, ?_, fun n j hj => ?_⟩
    · rw [hkeys, List.length_append]
      exact Nat.le_add_right _ _
    · rw [hkeys, List.getElem?_append_right le_rfl, Nat.sub_self]
      rfl
    · rw [hkeys] at hj
      constructor
      · intro hn
        rw [List.getElem?_append_left hn] at hj
        exact hbefore j (List.mem_of_getElem? hj)
      · intro hlt
        by_contra hn
        rw [List.getElem?_append_right (not_lt.1 hn)] at hj
        have hbk : (compare b k).isGE = true := hb
        rcases List.mem_cons.1 (List.mem_of_getElem? hj) with rfl | hmem
        · rw [hlt] at hbk
          exact absurd hbk (by decide)
        · -- `j` is above `b`, so it cannot be below `k`
          have hbj : compare b j = .lt := OrientedCmp.gt_iff_lt.1 (hafter j hmem)
          rw [TransCmp.lt_trans hbj hlt] at hbk
          exact absurd hbk (by decide)

end Table

end LarkX
