import LarkX.ForMathlib.Table
import Mathlib.Logic.Relation

/-!
# Marking what can be reached

A table of nodes, each with the set of its children, is a graph. A `Marker` writes a mark into a
node that leaves its children alone and can be written twice. `Marks p t t'` says that exactly
the nodes in `p` were marked.

A program that goes through the graph level by level marks the nodes of a level and goes on with
their children. `Marks.level` is the rule for one level: what is marked in the end is what can be
reached (`Reached`).
-/

namespace LarkX

open Std

/-- A mark for the nodes of a graph that is kept in a table. -/
structure Marker (κ α : Type) [Ord κ] where
  children : α → Table κ Unit
  mark : α → α
  children_mark : ∀ v, children (mark v) = children v
  mark_mark : ∀ v, mark (mark v) = mark v

namespace Marker

variable {κ α : Type} [Ord κ] [TransOrd κ]

/-- `a` is a child of the node `k`. -/
def Child (m : Marker κ α) (t : Table κ α) (k a : κ) : Prop :=
  ∃ v, t[k]? = some v ∧ a ∈ m.children v

/-- `a` can be reached from a node in `s`. -/
def Reached (m : Marker κ α) (t : Table κ α) (s : κ → Prop) (a : κ) : Prop :=
  ∃ k, s k ∧ Relation.ReflTransGen (m.Child t) k a

/-- Exactly the nodes in `p` were marked. -/
structure Marks (m : Marker κ α) (p : κ → Prop) (t t' : Table κ α) : Prop where
  marked : ∀ k, p k → t'[k]? = (t[k]?).map m.mark
  other : ∀ k, ¬p k → t'[k]? = t[k]?

variable {m : Marker κ α} {t t₁ t' : Table κ α} {p q s : κ → Prop} {a k : κ}

/-! ### Reachability -/

theorem reached_of_mem (h : s a) : m.Reached t s a :=
  ⟨a, h, .refl⟩

theorem Reached.child (h : m.Reached t s k) (hchild : m.Child t k a) : m.Reached t s a := by
  obtain ⟨k₀, hk₀, hpath⟩ := h
  exact ⟨k₀, hk₀, hpath.tail hchild⟩

/-- What can be reached is a start, or can be reached from the children of the starts. -/
theorem reached_iff : m.Reached t s a ↔
    s a ∨ m.Reached t (fun a' => ∃ k, s k ∧ m.Child t k a') a := by
  constructor
  · rintro ⟨k, hk, hpath⟩
    rcases hpath.cases_head with rfl | ⟨a', hchild, hpath⟩
    · exact Or.inl hk
    · exact Or.inr ⟨a', ⟨k, hk, hchild⟩, hpath⟩
  · rintro (ha | ⟨a', ⟨k, hk, hchild⟩, hpath⟩)
    · exact reached_of_mem ha
    · exact ⟨k, hk, .head hchild hpath⟩

/-! ### Marks -/

theorem Marks.congr (h : m.Marks p t t') (hp : ∀ k, p k ↔ q k) : m.Marks q t t' :=
  ⟨fun k hk => h.marked k ((hp k).2 hk), fun k hk => h.other k fun hk' => hk ((hp k).1 hk')⟩

theorem marks_none (t : Table κ α) (h : ∀ k, ¬p k) : m.Marks p t t :=
  ⟨fun k hk => absurd hk (h k), fun _ _ => rfl⟩

/-- A node is marked or as it was. -/
theorem Marks.cases (h : m.Marks p t t') (k : κ) :
    p k ∧ t'[k]? = (t[k]?).map m.mark ∨ ¬p k ∧ t'[k]? = t[k]? := by
  by_cases hk : p k
  · exact Or.inl ⟨hk, h.marked k hk⟩
  · exact Or.inr ⟨hk, h.other k hk⟩

/-- What a mark leaves alone is the same at every node. -/
theorem Marks.keeps {β : Type} {f : α → β} (hf : ∀ v, f (m.mark v) = f v) (h : m.Marks p t t')
    (k : κ) : (t'[k]?).map f = (t[k]?).map f := by
  rcases h.cases k with ⟨-, hk⟩ | ⟨-, hk⟩
  · rw [hk, Option.map_map]
    exact congrArg (fun g => (t[k]?).map g) (funext hf)
  · rw [hk]

/-- No node is lost. -/
theorem Marks.known (h : m.Marks p t t') (hk : t[k]? ≠ none) : t'[k]? ≠ none := by
  have hsame := h.keeps (f := fun _ => ()) (fun _ => rfl) k
  intro hnone
  rw [hnone, Option.map_none, eq_comm, Option.map_eq_none_iff] at hsame
  exact hk hsame

/-- Marking a node. -/
theorem marks_insert [LawfulEqOrd κ] {v : α} (h : t[k]? = some v) :
    m.Marks (· = k) t (t.insert k (m.mark v)) := by
  refine ⟨fun a ha => ?_, fun a ha => Table.getElem?_insert_of_ne t _ ha⟩
  rw [ha, Table.getElem?_insert_same, h, Option.map_some]

/-- A node that is written back is not marked. -/
theorem marks_rewrite [LawfulEqOrd κ] {v : α} (hv : t[k]? = some v) (h : ∀ k, ¬p k) :
    m.Marks p t (t.insert k v) := by
  refine ⟨fun a ha => absurd ha (h a), fun a _ => ?_⟩
  by_cases ha : a = k
  · rw [ha, Table.getElem?_insert_same, hv]
  · exact Table.getElem?_insert_of_ne t v ha

/-- Marks add up. -/
theorem Marks.trans (h : m.Marks p t t₁) (h' : m.Marks q t₁ t') :
    m.Marks (fun k => p k ∨ q k) t t' := by
  have htwice : m.mark ∘ m.mark = m.mark := funext m.mark_mark
  refine ⟨fun k hk => ?_, fun k hk => ?_⟩
  · rcases h.cases k with ⟨-, hfirst⟩ | ⟨hnp, hfirst⟩
    · rcases h'.cases k with ⟨-, hsecond⟩ | ⟨-, hsecond⟩
      · rw [hsecond, hfirst, Option.map_map, htwice]
      · rw [hsecond, hfirst]
    · rw [h'.marked k (hk.resolve_left hnp), hfirst]
  · rw [not_or] at hk
    rw [h'.other k hk.2, h.other k hk.1]

/-- Marks do not change who is whose child. -/
theorem Marks.child_iff (h : m.Marks p t t') : m.Child t' k a ↔ m.Child t k a := by
  have hsame := h.keeps m.children_mark k
  unfold Child
  constructor
  · rintro ⟨v', hv', ha⟩
    rw [hv', Option.map_some, eq_comm, Option.map_eq_some_iff] at hsame
    obtain ⟨v, hv, hchildren⟩ := hsame
    exact ⟨v, hv, hchildren ▸ ha⟩
  · rintro ⟨v, hv, ha⟩
    rw [hv, Option.map_some, Option.map_eq_some_iff] at hsame
    obtain ⟨v', hv', hchildren⟩ := hsame
    exact ⟨v', hv', hchildren ▸ ha⟩

theorem Marks.reached_iff (h : m.Marks p t t') : m.Reached t' s a ↔ m.Reached t s a := by
  have hchild : m.Child t' = m.Child t := funext fun _ => funext fun _ => propext h.child_iff
  unfold Reached
  rw [hchild]

/-- **The rule for one level**: the nodes of a level were marked, and then what can be reached
from their children. -/
theorem Marks.level (h : m.Marks s t t₁)
    (hnext : m.Marks (m.Reached t₁ fun a => ∃ k, s k ∧ m.Child t k a) t₁ t') :
    m.Marks (m.Reached t s) t t' := by
  refine (h.trans hnext).congr fun a => ?_
  rw [h.reached_iff, ← Marker.reached_iff]

/-- The children of a node. -/
theorem child_eq_mem {v : α} (hv : t[k]? = some v) :
    (fun a => ∃ k', k' = k ∧ m.Child t k' a) = (· ∈ m.children v) := by
  funext a
  refine propext ⟨?_, fun ha => ⟨k, rfl, v, hv, ha⟩⟩
  rintro ⟨_, rfl, v', hv', ha⟩
  cases hv.symm.trans hv'
  exact ha

/-- A node is marked, and then what can be reached from its children. -/
theorem Marks.from_root [LawfulEqOrd κ] {v : α} (hv : t[k]? = some v)
    (h : m.Marks (m.Reached (t.insert k (m.mark v)) (· ∈ m.children v)) (t.insert k (m.mark v)) t') :
    m.Marks (m.Reached t (· = k)) t t' := by
  refine (marks_insert hv).level ?_
  rw [child_eq_mem hv]
  exact h

/-- What can be reached from the children of a node is marked, and then the node itself. -/
theorem Marks.root [LawfulEqOrd κ] {v : α} (hv : t[k]? = some v)
    (h : m.Marks (m.Reached t (· ∈ m.children v)) t t₁) :
    m.Marks (m.Reached t (· = k)) t (t₁.insert k (m.mark v)) := by
  obtain ⟨w, hw, hmark⟩ : ∃ w, t₁[k]? = some w ∧ m.mark w = m.mark v := by
    rcases h.cases k with ⟨-, hk⟩ | ⟨-, hk⟩
    · exact ⟨m.mark v, by rw [hk, hv, Option.map_some], m.mark_mark v⟩
    · exact ⟨v, hk.trans hv, rfl⟩
  rw [← hmark]
  refine (h.trans (marks_insert hw)).congr fun a => ?_
  rw [Marker.reached_iff (s := (· = k)), child_eq_mem hv, or_comm]

end Marker

end LarkX
