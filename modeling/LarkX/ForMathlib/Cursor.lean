import LarkX.ForMathlib.Table

/-!
# Walking a table with a cursor

A run that takes entries from an ordered list one after the other holds one of them *in hand* and
may write that one back to the table the list was read from. `Table.Cursor` says that the entry in
hand and those ahead are still what the table holds, in the order of the walk; a write to the
entry in hand, or to a key outside, keeps it.

`Table.Walk` adds what a walk leaves behind: an entry that is let go of is *settled*, and only
entries that were taken have changed.
-/

namespace LarkX

namespace Table

open Std (TransOrd LawfulEqOrd)

variable {κ α : Type} [Ord κ] [TransOrd κ] [LawfulEqOrd κ] {before : κ → κ → Prop}
  {settled : κ → α → Prop} {start ahead rest : List (κ × α)} {old t : Table κ α}
  {hand : Option (κ × α)} {k : κ} {v w : α}

/-! ### Cursors -/

/-- The entry in hand and the entries ahead are entries of the table, in order. -/
structure Cursor (before : κ → κ → Prop) (t : Table κ α) (hand : Option (κ × α))
    (ahead : List (κ × α)) : Prop where
  agrees : ∀ x ∈ ahead, t[x.1]? = some x.2
  sorted : ahead.Pairwise fun x y => before x.1 y.1
  held : ∀ x ∈ hand, t[x.1]? = some x.2
  first : ∀ x ∈ hand, ∀ y ∈ ahead, before x.1 y.1

namespace Cursor

omit [LawfulEqOrd κ] in
/-- A cursor in front of the entries of a sorted list. -/
theorem of_sorted (hentries : ∀ x ∈ ahead, t[x.1]? = some x.2)
    (hsorted : ahead.Pairwise fun x y => before x.1 y.1) : Cursor before t none ahead :=
  ⟨hentries, hsorted, fun _ h => (Option.not_mem_none _ h).elim,
    fun _ h => (Option.not_mem_none _ h).elim⟩

omit [LawfulEqOrd κ] in
/-- The entry in hand is let go of. -/
theorem release (h : Cursor before t hand ahead) : Cursor before t none ahead :=
  of_sorted h.agrees h.sorted

omit [LawfulEqOrd κ] in
/-- The next entry is taken. -/
theorem next {x : κ × α} (h : Cursor before t hand (x :: rest)) : Cursor before t (some x) rest := by
  obtain ⟨hfirst, hsorted⟩ := List.pairwise_cons.1 h.sorted
  refine ⟨fun y hy => h.agrees y (List.mem_cons_of_mem _ hy), hsorted, fun y hy => ?_, fun y hy => ?_⟩
  · cases hy
    exact h.agrees x List.mem_cons_self
  · cases hy
    exact hfirst

/-- A write to a key that the cursor has not to do with. -/
theorem insert (h : Cursor before t hand ahead) (hhand : ∀ x ∈ hand, x.1 ≠ k)
    (hahead : ∀ x ∈ ahead, x.1 ≠ k) : Cursor before (t.insert k v) hand ahead where
  agrees x hx := (getElem?_insert_of_ne t v (hahead x hx)).trans (h.agrees x hx)
  sorted := h.sorted
  held x hx := (getElem?_insert_of_ne t v (hhand x hx)).trans (h.held x hx)
  first := h.first

/-- The entry in hand is written back. -/
theorem write (hirrefl : ∀ k, ¬before k k) (h : Cursor before t (some (k, v)) ahead) :
    Cursor before (t.insert k w) (some (k, w)) ahead where
  agrees x hx := by
    have hne : x.1 ≠ k := by
      rintro rfl
      exact hirrefl x.1 (h.first _ rfl x hx)
    exact (getElem?_insert_of_ne t w hne).trans (h.agrees x hx)
  sorted := h.sorted
  held x hx := by
    cases hx
    exact getElem?_insert_same ..
  first x hx := by
    cases hx
    exact h.first (k, v) rfl

end Cursor

/-! ### Walks -/

/-- A walk that has come from `start` on the table `old` to where it is now: what it let go of is
settled, and nothing but what it took has changed. -/
structure Walk (settled : κ → α → Prop) (before : κ → κ → Prop) (start : List (κ × α))
    (old t : Table κ α) (hand : Option (κ × α)) (ahead : List (κ × α)) : Prop extends
    Cursor before t hand ahead where
  mem : ∀ x ∈ ahead, x ∈ start
  taken : ∀ x ∈ hand, ∃ y ∈ start, y.1 = x.1 ∧ y ∉ ahead
  done : ∀ x ∈ start, x ∈ ahead ∨ (∃ y ∈ hand, y.1 = x.1) ∨ ∃ v, t[x.1]? = some v ∧ settled x.1 v
  frame : ∀ k, t[k]? ≠ old[k]? → ∃ x ∈ start, x.1 = k ∧ x ∉ ahead

namespace Walk

omit [LawfulEqOrd κ] in
/-- A walk that starts. -/
theorem refl (hentries : ∀ x ∈ ahead, t[x.1]? = some x.2)
    (hsorted : ahead.Pairwise fun x y => before x.1 y.1) :
    Walk settled before ahead t t none ahead where
  toCursor := .of_sorted hentries hsorted
  mem _ hx := hx
  taken _ hx := (Option.not_mem_none _ hx).elim
  done _ hx := Or.inl hx
  frame _ hk := absurd rfl hk

omit [LawfulEqOrd κ] in
/-- An entry in hand that is settled is let go of. -/
theorem release (h : Walk settled before start old t hand ahead)
    (hsettled : ∀ x ∈ hand, settled x.1 x.2) : Walk settled before start old t none ahead where
  toCursor := h.toCursor.release
  mem := h.mem
  taken _ hx := (Option.not_mem_none _ hx).elim
  done x hx := by
    obtain hahead | ⟨y, hy, heq⟩ | hdone := h.done x hx
    · exact Or.inl hahead
    · exact Or.inr (Or.inr ⟨y.2, heq ▸ h.held y hy, heq ▸ hsettled y hy⟩)
    · exact Or.inr (Or.inr hdone)
  frame := h.frame

omit [LawfulEqOrd κ] in
/-- The next entry is taken, and the one in hand is let go of. -/
theorem next {x : κ × α} (hirrefl : ∀ k, ¬before k k)
    (h : Walk settled before start old t hand (x :: rest))
    (hsettled : ∀ x ∈ hand, settled x.1 x.2) :
    Walk settled before start old t (some x) rest where
  toCursor := h.toCursor.next
  mem y hy := h.mem y (List.mem_cons_of_mem _ hy)
  taken y hy := by
    cases hy
    refine ⟨x, h.mem x List.mem_cons_self, rfl, fun hx => ?_⟩
    exact hirrefl x.1 ((List.pairwise_cons.1 h.sorted).1 x hx)
  done y hy := by
    obtain hahead | hnone | hdone := (h.release hsettled).done y hy
    · rcases List.mem_cons.1 hahead with rfl | hrest
      · exact Or.inr (Or.inl ⟨y, rfl, rfl⟩)
      · exact Or.inl hrest
    · obtain ⟨_, hnone, -⟩ := hnone
      exact (Option.not_mem_none _ hnone).elim
    · exact Or.inr (Or.inr hdone)
  frame k hk := by
    obtain ⟨y, hy, heq, hnot⟩ := h.frame k hk
    exact ⟨y, hy, heq, fun hrest => hnot (List.mem_cons_of_mem _ hrest)⟩

/-- The entry in hand is written back. -/
theorem write (hirrefl : ∀ k, ¬before k k)
    (h : Walk settled before start old t (some (k, v)) ahead) :
    Walk settled before start old (t.insert k w) (some (k, w)) ahead where
  toCursor := h.toCursor.write hirrefl
  mem := h.mem
  taken x hx := by
    cases hx
    exact h.taken (k, v) rfl
  done x hx := by
    obtain hahead | ⟨y, hy, heq⟩ | ⟨u, hu, hsettled⟩ := h.done x hx
    · exact Or.inl hahead
    · cases hy
      exact Or.inr (Or.inl ⟨(k, w), rfl, heq⟩)
    · by_cases hk : x.1 = k
      · exact Or.inr (Or.inl ⟨(k, w), rfl, hk.symm⟩)
      · exact Or.inr (Or.inr ⟨u, (getElem?_insert_of_ne t w hk).trans hu, hsettled⟩)
  frame a ha := by
    by_cases hk : a = k
    · obtain ⟨y, hy, heq, hnot⟩ := h.taken (k, v) rfl
      exact ⟨y, hy, heq.trans hk.symm, hnot⟩
    · rw [getElem?_insert_of_ne t w hk] at ha
      exact h.frame a ha

omit [LawfulEqOrd κ] in
/-- Where an entry of the table is now: ahead, in hand, or settled. -/
theorem where_is (h : Walk settled before start old t hand ahead) (hk : t[k]? = some v)
    (hstart : ∀ w, old[k]? = some w → ∃ x ∈ start, x.1 = k) :
    (k, v) ∈ ahead ∨ (k, v) ∈ hand ∨ settled k v := by
  have hvalue : ∀ {w : α}, t[k]? = some w → w = v := fun hw => Option.some.inj (hw.symm.trans hk)
  obtain ⟨x, hx, rfl⟩ : ∃ x ∈ start, x.1 = k := by
    by_cases hsame : t[k]? = old[k]?
    · exact hstart v (hsame ▸ hk)
    · obtain ⟨x, hx, heq, -⟩ := h.frame k hsame
      exact ⟨x, hx, heq⟩
  obtain hahead | ⟨y, hy, heq⟩ | ⟨w, hw, hsettled⟩ := h.done x hx
  · exact Or.inl (hvalue (h.agrees x hahead) ▸ hahead)
  · have hheld := h.held y hy
    rw [heq] at hheld
    refine Or.inr (Or.inl ?_)
    rw [← heq, ← hvalue hheld]
    exact hy
  · exact Or.inr (Or.inr (hvalue hw ▸ hsettled))

end Walk

end Table

end LarkX
