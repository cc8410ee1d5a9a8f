import Mathlib.Data.List.Flatten
import Mathlib.Data.List.Pairwise
import Mathlib.Order.Lattice

/-!
# Reading a list that is kept in pieces

A list is kept in pieces, and a reader goes through some of them and passes over the others. It
skips whole pieces as long as there is enough left to skip, gives out the next piece, and fills up
with those after it until the limit is reached. `page` is what it gives out; where the skip ends
inside of a piece, `page` is that piece, as an error.

The items carry stamps that fall from piece to piece, so that no item of one piece is in another.
With them `page_eq_iff` says exactly when `page` is the slice of the list that was asked for: the
skip has to end where a piece ends, the piece after it has to fit, and nothing may be passed over
before the page is full.
-/

namespace LarkX

variable {ρ σ : Type}

/-- A piece of a list, and whether the reader goes through it. -/
structure Piece (ρ : Type) where
  items : List ρ
  isRead : Bool

namespace Piece

/-- The whole list. -/
def all (l : List (Piece ρ)) : List ρ :=
  l.flatMap items

/-- The pieces that the reader goes through. -/
def read (l : List (Piece ρ)) : List (List ρ) :=
  (l.filter isRead).map items

/-- A slice of a list. -/
def slice (skip limit : ℕ) (l : List ρ) : List ρ :=
  (l.drop skip).take limit

/-- What the reader gives out. -/
def page (limit : ℕ) : ℕ → List (List ρ) → Except (List ρ) (List ρ)
  | _, [] => .ok []
  | skip, p :: rest =>
    if skip = 0 then .ok (p ++ rest.flatten.take (limit - p.length))
    else if p.length ≤ skip then page limit (skip - p.length) rest
    else .error p

/-- The skip ends where a piece ends, and the piece after it is not over the limit. -/
def EndsAtBorder (limit : ℕ) : ℕ → List (List ρ) → Prop
  | _, [] => True
  | skip, p :: rest =>
    if skip = 0 then p.length ≤ limit
    else p.length ≤ skip ∧ EndsAtBorder limit (skip - p.length) rest

/-- No item is passed over before the reader has gone through `quota` of them. -/
def MissesNone : ℕ → List (Piece ρ) → Prop
  | _, [] => True
  | quota, p :: rest =>
    if p.isRead then MissesNone (quota - p.items.length) rest
    else (quota = 0 ∨ p.items = []) ∧ MissesNone quota rest

/-! ### Stamps -/

/-- The stamps fall from piece to piece. -/
structure Stamped [LT σ] (stamp : ρ → σ) (l : List (List ρ)) : Prop where
  falls : l.Pairwise fun p q => ∀ a ∈ p, ∀ b ∈ q, stamp b < stamp a
  same : ∀ p ∈ l, ∀ a ∈ p, ∀ b ∈ p, stamp a = stamp b

section Stamped

variable [LinearOrder σ] {stamp : ρ → σ} {l l' : List (List ρ)} {p : List ρ}

theorem Stamped.sublist (h : Stamped stamp l) (hl : l'.Sublist l) : Stamped stamp l' :=
  ⟨h.falls.sublist hl, fun p hp => h.same p (hl.subset hp)⟩

theorem Stamped.of_cons (h : Stamped stamp (p :: l)) : Stamped stamp l :=
  h.sublist (List.sublist_cons_self p l)

theorem Stamped.lt_of_mem (h : Stamped stamp (p :: l)) {a b : ρ} (ha : a ∈ p) (hb : b ∈ l.flatten) :
    stamp b < stamp a := by
  obtain ⟨q, hq, hb⟩ := List.mem_flatten.1 hb
  exact (List.pairwise_cons.1 h.falls).1 q hq a ha b hb

/-- The stamps of the whole list do not rise. -/
theorem Stamped.pairwise (h : Stamped stamp l) :
    l.flatten.Pairwise fun a b => stamp b ≤ stamp a := by
  rw [List.pairwise_flatten]
  refine ⟨fun p hp => ?_, h.falls.imp fun hpq a ha b hb => (hpq a ha b hb).le⟩
  exact List.pairwise_of_forall_mem_list fun a ha b hb => (h.same p hp b hb a ha).le

/-- At most `i` stamps are above the one at place `i`. -/
theorem countP_le_of_getElem? {l : List ρ} (h : l.Pairwise fun a b => stamp b ≤ stamp a) {i : ℕ}
    {e : ρ} (hi : l[i]? = some e) : l.countP (fun a => stamp e < stamp a) ≤ i := by
  induction l generalizing i with
  | nil => cases hi
  | cons a l ih =>
    rw [List.pairwise_cons] at h
    cases i with
    | zero =>
      cases hi
      refine Nat.le_of_eq (List.countP_eq_zero.2 fun b hb => ?_)
      rw [decide_eq_true_iff, not_lt]
      rcases List.mem_cons.1 hb with rfl | hb
      · exact le_rfl
      · exact h.1 b hb
    | succ i =>
      have hrest := ih h.2 hi
      rw [List.countP_cons]
      split <;> omega

end Stamped

/-! ### The reader -/

theorem read_cons_of_read {p : Piece ρ} {l : List (Piece ρ)} (h : p.isRead = true) :
    read (p :: l) = p.items :: read l := by
  rw [read, List.filter_cons, if_pos h]
  rfl

theorem read_cons_of_not_read {p : Piece ρ} {l : List (Piece ρ)} (h : ¬p.isRead = true) :
    read (p :: l) = read l := by
  rw [read, List.filter_cons, if_neg h]
  rfl

theorem all_cons (p : Piece ρ) (l : List (Piece ρ)) : all (p :: l) = p.items ++ all l :=
  List.flatMap_cons

theorem all_eq_flatten (l : List (Piece ρ)) : all l = (l.map items).flatten :=
  List.flatMap_def

theorem read_sublist (l : List (Piece ρ)) : (read l).Sublist (l.map items) :=
  List.filter_sublist.map items

theorem flatten_read_sublist (l : List (Piece ρ)) : (read l).flatten.Sublist (all l) := by
  rw [all_eq_flatten]
  exact (read_sublist l).flatten

variable {limit skip : ℕ} {v : List (List ρ)} {r p : List ρ}

theorem mem_of_page (h : page limit skip v = .ok r) {a : ρ} (ha : a ∈ r) : a ∈ v.flatten := by
  induction v generalizing skip with
  | nil =>
    cases h
    cases ha
  | cons p rest ih =>
    unfold page at h
    rw [List.flatten_cons, List.mem_append]
    split at h
    · cases h
      rcases List.mem_append.1 ha with ha | ha
      · exact .inl ha
      · exact .inr (List.mem_of_mem_take ha)
    · split at h
      · exact .inr (ih h)
      · cases h

theorem mem_of_page_error (h : page limit skip v = .error p) : p ∈ v ∧ p ≠ [] := by
  induction v generalizing skip with
  | nil => cases h
  | cons q rest ih =>
    unfold page at h
    split at h
    · cases h
    · split at h
      · exact ⟨List.mem_cons_of_mem _ (ih h).1, (ih h).2⟩
      · rename_i hlt
        cases h
        refine ⟨List.mem_cons_self, ?_⟩
        rintro rfl
        exact hlt (Nat.zero_le _)

/-- Where all is skipped nothing is given out. -/
theorem page_of_length_le (h : v.flatten.length ≤ skip) : page limit skip v = .ok [] := by
  induction v generalizing skip with
  | nil => rfl
  | cons p rest ih =>
    rw [List.flatten_cons, List.length_append] at h
    unfold page
    split
    · have hp : p = [] := List.length_eq_zero_iff.1 (by omega)
      have hrest : rest.flatten = [] := List.length_eq_zero_iff.1 (by omega)
      rw [hp, hrest, List.take_nil, List.append_nil]
    · rw [if_pos (by omega)]
      exact ih (by omega)

theorem page_zero_iff : page 0 skip v = .ok [] ↔ EndsAtBorder 0 skip v := by
  induction v generalizing skip with
  | nil => exact iff_of_true rfl trivial
  | cons p rest ih =>
    unfold page EndsAtBorder
    split
    · rw [Nat.zero_sub, List.take_zero, List.append_nil, Except.ok.injEq, Nat.le_zero,
        List.length_eq_zero_iff]
    · split
      · rename_i hle
        rw [ih, and_iff_right hle]
      · rename_i hle
        exact iff_of_false nofun fun h => hle h.1

section Slice

variable [LinearOrder σ] {stamp : ρ → σ} {l : List (Piece ρ)}

/-- What stands before a page is what has been skipped. -/
theorem countP_of_page (hv : Stamped stamp v) {e : ρ} (h : page limit skip v = .ok (e :: r)) :
    v.flatten.countP (fun a => stamp e < stamp a) = skip := by
  induction v generalizing skip with
  | nil => cases h
  | cons p rest ih =>
    unfold page at h
    split at h
    · rename_i hskip
      obtain ⟨t, ht⟩ : e :: r <+: (p :: rest).flatten := by
        rw [← Except.ok.inj h]
        exact (List.prefix_append_right_inj p).2 (List.take_prefix _ _)
      have hfirst : (p :: rest).flatten[0]? = some e := by
        rw [← ht]
        rfl
      rw [hskip]
      exact Nat.le_zero.1 (countP_le_of_getElem? hv.pairwise hfirst)
    · split at h
      · have hmem := mem_of_page h List.mem_cons_self
        have habove : p.countP (fun a => stamp e < stamp a) = p.length :=
          List.countP_eq_length.2 fun a ha => decide_eq_true (hv.lt_of_mem ha hmem)
        rw [List.flatten_cons, List.countP_append, habove, ih hv.of_cons h]
        omega
      · cases h

/-- Where the skip ends inside of a piece, the slice does not begin below it. -/
theorem lt_countP_of_page_error (hv : Stamped stamp v) (h : page limit skip v = .error p) {a : ρ}
    (ha : a ∈ p) : skip < v.flatten.countP fun b => stamp a ≤ stamp b := by
  induction v generalizing skip with
  | nil => cases h
  | cons q rest ih =>
    rw [List.flatten_cons, List.countP_append]
    unfold page at h
    split at h
    · cases h
    · split at h
      · have hmem := List.mem_flatten_of_mem (mem_of_page_error h).1 ha
        have habove : q.countP (fun b => stamp a ≤ stamp b) = q.length :=
          List.countP_eq_length.2 fun b hb => decide_eq_true (hv.lt_of_mem hb hmem).le
        have hrest := ih hv.of_cons h
        omega
      · cases h
        have habove : p.countP (fun b => stamp a ≤ stamp b) = p.length :=
          List.countP_eq_length.2 fun b hb =>
            decide_eq_true (hv.same p List.mem_cons_self a ha b hb).le
        omega

/-- Nothing is missed exactly if the reader and the whole list begin alike. -/
theorem missesNone_iff (hl : Stamped stamp (l.map items)) {quota : ℕ} :
    MissesNone quota l ↔ (read l).flatten.take quota = (all l).take quota := by
  induction l generalizing quota with
  | nil => exact iff_of_true trivial rfl
  | cons p l ih =>
    have ih := fun q => @ih hl.of_cons q
    unfold MissesNone
    by_cases hread : p.isRead = true
    · rw [if_pos hread, read_cons_of_read hread, all_cons, List.flatten_cons, List.take_append,
        List.take_append, List.append_cancel_left_eq]
      exact ih _
    · rw [if_neg hread, read_cons_of_not_read hread, all_cons]
      cases hitems : p.items with
      | nil =>
        rw [and_iff_right (.inr rfl), List.nil_append]
        exact ih _
      | cons a items =>
        cases quota with
        | zero => exact iff_of_true ⟨.inl rfl, (ih 0).2 rfl⟩ rfl
        | succ quota =>
          refine iff_of_false (fun h => h.1.elim nofun nofun) fun h => ?_
          -- the first item of the piece is in no other one
          have hmem : a ∈ (read l).flatten := by
            refine List.mem_of_mem_take (i := quota + 1) ?_
            rw [h, List.cons_append, List.take_succ_cons]
            exact List.mem_cons_self
          have hall := (flatten_read_sublist l).subset hmem
          rw [all_eq_flatten] at hall
          have ha : a ∈ p.items := by
            rw [hitems]
            exact List.mem_cons_self
          exact absurd (hl.lt_of_mem ha hall) (lt_irrefl _)

/-- No page is the slice of a list with a piece in front that the reader does not go through. -/
theorem page_ne_slice (hl : Stamped stamp (p :: l.map items)) (hp : p ≠ []) (hlimit : 0 < limit)
    (hskip : skip < (p ++ all l).length) :
    page limit skip (read l) ≠ .ok (slice skip limit (p ++ all l)) := by
  intro h
  obtain ⟨e, he⟩ : ∃ e, (p ++ all l)[skip]? = some e := ⟨_, List.getElem?_eq_getElem hskip⟩
  obtain ⟨r, hr⟩ : ∃ r, slice skip limit (p ++ all l) = e :: r := by
    obtain ⟨n, rfl⟩ := Nat.exists_eq_add_of_le' hlimit
    obtain ⟨-, rfl⟩ := List.getElem?_eq_some_iff.1 he
    rw [slice, List.drop_eq_getElem_cons hskip, List.take_succ_cons]
    exact ⟨_, rfl⟩
  rw [hr] at h
  have hread := countP_of_page (hl.of_cons.sublist (read_sublist l)) h
  have hmem : e ∈ (l.map items).flatten := by
    rw [← all_eq_flatten]
    exact (flatten_read_sublist l).subset (mem_of_page h List.mem_cons_self)
  have habove : p.countP (fun a => stamp e < stamp a) = p.length :=
    List.countP_eq_length.2 fun a ha => decide_eq_true (hl.lt_of_mem ha hmem)
  rw [all_eq_flatten, ← List.flatten_cons] at he
  have hbelow := countP_le_of_getElem? hl.pairwise he
  rw [List.flatten_cons, ← all_eq_flatten, List.countP_append, habove] at hbelow
  have hsub := (flatten_read_sublist l).countP_le (p := fun a => stamp e < stamp a)
  have hpos := List.length_pos_iff.2 hp
  omega

theorem slice_of_length_le {r : List ρ} (h : r.length ≤ skip) : slice skip limit r = [] := by
  rw [slice, List.drop_eq_nil_of_le h, List.take_nil]

/-- A page that begins with a piece. -/
theorem append_take_eq_iff (hl : Stamped stamp (l.map items)) (p : List ρ) :
    p ++ (read l).flatten.take (limit - p.length) = slice 0 limit (p ++ all l) ↔
      (p ++ all l).length ≤ 0 ∨
        p.length ≤ limit ∧ (limit = 0 ∨ MissesNone (limit - p.length) l) := by
  rw [slice, List.drop_zero]
  constructor
  · intro h
    have hle : p.length ≤ limit := by
      have hlength := List.length_take_le limit (p ++ all l)
      rw [← h, List.length_append] at hlength
      omega
    rw [List.take_append, List.take_of_length_le hle, List.append_cancel_left_eq] at h
    exact .inr ⟨hle, .inr ((missesNone_iff hl).2 h)⟩
  · rintro (hnone | ⟨hle, hor⟩)
    · have hnil := List.length_eq_zero_iff.1 (Nat.le_zero.1 hnone)
      obtain ⟨rfl, hall⟩ := List.append_eq_nil_iff.1 hnil
      have hread := flatten_read_sublist l
      rw [hall, List.sublist_nil] at hread
      rw [hnil, hread, List.take_nil, List.take_nil, List.append_nil]
    · rw [List.take_append, List.take_of_length_le hle, List.append_cancel_left_eq]
      rcases hor with hlimit | hmisses
      · rw [hlimit, Nat.zero_sub, List.take_zero, List.take_zero]
      · exact (missesNone_iff hl).1 hmisses

/-- **The page is the slice** exactly if there is nothing to give out; or the skip ends where a
piece ends, the piece after it fits, and nothing is missed before the page is full. -/
theorem page_eq_iff (hl : Stamped stamp (l.map items)) :
    page limit skip (read l) = .ok (slice skip limit (all l)) ↔
      (all l).length ≤ skip ∨
        EndsAtBorder limit skip (read l) ∧ (limit = 0 ∨ MissesNone (skip + limit) l) := by
  induction l generalizing skip with
  | nil =>
    refine iff_of_true ?_ (.inl (Nat.zero_le _))
    rw [slice_of_length_le (Nat.zero_le _)]
    rfl
  | cons p l ih =>
    have hl' : Stamped stamp (l.map items) := Stamped.of_cons hl
    by_cases hread : p.isRead = true
    · rw [read_cons_of_read hread, all_cons]
      unfold page EndsAtBorder MissesNone
      rw [if_pos hread]
      by_cases hskip : skip = 0
      · rw [if_pos hskip, if_pos hskip, hskip, Except.ok.injEq, Nat.zero_add]
        exact append_take_eq_iff hl' p.items
      · rw [if_neg hskip, if_neg hskip]
        by_cases hle : p.items.length ≤ skip
        · have hslice : slice skip limit (p.items ++ all l) =
              slice (skip - p.items.length) limit (all l) := by
            rw [slice, List.drop_append, List.drop_eq_nil_of_le hle, List.nil_append]
            rfl
          rw [if_pos hle, hslice, ih hl', and_iff_right hle, List.length_append,
            ← Nat.le_sub_iff_add_le' hle, ← Nat.sub_add_comm hle]
        · rw [if_neg hle, List.length_append]
          exact iff_of_false nofun fun h => h.elim (fun h => by omega) fun h => hle h.1.1
    · rw [read_cons_of_not_read hread, all_cons]
      unfold MissesNone
      rw [if_neg hread]
      cases hitems : p.items with
      | nil =>
        have hnil : skip + limit = 0 ∨ ([] : List ρ) = [] := .inr rfl
        rw [List.nil_append, and_iff_right hnil]
        exact ih hl'
      | cons a items =>
        rw [← hitems]
        have hp : p.items ≠ [] := by
          rw [hitems]
          exact List.cons_ne_nil _ _
        by_cases hall : (p.items ++ all l).length ≤ skip
        · have hlength := (flatten_read_sublist l).length_le
          rw [slice_of_length_le hall]
          rw [List.length_append] at hall
          exact iff_of_true (page_of_length_le (by omega)) (.inl (by rwa [List.length_append]))
        · rw [or_iff_right hall]
          by_cases hlimit : limit = 0
          · rw [and_iff_left (.inl hlimit), hlimit, ← page_zero_iff, slice, List.take_zero]
          · refine iff_of_false (page_ne_slice hl hp (by omega) (by omega)) fun h => ?_
            rcases h.2 with h | ⟨h | h, -⟩
            · exact hlimit h
            · omega
            · exact hp h

/-- Where the skip ends inside of a piece, no list that begins below the piece is the slice. -/
theorem ne_slice_of_page_error (hl : Stamped stamp (l.map items))
    (h : page limit skip (read l) = .error p) {e : ρ} (hbelow : ∀ a ∈ p, stamp e < stamp a) :
    e :: r ≠ slice skip limit (all l) := by
  intro heq
  obtain ⟨a, ha⟩ := List.exists_mem_of_ne_nil p (mem_of_page_error h).2
  have hplace : (all l)[skip]? = some e := by
    have hfirst := congrArg (fun r => r[0]?) heq
    have hlimit : 0 < limit := by
      by_contra hzero
      rw [slice, Nat.eq_zero_of_not_pos hzero, List.take_zero] at heq
      cases heq
    rw [slice, List.getElem?_take_of_lt hlimit, List.getElem?_drop] at hfirst
    exact hfirst.symm
  have hread := lt_countP_of_page_error (hl.sublist (read_sublist l)) h ha
  have hsub := (flatten_read_sublist l).countP_le (p := fun b => stamp a ≤ stamp b)
  have hmono : (all l).countP (fun b => stamp a ≤ stamp b) ≤
      (all l).countP fun b => stamp e < stamp b :=
    List.countP_mono_left fun b _ hb =>
      decide_eq_true ((hbelow a ha).trans_le (of_decide_eq_true hb))
  rw [all_eq_flatten] at hplace
  have hbound := countP_le_of_getElem? hl.pairwise hplace
  rw [← all_eq_flatten] at hbound
  omega

end Slice

end Piece

end LarkX
