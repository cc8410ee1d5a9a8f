import LarkX.Client.Reply

/-!
# The synopsis of a chain

`get_blockchain_synopsis` samples the ancestors of a reference block at heights that halve the
distance to the top: block 1, the block half-way up, and so on to the block itself. The heights
are those in `halvings`, whose number is a logarithm (`halvings_length`); the ids come from the
main chain up to the block where the fork of the reference starts, and from the fork above it
(`Holds.getBlockchainSynopsis_eq`).

The limit that `get_item_ids` puts on the length is the same logarithm, but truncated, for 20
years of blocks. The synopsis of a chain of `2 ^ 25` blocks or more is longer (`RunOf.synopsis_iff`).
-/

namespace LarkX

/-! ### Halving the distance -/

/-- The heights from `low` on, up to `high`, each half as far from `top + 1` as the one
before. -/
def halvings (top high : ℕ) : ℕ → ℕ → List ℕ
  | 0, low => [low]
  | steps + 1, low =>
    if low + (top - low + 2) / 2 ≤ high then
      low :: halvings top high steps (low + (top - low + 2) / 2)
    else [low]

variable {top high : ℕ}

theorem halvings_head (steps low : ℕ) : (halvings top high steps low).head? = some low := by
  cases steps with
  | zero => rfl
  | succ steps =>
    unfold halvings
    split <;> rfl

theorem mem_halvings {steps low num : ℕ} (hle : low ≤ high)
    (h : num ∈ halvings top high steps low) : low ≤ num ∧ num ≤ high := by
  induction steps generalizing low with
  | zero =>
    rw [halvings, List.mem_singleton] at h
    omega
  | succ steps ih =>
    unfold halvings at h
    split at h
    · rename_i hnext
      rcases List.mem_cons.1 h with rfl | h
      · omega
      · have hnum := ih hnext h
        omega
    · rw [List.mem_singleton] at h
      omega

theorem halvings_pairwise {steps low : ℕ} (hle : low ≤ high) :
    (halvings top high steps low).Pairwise (· < ·) := by
  induction steps generalizing low with
  | zero => exact List.pairwise_singleton _ _
  | succ steps ih =>
    unfold halvings
    split
    · rename_i hnext
      refine List.pairwise_cons.2 ⟨fun num hnum => ?_, ih hnext⟩
      have hlow := (mem_halvings hnext hnum).1
      omega
    · exact List.pairwise_singleton _ _

/-- The distance to `top + 1` is halved until it is that of `high`. -/
theorem halvings_length {steps low : ℕ} (hle : low ≤ high) (htop : high ≤ top)
    (hsteps : high - low ≤ steps) : (halvings top high steps low).length =
      Nat.log2 ((top + 1 - low) / (top + 1 - high)) + 1 := by
  induction steps generalizing low with
  | zero =>
    have hlow : low = high := by omega
    rw [hlow, Nat.div_self (by omega)]
    rfl
  | succ steps ih =>
    have hpos : 0 < top + 1 - high := by omega
    have hhalf : top + 1 - (low + (top - low + 2) / 2) = (top + 1 - low) / 2 := by omega
    have hone : 1 ≤ (top + 1 - low) / (top + 1 - high) := by
      rw [Nat.le_div_iff_mul_le hpos]
      omega
    unfold halvings
    split
    · rename_i hnext
      have htwo : 2 ≤ (top + 1 - low) / (top + 1 - high) := by
        rw [Nat.le_div_iff_mul_le hpos]
        omega
      rw [List.length_cons, ih hnext (by omega), hhalf, Nat.div_div_eq_div_mul, Nat.mul_comm,
        ← Nat.div_div_eq_div_mul, Nat.log2_def ((top + 1 - low) / (top + 1 - high)), if_pos htwo]
    · rename_i hnext
      have hlt : (top + 1 - low) / (top + 1 - high) < 2 := by
        rw [Nat.div_lt_iff_lt_mul hpos]
        omega
      rw [show (top + 1 - low) / (top + 1 - high) = 1 by omega]
      rfl

/-- Without anything above it, the last height is the top. -/
theorem halvings_getLast {steps low : ℕ} (hle : low ≤ top) (hsteps : top - low ≤ steps) :
    (halvings top top steps low).getLast? = some top := by
  induction steps generalizing low with
  | zero =>
    have hlow : low = top := by omega
    rw [hlow]
    rfl
  | succ steps ih =>
    unfold halvings
    split
    · rename_i hnext
      rw [List.getLast?_cons, ih hnext (by omega)]
      rfl
    · rename_i hnext
      have hlow : low = top := by omega
      rw [hlow]
      rfl

/-- The last elements of related lists are related. -/
theorem exists_getLast?_of_forall₂ {α β : Type} {R : α → β → Prop} {l : List α} {l' : List β}
    (h : List.Forall₂ R l l') {a : α} (ha : l.getLast? = some a) :
    ∃ b, l'.getLast? = some b ∧ R a b := by
  have hreverse := List.forall₂_reverse_iff.2 h
  rw [← List.head?_reverse] at ha ⊢
  generalize l.reverse = r, l'.reverse = r' at ha hreverse ⊢
  cases hreverse with
  | nil => cases ha
  | cons hR _ =>
    cases ha
    exact ⟨_, rfl, hR⟩

namespace Database

variable {crypto : Crypto} {db : Database} {chain ids forkIds : List BlockId} {id : BlockId}

/-! ### The loop -/

/-- The step of the loop, in 31 bits. -/
theorem nextLow_eq {low : ℕ} (hle : low ≤ top) (htop : top < 2 ^ 31) :
    nextLow top low = low + (top - low + 2) / 2 := by
  unfold nextLow
  omega

/-- The loop ends, and gives the ids at the heights it goes through. -/
theorem synopsisLoop_eq {forkHistory : List BlockId} {nonForkHigh : ℕ} (htop : high ≤ top)
    (hbound : top < 2 ^ 31) (hentry : ∀ num, 1 ≤ num → num ≤ high → ∃ id,
      db.synopsisEntry crypto forkHistory nonForkHigh num = .ok id ∧ ids[num - 1]? = some id)
    {steps low : ℕ} (hpos : 1 ≤ low) (hle : low ≤ high) (hsteps : high - low ≤ steps) :
    ∃ synopsis, db.synopsisLoop crypto forkHistory nonForkHigh high top (steps + 1) low =
        .ok synopsis ∧
      List.Forall₂ (fun num id => 1 ≤ num ∧ ids[num - 1]? = some id)
        (halvings top high steps low) synopsis := by
  induction steps generalizing low with
  | zero =>
    obtain ⟨id, hid, hget⟩ := hentry low hpos hle
    refine ⟨[id], ?_, .cons ⟨hpos, hget⟩ .nil⟩
    rw [synopsisLoop, hid, ok_bind, nextLow_eq (by omega) hbound, if_neg (by omega)]
    rfl
  | succ steps ih =>
    obtain ⟨id, hid, hget⟩ := hentry low hpos hle
    rw [synopsisLoop, hid, ok_bind, nextLow_eq (by omega) hbound, halvings]
    split
    · rename_i hnext
      obtain ⟨rest, hrest, hall⟩ := ih (by omega) hnext (by omega)
      refine ⟨id :: rest, ?_, .cons ⟨hpos, hget⟩ hall⟩
      rw [hrest, ok_bind]
      rfl
    · exact ⟨[id], rfl, .cons ⟨hpos, hget⟩ .nil⟩

/-! ### Ancestors -/

/-- A known block and its ancestors, block 1 first: each is recorded and linked. -/
inductive Ancestry (db : Database) : BlockId → List BlockId → Prop
  | genesis : Ancestry db 0 []
  | block {id : BlockId} {header : SignedBlockHeader} {fork : BlockForkData} {ids : List BlockId}
      (hne : id ≠ 0) (hrecord : db.blockIdToBlockRecordDb[id]? = some header)
      (hfork : db.forkDb[id]? = some fork) (hlinked : fork.isLinked = true)
      (h : Ancestry db header.previous ids) : Ancestry db id (ids ++ [id])

theorem Ancestry.unique {ids' : List BlockId} (h : Ancestry db id ids) (h' : Ancestry db id ids') :
    ids = ids' := by
  induction h generalizing ids' with
  | genesis =>
    cases h' with
    | genesis => rfl
    | block hne _ _ _ _ => exact absurd rfl hne
  | block hne hrecord _ _ _ ih =>
    cases h' with
    | genesis => exact absurd rfl hne
    | block _ hrecord' _ _ h' =>
      rw [hrecord] at hrecord'
      cases hrecord'
      rw [ih h']

theorem Ancestry.last (h : Ancestry db id ids) : (0 :: ids).getLast? = some id := by
  cases h with
  | genesis => rfl
  | block _ _ _ _ _ => rw [← List.cons_append, List.getLast?_concat]

theorem Ancestry.ne_nil (h : Ancestry db id ids) (hne : id ≠ 0) : ids ≠ [] := by
  rintro rfl
  exact hne (Option.some.inj h.last).symm

/-- A block and the one before it. -/
theorem Ancestry.inv (h : Ancestry db id ids) (hne : ids ≠ []) :
    id ≠ 0 ∧ ids = ids.dropLast ++ [id] ∧ ∃ header fork,
      db.blockIdToBlockRecordDb[id]? = some header ∧ db.forkDb[id]? = some fork ∧
        fork.isLinked = true ∧ Ancestry db header.previous ids.dropLast := by
  cases h with
  | genesis => exact absurd rfl hne
  | @block _ header fork ids hid hrecord hfork hlinked h =>
    rw [List.dropLast_concat]
    exact ⟨hid, rfl, header, fork, hrecord, hfork, hlinked, h⟩

/-- Every ancestor has its own ancestors. -/
theorem Ancestry.take (h : Ancestry db id ids) {i : ℕ} {id' : BlockId}
    (hid' : ids[i]? = some id') : Ancestry db id' (ids.take (i + 1)) := by
  induction h with
  | genesis => cases hid'
  | @block id header fork ids hne hrecord hfork hlinked h ih =>
    rw [List.getElem?_append] at hid'
    split at hid'
    · rename_i hlt
      rw [List.take_append_of_le_length (by omega)]
      exact ih hid'
    · rename_i hge
      have hi : i - ids.length = 0 := by
        by_contra hpos
        rw [List.getElem?_singleton, if_neg hpos] at hid'
        cases hid'
      rw [hi] at hid'
      cases hid'
      rw [List.take_of_length_le (by rw [List.length_append, List.length_singleton]; omega)]
      exact .block hne hrecord hfork hlinked h

theorem Ancestry.nodup (h : Ancestry db id ids) : ids.Nodup := by
  rw [List.nodup_iff_getElem?_ne_getElem?]
  intro i j hlt hj heq
  have hget := List.getElem?_eq_getElem hj
  -- the two places have the same ancestors
  have hsame := (h.take (heq.trans hget)).unique (h.take hget)
  have hlength := congrArg List.length hsame
  rw [List.length_take, List.length_take] at hlength
  omega

theorem Ancestry.known (h : Ancestry db id ids) {id' : BlockId} (hid' : id' ∈ ids) :
    db.forkDb[id']? ≠ none := by
  induction h with
  | genesis => exact absurd hid' List.not_mem_nil
  | block _ _ hfork _ _ ih =>
    rcases List.mem_append.1 hid' with hid' | hid'
    · exact ih hid'
    · rw [List.mem_singleton.1 hid', hfork]
      exact Option.some_ne_none _

/-- The ancestors of a block start with blocks of the chain; those above are on a fork. -/
theorem Holds.split (h : Holds crypto db chain) (hancestry : Ancestry db id ids) :
    ∃ m forkIds, ids = chain.take m ++ forkIds ∧ m ≤ chain.length ∧
      ∀ id' ∈ forkIds, db.isIncludedBlock id' = false := by
  induction hancestry with
  | genesis => exact ⟨0, [], rfl, Nat.zero_le _, fun _ hid' => absurd hid' List.not_mem_nil⟩
  | @block id header fork ids hne hrecord _ _ hancestry ih =>
    obtain ⟨m, forkIds, rfl, hm, hfork⟩ := ih
    cases hincluded : db.isIncludedBlock id with
    | false =>
      refine ⟨m, forkIds ++ [id], List.append_assoc _ _ _, hm, fun id' hid' => ?_⟩
      rcases List.mem_append.1 hid' with hid' | hid'
      · exact hfork id' hid'
      · rw [List.mem_singleton.1 hid']
        exact hincluded
    | true =>
      -- the parent of a block of the chain is the one before it
      have hmem : id ∈ chain := ((h.included id).1 hincluded).resolve_left hne
      obtain ⟨i, hi⟩ := List.getElem?_of_mem hmem
      obtain ⟨b, -, hb, -, -, hprevious⟩ := h.recorded i id hi
      rw [hrecord] at hb
      cases hb
      have hlast := hancestry.last
      have hnodup : (0 :: chain).Nodup := List.nodup_cons.2 ⟨h.nonzero, h.nodup⟩
      have hlt : i < chain.length := (List.getElem?_eq_some_iff.1 hi).1
      have hparent : b.previous ∈ 0 :: chain := List.mem_of_getElem? hprevious
      have hnil : forkIds = [] := by
        by_contra hfne
        rw [← List.cons_append, List.getLast?_append_of_ne_nil _ hfne] at hlast
        have hnot := hfork b.previous (List.mem_of_getLast? hlast)
        rw [(h.included b.previous).2 (List.mem_cons.1 hparent)] at hnot
        cases hnot
      subst hnil
      rw [List.append_nil] at hlast ⊢
      have htake : (0 :: chain)[m]? = some b.previous := by
        rw [← hlast, List.getLast?_eq_getElem?, List.length_cons, List.length_take,
          Nat.min_eq_left hm, Nat.add_sub_cancel, ← List.take_succ_cons, List.getElem?_take_of_lt
            (by omega)]
      have him : i = m := by
        have hget := List.getElem?_eq_some_iff.1 hprevious
        have hget' := List.getElem?_eq_some_iff.1 htake
        exact (List.Nodup.getElem_inj_iff hnodup).1 (hget.2.trans hget'.2.symm)
      subst him
      refine ⟨i + 1, [], ?_, by omega, fun _ hid' => absurd hid' List.not_mem_nil⟩
      rw [List.append_nil, List.take_add_one, hi]
      rfl

/-! ### The fork of the reference -/

theorem getBlockHeader_run {header : SignedBlockHeader}
    (h : db.blockIdToBlockRecordDb[id]? = some header) :
    (Action.getBlockHeader id).run db = .ok header db := by
  have hget : (get : Action Database).run db = .ok db db := rfl
  rw [Action.getBlockHeader, run_bind_ok hget, h]
  rfl

theorem fetchFork_run {fork : BlockForkData} (h : db.forkDb[id]? = some fork) :
    (Action.fetchFork id).run db = .ok fork db := by
  have hget : (get : Action Database).run db = .ok db db := rfl
  rw [Action.fetchFork, run_bind_ok hget, h]
  rfl

/-- The ancestors of a block on a fork, up to the block of the chain where the fork starts. -/
theorem Holds.forkAncestors_run (h : Holds crypto db chain) {m steps : ℕ} (hne : forkIds ≠ [])
    (hsteps : forkIds.length ≤ steps) (hancestry : Ancestry db id (chain.take m ++ forkIds))
    (hfork : ∀ id' ∈ forkIds, db.isIncludedBlock id' = false) :
    (Action.forkAncestors steps id).run db =
      .ok (forkIds.dropLast.reverse ++ [(chain.take m).getLastD 0]) db := by
  induction steps generalizing forkIds id with
  | zero => exact absurd (List.length_eq_zero_iff.1 (by omega)) hne
  | succ steps ih =>
    obtain ⟨-, -, header, -, hrecord, -, -, hparent⟩ :=
      hancestry.inv (List.append_ne_nil_of_right_ne_nil _ hne)
    rw [List.dropLast_append_of_ne_nil hne] at hparent
    have hlast := hparent.last
    rw [Action.forkAncestors, run_bind_ok (getBlockHeader_run hrecord)]
    split
    · -- the fork starts at genesis
      rename_i hzero
      rw [hzero] at hparent
      have hnil := hparent.unique .genesis
      rw [List.append_eq_nil_iff] at hnil
      rw [hnil.1, hnil.2]
      rfl
    · rename_i hzero
      have hidsne : chain.take m ++ forkIds.dropLast ≠ [] := by
        intro hnil
        rw [hnil] at hlast
        exact hzero (Option.some.inj hlast).symm
      obtain ⟨-, hids, header', fork', -, hfork', hlinked, -⟩ := hparent.inv hidsne
      have hrequire : (Action.lift (require (fork'.isLinked = true)
          (.assertion "we hit a dead end, this fork isn't really linked!"))).run db = .ok () db := by
        rw [require, if_pos hlinked]
        rfl
      rw [run_bind_ok (fetchFork_run hfork'), run_bind_ok hrequire,
        ← Action.isIncludedBlock_of_fork hfork']
      rw [← List.cons_append] at hlast
      cases hdrop : forkIds.dropLast with
      | nil =>
        -- the parent is on the chain
        rw [hdrop, List.append_nil] at hlast hidsne
        have hmem : header.previous ∈ chain.take m := by
          rw [List.getLast?_cons_of_ne_nil hidsne] at hlast
          exact List.mem_of_getLast? hlast
        rw [if_pos ((h.included _).2 (Or.inr (List.mem_of_mem_take hmem))),
          List.getLastD_eq_getLast?, ← List.getLast?_cons_of_ne_nil hidsne, hlast]
        rfl
      | cons first rest =>
        have hrestne : forkIds.dropLast ≠ [] := by rw [hdrop]; exact List.cons_ne_nil _ _
        have hmem : header.previous ∈ forkIds.dropLast := by
          rw [List.getLast?_append_of_ne_nil _ hrestne] at hlast
          exact List.mem_of_getLast? hlast
        rw [if_neg (by rw [hfork _ (List.dropLast_subset _ hmem)]; exact Bool.false_ne_true),
          run_bind_ok (ih hrestne (by rw [List.length_dropLast]; omega) hparent fun id' hid' =>
            hfork id' (List.dropLast_subset _ hid')), ← hdrop]
        have hconcat : forkIds.dropLast = forkIds.dropLast.dropLast ++ [header.previous] := by
          rw [List.getLast?_append_of_ne_nil _ hrestne] at hlast
          conv_lhs => rw [← List.dropLast_append_getLast? _ hlast]
        conv_rhs => rw [hconcat, List.reverse_append]
        rfl

/-- A path in the tree is no longer than the tree is large. -/
theorem Ancestry.length_le (h : Ancestry db id ids) : ids.length ≤ db.forkDb.size := by
  have hsubset : ids ⊆ db.forkDb.toList.map Prod.fst := by
    intro id' hid'
    obtain ⟨fork, hfork⟩ := Option.ne_none_iff_exists'.1 (h.known hid')
    exact List.mem_map.2 ⟨(id', fork), Table.mem_toList.2 hfork, rfl⟩
  have hle := (List.subperm_of_subset h.nodup hsubset).length_le
  rwa [List.length_map, Std.ExtTreeMap.length_toList] at hle

/-- The number of the block of the chain where a fork starts. -/
theorem Holds.getBlockNum_branch (h : Holds crypto db chain) {m : ℕ} (hm : m ≤ chain.length) :
    db.getBlockNum ((chain.take m).getLastD 0) = .ok m := by
  cases m with
  | zero => rfl
  | succ m =>
    have hget : chain[m]? = some chain[m] := List.getElem?_eq_getElem (by omega)
    have hlast : (chain.take (m + 1)).getLastD 0 = chain[m] := by
      rw [List.take_add_one, hget, Option.toList_some, List.getLastD_concat]
    rw [hlast, h.getBlockNum (List.getElem_mem _), h.nodup.idxOf_getElem]

/-- The fork of a linked block: its blocks that are not on the chain, and the number of the
block of the chain below them. -/
theorem Holds.forkOf_eq (h : Holds crypto db chain) (hancestry : Ancestry db id ids)
    (hne : id ≠ 0) : ∃ m forkIds, ids = chain.take m ++ forkIds ∧ m ≤ chain.length ∧
      db.forkOf id = .ok (forkIds, m) := by
  obtain ⟨m, forkIds, rfl, hm, hfork⟩ := h.split hancestry
  refine ⟨m, forkIds, rfl, hm, ?_⟩
  have hidsne := hancestry.ne_nil hne
  have hlast := hancestry.last
  rw [List.getLast?_cons_of_ne_nil hidsne] at hlast
  cases hincluded : db.isIncludedBlock id with
  | true =>
    have hnil : forkIds = [] := by
      by_contra hfne
      rw [List.getLast?_append_of_ne_nil _ hfne] at hlast
      rw [hfork id (List.mem_of_getLast? hlast)] at hincluded
      cases hincluded
    rw [hnil, List.append_nil] at hlast
    have hbranch : (chain.take m).getLastD 0 = id := by
      rw [List.getLastD_eq_getLast?, hlast]
      rfl
    rw [forkOf, if_pos hincluded, ← hbranch, h.getBlockNum_branch hm, hnil]
    rfl
  | false =>
    have hfne : forkIds ≠ [] := by
      rintro rfl
      rw [List.append_nil] at hlast
      have hmem : id ∈ chain := List.mem_of_mem_take (List.mem_of_getLast? hlast)
      rw [(h.included id).2 (Or.inr hmem)] at hincluded
      cases hincluded
    have hsize : forkIds.length ≤ db.forkDb.size + 1 := by
      have hle := hancestry.length_le
      rw [List.length_append] at hle
      omega
    have hlevels : Action.maxLevels.run db = .ok (db.forkDb.size + 1) db := rfl
    have hhistory : (Action.getForkHistory id).run db =
        .ok (id :: (forkIds.dropLast.reverse ++ [(chain.take m).getLastD 0])) db := by
      rw [Action.getForkHistory, run_bind_ok hlevels,
        run_bind_ok (h.forkAncestors_run hfne hsize hancestry hfork)]
      rfl
    rw [List.getLast?_append_of_ne_nil _ hfne] at hlast
    rw [forkOf, if_neg (by rw [hincluded]; exact Bool.false_ne_true), hhistory]
    dsimp only
    rw [← List.cons_append, List.dropLast_concat, List.getLastD_concat, h.getBlockNum_branch hm,
      List.reverse_cons, List.reverse_reverse, List.dropLast_append_getLast? _ hlast]
    rfl

/-! ### The synopsis -/

/-- The id the loop finds at a height. -/
theorem Holds.synopsisEntry_eq (h : Holds crypto db chain) {m num : ℕ} (hm : m ≤ chain.length)
    (hpos : 1 ≤ num) (hnum : num ≤ (chain.take m ++ forkIds).length) :
    ∃ id, db.synopsisEntry crypto forkIds m num = .ok id ∧
      (chain.take m ++ forkIds)[num - 1]? = some id := by
  rw [List.length_append, List.length_take, Nat.min_eq_left hm] at hnum
  unfold synopsisEntry
  split
  · rename_i hle
    have hlt : num - 1 < chain.length := by omega
    have hget : chain[num - 1]? = some chain[num - 1] := List.getElem?_eq_getElem hlt
    obtain ⟨b, hdata, -, hid, -, -⟩ := h.recorded _ _ hget
    have hindex := h.index (num - 1)
    rw [Nat.sub_add_cancel hpos, hget] at hindex
    refine ⟨chain[num - 1], ?_, ?_⟩
    · rw [getBlockByNum, getBlockId, hindex]
      simp only [orThrow, ok_bind, hdata, hid]
      rfl
    · rw [List.getElem?_append_left (by rw [List.length_take]; omega),
        List.getElem?_take_of_lt (by omega), hget]
  · rename_i hgt
    have hlt : num - m - 1 < forkIds.length := by omega
    refine ⟨forkIds[num - m - 1], ?_, ?_⟩
    · rw [List.getElem?_eq_getElem hlt]
      rfl
    · rw [List.getElem?_append_right (by rw [List.length_take]; omega), List.length_take,
        Nat.min_eq_left hm, show num - 1 - m = num - m - 1 by omega, List.getElem?_eq_getElem hlt]

/-- **The synopsis of a linked block** are its ancestors at the heights of `halvings`. -/
theorem Holds.getBlockchainSynopsis_eq (h : Holds crypto db chain) (hancestry : Ancestry db id ids)
    (hne : id ≠ 0) {after : ℕ} (hbound : ids.length + after < 2 ^ 31) :
    ∃ synopsis, db.getBlockchainSynopsis crypto blockMessageType id after = .ok synopsis ∧
      List.Forall₂ (fun num id => 1 ≤ num ∧ ids[num - 1]? = some id)
        (halvings (ids.length + after) ids.length (2 ^ 32) 1) synopsis := by
  obtain ⟨m, forkIds, rfl, hm, hforkOf⟩ := h.forkOf_eq hancestry hne
  have hpos : 1 ≤ (chain.take m ++ forkIds).length :=
    List.length_pos_of_ne_nil (hancestry.ne_nil hne)
  have hlength : (chain.take m ++ forkIds).length = m + forkIds.length := by
    rw [List.length_append, List.length_take, Nat.min_eq_left hm]
  have hhigh : (m + forkIds.length) % 2 ^ 32 = (chain.take m ++ forkIds).length := by
    rw [hlength] at hbound ⊢
    omega
  have htrue : ((chain.take m ++ forkIds).length + after) % 2 ^ 32 =
      (chain.take m ++ forkIds).length + after := by omega
  obtain ⟨synopsis, hsynopsis, hall⟩ := synopsisLoop_eq (Nat.le_add_right _ after) hbound
    (fun num hpos hnum => h.synopsisEntry_eq hm hpos hnum) (Nat.le_refl 1) hpos
    (show (chain.take m ++ forkIds).length - 1 ≤ 2 ^ 32 by omega)
  refine ⟨synopsis, ?_, hall⟩
  rw [getBlockchainSynopsis, require, if_pos rfl, ok_bind, if_neg hne, hforkOf]
  dsimp only
  rw [hhigh, htrue, hsynopsis]

/-- The number of blocks in 20 years. -/
def blocksInTwentyYears : ℕ :=
  (btsBlockchainBlocksPerDay * 365 * 20).toNat

/-- What a synopsis of a block should be: ancestors of the block by increasing number, the first
of them block 1 and, when no blocks follow, the last of them the block; and for 20 years of
blocks no longer than the receiver accepts. -/
structure SynopsisRight (id : BlockId) (ids : List BlockId) (after : ℕ)
    (synopsis : List BlockId) : Prop where
  sampled : ∃ nums : List ℕ, nums.Pairwise (· < ·) ∧ nums.head? = some 1 ∧
    List.Forall₂ (fun num id => 1 ≤ num ∧ ids[num - 1]? = some id) nums synopsis
  ends : after = 0 → synopsis.getLast? = some id
  short : ids.length ≤ blocksInTwentyYears → synopsis.length ≤ blockchainSynopsisSizeLimit

/-- The length of a synopsis is within the limit for less than `2 ^ 25` halvings. -/
theorem length_le_limit {n : ℕ} (hn : n ≠ 0) :
    Nat.log2 n + 1 ≤ blockchainSynopsisSizeLimit ↔ n < 2 ^ 25 := by
  have hlimit : blockchainSynopsisSizeLimit = 25 := by decide
  rw [hlimit, ← Nat.log2_lt hn]
  omega

/-- **A synopsis is right** unless no blocks follow and the block has number `2 ^ 25` or more. -/
theorem Holds.bounded_iff (h : Holds crypto db chain) (hancestry : Ancestry db id ids)
    (hne : id ≠ 0) {after : ℕ} (hbound : ids.length + after < 2 ^ 31) :
    (∃ synopsis, db.getBlockchainSynopsis crypto blockMessageType id after = .ok synopsis ∧
      SynopsisRight id ids after synopsis) ↔
      ¬(after = 0 ∧ 2 ^ 25 ≤ ids.length ∧ ids.length ≤ blocksInTwentyYears) := by
  obtain ⟨synopsis, hsynopsis, hall⟩ := h.getBlockchainSynopsis_eq hancestry hne hbound
  have hyears : blocksInTwentyYears = 63072000 := by decide
  have hpos : 1 ≤ ids.length := List.length_pos_of_ne_nil (hancestry.ne_nil hne)
  have hlength : synopsis.length = Nat.log2 ((ids.length + after) / (after + 1)) + 1 := by
    rw [← hall.length_eq, halvings_length hpos (Nat.le_add_right _ _) (by omega),
      Nat.add_sub_cancel, show ids.length + after + 1 - ids.length = after + 1 by omega]
  have hratio : (ids.length + after) / (after + 1) ≠ 0 := by
    have hone : 1 ≤ (ids.length + after) / (after + 1) := by
      rw [Nat.le_div_iff_mul_le (Nat.succ_pos after)]
      omega
    omega
  constructor
  · rintro ⟨synopsis', hsynopsis', hright⟩ ⟨rfl, hlong, hyear⟩
    rw [hsynopsis] at hsynopsis'
    cases hsynopsis'
    have hshort := hright.short hyear
    rw [hlength, length_le_limit hratio, Nat.add_zero, Nat.div_one] at hshort
    omega
  · intro hshort
    refine ⟨synopsis, hsynopsis, ⟨_, halvings_pairwise hpos, halvings_head _ _, hall⟩, ?_, ?_⟩
    · -- the last id is the one at the last height
      rintro rfl
      obtain ⟨last, hlast, -, hget⟩ := exists_getLast?_of_forall₂ hall
        (halvings_getLast hpos (show ids.length - 1 ≤ 2 ^ 32 by omega))
      have hidlast := hancestry.last
      rw [Nat.add_zero] at hget
      rw [List.getLast?_cons_of_ne_nil (hancestry.ne_nil hne), List.getLast?_eq_getElem?, hget]
        at hidlast
      rw [hlast, hidlast]
    · intro hyear
      rw [hlength, length_le_limit hratio, Nat.div_lt_iff_lt_mul (Nat.succ_pos after)]
      rw [hyears] at hyear hshort
      omega

/-- **Synopses in a run**: every state of a run that keeps the index holds a chain, and for every
linked block the synopsis is right unless no blocks follow and the block has number `2 ^ 25` or
more. -/
theorem RunOf.synopsis_iff {config : GenesisBlockConfig} {P : FullBlock → Prop}
    (hids : crypto.IdealIds) (h : RunOf crypto config P IndexKept db) :
    ∀ id ids, Ancestry db id ids → id ≠ 0 → ∀ after, ids.length + after < 2 ^ 31 →
      ((∃ synopsis, db.getBlockchainSynopsis crypto blockMessageType id after = .ok synopsis ∧
        SynopsisRight id ids after synopsis) ↔
        ¬(after = 0 ∧ 2 ^ 25 ≤ ids.length ∧ ids.length ≤ blocksInTwentyYears)) := by
  obtain ⟨chain, hchain⟩ := h.holds hids
  exact fun _ _ hancestry hne _ hbound => hchain.bounded_iff hancestry hne hbound

set_option maxRecDepth 100000 in
theorem synopsis_smallFirst : ∃ synopsis,
    smallFirst.getBlockchainSynopsis .transparent blockMessageType smallFirst.headBlockId 0 =
      .ok synopsis ∧
    SynopsisRight smallFirst.headBlockId [smallFirst.headBlockId] 0 synopsis := by
  have hne : smallFirst.headBlockId ≠ 0 := by decide +kernel
  have hrecord : smallFirst.blockIdToBlockRecordDb[smallFirst.headBlockId]? =
      some smallFirst.headBlockHeader := by decide +kernel
  have hprevious : smallFirst.headBlockHeader.previous = 0 := by decide +kernel
  have hlinked : ((smallFirst.forkDb[smallFirst.headBlockId]?).map BlockForkData.isLinked) =
      some true := by decide +kernel
  obtain ⟨fork, hfork, hlinked⟩ := Option.map_eq_some_iff.1 hlinked
  have hparent : Ancestry smallFirst smallFirst.headBlockHeader.previous [] := by
    rw [hprevious]
    exact .genesis
  have hancestry : Ancestry smallFirst smallFirst.headBlockId [smallFirst.headBlockId] :=
    .block hne hrecord hfork hlinked hparent
  refine (RunOf.synopsis_iff idealIds_transparent runOf_smallFirst _ _ hancestry hne 0
    (by decide)).2 ?_
  decide +kernel

/-! ### A chain of `2 ^ 25` blocks -/

/-- The header of the block number `k + 1`. -/
def tallHeader : ℕ → SignedBlockHeader
  | 0 => { blockNum := 1 }
  | k + 1 => { blockNum := k + 2, previous := Crypto.transparent.blockId (tallHeader k) }

def tallId (k : ℕ) : BlockId :=
  Crypto.transparent.blockId (tallHeader k)

/-- A database whose chain has `n` blocks. -/
def tallChain : ℕ → Database
  | 0 => { forkDb := (∅ : Table BlockId BlockForkData).insert 0 Genesis.genesisFork }
  | n + 1 => { tallChain n with
      forkDb := (tallChain n).forkDb.insert (tallId n)
        { isLinked := true, isValid := some true, isIncluded := true, isKnown := true }
      blockIdToBlockDataDb := (tallChain n).blockIdToBlockDataDb.insert (tallId n)
        { toSignedBlockHeader := tallHeader n }
      blockIdToBlockRecordDb := (tallChain n).blockIdToBlockRecordDb.insert (tallId n) (tallHeader n)
      blockNumToIdDb := (tallChain n).blockNumToIdDb.insert (n + 1) (tallId n)
      headBlockId := tallId n
      headBlockHeader := tallHeader n }

def tallIds (n : ℕ) : List BlockId :=
  (List.range n).map tallId

theorem tallHeader_blockNum (k : ℕ) : (tallHeader k).blockNum = k + 1 := by
  cases k with
  | zero => rfl
  | succ k => rfl

theorem tallId_injective : Function.Injective tallId := by
  intro k l heq
  have hnum : (tallHeader k).blockNum = (tallHeader l).blockNum :=
    congrArg (fun header : SignedBlockHeader => header.blockNum)
      (idealIds_transparent.inj _ _ heq)
  rw [tallHeader_blockNum, tallHeader_blockNum] at hnum
  omega

theorem tallIds_succ (n : ℕ) : tallIds (n + 1) = tallIds n ++ [tallId n] := by
  rw [tallIds, List.range_succ, List.map_append]
  rfl

theorem getElem?_tallIds {n i : ℕ} {id : BlockId} (h : (tallIds n)[i]? = some id) :
    i < n ∧ id = tallId i := by
  rw [tallIds, List.getElem?_map, Option.map_eq_some_iff] at h
  obtain ⟨k, hk, rfl⟩ := h
  obtain ⟨hlt, rfl⟩ := List.getElem?_eq_some_iff.1 hk
  rw [List.length_range] at hlt
  rw [List.getElem_range]
  exact ⟨hlt, rfl⟩

/-- What the database has of a block of its chain. -/
theorem tallChain_block {n k : ℕ} (hk : k < n) :
    (∃ fork, (tallChain n).forkDb[tallId k]? = some fork ∧ fork.isLinked = true) ∧
      (tallChain n).blockIdToBlockDataDb[tallId k]? =
        some { toSignedBlockHeader := tallHeader k } ∧
      (tallChain n).blockIdToBlockRecordDb[tallId k]? = some (tallHeader k) := by
  induction n with
  | zero => exact absurd hk (Nat.not_lt_zero k)
  | succ n ih =>
    by_cases heq : k = n
    · subst heq
      exact ⟨⟨_, Table.getElem?_insert_same _ _ _, rfl⟩, Table.getElem?_insert_same _ _ _,
        Table.getElem?_insert_same _ _ _⟩
    · have hne : tallId k ≠ tallId n := fun h => heq (tallId_injective h)
      obtain ⟨⟨fork, hfork, hlinked⟩, hdata, hrecord⟩ := ih (by omega)
      exact ⟨⟨fork, (Table.getElem?_insert_of_ne _ _ hne).trans hfork, hlinked⟩,
        (Table.getElem?_insert_of_ne _ _ hne).trans hdata,
        (Table.getElem?_insert_of_ne _ _ hne).trans hrecord⟩

theorem indexed_tallChain (n : ℕ) : Indexed (tallChain n) (tallIds n).reverse := by
  induction n with
  | zero => exact indexed_empty {}
  | succ n ih =>
    rw [tallIds_succ, List.reverse_append]
    -- the block is stored, and then extends the chain
    have hstored : Indexed { tallChain n with
        blockIdToBlockDataDb := (tallChain n).blockIdToBlockDataDb.insert (tallId n)
          { toSignedBlockHeader := tallHeader n } } (tallIds n).reverse := by
      refine ih.same rfl (fun _ => rfl) fun id hid => ?_
      rw [Table.getElem?_insert]
      split
      · exact Option.some_ne_none _
      · exact hid
    refine hstored.extend ?_ rfl rfl rfl ?_
    · rw [List.length_reverse, tallIds, List.length_map, List.length_range]
      rfl
    · rw [Table.getElem?_insert_same]
      exact Option.some_ne_none _

theorem holds_tallChain {n : ℕ} (hn : n < 2 ^ 32) : Holds .transparent (tallChain n) (tallIds n) := by
  have hindexed := indexed_tallChain n
  refine ⟨fun hne => ?_, by rwa [tallIds, List.length_map, List.length_range], fun i => ?_,
    hindexed.unnumbered, fun id => ?_, fun i id hid => ?_, fun hzero => ?_⟩
  · cases n with
    | zero => exact absurd rfl hne
    | succ n =>
      rw [tallIds_succ, List.getLast?_concat, List.length_append, tallIds, List.length_map,
        List.length_range]
      exact ⟨tallHeader_blockNum n, rfl⟩
  · rw [hindexed.index, List.reverse_reverse]
  · rw [hindexed.included, List.mem_reverse]
  · obtain ⟨hlt, rfl⟩ := getElem?_tallIds hid
    obtain ⟨-, hdata, hrecord⟩ := tallChain_block hlt
    refine ⟨_, hdata, hrecord, rfl, tallHeader_blockNum i, ?_⟩
    cases i with
    | zero => rfl
    | succ i =>
      rw [List.getElem?_cons_succ, tallIds, List.getElem?_map, List.getElem?_range (by omega)]
      rfl
  · obtain ⟨k, -, hk⟩ := List.mem_map.1 hzero
    exact idealIds_transparent.ne_zero _ hk

theorem ancestry_tallChain {n k : ℕ} (hk : k < n) :
    Ancestry (tallChain n) (tallId k) (tallIds (k + 1)) := by
  induction k with
  | zero =>
    obtain ⟨⟨fork, hfork, hlinked⟩, -, hrecord⟩ := tallChain_block hk
    exact .block (idealIds_transparent.ne_zero _) hrecord hfork hlinked .genesis
  | succ k ih =>
    obtain ⟨⟨fork, hfork, hlinked⟩, -, hrecord⟩ := tallChain_block hk
    rw [tallIds_succ]
    exact .block (idealIds_transparent.ne_zero _) hrecord hfork hlinked (ih (by omega))

/-- **The synopsis of a chain of `2 ^ 25` blocks** is not accepted by a receiver: it is one entry
too long. -/
theorem tall_synopsis_rejected : Holds .transparent (tallChain (2 ^ 25)) (tallIds (2 ^ 25)) ∧
    Ancestry (tallChain (2 ^ 25)) (tallId (2 ^ 25 - 1)) (tallIds (2 ^ 25)) ∧
    (tallIds (2 ^ 25)).length ≤ blocksInTwentyYears ∧
    ∃ synopsis, (tallChain (2 ^ 25)).getBlockchainSynopsis .transparent blockMessageType
      (tallId (2 ^ 25 - 1)) 0 = .ok synopsis ∧ synopsis.length = 26 ∧
        blockchainSynopsisSizeLimit = 25 := by
  have hlength : (tallIds (2 ^ 25)).length = 2 ^ 25 := by
    rw [tallIds, List.length_map, List.length_range]
  have hancestry := ancestry_tallChain (show 2 ^ 25 - 1 < 2 ^ 25 by omega)
  rw [show 2 ^ 25 - 1 + 1 = 2 ^ 25 by omega] at hancestry
  have hholds := holds_tallChain (show 2 ^ 25 < 2 ^ 32 by omega)
  obtain ⟨synopsis, hsynopsis, hall⟩ := hholds.getBlockchainSynopsis_eq hancestry
    (idealIds_transparent.ne_zero _) (show (tallIds (2 ^ 25)).length + 0 < 2 ^ 31 by omega)
  refine ⟨hholds, hancestry, ?_, synopsis, hsynopsis, ?_, by decide⟩
  · rw [hlength]
    decide
  · rw [← hall.length_eq, hlength, halvings_length (by omega) (by omega) (by omega)]
    decide

end Database

end LarkX
