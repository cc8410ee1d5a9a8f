import LarkX.Chain.History
import LarkX.ForMathlib.Marker

/-!
# The tree of blocks

Every block that was ever received is stored, and `_fork_db` keeps for each id the ids of the
stored blocks on top of it and whether the block is linked to genesis. Blocks come in any order:
the fork data of a block that is still missing is a placeholder, and when the block comes,
everything that was waiting on top of it is linked with it, level by level
(`recursive_mark_as_linked`).

`ForkTree` says that all of this is exact. Storing a block keeps it (`Plants.keepsTree`),
unless its marking does not end.
-/

namespace LarkX

open Std (ExtTreeMap)

namespace Database

/-- Every ancestor of the block is stored, down to genesis. -/
inductive Rooted (db : Database) : BlockId → Prop
  | genesis : Rooted db 0
  | child {id : BlockId} {b : FullBlock} (hb : db.blockIdToBlockDataDb[id]? = some b)
      (hprevious : Rooted db b.previous) : Rooted db id

/-- `b` is stored as the block `id`, on top of `parent`. -/
def StoredOn (db : Database) (parent id : BlockId) : Prop :=
  ∃ b, db.blockIdToBlockDataDb[id]? = some b ∧ b.previous = parent

/-- The tree of blocks is exact: the children of a block are the stored blocks on top of it, and
a block is linked when all its ancestors are stored. -/
structure ForkTree (db : Database) : Prop where
  children : ∀ parent id : BlockId,
    (∃ r, db.forkDb[parent]? = some r ∧ id ∈ r.nextBlocks) ↔ db.StoredOn parent id
  linked : ∀ (id : BlockId) (r : BlockForkData), db.forkDb[id]? = some r →
    (r.isLinked = true ↔ db.Rooted id)
  stored : ∀ (id : BlockId) (b : FullBlock), db.blockIdToBlockDataDb[id]? = some b →
    db.forkDb[id]? ≠ none

variable {db db' : Database} {id parent : BlockId} {b : FullBlock}

/-- Fork data as far as the tree goes. -/
def treeData (r : BlockForkData) : KeySet BlockId × Bool :=
  (r.nextBlocks, r.isLinked)

/-- The stored blocks and the tree are the same. -/
structure SameTree (db db' : Database) : Prop where
  data : db'.blockIdToBlockDataDb = db.blockIdToBlockDataDb
  fork : ∀ id : BlockId, (db'.forkDb[id]?).map treeData = (db.forkDb[id]?).map treeData

theorem SameTree.refl (db : Database) : SameTree db db :=
  ⟨rfl, fun _ => rfl⟩

theorem SameTree.trans {db₁ db₂ db₃ : Database} (h : SameTree db₁ db₂) (h' : SameTree db₂ db₃) :
    SameTree db₁ db₃ :=
  ⟨h'.data.trans h.data, fun id => (h'.fork id).trans (h.fork id)⟩

/-- Fork data is written over that of the block, with the same children and the same link. -/
theorem sameTree_insert {r r' : BlockForkData} (hr : db.forkDb[id]? = some r)
    (htree : treeData r' = treeData r) (hdata : db'.blockIdToBlockDataDb = db.blockIdToBlockDataDb)
    (hforks : db'.forkDb = db.forkDb.insert id r') : SameTree db db' := by
  refine ⟨hdata, fun a => ?_⟩
  rw [hforks]
  by_cases ha : a = id
  · rw [ha, Table.getElem?_insert_same, hr, Option.map_some, Option.map_some, htree]
  · rw [Table.getElem?_insert_of_ne _ _ ha]

theorem rooted_iff : db.Rooted id ↔
    id = 0 ∨ ∃ b, db.blockIdToBlockDataDb[id]? = some b ∧ db.Rooted b.previous := by
  constructor
  · intro h
    cases h with
    | genesis => exact Or.inl rfl
    | child hb hprevious => exact Or.inr ⟨_, hb, hprevious⟩
  · rintro (rfl | ⟨b, hb, hprevious⟩)
    · exact .genesis
    · exact .child hb hprevious

theorem Rooted.mono (h : db.Rooted id)
    (hstored : ∀ parent id, db.StoredOn parent id → db'.StoredOn parent id) : db'.Rooted id := by
  induction h with
  | genesis => exact .genesis
  | child hb _ ih =>
    obtain ⟨b', hb', hprevious⟩ := hstored _ _ ⟨_, hb, rfl⟩
    exact .child hb' (hprevious ▸ ih)

theorem rooted_congr (hdata : db'.blockIdToBlockDataDb = db.blockIdToBlockDataDb) :
    db'.Rooted id ↔ db.Rooted id := by
  have hstored : ∀ parent id, db'.StoredOn parent id ↔ db.StoredOn parent id := by
    intro parent id
    rw [StoredOn, hdata, StoredOn]
  exact ⟨fun h => h.mono fun _ _ => (hstored _ _).1, fun h => h.mono fun _ _ => (hstored _ _).2⟩

theorem ForkTree.same (h : db.ForkTree) (hsame : SameTree db db') : db'.ForkTree := by
  have hback : ∀ (id : BlockId) (r' : BlockForkData), db'.forkDb[id]? = some r' →
      ∃ r, db.forkDb[id]? = some r ∧ r.nextBlocks = r'.nextBlocks ∧ r.isLinked = r'.isLinked := by
    intro id r' hr'
    have hfork := hsame.fork id
    rw [hr', Option.map_some, eq_comm, Option.map_eq_some_iff] at hfork
    obtain ⟨r, hr, heq⟩ := hfork
    exact ⟨r, hr, congrArg Prod.fst heq, congrArg Prod.snd heq⟩
  refine ⟨fun parent id => ?_, fun id r' hr' => ?_, fun id b hb hnone => ?_⟩
  · rw [StoredOn, hsame.data, ← StoredOn, ← h.children]
    constructor
    · rintro ⟨r', hr', hid⟩
      obtain ⟨r, hr, hnext, -⟩ := hback parent r' hr'
      exact ⟨r, hr, hnext ▸ hid⟩
    · rintro ⟨r, hr, hid⟩
      have hfork := hsame.fork parent
      rw [hr, Option.map_some, Option.map_eq_some_iff] at hfork
      obtain ⟨r', hr', heq⟩ := hfork
      have hnext : r'.nextBlocks = r.nextBlocks := congrArg Prod.fst heq
      exact ⟨r', hr', hnext ▸ hid⟩
  · obtain ⟨r, hr, -, hlinked⟩ := hback id r' hr'
    rw [rooted_congr hsame.data, ← h.linked id r hr, hlinked]
  · have hfork := hsame.fork id
    rw [hnone, Option.map_none, eq_comm, Option.map_eq_none_iff] at hfork
    exact h.stored id b (hsame.data ▸ hb) hfork

/-! ### A new block -/

section Insert

variable (hdata : db'.blockIdToBlockDataDb = db.blockIdToBlockDataDb.insert id b)
  (hsame : ∀ b', db.blockIdToBlockDataDb[id]? = some b' → b'.previous = b.previous)

include hdata hsame

theorem storedOn_insert {a : BlockId} :
    db'.StoredOn parent a ↔ a = id ∧ b.previous = parent ∨ db.StoredOn parent a := by
  unfold StoredOn
  rw [hdata, Table.getElem?_insert]
  constructor
  · rintro ⟨b', hb', hprevious⟩
    split at hb'
    · rename_i ha
      cases hb'
      exact Or.inl ⟨ha, hprevious⟩
    · exact Or.inr ⟨b', hb', hprevious⟩
  · rintro (⟨ha, hprevious⟩ | ⟨b', hb', hprevious⟩)
    · exact ⟨b, if_pos ha, hprevious⟩
    · by_cases ha : a = id
      · exact ⟨b, if_pos ha, (hsame b' (ha ▸ hb')).symm.trans hprevious⟩
      · exact ⟨b', (if_neg ha).trans hb', hprevious⟩

/-- A new block whose ancestors are stored completes the ancestors of what is on top of it. -/
theorem rooted_insert {a : BlockId} : db'.Rooted a ↔
    db.Rooted a ∨ db.Rooted b.previous ∧ Relation.ReflTransGen db'.StoredOn id a := by
  have hstored : ∀ parent a, db.StoredOn parent a → db'.StoredOn parent a :=
    fun parent a h => (storedOn_insert hdata hsame).2 (Or.inr h)
  constructor
  · intro h
    induction h with
    | genesis => exact Or.inl .genesis
    | @child a b' hb' _ ih =>
      have hon : db'.StoredOn b'.previous a := ⟨b', hb', rfl⟩
      rw [hdata, Table.getElem?_insert] at hb'
      split at hb'
      · rename_i ha
        cases hb'
        exact Or.inr ⟨ih.elim (fun h => h) And.left, ha ▸ .refl⟩
      · exact ih.imp (.child hb') fun h => ⟨h.1, h.2.tail hon⟩
  · rintro (h | ⟨h, hpath⟩)
    · exact h.mono hstored
    · induction hpath with
      | refl => exact .child (hdata ▸ Table.getElem?_insert_same ..) (h.mono hstored)
      | tail _ hon ih =>
        obtain ⟨b', hb', rfl⟩ := hon
        exact .child hb' ih

end Insert

end Database

namespace Action

open Database

variable {crypto : Crypto} {wall : ℕ} {db : Database}

/-! ### Linking -/

/-- The mark of `recursive_mark_as_linked`. -/
def linkedMark : Marker BlockId BlockForkData where
  children r := r.nextBlocks
  mark r := { r with isLinked := true }
  children_mark _ := rfl
  mark_mark _ := rfl

/-- Ids that are collected in a set. -/
theorem mem_collect {s pending : KeySet BlockId} {a : BlockId} :
    a ∈ s.foldl (fun pending next _ => pending.insert next ()) pending ↔ a ∈ pending ∨ a ∈ s := by
  change a ∈ Table.above s pending ↔ _
  simp only [ExtTreeMap.mem_iff_isSome_getElem?, Table.getElem?_above, Option.isSome_or,
    Bool.or_eq_true]
  exact or_comm

/-- Exactly the blocks in `p` were marked, and nothing else has changed. -/
structure MarksBlocks (m : Marker BlockId BlockForkData) (p : BlockId → Prop)
    (db db' : Database) : Prop where
  rest : db' = { db with forkDb := db'.forkDb }
  marks : m.Marks p db.forkDb db'.forkDb

/-- A procedure that runs through a list of blocks has marked them and collected their
children. -/
structure Level (m : Marker BlockId BlockForkData) (ids : List BlockId) (db : Database)
    (pending : KeySet BlockId) (db' : Database) (pending' : KeySet BlockId) : Prop
    extends MarksBlocks m (· ∈ ids) db db' where
  pending : ∀ a, a ∈ pending' ↔ a ∈ pending ∨ ∃ k ∈ ids, m.Child db.forkDb k a

theorem level_nil (m : Marker BlockId BlockForkData) (pending : KeySet BlockId) :
    Level m [] db pending db pending :=
  ⟨⟨rfl, Marker.marks_none _ fun _ => List.not_mem_nil⟩, fun a => by simp⟩

theorem Level.cons {m : Marker BlockId BlockForkData} {ids : List BlockId} {id : BlockId}
    {r : BlockForkData} {db' : Database} {pending pending' : KeySet BlockId}
    (hr : db.forkDb[id]? = some r)
    (h : Level m ids { db with forkDb := db.forkDb.insert id (m.mark r) }
      ((m.children r).foldl (fun pending next _ => pending.insert next ()) pending) db' pending') :
    Level m (id :: ids) db pending db' pending' := by
  have hone := Marker.marks_insert (m := m) hr
  refine ⟨⟨h.rest, (hone.trans h.marks).congr fun a => List.mem_cons.symm⟩, fun a => ?_⟩
  rw [h.pending, mem_collect, or_assoc]
  have hchild : a ∈ m.children r ↔ m.Child db.forkDb id a := by
    refine ⟨fun ha => ⟨r, hr, ha⟩, ?_⟩
    rintro ⟨r', hr', ha⟩
    cases hr.symm.trans hr'
    exact ha
  rw [hchild]
  simp only [hone.child_iff, List.mem_cons, exists_eq_or_imp]

/-- The ids of a set, in the order of the loop. -/
theorem mem_ids {s : KeySet BlockId} {k : BlockId} : k ∈ s.toList.map Prod.fst ↔ k ∈ s := by
  rw [ExtTreeMap.map_fst_toList_eq_keys, ExtTreeMap.mem_keys]

section Next

variable {m : Marker BlockId BlockForkData} {nextIds pending : KeySet BlockId} {db₁ : Database}

/-- The children that a level has collected. -/
theorem Level.children (h : Level m (nextIds.toList.map Prod.fst) db ∅ db₁ pending) :
    (· ∈ pending) = fun a => ∃ k, k ∈ nextIds ∧ m.Child db.forkDb k a := by
  funext a
  have hnone : a ∉ (∅ : KeySet BlockId) := ExtTreeMap.not_mem_empty
  simp only [h.pending, hnone, false_or, mem_ids]

/-- What can be reached after a level could be reached before it. -/
theorem Level.reached (h : Level m (nextIds.toList.map Prod.fst) db ∅ db₁ pending) {a : BlockId}
    (ha : m.Reached db₁.forkDb (· ∈ pending) a) : m.Reached db.forkDb (· ∈ nextIds) a := by
  rw [h.marks.reached_iff, h.children] at ha
  exact Marker.reached_iff.2 (Or.inr ha)

/-- The rule for one level of a marking: what can be reached from its blocks is marked. -/
theorem Level.next {db' : Database} (h : Level m (nextIds.toList.map Prod.fst) db ∅ db₁ pending)
    (hnext : MarksBlocks m (m.Reached db₁.forkDb (· ∈ pending)) db₁ db') :
    MarksBlocks m (m.Reached db.forkDb (· ∈ nextIds)) db db' := by
  refine ⟨?_, Marker.Marks.level (h.marks.congr fun _ => mem_ids) (h.children ▸ hnext.marks)⟩
  rw [hnext.rest, h.rest]

/-- Nothing is marked from no start. -/
theorem marksBlocks_empty (h : nextIds.isEmpty = true) :
    MarksBlocks m (m.Reached db.forkDb (· ∈ nextIds)) db db := by
  refine ⟨rfl, Marker.marks_none _ ?_⟩
  rintro a ⟨k, hk, -⟩
  change k ∈ nextIds at hk
  rw [ExtTreeMap.isEmpty_iff.1 h] at hk
  exact ExtTreeMap.not_mem_empty hk

end Next

theorem markLinked_level {ids : List BlockId} (state : KeySet BlockId × LongestFork)
    (hstored : ∀ id ∈ ids, db.forkDb[id]? ≠ none ∧ db.blockIdToBlockRecordDb[id]? ≠ none) :
    Outcome (ids.foldlM markLinked state) db
      (fun state' db' => Level linkedMark ids db state.1 db' state'.1) fun _ _ => False := by
  induction ids generalizing db state with
  | nil => exact level_nil linkedMark state.1
  | cons id ids ih =>
    obtain ⟨hfork, hrecord⟩ := hstored id List.mem_cons_self
    obtain ⟨r, hr⟩ := Option.ne_none_iff_exists'.1 hfork
    obtain ⟨header, hheader⟩ := Option.ne_none_iff_exists'.1 hrecord
    rw [List.foldlM_cons, Outcome.bind_iff, markLinked, fetchFork, bind_assoc, Outcome.bind_iff,
      Outcome.get_iff]
    refine outcome_fetch (fun r' hr' => ?_) fun hnone => absurd hnone hfork
    cases hr.symm.trans hr'
    rw [Outcome.bind_iff, storeFork, Outcome.modify_iff, fetchBlockRecord, bind_assoc,
      Outcome.bind_iff, Outcome.get_iff]
    refine outcome_fetch (fun header' _ => ?_) fun hnone => absurd hnone hrecord
    rw [Outcome.pure_iff]
    refine (ih _ fun a ha => ?_).mono (fun _ _ h => h.cons hr) fun _ _ h => h
    obtain ⟨hfork, hrecord⟩ := hstored a (List.mem_cons_of_mem _ ha)
    exact ⟨insert_known hfork, hrecord⟩

/-- **`recursive_mark_as_linked`** links what can be reached from the blocks it starts with, if
it ends. -/
theorem recursiveMarkAsLinked_marks (levels : ℕ) (nextIds : KeySet BlockId)
    (longest : LongestFork)
    (hstored : ∀ a, linkedMark.Reached db.forkDb (· ∈ nextIds) a →
      db.forkDb[a]? ≠ none ∧ db.blockIdToBlockRecordDb[a]? ≠ none) :
    Outcome (recursiveMarkAsLinked levels nextIds longest) db
      (fun _ => MarksBlocks linkedMark (linkedMark.Reached db.forkDb (· ∈ nextIds)) db)
      fun e _ => e = .hang := by
  induction levels generalizing db nextIds longest with
  | zero => exact rfl
  | succ levels ih =>
    rw [recursiveMarkAsLinked]
    split
    · rename_i hempty
      exact marksBlocks_empty hempty
    · rw [Outcome.bind_iff]
      refine (markLinked_level (∅, longest) fun id hid =>
        hstored id (Marker.reached_of_mem (mem_ids.1 hid))).mono (fun state db₁ h => ?_)
        fun _ _ h => h.elim
      refine (ih state.1 state.2 fun a ha => ?_).mono (fun _ db' h' => h.next h') fun _ _ h' => h'
      obtain ⟨hfork, hrecord⟩ := hstored a (h.reached ha)
      refine ⟨h.marks.known hfork, ?_⟩
      rw [h.rest]
      exact hrecord

/-! ### Storing a block -/

/-- The tree in which the block has fork data. -/
def withBlock (t : Table BlockId BlockForkData) (id : BlockId) (prev : BlockForkData) :
    Table BlockId BlockForkData :=
  if t[id]?.isSome then t else t.insert id { isKnown := true, isLinked := prev.isLinked }

/-- The blocks that are linked when the block `id` comes. -/
def Joins (t : Table BlockId BlockForkData) (id : BlockId) (prev : BlockForkData)
    (a : BlockId) : Prop :=
  prev.isLinked = true ∧ (∃ r, t[id]? = some r ∧ r.isLinked = false) ∧
    linkedMark.Reached t (· = id) a

/-- The end of `store_and_index`. -/
theorem indexBlock_marks {id : BlockId} {prev : BlockForkData}
    (hstored : db.forkDb[id]? ≠ none → ∀ k a, linkedMark.Child db.forkDb k a →
      db.forkDb[a]? ≠ none ∧ db.blockIdToBlockRecordDb[a]? ≠ none) :
    Outcome (indexBlock id prev) db
      (fun _ db' => db' = { db with forkDb := db'.forkDb } ∧
        linkedMark.Marks (Joins (withBlock db.forkDb id prev) id prev) (withBlock db.forkDb id prev)
          db'.forkDb) fun e _ => e = .hang := by
  rw [indexBlock, Outcome.bind_iff, Outcome.get_iff]
  cases hfork : db.forkDb[id]? with
  | none =>
    dsimp only
    rw [Outcome.bind_iff, storeFork, Outcome.modify_iff, Outcome.pure_iff, withBlock, hfork,
      Option.isSome_none, if_neg Bool.false_ne_true]
    refine ⟨rfl, Marker.marks_none _ ?_⟩
    rintro a ⟨hprev, ⟨r, hr, hlinked⟩, -⟩
    rw [Table.getElem?_insert_same] at hr
    obtain rfl := Option.some.inj hr
    exact Bool.false_ne_true (hlinked.symm.trans hprev)
  | some current =>
    have hwith : withBlock db.forkDb id prev = db.forkDb := by
      rw [withBlock, hfork, Option.isSome_some, if_pos rfl]
    have hstored := hstored (by rw [hfork]; exact Option.some_ne_none _)
    rw [hwith]
    dsimp only
    split
    · rename_i hjoins
      rw [Bool.and_eq_true, Bool.not_eq_true'] at hjoins
      rw [maxLevels, bind_assoc, Outcome.bind_iff, Outcome.get_iff, pure_bind, Outcome.bind_iff]
      refine (recursiveMarkAsLinked_marks _ current.nextBlocks {} fun a ha => ?_).mono
        (fun longest db₁ h₁ => ?_) fun _ _ h => h
      · obtain ⟨k, hk, hpath⟩ := ha
        rcases hpath.cases_tail with rfl | ⟨k', -, hchild⟩
        · exact hstored id a ⟨current, hfork, hk⟩
        · exact hstored k' a hchild
      · rw [Outcome.bind_iff, storeFork, Outcome.modify_iff, Outcome.pure_iff]
        refine ⟨by rw [h₁.rest], (Marker.Marks.root hfork h₁.marks).congr fun a => ?_⟩
        exact ⟨fun ha => ⟨hjoins.2, ⟨current, hfork, hjoins.1⟩, ha⟩, fun ha => ha.2.2⟩
    · rename_i hno
      rw [Outcome.bind_iff, storeFork, Outcome.modify_iff, Outcome.pure_iff]
      refine ⟨rfl, Marker.marks_rewrite hfork ?_⟩
      rintro a ⟨hprev, ⟨r, hr, hlinked⟩, -⟩
      cases hfork.symm.trans hr
      rw [hlinked, hprev] at hno
      exact hno rfl

/-- The tree in which the parent of a new block has it as a child, and the block has fork
data. -/
def planted (db : Database) (id : BlockId) (b : FullBlock) : Table BlockId BlockForkData :=
  withBlock (db.forkDb.insert b.previous (prevForkData db id b)) id (prevForkData db id b)

/-- What `store_and_index` does to the stored blocks and to the tree. -/
structure Plants (crypto : Crypto) (b : FullBlock) (db db' : Database) : Prop where
  data : db'.blockIdToBlockDataDb =
    db.blockIdToBlockDataDb.insert (crypto.blockId b.toSignedBlockHeader) b
  marks : linkedMark.Marks
    (Joins (planted db (crypto.blockId b.toSignedBlockHeader) b)
      (crypto.blockId b.toSignedBlockHeader)
      (prevForkData db (crypto.blockId b.toSignedBlockHeader) b))
    (planted db (crypto.blockId b.toSignedBlockHeader) b) db'.forkDb

section Store

variable {P : FullBlock → Prop} {K : Database → Event → Prop} {genesis : Ledger}
  {links : List (Link crypto)} {b : FullBlock} {db' : Database}

/-- No header is lost. -/
theorem Stores.recorded {db' : Database} (h : Stores crypto b db db') {a : BlockId}
    (ha : db.blockIdToBlockRecordDb[a]? ≠ none) : db'.blockIdToBlockRecordDb[a]? ≠ none := by
  rcases h.records with heq | ⟨-, heq⟩
  · rw [heq]
    exact ha
  · rw [heq, Table.getElem?_insert]
    split
    · exact Option.some_ne_none _
    · exact ha

/-- Storing a block leaves the tree alone. -/
theorem storeBlock_forks (hseed : SeedReadable db) (wall : ℕ) (b : FullBlock) :
    Outcome (storeBlock wall (crypto.blockId b.toSignedBlockHeader) b) db
      (fun _ db' => db'.forkDb = db.forkDb ∧ Stores crypto b db db' ∧
        db'.blockIdToBlockRecordDb[crypto.blockId b.toSignedBlockHeader]? ≠ none)
      fun _ _ => False := by
  refine .intro (fun _ db' hrun => ⟨?_, (storeBlock_stores wall b db).of_ok hrun⟩)
    fun _ _ hrun => ((storeBlock_stores wall b db).of_error hrun).2 hseed
  have hforks : Outcome (storeBlock wall (crypto.blockId b.toSignedBlockHeader) b) db
      (fun _ db' => db'.forkDb = db.forkDb) fun _ _ => True := by
    simp only [storeBlock, Outcome.bind_iff, Outcome.modify_iff, Outcome.get_iff]
    split
    · rw [Outcome.bind_iff, outcome_lift]
      exact ⟨fun _ _ => rfl, fun _ _ => trivial⟩
    · exact rfl
  exact hforks.of_ok hrun

theorem mem_insert_key {s : KeySet BlockId} {id a : BlockId} :
    a ∈ s.insert id () ↔ a = id ∨ a ∈ s := by
  rw [ExtTreeMap.mem_insert, compare_eq_iff_eq, eq_comm]

/-- The children of a block in the tree with a new block. -/
theorem child_insert (htree : db.ForkTree) {id k a : BlockId} :
    linkedMark.Child (db.forkDb.insert b.previous (prevForkData db id b)) k a ↔
      a = id ∧ b.previous = k ∨ db.StoredOn k a := by
  rw [← htree.children]
  unfold Marker.Child
  rw [Table.getElem?_insert]
  split
  · rename_i hk
    have hnext : a ∈ (prevForkData db id b).nextBlocks ↔
        a = id ∨ ∃ r, db.forkDb[k]? = some r ∧ a ∈ r.nextBlocks := by
      rw [hk, prevForkData]
      cases db.forkDb[b.previous]? with
      | none => exact mem_insert_key.trans (or_congr_right (by simp))
      | some prev => exact mem_insert_key.trans (or_congr_right (by simp))
    rw [and_iff_left hk.symm, ← hnext]
    exact ⟨fun ⟨_, hr, ha⟩ => Option.some.inj hr ▸ ha, fun ha => ⟨_, rfl, ha⟩⟩
  · rename_i hk
    rw [or_iff_right fun h => hk h.2.symm]
    exact Iff.rfl

theorem storeAndIndex_plants (htracks : Tracks crypto P K genesis db links)
    (htree : db.ForkTree) (wall : ℕ) (b : FullBlock) :
    Outcome (storeAndIndex wall (crypto.blockId b.toSignedBlockHeader) b) db
      (fun _ => Plants crypto b db) fun e _ => e = .hang := by
  rw [storeAndIndex, Outcome.bind_iff]
  refine (storeBlock_forks htracks.seed wall b).mono (fun _ db₁ h₁ => ?_) fun _ _ h => h.elim
  obtain ⟨hforks, hstores, hrecord⟩ := h₁
  have hprev : prevForkData db₁ (crypto.blockId b.toSignedBlockHeader) b =
      prevForkData db (crypto.blockId b.toSignedBlockHeader) b := by
    rw [prevForkData, hforks, prevForkData]
  rw [Outcome.bind_iff, Outcome.get_iff, hprev, Outcome.bind_iff, storeFork, Outcome.modify_iff,
    hforks]
  refine (indexBlock_marks fun hknown k a hchild => ?_).mono (fun _ db₂ h₂ => ?_) fun _ _ h => h
  · rcases (child_insert htree).1 hchild with ⟨rfl, -⟩ | ⟨b', hb', -⟩
    · exact ⟨hknown, hrecord⟩
    · obtain ⟨-, -, -, hrecorded, hfork⟩ := htracks.data a b' hb'
      exact ⟨insert_known hfork, hstores.recorded hrecorded⟩
  · obtain ⟨hrest, hmarks⟩ := h₂
    refine ⟨?_, hmarks⟩
    rw [hrest]
    change db₁.blockIdToBlockDataDb = _
    rw [hstores.rest]

/-! ### The tree with a new block -/

theorem child_withBlock {t : Table BlockId BlockForkData} {id k a : BlockId}
    {prev : BlockForkData} :
    linkedMark.Child (withBlock t id prev) k a ↔ linkedMark.Child t k a := by
  unfold withBlock
  split
  · exact Iff.rfl
  · rename_i hnone
    rw [Bool.not_eq_true, Option.isSome_eq_false_iff, Option.isNone_iff_eq_none] at hnone
    by_cases hk : k = id
    · refine iff_of_false ?_ ?_
      · rintro ⟨r, hr, ha⟩
        rw [hk, Table.getElem?_insert_same] at hr
        obtain rfl := Option.some.inj hr
        exact ExtTreeMap.not_mem_empty ha
      · rintro ⟨r, hr, -⟩
        cases hnone.symm.trans (hk ▸ hr)
    · unfold Marker.Child
      rw [Table.getElem?_insert_of_ne _ _ hk]

theorem withBlock_known {t : Table BlockId BlockForkData} {id a : BlockId} {prev : BlockForkData}
    (h : a = id ∨ t[a]? ≠ none) : (withBlock t id prev)[a]? ≠ none := by
  unfold withBlock
  split
  · rename_i hsome
    rcases h with rfl | h
    · exact Option.ne_none_iff_isSome.2 hsome
    · exact h
  · rw [Table.getElem?_insert]
    split
    · exact Option.some_ne_none _
    · rename_i ha
      exact h.resolve_left ha

/-- The parent of a new block is linked when its ancestors are stored. -/
theorem prevForkData_linked (htree : db.ForkTree) {id : BlockId} :
    (prevForkData db id b).isLinked = true ↔ db.Rooted b.previous := by
  unfold prevForkData
  cases hprev : db.forkDb[b.previous]? with
  | some prev => exact htree.linked _ prev hprev
  | none =>
    refine ⟨fun h => ?_, fun h => ?_⟩
    · rw [beq_iff_eq] at h
      rw [h]
      exact .genesis
    · rcases rooted_iff.1 h with hzero | ⟨b', hb', -⟩
      · exact beq_iff_eq.2 hzero
      · exact absurd hprev (htree.stored _ b' hb')

theorem linked_insert (htree : db.ForkTree) {id a : BlockId} {r : BlockForkData}
    (hr : (db.forkDb.insert b.previous (prevForkData db id b))[a]? = some r) :
    r.isLinked = true ↔ db.Rooted a := by
  rw [Table.getElem?_insert] at hr
  split at hr
  · rename_i ha
    obtain rfl := Option.some.inj hr
    rw [ha]
    exact prevForkData_linked htree
  · exact htree.linked a r hr

/-- A path over the stored blocks, after a block has come. -/
theorem Plants.reached (hplants : Plants crypto b db db') (htree : db.ForkTree)
    (hsame : ∀ b', db.blockIdToBlockDataDb[crypto.blockId b.toSignedBlockHeader]? = some b' →
      b'.previous = b.previous) {a : BlockId} :
    linkedMark.Reached (planted db (crypto.blockId b.toSignedBlockHeader) b)
        (· = crypto.blockId b.toSignedBlockHeader) a ↔
      Relation.ReflTransGen db'.StoredOn (crypto.blockId b.toSignedBlockHeader) a := by
  have hchild : linkedMark.Child (planted db (crypto.blockId b.toSignedBlockHeader) b) =
      db'.StoredOn := by
    funext k a
    exact propext (child_withBlock.trans
      ((child_insert htree).trans (storedOn_insert hplants.data hsame).symm))
  rw [← hchild]
  exact ⟨fun ⟨k, hk, hpath⟩ => hk ▸ hpath, fun hpath => ⟨_, rfl, hpath⟩⟩

/-- When the block itself was linked before, so was everything on top of it. -/
theorem Plants.linked_before (hplants : Plants crypto b db db')
    (hid : crypto.blockId b.toSignedBlockHeader ≠ 0)
    (hsame : ∀ b', db.blockIdToBlockDataDb[crypto.blockId b.toSignedBlockHeader]? = some b' →
      b'.previous = b.previous) (hrooted : db.Rooted (crypto.blockId b.toSignedBlockHeader))
    {a : BlockId}
    (hpath : Relation.ReflTransGen db'.StoredOn (crypto.blockId b.toSignedBlockHeader) a) :
    db.Rooted a := by
  obtain ⟨b₀, hb₀, -⟩ := (rooted_iff.1 hrooted).resolve_left hid
  induction hpath with
  | refl => exact hrooted
  | tail _ hon ih =>
    rcases (storedOn_insert hplants.data hsame).1 hon with ⟨rfl, -⟩ | ⟨b', hb', rfl⟩
    · exact hrooted
    · exact .child hb' ih

/-- A block that is new to the tree: nothing is on top of it. -/
theorem Plants.linked_fresh (hplants : Plants crypto b db db') (htree : db.ForkTree)
    (hid : crypto.blockId b.toSignedBlockHeader ≠ 0)
    (hfork : (db.forkDb.insert b.previous (prevForkData db (crypto.blockId b.toSignedBlockHeader)
      b))[crypto.blockId b.toSignedBlockHeader]? = none) {a : BlockId} {r : BlockForkData}
    (hr : db'.forkDb[a]? = some r) : r.isLinked = true ↔ db.Rooted a ∨ db.Rooted b.previous ∧
      linkedMark.Reached (planted db (crypto.blockId b.toSignedBlockHeader) b)
        (· = crypto.blockId b.toSignedBlockHeader) a := by
  have hplanted : planted db (crypto.blockId b.toSignedBlockHeader) b =
      (db.forkDb.insert b.previous
        (prevForkData db (crypto.blockId b.toSignedBlockHeader) b)).insert
        (crypto.blockId b.toSignedBlockHeader) { isKnown := true, isLinked :=
          (prevForkData db (crypto.blockId b.toSignedBlockHeader) b).isLinked } := by
    rw [planted, withBlock, hfork, Option.isSome_none, if_neg Bool.false_ne_true]
  have hnot : ¬db.Rooted (crypto.blockId b.toSignedBlockHeader) := by
    intro hrooted
    obtain ⟨b', hb', -⟩ := (rooted_iff.1 hrooted).resolve_left hid
    exact insert_known (htree.stored _ b' hb') hfork
  have halone : linkedMark.Reached (planted db (crypto.blockId b.toSignedBlockHeader) b)
      (· = crypto.blockId b.toSignedBlockHeader) a ↔ a = crypto.blockId b.toSignedBlockHeader := by
    refine ⟨?_, fun ha => ⟨_, rfl, ha ▸ .refl⟩⟩
    rintro ⟨_, rfl, hpath⟩
    rcases hpath.cases_head with heq | ⟨a', hchild, -⟩
    · exact heq.symm
    · obtain ⟨r', hr', -⟩ := child_withBlock.1 hchild
      cases hfork.symm.trans hr'
  have hentry : db'.forkDb[a]? = (planted db (crypto.blockId b.toSignedBlockHeader) b)[a]? := by
    refine hplants.marks.other a ?_
    rintro ⟨hprev, ⟨r', hr', hunlinked⟩, -⟩
    rw [hplanted, Table.getElem?_insert_same] at hr'
    obtain rfl := Option.some.inj hr'
    exact Bool.false_ne_true (hunlinked.symm.trans hprev)
  rw [hentry, hplanted, Table.getElem?_insert] at hr
  rw [halone]
  split at hr
  · rename_i ha
    obtain rfl := Option.some.inj hr
    rw [ha, or_iff_right hnot, and_iff_left rfl]
    exact prevForkData_linked htree
  · rename_i ha
    rw [or_iff_left fun h => ha h.2]
    exact linked_insert htree hr

/-- A block that the tree has waited for, or has seen before. -/
theorem Plants.linked_known (hplants : Plants crypto b db db') (htree : db.ForkTree)
    (hid : crypto.blockId b.toSignedBlockHeader ≠ 0)
    (hsame : ∀ b', db.blockIdToBlockDataDb[crypto.blockId b.toSignedBlockHeader]? = some b' →
      b'.previous = b.previous) {current : BlockForkData}
    (hfork : (db.forkDb.insert b.previous (prevForkData db (crypto.blockId b.toSignedBlockHeader)
      b))[crypto.blockId b.toSignedBlockHeader]? = some current) {a : BlockId} {r : BlockForkData}
    (hr : db'.forkDb[a]? = some r) : r.isLinked = true ↔ db.Rooted a ∨ db.Rooted b.previous ∧
      linkedMark.Reached (planted db (crypto.blockId b.toSignedBlockHeader) b)
        (· = crypto.blockId b.toSignedBlockHeader) a := by
  have hplanted : planted db (crypto.blockId b.toSignedBlockHeader) b =
      db.forkDb.insert b.previous (prevForkData db (crypto.blockId b.toSignedBlockHeader) b) := by
    rw [planted, withBlock, hfork, Option.isSome_some, if_pos rfl]
  rcases hplants.marks.cases a with ⟨⟨hprev, -, hpath⟩, hentry⟩ | ⟨hnot, hentry⟩
  · rw [hr, eq_comm, Option.map_eq_some_iff] at hentry
    obtain ⟨r₀, -, rfl⟩ := hentry
    exact iff_of_true rfl (Or.inr ⟨(prevForkData_linked htree).1 hprev, hpath⟩)
  · rw [hentry, hplanted] at hr
    rw [linked_insert htree hr]
    refine ⟨Or.inl, fun h => h.elim (fun h => h) ?_⟩
    rintro ⟨hprevious, hpath⟩
    have hlinked : current.isLinked = true := by
      by_contra hunlinked
      rw [Bool.not_eq_true] at hunlinked
      exact hnot ⟨(prevForkData_linked htree).2 hprevious,
        ⟨current, hplanted ▸ hfork, hunlinked⟩, hpath⟩
    exact hplants.linked_before hid hsame ((linked_insert htree hfork).1 hlinked)
      ((hplants.reached htree hsame).1 hpath)

/-- **A new block** keeps the tree exact. -/
theorem Plants.keepsTree (hids : crypto.IdealIds) (htracks : Tracks crypto P K genesis db links)
    (htree : db.ForkTree) {db' : Database} (hplants : Plants crypto b db db') : db'.ForkTree := by
  have hsame : ∀ b', db.blockIdToBlockDataDb[crypto.blockId b.toSignedBlockHeader]? = some b' →
      b'.previous = b.previous := by
    intro b' hb'
    have hheader := hids.inj _ _ (htracks.data _ b' hb').1
    exact congrArg (fun header : SignedBlockHeader => header.previous) hheader
  refine ⟨fun parent a => ?_, fun a r hr => ?_, fun a b' hb' => ?_⟩
  · exact (hplants.marks.child_iff.trans child_withBlock).trans
      ((child_insert htree).trans (storedOn_insert hplants.data hsame).symm)
  · rw [rooted_insert hplants.data hsame, ← hplants.reached htree hsame]
    cases hfork : (db.forkDb.insert b.previous (prevForkData db
        (crypto.blockId b.toSignedBlockHeader) b))[crypto.blockId b.toSignedBlockHeader]? with
    | none => exact hplants.linked_fresh htree (hids.ne_zero _) hfork hr
    | some current => exact hplants.linked_known htree (hids.ne_zero _) hsame hfork hr
  · refine hplants.marks.known (withBlock_known ?_)
    rw [hplants.data, Table.getElem?_insert] at hb'
    split at hb'
    · exact Or.inl ‹_›
    · exact Or.inr (insert_known (htree.stored a b' hb'))

end Store

end Action

end LarkX
