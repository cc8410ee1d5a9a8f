import LarkX.Chain.ForkTree
import LarkX.Chain.Index

/-!
# Forks over runs

The tree of blocks stays exact in every run, however its calls end: `Tended` adds to `Tracks`
that it is, and that the blocks of the path are stored and marked valid. A block that fails is
marked invalid with everything on top of it (`markInvalid_marks`); it stands on the head, so no
block of the path is. `pushBlock` keeps `Tended` (`pushBlock_tended`) because it extends the
chain only by blocks on top of its head (`extendBy_tended`), which is what the history of a fork
is made for.
-/

namespace LarkX

open Std (ExtTreeMap)

namespace Database

/-- The block `a` is the block `id` or stands on top of it. -/
def Descends (db : Database) : BlockId → BlockId → Prop :=
  Relation.ReflTransGen db.StoredOn

variable {db db' : Database} {id a : BlockId}

/-- In an exact tree the blocks on top of a block are those that can be reached from it. -/
theorem ForkTree.reached_iff (h : db.ForkTree) {m : Marker BlockId BlockForkData}
    (hm : ∀ r : BlockForkData, m.children r = r.nextBlocks) :
    m.Reached db.forkDb (· = id) a ↔ db.Descends id a := by
  have hchild : m.Child db.forkDb = db.StoredOn := by
    funext k a
    unfold Marker.Child
    simp only [hm]
    exact propext (h.children k a)
  unfold Marker.Reached Descends
  rw [hchild]
  exact ⟨fun ⟨k, hk, hpath⟩ => hk ▸ hpath, fun hpath => ⟨_, rfl, hpath⟩⟩

end Database

namespace Action

open Database

variable {crypto : Crypto} {wall : ℕ} {db db' : Database}

/-! ### Marking invalid blocks -/

/-- The mark of `recursive_mark_as_invalid`. -/
def invalidMark (reason : Error) : Marker BlockId BlockForkData where
  children r := r.nextBlocks
  mark r := { r with isValid := some false, invalidReason := some reason }
  children_mark _ := rfl
  mark_mark _ := rfl

theorem markOneInvalid_level {ids : List BlockId} (reason : Error) (pending : KeySet BlockId)
    (hstored : ∀ id ∈ ids, db.forkDb[id]? ≠ none) :
    Outcome (ids.foldlM (markOneInvalid reason) pending) db
      (fun pending' db' => Level (invalidMark reason) ids db pending db' pending')
      fun _ _ => False := by
  induction ids generalizing db pending with
  | nil => exact level_nil _ pending
  | cons id ids ih =>
    have hfork := hstored id List.mem_cons_self
    obtain ⟨r, hr⟩ := Option.ne_none_iff_exists'.1 hfork
    rw [List.foldlM_cons, Outcome.bind_iff, markOneInvalid, fetchFork, bind_assoc, Outcome.bind_iff,
      Outcome.get_iff]
    refine outcome_fetch (fun r' hr' => ?_) fun hnone => absurd hnone hfork
    cases hr.symm.trans hr'
    rw [Outcome.bind_iff, storeFork, Outcome.modify_iff, Outcome.pure_iff]
    exact (ih _ fun a ha => insert_known (hstored a (List.mem_cons_of_mem _ ha))).mono
      (fun _ _ h => h.cons hr) fun _ _ h => h

/-- **`recursive_mark_as_invalid`** marks what can be reached from the blocks it starts with, if
it ends. -/
theorem recursiveMarkAsInvalid_marks (reason : Error) (levels : ℕ) (nextIds : KeySet BlockId)
    (hstored : ∀ a, (invalidMark reason).Reached db.forkDb (· ∈ nextIds) a →
      db.forkDb[a]? ≠ none) :
    Outcome (recursiveMarkAsInvalid reason levels nextIds) db
      (fun _ => MarksBlocks (invalidMark reason)
        ((invalidMark reason).Reached db.forkDb (· ∈ nextIds)) db)
      fun e _ => e = .hang := by
  induction levels generalizing db nextIds with
  | zero => exact rfl
  | succ levels ih =>
    rw [recursiveMarkAsInvalid]
    split
    · rename_i hempty
      exact marksBlocks_empty hempty
    · rw [Outcome.bind_iff]
      refine (markOneInvalid_level reason ∅ fun id hid =>
        hstored id (Marker.reached_of_mem (mem_ids.1 hid))).mono (fun pending db₁ h => ?_)
        fun _ _ h => h.elim
      exact (ih pending fun a ha => h.marks.known (hstored a (h.reached ha))).mono
        (fun _ db' h' => h.next h') fun _ _ h' => h'

/-- **`mark_invalid`** marks a block and everything on top of it. -/
theorem markInvalid_marks (htree : db.ForkTree) {id : BlockId} (hid : db.forkDb[id]? ≠ none)
    (reason : Error) :
    Outcome (markInvalid id reason) db
      (fun _ => MarksBlocks (invalidMark reason) (db.Descends id) db) fun e _ => e = .hang := by
  obtain ⟨r, hr⟩ := Option.ne_none_iff_exists'.1 hid
  have hreached : (invalidMark reason).Reached db.forkDb (· = id) = db.Descends id :=
    funext fun a => propext (htree.reached_iff fun _ => rfl)
  have hknown : ∀ a, (invalidMark reason).Reached db.forkDb (· = id) a → db.forkDb[a]? ≠ none := by
    rintro a ⟨_, rfl, hpath⟩
    rcases hpath.cases_tail with rfl | ⟨k, -, hchild⟩
    · exact hid
    · obtain ⟨b, hb, -⟩ := (htree.children k a).1 hchild
      exact htree.stored a b hb
  have hone := Marker.marks_insert (m := invalidMark reason) hr
  rw [markInvalid, fetchFork, bind_assoc, Outcome.bind_iff, Outcome.get_iff]
  refine outcome_fetch (fun r' hr' => ?_) fun hnone => absurd hnone hid
  cases hr.symm.trans hr'
  rw [Outcome.bind_iff, storeFork, Outcome.modify_iff, maxLevels, bind_assoc, Outcome.bind_iff,
    Outcome.get_iff, pure_bind]
  refine (recursiveMarkAsInvalid_marks reason _ r.nextBlocks fun a ha => ?_).mono
    (fun _ db₁ h₁ => ⟨?_, ?_⟩) fun _ _ h => h
  · have hchild := Marker.child_eq_mem (m := invalidMark reason) hr
    refine hone.known (hknown a (Marker.reached_iff.2 (Or.inr ?_)))
    rw [hchild]
    exact hone.reached_iff.1 ha
  · rw [h₁.rest]
  · rw [← hreached]
    exact Marker.Marks.from_root hr h₁.marks

theorem markInvalid_fails {b : FullBlock} {db₁ : Database}
    (h : ExtendFails crypto wall b db db₁) : db₁.forkDb = db.forkDb ∧
      db₁.blockIdToBlockDataDb = db.blockIdToBlockDataDb ∧
      db₁.blockIdToBlockRecordDb = db.blockIdToBlockRecordDb := by
  cases h <;> exact ⟨rfl, rfl, rfl⟩

/-- **An extension**, with the blocks that it marks when it throws. -/
theorem extendChain_marks {b : FullBlock} (htree : db.ForkTree)
    (hid : db.forkDb[crypto.blockId b.toSignedBlockHeader]? ≠ none) :
    Outcome (extendChain crypto wall b) db
      (fun _ db' => ∃ c undo c', Extends crypto wall b db c undo c' db')
      fun e db' => e = .hang ∨ ∃ db₁, ExtendFails crypto wall b db db₁ ∧
        MarksBlocks (invalidMark e) (db.Descends (crypto.blockId b.toSignedBlockHeader)) db₁
          db' := by
  rw [extendChain, Outcome.bind_iff, Outcome.tryCatch_iff]
  refine applyBlock_outcome.mono (fun _ db' h => ?_) fun e db₁ h => ?_
  · rw [purgeExpired, Outcome.modify_iff]
    exact h
  · obtain ⟨hforks, hdata, -⟩ := markInvalid_fails h
    have hsame : SameTree db db₁ := ⟨hdata, fun id => by rw [hforks]⟩
    have hdescends : db₁.Descends = db.Descends := by
      have hon : db₁.StoredOn = db.StoredOn := by
        funext parent id
        rw [StoredOn, hdata, StoredOn]
      rw [Descends, hon, Descends]
    rw [Outcome.bind_iff, ← hdescends]
    exact (markInvalid_marks (htree.same hsame) (hforks ▸ hid) e).mono
      (fun _ _ h' => Or.inr ⟨db₁, h, h'⟩) fun _ _ h' => Or.inl h'

end Action

namespace Database

open LarkX.Action

variable {crypto : Crypto} {wall : ℕ} {genesis : Ledger} {links links' : List (Link crypto)}
  {db db' : Database} {b : FullBlock}

/-! ### The path in the tree -/

/-- The database has followed the path and its tree is exact; the blocks of the path are stored
and valid, and no other block is included. -/
structure Tended (crypto : Crypto) (genesis : Ledger) (db : Database)
    (links : List (Link crypto)) : Prop
    extends Tracks crypto (fun _ => True) (fun _ _ => True) genesis db links where
  tree : db.ForkTree
  included : ∀ id : BlockId, db.isIncludedBlock id = true → id = 0 ∨ id ∈ links.map Link.id
  valid : ∀ id ∈ links.map Link.id, ∃ r, db.forkDb[id]? = some r ∧ r.isValid = some true
  stored : ∀ id ∈ links.map Link.id, db.blockIdToBlockDataDb[id]? ≠ none

/-- The header of a stored block is recorded. -/
theorem Tended.record (hids : crypto.IdealIds) (h : Tended crypto genesis db links) {id : BlockId}
    (hb : db.blockIdToBlockDataDb[id]? = some b) :
    db.blockIdToBlockRecordDb[id]? = some b.toSignedBlockHeader := by
  obtain ⟨hid, -, -, hrecord, -⟩ := h.data id b hb
  obtain ⟨header, hheader⟩ := Option.ne_none_iff_exists'.1 hrecord
  rw [hheader, hids.inj _ _ ((h.recordIds id header hheader).trans hid.symm)]

/-- The parent of a block of the path is on the path. -/
theorem Tended.parent (hids : crypto.IdealIds) (h : Tended crypto genesis db links) {id : BlockId}
    (hid : id ∈ links.map Link.id) (hb : db.blockIdToBlockDataDb[id]? = some b) :
    b.previous = 0 ∨ b.previous ∈ links.map Link.id := by
  obtain ⟨link, hlink, rfl⟩ := List.mem_map.1 hid
  have hheader := (h.record hids hb).symm.trans (h.records link hlink)
  have hprevious : b.previous = link.block.previous :=
    congrArg (fun header : SignedBlockHeader => header.previous) (Option.some.inj hheader)
  rw [hprevious]
  exact h.linked.previous link hlink

/-- What is below a block of the path is on the path. -/
theorem Tended.below (hids : crypto.IdealIds) (h : Tended crypto genesis db links)
    {id a : BlockId} (hpath : db.Descends id a) (ha : a ∈ links.map Link.id) :
    id = 0 ∨ id ∈ links.map Link.id := by
  induction hpath using Relation.ReflTransGen.head_induction_on with
  | refl => exact Or.inr ha
  | head hon _ ih =>
    obtain ⟨b, hb, rfl⟩ := hon
    rcases ih with hzero | hmem
    · exact absurd (hzero ▸ (h.data _ b hb).1) (hids.ne_zero _)
    · exact h.parent hids hmem hb

/-- No block of the path stands on a block on top of the head. -/
theorem Tended.not_descends (hids : crypto.IdealIds) (h : Tended crypto genesis db links)
    (hhead : b.previous = db.headBlockId) {a : BlockId} (ha : a ∈ links.map Link.id) :
    ¬db.Descends (crypto.blockId b.toSignedBlockHeader) a := by
  intro hpath
  rcases h.below hids hpath ha with hzero | hmem
  · exact hids.ne_zero _ hzero
  · exact h.linked.fresh hids (hhead.trans h.id) hmem

/-- A path whose blocks are stored leads to genesis. -/
theorem Linked.rooted {P : FullBlock → Prop} {K : Database → Event → Prop}
    (h : Linked crypto P K genesis links)
    (hstored : ∀ link ∈ links, db.StoredOn link.block.previous link.id) :
    ∀ link ∈ links, db.Rooted link.id := by
  induction h with
  | nil => exact fun _ hlink => absurd hlink List.not_mem_nil
  | @cons link rest _ hprev _ _ _ _ ih =>
    have hrest := ih fun l hl => hstored l (List.mem_cons_of_mem _ hl)
    refine List.forall_mem_cons.2 ⟨?_, hrest⟩
    obtain ⟨b, hb, hprevious⟩ := hstored link List.mem_cons_self
    refine .child hb ?_
    rw [hprevious, previous_of_evaluated link.evaluated, hprev.id]
    cases rest with
    | nil => exact .genesis
    | cons second _ => exact hrest second List.mem_cons_self

/-- The blocks of the path have all their ancestors. -/
theorem Tended.rooted (hids : crypto.IdealIds) (h : Tended crypto genesis db links)
    {id : BlockId} (hid : id ∈ links.map Link.id) : db.Rooted id := by
  obtain ⟨link, hlink, rfl⟩ := List.mem_map.1 hid
  refine h.linked.rooted (fun l hl => ?_) link hlink
  obtain ⟨b, hb⟩ := Option.ne_none_iff_exists'.1 (h.stored l.id (List.mem_map_of_mem hl))
  have hheader := (h.record hids hb).symm.trans (h.records l hl)
  exact ⟨b, hb, congrArg (fun header : SignedBlockHeader => header.previous)
    (Option.some.inj hheader)⟩

/-! ### Steps -/

/-- An extension that returns. -/
theorem Tended.extend (hids : crypto.IdealIds) (h : Tended crypto genesis db links)
    {c c' : ChainInterface} {undo : Overlay} (hextends : Extends crypto wall b db c undo c' db')
    {id : BlockId} (hstored : db.blockIdToBlockDataDb[id]? = some b) :
    ∃ link : Link crypto, Tended crypto genesis db' (link :: links) := by
  obtain ⟨link, -, -, hblock, htracks, -⟩ := h.toTracks.extend hids hextends hstored trivial
  have hid : link.id = crypto.blockId b.toSignedBlockHeader := by rw [Link.id, hblock]
  obtain ⟨fork, undoStateDb, hfork, -, rfl⟩ := hextends.result
  have hsame : SameTree db ((db.advanced crypto b c'.db fork undoStateDb).purged wall) :=
    @sameTree_insert _ _ _ fork { fork with isIncluded := true, isValid := some true } hfork rfl rfl
      rfl
  refine ⟨link, htracks, h.tree.same hsame, fun a ha => ?_, fun a ha => ?_, fun a ha => ?_⟩
  · rw [@isIncludedBlock_insert db _ _ _ rfl] at ha
    rw [List.map_cons, List.mem_cons, hid]
    split at ha
    · exact Or.inr (Or.inl ‹_›)
    · exact (h.included a ha).imp_right Or.inr
  · change ∃ r, (db.forkDb.insert _ _)[a]? = some r ∧ _
    rw [Table.getElem?_insert]
    split
    · exact ⟨_, rfl, rfl⟩
    · rename_i hne
      rw [List.map_cons, List.mem_cons, hid] at ha
      exact h.valid a (ha.resolve_left hne)
  · rw [List.map_cons, List.mem_cons, hid] at ha
    rcases ha with rfl | ha
    · change db.blockIdToBlockDataDb[_]? ≠ none
      rw [(h.data id b hstored).1, hstored]
      exact Option.some_ne_none _
    · exact h.stored a ha

/-- Blocks that are not on the path are marked. -/
theorem Tended.marked (h : Tended crypto genesis db links) {m : Marker BlockId BlockForkData}
    {p : BlockId → Prop} (hrest : db' = { db with forkDb := db'.forkDb })
    (hmarks : m.Marks p db.forkDb db'.forkDb)
    (htree : ∀ r, treeData (m.mark r) = treeData r)
    (hincluded : ∀ r, (m.mark r).isIncluded = r.isIncluded)
    (hpath : ∀ id ∈ links.map Link.id, ¬p id) : Tended crypto genesis db' links := by
  have hdata : db'.blockIdToBlockDataDb = db.blockIdToBlockDataDb := by rw [hrest]
  have hkept : ∀ id, db'.isIncludedBlock id = db.isIncludedBlock id := by
    intro id
    have hflag := hmarks.keeps hincluded id
    unfold isIncludedBlock
    cases hr : db.forkDb[id]? with
    | none =>
      rw [hr, Option.map_none, Option.map_eq_none_iff] at hflag
      rw [hflag]
    | some r =>
      rw [hr, Option.map_some, Option.map_eq_some_iff] at hflag
      obtain ⟨r', hr', hflag⟩ := hflag
      rw [hr']
      exact hflag
  refine ⟨h.toTracks.marked ⟨hrest, fun _ => hmarks.known, hkept⟩,
    h.tree.same ⟨hdata, hmarks.keeps htree⟩, fun id hid => h.included id (hkept id ▸ hid),
    fun id hid => ?_, hdata ▸ h.stored⟩
  rw [hmarks.other id (hpath id hid)]
  exact h.valid id hid

/-- An extension that throws. -/
theorem Tended.extendThrew (hids : crypto.IdealIds) (h : Tended crypto genesis db links)
    (hhead : b.previous = db.headBlockId) {id : BlockId}
    (hstored : db.blockIdToBlockDataDb[id]? = some b) {db₁ : Database} {e : Error}
    (hfails : ExtendFails crypto wall b db db₁)
    (hmarks : MarksBlocks (invalidMark e) (db.Descends (crypto.blockId b.toSignedBlockHeader)) db₁
      db') : Tended crypto genesis db' links := by
  obtain ⟨-, htracks⟩ := h.toTracks.extendThrew hids hstored hfails
  obtain ⟨hforks, hdata, -⟩ := markInvalid_fails hfails
  have h₁ : Tended crypto genesis db₁ links := by
    refine ⟨htracks, h.tree.same ⟨hdata, fun id => by rw [hforks]⟩, fun a ha => ?_, ?_, ?_⟩
    · rw [isIncludedBlock, hforks] at ha
      exact h.included a ha
    · rw [hforks]
      exact h.valid
    · rw [hdata]
      exact h.stored
  exact h₁.marked hmarks.rest hmarks.marks (fun _ => rfl) (fun _ => rfl)
    fun a ha => h.not_descends hids hhead ha

/-- A block is stored. -/
theorem Tended.store (hids : crypto.IdealIds) (h : Tended crypto genesis db links)
    (hrange : b.InRange) (hindexes : Indexes crypto b db db') (hplants : Plants crypto b db db') :
    Tended crypto genesis db' links := by
  refine ⟨h.toTracks.store trivial hrange hindexes, hplants.keepsTree hids h.toTracks h.tree,
    fun id hid => h.included id (hindexes.included id ▸ hid), fun id hid => ?_, fun id hid => ?_⟩
  · obtain ⟨r, hr, hvalid⟩ := h.valid id hid
    obtain ⟨r₁, hr₁, hvalid₁⟩ : ∃ r₁, (db.forkDb.insert b.previous
        (prevForkData db (crypto.blockId b.toSignedBlockHeader) b))[id]? = some r₁ ∧
          r₁.isValid = some true := by
      rw [Table.getElem?_insert]
      split
      · rename_i hprevious
        refine ⟨_, rfl, ?_⟩
        rw [prevForkData, ← hprevious, hr]
        exact hvalid
      · exact ⟨r, hr, hvalid⟩
    have hplanted : (planted db (crypto.blockId b.toSignedBlockHeader) b)[id]? = some r₁ := by
      unfold planted withBlock
      split
      · exact hr₁
      · rename_i hnone
        have hne : id ≠ crypto.blockId b.toSignedBlockHeader := by
          rintro rfl
          exact hnone (Option.isSome_iff_exists.2 ⟨r₁, hr₁⟩)
        rw [Table.getElem?_insert_of_ne _ _ hne]
        exact hr₁
    have hflag := hplants.marks.keeps (f := fun r => r.isValid) (fun _ => rfl) id
    rw [hplanted, Option.map_some, Option.map_eq_some_iff] at hflag
    obtain ⟨r', hr', hsame⟩ := hflag
    exact ⟨r', hr', hsame.trans hvalid₁⟩
  · rw [hplants.data, Table.getElem?_insert]
    split
    · exact Option.some_ne_none _
    · exact h.stored id hid

section Pop

variable {fork : BlockForkData} (hfork : db.forkDb[db.headBlockId]? = some fork)
  (hforks : db'.forkDb = db.forkDb.insert db.headBlockId { fork with isIncluded := false })
  (hdata : db'.blockIdToBlockDataDb = db.blockIdToBlockDataDb)

include hfork hforks hdata

/-- The head is marked as not included, and maybe popped. -/
theorem Tended.unincluded (h : Tended crypto genesis db links)
    (h' : Tracks crypto (fun _ => True) (fun _ _ => True) genesis db' links')
    (hlinks : ∀ id ∈ links'.map Link.id, id ∈ links.map Link.id)
    (hrest : ∀ id ∈ links.map Link.id, id ≠ db.headBlockId → id ∈ links'.map Link.id) :
    Tended crypto genesis db' links' := by
  have hsame : SameTree db db' :=
    @sameTree_insert _ _ _ fork { fork with isIncluded := false } hfork rfl hdata hforks
  refine ⟨h', h.tree.same hsame, fun id hid => ?_, fun id hid => ?_, fun id hid => ?_⟩
  · rw [isIncludedBlock_insert hforks] at hid
    split at hid
    · cases hid
    · rename_i hne
      exact (h.included id hid).imp_right fun hmem => hrest id hmem hne
  · obtain ⟨r, hr, hvalid⟩ := h.valid id (hlinks id hid)
    rw [hforks, Table.getElem?_insert]
    split
    · rename_i heq
      cases hfork.symm.trans (heq ▸ hr)
      exact ⟨_, rfl, hvalid⟩
    · exact ⟨r, hr, hvalid⟩
  · rw [hdata]
    exact h.stored id (hlinks id hid)

/-- The head is popped. -/
theorem Tended.pop (hids : crypto.IdealIds) {link : Link crypto}
    (h : Tended crypto genesis db (link :: links))
    (h' : Tracks crypto (fun _ => True) (fun _ _ => True) genesis db' links')
    (hhead : db'.headBlockId = db.headBlockHeader.previous) : Tended crypto genesis db' links' := by
  obtain ⟨-, hid, hprevious⟩ := h.toTracks.header_cons
  have hids' : links'.map Link.id = links.map Link.id := by
    cases h.linked with
    | cons hrest _ _ _ _ _ =>
      refine h'.linked.unique hids hrest ?_
      rw [← h'.id, hhead, hprevious]
  refine h.unincluded hfork hforks hdata h' (fun id hmem => ?_) fun id hmem hne => ?_
  · rw [List.map_cons, List.mem_cons]
    exact Or.inr (hids' ▸ hmem)
  · rw [List.map_cons, List.mem_cons, ← hid] at hmem
    rw [hids']
    exact hmem.resolve_left hne

end Pop

/-- A pop that returns. -/
theorem Tended.popped (hids : crypto.IdealIds) (h : Tended crypto genesis db links)
    {undo : Overlay} {c' : ChainInterface} {header : SignedBlockHeader}
    (hpops : Pops crypto wall db undo c' header db') : ∃ links', Tended crypto genesis db' links' := by
  obtain ⟨links', -, h'⟩ := h.toTracks.popped hids hpops trivial
  obtain ⟨fork, hfork, rfl⟩ := hpops.result
  cases links with
  | nil =>
    have hstored := hpops.stored
    rw [show db.headBlockId = 0 from h.id, h.undoZero] at hstored
    cases hstored
  | cons link links => exact ⟨links', h.pop hfork rfl rfl hids h' rfl⟩

/-- A pop that throws. -/
theorem Tended.popThrew (h : Tended crypto genesis db links) (hids : crypto.IdealIds)
    (hfails : PopFails crypto wall db db') (hnum : db.headBlockNum ≠ 0) :
    ∃ links', Tended crypto genesis db' links' := by
  obtain ⟨links', -, h'⟩ := h.toTracks.popThrew hfails hnum trivial
  cases hfails with
  | unknown _ => exact ⟨links, h⟩
  | noUndo hfork _ =>
    refine ⟨links, h.unincluded hfork rfl rfl ?_ (fun _ hid => hid) fun _ hid _ => hid⟩
    exact h.toTracks.stay ⟨rfl, rfl, rfl⟩ (fun _ _ _ hu => hu) h.undoZero rfl rfl
      fun _ hfork => insert_known hfork
  | unapplied _ hundo happly =>
    cases links with
    | nil =>
      rw [show db.headBlockId = 0 from h.id, h.undoZero] at hundo
      cases hundo
    | cons link links =>
      rw [h.toTracks.header_cons.2.1] at hundo
      rw [h.toTracks.undo_applied hundo wall] at happly
      cases happly
  | noHeader hfork hundo _ _ =>
    cases links with
    | nil =>
      rw [show db.headBlockId = 0 from h.id, h.undoZero] at hundo
      cases hundo
    | cons link links => exact ⟨links', h.pop hfork rfl rfl hids h' rfl⟩

/-! ### Switching forks -/

/-- The header of `id` names `parent`. -/
def NamesParent (db : Database) (id parent : BlockId) : Prop :=
  ∃ header, db.blockIdToBlockRecordDb[id]? = some header ∧ header.previous = parent

/-- **The history of a fork** goes from each block to its parent. -/
theorem forkAncestors_chain (steps : ℕ) (id : BlockId) :
    Outcome (forkAncestors steps id) db
      (fun ancestors db' => db' = db ∧ List.IsChain db.NamesParent (id :: ancestors))
      fun _ db' => db' = db := by
  induction steps generalizing id with
  | zero => exact rfl
  | succ steps ih =>
    rw [forkAncestors, Action.getBlockHeader, bind_assoc, Outcome.bind_iff, Outcome.get_iff]
    refine outcome_fetch (fun header hheader => ?_) fun _ => rfl
    have hparent : db.NamesParent id header.previous := ⟨header, hheader, rfl⟩
    split
    · rename_i hzero
      exact ⟨rfl, .cons_cons (hzero ▸ hparent) (.singleton _)⟩
    · rw [fetchFork, bind_assoc, Outcome.bind_iff, Outcome.get_iff]
      refine outcome_fetch (fun r _ => ?_) fun _ => rfl
      rw [Outcome.bind_iff, outcome_lift]
      refine ⟨fun _ _ => ?_, fun _ _ => rfl⟩
      split
      · exact ⟨rfl, .cons_cons hparent (.singleton _)⟩
      · rw [Outcome.bind_iff]
        refine (ih header.previous).mono ?_ fun _ _ h => h
        rintro rest _ ⟨rfl, hrest⟩
        exact ⟨rfl, .cons_cons hparent hrest⟩

theorem getForkHistory_chain (id : BlockId) :
    Outcome (getForkHistory id) db
      (fun history db' => db' = db ∧ ∃ ancestors, history = id :: ancestors ∧
        List.IsChain db.NamesParent history) fun _ db' => db' = db := by
  rw [getForkHistory, maxLevels, bind_assoc, Outcome.bind_iff, Outcome.get_iff, pure_bind,
    Outcome.bind_iff]
  refine (forkAncestors_chain _ id).mono ?_ fun _ _ h => h
  rintro ancestors _ ⟨rfl, hchain⟩
  exact ⟨rfl, ancestors, rfl, hchain⟩

/-- The blocks of a fork, the oldest first, stand on its last common block. -/
theorem chain_of_history {history : List BlockId} (hne : history ≠ [])
    (h : List.IsChain db.NamesParent history) :
    List.IsChain (fun parent id => db.NamesParent id parent)
      (history.getLastD 0 :: history.dropLast.reverse) := by
  have hsplit : history = history.dropLast ++ [history.getLastD 0] := by
    rw [List.getLastD_eq_getLast?, List.getLast?_eq_some_getLast hne, Option.getD_some,
      List.dropLast_append_getLast hne]
  have hreverse : history.reverse = history.getLastD 0 :: history.dropLast.reverse := by
    conv_lhs => rw [hsplit, List.reverse_append, List.reverse_singleton, List.singleton_append]
  rw [← hreverse]
  exact List.isChain_reverse.2 h

/-- The database between the steps of a call. -/
structure Keeps (crypto : Crypto) (genesis : Ledger) (db db' : Database) : Prop where
  tended : ∃ links : List (Link crypto), Tended crypto genesis db' links
  records : db'.blockIdToBlockRecordDb = db.blockIdToBlockRecordDb

theorem Keeps.trans {db₁ db₂ : Database} (h : db₁.blockIdToBlockRecordDb = db.blockIdToBlockRecordDb)
    (h' : Keeps crypto genesis db₁ db₂) : Keeps crypto genesis db db₂ :=
  ⟨h'.tended, h'.records.trans h⟩

theorem popBlock_keeps (hids : crypto.IdealIds) (h : Tended crypto genesis db links) :
    Outcome (popBlock crypto wall) db (fun _ => Keeps crypto genesis db)
      fun _ => Keeps crypto genesis db := by
  refine popBlock_outcome.mono (fun _ db' h' => ?_) fun _ db' h' => ?_
  · rcases h' with ⟨-, rfl⟩ | ⟨-, undo, c', header, hpops⟩
    · exact ⟨⟨links, h⟩, rfl⟩
    · refine ⟨h.popped hids hpops, ?_⟩
      obtain ⟨fork, -, rfl⟩ := hpops.result
      rfl
  · refine ⟨h.popThrew hids h'.2 h'.1, ?_⟩
    cases h'.2 <;> rfl

theorem popUntil_keeps (hids : crypto.IdealIds) (target : BlockId) (steps : ℕ)
    (h : Tended crypto genesis db links) :
    Outcome (popUntil crypto wall target steps) db
      (fun _ db' => Keeps crypto genesis db db' ∧ db'.headBlockId = target)
      fun e db' => e = .hang ∨ Keeps crypto genesis db db' := by
  induction steps generalizing db links with
  | zero => exact Or.inl rfl
  | succ steps ih =>
    rw [popUntil, Outcome.bind_iff, Outcome.get_iff]
    split
    · rename_i hhead
      exact ⟨⟨⟨links, h⟩, rfl⟩, hhead⟩
    · rw [Outcome.bind_iff]
      refine (popBlock_keeps hids h).mono (fun _ db₁ h₁ => ?_) fun _ _ h₁ => Or.inr h₁
      obtain ⟨⟨links₁, htended⟩, hrecords⟩ := h₁
      exact (ih htended).mono (fun _ _ h₂ => ⟨.trans hrecords h₂.1, h₂.2⟩)
        fun _ _ h₂ => h₂.imp_right (.trans hrecords)

/-- A block on top of the head extends the chain, or is marked. -/
theorem extendChain_keeps (hids : crypto.IdealIds) (h : Tended crypto genesis db links)
    {id : BlockId} (hstored : db.blockIdToBlockDataDb[id]? = some b)
    (hhead : b.previous = db.headBlockId) :
    Outcome (extendChain crypto wall b) db
      (fun _ db' => Keeps crypto genesis db db' ∧
        db'.headBlockId = crypto.blockId b.toSignedBlockHeader)
      fun e db' => e = .hang ∨ Keeps crypto genesis db db' := by
  have hid := (h.data id b hstored).1
  refine (extendChain_marks h.tree ?_).mono (fun _ db' h' => ?_) fun e db' h' => ?_
  · rw [hid]
    exact (h.data id b hstored).2.2.2.2
  · obtain ⟨c, undo, c', hextends⟩ := h'
    obtain ⟨link, htended⟩ := h.extend hids hextends hstored
    obtain ⟨fork, undoStateDb, -, -, rfl⟩ := hextends.result
    exact ⟨⟨⟨_, htended⟩, rfl⟩, rfl⟩
  · refine h'.imp_right ?_
    rintro ⟨db₁, hfails, hmarks⟩
    refine ⟨⟨links, h.extendThrew hids hhead hstored hfails hmarks⟩, ?_⟩
    rw [hmarks.rest]
    exact (markInvalid_fails hfails).2.2

/-- Blocks that stand on top of each other and of the head. -/
theorem extendBy_keeps (hids : crypto.IdealIds) {ids : List BlockId}
    (h : Tended crypto genesis db links)
    (hchain : List.IsChain (fun parent id => db.NamesParent id parent) (db.headBlockId :: ids)) :
    Outcome (extendBy crypto wall ids) db (fun _ => Keeps crypto genesis db)
      fun e db' => e = .hang ∨ Keeps crypto genesis db db' := by
  induction ids generalizing db links with
  | nil => exact ⟨⟨links, h⟩, rfl⟩
  | cons id ids ih =>
    change Outcome ((getBlock id >>= fun b => extendChain crypto wall b) >>= fun _ =>
      extendBy crypto wall ids) db _ _
    rw [bind_assoc, getBlock, bind_assoc, Outcome.bind_iff, Outcome.get_iff]
    refine outcome_fetch (fun b hb => ?_) fun _ => Or.inr ⟨⟨links, h⟩, rfl⟩
    obtain ⟨⟨header, hheader, hprevious⟩, hrest⟩ := List.isChain_cons_cons.1 hchain
    have hsame := (h.record hids hb).symm.trans hheader
    have hhead : b.previous = db.headBlockId :=
      (congrArg (fun header : SignedBlockHeader => header.previous) (Option.some.inj hsame)).trans
        hprevious
    rw [Outcome.bind_iff]
    refine (extendChain_keeps hids h hb hhead).mono (fun _ db₁ h₁ => ?_) fun _ _ h₁ => h₁
    obtain ⟨⟨⟨links₁, htended⟩, hrecords⟩, hnew⟩ := h₁
    have hnames : db₁.NamesParent = db.NamesParent := by
      funext id parent
      rw [NamesParent, hrecords, NamesParent]
    refine (ih htended ?_).mono (fun _ _ h₂ => .trans hrecords h₂)
      fun _ _ h₂ => h₂.imp_right (.trans hrecords)
    rw [hnew, (h.data id b hb).1, hnames]
    exact hrest

theorem switchToFork_keeps (hids : crypto.IdealIds) (h : Tended crypto genesis db links)
    (id : BlockId) :
    Outcome (switchToFork crypto wall id) db (fun _ => Keeps crypto genesis db)
      fun e db' => e = .hang ∨ Keeps crypto genesis db db' := by
  rw [switchToFork, Outcome.bind_iff]
  refine (getForkHistory_chain id).mono ?_ ?_
  · rintro history db₀ ⟨hread, ancestors, hhistory, hchain⟩
    rw [hread]
    have hne : history ≠ [] := hhistory ▸ List.cons_ne_nil _ _
    rw [maxLevels, bind_assoc, Outcome.bind_iff, Outcome.get_iff, pure_bind, Outcome.bind_iff]
    refine (popUntil_keeps hids _ _ h).mono (fun _ db₁ h₁ => ?_) fun _ _ h₁ => h₁
    obtain ⟨⟨⟨links₁, htended⟩, hrecords⟩, hhead⟩ := h₁
    have hnames : db₁.NamesParent = db.NamesParent := by
      funext id parent
      rw [NamesParent, hrecords, NamesParent]
    refine (extendBy_keeps hids htended ?_).mono (fun _ _ h₂ => .trans hrecords h₂)
      fun _ _ h₂ => h₂.imp_right (.trans hrecords)
    rw [hhead, hnames]
    exact chain_of_history hne hchain
  · rintro _ _ rfl
    exact Or.inr ⟨⟨links, h⟩, rfl⟩

/-- A procedure that only reads. -/
theorem getBlockForkData_reads (id : BlockId) :
    Outcome (getBlockForkData id) db (fun _ db' => db' = db) fun _ db' => db' = db := by
  rw [getBlockForkData, Outcome.bind_iff, Outcome.get_iff, outcome_lift]
  exact ⟨fun _ _ => rfl, fun _ _ => rfl⟩

theorem switchOrRevert_keeps (hids : crypto.IdealIds) (h : Tended crypto genesis db links)
    (longestId currentHeadId blockId : BlockId) (newForkData : BlockForkData) :
    Outcome (switchOrRevert crypto wall longestId currentHeadId blockId newForkData) db
      (fun _ => Keeps crypto genesis db) fun e db' => e = .hang ∨ Keeps crypto genesis db db' := by
  rw [switchOrRevert, Outcome.tryCatch_iff, Outcome.bind_iff]
  have hcatch : ∀ {e : Error} {db₁ : Database}, e = .hang ∨ Keeps crypto genesis db db₁ →
      Outcome (if e = .hang then throw e else do
        switchToFork crypto wall currentHeadId
        return newForkData : Action BlockForkData) db₁ (fun _ => Keeps crypto genesis db)
        fun e db' => e = .hang ∨ Keeps crypto genesis db db' := by
    intro e db₁ h₁
    split
    · rename_i hhang
      exact Or.inl hhang
    · rename_i hhang
      obtain ⟨⟨links₁, htended⟩, hrecords⟩ := h₁.resolve_left hhang
      rw [Outcome.bind_iff]
      exact (switchToFork_keeps hids htended currentHeadId).mono
        (fun _ _ h₂ => .trans hrecords h₂) fun _ _ h₂ => h₂.imp_right (.trans hrecords)
  refine (switchToFork_keeps hids h longestId).mono (fun _ db₁ h₁ => ?_) fun _ _ h₁ => hcatch h₁
  refine (getBlockForkData_reads blockId).mono ?_ ?_
  · rintro _ _ rfl
    exact h₁
  · rintro _ _ rfl
    exact hcatch (Or.inr h₁)

/-- **`push_block`** keeps the tree and the path, however it ends. -/
theorem pushBlock_tended (hids : crypto.IdealIds) (h : Tended crypto genesis db links)
    (hrange : b.InRange) :
    Outcome (pushBlock crypto wall b) db
      (fun _ db' => ∃ links : List (Link crypto), Tended crypto genesis db' links)
      fun e db' => e = .hang ∨ ∃ links : List (Link crypto), Tended crypto genesis db' links := by
  rw [pushBlock, Outcome.bind_iff, Outcome.get_iff, Outcome.bind_iff, outcome_lift]
  refine ⟨fun _ _ => ?_, fun _ _ => Or.inr ⟨links, h⟩⟩
  rw [Outcome.bind_iff]
  refine .intro (fun longest db₁ hrun => ?_) fun e db₁ hrun =>
    Or.inl ((storeAndIndex_plants h.toTracks h.tree wall b).of_error hrun)
  have hindexes := (storeAndIndex_indexes wall b db).of_ok hrun
  have hplants := (storeAndIndex_plants h.toTracks h.tree wall b).of_ok hrun
  have h₁ := h.store hids hrange hindexes hplants
  have hstored : db₁.blockIdToBlockDataDb[crypto.blockId b.toSignedBlockHeader]? = some b := by
    rw [hplants.data]
    exact Table.getElem?_insert_same ..
  have hhead : db₁.headBlockId = db.headBlockId := by rw [hindexes.rest]
  rw [Outcome.bind_iff]
  refine (getBlockForkData_reads _).mono ?_ ?_
  · rintro newForkData _ rfl
    split
    · rename_i hprevious
      rw [Outcome.bind_iff]
      refine (extendChain_keeps hids h₁ hstored (hprevious.trans hhead.symm)).mono
        (fun _ db₂ h₂ => ?_) fun _ _ h₂ => h₂.imp_right Keeps.tended
      refine (getBlockForkData_reads _).mono ?_ ?_
      · rintro _ _ rfl
        exact h₂.1.tended
      · rintro _ _ rfl
        exact Or.inr h₂.1.tended
    · split
      · rw [fetchBlockRecord, bind_assoc, Outcome.bind_iff, Outcome.get_iff]
        refine outcome_fetch (fun header _ => ?_) fun _ => Or.inr ⟨links, h₁⟩
        rw [Outcome.bind_iff, Outcome.get_iff]
        split
        · exact (switchOrRevert_keeps hids h₁ _ _ _ _).mono (fun _ _ h₂ => h₂.tended)
            fun _ _ h₂ => h₂.imp_right Keeps.tended
        · exact ⟨links, h₁⟩
      · exact ⟨links, h₁⟩
  · rintro _ _ rfl
    exact Or.inr ⟨links, h₁⟩

/-! ### Runs -/

variable {config : GenesisBlockConfig}

theorem tended_genesis (h : initializeGenesis crypto config = .ok db) :
    Tended crypto db.ledger db [] := by
  have hforks : db.forkDb = (∅ : Table BlockId BlockForkData).insert 0 Genesis.genesisFork := by
    simp only [initializeGenesis, bind_eq_ok, pure_eq_ok] at h
    obtain ⟨ledger, -, rfl⟩ := h
    rfl
  have hfork : ∀ (id : BlockId) (r : BlockForkData), db.forkDb[id]? = some r →
      id = 0 ∧ r = Genesis.genesisFork := by
    intro id r hr
    rw [hforks, Table.getElem?_insert] at hr
    split at hr
    · exact ⟨‹_›, (Option.some.inj hr).symm⟩
    · cases (Table.getElem?_empty' _).symm.trans hr
  have hdata : ∀ id : BlockId, db.blockIdToBlockDataDb[id]? = none := by
    intro id
    rw [initializeGenesis_head h]
    exact Table.getElem?_empty' _
  refine ⟨tracks_genesis h, ⟨fun parent id => iff_of_false ?_ ?_, fun id r hr => ?_,
    fun id b hb => ?_⟩, fun id hid => Or.inl ?_, fun _ hid => absurd hid List.not_mem_nil,
    fun _ hid => absurd hid List.not_mem_nil⟩
  · rintro ⟨r, hr, hid⟩
    rw [(hfork parent r hr).2] at hid
    exact ExtTreeMap.not_mem_empty hid
  · rintro ⟨b, hb, -⟩
    cases (hdata id).symm.trans hb
  · obtain ⟨rfl, rfl⟩ := hfork id r hr
    exact iff_of_true rfl .genesis
  · cases (hdata id).symm.trans hb
  · unfold isIncludedBlock at hid
    split at hid
    · rename_i r hr
      exact (hfork id r hr).1
    · cases hid

/-- **Every state of a run** has followed a path in an exact tree. -/
theorem Reachable.tended (hids : crypto.IdealIds) (h : Reachable crypto config db) :
    ∃ g, initializeGenesis crypto config = .ok g ∧
      ∃ links : List (Link crypto), Tended crypto g.ledger db links := by
  induction h with
  | genesis h => exact ⟨_, h, [], tended_genesis h⟩
  | delegateLoop _ ih =>
    obtain ⟨g, hg, links, h⟩ := ih
    exact ⟨g, hg, links, ⟨h.toAt.same ⟨rfl, rfl, rfl⟩, h.linked, h.undo, h.undoZero, h.records,
      h.recordIds, h.data⟩, h.tree.same ⟨rfl, fun _ => rfl⟩, h.included, h.valid, h.stored⟩
  | push wall b _ hrange hpush ih =>
    obtain ⟨g, hg, links, h⟩ := ih
    refine ⟨g, hg, ?_⟩
    cases hpush with
    | returned _ hrun => exact (pushBlock_tended hids h hrange).of_ok hrun
    | threw e hne hrun => exact ((pushBlock_tended hids h hrange).of_error hrun).resolve_left hne

/-- **The tree of blocks is exact** in every state of a run, in whatever order the blocks came. -/
theorem Reachable.forkTree (hids : crypto.IdealIds) (h : Reachable crypto config db) :
    db.ForkTree := by
  obtain ⟨_, _, links, htended⟩ := h.tended hids
  exact htended.tree

set_option maxRecDepth 100000 in
/-- The small chain when its second block comes before the first one. -/
theorem forkTree_late : ((smallGenesis.pushed .transparent 100 (smallFirst.blockOn 2 30 [])).pushed
    .transparent 100 (smallGenesis.blockOn 1 20 [])).ForkTree :=
  Reachable.forkTree idealIds_transparent ((reachable_smallGenesis.pushed (by decide +kernel)
    (by decide +kernel)).pushed (by decide +kernel) (by decide +kernel))

/-- **The chain is valid**: an included block and everything below it, down to genesis, is linked
and marked valid in every state of a run. -/
theorem Reachable.included_valid (hids : crypto.IdealIds) (h : Reachable crypto config db)
    {id a : BlockId} (hid : db.isIncludedBlock id = true) (hpath : db.Descends a id)
    (ha : a ≠ 0) :
    ∃ r, db.forkDb[a]? = some r ∧ r.isLinked = true ∧ r.isValid = some true := by
  obtain ⟨_, _, links, htended⟩ := h.tended hids
  have hmem : a ∈ links.map Link.id := by
    rcases htended.included id hid with rfl | hmem
    · rcases hpath.cases_tail with heq | ⟨parent, -, b, hb, -⟩
      · exact absurd heq.symm ha
      · exact absurd (htended.data 0 b hb).1 (hids.ne_zero _)
    · exact (htended.below hids hpath hmem).resolve_left ha
  obtain ⟨r, hr, hvalid⟩ := htended.valid a hmem
  exact ⟨r, hr, (htended.tree.linked a r hr).2 (htended.rooted hids hmem), hvalid⟩

set_option maxRecDepth 100000 in
/-- The head of the small chain after one block. -/
theorem included_valid_smallFirst : ∃ r, smallFirst.forkDb[smallFirst.headBlockId]? = some r ∧
    r.isLinked = true ∧ r.isValid = some true := by
  have hincluded : smallFirst.isIncludedBlock smallFirst.headBlockId = true := by decide +kernel
  exact Reachable.included_valid idealIds_transparent
    (reachable_smallGenesis.pushed (by decide +kernel) (by decide +kernel)) hincluded .refl
    (by decide +kernel)

/-- **A block that fails** to extend the chain is marked invalid with everything that stands on
top of it, for the reason it failed for, and no other block is; the head and the ledger stay. -/
theorem Reachable.extendChain_invalid (hids : crypto.IdealIds) (h : Reachable crypto config db)
    {id : BlockId} (hstored : db.blockIdToBlockDataDb[id]? = some b) {e : Error}
    (hrun : (extendChain crypto wall b).run db = .error e db') (he : e ≠ .hang) :
    (∀ a, db.Descends id a → db'.forkDb[a]? = (db.forkDb[a]?).map fun r =>
      { r with isValid := some false, invalidReason := some e }) ∧
    (∀ a, ¬db.Descends id a → db'.forkDb[a]? = db.forkDb[a]?) ∧
    db'.headBlockId = db.headBlockId ∧ db'.ledger = db.ledger := by
  obtain ⟨_, _, links, htended⟩ := h.tended hids
  obtain ⟨hid, -, -, -, hfork⟩ := htended.data id b hstored
  obtain ⟨db₁, hfails, hmarks⟩ :=
    ((extendChain_marks htended.tree (hid ▸ hfork)).of_error hrun).resolve_left he
  obtain ⟨hhead, -⟩ := htended.toTracks.extendThrew hids hstored hfails
  obtain ⟨hforks, -, -⟩ := markInvalid_fails hfails
  rw [hid] at hmarks
  refine ⟨fun a ha => hforks ▸ hmarks.marks.marked a ha,
    fun a ha => hforks ▸ hmarks.marks.other a ha, ?_, ?_⟩
  · rw [hmarks.rest]
    exact hhead.id
  · rw [hmarks.rest]
    exact hhead.ledger

/-- The small chain with a second block that is not on a slot. -/
def smallOffSlot : Database :=
  smallFirst.pushed .transparent 100 (smallFirst.blockOn 2 25 [])

set_option maxRecDepth 100000 in
/-- The block that is not on a slot fails, and is marked. -/
theorem extendChain_invalid_smallOffSlot : ∃ (e : Error) (db' : Database),
    (extendChain .transparent 100 (smallFirst.blockOn 2 25 [])).run smallOffSlot = .error e db' ∧
    ∀ a, smallOffSlot.Descends
        (Crypto.transparent.blockId (smallFirst.blockOn 2 25 []).toSignedBlockHeader) a →
      db'.forkDb[a]? = (smallOffSlot.forkDb[a]?).map fun r =>
        { r with isValid := some false, invalidReason := some e } := by
  have hfails : (match (extendChain .transparent 100 (smallFirst.blockOn 2 25 [])).run
      smallOffSlot with
    | .ok _ _ => false
    | .error e _ => decide (e ≠ .hang)) = true := by decide +kernel
  cases hrun : (extendChain .transparent 100 (smallFirst.blockOn 2 25 [])).run smallOffSlot with
  | ok _ _ =>
    rw [hrun] at hfails
    cases hfails
  | error e db' =>
    rw [hrun] at hfails
    have hreachable : Reachable .transparent smallConfig smallOffSlot :=
      (reachable_smallGenesis.pushed (by decide +kernel) (by decide +kernel)).pushed
        (by decide +kernel) (by decide +kernel)
    exact ⟨e, db', rfl, (Reachable.extendChain_invalid idealIds_transparent hreachable
      (by decide +kernel) hrun (of_decide_eq_true hfails)).1⟩

end Database

end LarkX
