import LarkX.Chain.Genesis
import LarkX.ForMathlib.Outcome

/-!
# The steps of the chain database

`pushBlock` is a composition of a few kinds of step: the tree of blocks and its flags change,
the chain is extended by a stored block, or its head is popped; extending and popping may throw
half way. `Step` is one of them and `Steps` a sequence; every call of `pushBlock`, whether it
returns or throws, is such a sequence (`push_steps`). What every step preserves therefore holds
in every reachable state (`Reachable.invariant`), and a run whose steps meet a condition is a
`RunOf` that condition.
-/

namespace LarkX

namespace Action

variable {α : Type} {x : Fallible α} {db : Database} {Q : α → Database → Prop}
  {E : Error → Database → Prop}

/-- A lifted computation returns or throws in the same state. -/
theorem outcome_lift : Outcome (lift x) db Q E ↔
    (∀ a, x = .ok a → Q a db) ∧ ∀ e, x = .error e → E e db := by
  cases x with
  | ok a =>
    refine ⟨fun h => ⟨?_, ?_⟩, fun h => h.1 a rfl⟩
    · rintro _ ⟨⟩
      exact h
    · rintro _ ⟨⟩
  | error e =>
    refine ⟨fun h => ⟨?_, ?_⟩, fun h => h.2 e rfl⟩
    · rintro _ ⟨⟩
    · rintro _ ⟨⟩
      exact h

/-! ### What the tree procedures change -/

/-- Only the tree of blocks and its flags change: no block loses its fork data, or enters or
leaves the chain. -/
structure SameButForks (db db' : Database) : Prop where
  rest : db' = { db with forkDb := db'.forkDb }
  known : ∀ id : BlockId, db.forkDb[id]? ≠ none → db'.forkDb[id]? ≠ none
  included : ∀ id : BlockId, db'.isIncludedBlock id = db.isIncludedBlock id

theorem SameButForks.refl (db : Database) : SameButForks db db :=
  ⟨rfl, fun _ h => h, fun _ => rfl⟩

theorem SameButForks.trans {db₁ db₂ db₃ : Database} (h : SameButForks db₁ db₂)
    (h' : SameButForks db₂ db₃) : SameButForks db₁ db₃ :=
  ⟨by rw [h'.rest, h.rest], fun id hid => h'.known id (h.known id hid),
    fun id => (h'.included id).trans (h.included id)⟩

/-- Fork data that is written stays known. -/
theorem insert_known {t : Table BlockId BlockForkData} {id id' : BlockId} {r : BlockForkData}
    (h : t[id']? ≠ none) : (t.insert id r)[id']? ≠ none := by
  rw [Table.getElem?_insert]
  split
  · exact Option.some_ne_none r
  · exact h

theorem isIncludedBlock_of_fork {id : BlockId} {r : BlockForkData} (h : db.forkDb[id]? = some r) :
    db.isIncludedBlock id = r.isIncluded := by
  rw [Database.isIncludedBlock, h]

/-- What is included after fork data was written. -/
theorem isIncludedBlock_insert {db' : Database} {id : BlockId} {r : BlockForkData}
    (hforks : db'.forkDb = db.forkDb.insert id r) (id' : BlockId) :
    db'.isIncludedBlock id' = if id' = id then r.isIncluded else db.isIncludedBlock id' := by
  rw [Database.isIncludedBlock, hforks]
  by_cases hid : id' = id
  · rw [hid, Table.getElem?_insert_same, if_pos rfl]
  · rw [Table.getElem?_insert_of_ne _ _ hid, if_neg hid, Database.isIncludedBlock]

/-- Fork data is written that keeps its block where it is. -/
theorem sameButForks_insert {id : BlockId} {r : BlockForkData}
    (h : r.isIncluded = db.isIncludedBlock id) :
    SameButForks db { db with forkDb := db.forkDb.insert id r } := by
  refine ⟨rfl, fun _ hid => insert_known hid, fun id' => ?_⟩
  rw [isIncludedBlock_insert rfl]
  split
  · rename_i hid
    rw [h, hid]
  · rfl

instance : IsTrans Database SameButForks :=
  ⟨fun _ _ _ => SameButForks.trans⟩

/-- A procedure that changes only the tree and its flags. -/
abbrev OnForks (x : Action α) : Prop :=
  Follows SameButForks x

theorem onForks_pure (a : α) : OnForks (pure a : Action α) :=
  fun db => SameButForks.refl db

theorem onForks_lift (x : Fallible α) : OnForks (lift x) :=
  fun db => outcome_lift.2 ⟨fun _ _ => SameButForks.refl db, fun _ _ => SameButForks.refl db⟩

theorem onForks_get : OnForks (get : Action Database) :=
  fun db => SameButForks.refl db

theorem onForks_throw (e : Error) : OnForks (throw e : Action α) :=
  fun db => SameButForks.refl db

theorem onForks_fetchFork (id : BlockId) : OnForks (fetchFork id) :=
  onForks_get.bind fun _ => onForks_lift _

/-- Fork data that is read, changed without its flag and written back. -/
theorem onForks_update {f : BlockForkData → BlockForkData} {k : BlockForkData → Action α}
    (hf : ∀ r, (f r).isIncluded = r.isIncluded) (hk : ∀ r, OnForks (k r)) (id : BlockId) :
    OnForks (fetchFork id >>= fun r => storeFork id (f r) >>= fun _ => k r) := by
  intro db
  rw [fetchFork, bind_assoc, Outcome.bind_iff, Outcome.get_iff, Outcome.bind_iff, outcome_lift]
  refine ⟨fun r hr => ?_, fun _ _ => SameButForks.refl db⟩
  rw [Outcome.bind_iff, storeFork, Outcome.modify_iff]
  have hflag : (f r).isIncluded = db.isIncludedBlock id :=
    (hf r).trans (isIncludedBlock_of_fork (orThrow_eq_ok.1 hr)).symm
  exact (hk r).after (sameButForks_insert hflag)

theorem onForks_fetchBlockRecord (id : BlockId) : OnForks (fetchBlockRecord id) :=
  onForks_get.bind fun _ => onForks_lift _

theorem onForks_maxLevels : OnForks maxLevels :=
  onForks_get.bind fun _ => onForks_pure _

theorem onForks_foldlM {β : Type} {f : β → α → Action β} (hf : ∀ b a, OnForks (f b a))
    (l : List α) (b : β) : OnForks (l.foldlM f b) := by
  induction l generalizing b with
  | nil => exact onForks_pure b
  | cons a l ih =>
    rw [List.foldlM_cons]
    exact (hf b a).bind fun b' => ih b'

theorem onForks_markLinked (state : KeySet BlockId × LongestFork) (id : BlockId) :
    OnForks (markLinked state id) :=
  onForks_update (f := fun r => { r with isLinked := true }) (fun _ => rfl)
    (fun _ => (onForks_fetchBlockRecord id).bind fun _ => onForks_pure _) id

theorem onForks_recursiveMarkAsLinked (levels : ℕ) (nextIds : KeySet BlockId)
    (longest : LongestFork) : OnForks (recursiveMarkAsLinked levels nextIds longest) := by
  induction levels generalizing nextIds longest with
  | zero => exact onForks_throw _
  | succ levels ih =>
    unfold recursiveMarkAsLinked
    split
    · exact onForks_pure _
    · exact (onForks_foldlM onForks_markLinked _ _).bind fun _ => ih _ _

theorem onForks_markOneInvalid (reason : Error) (pending : KeySet BlockId) (id : BlockId) :
    OnForks (markOneInvalid reason pending id) :=
  onForks_update (f := fun r => { r with isValid := some false, invalidReason := some reason })
    (fun _ => rfl) (fun _ => onForks_pure _) id

theorem onForks_recursiveMarkAsInvalid (reason : Error) (levels : ℕ) (nextIds : KeySet BlockId) :
    OnForks (recursiveMarkAsInvalid reason levels nextIds) := by
  induction levels generalizing nextIds with
  | zero => exact onForks_throw _
  | succ levels ih =>
    unfold recursiveMarkAsInvalid
    split
    · exact onForks_pure _
    · exact (onForks_foldlM (onForks_markOneInvalid reason) _ _).bind fun _ => ih _

theorem onForks_markInvalid (blockId : BlockId) (reason : Error) :
    OnForks (markInvalid blockId reason) :=
  onForks_update (f := fun r => { r with isValid := some false, invalidReason := some reason })
    (fun _ => rfl) (fun _ => onForks_maxLevels.bind fun _ => onForks_recursiveMarkAsInvalid _ _ _)
    blockId

/-! ### Storing a block -/

variable {crypto : Crypto}

/-- A block is stored; the tree and its flags may change, and the header is kept once. -/
structure Stores (crypto : Crypto) (b : FullBlock) (db db' : Database) : Prop where
  rest : db' = { db with
    forkDb := db'.forkDb
    blockIdToBlockDataDb :=
      db.blockIdToBlockDataDb.insert (crypto.blockId b.toSignedBlockHeader) b
    blockIdToBlockRecordDb := db'.blockIdToBlockRecordDb }
  records : db'.blockIdToBlockRecordDb = db.blockIdToBlockRecordDb ∨
    (db.blockIdToBlockRecordDb[crypto.blockId b.toSignedBlockHeader]? = none ∧
      db'.blockIdToBlockRecordDb = db.blockIdToBlockRecordDb.insert
        (crypto.blockId b.toSignedBlockHeader) b.toSignedBlockHeader)
  known : ∀ id : BlockId, db.forkDb[id]? ≠ none → db'.forkDb[id]? ≠ none
  included : ∀ id : BlockId, db'.isIncludedBlock id = db.isIncludedBlock id

theorem Stores.trans {b : FullBlock} {db₁ db₂ db₃ : Database} (h : Stores crypto b db₁ db₂)
    (h' : SameButForks db₂ db₃) : Stores crypto b db₁ db₃ := by
  have hrecords : db₃.blockIdToBlockRecordDb = db₂.blockIdToBlockRecordDb := by rw [h'.rest]
  refine ⟨?_, hrecords ▸ h.records, fun id hid => h'.known id (h.known id hid),
    fun id => (h'.included id).trans (h.included id)⟩
  rw [hrecords]
  conv_lhs => rw [h'.rest, h.rest]

/-- The random seed can be read, which is done for the record of a new block. -/
def SeedReadable (db : Database) : Prop :=
  ∃ seed, db.ledger.properties[ChainProperty.lastRandomSeedId]? = some (.hash seed)

/-- A block is stored and, when the seed can be read, it has a header and fork data. -/
structure Indexes (crypto : Crypto) (b : FullBlock) (db db' : Database) : Prop extends
    Stores crypto b db db' where
  indexed : SeedReadable db →
    db'.blockIdToBlockRecordDb[crypto.blockId b.toSignedBlockHeader]? ≠ none ∧
      db'.forkDb[crypto.blockId b.toSignedBlockHeader]? ≠ none

theorem onForks_indexBlock (blockId : BlockId) (prev : BlockForkData) :
    OnForks (indexBlock blockId prev) := by
  intro db
  rw [indexBlock, Outcome.bind_iff, Outcome.get_iff]
  cases hfork : db.forkDb[blockId]? with
  | none =>
    dsimp only
    rw [Outcome.bind_iff, storeFork, Outcome.modify_iff, Outcome.pure_iff]
    refine sameButForks_insert ?_
    rw [Database.isIncludedBlock, hfork]
  | some currentFork =>
    have hflag := isIncludedBlock_of_fork hfork
    dsimp only
    split
    · have hmark : OnForks (do recursiveMarkAsLinked (← maxLevels) currentFork.nextBlocks {}) :=
        onForks_maxLevels.bind fun _ => onForks_recursiveMarkAsLinked _ _ _
      rw [← bind_assoc, Outcome.bind_iff]
      refine (hmark db).mono (fun longest db₁ h₁ => ?_) fun _ _ h => h
      rw [Outcome.bind_iff, storeFork, Outcome.modify_iff, Outcome.pure_iff]
      -- the marking left the flag of the block as it was read
      exact h₁.trans (sameButForks_insert (hflag.symm.trans (h₁.included blockId).symm))
    · rw [Outcome.bind_iff, storeFork, Outcome.modify_iff, Outcome.pure_iff]
      exact sameButForks_insert hflag.symm

/-- However its indexing ends, the block has fork data. -/
theorem indexBlock_indexed (blockId : BlockId) (prev : BlockForkData) (db : Database) :
    Outcome (indexBlock blockId prev) db (fun _ db' => db'.forkDb[blockId]? ≠ none)
      (fun _ db' => db'.forkDb[blockId]? ≠ none) := by
  cases hfork : db.forkDb[blockId]? with
  | some currentFork =>
    have hsome : db.forkDb[blockId]? ≠ none := by rw [hfork]; exact Option.some_ne_none _
    exact (onForks_indexBlock blockId prev db).mono (fun _ _ h => h.known _ hsome)
      fun _ _ h => h.known _ hsome
  | none =>
    rw [indexBlock, Outcome.bind_iff, Outcome.get_iff, hfork]
    dsimp only
    rw [Outcome.bind_iff, storeFork, Outcome.modify_iff, Outcome.pure_iff,
      Table.getElem?_insert_same]
    exact Option.some_ne_none _

theorem storeBlock_stores (wall : ℕ) (b : FullBlock) (db : Database) :
    Outcome (storeBlock wall (crypto.blockId b.toSignedBlockHeader) b) db
      (fun _ db' => Stores crypto b db db' ∧
        db'.blockIdToBlockRecordDb[crypto.blockId b.toSignedBlockHeader]? ≠ none)
      (fun _ db' => Stores crypto b db db' ∧ ¬SeedReadable db) := by
  simp only [storeBlock, Outcome.bind_iff, Outcome.modify_iff, Outcome.get_iff]
  split
  · rename_i hnone
    rw [Option.isNone_iff_eq_none] at hnone
    rw [Outcome.bind_iff, outcome_lift]
    refine ⟨fun _ _ => ?_, fun e he => ⟨⟨rfl, Or.inl rfl, fun _ h => h, fun _ => rfl⟩, ?_⟩⟩
    · rw [Outcome.modify_iff, Table.getElem?_insert_same]
      exact ⟨⟨rfl, Or.inr ⟨hnone, rfl⟩, fun _ h => h, fun _ => rfl⟩, Option.some_ne_none _⟩
    · rintro ⟨seed, hseed⟩
      have hread : (db.chain wall).getProperty .lastRandomSeedId = .ok (.hash seed) :=
        orThrow_eq_ok.2 hseed
      have hok : (db.chain wall).getCurrentRandomSeed = .ok seed := by
        rw [ChainInterface.getCurrentRandomSeed]
        exact bind_eq_ok.2 ⟨_, hread, rfl⟩
      have hthrew : Except.ok seed = Except.error e := hok.symm.trans he
      cases hthrew
  · rename_i hsome
    rw [Option.isNone_iff_eq_none] at hsome
    exact ⟨⟨rfl, Or.inl rfl, fun _ h => h, fun _ => rfl⟩, hsome⟩

/-- The fork data of the parent keeps its flag; a placeholder is not included. -/
theorem prevForkData_isIncluded (db : Database) (blockId : BlockId) (b : FullBlock) :
    (prevForkData db blockId b).isIncluded = db.isIncludedBlock b.previous := by
  unfold prevForkData Database.isIncludedBlock
  cases db.forkDb[b.previous]? with
  | none => rfl
  | some prev => rfl

theorem storeAndIndex_indexes (wall : ℕ) (b : FullBlock) (db : Database) :
    Outcome (storeAndIndex wall (crypto.blockId b.toSignedBlockHeader) b) db
      (fun _ => Indexes crypto b db) (fun _ => Indexes crypto b db) := by
  refine Outcome.bind_iff.2 ((storeBlock_stores wall b db).mono (fun _ db₁ h => ?_)
    fun _ _ h => ⟨h.1, fun hseed => absurd hseed h.2⟩)
  rw [Outcome.bind_iff, Outcome.get_iff, Outcome.bind_iff, storeFork, Outcome.modify_iff]
  have hstores := h.1.trans (sameButForks_insert
    (prevForkData_isIncluded db₁ (crypto.blockId b.toSignedBlockHeader) b))
  have hrecord : ∀ {db₂}, SameButForks { db₁ with
      forkDb := db₁.forkDb.insert b.previous
        (prevForkData db₁ (crypto.blockId b.toSignedBlockHeader) b) } db₂ →
      db₂.blockIdToBlockRecordDb[crypto.blockId b.toSignedBlockHeader]? ≠ none := by
    intro db₂ h₂
    rw [h₂.rest]
    exact h.2
  refine Outcome.intro (fun _ db₂ hrun => ?_) fun _ db₂ hrun => ?_
  · have hsame := (onForks_indexBlock _ _ _).of_ok hrun
    exact ⟨hstores.trans hsame, fun _ => ⟨hrecord hsame, (indexBlock_indexed _ _ _).of_ok hrun⟩⟩
  · have hsame := (onForks_indexBlock _ _ _).of_error hrun
    exact ⟨hstores.trans hsame,
      fun _ => ⟨hrecord hsame, (indexBlock_indexed _ _ _).of_error hrun⟩⟩

/-! ### Steps -/

/-- The kinds of step, with what a condition on a step may speak about. -/
inductive Event
  | tree
  | extend (wall : ℕ) (b : FullBlock)
  | pop

/-- One step in a call of `pushBlock` with the block `b` and the local clock at `wall`. -/
inductive Step (crypto : Crypto) (wall : ℕ) (b : FullBlock) (db : Database) :
    Event → Database → Prop
  | stored {db' : Database} (h : Indexes crypto b db db') : Step crypto wall b db .tree db'
  | marked {db' : Database} (h : SameButForks db db') : Step crypto wall b db .tree db'
  /-- The chain is extended by a stored block. -/
  | extended {db' : Database} {id : BlockId} {next : FullBlock}
      (hstored : db.blockIdToBlockDataDb[id]? = some next)
      (h : (extendChain crypto wall next).run db = .ok () db') :
      Step crypto wall b db (.extend wall next) db'
  | extendThrew {db' : Database} {id : BlockId} {next : FullBlock} {e : Error}
      (hstored : db.blockIdToBlockDataDb[id]? = some next)
      (h : (extendChain crypto wall next).run db = .error e db') :
      Step crypto wall b db (.extend wall next) db'
  | popped {db' : Database} (h : (popBlock crypto wall).run db = .ok () db') :
      Step crypto wall b db .pop db'
  | popThrew {db' : Database} {e : Error} (h : (popBlock crypto wall).run db = .error e db') :
      Step crypto wall b db .pop db'

/-- Steps that each meet a condition on the state before and the kind of the step. -/
abbrev Steps (crypto : Crypto) (K : Database → Event → Prop) (wall : ℕ) (b : FullBlock) :
    Database → Database → Prop :=
  Relation.ReflTransGen fun db db' => ∃ ev, Step crypto wall b db ev db' ∧ K db ev

/-- Steps without a condition. -/
abbrev AnySteps (crypto : Crypto) (wall : ℕ) (b : FullBlock) : Database → Database → Prop :=
  Steps crypto (fun _ _ => True) wall b

variable {wall : ℕ} {b : FullBlock}

theorem Step.steps {db db' : Database} {ev : Event} (h : Step crypto wall b db ev db') :
    AnySteps crypto wall b db db' :=
  .single ⟨ev, h, trivial⟩

theorem OnForks.steps {x : Action α} (h : OnForks x) : Follows (AnySteps crypto wall b) x :=
  h.mono fun _ _ h => (Step.marked h).steps

theorem steps_extendChain {db : Database} {id : BlockId} {next : FullBlock}
    (hstored : db.blockIdToBlockDataDb[id]? = some next) :
    Outcome (extendChain crypto wall next) db (fun _ => AnySteps crypto wall b db)
      (fun _ => AnySteps crypto wall b db) :=
  .intro (fun _ _ h => (Step.extended hstored h).steps)
    fun _ _ h => (Step.extendThrew hstored h).steps

theorem steps_popBlock : Follows (AnySteps crypto wall b) (popBlock crypto wall) :=
  fun _ => .intro (fun _ _ h => (Step.popped h).steps) fun _ _ h => (Step.popThrew h).steps

theorem onForks_getBlockHeader (id : BlockId) : OnForks (getBlockHeader id) :=
  onForks_get.bind fun _ => onForks_lift _

theorem onForks_forkAncestors (steps : ℕ) (id : BlockId) : OnForks (forkAncestors steps id) := by
  induction steps generalizing id with
  | zero => exact onForks_throw _
  | succ steps ih =>
    refine (onForks_getBlockHeader id).bind fun header => ?_
    split
    · exact onForks_pure _
    · refine (onForks_fetchFork _).bind fun prev => (onForks_lift _).bind fun _ => ?_
      split
      · exact onForks_pure _
      · exact (ih _).bind fun _ => onForks_pure _

theorem onForks_getForkHistory (id : BlockId) : OnForks (getForkHistory id) :=
  onForks_maxLevels.bind fun _ => (onForks_forkAncestors _ _).bind fun _ => onForks_pure _

theorem steps_popUntil (target : BlockId) (steps : ℕ) :
    Follows (AnySteps crypto wall b) (popUntil crypto wall target steps) := by
  induction steps with
  | zero => exact (onForks_throw _).steps
  | succ steps ih =>
    refine onForks_get.steps.bind fun db => ?_
    split
    · exact (onForks_pure _).steps
    · exact steps_popBlock.bind fun _ => ih

theorem steps_extendBy (ids : List BlockId) :
    Follows (AnySteps crypto wall b) (extendBy crypto wall ids) := by
  refine fun db => Outcome.forM (I := AnySteps crypto wall b db) (fun id db₁ _ h₁ => ?_) .refl
  rw [getBlock, Outcome.bind_iff, Outcome.bind_iff, Outcome.get_iff, outcome_lift]
  refine ⟨fun next hnext => ?_, fun _ _ => h₁⟩
  rw [orThrow_eq_ok] at hnext
  exact (steps_extendChain hnext).mono (fun _ _ h => h₁.trans h) fun _ _ h => h₁.trans h

theorem steps_switchToFork (blockId : BlockId) :
    Follows (AnySteps crypto wall b) (switchToFork crypto wall blockId) :=
  (onForks_getForkHistory blockId).steps.bind fun _ => onForks_maxLevels.steps.bind fun _ =>
    (steps_popUntil _ _).bind fun _ => steps_extendBy _

theorem onForks_getBlockForkData (blockId : BlockId) : OnForks (getBlockForkData blockId) :=
  onForks_get.bind fun _ => onForks_lift _

theorem steps_switchOrRevert (longestId currentHeadId blockId : BlockId)
    (newForkData : BlockForkData) : Follows (AnySteps crypto wall b)
      (switchOrRevert crypto wall longestId currentHeadId blockId newForkData) := by
  intro db
  rw [switchOrRevert, Outcome.tryCatch_iff]
  refine Outcome.mono (((steps_switchToFork _).bind fun _ =>
    (onForks_getBlockForkData _).steps) db) (fun _ _ h => h) fun e db₁ h => ?_
  split
  · exact h
  · rw [Outcome.bind_iff]
    exact (steps_switchToFork _ db₁).mono (fun _ _ h' => h.trans h') fun _ _ h' => h.trans h'

/-- **Every call of `pushBlock` is a sequence of steps**, however it ends. -/
theorem steps_pushBlock : Follows (AnySteps crypto wall b) (pushBlock crypto wall b) := by
  refine onForks_get.steps.bind fun db₀ => (onForks_lift _).steps.bind fun _ => fun db => ?_
  rw [Outcome.bind_iff]
  refine (storeAndIndex_indexes wall b db).mono (fun longest db₁ h₁ => ?_)
    fun _ _ h => (Step.stored h).steps
  have hsteps : AnySteps crypto wall b db db₁ := (Step.stored h₁).steps
  rw [Outcome.bind_iff]
  refine (onForks_getBlockForkData _ db₁).mono (fun newForkData db₂ h₂ => ?_)
    fun _ _ h => hsteps.trans (Step.marked h).steps
  have hsteps₂ : AnySteps crypto wall b db db₂ := hsteps.trans (Step.marked h₂).steps
  split
  · have hstored : db₂.blockIdToBlockDataDb[crypto.blockId b.toSignedBlockHeader]? = some b := by
      rw [h₂.rest, h₁.rest]
      exact Table.getElem?_insert_same ..
    rw [Outcome.bind_iff]
    refine (steps_extendChain hstored).mono (fun _ db₃ h₃ => ?_) fun _ _ h => hsteps₂.trans h
    exact ((onForks_getBlockForkData _).steps db₃).mono
      (fun _ _ h => hsteps₂.trans (h₃.trans h)) fun _ _ h => hsteps₂.trans (h₃.trans h)
  · refine Outcome.mono (Q := fun _ => AnySteps crypto wall b db₂)
      (E := fun _ => AnySteps crypto wall b db₂) ?_ (fun _ _ h => hsteps₂.trans h)
      fun _ _ h => hsteps₂.trans h
    split
    · refine Follows.bind (onForks_fetchBlockRecord _).steps (fun longest => ?_) db₂
      refine onForks_get.steps.bind fun _ => ?_
      split
      · exact steps_switchOrRevert _ _ _ _
      · exact (onForks_pure _).steps
    · exact (onForks_pure _).steps db₂

end Action

/-! ### Runs -/

namespace Database

open LarkX.Action

variable {crypto : Crypto} {config : GenesisBlockConfig}

theorem Push.steps {wall : ℕ} {b : FullBlock} {db db' : Database}
    (h : Push crypto wall b db db') : AnySteps crypto wall b db db' := by
  cases h with
  | returned r h => exact (steps_pushBlock db).of_ok h
  | threw e _ h => exact (steps_pushBlock db).of_error h

/-- A run that pushes only blocks in `P`, by steps that meet `K`. -/
inductive RunOf (crypto : Crypto) (config : GenesisBlockConfig) (P : FullBlock → Prop)
    (K : Database → Event → Prop) : Database → Prop
  | genesis {db : Database} (h : initializeGenesis crypto config = .ok db) :
      RunOf crypto config P K db
  | delegateLoop {db : Database} (hdb : RunOf crypto config P K db) :
      RunOf crypto config P K db.verifySignatures
  | push {db db' : Database} (wall : ℕ) (b : FullBlock) (hdb : RunOf crypto config P K db)
      (hb : b.InRange) (hP : P b) (h : Push crypto wall b db db')
      (hsteps : Steps crypto K wall b db db') : RunOf crypto config P K db'

variable {P : FullBlock → Prop} {K : Database → Event → Prop} {db : Database}

theorem Reachable.runOf (h : Reachable crypto config db) :
    RunOf crypto config (fun _ => True) (fun _ _ => True) db := by
  induction h with
  | genesis h => exact .genesis h
  | delegateLoop _ ih => exact .delegateLoop ih
  | push wall b _ hb h ih => exact .push wall b ih hb trivial h h.steps

theorem RunOf.reachable (h : RunOf crypto config P K db) : Reachable crypto config db := by
  induction h with
  | genesis h => exact .genesis h
  | delegateLoop _ ih => exact .delegateLoop ih
  | push wall b _ hb _ h _ ih => exact .push wall b ih hb h

/-- **Invariant rule.** What holds of the genesis state and is kept by every step holds in
every state of a run. -/
theorem RunOf.invariant {I : Database → Prop}
    (genesis : ∀ db, initializeGenesis crypto config = .ok db → I db)
    (verify : ∀ db, I db → I db.verifySignatures)
    (step : ∀ wall b ev db db', b.InRange → P b → I db → Step crypto wall b db ev db' →
      K db ev → I db') (h : RunOf crypto config P K db) : I db := by
  induction h with
  | genesis h => exact genesis _ h
  | delegateLoop _ ih => exact verify _ ih
  | push wall b _ hb hP h hsteps ih =>
    clear h
    induction hsteps with
    | refl => exact ih
    | tail _ hstep ih =>
      obtain ⟨ev, hstep, hK⟩ := hstep
      exact step wall b ev _ _ hb hP ih hstep hK

section Strengthen

variable {I : Database → Prop} {K' : Database → Event → Prop}

/-- What an invariant says of a step may be added to the condition on the steps. -/
theorem Steps.strengthen {wall : ℕ} {b : FullBlock} {db' : Database}
    (step : ∀ ev db db', I db → Step crypto wall b db ev db' → K' db ev ∧ I db') (hdb : I db)
    (h : Steps crypto K wall b db db') :
    Steps crypto (fun db ev => K db ev ∧ K' db ev) wall b db db' ∧ I db' := by
  induction h with
  | refl => exact ⟨.refl, hdb⟩
  | tail _ hstep ih =>
    obtain ⟨ev, hstep, hK⟩ := hstep
    obtain ⟨hK', hI⟩ := step ev _ _ ih.2 hstep
    exact ⟨ih.1.tail ⟨ev, hstep, hK, hK'⟩, hI⟩

theorem RunOf.strengthen (genesis : ∀ db, initializeGenesis crypto config = .ok db → I db)
    (verify : ∀ db, I db → I db.verifySignatures)
    (step : ∀ wall b ev db db', P b → I db → Step crypto wall b db ev db' → K' db ev ∧ I db')
    (h : RunOf crypto config P K db) :
    RunOf crypto config P (fun db ev => K db ev ∧ K' db ev) db ∧ I db := by
  induction h with
  | genesis h => exact ⟨.genesis h, genesis _ h⟩
  | delegateLoop _ ih => exact ⟨.delegateLoop ih.1, verify _ ih.2⟩
  | push wall b _ hb hP h hsteps ih =>
    obtain ⟨hsteps', hI⟩ := Steps.strengthen (fun ev db db' => step wall b ev db db' hP) ih.2 hsteps
    exact ⟨.push wall b ih.1 hb hP h hsteps', hI⟩

/-- Steps that meet a condition meet a weaker one. -/
theorem RunOf.mono (hK : ∀ db ev, K db ev → K' db ev) (h : RunOf crypto config P K db) :
    RunOf crypto config P K' db := by
  induction h with
  | genesis h => exact .genesis h
  | delegateLoop _ ih => exact .delegateLoop ih
  | push wall b _ hb hP h hsteps ih =>
    exact .push wall b ih hb hP h
      (Relation.ReflTransGen.mono (fun db _ ⟨ev, hstep, h⟩ => ⟨ev, hstep, hK db ev h⟩) _ _ hsteps)

end Strengthen

end Database

end LarkX
