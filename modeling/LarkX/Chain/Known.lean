import LarkX.Chain.Extend
import LarkX.Client.Delegate

/-!
# Which blocks are known

The flag `is_known` of a block is set when the block is stored for the first time, before
anything of it is checked, and no procedure of the chain database touches that of another block:
`pushBlock_learns`.
-/

namespace LarkX

namespace Database

/-- The only block that may have become known is `new`. -/
def Learns (new : BlockId) (db db' : Database) : Prop :=
  ∀ id : BlockId, db'.isKnownBlock id = true → db.isKnownBlock id = true ∨ id = new

variable {new : BlockId} {db db' : Database}

theorem Learns.refl (new : BlockId) (db : Database) : Learns new db db :=
  fun _ h => Or.inl h

theorem Learns.trans {db₁ db₂ db₃ : Database} (h : Learns new db₁ db₂)
    (h' : Learns new db₂ db₃) : Learns new db₁ db₃ := by
  intro id hid
  rcases h' id hid with hid | hnew
  · exact h id hid
  · exact Or.inr hnew

instance : IsTrans Database (Learns new) :=
  ⟨fun _ _ _ => Learns.trans⟩

theorem learns_of_forkDb (h : db'.forkDb = db.forkDb) : Learns new db db' := by
  intro id hid
  rw [isKnownBlock, h] at hid
  exact Or.inl hid

theorem isKnownBlock_of_fork {id : BlockId} {r : BlockForkData} (h : db.forkDb[id]? = some r) :
    db.isKnownBlock id = r.isKnown := by
  rw [isKnownBlock, h]

/-- Fork data is written whose flag is the old one, or that of the new block. -/
theorem learns_insert {id : BlockId} {r : BlockForkData}
    (hforks : db'.forkDb = db.forkDb.insert id r)
    (h : r.isKnown = true → db.isKnownBlock id = true ∨ id = new) : Learns new db db' := by
  intro id' hid'
  by_cases heq : id' = id
  · have hget : db'.forkDb[id']? = some r := by
      rw [hforks, heq, Table.getElem?_insert_same]
    rw [isKnownBlock_of_fork hget] at hid'
    rw [heq]
    exact h hid'
  · rw [isKnownBlock, hforks, Table.getElem?_insert_of_ne _ _ heq] at hid'
    exact Or.inl hid'

end Database

namespace Action

open Database

variable {α β : Type} {new : BlockId} {crypto : Crypto} {wall : ℕ}

/-- A procedure that makes no block known but `new`. -/
abbrev OnKnown (new : BlockId) (x : Action α) : Prop :=
  Follows (Learns new) x

theorem onKnown_pure (a : α) : OnKnown new (pure a : Action α) :=
  fun db => Learns.refl new db

theorem onKnown_get : OnKnown new (get : Action Database) :=
  fun db => Learns.refl new db

theorem onKnown_throw (e : Error) : OnKnown new (throw e : Action α) :=
  fun db => Learns.refl new db

theorem onKnown_lift (x : Fallible α) : OnKnown new (lift x) :=
  fun db => outcome_lift.2 ⟨fun _ _ => Learns.refl new db, fun _ _ => Learns.refl new db⟩

theorem onKnown_modify {f : Database → Database} (h : ∀ db, (f db).forkDb = db.forkDb) :
    OnKnown new (modify f : Action Unit) :=
  fun db => learns_of_forkDb (h db)

theorem onKnown_foldlM {f : β → α → Action β} (hf : ∀ b a, OnKnown new (f b a)) (l : List α)
    (b : β) : OnKnown new (l.foldlM f b) := by
  induction l generalizing b with
  | nil => exact onKnown_pure b
  | cons a l ih =>
    rw [List.foldlM_cons]
    exact (hf b a).bind fun b' => ih b'

/-- Fork data that is read, changed without its flag and written back. -/
theorem onKnown_update {f : BlockForkData → BlockForkData} {k : BlockForkData → Action α}
    (hf : ∀ r, (f r).isKnown = r.isKnown) (hk : ∀ r, OnKnown new (k r)) (id : BlockId) :
    OnKnown new (fetchFork id >>= fun r => storeFork id (f r) >>= fun _ => k r) := by
  intro db
  rw [fetchFork, bind_assoc, Outcome.bind_iff, Outcome.get_iff]
  refine outcome_fetch (fun r hr => ?_) fun _ => Learns.refl new db
  rw [Outcome.bind_iff, storeFork, Outcome.modify_iff]
  have hlearns : Learns new db { db with forkDb := db.forkDb.insert id (f r) } := by
    refine learns_insert rfl fun hknown => Or.inl ?_
    rwa [isKnownBlock_of_fork hr, ← hf r]
  exact (hk r _).mono (fun _ _ h => hlearns.trans h) fun _ _ h => hlearns.trans h

theorem onKnown_fetchBlockRecord (id : BlockId) : OnKnown new (fetchBlockRecord id) :=
  onKnown_get.bind fun _ => onKnown_lift _

theorem onKnown_getBlockHeader (id : BlockId) : OnKnown new (getBlockHeader id) :=
  onKnown_get.bind fun _ => onKnown_lift _

theorem onKnown_fetchFork (id : BlockId) : OnKnown new (fetchFork id) :=
  onKnown_get.bind fun _ => onKnown_lift _

theorem onKnown_getBlockForkData (id : BlockId) : OnKnown new (getBlockForkData id) :=
  onKnown_get.bind fun _ => onKnown_lift _

theorem onKnown_maxLevels : OnKnown new maxLevels :=
  onKnown_get.bind fun _ => onKnown_pure _

/-! ### Marking -/

theorem onKnown_markLinked (state : KeySet BlockId × LongestFork) (id : BlockId) :
    OnKnown new (markLinked state id) :=
  onKnown_update (f := fun r => { r with isLinked := true }) (fun _ => rfl)
    (fun _ => (onKnown_fetchBlockRecord id).bind fun _ => onKnown_pure _) id

theorem onKnown_recursiveMarkAsLinked (levels : ℕ) (nextIds : KeySet BlockId)
    (longest : LongestFork) : OnKnown new (recursiveMarkAsLinked levels nextIds longest) := by
  induction levels generalizing nextIds longest with
  | zero => exact onKnown_throw _
  | succ levels ih =>
    unfold recursiveMarkAsLinked
    split
    · exact onKnown_pure _
    · exact (onKnown_foldlM onKnown_markLinked _ _).bind fun _ => ih _ _

theorem onKnown_markOneInvalid (reason : Error) (pending : KeySet BlockId) (id : BlockId) :
    OnKnown new (markOneInvalid reason pending id) :=
  onKnown_update (f := fun r => { r with isValid := some false, invalidReason := some reason })
    (fun _ => rfl) (fun _ => onKnown_pure _) id

theorem onKnown_recursiveMarkAsInvalid (reason : Error) (levels : ℕ) (nextIds : KeySet BlockId) :
    OnKnown new (recursiveMarkAsInvalid reason levels nextIds) := by
  induction levels generalizing nextIds with
  | zero => exact onKnown_throw _
  | succ levels ih =>
    unfold recursiveMarkAsInvalid
    split
    · exact onKnown_pure _
    · exact (onKnown_foldlM (onKnown_markOneInvalid reason) _ _).bind fun _ => ih _

theorem onKnown_markInvalid (blockId : BlockId) (reason : Error) :
    OnKnown new (markInvalid blockId reason) :=
  onKnown_update (f := fun r => { r with isValid := some false, invalidReason := some reason })
    (fun _ => rfl) (fun _ => onKnown_maxLevels.bind fun _ => onKnown_recursiveMarkAsInvalid _ _ _)
    blockId

/-! ### Storing a block -/

theorem onKnown_storeBlock (blockId : BlockId) (b : FullBlock) :
    OnKnown new (storeBlock wall blockId b) := by
  refine (onKnown_modify (by exact fun _ => rfl)).bind fun _ => onKnown_get.bind fun db => ?_
  split
  · exact (onKnown_lift _).bind fun _ => onKnown_modify fun _ => rfl
  · exact onKnown_pure _

/-- The fork data of the parent keeps its flag; a placeholder has none. -/
theorem prevForkData_isKnown (db : Database) (blockId : BlockId) (b : FullBlock) :
    (prevForkData db blockId b).isKnown = db.isKnownBlock b.previous := by
  unfold prevForkData isKnownBlock
  cases db.forkDb[b.previous]? with
  | none => rfl
  | some prev => rfl

theorem onKnown_indexBlock (prev : BlockForkData) : OnKnown new (indexBlock new prev) := by
  have hown : ∀ r, OnKnown new (storeFork new r) :=
    fun r db => learns_insert rfl fun _ => Or.inr rfl
  refine onKnown_get.bind fun db => ?_
  cases db.forkDb[new]? with
  | none => exact (hown _).bind fun _ => onKnown_pure _
  | some currentFork =>
    dsimp only
    split
    · exact onKnown_maxLevels.bind fun _ => (onKnown_recursiveMarkAsLinked _ _ _).bind fun _ =>
        (hown _).bind fun _ => onKnown_pure _
    · exact (hown _).bind fun _ => onKnown_pure _

theorem onKnown_storeAndIndex (b : FullBlock) : OnKnown new (storeAndIndex wall new b) := by
  refine (onKnown_storeBlock new b).bind fun _ db => ?_
  rw [Outcome.bind_iff, Outcome.get_iff, Outcome.bind_iff, storeFork, Outcome.modify_iff]
  have hprev : Learns new db { db with
      forkDb := db.forkDb.insert b.previous (prevForkData db new b) } := by
    refine learns_insert rfl fun hknown => Or.inl ?_
    rwa [← prevForkData_isKnown db new b]
  exact (onKnown_indexBlock _ _).mono (fun _ _ h => hprev.trans h) fun _ _ h => hprev.trans h

/-! ### Extending and popping -/

theorem onKnown_extendChain (b : FullBlock) : OnKnown new (extendChain crypto wall b) := by
  have hpurge : OnKnown new (purgeExpired wall) := onKnown_modify fun _ => rfl
  have hsave : ∀ id o, OnKnown new (saveUndoState crypto wall id o) := fun id o db =>
    outcome_saveUndoState (fun _ _ _ _ => learns_of_forkDb rfl) (fun _ _ => Learns.refl new db)
      fun _ _ _ _ => learns_of_forkDb rfl
  have happly : ∀ o, OnKnown new (applyToLedger crypto wall o) := fun o db =>
    outcome_applyToLedger (fun _ _ => learns_of_forkDb rfl) fun _ _ => learns_of_forkDb rfl
  have hmark : ∀ id, OnKnown new (markIncluded id true) := fun id =>
    onKnown_update (f := fun r => { r with isIncluded := true, isValid := some true })
      (k := fun _ => pure ()) (fun _ => rfl) (fun _ => onKnown_pure _) id
  have hbody : ∀ id, OnKnown new (applyBlock crypto wall id b) := fun id =>
    onKnown_get.bind fun _ => (onKnown_lift _).bind fun _ => (hsave _ _).bind fun _ =>
      (happly _).bind fun _ => (hmark _).bind fun _ => onKnown_modify fun _ => rfl
  intro db
  rw [extendChain, Outcome.bind_iff, Outcome.tryCatch_iff]
  refine (hbody _ db).mono (fun _ db₁ h => ?_) fun e db₁ h => ?_
  · exact (hpurge db₁).mono (fun _ _ h' => h.trans h') fun _ _ h' => h.trans h'
  · rw [Outcome.bind_iff]
    exact (onKnown_markInvalid _ _ db₁).mono (fun _ _ h' => h.trans h') fun _ _ h' => h.trans h'

theorem onKnown_popBlock : OnKnown new (popBlock crypto wall) := by
  have hmark : ∀ id, OnKnown new (markIncluded id false) := fun id =>
    onKnown_update (f := fun r => { r with isIncluded := false })
      (k := fun _ => pure ()) (fun _ => rfl) (fun _ => onKnown_pure _) id
  have happly : ∀ o, OnKnown new (applyToLedger crypto wall o) := fun o db =>
    outcome_applyToLedger (fun _ _ => learns_of_forkDb rfl) fun _ _ => learns_of_forkDb rfl
  refine onKnown_get.bind fun db => ?_
  split
  · exact onKnown_pure _
  · exact (hmark _).bind fun _ => (onKnown_modify (by exact fun _ => rfl)).bind fun _ =>
      (onKnown_lift _).bind fun _ => (happly _).bind fun _ =>
        (onKnown_modify (by exact fun _ => rfl)).bind fun _ => (onKnown_getBlockHeader _).bind fun _ =>
          onKnown_modify fun _ => rfl

/-! ### Forks -/

theorem onKnown_forkAncestors (steps : ℕ) (id : BlockId) :
    OnKnown new (forkAncestors steps id) := by
  induction steps generalizing id with
  | zero => exact onKnown_throw _
  | succ steps ih =>
    refine (onKnown_getBlockHeader id).bind fun header => ?_
    split
    · exact onKnown_pure _
    · refine (onKnown_fetchFork _).bind fun prev => (onKnown_lift _).bind fun _ => ?_
      split
      · exact onKnown_pure _
      · exact (ih _).bind fun _ => onKnown_pure _

theorem onKnown_popUntil (target : BlockId) (steps : ℕ) :
    OnKnown new (popUntil crypto wall target steps) := by
  induction steps with
  | zero => exact onKnown_throw _
  | succ steps ih =>
    refine onKnown_get.bind fun db => ?_
    split
    · exact onKnown_pure _
    · exact onKnown_popBlock.bind fun _ => ih

theorem onKnown_switchToFork (blockId : BlockId) :
    OnKnown new (switchToFork crypto wall blockId) := by
  have hhistory : OnKnown new (getForkHistory blockId) :=
    onKnown_maxLevels.bind fun _ => (onKnown_forkAncestors _ _).bind fun _ => onKnown_pure _
  have hextend : ∀ ids, OnKnown new (extendBy crypto wall ids) := by
    intro ids db
    refine Outcome.forM (I := Learns new db) (fun id db₁ _ h₁ => ?_) (Learns.refl new db)
    have hone : OnKnown new (getBlock id >>= extendChain crypto wall) :=
      (onKnown_get.bind fun _ => onKnown_lift _).bind fun b => onKnown_extendChain b
    exact (hone db₁).mono (fun _ _ h => h₁.trans h) fun _ _ h => h₁.trans h
  exact hhistory.bind fun _ => onKnown_maxLevels.bind fun _ => (onKnown_popUntil _ _).bind fun _ =>
    hextend _

theorem onKnown_switchOrRevert (longestId currentHeadId blockId : BlockId)
    (newForkData : BlockForkData) : OnKnown new
      (switchOrRevert crypto wall longestId currentHeadId blockId newForkData) := by
  intro db
  rw [switchOrRevert, Outcome.tryCatch_iff]
  refine Outcome.mono (((onKnown_switchToFork _).bind fun _ =>
    onKnown_getBlockForkData _) db) (fun _ _ h => h) fun e db₁ h => ?_
  split
  · exact h
  · rw [Outcome.bind_iff]
    exact (onKnown_switchToFork _ db₁).mono (fun _ _ h' => h.trans h') fun _ _ h' => h.trans h'

/-- **A call of `pushBlock` makes no other block known**, however it ends. -/
theorem pushBlock_learns (b : FullBlock) :
    OnKnown (crypto.blockId b.toSignedBlockHeader) (pushBlock crypto wall b) := by
  refine onKnown_get.bind fun db => (onKnown_lift _).bind fun _ =>
    (onKnown_storeAndIndex b).bind fun longest => (onKnown_getBlockForkData _).bind fun fork => ?_
  split
  · exact (onKnown_extendChain b).bind fun _ => onKnown_getBlockForkData _
  · split
    · refine (onKnown_fetchBlockRecord _).bind fun _ => onKnown_get.bind fun db => ?_
      split
      · exact onKnown_switchOrRevert _ _ _ _
      · exact onKnown_pure _
    · exact onKnown_pure _

end Action

end LarkX
