import LarkX.Chain.Steps

/-!
# What an extension and a pop do

`extendChain` and `popBlock` as one step each. `Extends` says what an extension that returns
has computed and what it leaves behind, and `ExtendFails` in which states it may throw
(`extendChain_outcome`); `Pops` and `PopFails` say the same of a pop (`popBlock_outcome`). What
`Extends` asks for is also enough for an extension to return (`extendChain_of_extends`).
-/

namespace LarkX

open ChainInterface

namespace Database

variable (crypto : Crypto) (wall : ℕ) (b : FullBlock) (db : Database)

/-- The database with `b` at its head, when its ledger has become `ledger`. -/
def advanced (ledger : Ledger) (fork : BlockForkData) (undoStateDb : Table BlockId Overlay) :
    Database :=
  { db with
    ledger
    forkDb := db.forkDb.insert (crypto.blockId b.toSignedBlockHeader)
      { fork with isIncluded := true, isValid := some true }
    undoStateDb
    headBlockHeader := b.toSignedBlockHeader
    headBlockId := crypto.blockId b.toSignedBlockHeader
    blockNumToIdDb := db.blockNumToIdDb.insert b.blockNum (crypto.blockId b.toSignedBlockHeader) }

/-- The database without the digests that expired before its head. -/
def purged : Database :=
  { db with ledger := { db.ledger with
    uniqueTransactions := db.ledger.uniqueTransactions.filter fun exp _ => db.now wall ≤ exp } }

/-- The number of the block whose undo state leaves the window, in 32 unsigned bits. -/
def undoAge : ℕ :=
  (db.headBlockNum + 2 ^ 32 - btsBlockchainMaxUndoHistory) % 2 ^ 32

/-- There is a block whose undo state leaves the window: its number is positive as a signed
value. -/
def LeavesWindow : Prop :=
  0 < db.undoAge ∧ db.undoAge < 2 ^ 31

instance : Decidable db.LeavesWindow :=
  inferInstanceAs (Decidable (_ ∧ _))

/-- The undo states after one was stored, and the one that leaves the window removed. -/
inductive KeepsUndo (id : BlockId) (undo : Overlay) : Table BlockId Overlay → Prop
  | all (h : ¬db.LeavesWindow) : KeepsUndo id undo (db.undoStateDb.insert id undo)
  | window {oldId : BlockId} (h : db.LeavesWindow)
      (hold : db.blockNumToIdDb[db.undoAge]? = some oldId) :
      KeepsUndo id undo ((db.undoStateDb.insert id undo).erase oldId)

/-- The pending state of the block `b` has been evaluated, and so has its undo state. -/
structure Evaluates (c : ChainInterface) (undo : Overlay) : Prop where
  evaluated : evaluateBlock crypto (db.chain wall) db.headBlockHeader db.headBlockId
    db.skipSignatureVerification wall b = .ok c
  undone : (db.chain wall).getUndoState crypto (c.overlays.headD {}) = .ok undo

/-- What an extension by `b` that returns has done: `c` is the pending state of the block,
`undo` its undo state and `c'` the database with its changes. -/
structure Extends (c : ChainInterface) (undo : Overlay) (c' : ChainInterface) (db' : Database) :
    Prop extends Evaluates crypto wall b db c undo where
  applied : applyOverlay crypto (c.overlays.headD {}) (db.chain wall) = .ok c'
  result : ∃ fork undoStateDb, db.forkDb[crypto.blockId b.toSignedBlockHeader]? = some fork ∧
    db.KeepsUndo (crypto.blockId b.toSignedBlockHeader) undo undoStateDb ∧
    db' = (db.advanced crypto b c'.db fork undoStateDb).purged wall

/-- The states in which an extension may throw, before the block is marked invalid. -/
inductive ExtendFails : Database → Prop
  /-- The block or its undo state does not evaluate. -/
  | unevaluated : ExtendFails db
  /-- The block that leaves the undo window is not indexed. -/
  | unindexed {c : ChainInterface} {undo : Overlay} (h : Evaluates crypto wall b db c undo)
      (hage : db.LeavesWindow) (hnone : db.blockNumToIdDb[db.undoAge]? = none) :
      ExtendFails { db with
        undoStateDb := db.undoStateDb.insert (crypto.blockId b.toSignedBlockHeader) undo }
  /-- The changes cannot be applied. -/
  | unapplied {c : ChainInterface} {undo : Overlay} {e : Error}
      {undoStateDb : Table BlockId Overlay} (h : Evaluates crypto wall b db c undo)
      (hkeeps : db.KeepsUndo (crypto.blockId b.toSignedBlockHeader) undo undoStateDb)
      (happly : applyOverlay crypto (c.overlays.headD {}) (db.chain wall) = .error e) :
      ExtendFails { db with
        undoStateDb
        ledger := (applyOverlayThrown crypto (c.overlays.headD {}) (db.chain wall)).db }
  /-- The block has no fork data. -/
  | unknown {c c' : ChainInterface} {undo : Overlay} {undoStateDb : Table BlockId Overlay}
      (h : Evaluates crypto wall b db c undo)
      (hkeeps : db.KeepsUndo (crypto.blockId b.toSignedBlockHeader) undo undoStateDb)
      (happly : applyOverlay crypto (c.overlays.headD {}) (db.chain wall) = .ok c')
      (hnone : db.forkDb[crypto.blockId b.toSignedBlockHeader]? = none) :
      ExtendFails { db with undoStateDb, ledger := c'.db }

/-- What a pop of the head does: its undo state is applied and its parent is the head. -/
structure Pops (undo : Overlay) (c' : ChainInterface) (header : SignedBlockHeader)
    (db' : Database) : Prop where
  stored : db.undoStateDb[db.headBlockId]? = some undo
  applied : applyOverlay crypto undo (db.chain wall) = .ok c'
  parent : db.blockIdToBlockRecordDb[db.headBlockHeader.previous]? = some header
  result : ∃ fork, db.forkDb[db.headBlockId]? = some fork ∧ db' = { db with
    ledger := c'.db
    forkDb := db.forkDb.insert db.headBlockId { fork with isIncluded := false }
    blockNumToIdDb := db.blockNumToIdDb.erase db.headBlockNum
    headBlockHeader := header
    headBlockId := db.headBlockHeader.previous }

/-- The states in which a pop may throw. -/
inductive PopFails : Database → Prop
  /-- The head has no fork data. -/
  | unknown (hnone : db.forkDb[db.headBlockId]? = none) : PopFails db
  /-- The head has no undo state. -/
  | noUndo {fork : BlockForkData} (hfork : db.forkDb[db.headBlockId]? = some fork)
      (hnone : db.undoStateDb[db.headBlockId]? = none) :
      PopFails { db with
        forkDb := db.forkDb.insert db.headBlockId { fork with isIncluded := false }
        blockNumToIdDb := db.blockNumToIdDb.erase db.headBlockNum }
  /-- The undo state cannot be applied. -/
  | unapplied {fork : BlockForkData} {undo : Overlay} {e : Error}
      (hfork : db.forkDb[db.headBlockId]? = some fork)
      (hundo : db.undoStateDb[db.headBlockId]? = some undo)
      (happly : applyOverlay crypto undo (db.chain wall) = .error e) :
      PopFails { db with
        ledger := (applyOverlayThrown crypto undo (db.chain wall)).db
        forkDb := db.forkDb.insert db.headBlockId { fork with isIncluded := false }
        blockNumToIdDb := db.blockNumToIdDb.erase db.headBlockNum }
  /-- The parent has no header, as is the case for the first block: the header of the popped
  block stays. -/
  | noHeader {fork : BlockForkData} {undo : Overlay} {c' : ChainInterface}
      (hfork : db.forkDb[db.headBlockId]? = some fork)
      (hundo : db.undoStateDb[db.headBlockId]? = some undo)
      (happly : applyOverlay crypto undo (db.chain wall) = .ok c')
      (hnone : db.blockIdToBlockRecordDb[db.headBlockHeader.previous]? = none) :
      PopFails { db with
        ledger := c'.db
        forkDb := db.forkDb.insert db.headBlockId { fork with isIncluded := false }
        blockNumToIdDb := db.blockNumToIdDb.erase db.headBlockNum
        headBlockId := db.headBlockHeader.previous }

end Database

namespace Database

/-- What stays of the undo states is determined. -/
theorem KeepsUndo.unique {db : Database} {id : BlockId} {undo : Overlay}
    {t t' : Table BlockId Overlay} (h : db.KeepsUndo id undo t) (h' : db.KeepsUndo id undo t') :
    t = t' := by
  cases h with
  | all hnot =>
    cases h' with
    | all => rfl
    | window hage => exact absurd hage hnot
  | window hage hold =>
    cases h' with
    | all hnot => exact absurd hage hnot
    | window _ hold' =>
      rw [hold] at hold'
      cases hold'
      rfl

end Database

namespace Action

open Database

variable {crypto : Crypto} {wall : ℕ} {b : FullBlock} {db : Database}

/-! ### The parts -/

section Parts

variable {Q : Unit → Database → Prop} {E : Error → Database → Prop}

/-- A table that is read, or the read throws. -/
theorem outcome_fetch {α β : Type} {o : Option α} {e : Error} {f : α → Action β}
    {Q : β → Database → Prop} (hsome : ∀ a, o = some a → Outcome (f a) db Q E)
    (hnone : o = none → E e db) : Outcome (lift (orThrow o e) >>= f) db Q E := by
  rw [Outcome.bind_iff, outcome_lift]
  refine ⟨fun a ha => hsome a (orThrow_eq_ok.1 ha), fun e' he' => ?_⟩
  cases o with
  | some a => cases he'
  | none =>
    cases he'
    exact hnone rfl

theorem outcome_markIncluded {id : BlockId} {included : Bool}
    (hsome : ∀ fork, db.forkDb[id]? = some fork → Q () { db with
      forkDb := db.forkDb.insert id { fork with
        isIncluded := included
        isValid := if included then some true else fork.isValid } })
    (hnone : db.forkDb[id]? = none → E .keyNotFound db) :
    Outcome (markIncluded id included) db Q E := by
  simp only [markIncluded, fetchFork, storeFork, bind_assoc]
  rw [Outcome.bind_iff, Outcome.get_iff]
  exact outcome_fetch hsome hnone

theorem outcome_applyToLedger {o : Overlay}
    (hok : ∀ c, applyOverlay crypto o (db.chain wall) = .ok c → Q () { db with ledger := c.db })
    (herror : ∀ e, applyOverlay crypto o (db.chain wall) = .error e →
      E e { db with ledger := (applyOverlayThrown crypto o (db.chain wall)).db }) :
    Outcome (applyToLedger crypto wall o) db Q E := by
  rw [applyToLedger, Outcome.bind_iff, Outcome.get_iff]
  cases h : applyOverlay crypto o (db.chain wall) with
  | ok c => exact hok c h
  | error e =>
    simp only [Outcome.bind_iff, Outcome.set_iff, Outcome.throw_iff]
    exact herror e h

theorem saveUndoState_eq (id : BlockId) (o : Overlay) : saveUndoState crypto wall id o = (do
    let db ← get
    let undo ← lift ((db.chain wall).getUndoState crypto o)
    modify fun db => { db with undoStateDb := db.undoStateDb.insert id undo }
    if db.LeavesWindow then do
      let oldId ← lift (orThrow db.blockNumToIdDb[db.undoAge]? .keyNotFound)
      modify fun db => { db with undoStateDb := db.undoStateDb.erase oldId }) :=
  rfl

theorem outcome_saveUndoState {id : BlockId} {o : Overlay}
    (hok : ∀ undo undoStateDb, (db.chain wall).getUndoState crypto o = .ok undo →
      db.KeepsUndo id undo undoStateDb → Q () { db with undoStateDb })
    (herror : ∀ e, (db.chain wall).getUndoState crypto o = .error e → E e db)
    (hnone : ∀ undo, (db.chain wall).getUndoState crypto o = .ok undo → db.LeavesWindow →
      db.blockNumToIdDb[db.undoAge]? = none →
      E .keyNotFound { db with undoStateDb := db.undoStateDb.insert id undo }) :
    Outcome (saveUndoState crypto wall id o) db Q E := by
  rw [saveUndoState_eq, Outcome.bind_iff, Outcome.get_iff, Outcome.bind_iff, outcome_lift]
  refine ⟨fun undo hundo => ?_, herror⟩
  rw [Outcome.bind_iff, Outcome.modify_iff]
  cases em db.LeavesWindow with
  | inl hage =>
    rw [if_pos hage]
    refine outcome_fetch (fun oldId hold => ?_) (hnone undo hundo hage)
    rw [Outcome.modify_iff]
    exact hok undo _ hundo (.window hage hold)
  | inr hage =>
    rw [if_neg hage]
    exact hok undo _ hundo (.all hage)

end Parts

/-! ### The whole -/

/-- The body of an extension, before a failure is caught. -/
theorem applyBlock_outcome :
    Outcome (applyBlock crypto wall (crypto.blockId b.toSignedBlockHeader) b) db
      (fun _ db' => ∃ c undo c', Extends crypto wall b db c undo c' (db'.purged wall))
      (fun _ db' => ExtendFails crypto wall b db db') := by
  rw [applyBlock, Outcome.bind_iff, Outcome.get_iff, Outcome.bind_iff, outcome_lift]
  refine ⟨fun c hc => ?_, fun _ _ => .unevaluated⟩
  rw [Outcome.bind_iff]
  refine outcome_saveUndoState (fun undo undoStateDb hundo hkeeps => ?_)
    (fun _ _ => .unevaluated) fun undo hundo => .unindexed ⟨hc, hundo⟩
  rw [Outcome.bind_iff]
  refine outcome_applyToLedger (fun c' hc' => ?_) fun e he => .unapplied ⟨hc, hundo⟩ hkeeps he
  rw [Outcome.bind_iff]
  refine outcome_markIncluded (fun fork hfork => ?_) (.unknown ⟨hc, hundo⟩ hkeeps hc')
  rw [Outcome.modify_iff]
  exact ⟨c, undo, c', ⟨hc, hundo⟩, hc', fork, undoStateDb, hfork, hkeeps, rfl⟩

/-- **An extension**, however it ends. When it throws, the block has been marked invalid in the
tree, too. -/
theorem extendChain_outcome : Outcome (extendChain crypto wall b) db
    (fun _ db' => ∃ c undo c', Extends crypto wall b db c undo c' db')
    (fun _ db' => ∃ db₁, ExtendFails crypto wall b db db₁ ∧ SameButForks db₁ db') := by
  rw [extendChain, Outcome.bind_iff, Outcome.tryCatch_iff]
  refine applyBlock_outcome.mono (fun _ db' h => ?_) fun e db₁ h => ?_
  · rw [purgeExpired, Outcome.modify_iff]
    exact h
  · rw [Outcome.bind_iff]
    exact (onForks_markInvalid _ _ db₁).mono (fun _ _ h' => ⟨db₁, h, h'⟩) fun _ _ h' => ⟨db₁, h, h'⟩

theorem extendChain_eq_ok {db' : Database}
    (h : (extendChain crypto wall b).run db = .ok () db') :
    ∃ c undo c', Extends crypto wall b db c undo c' db' :=
  extendChain_outcome.of_ok h

/-- Conversely, this is how an extension returns. -/
theorem extendChain_of_extends {c c' : ChainInterface} {undo : Overlay} {db' : Database}
    (h : Extends crypto wall b db c undo c' db') :
    (extendChain crypto wall b).run db = .ok () db' := by
  obtain ⟨fork, undoStateDb, hfork, hkeeps, rfl⟩ := h.result
  refine Outcome.run_eq ?_
  rw [Action.extendChain, Outcome.bind_iff, Outcome.tryCatch_iff, applyBlock, Outcome.bind_iff,
    Outcome.get_iff, Outcome.bind_iff, outcome_lift, h.evaluated]
  refine ⟨?_, fun _ he => (nomatch he)⟩
  rintro _ ⟨⟩
  rw [Outcome.bind_iff]
  refine outcome_saveUndoState ?_ (fun e he => ?_) fun undo' hundo hage hnone => ?_
  · intro undo' undoStateDb' hundo hkeeps'
    rw [h.undone] at hundo
    cases hundo
    obtain rfl := hkeeps.unique hkeeps'
    rw [Outcome.bind_iff]
    refine outcome_applyToLedger (fun c₁ hc₁ => ?_) fun e he => ?_
    · have happlied : applyOverlay crypto (c.overlays.headD {}) (db.chain wall) = .ok c₁ := hc₁
      rw [h.applied] at happlied
      cases happlied
      rw [Outcome.bind_iff]
      refine outcome_markIncluded (fun fork' hfork' => ?_) fun hnone => ?_
      · rw [hfork] at hfork'
        cases hfork'
        exact ⟨rfl, rfl⟩
      · rw [hfork] at hnone
        cases hnone
    · have happlied : applyOverlay crypto (c.overlays.headD {}) (db.chain wall) = .error e := he
      rw [h.applied] at happlied
      cases happlied
  · rw [h.undone] at he
    cases he
  · cases hkeeps with
    | all hnot => exact absurd hage hnot
    | window _ hold =>
      rw [hold] at hnone
      cases hnone

/-- **A pop**, however it ends. At block number 0 it does nothing. -/
theorem popBlock_outcome : Outcome (popBlock crypto wall) db
    (fun _ db' => (db.headBlockNum = 0 ∧ db' = db) ∨
      (db.headBlockNum ≠ 0 ∧ ∃ undo c' header, Pops crypto wall db undo c' header db'))
    (fun _ db' => db.headBlockNum ≠ 0 ∧ PopFails crypto wall db db') := by
  rw [popBlock, Outcome.bind_iff, Outcome.get_iff]
  split
  · rename_i hzero
    exact Or.inl ⟨hzero, rfl⟩
  · rename_i hnum
    rw [Outcome.bind_iff]
    refine outcome_markIncluded (fun fork hfork => ?_) fun hnone => ⟨hnum, .unknown hnone⟩
    rw [Outcome.bind_iff, Outcome.modify_iff]
    refine outcome_fetch (fun undo hundo => ?_) fun hnone => ⟨hnum, .noUndo hfork hnone⟩
    rw [Outcome.bind_iff]
    refine outcome_applyToLedger (fun c' hc' => ?_) fun e he => ⟨hnum, .unapplied hfork hundo he⟩
    rw [Outcome.bind_iff, Outcome.modify_iff, Outcome.bind_iff, getBlockHeader, Outcome.bind_iff,
      Outcome.get_iff, outcome_lift]
    refine ⟨fun header hheader => ?_, fun e he => ⟨hnum, ?_⟩⟩
    · rw [Outcome.modify_iff]
      exact Or.inr ⟨hnum, undo, c', header, hundo, hc', orThrow_eq_ok.1 hheader, fork, hfork, rfl⟩
    · cases hparent : db.blockIdToBlockRecordDb[db.headBlockHeader.previous]? with
      | none => exact .noHeader hfork hundo hc' hparent
      | some header =>
        rw [hparent] at he
        cases he

end Action

/-! ### The blocks a run is made of -/

namespace Database

open LarkX.Action

variable {crypto : Crypto} {config : GenesisBlockConfig} {P : FullBlock → Prop}
  {K : Database → Event → Prop} {wall : ℕ} {b : FullBlock} {ev : Event} {db db' : Database}

/-- A condition on the blocks that extend the chain. -/
def OnBlocks (P : FullBlock → Prop) (_ : Database) : Event → Prop
  | .extend _ b => P b
  | _ => True

/-- No step stores another block than the one that is pushed. -/
theorem stored_of_step (h : Step crypto wall b db ev db') :
    db'.blockIdToBlockDataDb = db.blockIdToBlockDataDb ∨ db'.blockIdToBlockDataDb =
      db.blockIdToBlockDataDb.insert (crypto.blockId b.toSignedBlockHeader) b := by
  cases h with
  | stored h => exact Or.inr (by rw [h.rest])
  | marked h => exact Or.inl (by rw [h.rest])
  | extended _ h =>
    obtain ⟨c, undo, c', hextends⟩ := extendChain_eq_ok h
    obtain ⟨fork, undoStateDb, -, -, rfl⟩ := hextends.result
    exact Or.inl rfl
  | extendThrew _ h =>
    obtain ⟨db₁, hfails, hmarked⟩ := extendChain_outcome.of_error h
    rw [hmarked.rest]
    cases hfails <;> exact Or.inl rfl
  | popped h =>
    rcases popBlock_outcome.of_ok h with ⟨-, rfl⟩ | ⟨-, undo, c', header, hpops⟩
    · exact Or.inl rfl
    · obtain ⟨fork, -, rfl⟩ := hpops.result
      exact Or.inl rfl
  | popThrew h =>
    cases (popBlock_outcome.of_error h).2 <;> exact Or.inl rfl

/-- What holds of every block that is pushed holds of every block that extends the chain. -/
theorem RunOf.onBlocks (h : RunOf crypto config P K db) :
    RunOf crypto config P (OnBlocks P) db := by
  -- every stored block was pushed
  refine RunOf.mono (fun _ _ => And.right) (h.strengthen
    (I := fun db => ∀ (id : BlockId) (b : FullBlock), db.blockIdToBlockDataDb[id]? = some b → P b)
    (fun db h id b hb => ?_) (fun _ h => h) fun wall b ev db db' hP hstored hstep => ?_).1
  · simp only [initializeGenesis, bind_eq_ok, pure_eq_ok] at h
    obtain ⟨ledger, -, rfl⟩ := h
    cases (Table.getElem?_empty' _).symm.trans hb
  · refine ⟨?_, fun id b' hb' => ?_⟩
    · cases hstep with
      | extended hnext _ => exact hstored _ _ hnext
      | extendThrew hnext _ => exact hstored _ _ hnext
      | _ => trivial
    · rcases stored_of_step hstep with heq | heq
      · exact hstored id b' (heq ▸ hb')
      · rw [heq, Table.getElem?_insert] at hb'
        split at hb'
        · cases hb'
          exact hP
        · exact hstored id b' hb'

end Database

end LarkX
