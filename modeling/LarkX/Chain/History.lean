import LarkX.Chain.Extend
import LarkX.Chain.Fits
import LarkX.Chain.Origin

/-!
# The history of the chain

The blocks on the path from genesis to the head, each with the database it was accepted on:
`Link` is one of them and `Linked` says that a list of them, the head first, is a path. `Tracks`
is what holds between a database and the path it has followed: its ledger agrees with what the
last block left behind, every undo state leads back to where its block was accepted, and every
header of the path is recorded. Each step stays, extends the path or goes back (`Moves`), so a
property of databases with their path has one case for each (`RunOf.along`).

Blocks are told apart by their ids here (`Crypto.IdealIds`).
-/

namespace LarkX

open ChainInterface Ledger

/-- Ids as ideal hashes give them: no two headers share one, and none is the id of genesis. -/
structure Crypto.IdealIds (crypto : Crypto) : Prop where
  inj : ∀ h h', crypto.blockId h = crypto.blockId h' → h = h'
  ne_zero : ∀ h, crypto.blockId h ≠ 0

/-- A block of the chain, with the database it was accepted on and its pending state. -/
structure Link (crypto : Crypto) where
  prev : Database
  wall : ℕ
  block : FullBlock
  changes : Overlay
  evaluated : evaluateBlock crypto (prev.chain wall) prev.headBlockHeader prev.headBlockId
    prev.skipSignatureVerification wall block =
      .ok ⟨[changes], prev.ledger, prev.now wall, prev.headBlockNum⟩

namespace Link

variable {crypto : Crypto}

def id (link : Link crypto) : BlockId :=
  crypto.blockId link.block.toSignedBlockHeader

/-- The ledger after the block. -/
def after (link : Link crypto) : Ledger :=
  link.prev.ledger.apply crypto (link.prev.now link.wall) link.changes

/-- The ledger after the block, without the digests that expired before `t`. -/
def purged (link : Link crypto) (t : ℕ) : Ledger :=
  { link.after with
    uniqueTransactions := link.after.uniqueTransactions.filter fun exp _ => t ≤ exp }

end Link

/-! ### Headers -/

/-- What holds of the header of every head: its time is on a slot and, from block 2 on, the
number of a block is small against its time. -/
structure SignedBlockHeader.Sane (header : SignedBlockHeader) : Prop where
  slot : header.timestamp % btsBlockchainBlockIntervalSec = 0
  number : btsBlockchainBlockIntervalSec * (header.blockNum - 1) ≤ header.timestamp
  range : header.timestamp < 2 ^ 32

/-- The `FORK_25` gate is never open. -/
theorem SignedBlockHeader.Sane.gate {header : SignedBlockHeader} (h : header.Sane) :
    atOrAfterFork25 header.blockNum = false := by
  obtain ⟨-, hnumber, hrange⟩ := h
  rw [atOrAfterFork25, decide_eq_false_iff_not]
  simp only [btsBlockchainBlockIntervalSec] at hnumber
  have hfork : fork25 % 2 ^ 32 = 2 ^ 32 - 1 := by decide
  omega

/-- What a verified header says. -/
theorem verifyHeader_eq_ok {crypto : Crypto} {c : ChainInterface} {head : SignedBlockHeader}
    {headId : BlockId} {wall : ℕ} {b : FullBlock} {blockSignee : PublicKey}
    (h : c.verifyHeader crypto head headId wall b blockSignee = .ok ()) :
    (1 < b.blockNum → b.blockNum = head.blockNum + 1) ∧ b.previous = headId ∧
      b.timestamp % btsBlockchainBlockIntervalSec = 0 ∧
      (1 < b.blockNum → head.timestamp < b.timestamp) ∧
      ∃ active expected, c.database.getActiveDelegates = .ok active ∧
        c.getSlotSignee b.timestamp active = .ok expected ∧ blockSignee = expected.activeKey := by
  simp only [verifyHeader, bind_eq_ok, require_eq_ok] at h
  obtain ⟨-, hnum, -, hprevious, -, hslot, -, htime, -, -, -, -, -, -, active, hactive, expected,
    hexpected, hsignee⟩ := h
  refine ⟨fun h1 => ?_, hprevious, hslot, fun h1 => ?_, active, expected, hactive, hexpected,
    hsignee⟩
  · by_contra hne
    exact hnum ⟨h1, hne⟩
  · by_contra hle
    exact htime ⟨h1, by omega⟩

/-! ### Paths -/

namespace Database

open LarkX.Action

section Paths

variable (crypto : Crypto) (P : FullBlock → Prop) (K : Database → Event → Prop) (genesis : Ledger)

/-- The header of a first block that has been popped, which stays the header of the head. -/
def Beheaded (header : SignedBlockHeader) : Prop :=
  header.previous = 0 ∧ header.blockNum ≠ 0 ∧
    (∃ b : FullBlock, b.toSignedBlockHeader = header ∧ P b ∧ b.InRange) ∧
    ∃ db : Database, db.headBlockHeader = header ∧ K db .pop

/-- The id of the head of a path. -/
def headIdOf : List (Link crypto) → BlockId
  | [] => 0
  | link :: _ => link.id

/-- The header of the head of a path. -/
def IsHeader : List (Link crypto) → SignedBlockHeader → Prop
  | [], header => header = {} ∨ Beheaded P K header
  | link :: _, header => header = link.block.toSignedBlockHeader

/-- The ledger that the head of a path left behind. -/
def ledgerOf : List (Link crypto) → Ledger
  | [] => genesis
  | link :: _ => link.after

/-- A database whose head is the head of the path. -/
structure At (links : List (Link crypto)) (db : Database) : Prop where
  id : db.headBlockId = headIdOf crypto links
  header : IsHeader crypto P K links db.headBlockHeader
  sane : db.headBlockHeader.Sane
  wellFormed : db.ledger.WellFormed crypto
  agrees : Agrees (ledgerOf crypto genesis links) db.ledger
  registered : genesis.Registered → db.ledger.Registered
  seed : SeedReadable db

/-- A path: each block was accepted on a database whose head was the one before it. -/
inductive Linked : List (Link crypto) → Prop
  | nil : Linked []
  | cons {link : Link crypto} {links : List (Link crypto)} (h : Linked links)
      (prev : At crypto P K genesis links link.prev) (fresh : link.id ∉ links.map Link.id)
      (hP : P link.block) (hrange : link.block.InRange)
      (hK : K link.prev (.extend link.wall link.block)) : Linked (link :: links)

/-- The database has followed the path. -/
structure Tracks (db : Database) (links : List (Link crypto)) : Prop
    extends At crypto P K genesis links db where
  linked : Linked crypto P K genesis links
  undo : ∀ link ∈ links, ∀ u, db.undoStateDb[link.id]? = some u →
    (link.prev.chain link.wall).getUndoState crypto link.changes = .ok u
  undoZero : db.undoStateDb[0]? = none
  records : ∀ link ∈ links,
    db.blockIdToBlockRecordDb[link.id]? = some link.block.toSignedBlockHeader
  recordIds : ∀ (id : BlockId) (header : SignedBlockHeader),
    db.blockIdToBlockRecordDb[id]? = some header → crypto.blockId header = id
  data : ∀ (id : BlockId) (b : FullBlock), db.blockIdToBlockDataDb[id]? = some b →
    crypto.blockId b.toSignedBlockHeader = id ∧ P b ∧ b.InRange ∧
      db.blockIdToBlockRecordDb[id]? ≠ none ∧ db.forkDb[id]? ≠ none

end Paths

variable {crypto : Crypto} {P : FullBlock → Prop} {K : Database → Event → Prop} {genesis : Ledger}
  {links : List (Link crypto)} {db db' : Database}

/-! ### One block -/

/-- A database whose head has a sane header accepts blocks with sane headers only. -/
theorem sane_of_evaluated {wall : ℕ} {b : FullBlock} {c : ChainInterface}
    (hdb : db.headBlockHeader.Sane) (hrange : b.InRange)
    (h : evaluateBlock crypto (db.chain wall) db.headBlockHeader db.headBlockId
      db.skipSignatureVerification wall b = .ok c) : b.toSignedBlockHeader.Sane := by
  simp only [evaluateBlock, bind_eq_ok] at h
  obtain ⟨signee, -, _, hheader, -⟩ := h
  obtain ⟨hnum, -, hslot, htime, -⟩ := verifyHeader_eq_ok hheader
  obtain ⟨hheadSlot, hheadNumber, -⟩ := hdb
  refine ⟨hslot, ?_, hrange.2.1⟩
  simp only [btsBlockchainBlockIntervalSec] at *
  rcases Nat.lt_or_ge 1 b.blockNum with h1 | h1
  · have h₂ := hnum h1
    have h₃ := htime h1
    omega
  · omega

theorem previous_of_evaluated {wall : ℕ} {b : FullBlock} {c : ChainInterface}
    (h : evaluateBlock crypto (db.chain wall) db.headBlockHeader db.headBlockId
      db.skipSignatureVerification wall b = .ok c) : b.previous = db.headBlockId := by
  simp only [evaluateBlock, bind_eq_ok] at h
  obtain ⟨signee, -, _, hheader, -⟩ := h
  exact (verifyHeader_eq_ok hheader).2.1

theorem Linked.previous (h : Linked crypto P K genesis links) (link : Link crypto)
    (hmem : link ∈ links) : link.block.previous = 0 ∨ link.block.previous ∈ links.map Link.id := by
  induction h with
  | nil => exact absurd hmem List.not_mem_nil
  | @cons first rest _ hprev _ _ _ _ ih =>
    rcases List.mem_cons.1 hmem with rfl | hmem
    · rw [previous_of_evaluated link.evaluated, hprev.id]
      cases rest with
      | nil => exact Or.inl rfl
      | cons second rest => exact Or.inr (List.mem_cons_of_mem _ List.mem_cons_self)
    · exact (ih hmem).imp_right (List.mem_cons_of_mem _)

/-- A block on the head of a path is not on the path. -/
theorem Linked.fresh (hids : crypto.IdealIds) (h : Linked crypto P K genesis links)
    {b : FullBlock} (hb : b.previous = headIdOf crypto links) :
    crypto.blockId b.toSignedBlockHeader ∉ links.map Link.id := by
  intro hmem
  obtain ⟨link, hlink, hid⟩ := List.mem_map.1 hmem
  have hheader : link.block.toSignedBlockHeader = b.toSignedBlockHeader := hids.inj _ _ hid
  have hprevious : link.block.previous = headIdOf crypto links := by
    rw [← hb]
    exact congrArg (fun header : SignedBlockHeader => header.previous) hheader
  cases h with
  | nil => exact absurd hlink List.not_mem_nil
  | @cons first rest hrest hprev hfresh _ _ _ =>
    -- the parent of a block of the path is genesis or further down the path
    have hdown : link.block.previous = 0 ∨ link.block.previous ∈ rest.map Link.id := by
      rcases List.mem_cons.1 hlink with rfl | hlink
      · rw [previous_of_evaluated link.evaluated, hprev.id]
        cases rest with
        | nil => exact Or.inl rfl
        | cons second rest => exact Or.inr List.mem_cons_self
      · exact hrest.previous link hlink
    rw [hprevious] at hdown
    rcases hdown with hzero | hmem
    · exact hids.ne_zero _ hzero
    · exact hfresh hmem

/-! ### Extending the path -/

/-- What an evaluated block leaves behind. -/
theorem At.link (h : At crypto P K genesis links db) {wall : ℕ} {b : FullBlock}
    {c : ChainInterface} (heval : evaluateBlock crypto (db.chain wall) db.headBlockHeader
      db.headBlockId db.skipSignatureVerification wall b = .ok c) :
    ∃ link : Link crypto, link.prev = db ∧ link.wall = wall ∧ link.block = b ∧
      c = ⟨[link.changes], db.ledger, db.now wall, db.headBlockNum⟩ ∧
      link.changes.Fits crypto := by
  obtain ⟨o, rfl, hfits⟩ := evaluateBlock_fits h.wellFormed heval
  exact ⟨⟨db, wall, b, o, heval⟩, rfl, rfl, rfl, rfl, hfits⟩

/-- The pending state of a block leaves a random seed. -/
theorem seed_of_evaluated {wall : ℕ} {b : FullBlock} {o : Overlay}
    (h : evaluateBlock crypto (db.chain wall) db.headBlockHeader db.headBlockId
      db.skipSignatureVerification wall b =
        .ok ⟨[o], db.ledger, db.now wall, db.headBlockNum⟩) :
    ∃ seed, o.properties[ChainProperty.lastRandomSeedId]? = some (.hash seed) := by
  simp only [evaluateBlock, evaluateBlockChanges, updateRandomSeed, bind_eq_ok, pure_eq_ok] at h
  obtain ⟨signee, -, -, -, c₁, -, c₂, -, c₃, -, c₄, -, c₅, -, seed, -, hlast⟩ := h
  obtain ⟨os, db₅, now₅, n₅⟩ := c₅
  cases os with
  | nil =>
    have hnil := congrArg ChainInterface.overlays hlast
    cases hnil
  | cons o₅ os =>
    have htop := congrArg ChainInterface.overlays hlast
    cases htop
    exact ⟨_, Table.getElem?_insert_same ..⟩

/-- The ledger after a block, without the digests that have expired. -/
theorem At.advance (h : At crypto P K genesis links db) (link : Link crypto)
    (hprev : link.prev = db) (hfits : link.changes.Fits crypto) (hrange : link.block.InRange)
    {t : ℕ} (hid : db'.headBlockId = link.id)
    (hheader : db'.headBlockHeader = link.block.toSignedBlockHeader)
    (hledger : db'.ledger = link.purged t) : At crypto P K genesis (link :: links) db' := by
  have heval := link.evaluated
  have hwell := h.wellFormed
  have hsane := h.sane
  have hreg := h.registered
  subst hprev
  have hafter : link.after.WellFormed crypto := hwell.apply _ hfits
  refine ⟨hid, hheader, ?_, ?_, ?_, fun hgenesis => ?_, ?_⟩
  · rw [hheader]
    exact sane_of_evaluated hsane hrange heval
  · rw [hledger]
    exact ⟨hafter.keyed, hafter.live⟩
  · rw [hledger]
    exact { Agrees.refl link.after with }
  · have hregistered : link.after.Registered :=
      (hreg hgenesis).apply _ hfits.keyed (evaluateBlock_registers hwell (hreg hgenesis) heval)
    rw [hledger]
    exact ⟨⟨hregistered.indexed.names, hregistered.indexed.votes⟩, hregistered.lastAccount⟩
  · obtain ⟨seed, hseed⟩ := seed_of_evaluated heval
    refine ⟨seed, ?_⟩
    have hproperties := congrArg Tables.properties
      (apply_toTables (link.prev.now link.wall) link.prev.ledger hfits.keyed)
    rw [hledger]
    change link.after.properties[_]? = _
    rw [Link.after, hproperties]
    change (Std.ExtTreeMap.insert _ _ _)[_]? = _
    rw [Table.getElem?_insert_of_ne _ _ (by decide), Table.getElem?_settle, hseed]
    rfl

/-- The undo states that are kept are the old ones and the new one. -/
theorem KeepsUndo.get {id : BlockId} {undo : Overlay} {t : Table BlockId Overlay}
    (h : db.KeepsUndo id undo t) {id' : BlockId} {u : Overlay} (hu : t[id']? = some u) :
    (id' = id ∧ u = undo) ∨ (id' ≠ id ∧ db.undoStateDb[id']? = some u) := by
  have hinsert : (db.undoStateDb.insert id undo)[id']? = some u := by
    cases h with
    | all _ => exact hu
    | @window oldId _ _ =>
      rw [Table.getElem?_erase] at hu
      split at hu
      · cases hu
      · exact hu
  rw [Table.getElem?_insert] at hinsert
  split at hinsert
  · rename_i hid
    exact Or.inl ⟨hid, (Option.some.inj hinsert).symm⟩
  · rename_i hid
    exact Or.inr ⟨hid, hinsert⟩

/-- **An extension** makes the path longer. -/
theorem Tracks.extend (hids : crypto.IdealIds) (h : Tracks crypto P K genesis db links) {wall : ℕ}
    {b : FullBlock} {c c' : ChainInterface} {undo : Overlay}
    (hextends : Extends crypto wall b db c undo c' db') {id : BlockId}
    (hstored : db.blockIdToBlockDataDb[id]? = some b) (hK : K db (.extend wall b)) :
    ∃ link : Link crypto, link.prev = db ∧ link.wall = wall ∧ link.block = b ∧
      Tracks crypto P K genesis db' (link :: links) ∧
      db'.ledger = link.purged (db'.now wall) := by
  obtain ⟨hstoredId, hP, hrange, hrecorded, -⟩ := h.data id b hstored
  obtain ⟨link, hprev, hwall, hblock, rfl, hfits⟩ := h.toAt.link hextends.evaluated
  refine ⟨link, hprev, hwall, hblock, ?_⟩
  have hid : link.id = crypto.blockId b.toSignedBlockHeader := by rw [Link.id, hblock]
  have hfresh : link.id ∉ links.map Link.id := by
    rw [hid]
    exact h.linked.fresh hids ((previous_of_evaluated hextends.evaluated).trans h.id)
  have happlied : c' = ⟨[], link.after, db.now wall, db.headBlockNum⟩ := by
    have hgate : atOrAfterFork25 db.headBlockNum = false := h.sane.gate
    have happlied := hextends.applied
    change applyOverlay crypto link.changes ⟨[], db.ledger, db.now wall, db.headBlockNum⟩ = _
      at happlied
    rw [applyOverlay_ledger db.ledger hgate hfits.named] at happlied
    rw [Link.after, hprev, hwall]
    exact (Except.ok.inj happlied).symm
  obtain ⟨fork, undoStateDb, hfork, hkeeps, rfl⟩ := hextends.result
  subst happlied
  have hledger : ((db.advanced crypto b link.after fork undoStateDb).purged wall).ledger =
      link.purged (((db.advanced crypto b link.after fork undoStateDb).purged wall).now wall) := rfl
  refine ⟨?_, hledger⟩
  exact {
    toAt := h.toAt.advance link hprev hfits (hblock ▸ hrange) hid.symm
      (congrArg FullBlock.toSignedBlockHeader hblock.symm) hledger
    linked := .cons h.linked (hprev ▸ h.toAt) hfresh (hblock ▸ hP) (hblock ▸ hrange)
      (by rw [hprev, hwall, hblock]; exact hK)
    undo := by
      intro link' hlink' u hu
      rcases hkeeps.get hu with ⟨hid', rfl⟩ | ⟨hne, hu⟩
      · rcases List.mem_cons.1 hlink' with rfl | hlink'
        · rw [hprev, hwall]
          exact hextends.undone
        · exact absurd (List.mem_map.2 ⟨link', hlink', hid'.trans hid.symm⟩) hfresh
      · rcases List.mem_cons.1 hlink' with rfl | hlink'
        · exact absurd hid hne
        · exact h.undo link' hlink' u hu
    undoZero := by
      cases hzero : undoStateDb[0]? with
      | none => exact hzero
      | some u =>
        rcases hkeeps.get hzero with ⟨hid', -⟩ | ⟨-, hu⟩
        · exact absurd hid'.symm (hids.ne_zero _)
        · rw [h.undoZero] at hu
          cases hu
    records := by
      intro link' hlink'
      rcases List.mem_cons.1 hlink' with rfl | hlink'
      · rw [hid, hblock]
        obtain ⟨header, hheader⟩ := Option.ne_none_iff_exists'.1 hrecorded
        have hsame := hids.inj _ _ ((h.recordIds id header hheader).trans hstoredId.symm)
        rw [hstoredId, ← hsame]
        exact hheader
      · exact h.records link' hlink'
    recordIds := h.recordIds
    data := by
      intro id b' hb'
      obtain ⟨hid', hP', hrange', hrecord, hknown⟩ := h.data id b' hb'
      exact ⟨hid', hP', hrange', hrecord, Action.insert_known hknown⟩ }

/-! ### Staying on the path -/

/-- The head and the ledger are the same. -/
structure SameHead (db db' : Database) : Prop where
  ledger : db'.ledger = db.ledger
  id : db'.headBlockId = db.headBlockId
  header : db'.headBlockHeader = db.headBlockHeader

theorem At.same (h : At crypto P K genesis links db) (hsame : SameHead db db') :
    At crypto P K genesis links db' := by
  obtain ⟨hledger, hid, hheader⟩ := hsame
  refine ⟨hid ▸ h.id, ?_, ?_, ?_, ?_, ?_, ?_⟩
  · rw [hheader]
    exact h.header
  · rw [hheader]
    exact h.sane
  · rw [hledger]
    exact h.wellFormed
  · rw [hledger]
    exact h.agrees
  · rw [hledger]
    exact h.registered
  · rw [SeedReadable, hledger]
    exact h.seed

/-- A step that stays, and loses nothing but undo states. -/
theorem Tracks.stay (h : Tracks crypto P K genesis db links) (hsame : SameHead db db')
    (hundo : ∀ link ∈ links, ∀ u, db'.undoStateDb[link.id]? = some u →
      db.undoStateDb[link.id]? = some u)
    (hundoZero : db'.undoStateDb[0]? = none)
    (hrecords : db'.blockIdToBlockRecordDb = db.blockIdToBlockRecordDb)
    (hdata : db'.blockIdToBlockDataDb = db.blockIdToBlockDataDb)
    (hknown : ∀ id : BlockId, db.forkDb[id]? ≠ none → db'.forkDb[id]? ≠ none) :
    Tracks crypto P K genesis db' links where
  toAt := h.toAt.same hsame
  linked := h.linked
  undo link hlink u hu := h.undo link hlink u (hundo link hlink u hu)
  undoZero := hundoZero
  records link hlink := by
    rw [hrecords]
    exact h.records link hlink
  recordIds id header hid := h.recordIds id header (hrecords ▸ hid)
  data id b hb := by
    obtain ⟨hid, hP, hrange, hrecord, hfork⟩ := h.data id b (hdata ▸ hb)
    exact ⟨hid, hP, hrange, hrecords ▸ hrecord, hknown id hfork⟩

theorem Tracks.marked (h : Tracks crypto P K genesis db links) (hsame : SameButForks db db') :
    Tracks crypto P K genesis db' links := by
  have hrest := hsame.rest
  refine h.stay ⟨by rw [hrest], by rw [hrest], by rw [hrest]⟩ (fun _ _ _ hu => ?_) ?_ (by rw [hrest])
    (by rw [hrest]) hsame.known
  · rw [hrest] at hu
    exact hu
  · rw [hrest]
    exact h.undoZero

/-- A new block is stored next to the path. -/
theorem Tracks.store (h : Tracks crypto P K genesis db links) {b : FullBlock} (hP : P b)
    (hrange : b.InRange) (hindexes : Indexes crypto b db db') :
    Tracks crypto P K genesis db' links := by
  have hrest := hindexes.rest
  have hrecord : ∀ (id : BlockId) (header : SignedBlockHeader),
      db.blockIdToBlockRecordDb[id]? = some header → db'.blockIdToBlockRecordDb[id]? = some header := by
    intro id header hid
    rcases hindexes.records with heq | ⟨hnone, heq⟩
    · rw [heq]
      exact hid
    · rw [heq, Table.getElem?_insert_of_ne]
      · exact hid
      · rintro rfl
        rw [hnone] at hid
        cases hid
  exact {
    toAt := h.toAt.same ⟨by rw [hrest], by rw [hrest], by rw [hrest]⟩
    linked := h.linked
    undo := fun link hlink u hu => h.undo link hlink u (by rw [hrest] at hu; exact hu)
    undoZero := by
      rw [hrest]
      exact h.undoZero
    records := fun link hlink => hrecord _ _ (h.records link hlink)
    recordIds := by
      intro id header hid
      rcases hindexes.records with heq | ⟨-, heq⟩
      · exact h.recordIds id header (heq ▸ hid)
      · rw [heq, Table.getElem?_insert] at hid
        split at hid
        · rename_i hmine
          cases hid
          exact hmine.symm
        · exact h.recordIds id header hid
    data := by
      intro id b' hb'
      rw [hrest] at hb'
      change (db.blockIdToBlockDataDb.insert _ _)[id]? = _ at hb'
      rw [Table.getElem?_insert] at hb'
      split at hb'
      · rename_i hmine
        cases hb'
        obtain ⟨hheader, hfork⟩ := hindexes.indexed h.seed
        exact ⟨hmine.symm, hP, hrange, hmine ▸ hheader, hmine ▸ hfork⟩
      · obtain ⟨hid, hP', hrange', hheader, hfork⟩ := h.data id b' hb'
        obtain ⟨header, hheader⟩ := Option.ne_none_iff_exists'.1 hheader
        refine ⟨hid, hP', hrange', ?_, hindexes.known id hfork⟩
        rw [hrecord id header hheader]
        exact Option.some_ne_none _ }

/-! ### Going back -/

/-- The undo state of the head leads back to where its block was accepted. -/
theorem Tracks.undoes {link : Link crypto} (h : Tracks crypto P K genesis db (link :: links))
    {undo : Overlay} (hundo : db.undoStateDb[link.id]? = some undo) :
    Undoes crypto undo link.prev.ledger link.after ∧
      At crypto P K genesis links link.prev ∧ Linked crypto P K genesis links := by
  cases h.linked with
  | cons hlinked hprev hfresh hP hrange hK =>
    obtain ⟨o, heq, hfits⟩ := evaluateBlock_fits hprev.wellFormed link.evaluated
    cases heq
    have hundone := h.undo link List.mem_cons_self undo hundo
    exact ⟨hprev.wellFormed.undoes hfits hundone fun hreg =>
      evaluateBlock_registers hprev.wellFormed hreg link.evaluated, hprev, hlinked⟩

/-- The ledger after a pop is that of a database at the parent. -/
theorem Tracks.retreat {link : Link crypto} (h : Tracks crypto P K genesis db (link :: links))
    {undo : Overlay} (hundo : db.undoStateDb[link.id]? = some undo) {now : ℕ}
    (hid : db'.headBlockId = headIdOf crypto links)
    (hheader : IsHeader crypto P K links db'.headBlockHeader) (hsane : db'.headBlockHeader.Sane)
    (hledger : db'.ledger = db.ledger.apply crypto now undo) :
    At crypto P K genesis links db' := by
  obtain ⟨hundoes, hprev, -⟩ := h.undoes hundo
  have hagrees := hundoes.agrees db.ledger now h.wellFormed h.agrees
  refine ⟨hid, hheader, hsane, ?_, ?_, fun hgenesis => ?_, ?_⟩
  · rw [hledger]
    exact h.wellFormed.apply now hundoes.fits
  · rw [hledger]
    exact hprev.agrees.trans hagrees
  · rw [hledger]
    exact hundoes.registered db.ledger now (h.registered hgenesis) h.agrees
      (hprev.registered hgenesis)
  · obtain ⟨seed, hseed⟩ := hprev.seed
    refine ⟨seed, ?_⟩
    rw [hledger, hagrees.properties _ (by decide)]
    exact hseed

/-- The undo state of the head is applied without fail. -/
theorem Tracks.undo_applied {link : Link crypto} (h : Tracks crypto P K genesis db (link :: links))
    {undo : Overlay} (hundo : db.undoStateDb[link.id]? = some undo) (wall : ℕ) :
    applyOverlay crypto undo (db.chain wall) =
      .ok ⟨[], db.ledger.apply crypto (db.now wall) undo, db.now wall, db.headBlockNum⟩ :=
  applyOverlay_ledger db.ledger h.sane.gate (h.undoes hundo).1.fits.named

/-- The header of the head of a path that is not empty. -/
theorem Tracks.header_cons {link : Link crypto}
    (h : Tracks crypto P K genesis db (link :: links)) :
    db.headBlockHeader = link.block.toSignedBlockHeader ∧ db.headBlockId = link.id ∧
      db.headBlockHeader.previous = headIdOf crypto links := by
  refine ⟨h.header, h.id, ?_⟩
  rw [show db.headBlockHeader = link.block.toSignedBlockHeader from h.header]
  cases h.linked with
  | cons _ hprev _ _ _ _ => exact (previous_of_evaluated link.evaluated).trans hprev.id

/-- A database that has gone back keeps its records. -/
theorem Tracks.back {link : Link crypto} (h : Tracks crypto P K genesis db (link :: links))
    (hat : At crypto P K genesis links db') (hundo : db'.undoStateDb = db.undoStateDb)
    (hrecords : db'.blockIdToBlockRecordDb = db.blockIdToBlockRecordDb)
    (hdata : db'.blockIdToBlockDataDb = db.blockIdToBlockDataDb)
    (hknown : ∀ id : BlockId, db.forkDb[id]? ≠ none → db'.forkDb[id]? ≠ none) :
    Tracks crypto P K genesis db' links where
  toAt := hat
  linked := by
    cases h.linked with
    | cons hlinked _ _ _ _ _ => exact hlinked
  undo link' hlink u hu := h.undo link' (List.mem_cons_of_mem _ hlink) u (hundo ▸ hu)
  undoZero := hundo ▸ h.undoZero
  records link' hlink := hrecords ▸ h.records link' (List.mem_cons_of_mem _ hlink)
  recordIds id header hid := h.recordIds id header (hrecords ▸ hid)
  data id b hb := by
    obtain ⟨hid, hP, hrange, hrecord, hfork⟩ := h.data id b (hdata ▸ hb)
    exact ⟨hid, hP, hrange, hrecords ▸ hrecord, hknown id hfork⟩

/-! ### Steps -/

/-- What a step does to the path: it stays, extends the path or goes back. -/
inductive Moves (crypto : Crypto) (K : Database → Event → Prop) (wall : ℕ) (db : Database) :
    List (Link crypto) → Database → List (Link crypto) → Prop
  | stay {links : List (Link crypto)} {db' : Database} (h : SameHead db db') :
      Moves crypto K wall db links db' links
  | extend {links : List (Link crypto)} {db' : Database} {link : Link crypto}
      (hprev : link.prev = db) (hwall : link.wall = wall)
      (hheader : db'.headBlockHeader = link.block.toSignedBlockHeader)
      (hledger : db'.ledger = link.purged (db'.now wall)) : Moves crypto K wall db links db' (link :: links)
  | pop {links : List (Link crypto)} {db' : Database} {link : Link crypto} {undo : Overlay}
      (hundo : (link.prev.chain link.wall).getUndoState crypto link.changes = .ok undo)
      (hledger : db'.ledger = db.ledger.apply crypto (db.now wall) undo) (hK : K db .pop) :
      Moves crypto K wall db (link :: links) db' links

/-- An extension that throws stays. -/
theorem Tracks.extendThrew (hids : crypto.IdealIds) (h : Tracks crypto P K genesis db links)
    {wall : ℕ} {b : FullBlock} {id : BlockId} (hstored : db.blockIdToBlockDataDb[id]? = some b)
    (hfails : ExtendFails crypto wall b db db') :
    SameHead db db' ∧ Tracks crypto P K genesis db' links := by
  cases hfails with
  | unevaluated => exact ⟨⟨rfl, rfl, rfl⟩, h⟩
  | @unindexed c undo heval _ _ =>
    have hfresh := h.linked.fresh hids ((previous_of_evaluated heval.evaluated).trans h.id)
    refine ⟨⟨rfl, rfl, rfl⟩, h.stay ⟨rfl, rfl, rfl⟩ (fun link hlink u hu => ?_) ?_ rfl rfl
      fun _ hfork => hfork⟩
    · change (db.undoStateDb.insert _ _)[_]? = _ at hu
      rw [Table.getElem?_insert] at hu
      split at hu
      · rename_i hmine
        exact absurd (List.mem_map.2 ⟨link, hlink, hmine⟩) hfresh
      · exact hu
    · change (db.undoStateDb.insert _ _)[_]? = _
      rw [Table.getElem?_insert_of_ne _ _ (hids.ne_zero _).symm]
      exact h.undoZero
  | unapplied heval _ happly =>
    -- the changes of a block are always applied
    obtain ⟨link, -, -, -, rfl, hfits⟩ := h.toAt.link heval.evaluated
    have hgate : atOrAfterFork25 db.headBlockNum = false := h.sane.gate
    change applyOverlay crypto link.changes ⟨[], db.ledger, db.now wall, db.headBlockNum⟩ = _
      at happly
    rw [applyOverlay_ledger db.ledger hgate hfits.named] at happly
    cases happly
  | unknown _ _ _ hnone =>
    obtain ⟨hid, -, -, -, hfork⟩ := h.data id b hstored
    rw [hid] at hnone
    exact absurd hnone hfork

/-- A pop. -/
theorem Tracks.popped (hids : crypto.IdealIds) (h : Tracks crypto P K genesis db links)
    {wall : ℕ} {undo : Overlay} {c' : ChainInterface} {header : SignedBlockHeader}
    (hpops : Pops crypto wall db undo c' header db') (hK : K db .pop) :
    ∃ links', Moves crypto K wall db links db' links' ∧ Tracks crypto P K genesis db' links' := by
  obtain ⟨fork, -, rfl⟩ := hpops.result
  cases links with
  | nil =>
    have hstored := hpops.stored
    rw [show db.headBlockId = 0 from h.id, h.undoZero] at hstored
    cases hstored
  | cons link links =>
    obtain ⟨hheader, hid, hprevious⟩ := h.header_cons
    have hundo : db.undoStateDb[link.id]? = some undo := hid ▸ hpops.stored
    have happlied := hpops.applied
    rw [h.undo_applied hundo wall] at happlied
    obtain rfl := (Except.ok.inj happlied).symm
    have hparent := hpops.parent
    rw [hprevious] at hparent
    refine ⟨links, .pop (h.undo link List.mem_cons_self undo hundo) rfl hK, ?_⟩
    cases hlinks : links with
    | nil =>
      rw [hlinks] at hparent
      exact absurd (h.recordIds 0 header hparent) (hids.ne_zero _)
    | cons parent rest =>
      rw [← hlinks]
      have hmem : parent ∈ link :: links := by
        rw [hlinks]
        exact List.mem_cons_of_mem _ List.mem_cons_self
      have hrecord := h.records parent hmem
      rw [hlinks, headIdOf, hrecord] at hparent
      cases hparent
      have hsane : parent.block.toSignedBlockHeader.Sane := by
        have hlinked := (h.undoes hundo).2.2
        rw [hlinks] at hlinked
        cases hlinked with
        | cons _ hprev _ _ hrange _ => exact sane_of_evaluated hprev.sane hrange parent.evaluated
      refine h.back (h.retreat hundo hprevious ?_ hsane rfl) rfl rfl rfl
        fun _ hfork => Action.insert_known hfork
      rw [hlinks]
      rfl

/-- A pop that throws: only the first block is popped then. -/
theorem Tracks.popThrew (h : Tracks crypto P K genesis db links)
    {wall : ℕ} (hfails : PopFails crypto wall db db') (hnum : db.headBlockNum ≠ 0)
    (hK : K db .pop) :
    ∃ links', Moves crypto K wall db links db' links' ∧ Tracks crypto P K genesis db' links' := by
  cases hfails with
  | unknown _ => exact ⟨links, .stay ⟨rfl, rfl, rfl⟩, h⟩
  | noUndo _ _ =>
    exact ⟨links, .stay ⟨rfl, rfl, rfl⟩, h.stay ⟨rfl, rfl, rfl⟩ (fun _ _ _ hu => hu) h.undoZero rfl
      rfl fun _ hfork => Action.insert_known hfork⟩
  | unapplied _ hundo happly =>
    cases links with
    | nil =>
      rw [show db.headBlockId = 0 from h.id, h.undoZero] at hundo
      cases hundo
    | cons link links =>
      rw [h.header_cons.2.1] at hundo
      rw [h.undo_applied hundo wall] at happly
      cases happly
  | noHeader _ hundo happly hnone =>
    cases links with
    | nil =>
      rw [show db.headBlockId = 0 from h.id, h.undoZero] at hundo
      cases hundo
    | cons link links =>
      obtain ⟨hheader, hid, hprevious⟩ := h.header_cons
      rw [hid] at hundo
      rw [h.undo_applied hundo wall] at happly
      obtain rfl := (Except.ok.inj happly).symm
      refine ⟨links, .pop (h.undo link List.mem_cons_self _ hundo) rfl hK, ?_⟩
      cases hlinks : links with
      | cons parent rest =>
        have hmem : parent ∈ link :: links := by
          rw [hlinks]
          exact List.mem_cons_of_mem _ List.mem_cons_self
        have hrecord := h.records parent hmem
        rw [hprevious, hlinks, headIdOf, hrecord] at hnone
        cases hnone
      | nil =>
        subst hlinks
        refine h.back (h.retreat hundo hprevious (Or.inr ?_) h.sane rfl) rfl rfl rfl
          fun _ hfork => Action.insert_known hfork
        cases h.linked with
        | cons _ _ _ hP hrange _ =>
          exact ⟨hprevious, hnum, ⟨link.block, hheader.symm, hP, hrange⟩, db, rfl, hK⟩

/-- **Every step** moves the database along a path. -/
theorem Tracks.step (hids : crypto.IdealIds) (h : Tracks crypto P K genesis db links) {wall : ℕ}
    {b : FullBlock} {ev : Event} (hP : P b) (hrange : b.InRange)
    (hstep : Step crypto wall b db ev db') (hK : K db ev) :
    ∃ links', Moves crypto K wall db links db' links' ∧ Tracks crypto P K genesis db' links' := by
  cases hstep with
  | stored hindexes =>
    have hrest := hindexes.rest
    exact ⟨links, .stay ⟨by rw [hrest], by rw [hrest], by rw [hrest]⟩, h.store hP hrange hindexes⟩
  | marked hsame =>
    have hrest := hsame.rest
    exact ⟨links, .stay ⟨by rw [hrest], by rw [hrest], by rw [hrest]⟩, h.marked hsame⟩
  | extended hstored hrun =>
    obtain ⟨c, undo, c', hextends⟩ := Action.extendChain_eq_ok hrun
    obtain ⟨link, hprev, hwall, -, htracks, hledger⟩ := h.extend hids hextends hstored hK
    exact ⟨link :: links, .extend hprev hwall htracks.header hledger, htracks⟩
  | extendThrew hstored hrun =>
    obtain ⟨db₁, hfails, hsame⟩ := Action.extendChain_outcome.of_error hrun
    obtain ⟨hhead, htracks⟩ := h.extendThrew hids hstored hfails
    have hrest := hsame.rest
    refine ⟨links, .stay ⟨?_, ?_, ?_⟩, htracks.marked hsame⟩
    · rw [hrest]
      exact hhead.ledger
    · rw [hrest]
      exact hhead.id
    · rw [hrest]
      exact hhead.header
  | popped hrun =>
    rcases Action.popBlock_outcome.of_ok hrun with ⟨-, rfl⟩ | ⟨-, undo, c', header, hpops⟩
    · exact ⟨links, .stay ⟨rfl, rfl, rfl⟩, h⟩
    · exact h.popped hids hpops hK
  | popThrew hrun =>
    obtain ⟨hnum, hfails⟩ := Action.popBlock_outcome.of_error hrun
    exact h.popThrew hfails hnum hK

/-! ### Runs -/

variable {config : GenesisBlockConfig}

theorem tracks_genesis (hgenesis : initializeGenesis crypto config = .ok db) :
    Tracks crypto P K db.ledger db [] := by
  obtain ⟨hwell, hseed⟩ := initializeGenesis_wellFormed hgenesis
  have hhead := initializeGenesis_head hgenesis
  have hheader : db.headBlockHeader = {} := by rw [hhead]
  refine ⟨⟨by rw [hhead]; rfl, Or.inl hheader, ?_, hwell, Agrees.refl _, fun h => h, 0, hseed⟩,
    .nil, fun _ h => absurd h List.not_mem_nil, ?_, fun _ h => absurd h List.not_mem_nil,
    fun id header hid => ?_, fun id b hb => ?_⟩
  · rw [hheader]
    exact ⟨by decide, by decide, by decide⟩
  · rw [hhead]
    exact Table.getElem?_empty' _
  · rw [hhead] at hid
    cases (Table.getElem?_empty' _).symm.trans hid
  · rw [hhead] at hb
    cases (Table.getElem?_empty' _).symm.trans hb

/-- **Invariant rule.** A property of databases with their path that holds at genesis and is
kept by every move holds in every state of a run. -/
theorem RunOf.along {J : Database → List (Link crypto) → Prop} (hids : crypto.IdealIds)
    (genesis : ∀ g, initializeGenesis crypto config = .ok g → J g [])
    (verify : ∀ db links, J db links → J db.verifySignatures links)
    (step : ∀ g, initializeGenesis crypto config = .ok g →
      ∀ wall db links db' links', Tracks crypto P K g.ledger db links → J db links →
        Moves crypto K wall db links db' links' → Tracks crypto P K g.ledger db' links' →
        J db' links')
    (h : RunOf crypto config P K db) :
    ∃ g, initializeGenesis crypto config = .ok g ∧ ∃ links, Tracks crypto P K g.ledger db links ∧
      J db links := by
  refine h.invariant (I := fun db => ∃ g, initializeGenesis crypto config = .ok g ∧
    ∃ links, Tracks crypto P K g.ledger db links ∧ J db links) (fun db hdb => ?_) ?_ ?_
  · exact ⟨db, hdb, [], tracks_genesis hdb, genesis db hdb⟩
  · rintro db ⟨g, hg, links, htracks, hJ⟩
    refine ⟨g, hg, links, ⟨htracks.toAt.same ⟨rfl, rfl, rfl⟩, htracks.linked, htracks.undo,
      htracks.undoZero, htracks.records, htracks.recordIds, htracks.data⟩, verify db links hJ⟩
  · rintro wall b ev db db' hrange hP ⟨g, hg, links, htracks, hJ⟩ hstep hK
    obtain ⟨links', hmoves, htracks'⟩ := htracks.step hids hP hrange hstep hK
    exact ⟨g, hg, links', htracks', step g hg wall db links db' links' htracks hJ hmoves htracks'⟩

/-- A run follows a path. -/
theorem RunOf.tracks (hids : crypto.IdealIds) (h : RunOf crypto config P K db) :
    ∃ g, initializeGenesis crypto config = .ok g ∧ ∃ links, Tracks crypto P K g.ledger db links := by
  obtain ⟨g, hg, links, htracks, -⟩ := h.along (J := fun _ _ => True) hids (fun _ _ => trivial)
    (fun _ _ _ => trivial) fun _ _ _ _ _ _ _ _ _ _ _ => trivial
  exact ⟨g, hg, links, htracks⟩

end Database

end LarkX
