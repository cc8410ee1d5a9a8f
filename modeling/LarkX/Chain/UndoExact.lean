import LarkX.Chain.GenesisNames
import LarkX.Chain.Index

/-!
# Undoing a block

An extension keeps the undo state of its block, and applying it gives back the ledger the block
was accepted on (`Database.LeadsBack`): every record and property, and the indexes of account
names and votes. The undo state is kept because the block that leaves the undo window is on the
path to the head (`OnPath`) and the new one is not yet; the indexes come back because they are
exact all along, which they are from a genesis with distinct names on
(`Visited.leadsBack`). With two genesis accounts of one name the index of names comes back with the
other account (`namesake_not_restored`).
-/

namespace LarkX

open ChainInterface Ledger

/-- What an undo gives back: what `Agrees` compares, and the indexes of accounts. -/
structure Ledger.Restored (before after : Ledger) : Prop extends Agrees before after where
  accountIndex : after.accountIndex = before.accountIndex
  delegateVoteIndex : after.delegateVoteIndex = before.delegateVoteIndex

namespace Database

open LarkX.Action

/-- The undo state of the head of `db'` is kept, and applying it gives the ledger of `db` back. -/
def LeadsBack (crypto : Crypto) (db db' : Database) : Prop :=
  ∃ undo, db'.undoStateDb[db'.headBlockId]? = some undo ∧ ∀ wall, ∃ c,
    applyOverlay crypto undo (db'.chain wall) = .ok c ∧ Restored db.ledger c.db

/-- Every block in the index of numbers is on the path, under its own number. -/
def OnPath (crypto : Crypto) (db : Database) (ids : List BlockId) : Prop :=
  ∀ (n : ℕ) (id : BlockId), db.blockNumToIdDb[n]? = some id →
    id ∈ ids ∧ ∀ header, crypto.blockId header = id → header.blockNum = n

variable {crypto : Crypto} {config : GenesisBlockConfig} {P : FullBlock → Prop}
  {K : Database → Event → Prop} {genesis : Ledger} {links : List (Link crypto)}
  {db db' : Database} {ids : List BlockId}

/-! ### The index of numbers -/

theorem OnPath.mono (h : OnPath crypto db ids)
    (hindex : ∀ (n : ℕ) (id : BlockId), db'.blockNumToIdDb[n]? = some id →
      db.blockNumToIdDb[n]? = some id) : OnPath crypto db' ids :=
  fun n id hid => h n id (hindex n id hid)

/-- A new head is indexed. -/
theorem OnPath.extend (hids : crypto.IdealIds) (h : OnPath crypto db ids) {b : FullBlock}
    (hindex : db'.blockNumToIdDb =
      db.blockNumToIdDb.insert b.blockNum (crypto.blockId b.toSignedBlockHeader)) :
    OnPath crypto db' (crypto.blockId b.toSignedBlockHeader :: ids) := by
  intro n id hid
  rw [hindex, Table.getElem?_insert] at hid
  split at hid
  · rename_i hn
    cases hid
    exact ⟨List.mem_cons_self, fun header heq => by rw [hids.inj _ _ heq, hn]⟩
  · obtain ⟨hmem, hnum⟩ := h n id hid
    exact ⟨List.mem_cons_of_mem _ hmem, hnum⟩

/-- The number of the head is taken off the index with the head. -/
theorem OnPath.pop {header : SignedBlockHeader}
    (h : OnPath crypto db (crypto.blockId header :: ids))
    (hindex : db'.blockNumToIdDb = db.blockNumToIdDb.erase header.blockNum) :
    OnPath crypto db' ids := by
  intro n id hid
  rw [hindex, Table.getElem?_erase] at hid
  split at hid
  · cases hid
  · rename_i hne
    obtain ⟨hmem, hnum⟩ := h n id hid
    rcases List.mem_cons.1 hmem with rfl | hmem
    · exact absurd (hnum header rfl).symm hne
    · exact ⟨hmem, hnum⟩

/-- After a pop, however it ends, the database is at the parent. -/
theorem Tracks.popped_onPath (hids : crypto.IdealIds) {link : Link crypto}
    (h : Tracks crypto P K genesis db (link :: links))
    (honpath : OnPath crypto db ((link :: links).map Link.id)) {links' : List (Link crypto)}
    (h' : Tracks crypto P K genesis db' links')
    (hhead : db'.headBlockId = db.headBlockHeader.previous)
    (hindex : db'.blockNumToIdDb = db.blockNumToIdDb.erase db.headBlockNum) :
    OnPath crypto db' (links'.map Link.id) := by
  obtain ⟨hheader, -, hprevious⟩ := h.header_cons
  cases h.linked with
  | cons hrest _ _ _ _ _ =>
    have hsame : links'.map Link.id = links.map Link.id := by
      refine h'.linked.unique hids hrest ?_
      rw [← h'.id, hhead, hprevious]
    rw [hsame]
    have hnamed : OnPath crypto db
        (crypto.blockId link.block.toSignedBlockHeader :: links.map Link.id) := honpath
    refine hnamed.pop ?_
    rw [hindex, headBlockNum, hheader]

/-- **Every step** keeps the index on the path. -/
theorem Tracks.onPath (hids : crypto.IdealIds) (h : Tracks crypto P K genesis db links)
    (honpath : OnPath crypto db (links.map Link.id)) {wall : ℕ} {b : FullBlock} {ev : Event}
    (hP : P b) (hrange : b.InRange) (hstep : Step crypto wall b db ev db') (hK : K db ev) :
    ∃ links', Tracks crypto P K genesis db' links' ∧ OnPath crypto db' (links'.map Link.id) := by
  obtain ⟨links', -, h'⟩ := h.step hids hP hrange hstep hK
  have herased : ∀ {db₁ : Database}, db₁.blockNumToIdDb = db.blockNumToIdDb.erase db.headBlockNum →
      OnPath crypto db₁ (links.map Link.id) := by
    intro db₁ hindex
    refine honpath.mono fun n id hid => ?_
    rw [hindex, Table.getElem?_erase] at hid
    split at hid
    · cases hid
    · exact hid
  cases hstep with
  | stored hindexes =>
    refine ⟨links, h.store hP hrange hindexes, honpath.mono fun n id hid => ?_⟩
    rw [hindexes.rest] at hid
    exact hid
  | marked hsame =>
    refine ⟨links, h.marked hsame, honpath.mono fun n id hid => ?_⟩
    rw [hsame.rest] at hid
    exact hid
  | @extended _ id next hstored hrun =>
    obtain ⟨c, undo, c', hextends⟩ := extendChain_eq_ok hrun
    obtain ⟨link, -, -, hblock, htracks, -⟩ := h.extend hids hextends hstored hK
    obtain ⟨fork, undoStateDb, -, -, rfl⟩ := hextends.result
    have hid : link.id = crypto.blockId next.toSignedBlockHeader := by rw [Link.id, hblock]
    refine ⟨link :: links, htracks, ?_⟩
    rw [List.map_cons, hid]
    exact honpath.extend hids rfl
  | extendThrew hstored hrun =>
    obtain ⟨db₁, hfails, hsame⟩ := extendChain_outcome.of_error hrun
    obtain ⟨-, h₁⟩ := h.extendThrew hids hstored hfails
    refine ⟨links, h₁.marked hsame, honpath.mono fun n id hid => ?_⟩
    rw [hsame.rest] at hid
    cases hfails <;> exact hid
  | popped hrun =>
    rcases popBlock_outcome.of_ok hrun with ⟨-, rfl⟩ | ⟨-, undo, c', header, hpops⟩
    · exact ⟨links, h, honpath⟩
    · obtain ⟨fork, -, rfl⟩ := hpops.result
      cases links with
      | nil =>
        have hstored := hpops.stored
        rw [show db.headBlockId = 0 from h.id, h.undoZero] at hstored
        cases hstored
      | cons link links => exact ⟨links', h', h.popped_onPath hids honpath h' rfl rfl⟩
  | popThrew hrun =>
    obtain ⟨-, hfails⟩ := popBlock_outcome.of_error hrun
    cases hfails with
    | unknown => exact ⟨links, h, honpath⟩
    | noUndo _ _ =>
      exact ⟨links, h.stay ⟨rfl, rfl, rfl⟩ (fun _ _ _ hu => hu) h.undoZero rfl rfl
        fun _ hfork => Action.insert_known hfork, herased rfl⟩
    | unapplied _ hundo happly =>
      cases links with
      | nil =>
        rw [show db.headBlockId = 0 from h.id, h.undoZero] at hundo
        cases hundo
      | cons link links =>
        rw [h.header_cons.2.1] at hundo
        rw [h.undo_applied hundo wall] at happly
        cases happly
    | noHeader _ hundo _ _ =>
      cases links with
      | nil =>
        rw [show db.headBlockId = 0 from h.id, h.undoZero] at hundo
        cases hundo
      | cons link links => exact ⟨links', h', h.popped_onPath hids honpath h' rfl rfl⟩

/-- The path of a visited database has all blocks of the index on it. -/
theorem Visited.onPath (hids : crypto.IdealIds) (h : Visited crypto config db) :
    ∃ g, initializeGenesis crypto config = .ok g ∧ ∃ links,
      Tracks crypto (fun _ => True) (fun _ _ => True) g.ledger db links ∧
        OnPath crypto db (links.map Link.id) := by
  obtain ⟨db₀, wall, b, hreachable, hrange, hsteps⟩ := h
  obtain ⟨g, hg, hstart⟩ := hreachable.runOf.invariant
    (I := fun db => ∃ g, initializeGenesis crypto config = .ok g ∧ ∃ links,
      Tracks crypto (fun _ => True) (fun _ _ => True) g.ledger db links ∧
        OnPath crypto db (links.map Link.id))
    (fun db hdb => ⟨db, hdb, [], tracks_genesis hdb, fun n id hid => by
      rw [initializeGenesis_head hdb] at hid
      cases (Table.getElem?_empty' n).symm.trans hid⟩)
    (fun db ⟨g, hg, links, htracks, honpath⟩ => ⟨g, hg, links, ⟨htracks.toAt.same ⟨rfl, rfl, rfl⟩,
      htracks.linked, htracks.undo, htracks.undoZero, htracks.records, htracks.recordIds,
      htracks.data⟩, honpath⟩)
    fun wall b ev db db' hrange _ ⟨g, hg, links, htracks, honpath⟩ hstep _ =>
      ⟨g, hg, htracks.onPath hids honpath trivial hrange hstep trivial⟩
  refine ⟨g, hg, ?_⟩
  clear hreachable
  induction hsteps with
  | refl => exact hstart
  | tail _ hstep ih =>
    obtain ⟨ev, hstep, -⟩ := hstep
    obtain ⟨links, htracks, honpath⟩ := ih
    exact htracks.onPath hids honpath trivial hrange hstep trivial

/-! ### Undoing the head -/

/-- A new undo state is not the one that leaves the window. -/
theorem KeepsUndo.stored {id : BlockId} {undo : Overlay} {t : Table BlockId Overlay}
    (h : db.KeepsUndo id undo t) (honpath : OnPath crypto db ids) (hfresh : id ∉ ids) :
    t[id]? = some undo := by
  cases h with
  | all _ => exact Table.getElem?_insert_same ..
  | @window oldId _ hold =>
    have hne : id ≠ oldId := fun heq => hfresh (heq ▸ (honpath _ _ hold).1)
    rw [Table.getElem?_erase_of_ne _ hne, Table.getElem?_insert_same]

/-- **An extension can be undone** when the indexes of accounts are exact. -/
theorem Tracks.extension_leadsBack (hids : crypto.IdealIds) (h : Tracks crypto P K genesis db links)
    (honpath : OnPath crypto db (links.map Link.id)) (hregistered : genesis.Registered) {wall : ℕ}
    {b : FullBlock} (hrange : b.InRange) (hrun : (extendChain crypto wall b).run db = .ok () db') :
    LeadsBack crypto db db' := by
  obtain ⟨c, undo, c', hextends⟩ := extendChain_eq_ok hrun
  obtain ⟨link, rfl, rfl, rfl, rfl, hfits⟩ := h.toAt.link hextends.evaluated
  have hreg : link.prev.ledger.Registered := h.registered hregistered
  have hfresh : link.id ∉ links.map Link.id :=
    h.linked.fresh hids ((previous_of_evaluated link.evaluated).trans h.id)
  have hgate : atOrAfterFork25 link.prev.headBlockNum = false := h.sane.gate
  have happlied := hextends.applied
  change applyOverlay crypto link.changes ⟨[], link.prev.ledger, link.prev.now link.wall,
    link.prev.headBlockNum⟩ = _ at happlied
  rw [applyOverlay_ledger link.prev.ledger hgate hfits.named] at happlied
  obtain rfl := (Except.ok.inj happlied).symm
  obtain ⟨fork, undoStateDb, -, hkeeps, rfl⟩ := hextends.result
  -- the ledger after the block is well-formed and registered, and agrees with `link.after`
  have hat : At crypto P K genesis (link :: links) ((link.prev.advanced crypto link.block link.after
      fork undoStateDb).purged link.wall) := h.toAt.advance link rfl hfits hrange rfl rfl rfl
  have hundoes : Undoes crypto undo link.prev.ledger link.after :=
    h.wellFormed.undoes hfits hextends.undone fun hreg =>
      evaluateBlock_registers h.wellFormed hreg link.evaluated
  refine ⟨undo, hkeeps.stored honpath hfresh, fun wall' => ⟨_, applyOverlay_ledger _ hat.sane.gate
    hundoes.fits.named, ?_⟩⟩
  have hagrees := hundoes.agrees _ (Database.now ((link.prev.advanced crypto link.block link.after
    fork undoStateDb).purged link.wall) wall') hat.wellFormed hat.agrees
  have hback := hundoes.registered _ (Database.now ((link.prev.advanced crypto link.block link.after
    fork undoStateDb).purged link.wall) wall') (hat.registered hregistered) hat.agrees hreg
  obtain ⟨hnames, hvotes⟩ := hreg.indexed.ext hback.indexed hagrees.accounts
  exact { hagrees with accountIndex := hnames, delegateVoteIndex := hvotes }

/-- **Undo is exact on the ledger** when the genesis accounts have distinct names: in every state
of a run and for every block that extends the chain there, the undo state of the block is kept and
gives the ledger back. -/
theorem Visited.leadsBack (hids : crypto.IdealIds) (hdistinct : config.DistinctNames)
    (h : Visited crypto config db) {wall : ℕ} {b : FullBlock} (hrange : b.InRange)
    (hrun : (extendChain crypto wall b).run db = .ok () db') : LeadsBack crypto db db' := by
  obtain ⟨g, hg, links, htracks, honpath⟩ := h.onPath hids
  exact htracks.extension_leadsBack hids honpath (initializeGenesis_registered hdistinct hg) hrange
    hrun

/-! ### Two genesis accounts of one name -/

/-- The database when the block has been stored and nothing else has been done with it. -/
def stored (crypto : Crypto) (wall : ℕ) (b : FullBlock) (db : Database) : Database :=
  match (storeAndIndex wall (crypto.blockId b.toSignedBlockHeader) b).run db with
  | .ok _ db' => db'
  | .error _ db' => db'

theorem stored_indexes (crypto : Crypto) (wall : ℕ) (b : FullBlock) (db : Database) :
    Indexes crypto b db (db.stored crypto wall b) := by
  unfold Database.stored
  split
  · rename_i hrun
    exact (storeAndIndex_indexes wall b db).of_ok hrun
  · rename_i hrun
    exact (storeAndIndex_indexes wall b db).of_error hrun

theorem Reachable.stored (h : Reachable crypto config db) (wall : ℕ) {b : FullBlock}
    (hrange : b.InRange) : Visited crypto config (db.stored crypto wall b) :=
  ⟨db, wall, b, h, hrange, (Step.stored (stored_indexes crypto wall b db)).steps⟩

/-- The account the index has under a name after a block has extended the chain and its undo state
has been applied. -/
def undoneName (crypto : Crypto) (wall : ℕ) (b : FullBlock) (name : Name) (db : Database) :
    Option ℤ :=
  match (extendChain crypto wall b).run db with
  | .ok _ db' => do
    let undo ← db'.undoStateDb[db'.headBlockId]?
    let c ← (applyOverlay crypto undo (db'.chain wall)).toOption
    c.db.accountIndex[name]?
  | .error _ _ => none

theorem LeadsBack.undoneName {wall : ℕ} {b : FullBlock}
    (hrun : (extendChain crypto wall b).run db = .ok () db') (h : LeadsBack crypto db db')
    (name : Name) : db.undoneName crypto wall b name = db.ledger.accountIndex[name]? := by
  obtain ⟨undo, hundo, hback⟩ := h
  obtain ⟨c, happly, hrestored⟩ := hback wall
  simp only [Database.undoneName, hrun, hundo, Option.bind_eq_bind, Option.bind_some]
  rw [happly, ← hrestored.accountIndex]
  rfl

/-- The small configuration with one name for all delegates. -/
def namesakeConfig : GenesisBlockConfig :=
  { smallConfig with names := smallConfig.names.map fun name =>
      { name with name := "delegate".toList } }

/-- Its genesis state. -/
def namesakeGenesis : Database :=
  (initializeGenesis .transparent namesakeConfig).toOption.getD {}

theorem initialize_namesakeGenesis :
    initializeGenesis .transparent namesakeConfig = .ok namesakeGenesis := by
  obtain ⟨db, hdb⟩ := exists_eq_ok (x := initializeGenesis .transparent namesakeConfig)
    (by decide +kernel)
  rw [namesakeGenesis, hdb]
  rfl

/-- A first block without transactions. -/
def namesakeBlock : FullBlock :=
  namesakeGenesis.blockOn 1 20 []

/-- The state in which that block extends the chain. -/
def namesakeStored : Database :=
  namesakeGenesis.stored .transparent 100 namesakeBlock

set_option maxRecDepth 100000 in
/-- **The name comes back with another account**: at genesis the index has the last delegate under
the name of all of them, and after the block has been undone the delegate who signed it. -/
theorem namesake_not_restored : Visited .transparent namesakeConfig namesakeStored ∧
    ∃ db', (extendChain .transparent 100 namesakeBlock).run namesakeStored = .ok () db' ∧
      ¬LeadsBack .transparent namesakeStored db' := by
  refine ⟨(Reachable.genesis initialize_namesakeGenesis).stored 100 (by decide +kernel), ?_⟩
  have hundone : namesakeStored.undoneName .transparent 100 namesakeBlock "delegate".toList =
      some 3 := by decide +kernel
  have hindexed : namesakeStored.ledger.accountIndex["delegate".toList]? = some 101 := by
    decide +kernel
  cases hrun : (extendChain .transparent 100 namesakeBlock).run namesakeStored with
  | error e db' =>
    rw [undoneName, hrun] at hundone
    cases hundone
  | ok _ db' =>
    refine ⟨db', rfl, fun h => ?_⟩
    rw [h.undoneName hrun, hindexed] at hundone
    cases hundone

/-- The state in which the first block of the small chain extends it. -/
def smallStored : Database :=
  smallGenesis.stored .transparent 100 (smallGenesis.blockOn 1 20 [])

set_option maxRecDepth 100000 in
/-- The first block of the small chain can be undone. -/
theorem smallStored_leadsBack :
    ∃ db', (extendChain .transparent 100 (smallGenesis.blockOn 1 20 [])).run smallStored =
      .ok () db' ∧ LeadsBack .transparent smallStored db' := by
  have hname : (smallStored.undoneName .transparent 100 (smallGenesis.blockOn 1 20 [])
      ['d', '0']).isSome = true := by decide +kernel
  cases hrun : (extendChain .transparent 100 (smallGenesis.blockOn 1 20 [])).run smallStored with
  | error e db' =>
    rw [undoneName, hrun] at hname
    cases hname
  | ok _ db' =>
    exact ⟨db', rfl, Visited.leadsBack idealIds_transparent (by decide +kernel)
      (reachable_smallGenesis.stored 100 (by decide +kernel)) (by decide +kernel) hrun⟩

end Database

end LarkX
