import LarkX.Chain.Headers

/-!
# The index of the chain

The chain database finds a block of the chain by its number, and knows of every block whether it
is included in the chain. `Holds` says that both are right for a list of ids, block 1 first.
Every state of a run holds its chain (`RunOf.holds`), when the first block calls itself number 1
and no later one does, and when a head that is popped still has its undo state: `pop_block`
takes the head off the index before it looks for that state.
-/

namespace LarkX

open ChainInterface Ledger

namespace Database

open LarkX.Action

/-- The ids of the chain, block 1 first: the index, the flags and the stored blocks say so. -/
structure Holds (crypto : Crypto) (db : Database) (chain : List BlockId) : Prop where
  head : chain ≠ [] → db.headBlockNum = chain.length ∧ some db.headBlockId = chain.getLast?
  bound : chain.length < 2 ^ 32
  index : ∀ i : ℕ, db.blockNumToIdDb[i + 1]? = chain[i]?
  unnumbered : db.blockNumToIdDb[0]? = none
  included : ∀ id : BlockId, db.isIncludedBlock id = true ↔ id = 0 ∨ id ∈ chain
  recorded : ∀ (i : ℕ) (id : BlockId), chain[i]? = some id →
    ∃ b, db.blockIdToBlockDataDb[id]? = some b ∧
      db.blockIdToBlockRecordDb[id]? = some b.toSignedBlockHeader ∧
      crypto.blockId b.toSignedBlockHeader = id ∧ b.blockNum = i + 1 ∧
      (0 :: chain)[i]? = some b.previous
  nonzero : (0 : BlockId) ∉ chain

/-- A first block calls itself number 1 and a later one by a higher number, and a head that is
popped has its undo state. -/
def IndexKept (db : Database) : Event → Prop
  | .tree => True
  | .extend _ b => FirstIsOne b
  | .pop => db.undoStateDb[db.headBlockId]? ≠ none

variable {crypto : Crypto} {config : GenesisBlockConfig} {P : FullBlock → Prop}
  {K K' : Database → Event → Prop} {genesis : Ledger} {links links' : List (Link crypto)}
  {db db' : Database}

/-! ### Paths -/

theorem At.mono (hK : ∀ db ev, K db ev → K' db ev) (h : At crypto P K genesis links db) :
    At crypto P K' genesis links db := by
  refine ⟨h.id, ?_, h.sane, h.wellFormed, h.agrees, h.registered, h.seed⟩
  have hheader := h.header
  cases links with
  | cons link links => exact hheader
  | nil =>
    refine Or.imp_right ?_ hheader
    rintro ⟨hprevious, hnum, hblock, db', hdb', hpop⟩
    exact ⟨hprevious, hnum, hblock, db', hdb', hK _ _ hpop⟩

/-- A path whose steps meet a condition meets a weaker one. -/
theorem Linked.mono (hK : ∀ db ev, K db ev → K' db ev) (h : Linked crypto P K genesis links) :
    Linked crypto P K' genesis links := by
  induction h with
  | nil => exact .nil
  | cons _ hprev hfresh hP hrange hextend ih =>
    exact .cons ih (hprev.mono hK) hfresh hP hrange (hK _ _ hextend)

/-- The blocks of a path are known by the id of its head. -/
theorem Linked.unique (hids : crypto.IdealIds) (h : Linked crypto P K genesis links)
    (h' : Linked crypto P K genesis links') (hhead : headIdOf crypto links = headIdOf crypto links') :
    links.map Link.id = links'.map Link.id := by
  induction h generalizing links' with
  | nil =>
    cases h' with
    | nil => rfl
    | cons _ _ _ _ _ _ => exact absurd hhead.symm (hids.ne_zero _)
  | @cons link rest _ hprev _ _ _ _ ih =>
    cases h' with
    | nil => exact absurd hhead (hids.ne_zero _)
    | @cons link' rest' hrest' hprev' _ _ _ _ =>
      have hblock : link.block.toSignedBlockHeader = link'.block.toSignedBlockHeader :=
        hids.inj _ _ hhead
      have hparent : headIdOf crypto rest = headIdOf crypto rest' := by
        rw [← hprev.id, ← hprev'.id, ← previous_of_evaluated link.evaluated,
          ← previous_of_evaluated link'.evaluated]
        exact congrArg (fun header : SignedBlockHeader => header.previous) hblock
      have hid : link.id = link'.id := hhead
      rw [List.map_cons, List.map_cons, hid, ih hrest' hparent]

/-- The blocks of a header chain are numbered from 1, and each names the one before it. -/
theorem HeaderChain.block (h : HeaderChain crypto genesis links) (i : ℕ) (link : Link crypto)
    (hlink : links.reverse[i]? = some link) : link.block.blockNum = i + 1 ∧
      (0 :: (links.map Link.id).reverse)[i]? = some link.block.previous := by
  induction h with
  | nil => cases hlink
  | @cons last rest _ _ hnumber hprevious _ _ _ ih =>
    rw [List.map_cons, List.reverse_cons, ← List.cons_append, List.getElem?_append,
      List.length_cons, List.length_reverse, List.length_map]
    rw [List.reverse_cons, List.getElem?_append, List.length_reverse] at hlink
    split at hlink
    · rw [if_pos (by omega)]
      exact ih hlink
    · rename_i hge
      have hlast : i - rest.length = 0 := by
        by_contra hne
        rw [List.getElem?_singleton, if_neg hne] at hlink
        cases hlink
      rw [hlast] at hlink
      cases hlink
      have hi : i = rest.length := by omega
      rw [if_pos (by omega), hnumber, hprevious, hi]
      refine ⟨rfl, ?_⟩
      cases rest with
      | nil => rfl
      | cons parent rest =>
        rw [List.length_cons, List.getElem?_cons_succ, List.map_cons, List.reverse_cons,
          List.getElem?_append_right (by rw [List.length_reverse, List.length_map]),
          List.length_reverse, List.length_map, Nat.sub_self]
        rfl

/-! ### Steps -/

/-- The index and the flags of the blocks on a path, the ids of which are given head first. -/
structure Indexed (db : Database) (ids : List BlockId) : Prop where
  index : ∀ i : ℕ, db.blockNumToIdDb[i + 1]? = ids.reverse[i]?
  unnumbered : db.blockNumToIdDb[0]? = none
  included : ∀ id : BlockId, db.isIncludedBlock id = true ↔ id = 0 ∨ id ∈ ids
  data : ∀ id ∈ ids, db.blockIdToBlockDataDb[id]? ≠ none

theorem Indexed.same {ids : List BlockId} (h : Indexed db ids)
    (hindex : db'.blockNumToIdDb = db.blockNumToIdDb)
    (hincluded : ∀ id : BlockId, db'.isIncludedBlock id = db.isIncludedBlock id)
    (hdata : ∀ id : BlockId, db.blockIdToBlockDataDb[id]? ≠ none →
      db'.blockIdToBlockDataDb[id]? ≠ none) : Indexed db' ids := by
  refine ⟨fun i => ?_, ?_, fun id => ?_, fun id hid => hdata id (h.data id hid)⟩
  · rw [hindex]
    exact h.index i
  · rw [hindex]
    exact h.unnumbered
  · rw [hincluded]
    exact h.included id

/-- The chain is extended by a block. -/
theorem Indexed.extend {ids : List BlockId} {id : BlockId} {r : BlockForkData}
    (h : Indexed db ids)
    (hindex : db'.blockNumToIdDb = db.blockNumToIdDb.insert (ids.length + 1) id)
    (hforks : db'.forkDb = db.forkDb.insert id r) (hr : r.isIncluded = true)
    (hdata : db'.blockIdToBlockDataDb = db.blockIdToBlockDataDb)
    (hstored : db.blockIdToBlockDataDb[id]? ≠ none) : Indexed db' (id :: ids) := by
  refine ⟨fun i => ?_, ?_, fun id' => ?_, fun id' hid' => ?_⟩
  · rw [hindex, Table.getElem?_insert, List.reverse_cons, List.getElem?_append,
      List.length_reverse]
    rcases Nat.lt_trichotomy i ids.length with hlt | rfl | hgt
    · rw [if_neg (by omega), if_pos hlt]
      exact h.index i
    · rw [if_pos rfl, if_neg (Nat.lt_irrefl _), Nat.sub_self]
      rfl
    · rw [if_neg (by omega), if_neg (by omega), h.index i,
        List.getElem?_eq_none (by rw [List.length_reverse]; omega),
        List.getElem?_eq_none (by rw [List.length_singleton]; omega)]
  · rw [hindex, Table.getElem?_insert_of_ne _ _ (by omega)]
    exact h.unnumbered
  · rw [isIncludedBlock_insert hforks, List.mem_cons]
    split
    · rename_i heq
      exact iff_of_true hr (Or.inr (Or.inl heq))
    · rename_i hne
      rw [h.included id', or_iff_right hne]
  · rw [hdata]
    rcases List.mem_cons.1 hid' with rfl | hid'
    · exact hstored
    · exact h.data id' hid'

/-- The head is popped. -/
theorem Indexed.pop {ids : List BlockId} {id : BlockId} {r : BlockForkData}
    (h : Indexed db (id :: ids)) (hfresh : id ∉ ids) (hne : id ≠ 0)
    (hindex : db'.blockNumToIdDb = db.blockNumToIdDb.erase (ids.length + 1))
    (hforks : db'.forkDb = db.forkDb.insert id r) (hr : r.isIncluded = false)
    (hdata : db'.blockIdToBlockDataDb = db.blockIdToBlockDataDb) : Indexed db' ids := by
  refine ⟨fun i => ?_, ?_, fun id' => ?_, fun id' hid' => ?_⟩
  · have hold := h.index i
    rw [List.reverse_cons, List.getElem?_append, List.length_reverse] at hold
    rw [hindex, Table.getElem?_erase]
    split at hold
    · rename_i hlt
      rw [if_neg (by omega)]
      exact hold
    · rename_i hge
      rw [List.getElem?_eq_none (by rw [List.length_reverse]; omega)]
      split
      · rfl
      · rw [hold, List.getElem?_eq_none (by rw [List.length_singleton]; omega)]
  · rw [hindex, Table.getElem?_erase_of_ne _ (by omega)]
    exact h.unnumbered
  · rw [isIncludedBlock_insert hforks]
    split
    · rename_i heq
      rw [heq]
      refine iff_of_false (by rw [hr]; exact Bool.false_ne_true) ?_
      rintro (hzero | hmem)
      · exact hne hzero
      · exact hfresh hmem
    · rename_i hother
      rw [h.included id', List.mem_cons, or_iff_right (a := id' = id) hother]
  · rw [hdata]
    exact h.data id' (List.mem_cons_of_mem _ hid')

theorem onBlocks_of_indexKept (hkept : ∀ db ev, K db ev → IndexKept db ev) (db : Database)
    (ev : Event) (h : K db ev) : OnBlocks FirstIsOne db ev := by
  cases ev with
  | tree => trivial
  | extend wall b => exact hkept _ _ h
  | pop => trivial

/-- The number of the head of a path. -/
theorem Tracks.headNum (hids : crypto.IdealIds) (hkept : ∀ db ev, K db ev → IndexKept db ev)
    {link : Link crypto} (h : Tracks crypto P K genesis db (link :: links)) :
    db.headBlockNum = links.length + 1 := by
  have hchain := (h.linked.mono (onBlocks_of_indexKept hkept)).headerChain hids
  have hheader : db.headBlockHeader = link.block.toSignedBlockHeader := h.header
  rw [headBlockNum, hheader]
  cases hchain with
  | cons _ _ hnumber _ _ _ _ => exact hnumber

/-- After a pop, however it ends: the database is at the parent, and the head is off the index. -/
theorem Tracks.popped_index (hids : crypto.IdealIds)
    (hkept : ∀ db ev, K db ev → IndexKept db ev) {link : Link crypto} {r : BlockForkData}
    (h : Tracks crypto P K genesis db (link :: links))
    (hindexed : Indexed db ((link :: links).map Link.id)) {links' : List (Link crypto)}
    (h' : Tracks crypto P K genesis db' links')
    (hhead : db'.headBlockId = db.headBlockHeader.previous)
    (hindex : db'.blockNumToIdDb = db.blockNumToIdDb.erase db.headBlockNum)
    (hforks : db'.forkDb = db.forkDb.insert db.headBlockId r) (hr : r.isIncluded = false)
    (hdata : db'.blockIdToBlockDataDb = db.blockIdToBlockDataDb) :
    Indexed db' (links'.map Link.id) := by
  obtain ⟨-, hid, hprevious⟩ := h.header_cons
  cases h.linked with
  | cons hrest _ hfresh _ _ _ =>
    have hsame : links'.map Link.id = links.map Link.id := by
      refine h'.linked.unique hids hrest ?_
      rw [← h'.id, hhead, hprevious]
    rw [hsame]
    refine hindexed.pop hfresh (hids.ne_zero _) ?_ (hid ▸ hforks) hr hdata
    rw [hindex, h.headNum hids hkept, List.length_map]

/-- **Every step keeps the index.** -/
theorem Tracks.indexed (hids : crypto.IdealIds) (hkept : ∀ db ev, K db ev → IndexKept db ev)
    (h : Tracks crypto P K genesis db links) (hindexed : Indexed db (links.map Link.id)) {wall : ℕ}
    {b : FullBlock} {ev : Event} (hP : P b) (hrange : b.InRange)
    (hstep : Step crypto wall b db ev db') (hK : K db ev) :
    ∃ links', Tracks crypto P K genesis db' links' ∧ Indexed db' (links'.map Link.id) := by
  have hmarked : ∀ {db₁ db₂ : Database}, Tracks crypto P K genesis db₁ links →
      Indexed db₁ (links.map Link.id) → SameButForks db₁ db₂ →
      Tracks crypto P K genesis db₂ links ∧ Indexed db₂ (links.map Link.id) := by
    intro db₁ db₂ h₁ hindexed₁ hsame
    have hrest := hsame.rest
    refine ⟨h₁.marked hsame, hindexed₁.same (by rw [hrest]) hsame.included fun id hid => ?_⟩
    rw [hrest]
    exact hid
  obtain ⟨links', hmoves, h'⟩ := h.step hids hP hrange hstep hK
  cases hstep with
  | stored hindexes =>
    have hrest := hindexes.rest
    refine ⟨links, h.store hP hrange hindexes, hindexed.same (by rw [hrest]) hindexes.included
      fun id hid => ?_⟩
    rw [hrest]
    change (db.blockIdToBlockDataDb.insert _ _)[id]? ≠ none
    rw [Table.getElem?_insert]
    split
    · exact Option.some_ne_none _
    · exact hid
  | marked hsame => exact ⟨links, hmarked h hindexed hsame⟩
  | @extended _ id next hstored hrun =>
    obtain ⟨c, undo, c', hextends⟩ := Action.extendChain_eq_ok hrun
    obtain ⟨link, -, -, hblock, htracks, -⟩ := h.extend hids hextends hstored hK
    obtain ⟨fork, undoStateDb, -, -, rfl⟩ := hextends.result
    have hid : link.id = crypto.blockId next.toSignedBlockHeader := by rw [Link.id, hblock]
    have hnum := htracks.headNum hids hkept
    refine ⟨link :: links, htracks, hindexed.extend
      (r := { fork with isIncluded := true, isValid := some true }) ?_ ?_ rfl rfl ?_⟩
    · rw [List.length_map, ← hnum, hid]
      rfl
    · rw [hid]
      rfl
    · rw [hid, (h.data id next hstored).1, hstored]
      exact Option.some_ne_none _
  | extendThrew hstored hrun =>
    obtain ⟨db₁, hfails, hsame⟩ := Action.extendChain_outcome.of_error hrun
    obtain ⟨-, h₁⟩ := h.extendThrew hids hstored hfails
    refine ⟨links, hmarked h₁ ?_ hsame⟩
    cases hfails <;> exact hindexed.same rfl (fun _ => rfl) fun _ hid => hid
  | popped hrun =>
    rcases Action.popBlock_outcome.of_ok hrun with ⟨-, rfl⟩ | ⟨-, undo, c', header, hpops⟩
    · exact ⟨links, h, hindexed⟩
    · obtain ⟨fork, -, rfl⟩ := hpops.result
      cases links with
      | nil =>
        have hstored := hpops.stored
        rw [show db.headBlockId = 0 from h.id, h.undoZero] at hstored
        cases hstored
      | cons link links =>
        exact ⟨links', h', h.popped_index hids hkept hindexed h' rfl rfl rfl rfl rfl⟩
  | popThrew hrun =>
    obtain ⟨-, hfails⟩ := Action.popBlock_outcome.of_error hrun
    have hundo : db.undoStateDb[db.headBlockId]? ≠ none := hkept _ _ hK
    cases links with
    | nil =>
      rw [show db.headBlockId = 0 from h.id] at hundo
      exact absurd h.undoZero hundo
    | cons link links =>
      cases hfails with
      | unknown _ => exact ⟨_, h, hindexed⟩
      | noUndo _ hnone => exact absurd hnone hundo
      | unapplied _ hundo' happly =>
        rw [h.header_cons.2.1] at hundo'
        rw [h.undo_applied hundo' wall] at happly
        cases happly
      | noHeader _ _ _ _ =>
        exact ⟨links', h', h.popped_index hids hkept hindexed h' rfl rfl rfl rfl rfl⟩

/-! ### Runs -/

/-- A block on top of the head is stored and extends the chain. -/
theorem steps_on_head {wall : ℕ} {b : FullBlock} (htree : ∀ db, K db .tree)
    (hextend : ∀ db, K db (.extend wall b)) (hhead : b.previous = db.headBlockId) :
    Outcome (pushBlock crypto wall b) db (fun _ => Steps crypto K wall b db)
      (fun _ => Steps crypto K wall b db) := by
  have htail : ∀ {db₁ db₂ : Database} {ev : Event}, Steps crypto K wall b db db₁ →
      Step crypto wall b db₁ ev db₂ → K db₁ ev → Steps crypto K wall b db db₂ :=
    fun h hstep hK => h.tail ⟨_, hstep, hK⟩
  rw [pushBlock, Outcome.bind_iff, Outcome.get_iff, Outcome.bind_iff, outcome_lift]
  refine ⟨fun _ _ => ?_, fun _ _ => .refl⟩
  rw [Outcome.bind_iff]
  refine (storeAndIndex_indexes wall b db).mono (fun longest db₁ h₁ => ?_)
    fun _ _ h => htail .refl (.stored h) (htree _)
  have hsteps : Steps crypto K wall b db db₁ := htail .refl (.stored h₁) (htree _)
  rw [Outcome.bind_iff]
  refine (onForks_getBlockForkData _ db₁).mono (fun newForkData db₂ h₂ => ?_)
    fun _ _ h => htail hsteps (.marked h) (htree _)
  have hsteps₂ : Steps crypto K wall b db db₂ := htail hsteps (.marked h₂) (htree _)
  have hstored : db₂.blockIdToBlockDataDb[crypto.blockId b.toSignedBlockHeader]? = some b := by
    rw [h₂.rest, h₁.rest]
    exact Table.getElem?_insert_same ..
  rw [if_pos hhead, Outcome.bind_iff]
  refine .intro (fun _ db₃ hrun => ?_) fun _ db₃ hrun =>
    htail hsteps₂ (.extendThrew hstored hrun) (hextend _)
  have hsteps₃ := htail hsteps₂ (.extended hstored hrun) (hextend _)
  exact (onForks_getBlockForkData _ db₃).mono (fun _ _ h => htail hsteps₃ (.marked h) (htree _))
    fun _ _ h => htail hsteps₃ (.marked h) (htree _)

/-- A database without blocks. -/
theorem indexed_empty (ledger : Ledger) : Indexed
    { ledger, forkDb := (∅ : Table BlockId BlockForkData).insert 0 Genesis.genesisFork } [] := by
  refine ⟨fun i => Table.getElem?_empty' _, Table.getElem?_empty' _, fun id => ?_,
    fun id hid => absurd hid List.not_mem_nil⟩
  rw [@isIncludedBlock_insert {} _ _ _ rfl, or_iff_left List.not_mem_nil]
  split
  · rename_i hid
    exact iff_of_true rfl hid
  · rename_i hid
    refine iff_of_false ?_ hid
    rw [isIncludedBlock, Table.getElem?_empty']
    exact Bool.false_ne_true

theorem indexed_genesis (h : initializeGenesis crypto config = .ok db) : Indexed db [] := by
  simp only [initializeGenesis, bind_eq_ok, pure_eq_ok] at h
  obtain ⟨ledger, -, rfl⟩ := h
  exact indexed_empty ledger

/-- The number of a block on a path is small against its time. -/
theorem Tracks.bound (h : Tracks crypto P K genesis db links)
    (hnum : links ≠ [] → db.headBlockNum = links.length) : links.length < 2 ^ 32 := by
  cases links with
  | nil => exact Nat.two_pow_pos 32
  | cons link links =>
    have hsane := h.sane.number
    have hrange := h.sane.range
    have hlength := hnum (List.cons_ne_nil _ _)
    rw [headBlockNum] at hlength
    rw [hlength] at hsane
    simp only [btsBlockchainBlockIntervalSec] at hsane
    omega

/-- **Every state of a run holds its chain**, when the steps keep the index. -/
theorem RunOf.holds (hids : crypto.IdealIds) (h : RunOf crypto config P IndexKept db) :
    ∃ chain, Holds crypto db chain := by
  have hinvariant : ∃ g, initializeGenesis crypto config = .ok g ∧ ∃ links,
      Tracks crypto P IndexKept g.ledger db links ∧ Indexed db (links.map Link.id) := by
    refine h.invariant (I := fun db => ∃ g, initializeGenesis crypto config = .ok g ∧ ∃ links,
      Tracks crypto P IndexKept g.ledger db links ∧ Indexed db (links.map Link.id)) ?_ ?_ ?_
    · exact fun db hdb => ⟨db, hdb, [], tracks_genesis hdb, indexed_genesis hdb⟩
    · rintro db ⟨g, hg, links, htracks, hindexed⟩
      exact ⟨g, hg, links, ⟨htracks.toAt.same ⟨rfl, rfl, rfl⟩, htracks.linked, htracks.undo,
        htracks.undoZero, htracks.records, htracks.recordIds, htracks.data⟩,
        hindexed.same rfl (fun _ => rfl) fun _ hid => hid⟩
    · rintro wall b ev db db' hrange hP ⟨g, hg, links, htracks, hindexed⟩ hstep hK
      exact ⟨g, hg, htracks.indexed hids (fun _ _ h => h) hindexed hP hrange hstep hK⟩
  obtain ⟨g, -, links, htracks, hindexed⟩ := hinvariant
  have hchain := (htracks.linked.mono (onBlocks_of_indexKept fun _ _ h => h)).headerChain hids
  have hnum : links ≠ [] → db.headBlockNum = links.length := by
    intro hne
    cases links with
    | nil => exact absurd rfl hne
    | cons link links => exact htracks.headNum hids fun _ _ h => h
  refine ⟨(links.map Link.id).reverse, fun hne => ⟨?_, ?_⟩, ?_, hindexed.index,
    hindexed.unnumbered, fun id => ?_, fun i id hid => ?_, fun hzero => ?_⟩
  · rw [List.length_reverse, List.length_map]
    exact hnum (by rintro rfl; exact hne rfl)
  · rw [List.getLast?_reverse, htracks.id]
    cases links with
    | nil => exact absurd rfl hne
    | cons link links => rfl
  · rw [List.length_reverse, List.length_map]
    exact htracks.bound hnum
  · rw [hindexed.included, List.mem_reverse]
  · rw [← List.map_reverse, List.getElem?_map, Option.map_eq_some_iff] at hid
    obtain ⟨link, hlink, rfl⟩ := hid
    have hmem : link ∈ links := List.mem_reverse.1 (List.mem_of_getElem? hlink)
    have hrecord := htracks.records link hmem
    obtain ⟨b, hb⟩ := Option.ne_none_iff_exists'.1
      (hindexed.data link.id (List.mem_map.2 ⟨link, hmem, rfl⟩))
    have hbid := (htracks.data link.id b hb).1
    have hheader : b.toSignedBlockHeader = link.block.toSignedBlockHeader := hids.inj _ _ hbid
    refine ⟨b, hb, hheader ▸ hrecord, hbid, ?_⟩
    rw [hheader]
    exact hchain.block i link hlink
  · obtain ⟨link, -, hzero⟩ := List.mem_map.1 (List.mem_reverse.1 hzero)
    exact hids.ne_zero _ hzero

end Database

end LarkX
