import LarkX.Chain.ForkTree
import LarkX.Chain.Index
import LarkX.Chain.Ready

/-!
# Extending the chain is all or nothing

`extend_chain` evaluates a block in a pending state, saves its undo state, applies the changes and
moves the head. Every one of these steps may throw, and only the first leaves the database alone.
But once the block is evaluated the others return: what the undo state reads is there
(`getUndoState_returns`), the block that leaves the window of undo states is indexed, and the
changes can be applied. So an extension that throws has changed nothing but the flags of the fork
tree (`RunOf.extendChain_atomic`).
-/

namespace LarkX

open ChainInterface Ledger

namespace ChainInterface

variable {crypto : Crypto} {db : Ledger} {o : Overlay} {now n : ℕ}

/-- Reading at every key of a list, when every read returns. -/
private theorem foldlM_read_returns {κ α β σ : Type} {g : κ → Fallible β} {f : σ → κ → β → σ}
    {l : List (κ × α)} (hread : ∀ e ∈ l, ∃ v, g e.1 = .ok v) (s : σ) :
    ∃ s', l.foldlM (fun s e => do
      let v ← g e.1
      return f s e.1 v) s = .ok s' := by
  refine (foldlM_eq_ok (P := fun _ => True) (fun s e he _ => ?_) trivial).imp fun _ h => h.1
  obtain ⟨v, hv⟩ := hread e he
  exact ⟨f s e.1 v, bind_eq_ok.2 ⟨v, hv, rfl⟩, trivial⟩

/-- **The undo state** can be computed when every property it records is there and every
transaction is under its own id. -/
theorem getUndoState_returns (hready : db.toTables.Ready crypto)
    (hproperties : ∀ (p : ChainProperty) v, o.properties[p]? = some v →
      db.properties[p]? ≠ none) (now n : ℕ) :
    ∃ u, getUndoState crypto o ⟨[], db, now, n⟩ = .ok u := by
  obtain ⟨u₁, hu₁⟩ := foldlM_read_returns (f := Overlay.setProperty)
    (l := o.properties.toList) (g := getProperty ⟨[], db, now, n⟩) (fun e he => by
      obtain ⟨v, hv⟩ := Option.ne_none_iff_exists'.1
        (hproperties e.1 e.2 (Table.mem_toList.1 he))
      exact ⟨v, (getProperty_eq_ok _).2 hv⟩) {}
  have htransactions : ∀ u : Overlay, ∃ u', o.transactions.toList.foldlM (fun u e => do
      let prev ← getTransaction crypto ⟨[], db, now, n⟩ e.1
      return Overlay.storeTransactionRecord u e.1 (prev.getD {})) u = .ok u' := by
    refine foldlM_read_returns (f := fun u id r => Overlay.storeTransactionRecord u id (r.getD {}))
      (g := getTransaction crypto ⟨[], db, now, n⟩) fun e _ => ?_
    rw [getTransaction, getTransactionIn]
    cases hold : db.transactions[e.1]? with
    | none => exact ⟨none, rfl⟩
    | some old =>
      refine ⟨some old, bind_eq_ok.2 ⟨(), require_eq_ok.2 ?_, rfl⟩⟩
      exact (hready.named e.1 old hold).symm
  simp only [getUndoState, bind_eq_ok, pure_eq_ok]
  obtain ⟨u₂, hu₂⟩ := htransactions _
  exact ⟨_, u₁, hu₁, u₂, hu₂, rfl⟩

/-- The pending state of a block writes no property that the ledger lacks. -/
theorem evaluateBlock_properties (hdb : db.WellFormed crypto) (hready : db.toTables.Ready crypto)
    {wall : ℕ} {head : SignedBlockHeader} {headId : BlockId} {skip : Bool} {b : FullBlock}
    (h : evaluateBlock crypto ⟨[], db, now, n⟩ head headId skip wall b = .ok ⟨[o], db, now, n⟩) :
    ∀ (p : ChainProperty) v, o.properties[p]? = some v → db.properties[p]? ≠ none := by
  have hread : ∀ (p : ChainProperty) v, p.Reads v → db.properties[p]? ≠ none := by
    intro p v hp hnone
    obtain ⟨v', hget, -⟩ := hready.properties p v hp
    cases hnone.symm.trans hget
  have hinsert : ∀ {o : Overlay} {q : ChainProperty} (v' : Variant), db.properties[q]? ≠ none →
      (∀ (p : ChainProperty) v, o.properties[p]? = some v → db.properties[p]? ≠ none) →
      ∀ (p : ChainProperty) v, (o.properties.insert q v')[p]? = some v →
        db.properties[p]? ≠ none := by
    intro o q v' hq ho p v hv
    rw [Table.getElem?_insert] at hv
    split at hv
    · rename_i hp
      exact hp ▸ hq
    · exact ho p v hv
  obtain ⟨o', heq, ho'⟩ := evaluateBlock_invariant hdb.keyed
    (I := fun o => ∀ (p : ChainProperty) v, o.properties[p]? = some v → db.properties[p]? ≠ none)
    (fun p v hv => absurd ((Table.getElem?_empty' p).symm.trans hv) (Option.some_ne_none v).symm)
    (fun o w ho hw => by
      cases hw with
      | delegate _ _ _ | slot _ | transaction _ | asset _ _ => exact ho
      | confirmation required => exact hinsert _ (hread _ _ ⟨required, rfl⟩) ho
      | activeDelegates active => exact hinsert _ (hread _ _ ⟨active, rfl⟩) ho
      | randomSeed seed => exact hinsert _ (hread _ _ ⟨seed, rfl⟩) ho
      | market hdirty _ hw =>
        cases hw with
        | dirtyMarkets _ =>
          refine hinsert _ (fun hnone => ?_) ho
          -- without the property no market is dirty
          change (getDirtyMarkets ⟨[], db, now, n⟩)[_]? = some () at hdirty
          have hlookup : lookup ⟨[], db, now, n⟩ Tables.properties .dirtyMarkets = none := hnone
          rw [getDirtyMarkets, hlookup] at hdirty
          cases (Table.getElem?_empty' _).symm.trans hdirty
        | _ => exact ho
      | evaluation _ hw =>
        cases hw with
        | @newAccount last r _ _ _ _ => exact hinsert _ (hread .lastAccountId _ ⟨last, rfl⟩) ho
        | _ => exact ho) h
  cases heq
  exact ho'

end ChainInterface

namespace Database

open LarkX.Action

variable {crypto : Crypto} {config : GenesisBlockConfig} {db : Database} {P : FullBlock → Prop}
  {K : Database → Event → Prop} {links : List (Link crypto)}

/-- Every state of a run that keeps the index has followed a path, and has it indexed. -/
theorem RunOf.indexed (hids : crypto.IdealIds) (hkept : ∀ db ev, K db ev → IndexKept db ev)
    (h : RunOf crypto config P K db) : ∃ g, initializeGenesis crypto config = .ok g ∧ ∃ links,
      Tracks crypto P K g.ledger db links ∧ Indexed db (links.map Link.id) := by
  refine h.invariant (I := fun db => ∃ g, initializeGenesis crypto config = .ok g ∧ ∃ links,
    Tracks crypto P K g.ledger db links ∧ Indexed db (links.map Link.id)) ?_ ?_ ?_
  · exact fun db hdb => ⟨db, hdb, [], tracks_genesis hdb, indexed_genesis hdb⟩
  · rintro db ⟨g, hg, links, htracks, hindexed⟩
    exact ⟨g, hg, links, ⟨htracks.toAt.same ⟨rfl, rfl, rfl⟩, htracks.linked, htracks.undo,
      htracks.undoZero, htracks.records, htracks.recordIds, htracks.data⟩,
      hindexed.same rfl (fun _ => rfl) fun _ hid => hid⟩
  · rintro wall b ev db db' hrange hP ⟨g, hg, links, htracks, hindexed⟩ hstep hK
    exact ⟨g, hg, htracks.indexed hids hkept hindexed hP hrange hstep hK⟩

/-- The first block calls itself number 1 and no later one does, a head that is popped has its undo
state, and the first block is not popped. -/
def HeadKept (db : Database) : Event → Prop
  | .tree => True
  | .extend _ b => FirstIsOne b
  | .pop => db.undoStateDb[db.headBlockId]? ≠ none ∧ db.headBlockHeader.previous ≠ 0

theorem HeadKept.indexKept {ev : Event} (h : HeadKept db ev) : IndexKept db ev := by
  cases ev with
  | tree => trivial
  | extend wall b => exact h
  | pop => exact h.1

/-- The number of the head is the length of the path. -/
theorem Tracks.headBlockNum_eq {genesis : Ledger} (hids : crypto.IdealIds)
    (h : Tracks crypto P HeadKept genesis db links) : db.headBlockNum = links.length := by
  cases links with
  | cons link links => exact h.headNum hids fun _ _ => HeadKept.indexKept
  | nil =>
    rcases h.header with hheader | ⟨hprevious, -, -, db', hdb', hpop⟩
    · rw [headBlockNum, hheader]
      rfl
    · exact absurd (hdb' ▸ hprevious) hpop.2

/-- The block that leaves the window of undo states is indexed. -/
theorem Indexed.keepsUndo (h : Indexed db (links.map Link.id))
    (hnum : db.headBlockNum = links.length) (id : BlockId) (undo : Overlay) :
    ∃ undoStateDb, db.KeepsUndo id undo undoStateDb := by
  by_cases hleaves : db.LeavesWindow
  · have hage : ∃ i, db.undoAge = i + 1 ∧ i < (links.map Link.id).reverse.length := by
      obtain ⟨hpos, hlt⟩ := hleaves
      rw [List.length_reverse, List.length_map, ← hnum]
      -- below the window the age wraps around, to a number that is negative as a signed value
      have hage : db.undoAge = (db.headBlockNum + 2 ^ 32 - 404) % 2 ^ 32 := rfl
      exact ⟨db.undoAge - 1, by omega, by omega⟩
    obtain ⟨i, hi, hlt⟩ := hage
    exact ⟨_, .window hleaves (by rw [hi, h.index, List.getElem?_eq_getElem hlt])⟩
  · exact ⟨_, .all hleaves⟩

/-- The block evaluates on the head. -/
def Accepts (crypto : Crypto) (db : Database) (wall : ℕ) (b : FullBlock) : Prop :=
  ∃ c, evaluateBlock crypto (db.chain wall) db.headBlockHeader db.headBlockId
    db.skipSignatureVerification wall b = .ok c

/-- Once its block is evaluated, an extension by a stored block returns. -/
theorem Tracks.extends_of_accepts (hids : crypto.IdealIds) {genesis : Ledger}
    (hgenesis : genesis.toTables.Ready crypto) (h : Tracks crypto P HeadKept genesis db links)
    (hindexed : Indexed db (links.map Link.id)) {wall : ℕ} {b : FullBlock}
    (hfork : db.forkDb[crypto.blockId b.toSignedBlockHeader]? ≠ none)
    (haccepts : db.Accepts crypto wall b) :
    ∃ c undo c' db', Extends crypto wall b db c undo c' db' := by
  obtain ⟨c, hc⟩ := haccepts
  obtain ⟨link, -, -, -, rfl, hfits⟩ := h.toAt.link hc
  have hready : db.ledger.toTables.Ready crypto := h.agrees.ready (h.linked.ready hgenesis)
  obtain ⟨undo, hundo⟩ := getUndoState_returns hready
    (evaluateBlock_properties h.wellFormed hready hc) (db.now wall) db.headBlockNum
  obtain ⟨undoStateDb, hkeeps⟩ := hindexed.keepsUndo (h.headBlockNum_eq hids)
    (crypto.blockId b.toSignedBlockHeader) undo
  obtain ⟨fork, hfork⟩ := Option.ne_none_iff_exists'.1 hfork
  exact ⟨_, undo, _, _, ⟨hc, hundo⟩, applyOverlay_ledger db.ledger h.sane.gate hfits.named, fork,
    undoStateDb, hfork, hkeeps, rfl⟩

/-- An extension by a stored block returns when the block is accepted, and else changes nothing but
the fork tree. -/
theorem Tracks.outcome_extendChain (hids : crypto.IdealIds) {genesis : Ledger}
    (hgenesis : genesis.toTables.Ready crypto) (h : Tracks crypto P HeadKept genesis db links)
    (hindexed : Indexed db (links.map Link.id)) {b : FullBlock}
    (hfork : db.forkDb[crypto.blockId b.toSignedBlockHeader]? ≠ none) (wall : ℕ) :
    Outcome (extendChain crypto wall b) db
      (fun _ db' => db.Accepts crypto wall b ∧
        db'.headBlockId = crypto.blockId b.toSignedBlockHeader ∧
        db'.headBlockHeader = b.toSignedBlockHeader ∧
        db'.forkDb[crypto.blockId b.toSignedBlockHeader]? ≠ none)
      fun _ db' => ¬db.Accepts crypto wall b ∧ SameButForks db db' := by
  refine .intro (fun _ db' hrun => ?_) fun e db' hrun => ?_
  · obtain ⟨c, _, _, hextends⟩ := extendChain_eq_ok hrun
    obtain ⟨fork, undoStateDb, -, -, rfl⟩ := hextends.result
    refine ⟨⟨c, hextends.evaluated⟩, rfl, rfl, ?_⟩
    change (db.forkDb.insert _ _)[_]? ≠ none
    rw [Table.getElem?_insert_same]
    exact Option.some_ne_none _
  · have hrefused : ¬db.Accepts crypto wall b := by
      intro haccepts
      obtain ⟨_, _, _, db', hextends⟩ := h.extends_of_accepts hids hgenesis hindexed hfork haccepts
      cases hrun.symm.trans (extendChain_of_extends hextends)
    refine ⟨hrefused, ?_⟩
    obtain ⟨db₁, hfails, hforks⟩ := extendChain_outcome.of_error hrun
    cases hfails with
    | unevaluated => exact hforks
    | unindexed heval _ _ => exact absurd ⟨_, heval.evaluated⟩ hrefused
    | unapplied heval _ _ => exact absurd ⟨_, heval.evaluated⟩ hrefused
    | unknown heval _ _ _ => exact absurd ⟨_, heval.evaluated⟩ hrefused

/-- **Extending the chain is all or nothing.** In every run that keeps the index and never pops the
first block, the extension by a stored block returns exactly when the block evaluates, with the
block as the new head. When it throws, nothing has changed but the fork tree. -/
theorem RunOf.extendChain_atomic (hids : crypto.IdealIds)
    (h : RunOf crypto config P HeadKept db) {wall : ℕ} {b : FullBlock}
    (hfork : db.forkDb[crypto.blockId b.toSignedBlockHeader]? ≠ none) :
    ((∃ db', (extendChain crypto wall b).run db = .ok () db') ↔
      ∃ c, evaluateBlock crypto (db.chain wall) db.headBlockHeader db.headBlockId
        db.skipSignatureVerification wall b = .ok c) ∧
    (∀ db', (extendChain crypto wall b).run db = .ok () db' →
      db'.headBlockId = crypto.blockId b.toSignedBlockHeader ∧
        db'.headBlockHeader = b.toSignedBlockHeader) ∧
    ∀ e db', (extendChain crypto wall b).run db = .error e db' →
      db' = { db with forkDb := db'.forkDb } := by
  obtain ⟨g, hg, links, htracks, hindexed⟩ := h.indexed hids fun _ _ => HeadKept.indexKept
  have houtcome :=
    htracks.outcome_extendChain hids (initializeGenesis_ready hg) hindexed hfork wall
  refine ⟨⟨fun hreturns => ?_, fun haccepts => ?_⟩, fun db' hrun => ?_,
    fun e db' hrun => (houtcome.of_error hrun).2.rest⟩
  · obtain ⟨db', hrun⟩ := hreturns
    exact (houtcome.of_ok hrun).1
  · cases hrun : (extendChain crypto wall b).run db with
    | ok _ db' => exact ⟨db', rfl⟩
    | error e db' => exact absurd haccepts (houtcome.of_error hrun).1
  · obtain ⟨-, hid, hheader, -⟩ := houtcome.of_ok hrun
    exact ⟨hid, hheader⟩

set_option maxRecDepth 100000 in
/-- The small chain after one block, under every condition that allows to extend it. -/
theorem runOf_smallFirst_of {K : Database → Event → Prop} (htree : ∀ db, K db .tree)
    (hextend : ∀ db, K db (.extend 100 (smallGenesis.blockOn 1 20 []))) :
    RunOf .transparent smallConfig (fun _ => True) K smallFirst := by
  have hpush : Push .transparent 100 (smallGenesis.blockOn 1 20 []) smallGenesis smallFirst :=
    push_pushed (by decide +kernel)
  have hhead : (smallGenesis.blockOn 1 20 []).previous = smallGenesis.headBlockId := by
    decide +kernel
  have hsteps : Outcome (pushBlock .transparent 100 (smallGenesis.blockOn 1 20 [])) smallGenesis
      (fun _ => Steps .transparent K 100 (smallGenesis.blockOn 1 20 []) smallGenesis)
      (fun _ => Steps .transparent K 100 (smallGenesis.blockOn 1 20 []) smallGenesis) :=
    steps_on_head htree hextend hhead
  refine .push 100 _ (.genesis initialize_smallGenesis) (by decide +kernel) trivial hpush ?_
  cases hpush with
  | returned r hrun => exact hsteps.of_ok hrun
  | threw e _ hrun => exact hsteps.of_error hrun

set_option maxRecDepth 100000 in
/-- The first block cannot extend the small chain twice. -/
theorem extendChain_atomic_smallFirst : ∃ e db',
    (extendChain .transparent 100 (smallGenesis.blockOn 1 20 [])).run smallFirst = .error e db' ∧
      db' = { smallFirst with forkDb := db'.forkDb } := by
  have hkept : FirstIsOne (smallGenesis.blockOn 1 20 []) := by decide +kernel
  have hrun : RunOf .transparent smallConfig (fun _ => True) HeadKept smallFirst :=
    runOf_smallFirst_of (fun _ => trivial) fun _ => hkept
  have hthrows : returns (extendChain .transparent 100 (smallGenesis.blockOn 1 20 [])) smallFirst =
      false := by decide +kernel
  have hfork : smallFirst.forkDb[Crypto.transparent.blockId
      (smallGenesis.blockOn 1 20 []).toSignedBlockHeader]? ≠ none := by decide +kernel
  obtain ⟨e, db', hthrew⟩ := exists_of_not_returns hthrows
  obtain ⟨-, -, hsame⟩ := RunOf.extendChain_atomic idealIds_transparent hrun hfork
  exact ⟨e, db', hthrew, hsame e db' hthrew⟩

/-! ### A push onto the head -/

/-- Storing a block that the tree does not know does not throw. -/
theorem storeAndIndex_fresh (hseed : SeedReadable db) {b : FullBlock}
    (hnew : db.forkDb[crypto.blockId b.toSignedBlockHeader]? = none)
    (hprevious : b.previous ≠ crypto.blockId b.toSignedBlockHeader) (wall : ℕ) :
    Outcome (storeAndIndex wall (crypto.blockId b.toSignedBlockHeader) b) db
      (fun _ => Indexes crypto b db) fun _ _ => False := by
  refine .intro (fun _ _ hrun => (storeAndIndex_indexes wall b db).of_ok hrun) fun _ _ hrun => ?_
  have hreturns : Outcome (storeAndIndex wall (crypto.blockId b.toSignedBlockHeader) b) db
      (fun _ _ => True) fun _ _ => False := by
    rw [storeAndIndex, Outcome.bind_iff]
    refine (storeBlock_forks hseed wall b).mono (fun _ db₁ h => ?_) fun _ _ h => h
    have hnone : (db₁.forkDb.insert b.previous (prevForkData db₁
        (crypto.blockId b.toSignedBlockHeader) b))[crypto.blockId b.toSignedBlockHeader]? =
          none := by
      rw [Table.getElem?_insert_of_ne _ _ hprevious.symm, h.1]
      exact hnew
    rw [Outcome.bind_iff, Outcome.get_iff, Outcome.bind_iff, storeFork, Outcome.modify_iff,
      indexBlock, Outcome.bind_iff, Outcome.get_iff, hnone]
    dsimp only
    rw [Outcome.bind_iff, storeFork, Outcome.modify_iff, Outcome.pure_iff]
    trivial
  exact hreturns.of_error hrun

/-- A new block on the head is pushed exactly when it is accepted, and stored either way. -/
theorem Tracks.outcome_pushBlock (hids : crypto.IdealIds) {genesis : Ledger}
    (hgenesis : genesis.toTables.Ready crypto) (h : Tracks crypto P HeadKept genesis db links)
    (hindexed : Indexed db (links.map Link.id)) {wall : ℕ} {b : FullBlock} (hP : P b)
    (hrange : b.InRange) (hprevious : b.previous = db.headBlockId)
    (hnumber : b.blockNum = db.headBlockNum + 1)
    (hnew : db.forkDb[crypto.blockId b.toSignedBlockHeader]? = none) :
    Outcome (pushBlock crypto wall b) db
      (fun _ db' => db.Accepts crypto wall b ∧
        db'.headBlockId = crypto.blockId b.toSignedBlockHeader ∧
        db'.headBlockHeader = b.toSignedBlockHeader)
      fun _ db' => ¬db.Accepts crypto wall b ∧ Stores crypto b db db' := by
  have hne : b.previous ≠ crypto.blockId b.toSignedBlockHeader := by
    have hfresh := h.linked.fresh hids (hprevious.trans h.id)
    intro heq
    rw [← heq, hprevious, h.id] at hfresh
    cases links with
    | nil => exact hids.ne_zero _ (heq.symm.trans (hprevious.trans h.id))
    | cons link links => exact hfresh List.mem_cons_self
  rw [pushBlock, Outcome.bind_iff, Outcome.get_iff, Outcome.bind_iff, outcome_lift]
  refine ⟨fun _ _ => ?_, fun e he => ?_⟩
  · rw [Outcome.bind_iff]
    refine (storeAndIndex_fresh h.seed hnew hne wall).mono (fun longest db₁ h₁ => ?_)
      fun _ _ h => h.elim
    obtain ⟨hrecorded, hknown⟩ := h₁.indexed h.seed
    have hstep : Step crypto wall b db .tree db₁ := .stored h₁
    obtain ⟨links', htracks, hindexed'⟩ :=
      h.indexed hids (fun _ _ => HeadKept.indexKept) hindexed hP hrange hstep trivial
    have hsame : db₁.Accepts crypto wall b ↔ db.Accepts crypto wall b := by
      rw [h₁.rest]
      exact Iff.rfl
    have hextended := htracks.outcome_extendChain hids hgenesis hindexed' hknown wall
    rw [Outcome.bind_iff, getBlockForkData, Outcome.bind_iff, Outcome.get_iff, outcome_lift]
    refine ⟨fun fork _ => ?_, fun e he => ?_⟩
    · rw [if_pos hprevious, Outcome.bind_iff]
      refine hextended.mono (fun _ db₂ h₂ => ?_) fun _ db₂ h₂ =>
        ⟨fun haccepts => h₂.1 (hsame.2 haccepts), h₁.toStores.trans h₂.2⟩
      obtain ⟨haccepts, hid, hheader, hfork⟩ := h₂
      rw [Outcome.bind_iff, Outcome.get_iff, outcome_lift]
      refine ⟨fun _ _ => ⟨hsame.1 haccepts, hid, hheader⟩, fun e he => ?_⟩
      obtain ⟨fork, hfork⟩ := Option.ne_none_iff_exists'.1 hfork
      cases he.symm.trans (orThrow_eq_ok.2 hfork)
    · obtain ⟨fork, hfork⟩ := Option.ne_none_iff_exists'.1 hknown
      cases he.symm.trans (orThrow_eq_ok.2 hfork)
  · have hyoung : ¬(btsBlockchainMaxUndoHistory < db.headBlockNum ∧
        b.blockNum ≤ db.headBlockNum - btsBlockchainMaxUndoHistory) := by omega
    cases he.symm.trans ((require_eq_ok (u := ())).2 hyoung)

end Database

end LarkX
