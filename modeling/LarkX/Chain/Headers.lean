import LarkX.Chain.History

/-!
# The header chain

`verify_header` compares the number and the time of a block with those of the head only when the
block calls itself number 2 or more. `HeaderChain` is what the header checks are for: numbers
count up from 1, each block names the one before it, times increase, and each block is signed by
the delegate whose slot it is. It holds along the chain as long as the chain is extended only by
blocks that call themselves number 1 exactly when they are the first
(`RunOf.hasHeaderChain`); a block that calls itself number 1 above another one breaks it.
-/

namespace LarkX

open ChainInterface Ledger

/-- The header is signed by the active key of the delegate whose slot it is, by the list of
active delegates in the ledger. -/
def SignedInSlot (crypto : Crypto) (ledger : Ledger) (header : SignedBlockHeader) : Prop :=
  ∃ active expected, getActiveDelegates ⟨[], ledger, 0, 0⟩ = .ok active ∧
    getSlotSignee ⟨[], ledger, 0, 0⟩ header.timestamp active = .ok expected ∧
    crypto.signee header (afterFork25 header.blockNum) = .ok expected.activeKey

namespace Database

section

variable (crypto : Crypto)

/-- The headers on the way from a block to genesis. -/
def HeaderPath (db : Database) : BlockId → List SignedBlockHeader → Prop
  | id, [] => id = 0
  | id, header :: headers =>
    db.blockIdToBlockRecordDb[id]? = some header ∧ db.HeaderPath header.previous headers

/-- A path with the headers that belong on it: every block was accepted on a ledger that agrees
with the one its parent left behind, which names the delegate who signed it. -/
inductive HeaderChain (genesis : Ledger) : List (Link crypto) → Prop
  | nil : HeaderChain genesis []
  | cons {link : Link crypto} {links : List (Link crypto)} (h : HeaderChain genesis links)
      (inForce : Agrees (ledgerOf crypto genesis links) link.prev.ledger)
      (number : link.block.blockNum = links.length + 1)
      (previous : link.block.previous = headIdOf crypto links)
      (slot : link.block.timestamp % btsBlockchainBlockIntervalSec = 0)
      (later : ∀ parent ∈ links.head?, parent.block.timestamp < link.block.timestamp)
      (signed : SignedInSlot crypto link.prev.ledger link.block.toSignedBlockHeader) :
      HeaderChain genesis (link :: links)

/-- The headers from the head to genesis are a header chain. -/
def HasHeaderChain (config : GenesisBlockConfig) (db : Database) : Prop :=
  ∃ g, initializeGenesis crypto config = .ok g ∧ ∃ links : List (Link crypto),
    db.HeaderPath db.headBlockId (links.map fun link => link.block.toSignedBlockHeader) ∧
      HeaderChain crypto g.ledger links

end

/-- The block calls itself number 1 when it is the first, and by a higher number otherwise. -/
def FirstIsOne (b : FullBlock) : Prop :=
  (b.previous = 0 → b.blockNum = 1) ∧ (b.previous ≠ 0 → 1 < b.blockNum)

instance (b : FullBlock) : Decidable (FirstIsOne b) :=
  inferInstanceAs (Decidable (_ ∧ _))

variable {crypto : Crypto} {config : GenesisBlockConfig} {P : FullBlock → Prop}
  {K : Database → Action.Event → Prop} {genesis : Ledger} {links : List (Link crypto)}
  {db : Database}

theorem Tracks.headerPath (h : Tracks crypto P K genesis db links) :
    db.HeaderPath db.headBlockId (links.map fun link => link.block.toSignedBlockHeader) := by
  have key : ∀ l : List (Link crypto), Linked crypto P K genesis l →
      (∀ link ∈ l, db.blockIdToBlockRecordDb[link.id]? = some link.block.toSignedBlockHeader) →
      db.HeaderPath (headIdOf crypto l) (l.map fun link => link.block.toSignedBlockHeader) := by
    intro l hl hrecords
    induction hl with
    | nil => rfl
    | @cons link rest _ hprev _ _ _ _ ih =>
      refine ⟨hrecords link List.mem_cons_self, ?_⟩
      rw [previous_of_evaluated link.evaluated, hprev.id]
      exact ih fun link' hlink' => hrecords link' (List.mem_cons_of_mem _ hlink')
  rw [h.id]
  exact key links h.linked h.records

/-- What the header checks establish for one block. -/
theorem signedInSlot_of_evaluated {wall : ℕ} {b : FullBlock} {c : ChainInterface}
    (h : evaluateBlock crypto (db.chain wall) db.headBlockHeader db.headBlockId
      db.skipSignatureVerification wall b = .ok c) :
    SignedInSlot crypto db.ledger b.toSignedBlockHeader := by
  simp only [evaluateBlock, bind_eq_ok] at h
  obtain ⟨signee, hsignee, _, hheader, -⟩ := h
  obtain ⟨-, -, -, -, active, expected, hactive, hexpected, rfl⟩ := verifyHeader_eq_ok hheader
  exact ⟨active, expected, hactive, hexpected, hsignee⟩

theorem Linked.headerChain (hids : crypto.IdealIds)
    (h : Linked crypto P (OnBlocks FirstIsOne) genesis links) : HeaderChain crypto genesis links := by
  induction h with
  | nil => exact .nil
  | @cons link rest _ hprev _ _ _ hK ih =>
    have heval := link.evaluated
    have hprevious : link.block.previous = headIdOf crypto rest :=
      (previous_of_evaluated heval).trans hprev.id
    have hsigned := signedInSlot_of_evaluated heval
    simp only [evaluateBlock, bind_eq_ok] at heval
    obtain ⟨signee, -, _, hverify, -⟩ := heval
    obtain ⟨hnum, -, hslot, htime, -⟩ := verifyHeader_eq_ok hverify
    cases ih with
    | nil =>
      exact .cons .nil hprev.agrees (hK.1 hprevious) hprevious hslot
        (fun _ hparent => nomatch hparent) hsigned
    | @cons parent rest ih hforce hnumber hparent hslot' hlater hsigned' =>
      -- the block has a parent, so it calls itself number 2 or more and is compared with it
      have hne : link.block.previous ≠ 0 := hprevious ▸ hids.ne_zero _
      have hhead : link.prev.headBlockHeader = parent.block.toSignedBlockHeader := hprev.header
      rw [hhead] at hnum htime
      refine .cons (.cons ih hforce hnumber hparent hslot' hlater hsigned') hprev.agrees ?_
        hprevious hslot ?_ hsigned
      · rw [hnum (hK.2 hne), hnumber]
        rfl
      · rintro _ ⟨⟩
        exact htime (hK.2 hne)

/-- **The header chain** holds in every state of a run that extends the chain only by blocks
that call themselves number 1 exactly when they are the first. -/
theorem RunOf.hasHeaderChain (hids : crypto.IdealIds)
    (h : RunOf crypto config P (OnBlocks FirstIsOne) db) : db.HasHeaderChain crypto config := by
  obtain ⟨g, hg, links, htracks⟩ := h.tracks hids
  exact ⟨g, hg, links, htracks.headerPath, htracks.linked.headerChain hids⟩

/-! ### A second block that calls itself number 1 -/

/-- The ids of the transparent instance have no collisions. -/
theorem idealIds_transparent : Crypto.transparent.IdealIds where
  inj h h' heq := by
    have hlist := pairList_injective heq
    simp only [List.cons.injEq, and_true] at hlist
    obtain ⟨⟨_, _, _, _, _, _⟩, _⟩ := h
    obtain ⟨⟨_, _, _, _, _, _⟩, _⟩ := h'
    obtain ⟨rfl, rfl, rfl, rfl, rfl, rfl, rfl⟩ := hlist
    rfl
  ne_zero _ := Nat.succ_ne_zero _

/-- The small chain after one block. -/
def smallFirst : Database :=
  smallGenesis.pushed .transparent 100 (smallGenesis.blockOn 1 20 [])

/-- The small chain after a second block that calls itself number 1. -/
def smallForged : Database :=
  smallFirst.pushed .transparent 100 (smallFirst.blockOn 1 30 [])

set_option maxRecDepth 100000 in
/-- **A second block that calls itself number 1 is accepted**, and the headers are no chain. -/
theorem forged_number : Reachable .transparent smallConfig smallForged ∧
    ¬smallForged.HasHeaderChain .transparent smallConfig := by
  refine ⟨(reachable_smallGenesis.pushed (by decide +kernel) (by decide +kernel)).pushed
    (by decide +kernel) (by decide +kernel), ?_⟩
  rintro ⟨g, -, links, hpath, hchain⟩
  have hhead : smallForged.headBlockId ≠ 0 := by decide +kernel
  have hrecord : (smallForged.blockIdToBlockRecordDb[smallForged.headBlockId]?).all fun header =>
      header.blockNum = 1 ∧ header.previous ≠ 0 := by decide +kernel
  cases hchain with
  | nil => exact hhead hpath
  | @cons link links hchain _ hnumber hprevious _ _ _ =>
    obtain ⟨hlink, hpath⟩ := hpath
    rw [hlink, Option.all_some, decide_eq_true_eq] at hrecord
    obtain ⟨hone, hparent⟩ := hrecord
    rw [hnumber] at hone
    have hnil : links = [] := List.length_eq_zero_iff.1 (by omega)
    subst hnil
    exact hparent hprevious

set_option maxRecDepth 100000 in
/-- The small chain after one block has a header chain. -/
theorem hasHeaderChain_smallFirst : smallFirst.HasHeaderChain .transparent smallConfig := by
  have hpush : Push .transparent 100 (smallGenesis.blockOn 1 20 []) smallGenesis smallFirst :=
    push_pushed (by decide +kernel)
  have hrun : RunOf .transparent smallConfig FirstIsOne (fun _ _ => True) smallFirst :=
    .push 100 _ (.genesis initialize_smallGenesis) (by decide +kernel) (by decide +kernel) hpush hpush.steps
  exact RunOf.hasHeaderChain idealIds_transparent hrun.onBlocks

end Database

end LarkX
