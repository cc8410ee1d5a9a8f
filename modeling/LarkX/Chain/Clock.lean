import LarkX.Chain.Extend

/-!
# The local clock

The clock of the machine enters an extension in two places: no block may be too far in the
future, and before the first block the chain's `now()` is taken from it. From block number 1 on
`now()` is the time of the head, and two nodes that extend the same chain by the same block at
different times agree (`extendChain_clock`). At genesis they may not (`clock_at_genesis`).
-/

namespace LarkX

open ChainInterface

namespace Database

variable {db : Database}

/-- From the first block on, `now()` does not depend on the clock. -/
theorem chain_clock (hnum : db.headBlockNum ≠ 0) (wall wall' : ℕ) :
    db.chain wall = db.chain wall' := by
  have hnow : db.now wall = db.now wall' := by
    rw [now, now, if_neg hnum, if_neg hnum]
  rw [chain, chain, hnow]

/-- Two databases that differ in the digests they remember only. -/
def SameButDigests (db db' : Database) : Prop :=
  db' = { db with ledger := { db.ledger with
    uniqueTransactions := db'.ledger.uniqueTransactions } }

end Database

namespace ChainInterface

variable {crypto : Crypto} {c : ChainInterface} {head : SignedBlockHeader} {headId : BlockId}
  {b : FullBlock} {wall wall' : ℕ}

/-- The header of a block that is in the future of neither clock. -/
theorem verifyHeader_clock (h : b.timestamp ≤ wall + btsBlockchainBlockIntervalSec * 2)
    (h' : b.timestamp ≤ wall' + btsBlockchainBlockIntervalSec * 2) (blockSignee : PublicKey) :
    c.verifyHeader crypto head headId wall b blockSignee =
      c.verifyHeader crypto head headId wall' b blockSignee := by
  simp only [verifyHeader, require, if_pos h, if_pos h']

theorem evaluateBlock_clock (h : b.timestamp ≤ wall + btsBlockchainBlockIntervalSec * 2)
    (h' : b.timestamp ≤ wall' + btsBlockchainBlockIntervalSec * 2) (skip : Bool) :
    evaluateBlock crypto c head headId skip wall b =
      evaluateBlock crypto c head headId skip wall' b := by
  simp only [evaluateBlock, verifyHeader_clock h h']

end ChainInterface

namespace Action

open Database

variable {crypto : Crypto} {wall wall' : ℕ} {b : FullBlock} {db db₁ : Database}

/-- An extension that returns at one time returns at the other. -/
theorem extendChain_eq_ok_clock (hnum : db.headBlockNum ≠ 0)
    (h : b.timestamp ≤ wall + btsBlockchainBlockIntervalSec * 2)
    (h' : b.timestamp ≤ wall' + btsBlockchainBlockIntervalSec * 2)
    (hrun : (extendChain crypto wall b).run db = .ok () db₁) :
    ∃ db₂, (extendChain crypto wall' b).run db = .ok () db₂ ∧ SameButDigests db₁ db₂ := by
  obtain ⟨c, undo, c', hextends⟩ := extendChain_eq_ok hrun
  obtain ⟨fork, undoStateDb, hfork, hkeeps, rfl⟩ := hextends.result
  have heval := hextends.evaluated
  have hundo := hextends.undone
  have happly := hextends.applied
  rw [chain_clock hnum wall wall'] at heval hundo happly
  rw [evaluateBlock_clock h h'] at heval
  have hother : Extends crypto wall' b db c undo c'
      ((db.advanced crypto b c'.db fork undoStateDb).purged wall') :=
    { evaluated := heval
      undone := hundo
      applied := happly
      result := ⟨fork, undoStateDb, hfork, hkeeps, rfl⟩ }
  exact ⟨_, extendChain_of_extends hother, rfl⟩

/-- **The validity of a block does not depend on the clock** once the head has a number of at
least 1: at two times that are not too early for the block, an extension returns with the same
ledger, or throws at both. -/
theorem extendChain_clock (hnum : 1 ≤ db.headBlockNum)
    (h : b.timestamp ≤ wall + btsBlockchainBlockIntervalSec * 2)
    (h' : b.timestamp ≤ wall' + btsBlockchainBlockIntervalSec * 2) :
    (∃ db₁ db₂, (extendChain crypto wall b).run db = .ok () db₁ ∧
      (extendChain crypto wall' b).run db = .ok () db₂ ∧ SameButDigests db₁ db₂) ∨
    ∃ e₁ db₁ e₂ db₂, (extendChain crypto wall b).run db = .error e₁ db₁ ∧
      (extendChain crypto wall' b).run db = .error e₂ db₂ := by
  have hnum' : db.headBlockNum ≠ 0 := Nat.one_le_iff_ne_zero.1 hnum
  cases hrun : (extendChain crypto wall b).run db with
  | ok u db₁ =>
    obtain ⟨db₂, hrun', hsame⟩ := extendChain_eq_ok_clock hnum' h h' hrun
    exact Or.inl ⟨db₁, db₂, rfl, hrun', hsame⟩
  | error e₁ db₁ =>
    cases hrun' : (extendChain crypto wall' b).run db with
    | ok u db₂ =>
      obtain ⟨db₃, hrun₃, -⟩ := extendChain_eq_ok_clock hnum' h' h hrun'
      rw [hrun] at hrun₃
      cases hrun₃
    | error e₂ db₂ => exact Or.inr ⟨e₁, db₁, e₂, db₂, rfl, rfl⟩

/-! ### Two clocks at genesis -/

/-- A payment that expires at 200. -/
def timedPayment : SignedTransaction where
  expiration := 200
  operations :=
    [.withdraw (Crypto.transparent.conditionAddress
        (.ofSignature (Crypto.transparent.ptsToAddress ⟨56, 5⟩) 0 2)) 1000000 .empty,
      .deposit 1000000 (.ofSignature 99 0 0)]
  signatures := [2]

/-- The first block of the small chain, with this payment. -/
def timedBlock : FullBlock :=
  smallGenesis.blockOn 1 20 [timedPayment]

/-- The genesis state after the block came too late. -/
def lateGenesis : Database :=
  smallGenesis.verifySignatures.pushed .transparent 100000 timedBlock

set_option maxRecDepth 100000 in
/-- **At genesis the clock decides.** The block is stored and the chain is still at genesis; an
extension by it returns at time 100 and throws at time 100000. -/
theorem clock_at_genesis :
    Reachable .transparent smallConfig lateGenesis ∧
      timedBlock.timestamp ≤ 100 + btsBlockchainBlockIntervalSec * 2 ∧
      timedBlock.timestamp ≤ 100000 + btsBlockchainBlockIntervalSec * 2 ∧
      (∃ db₁, (extendChain .transparent 100 timedBlock).run lateGenesis = .ok () db₁) ∧
      ∃ e₂ db₂, (extendChain .transparent 100000 timedBlock).run lateGenesis = .error e₂ db₂ := by
  obtain ⟨_, db₁, h₁⟩ := exists_of_returns (x := extendChain .transparent 100 timedBlock)
    (s := lateGenesis) (by decide +kernel)
  exact ⟨(Reachable.delegateLoop reachable_smallGenesis).pushed (by decide +kernel)
    (by decide +kernel), by decide +kernel, by decide +kernel, ⟨db₁, h₁⟩,
    exists_of_not_returns (by decide +kernel)⟩

/-- The chain with one block, after a second one came too early. -/
def earlySecond : Database :=
  let db := smallGenesis.pushed .transparent 100 (smallGenesis.blockOn 1 20 [])
  db.pushed .transparent 0 (db.blockOn 2 30 [])

set_option maxRecDepth 100000 in
/-- The second block of the small chain, at two times. -/
theorem extendChain_clock_second :
    (∃ db₁ db₂, (extendChain .transparent 100 (earlySecond.blockOn 2 30 [])).run earlySecond =
        .ok () db₁ ∧
      (extendChain .transparent 100000 (earlySecond.blockOn 2 30 [])).run earlySecond =
        .ok () db₂ ∧ SameButDigests db₁ db₂) ∨
    ∃ e₁ db₁ e₂ db₂, (extendChain .transparent 100 (earlySecond.blockOn 2 30 [])).run earlySecond =
        .error e₁ db₁ ∧
      (extendChain .transparent 100000 (earlySecond.blockOn 2 30 [])).run earlySecond =
        .error e₂ db₂ :=
  extendChain_clock (by decide +kernel) (by decide +kernel) (by decide +kernel)

end Action

end LarkX
