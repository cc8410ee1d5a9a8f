import LarkX.Chain.Clock
import LarkX.Chain.Headers

/-!
# Restarting a node

`close()` leaves the tables of the database on the disk. The head, the chain id and the set of
known digests are fields of the object, which a new process starts with their defaults and
`open` sets again, one after another. The digests come first, before the head and the chain id
have been read: they are computed with the default chain id, so that none of them is that of a
transaction of this chain. After a restart no transaction is known (`knows_restarted`), and the
restart goes unnoticed exactly when none had to be (`restarted_transparent_iff`).
-/

namespace LarkX

open Action

/-- The digest covers the chain id: two chains share no digest. -/
def Crypto.DigestsCoverChainId (crypto : Crypto) : Prop :=
  ∀ (trx trx' : Transaction) (chainId chainId' : Digest),
    crypto.transactionDigest trx chainId = crypto.transactionDigest trx' chainId' →
      chainId = chainId'

namespace Database

section Definitions

variable (crypto : Crypto)

/-- What `close()` leaves to a new process: the tables, with every field of the object at its
default. -/
def closed (db : Database) : Database :=
  { db with
    ledger := { db.ledger with uniqueTransactions := ∅, chainId := 0 }
    headBlockId := 0
    headBlockHeader := {}
    skipSignatureVerification := true }

/-- One stored transaction in the loop of `open_database`: its digest is remembered unless it has
expired. -/
def loadTransaction (now : ℕ) (ledger : Ledger) (r : TransactionRecord) : Ledger :=
  let exp := r.trx.expiration
  let digest := crypto.transactionDigest r.trx.toTransaction ledger.chainId
  if now < exp then
    { ledger with
      uniqueTransactions := ledger.uniqueTransactions.insert exp
        ((ledger.digestsAt exp).insert digest ()) }
  else ledger

/-- `open_database`. -/
def openDatabase (wall : ℕ) (db : Database) : Database :=
  { db with
    ledger := db.ledger.transactions.foldl
      (fun ledger _ r => loadTransaction crypto (db.now wall) ledger r) db.ledger }

/-- The last block by number, with its header, if there are any. The number that `-1` stands for
is that of no block. -/
def lastBlock (db : Database) : Option (BlockId × SignedBlockHeader) := do
  let (num, id) ← db.blockNumToIdDb.toList.getLast?
  if num = 2 ^ 32 - 1 then none
  else do
    let header ← db.blockIdToBlockRecordDb[id]?
    return (id, header)

/-- `open` of a closed database; `none` when the index has to be built again. -/
def opened (config : GenesisBlockConfig) (wall : ℕ) (db : Database) :
    Fallible (Option Database) := do
  let db := db.openDatabase crypto wall
  match db.lastBlock with
  | none => return none
  | some (id, header) => do
    let db := { db with headBlockHeader := header, headBlockId := id }
    let prop ← (db.chain wall).getProperty .chainId
    let chainId ← prop.asHash
    require (chainId = crypto.genesisDigest config) .wrongChainId
    return some { db with ledger := { db.ledger with chainId } }

/-- A database that is closed and opened again by a new process. -/
def restarted (config : GenesisBlockConfig) (wall : ℕ) (db : Database) :
    Fallible (Option Database) :=
  db.closed.opened crypto config wall

/-- `is_known_transaction( trx.expiration, trx.digest( _chain_id ) )`. -/
def knows (db : Database) (trx : Transaction) : Bool :=
  db.ledger.isKnownTransaction trx.expiration
    (crypto.transactionDigest trx db.ledger.chainId)

/-- The same head, and the same answer for every transaction that expires after its time. -/
structure Transparent (db db' : Database) : Prop where
  id : db'.headBlockId = db.headBlockId
  header : db'.headBlockHeader = db.headBlockHeader
  known : ∀ trx : Transaction, db.headBlockHeader.timestamp < trx.expiration →
    db'.knows crypto trx = db.knows crypto trx

/-- The head is the last block by number, and no transaction that expires after its time is
known. -/
structure NothingToRemember (db : Database) : Prop where
  last : db.lastBlock = some (db.headBlockId, db.headBlockHeader)
  unknown : ∀ trx : Transaction, db.headBlockHeader.timestamp < trx.expiration →
    db.knows crypto trx = false

end Definitions

variable {crypto : Crypto} {config : GenesisBlockConfig} {wall now : ℕ} {db db' : Database}

/-! ### What is loaded -/

/-- Every remembered digest is that of a transaction with this chain id. -/
def Remembers (crypto : Crypto) (chainId : Digest) (ledger : Ledger) : Prop :=
  ∀ exp digest, ledger.isKnownTransaction exp digest = true →
    ∃ trx : Transaction, digest = crypto.transactionDigest trx chainId

theorem isKnownTransaction_eq (ledger : Ledger) (exp : ℕ) (digest : Digest) :
    ledger.isKnownTransaction exp digest = (ledger.digestsAt exp).contains digest := by
  rw [Ledger.isKnownTransaction, Ledger.digestsAt]
  cases ledger.uniqueTransactions[exp]? with
  | some digests => rfl
  | none => exact (Std.ExtTreeMap.contains_empty ..).symm

/-- **Step.** One stored transaction is loaded. -/
theorem remembers_loadTransaction {ledger : Ledger} (r : TransactionRecord)
    (h : Remembers crypto ledger.chainId ledger) :
    Remembers crypto ledger.chainId (loadTransaction crypto now ledger r) := by
  unfold loadTransaction
  dsimp only
  split
  · intro exp digest hknown
    rw [isKnownTransaction_eq, Ledger.digestsAt, Table.getElem?_insert] at hknown
    split at hknown
    · rename_i hexp
      rw [Option.getD_some, Std.ExtTreeMap.contains_insert, Bool.or_eq_true, beq_iff_eq,
        Std.LawfulEqOrd.compare_eq_iff_eq] at hknown
      rcases hknown with hdigest | hknown
      · exact ⟨r.trx.toTransaction, hdigest.symm⟩
      · exact h _ digest (by rwa [isKnownTransaction_eq])
    · exact h exp digest (by rwa [isKnownTransaction_eq, Ledger.digestsAt])
  · exact h

theorem loadTransaction_chainId (ledger : Ledger) (r : TransactionRecord) :
    (loadTransaction crypto now ledger r).chainId = ledger.chainId := by
  unfold loadTransaction
  dsimp only
  split <;> rfl

/-- Nothing is remembered by a closed database. -/
theorem remembers_closed (db : Database) : Remembers crypto 0 db.closed.ledger := by
  intro exp digest hknown
  have hempty : db.closed.ledger.uniqueTransactions[exp]? = none := Table.getElem?_empty' exp
  rw [isKnownTransaction_eq, Ledger.digestsAt, hempty, Option.getD_none,
    Std.ExtTreeMap.contains_empty] at hknown
  cases hknown

/-- **Run.** All stored transactions are loaded. -/
theorem remembers_foldl {t : Table TransactionId TransactionRecord} {ledger : Ledger}
    {chainId : Digest} (hchain : ledger.chainId = chainId)
    (h : Remembers crypto chainId ledger) :
    Remembers crypto chainId
      (t.foldl (fun ledger _ r => loadTransaction crypto now ledger r) ledger) := by
  refine (Table.foldl_induction
    (P := fun ledger : Ledger => ledger.chainId = chainId ∧ Remembers crypto chainId ledger) t
    (fun ledger _ r _ hledger => ?_) ⟨hchain, h⟩).2
  obtain ⟨hchain, hremembers⟩ := hledger
  refine ⟨(loadTransaction_chainId ledger r).trans hchain, ?_⟩
  rw [← hchain] at hremembers ⊢
  exact remembers_loadTransaction r hremembers

theorem closed_chainId (db : Database) : db.closed.ledger.chainId = 0 := rfl

theorem openDatabase_ledger (wall : ℕ) (db : Database) :
    (db.openDatabase crypto wall).ledger = db.ledger.transactions.foldl
      (fun ledger _ r => loadTransaction crypto (db.now wall) ledger r) db.ledger := rfl

theorem remembers_openDatabase (wall : ℕ) (db : Database) :
    Remembers crypto 0 (db.closed.openDatabase crypto wall).ledger := by
  rw [openDatabase_ledger]
  exact remembers_foldl (closed_chainId db) (remembers_closed db)

/-- What `open` returns, when the index need not be built again. -/
theorem restarted_eq_ok (h : db.restarted crypto config wall = .ok (some db')) :
    ∃ id header, db.lastBlock = some (id, header) ∧ db'.headBlockId = id ∧
      db'.headBlockHeader = header ∧ db'.ledger.chainId = crypto.genesisDigest config ∧
      Remembers crypto 0 db'.ledger := by
  unfold restarted opened at h
  have hlast : (db.closed.openDatabase crypto wall).lastBlock = db.lastBlock := rfl
  simp only [hlast] at h
  cases hblock : db.lastBlock with
  | none =>
    rw [hblock] at h
    cases h
  | some block =>
    obtain ⟨id, header⟩ := block
    rw [hblock] at h
    simp only [bind_eq_ok, require_eq_ok, pure_eq_ok, Option.some.injEq] at h
    obtain ⟨prop, -, chainId, -, -, hchain, rfl⟩ := h
    exact ⟨id, header, rfl, rfl, rfl, hchain, remembers_openDatabase wall db⟩

/-- **After a restart no transaction is known.** -/
theorem knows_restarted (hcovers : crypto.DigestsCoverChainId)
    (hgenesis : crypto.genesisDigest config ≠ 0)
    (h : db.restarted crypto config wall = .ok (some db')) (trx : Transaction) :
    db'.knows crypto trx = false := by
  obtain ⟨-, -, -, -, -, hchain, hremembers⟩ := restarted_eq_ok h
  refine Bool.eq_false_iff.2 fun hknown => ?_
  obtain ⟨trx', hdigest⟩ := hremembers _ _ hknown
  rw [hchain] at hdigest
  exact hgenesis (hcovers trx trx' _ _ hdigest)

/-- **When a restart is transparent**: exactly when the head is the last block by number and no
transaction that is still valid had to be remembered. -/
theorem restarted_transparent_iff (hcovers : crypto.DigestsCoverChainId)
    (hgenesis : crypto.genesisDigest config ≠ 0)
    (h : db.restarted crypto config wall = .ok (some db')) :
    Transparent crypto db db' ↔ NothingToRemember crypto db := by
  have hunknown := knows_restarted hcovers hgenesis h
  obtain ⟨id, header, hlast, hid, hheader, -⟩ := restarted_eq_ok h
  constructor
  · intro ht
    refine ⟨?_, fun trx hexp => ?_⟩
    · rw [hlast, ← hid, ← hheader, ht.id, ht.header]
    · rw [← ht.known trx hexp, hunknown trx]
  · intro hn
    obtain ⟨hlast', hforgotten⟩ := hn
    cases hlast.symm.trans hlast'
    refine ⟨hid, hheader, fun trx hexp => ?_⟩
    rw [hunknown trx, hforgotten trx hexp]

/-! ### A payment that is forgotten -/

/-- The small chain after the block with the payment. -/
def timedFirst : Database :=
  smallGenesis.pushed .transparent 100 timedBlock

/-- The transparent digest has the chain id as a part. -/
theorem digestsCoverChainId_transparent : Crypto.transparent.DigestsCoverChainId := by
  intro trx trx' chainId chainId' h
  have hlist := pairList_injective h
  simp only [List.cons.injEq] at hlist
  exact hlist.1

set_option maxRecDepth 100000 in
/-- **A restart forgets a transaction**: the payment of the first block has not expired and is
known, and after a restart at the same time it is not. -/
theorem timedFirst_forgets :
    Reachable .transparent smallConfig timedFirst ∧
      ∃ db', timedFirst.restarted .transparent smallConfig 100 = .ok (some db') ∧
        ¬Transparent .transparent timedFirst db' := by
  refine ⟨reachable_smallGenesis.pushed (by decide +kernel) (by decide +kernel), ?_⟩
  have hopens : Option.isSome <$> timedFirst.restarted .transparent smallConfig 100 = .ok true := by
    decide +kernel
  obtain ⟨result, hresult, hsome⟩ := map_eq_ok.1 hopens
  obtain ⟨db', rfl⟩ := Option.isSome_iff_exists.1 hsome
  refine ⟨db', hresult, fun ht => ?_⟩
  have hbefore : timedFirst.knows .transparent timedPayment.toTransaction = true := by
    decide +kernel
  have hafter := knows_restarted digestsCoverChainId_transparent (by decide) hresult
    timedPayment.toTransaction
  rw [ht.known timedPayment.toTransaction (by decide +kernel), hbefore] at hafter
  cases hafter

set_option maxRecDepth 100000 in
/-- A chain with a block that has no transactions is restarted unnoticed. -/
theorem smallFirst_transparent :
    ∃ db', smallFirst.restarted .transparent smallConfig 100 = .ok (some db') ∧
      Transparent .transparent smallFirst db' := by
  have hopens : Option.isSome <$> smallFirst.restarted .transparent smallConfig 100 = .ok true := by
    decide +kernel
  obtain ⟨result, hresult, hsome⟩ := map_eq_ok.1 hopens
  obtain ⟨db', rfl⟩ := Option.isSome_iff_exists.1 hsome
  have hempty : smallFirst.ledger.uniqueTransactions.toList = [] := by decide +kernel
  have hnothing : NothingToRemember .transparent smallFirst := by
    refine ⟨by decide +kernel, fun trx _ => ?_⟩
    unfold knows Ledger.isKnownTransaction
    cases hdigests : smallFirst.ledger.uniqueTransactions[trx.expiration]? with
    | none => rfl
    | some digests =>
      rw [← Table.mem_toList, hempty] at hdigests
      cases hdigests
  exact ⟨db', hresult, (restarted_transparent_iff digestsCoverChainId_transparent (by decide)
    hresult).2 hnothing⟩

end Database

end LarkX
