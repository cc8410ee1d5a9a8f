import LarkX.Db.LevelMap
import LarkX.ForMathlib.Outcome

/-!
# The peer database

The node remembers the peers it has heard of in a set in memory, which is ordered by the time a peer
was last seen and in which a peer is found by its endpoint, and in a LevelDB, in which every record
has a number for a key. A new record is put under the number after the last one.
-/

namespace LarkX

open Std (ExtTreeMap)

/-- `potential_peer_last_connection_disposition`. -/
inductive LastConnectionDisposition
  | neverAttemptedToConnect
  | lastConnectionFailed
  | lastConnectionRejected
  | lastConnectionHandshakingFailed
  | lastConnectionSucceeded
  deriving DecidableEq, Repr

/-- `potential_peer_record`. -/
structure PotentialPeerRecord where
  endpoint : ℕ
  lastSeenTime : ℕ := 0
  lastConnectionDisposition : LastConnectionDisposition := .neverAttemptedToConnect
  lastConnectionAttemptTime : ℕ := 0
  numberOfSuccessfulConnectionAttempts : ℕ := 0
  numberOfFailedConnectionAttempts : ℕ := 0
  lastError : Option String := none
  deriving DecidableEq, Repr

/-- `potential_peer_database_entry`. -/
structure PeerEntry where
  databaseKey : ℕ
  peerRecord : PotentialPeerRecord
  deriving DecidableEq, Repr

namespace PeerEntry

def getLastSeenTime (e : PeerEntry) : ℕ :=
  e.peerRecord.lastSeenTime

def getEndpoint (e : PeerEntry) : ℕ :=
  e.peerRecord.endpoint

end PeerEntry

/-! ### The set in memory -/

/-- `potential_peer_set`, in the order of `last_seen_time_index`. -/
abbrev PotentialPeerSet := List PeerEntry

namespace PotentialPeerSet

/-- `find` in `endpoint_index`. -/
def find (set : PotentialPeerSet) (endpoint : ℕ) : Option PeerEntry :=
  List.find? (fun e => e.getEndpoint == endpoint) set

/-- An entry is put behind those that were seen at the same time or earlier. -/
def place (set : PotentialPeerSet) (e : PeerEntry) : PotentialPeerSet :=
  set.takeWhile (fun e' => e'.getLastSeenTime ≤ e.getLastSeenTime) ++
    e :: set.dropWhile fun e' => e'.getLastSeenTime ≤ e.getLastSeenTime

/-- `insert`: refused for an endpoint that is there. -/
def insert (set : PotentialPeerSet) (e : PeerEntry) : PotentialPeerSet :=
  match find set e.getEndpoint with
  | some _ => set
  | none => place set e

/-- `erase` at an entry. -/
def erase (set : PotentialPeerSet) (endpoint : ℕ) : PotentialPeerSet :=
  List.eraseP (fun e => e.getEndpoint == endpoint) set

/-- The entry may stay where it is: its neighbours are in order with it. -/
def inPlace (before : List PeerEntry) (e : PeerEntry) (after : List PeerEntry) : Bool :=
  (before.getLast?.all fun e' => e'.getLastSeenTime ≤ e.getLastSeenTime) &&
    after.head?.all fun e' => e.getLastSeenTime ≤ e'.getLastSeenTime

/-- `modify` at the entry with the record's endpoint: the record is replaced, and the entry is moved
where it is not in order any more. -/
def modify (set : PotentialPeerSet) (r : PotentialPeerRecord) : PotentialPeerSet :=
  let before := set.takeWhile fun e => e.getEndpoint != r.endpoint
  match set.dropWhile fun e => e.getEndpoint != r.endpoint with
  | [] => set
  | e :: after =>
    let e := { e with peerRecord := r }
    if inPlace before e after then before ++ e :: after else place (before ++ after) e

end PotentialPeerSet

/-! ### The database -/

/-- `peer_database_impl`. -/
structure PeerDatabase where
  leveldb : LevelMap ℕ PotentialPeerRecord := {}
  peerSet : PotentialPeerSet := []

/-- `MAXIMUM_PEERDB_SIZE`. -/
def maximumPeerdbSize : ℕ := 1000

/-- A member function: what it has changed stays changed when it throws. -/
abbrev PeerM := EStateM DbError PeerDatabase

namespace PeerDatabase

/-- A call that changes the LevelDB. -/
def onDb (f : LevelMap ℕ PotentialPeerRecord → Except DbError (LevelMap ℕ PotentialPeerRecord)) :
    PeerM Unit := do
  let s ← get
  match f s.leveldb with
  | .ok leveldb => set { s with leveldb := leveldb }
  | .error e => throw e

/-- A call that reads the LevelDB. -/
def readDb {α : Type} (f : LevelMap ℕ PotentialPeerRecord → Except DbError α) : PeerM α := do
  let s ← get
  match f s.leveldb with
  | .ok a => return a
  | .error e => throw e

/-- The set in memory that is read from the entries of the LevelDB. -/
def loaded (entries : List (ℕ × PotentialPeerRecord)) : PotentialPeerSet :=
  entries.foldl (fun set e => set.insert ⟨e.1, e.2⟩) []

/-- The loop that prunes: the entry behind the first thousand is removed, again and again. -/
def prune (surplus : List PeerEntry) : PeerM Unit :=
  surplus.forM fun e => do
    onDb fun db => db.remove e.databaseKey
    modify fun s => { s with peerSet := s.peerSet.eraseIdx maximumPeerdbSize }

def open' : PeerM Unit := do
  onDb LevelMap.open'
  modify fun s => { s with peerSet := [] }
  let entries ← readDb LevelMap.scan
  modify fun s => { s with peerSet := loaded entries }
  let s ← get
  if maximumPeerdbSize < s.peerSet.length then
    prune (s.peerSet.drop maximumPeerdbSize)

def close : PeerM Unit :=
  modify fun s => { leveldb := s.leveldb.close, peerSet := [] }

def clear : PeerM Unit := do
  let entries ← readDb LevelMap.scan
  entries.forM fun e => tryCatch (onDb fun db => db.remove e.1) fun _ => pure ()
  modify fun s => { s with peerSet := [] }

def erase (endpoint : ℕ) : PeerM Unit := do
  let s ← get
  match s.peerSet.find endpoint with
  | none => return
  | some e =>
    onDb fun db => db.remove e.databaseKey
    modify fun s => { s with peerSet := s.peerSet.erase endpoint }

/-- The key that `update_entry` takes for a new record. `garbage` is what the memory of
`last_database_key` holds: `last` leaves it there where the table is empty. -/
def newDatabaseKey (garbage : ℕ) (last : Option ℕ) : ℕ :=
  (last.getD garbage + 1) % 2 ^ 32

def updateEntry (garbage : ℕ) (updatedRecord : PotentialPeerRecord) : PeerM Unit := do
  let s ← get
  match s.peerSet.find updatedRecord.endpoint with
  | some e =>
    modify fun s => { s with peerSet := s.peerSet.modify updatedRecord }
    onDb fun db => db.store e.databaseKey updatedRecord
  | none =>
    let last ← readDb LevelMap.last
    let key := newDatabaseKey garbage last
    modify fun s => { s with peerSet := s.peerSet.insert ⟨key, updatedRecord⟩ }
    onDb fun db => db.store key updatedRecord

/-- `lookup_or_create_entry_for_endpoint`. -/
def lookupOrCreateEntryForEndpoint (s : PeerDatabase) (endpoint : ℕ) : PotentialPeerRecord :=
  match s.peerSet.find endpoint with
  | some e => e.peerRecord
  | none => { endpoint := endpoint }

/-- `lookup_entry_for_endpoint`. -/
def lookupEntryForEndpoint (s : PeerDatabase) (endpoint : ℕ) : Option PotentialPeerRecord :=
  (s.peerSet.find endpoint).map PeerEntry.peerRecord

/-- `get_all`. -/
def getAll (s : PeerDatabase) : Except DbError (List PotentialPeerRecord) := do
  let entries ← s.leveldb.scan
  return entries.map Prod.snd

end PeerDatabase

end LarkX
