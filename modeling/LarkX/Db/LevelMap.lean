import LarkX.ForMathlib.Fallible
import LarkX.ForMathlib.Walk

/-!
# The level map

`level_map` is the LevelDB that a table of the node is kept in (`level_pod_map` is the same for keys
of fixed size). It is a sorted table in a directory, which stays there while the database is closed.

A LevelDB that is open takes every write, and a batch is applied as a whole and in order.
-/

namespace LarkX

open Std (TransOrd LawfulEqOrd)

variable {κ α : Type} [Ord κ]

/-- The exceptions of the database classes. -/
inductive DbError
  /-- "Database is not open!" -/
  | notOpen
  | dbInUse
  | keyNotFound
  /-- `std::out_of_range`, thrown by `std::map::at`. -/
  | outOfRange
  deriving DecidableEq, Repr

/-- `level_map`: what the directory of the database holds, and whether it is open. -/
structure LevelMap (κ α : Type) [Ord κ] where
  entries : Table κ α := ∅
  isOpen : Bool := false

/-- One entry of a `leveldb::WriteBatch`. -/
inductive BatchOp (κ α : Type)
  | put (key : κ) (value : α)
  | delete (key : κ)

/-- An entry of a batch is applied. -/
def BatchOp.apply [TransOrd κ] (t : Table κ α) : BatchOp κ α → Table κ α
  | .put key value => t.insert key value
  | .delete key => t.erase key

namespace LevelMap

/-- `open`: LevelDB locks the directory, so it cannot be opened twice. -/
def open' (m : LevelMap κ α) : Except DbError (LevelMap κ α) := do
  require (m.isOpen = false) .dbInUse
  return { m with isOpen := true }

def close (m : LevelMap κ α) : LevelMap κ α :=
  { m with isOpen := false }

variable [TransOrd κ]

/-- The entries an iterator that starts at `begin` goes through. -/
def scan (m : LevelMap κ α) : Except DbError (List (κ × α)) := do
  require (m.isOpen = true) .notOpen
  return m.entries.toList

def store (m : LevelMap κ α) (key : κ) (value : α) : Except DbError (LevelMap κ α) := do
  require (m.isOpen = true) .notOpen
  return { m with entries := m.entries.insert key value }

def remove (m : LevelMap κ α) (key : κ) : Except DbError (LevelMap κ α) := do
  require (m.isOpen = true) .notOpen
  return { m with entries := m.entries.erase key }

/-- `write_batch::commit`. -/
def commit (m : LevelMap κ α) (batch : List (BatchOp κ α)) :
    Except DbError (LevelMap κ α) := do
  require (m.isOpen = true) .notOpen
  return { m with entries := batch.foldl BatchOp.apply m.entries }

/-- `~write_batch`: commits what is left in the batch, and swallows what that throws. -/
def dropBatch (m : LevelMap κ α) (batch : List (BatchOp κ α)) : LevelMap κ α :=
  match m.commit batch with
  | .ok m' => m'
  | .error _ => m

/-- `last`: the greatest key, if there is one. -/
def last (m : LevelMap κ α) : Except DbError (Option κ) := do
  require (m.isOpen = true) .notOpen
  return m.entries.lastKey

/-! ### While the database is open -/

variable {m : LevelMap κ α}

omit [TransOrd κ] in
theorem open_of_closed (h : m.isOpen = false) : m.open' = .ok { m with isOpen := true } := by
  rw [open', require, if_pos h]
  rfl

omit [TransOrd κ] in
theorem open_of_open (h : m.isOpen = true) : m.open' = .error .dbInUse := by
  rw [open', require, if_neg (by rw [h]; nofun)]
  rfl

theorem scan_of_open (h : m.isOpen = true) : m.scan = .ok m.entries.toList := by
  rw [scan, require, if_pos h]
  rfl

theorem store_of_open (h : m.isOpen = true) (key : κ) (value : α) :
    m.store key value = .ok { m with entries := m.entries.insert key value } := by
  rw [store, require, if_pos h]
  rfl

theorem remove_of_open (h : m.isOpen = true) (key : κ) :
    m.remove key = .ok { m with entries := m.entries.erase key } := by
  rw [remove, require, if_pos h]
  rfl

theorem commit_of_open (h : m.isOpen = true) (batch : List (BatchOp κ α)) :
    m.commit batch = .ok { m with entries := batch.foldl BatchOp.apply m.entries } := by
  rw [commit, require, if_pos h]
  rfl

theorem last_of_open (h : m.isOpen = true) : m.last = .ok m.entries.lastKey := by
  rw [last, require, if_pos h]
  rfl

/-! ### While it is closed -/

variable (h : m.isOpen = false)

include h

theorem scan_of_closed : m.scan = .error .notOpen := by
  rw [scan, require, if_neg (by rw [h]; nofun)]
  rfl

theorem last_of_closed : m.last = .error .notOpen := by
  rw [last, require, if_neg (by rw [h]; nofun)]
  rfl

end LevelMap

end LarkX
