import LarkX.Db.LevelMap
import LarkX.ForMathlib.Outcome

/-!
# The cached level map

All tables of the ledger are kept in a `cached_level_map`: a sorted map in memory in front of a
LevelDB. In write-through mode every change is written at once; otherwise the keys that changed
are remembered in two dirty sets, and `flush` writes them in one batch, with the values the cache
holds by then.

`Consistent` is the invariant: the dirty sets are apart, the values to be written are in the
cache, and away from the dirty keys the database and the cache agree. With it a run of calls is
followed by a map that has no cache at all (`held`), and `AnswersAs` says that every read, and
every walk with iterators, is one of the sorted listing of that map.
-/

namespace LarkX

open Std (ExtTreeMap TransOrd LawfulEqOrd)

variable {κ α : Type} [Ord κ]

/-! ### The cached map -/

/-- `cached_level_map`. -/
structure CachedLevelMap (κ α : Type) [Ord κ] where
  db : LevelMap κ α := {}
  cache : Table κ α := ∅
  dirtyStore : Table κ Unit := ∅
  dirtyRemove : Table κ Unit := ∅
  writeThrough : Bool := true
  syncOnWrite : Bool := false

/-- A member function: what it has changed stays changed when it throws. -/
abbrev CachedM (κ α β : Type) [Ord κ] := EStateM DbError (CachedLevelMap κ α) β

namespace CachedLevelMap

/-- A call of the level map underneath. -/
def onDb (f : LevelMap κ α → Except DbError (LevelMap κ α)) : CachedM κ α Unit := do
  let s ← get
  match f s.db with
  | .ok db => set { s with db := db }
  | .error e => throw e

variable [TransOrd κ]

/-- The loop of `flush` over the keys to store: the batch it builds, and the exception of
`_cache.at` where a key is missing. -/
def storeBatch (cache : Table κ α) : List κ → List (BatchOp κ α) × Option DbError
  | [] => ([], none)
  | key :: keys =>
    match cache[key]? with
    | none => ([], some .outOfRange)
    | some value =>
      let rest := storeBatch cache keys
      (.put key value :: rest.1, rest.2)

def flush : CachedM κ α Unit := do
  let s ← get
  match storeBatch s.cache s.dirtyStore.keys with
  | (batch, some e) =>
    -- the batch goes out of scope, which commits what it holds
    set { s with db := s.db.dropBatch batch }
    throw e
  | (batch, none) =>
    onDb fun db => db.commit (batch ++ s.dirtyRemove.keys.map .delete)
    modify fun s => { s with dirtyStore := ∅, dirtyRemove := ∅ }

def open' (writeThrough syncOnWrite : Bool) : CachedM κ α Unit := do
  onDb LevelMap.open'
  let s ← get
  match s.db.scan with
  | .ok l => set { s with cache := l.foldl (fun cache (e : κ × α) => cache.insert e.1 e.2) s.cache }
  | .error e => throw e
  modify fun s => { s with writeThrough := writeThrough, syncOnWrite := syncOnWrite }

def close : CachedM κ α Unit := do
  flush
  modify fun s =>
    { s with db := s.db.close, cache := ∅, dirtyStore := ∅, dirtyRemove := ∅ }

def setWriteThrough (writeThrough : Bool) : CachedM κ α Unit := do
  let s ← get
  if s.writeThrough = false ∧ writeThrough = true then
    flush
  modify fun s => { s with writeThrough := writeThrough }

def store (key : κ) (value : α) : CachedM κ α Unit := do
  modify fun s => { s with cache := s.cache.insert key value }
  let s ← get
  if s.writeThrough then
    onDb fun db => db.store key value
  else
    modify fun s => { s with
      dirtyStore := s.dirtyStore.insert key ()
      dirtyRemove := s.dirtyRemove.erase key }

def remove (key : κ) : CachedM κ α Unit := do
  modify fun s => { s with cache := s.cache.erase key }
  let s ← get
  if s.writeThrough then
    onDb fun db => db.remove key
  else
    modify fun s => { s with
      dirtyStore := s.dirtyStore.erase key
      dirtyRemove := s.dirtyRemove.insert key () }

/-! ### Reading -/

omit [TransOrd κ] in
def size (s : CachedLevelMap κ α) : ℕ :=
  s.cache.size

def fetchOptional (s : CachedLevelMap κ α) (key : κ) : Option α :=
  s.cache[key]?

def fetch (s : CachedLevelMap κ α) (key : κ) : Except DbError α :=
  orThrow s.cache[key]? .keyNotFound

/-- `last( key, value )`: whether there is an entry, and the last one. -/
def last (s : CachedLevelMap κ α) : Option (κ × α) :=
  s.cache.toList.getLast?

/-- `cached_level_map::iterator`: the key it stands on, or the end, and the key `_begin` stood on
when it was made. -/
structure Iterator (κ : Type) where
  it : Option κ
  first : Option κ

/-- `begin`. -/
def beginIt (s : CachedLevelMap κ α) : Iterator κ :=
  ⟨s.cache.firstKey, s.cache.firstKey⟩

/-- `last`, the one that returns an iterator. -/
def lastIt (s : CachedLevelMap κ α) : Iterator κ :=
  if s.cache.isEmpty then ⟨none, s.cache.firstKey⟩ else ⟨s.cache.lastKey, s.cache.firstKey⟩

/-- `find`. -/
def findIt (s : CachedLevelMap κ α) (key : κ) : Iterator κ :=
  ⟨if (s.cache[key]?).isSome then some key else none, s.cache.firstKey⟩

/-- `lower_bound`. -/
def lowerBound (s : CachedLevelMap κ α) (key : κ) : Iterator κ :=
  ⟨s.cache.keyFrom key, s.cache.firstKey⟩

namespace Iterator

omit [Ord κ] [TransOrd κ] in
def valid (i : Iterator κ) : Bool :=
  i.it.isSome

/-- `key` and `value`: nothing at the end, where they may not be called. -/
def entry (i : Iterator κ) (s : CachedLevelMap κ α) : Option (κ × α) :=
  i.it.bind fun key => (s.cache[key]?).map fun value => (key, value)

/-- `operator ++`: nothing at the end, where it may not be called. -/
def next (i : Iterator κ) (s : CachedLevelMap κ α) : Option (Iterator κ) :=
  i.it.map fun key => { i with it := s.cache.keyAfter key }

/-- `operator --`: from the begin to the end, from the end to the last entry. -/
def prev [DecidableEq κ] (i : Iterator κ) (s : CachedLevelMap κ α) : Iterator κ :=
  if i.it = i.first then { i with it := none }
  else
    match i.it with
    | none => { i with it := s.cache.lastKey }
    | some key => { i with it := s.cache.keyBefore key }

end Iterator

/-! ### What the map stands for -/

/-- A call that may change the map. -/
inductive Call (κ α : Type)
  | store (key : κ) (value : α)
  | remove (key : κ)
  | flush
  | setWriteThrough (writeThrough : Bool)
  /-- `close`, and then `open` on the same directory. -/
  | reopen (writeThrough syncOnWrite : Bool)

def Call.run : Call κ α → CachedM κ α Unit
  | .store key value => CachedLevelMap.store key value
  | .remove key => CachedLevelMap.remove key
  | .flush => CachedLevelMap.flush
  | .setWriteThrough writeThrough => CachedLevelMap.setWriteThrough writeThrough
  | .reopen writeThrough syncOnWrite => do
    CachedLevelMap.close
    CachedLevelMap.open' writeThrough syncOnWrite

/-- The call writes the database whatever the mode. -/
def Call.flushes : Call κ α → Bool
  | .flush => true
  | .reopen .. => true
  | _ => false

section Held

variable [DecidableEq κ]

omit [Ord κ] [TransOrd κ]

/-- What a call says about the value of a key: nothing, or the value it has from now on. -/
def Call.tells (key : κ) : Call κ α → Option (Option α)
  | .store k value => if k = key then some (some value) else none
  | .remove k => if k = key then some none else none
  | _ => none

/-- The last value stored for a key and not removed since, over a map that is there at first. -/
def held (start : κ → Option α) (calls : List (Call κ α)) (key : κ) : Option α :=
  (calls.reverse.findSome? (Call.tells key)).getD (start key)

@[simp]
theorem held_nil (start : κ → Option α) (key : κ) : held start [] key = start key :=
  rfl

theorem held_cons (start : κ → Option α) (c : Call κ α) (calls : List (Call κ α)) (key : κ) :
    held start (c :: calls) key = held (fun k => (c.tells k).getD (start k)) calls key := by
  rw [held, List.reverse_cons, List.findSome?_append, held]
  cases calls.reverse.findSome? (Call.tells key) with
  | some value => rfl
  | none =>
    rw [Option.none_or, List.findSome?_singleton]
    rfl

theorem held_append (start : κ → Option α) (calls : List (Call κ α)) (c : Call κ α) (key : κ) :
    held start (calls ++ [c]) key = (c.tells key).getD (held start calls key) := by
  rw [held, List.reverse_append, List.reverse_singleton, List.singleton_append,
    List.findSome?_cons]
  cases c.tells key <;> rfl

end Held

/-- The sorted listing of a map. -/
structure IsListing (m : κ → Option α) (l : List (κ × α)) : Prop where
  sorted : l.Pairwise fun a b => compare a.1 b.1 = .lt
  mem : ∀ key value, (key, value) ∈ l ↔ m key = some value

/-- The iterator stands at place `i` of a listing. -/
def Iterator.At (l : List (κ × α)) (i : ℕ) (it : Iterator κ) : Prop :=
  it.it = l[i]?.map Prod.fst ∧ it.first = l.head?.map Prod.fst

/-- Every read is one of the map `m`, and iterators walk its listing `l`. -/
structure AnswersAs [DecidableEq κ] (s : CachedLevelMap κ α) (m : κ → Option α)
    (l : List (κ × α)) : Prop where
  fetchOptional : ∀ key, s.fetchOptional key = m key
  fetch : ∀ key, s.fetch key = orThrow (m key) .keyNotFound
  size : s.size = l.length
  last : s.last = l.getLast?
  beginIt : s.beginIt.At l 0
  lastIt : s.lastIt.At l (l.length - 1)
  findIt : ∀ key, ∃ i ≤ l.length, (s.findIt key).At l i ∧
    ∀ n e, l[n]? = some e → (n = i ↔ e.1 = key)
  lowerBound : ∀ key, ∃ i ≤ l.length, (s.lowerBound key).At l i ∧
    ∀ n e, l[n]? = some e → (n < i ↔ compare e.1 key = .lt)
  valid : ∀ it : Iterator κ, ∀ i, it.At l i → it.valid = decide (i < l.length)
  entry : ∀ it : Iterator κ, ∀ i, it.At l i → it.entry s = l[i]?
  next : ∀ it : Iterator κ, ∀ i < l.length, it.At l i →
    ∃ it', it.next s = some it' ∧ it'.At l (i + 1)
  prev : ∀ it : Iterator κ, ∀ i ≤ l.length, it.At l i →
    (it.prev s).At l (if i = 0 then l.length else i - 1)

section Answers

variable [LawfulEqOrd κ] {s : CachedLevelMap κ α}

theorem isListing_cache (s : CachedLevelMap κ α) :
    IsListing (fun key => s.cache[key]?) s.cache.toList :=
  ⟨ExtTreeMap.ordered_keys_toList, fun _ _ => Table.mem_toList⟩

omit [LawfulEqOrd κ] in
theorem getElem?_keys (t : Table κ α) (i : ℕ) : t.keys[i]? = t.toList[i]?.map Prod.fst := by
  rw [← ExtTreeMap.map_fst_toList_eq_keys, List.getElem?_map]

omit [LawfulEqOrd κ] in
theorem firstKey_eq (t : Table κ α) : t.firstKey = t.toList.head?.map Prod.fst := by
  rw [Table.firstKey, ← ExtTreeMap.map_fst_toList_eq_keys, List.head?_map]

omit [LawfulEqOrd κ] in
theorem lastKey_eq (t : Table κ α) : t.lastKey = t.toList[t.toList.length - 1]?.map Prod.fst := by
  rw [Table.lastKey, ← ExtTreeMap.map_fst_toList_eq_keys, List.getLast?_map,
    List.getLast?_eq_getElem?]

/-- Two places of the listing with the same key are the same. -/
theorem place_eq {t : Table κ α} {i j : ℕ} {a b : κ × α} (ha : t.toList[i]? = some a)
    (hb : t.toList[j]? = some b) (h : a.1 = b.1) : i = j := by
  have hkeys := Table.nodup_toList_keys t
  obtain ⟨hi, ha⟩ := List.getElem?_eq_some_iff.1 ha
  obtain ⟨hj, hb⟩ := List.getElem?_eq_some_iff.1 hb
  refine (@List.Nodup.getElem_inj_iff _ _ hkeys i (by simpa using hi) j (by simpa using hj)).1 ?_
  rw [List.getElem_map, List.getElem_map, ha, hb, h]

/-- The place of a key that the table holds. -/
theorem exists_place {t : Table κ α} {key : κ} {value : α} (h : t[key]? = some value) :
    ∃ i < t.toList.length, t.toList[i]? = some (key, value) := by
  obtain ⟨i, hi⟩ := List.getElem?_of_mem (Table.mem_toList.2 h)
  exact ⟨i, (List.getElem?_eq_some_iff.1 hi).1, hi⟩

theorem findIt_at [DecidableEq κ] (s : CachedLevelMap κ α) (key : κ) :
    ∃ i ≤ s.cache.toList.length, (s.findIt key).At s.cache.toList i ∧
      ∀ n e, s.cache.toList[n]? = some e → (n = i ↔ e.1 = key) := by
  cases hkey : s.cache[key]? with
  | none =>
    refine ⟨s.cache.toList.length, le_rfl, ⟨?_, firstKey_eq _⟩, fun n e he => ?_⟩
    · rw [List.getElem?_eq_none le_rfl, findIt, hkey]
      rfl
    · have hn := (List.getElem?_eq_some_iff.1 he).1
      refine ⟨fun h => absurd h hn.ne, ?_⟩
      rintro rfl
      rw [Table.mem_toList.1 (List.mem_of_getElem? he)] at hkey
      cases hkey
  | some value =>
    obtain ⟨i, hi, hplace⟩ := exists_place hkey
    refine ⟨i, hi.le, ⟨?_, firstKey_eq _⟩, fun n e he => ⟨?_, fun h => place_eq he hplace h⟩⟩
    · rw [hplace, findIt, hkey]
      rfl
    · rintro rfl
      rw [hplace] at he
      cases he
      rfl

omit [LawfulEqOrd κ] in
theorem lowerBound_at (s : CachedLevelMap κ α) (key : κ) :
    ∃ i ≤ s.cache.toList.length, (s.lowerBound key).At s.cache.toList i ∧
      ∀ n e, s.cache.toList[n]? = some e → (n < i ↔ compare e.1 key = .lt) := by
  obtain ⟨i, hi, hfrom, hbelow⟩ := Table.exists_keyFrom s.cache key
  refine ⟨i, ?_, ⟨?_, firstKey_eq _⟩, fun n e he => hbelow n e.1 ?_⟩
  · rwa [← ExtTreeMap.map_fst_toList_eq_keys, List.length_map] at hi
  · rw [lowerBound, hfrom, getElem?_keys]
  · rw [getElem?_keys, he]
    rfl

/-- One step back, from any place. -/
theorem prev_at [DecidableEq κ] {it : Iterator κ} {i : ℕ} (hi : i ≤ s.cache.toList.length)
    (h : it.At s.cache.toList i) :
    (it.prev s).At s.cache.toList (if i = 0 then s.cache.toList.length else i - 1) := by
  obtain ⟨hit, hfirst⟩ := h
  cases i with
  | zero =>
    have heq : it.it = it.first := by rw [hit, hfirst, List.head?_eq_getElem?]
    rw [if_pos rfl, Iterator.prev, if_pos heq]
    exact ⟨by rw [List.getElem?_eq_none le_rfl]; rfl, hfirst⟩
  | succ i =>
    have hne : it.it ≠ it.first := by
      intro heq
      rw [hit, hfirst, List.head?_eq_getElem?] at heq
      obtain ⟨b, hb⟩ : ∃ b, s.cache.toList[0]? = some b :=
        ⟨_, List.getElem?_eq_getElem (by omega)⟩
      rw [hb] at heq
      cases ha : s.cache.toList[i + 1]? with
      | none =>
        rw [ha] at heq
        cases heq
      | some a =>
        rw [ha] at heq
        cases place_eq ha hb (Option.some.inj heq)
    rw [if_neg (Nat.succ_ne_zero i), Nat.add_sub_cancel, Iterator.prev, if_neg hne]
    cases ha : s.cache.toList[i + 1]? with
    | none =>
      have hlen : s.cache.toList.length - 1 = i := by
        have := List.getElem?_eq_none_iff.1 ha
        omega
      rw [ha] at hit
      refine ⟨?_, by rw [hit]; exact hfirst⟩
      rw [hit, ← hlen]
      exact lastKey_eq _
    | some a =>
      rw [ha] at hit
      refine ⟨?_, by rw [hit]; exact hfirst⟩
      rw [hit, ← getElem?_keys]
      exact Table.keyBefore_of_getElem? (by rw [getElem?_keys, ha]; rfl)

/-- **The cache is a sorted map**: every read is one of what it holds. -/
theorem answersAs_cache [DecidableEq κ] (s : CachedLevelMap κ α) :
    s.AnswersAs (fun key => s.cache[key]?) s.cache.toList where
  fetchOptional _ := rfl
  fetch _ := rfl
  size := ExtTreeMap.length_toList.symm
  last := rfl
  beginIt := ⟨by rw [← List.head?_eq_getElem?]; exact firstKey_eq _, firstKey_eq _⟩
  lastIt := by
    unfold lastIt
    split
    · rename_i hempty
      refine ⟨?_, firstKey_eq _⟩
      rw [ExtTreeMap.isEmpty_iff.1 hempty]
      rfl
    · exact ⟨lastKey_eq _, firstKey_eq _⟩
  findIt := s.findIt_at
  lowerBound := s.lowerBound_at
  valid it i h := by
    rw [Iterator.valid, h.1, Option.isSome_map]
    by_cases hi : i < s.cache.toList.length
    · rw [List.getElem?_eq_getElem hi, decide_eq_true hi]
      rfl
    · rw [List.getElem?_eq_none (not_lt.1 hi), decide_eq_false hi]
      rfl
  entry it i h := by
    rw [Iterator.entry, h.1]
    cases he : s.cache.toList[i]? with
    | none => rfl
    | some e =>
      have hmem := Table.mem_toList.1 (List.mem_of_getElem? he)
      change (s.cache[e.1]?).map (fun value => (e.1, value)) = some e
      rw [hmem]
      rfl
  next it i hi h := by
    have he := List.getElem?_eq_getElem hi
    refine ⟨⟨s.cache.toList[i + 1]?.map Prod.fst, it.first⟩, ?_, rfl, h.2⟩
    rw [Iterator.next, h.1, he, Option.map_some, Option.map_some, ← getElem?_keys]
    rw [Table.keyAfter_of_getElem? (by rw [getElem?_keys, he]; rfl)]
  prev _ _ hi h := prev_at hi h

end Answers

/-! ### The invariant -/

variable [LawfulEqOrd κ]

/-- The invariant of an open map: the values to be written are in the cache, the keys to be
removed are not, and away from both the database and the cache agree. -/
structure Consistent (s : CachedLevelMap κ α) : Prop where
  isOpen : s.db.isOpen = true
  toStore : ∀ key : κ, s.dirtyStore[key]? = some () → s.cache[key]? ≠ none
  toRemove : ∀ key : κ, s.dirtyRemove[key]? = some () → s.cache[key]? = none
  clean : ∀ key : κ, s.dirtyStore[key]? = none → s.dirtyRemove[key]? = none →
    s.db.entries[key]? = s.cache[key]?
  through : s.writeThrough = true → s.dirtyStore = ∅ ∧ s.dirtyRemove = ∅

variable [DecidableEq κ] {s : CachedLevelMap κ α}

/-- The state after a flush: the database holds what the cache holds. -/
def flushed (s : CachedLevelMap κ α) : CachedLevelMap κ α :=
  { s with db := { s.db with entries := s.cache }, dirtyStore := ∅, dirtyRemove := ∅ }

/-- A batch of keys that are all in the cache is built without an exception, and copies their
values. -/
theorem storeBatch_spec (cache : Table κ α) {keys : List κ} (h : ∀ k ∈ keys, cache[k]? ≠ none) :
    ∃ batch, storeBatch cache keys = (batch, none) ∧ ∀ (t : Table κ α) (key : κ),
      (batch.foldl BatchOp.apply t)[key]? = if key ∈ keys then cache[key]? else t[key]? := by
  induction keys with
  | nil => exact ⟨[], rfl, fun t key => (if_neg List.not_mem_nil).symm⟩
  | cons k keys ih =>
    obtain ⟨batch, hbatch, hfold⟩ := ih fun j hj => h j (List.mem_cons_of_mem _ hj)
    obtain ⟨value, hvalue⟩ := Option.ne_none_iff_exists'.1 (h k List.mem_cons_self)
    refine ⟨.put k value :: batch, ?_, fun t key => ?_⟩
    · rw [storeBatch, hvalue, hbatch]
    · rw [List.foldl_cons, hfold, BatchOp.apply, Table.getElem?_insert]
      by_cases hk : key = k
      · subst hk
        rw [if_pos rfl, if_pos List.mem_cons_self, hvalue, ite_self]
      · rw [if_neg hk]
        simp only [List.mem_cons, hk, false_or]

/-- A lookup after a batch of removals. -/
theorem getElem?_foldl_delete (t : Table κ α) (keys : List κ) (key : κ) :
    ((keys.map BatchOp.delete).foldl BatchOp.apply t)[key]? =
      if key ∈ keys then none else t[key]? := by
  rw [List.foldl_map]
  exact Table.getElem?_foldl_erase t keys key

omit [DecidableEq κ] in
theorem mem_keys {d : Table κ Unit} {key : κ} : key ∈ d.keys ↔ d[key]? = some () := by
  rw [ExtTreeMap.mem_keys, ExtTreeMap.mem_iff_isSome_getElem?, Option.isSome_iff_exists]
  exact ⟨fun ⟨(), h⟩ => h, fun h => ⟨(), h⟩⟩

/-- **Flushing does not throw**, and writes the cache. -/
theorem flush_run (h : s.Consistent) : flush.run s = .ok () s.flushed := by
  obtain ⟨batch, hbatch, hfold⟩ := storeBatch_spec s.cache
    fun key hkey => h.toStore key (mem_keys.1 hkey)
  have hentries : (batch ++ s.dirtyRemove.keys.map BatchOp.delete).foldl BatchOp.apply s.db.entries =
      s.cache := by
    refine Table.ext fun key => ?_
    rw [List.foldl_append, getElem?_foldl_delete, hfold]
    simp only [mem_keys]
    cases hremove : s.dirtyRemove[key]? with
    | some u => rw [if_pos rfl, h.toRemove key hremove]
    | none =>
      rw [if_neg nofun]
      cases hstore : s.dirtyStore[key]? with
      | some u => rw [if_pos rfl]
      | none => rw [if_neg nofun, h.clean key hstore hremove]
  have hcommit : s.db.commit (batch ++ s.dirtyRemove.keys.map .delete) =
      .ok { s.db with entries := s.cache } := by
    rw [LevelMap.commit_of_open h.isOpen, hentries]
  refine Outcome.run_eq ?_
  unfold flush onDb
  rw [Outcome.bind_iff, Outcome.get_iff, hbatch]
  simp only [Outcome.bind_iff, Outcome.get_iff, hcommit, Outcome.set_iff, Outcome.modify_iff]
  exact ⟨trivial, rfl⟩

theorem outcome_flush (h : s.Consistent) {Q : Unit → CachedLevelMap κ α → Prop}
    {E : DbError → CachedLevelMap κ α → Prop} : Outcome flush s Q E ↔ Q () s.flushed := by
  unfold Outcome
  rw [flush_run h]

omit [LawfulEqOrd κ] [DecidableEq κ] in
theorem Consistent.flushed (h : s.Consistent) : s.flushed.Consistent where
  isOpen := h.isOpen
  toStore key hkey := by
    rw [CachedLevelMap.flushed, Table.getElem?_empty'] at hkey
    cases hkey
  toRemove key hkey := by
    rw [CachedLevelMap.flushed, Table.getElem?_empty'] at hkey
    cases hkey
  clean _ _ _ := rfl
  through _ := ⟨rfl, rfl⟩

/-! ### One call -/

/-- What a call leaves: the invariant, the cache with the change the call makes, and, where it was
made in write-through mode or is a flush, a database that holds what the cache holds. -/
structure Stepped (s : CachedLevelMap κ α) (c : Call κ α) (s' : CachedLevelMap κ α) : Prop where
  consistent : s'.Consistent
  cache : ∀ key : κ, s'.cache[key]? = (c.tells key).getD s.cache[key]?
  saved : s.writeThrough = true ∨ c.flushes = true → s'.db.entries = s'.cache

omit [DecidableEq κ] in
/-- A map with nothing to write holds the same in the database and in the cache. -/
theorem Consistent.entries_eq (h : s.Consistent) (hstore : s.dirtyStore = ∅)
    (hremove : s.dirtyRemove = ∅) : s.db.entries = s.cache := by
  refine Table.ext fun key => h.clean key ?_ ?_
  · rw [hstore, Table.getElem?_empty']
  · rw [hremove, Table.getElem?_empty']

omit [DecidableEq κ] in
theorem Consistent.entries_eq_of_through (h : s.Consistent) (hthrough : s.writeThrough = true) :
    s.db.entries = s.cache :=
  h.entries_eq (h.through hthrough).1 (h.through hthrough).2

/-- The state `store` leaves. -/
def stored (key : κ) (value : α) (s : CachedLevelMap κ α) : CachedLevelMap κ α :=
  if s.writeThrough then
    { s with
      cache := s.cache.insert key value
      db := { s.db with entries := s.db.entries.insert key value } }
  else
    { s with
      cache := s.cache.insert key value
      dirtyStore := s.dirtyStore.insert key ()
      dirtyRemove := s.dirtyRemove.erase key }

/-- The state `remove` leaves. -/
def removed (key : κ) (s : CachedLevelMap κ α) : CachedLevelMap κ α :=
  if s.writeThrough then
    { s with
      cache := s.cache.erase key
      db := { s.db with entries := s.db.entries.erase key } }
  else
    { s with
      cache := s.cache.erase key
      dirtyStore := s.dirtyStore.erase key
      dirtyRemove := s.dirtyRemove.insert key () }

omit [LawfulEqOrd κ] [DecidableEq κ] in
theorem store_run (h : s.Consistent) (key : κ) (value : α) :
    (store key value).run s = .ok () (s.stored key value) := by
  have hdb := LevelMap.store_of_open h.isOpen key value
  refine Outcome.run_eq ?_
  simp only [store, stored, Outcome.bind_iff, Outcome.modify_iff, Outcome.get_iff]
  split
  · simp only [onDb, Outcome.bind_iff, Outcome.get_iff, hdb, Outcome.set_iff, and_self]
  · simp only [Outcome.modify_iff, and_self]

omit [LawfulEqOrd κ] [DecidableEq κ] in
theorem remove_run (h : s.Consistent) (key : κ) :
    (remove key).run s = .ok () (s.removed key) := by
  have hdb := LevelMap.remove_of_open h.isOpen key
  refine Outcome.run_eq ?_
  simp only [remove, removed, Outcome.bind_iff, Outcome.modify_iff, Outcome.get_iff]
  split
  · simp only [onDb, Outcome.bind_iff, Outcome.get_iff, hdb, Outcome.set_iff, and_self]
  · simp only [Outcome.modify_iff, and_self]

omit [LawfulEqOrd κ] [DecidableEq κ] in
/-- In write-through mode the database takes every change of the cache. -/
theorem Consistent.through_write (h : s.Consistent) (hthrough : s.writeThrough = true)
    (cache : Table κ α) :
    Consistent { s with cache := cache, db := { s.db with entries := cache } } := by
  obtain ⟨hstore, hremove⟩ := h.through hthrough
  refine ⟨h.isOpen, fun k hk => ?_, fun k hk => ?_, fun _ _ _ => rfl, h.through⟩
  · rw [hstore, Table.getElem?_empty'] at hk
    cases hk
  · rw [hremove, Table.getElem?_empty'] at hk
    cases hk

theorem tells_store (t : Table κ α) (key : κ) (value : α) (k : κ) :
    (t.insert key value)[k]? = (Call.tells k (.store key value)).getD t[k]? := by
  rw [Table.getElem?_insert, Call.tells]
  by_cases hk : key = k
  · rw [if_pos hk, if_pos hk.symm]
    rfl
  · rw [if_neg hk, if_neg (Ne.symm hk)]
    rfl

theorem tells_remove (t : Table κ α) (key k : κ) :
    (t.erase key)[k]? = (Call.tells k (.remove key : Call κ α)).getD t[k]? := by
  rw [Table.getElem?_erase, Call.tells]
  by_cases hk : key = k
  · rw [if_pos hk, if_pos hk.symm]
    rfl
  · rw [if_neg hk, if_neg (Ne.symm hk)]
    rfl

theorem Consistent.store (h : s.Consistent) (key : κ) (value : α) :
    Stepped s (.store key value) (s.stored key value) := by
  unfold CachedLevelMap.stored
  split
  · rename_i hthrough
    rw [h.entries_eq_of_through hthrough]
    exact ⟨h.through_write hthrough _, tells_store _ key value, fun _ => rfl⟩
  · rename_i hback
    refine ⟨⟨h.isOpen, fun k hk => ?_, fun k hk => ?_, fun k hstore hremove => ?_,
      fun hthrough => absurd hthrough hback⟩, tells_store _ key value, ?_⟩
    · by_cases hkey : k = key
      · rw [hkey, Table.getElem?_insert_same]
        nofun
      · rw [Table.getElem?_insert_of_ne _ _ hkey] at hk ⊢
        exact h.toStore k hk
    · have hkey : k ≠ key := by
        rintro rfl
        rw [Table.getElem?_erase_same] at hk
        cases hk
      rw [Table.getElem?_erase_of_ne _ hkey] at hk
      rw [Table.getElem?_insert_of_ne _ _ hkey]
      exact h.toRemove k hk
    · have hkey : k ≠ key := by
        rintro rfl
        rw [Table.getElem?_insert_same] at hstore
        cases hstore
      rw [Table.getElem?_insert_of_ne _ _ hkey] at hstore ⊢
      rw [Table.getElem?_erase_of_ne _ hkey] at hremove
      exact h.clean k hstore hremove
    · rintro (hthrough | hflush)
      · exact absurd hthrough hback
      · cases hflush

theorem Consistent.remove (h : s.Consistent) (key : κ) :
    Stepped s (.remove key) (s.removed key) := by
  unfold CachedLevelMap.removed
  split
  · rename_i hthrough
    rw [h.entries_eq_of_through hthrough]
    exact ⟨h.through_write hthrough _, tells_remove _ key, fun _ => rfl⟩
  · rename_i hback
    refine ⟨⟨h.isOpen, fun k hk => ?_, fun k hk => ?_, fun k hstore hremove => ?_,
      fun hthrough => absurd hthrough hback⟩, tells_remove _ key, ?_⟩
    · have hkey : k ≠ key := by
        rintro rfl
        rw [Table.getElem?_erase_same] at hk
        cases hk
      rw [Table.getElem?_erase_of_ne _ hkey] at hk ⊢
      exact h.toStore k hk
    · by_cases hkey : k = key
      · rw [hkey, Table.getElem?_erase_same]
      · rw [Table.getElem?_insert_of_ne _ _ hkey] at hk
        rw [Table.getElem?_erase_of_ne _ hkey]
        exact h.toRemove k hk
    · have hkey : k ≠ key := by
        rintro rfl
        rw [Table.getElem?_insert_same] at hremove
        cases hremove
      rw [Table.getElem?_insert_of_ne _ _ hkey] at hremove
      rw [Table.getElem?_erase_of_ne _ hkey] at hstore ⊢
      exact h.clean k hstore hremove
    · rintro (hthrough | hflush)
      · exact absurd hthrough hback
      · cases hflush

/-- The state `set_write_through` leaves. -/
def switched (writeThrough : Bool) (s : CachedLevelMap κ α) : CachedLevelMap κ α :=
  if s.writeThrough = false ∧ writeThrough = true then
    { s.flushed with writeThrough := writeThrough }
  else { s with writeThrough := writeThrough }

theorem setWriteThrough_run (h : s.Consistent) (writeThrough : Bool) :
    (setWriteThrough writeThrough).run s = .ok () (s.switched writeThrough) := by
  refine Outcome.run_eq ?_
  simp only [setWriteThrough, switched, Outcome.bind_iff, Outcome.get_iff]
  split
  · rw [Outcome.bind_iff, outcome_flush h]
    exact ⟨trivial, rfl⟩
  · exact ⟨trivial, rfl⟩

/-- Switching to write-through leaves nothing to write. -/
theorem Consistent.switch (h : s.Consistent) (writeThrough : Bool) :
    Stepped s (.setWriteThrough writeThrough) (s.switched writeThrough) := by
  unfold switched
  split
  · have hflushed := h.flushed
    exact ⟨⟨hflushed.isOpen, hflushed.toStore, hflushed.toRemove, hflushed.clean,
      fun _ => ⟨rfl, rfl⟩⟩, fun _ => rfl, fun _ => rfl⟩
  · rename_i hstay
    refine ⟨⟨h.isOpen, h.toStore, h.toRemove, h.clean, fun hthrough => h.through ?_⟩,
      fun _ => rfl, ?_⟩
    · by_contra hback
      exact hstay ⟨Bool.eq_false_iff.2 hback, hthrough⟩
    · rintro (hthrough | hflush)
      · exact h.entries_eq_of_through hthrough
      · cases hflush

/-! ### Closing and opening -/

/-- The state `close` leaves. -/
def closed (s : CachedLevelMap κ α) : CachedLevelMap κ α :=
  { s with
    db := { entries := s.cache, isOpen := false }
    cache := ∅, dirtyStore := ∅, dirtyRemove := ∅ }

theorem close_run (h : s.Consistent) : close.run s = .ok () s.closed := by
  refine Outcome.run_eq ?_
  rw [close, Outcome.bind_iff, outcome_flush h]
  exact ⟨rfl, rfl⟩

/-- The state `open` leaves, from a map that is closed and holds nothing in memory. -/
def opened (entries : Table κ α) (writeThrough syncOnWrite : Bool) : CachedLevelMap κ α where
  db := { entries := entries, isOpen := true }
  cache := entries
  writeThrough := writeThrough
  syncOnWrite := syncOnWrite

/-- A map that is closed and holds nothing in memory. -/
structure IsClosed (s : CachedLevelMap κ α) : Prop where
  isOpen : s.db.isOpen = false
  cache : s.cache = ∅
  dirtyStore : s.dirtyStore = ∅
  dirtyRemove : s.dirtyRemove = ∅

omit [DecidableEq κ] in
/-- Loading the entries of the database makes a copy of it. -/
theorem foldl_insert_toList (t : Table κ α) :
    t.toList.foldl (fun cache (e : κ × α) => cache.insert e.1 e.2) ∅ = t := by
  refine Table.ext fun key => ?_
  have habove := Table.getElem?_above t ∅ key
  rw [Table.above, ExtTreeMap.foldl_eq_foldl_toList, Table.getElem?_empty', Option.or_none]
    at habove
  exact habove

omit [DecidableEq κ] in
theorem open_run (h : s.IsClosed) (writeThrough syncOnWrite : Bool) :
    (open' writeThrough syncOnWrite).run s =
      .ok () (opened s.db.entries writeThrough syncOnWrite) := by
  have hopen := LevelMap.open_of_closed h.isOpen
  have hscan : LevelMap.scan { s.db with isOpen := true } = .ok s.db.entries.toList := rfl
  refine Outcome.run_eq ?_
  simp only [open', onDb, Outcome.bind_iff, Outcome.get_iff, hopen, Outcome.set_iff, hscan,
    h.cache, foldl_insert_toList, Outcome.modify_iff, h.dirtyStore, h.dirtyRemove]
  exact ⟨trivial, rfl⟩

omit [LawfulEqOrd κ] [DecidableEq κ] in
theorem consistent_opened (entries : Table κ α) (writeThrough syncOnWrite : Bool) :
    (opened entries writeThrough syncOnWrite).Consistent where
  isOpen := rfl
  toStore key hkey := by
    rw [opened, Table.getElem?_empty'] at hkey
    cases hkey
  toRemove key hkey := by
    rw [opened, Table.getElem?_empty'] at hkey
    cases hkey
  clean _ _ _ := rfl
  through _ := ⟨rfl, rfl⟩

omit [TransOrd κ] [LawfulEqOrd κ] [DecidableEq κ] in
theorem isClosed_closed (s : CachedLevelMap κ α) : s.closed.IsClosed :=
  ⟨rfl, rfl, rfl, rfl⟩

/-! ### Runs -/

/-- **One call** on a consistent map returns and does what it says. -/
theorem Consistent.step (h : s.Consistent) (c : Call κ α) :
    ∃ s', c.run.run s = .ok () s' ∧ Stepped s c s' := by
  cases c with
  | store key value => exact ⟨_, store_run h key value, h.store key value⟩
  | remove key => exact ⟨_, remove_run h key, h.remove key⟩
  | flush => exact ⟨_, flush_run h, h.flushed, fun _ => rfl, fun _ => rfl⟩
  | setWriteThrough writeThrough =>
    exact ⟨_, setWriteThrough_run h writeThrough, h.switch writeThrough⟩
  | reopen writeThrough syncOnWrite =>
    refine ⟨opened s.cache writeThrough syncOnWrite, ?_, consistent_opened .., fun _ => rfl,
      fun _ => rfl⟩
    exact (run_bind_ok (close_run h)).trans (open_run s.isClosed_closed writeThrough syncOnWrite)

/-- Calls made one after the other. -/
def runCalls (calls : List (Call κ α)) : CachedM κ α Unit :=
  calls.forM Call.run

/-- **A run** of calls on a consistent map returns, and the cache holds what was stored last. -/
theorem Consistent.run (h : s.Consistent) (calls : List (Call κ α)) :
    ∃ s', (runCalls calls).run s = .ok () s' ∧ s'.Consistent ∧
      ∀ key, s'.cache[key]? = held (fun k => s.cache[k]?) calls key := by
  induction calls generalizing s with
  | nil => exact ⟨s, rfl, h, fun _ => rfl⟩
  | cons c calls ih =>
    obtain ⟨s₁, hrun₁, hstep⟩ := h.step c
    obtain ⟨s', hrun, hs', hcache⟩ := ih hstep.consistent
    refine ⟨s', (run_bind_ok hrun₁).trans hrun, hs', fun key => ?_⟩
    rw [hcache, held_cons]
    simp only [hstep.cache]

/-- The database holds the map `m`. -/
def Saves (s : CachedLevelMap κ α) (m : κ → Option α) : Prop :=
  ∀ key : κ, s.db.entries[key]? = m key

end CachedLevelMap

end LarkX
