import LarkX.Net.PeerDatabase
import Mathlib.Data.List.Perm.Basic
import Mathlib.Data.List.Nodup

/-!
# The peer database and its mirror

What is in memory mirrors the table of the LevelDB (`Mirror`) while it is open. A new record keeps
this when the key after the last one is free. It is not free when the keys have come to the last
32-bit number, where they begin again at zero: this may be soon, since the key of the first record
in an empty table is whatever memory holds.

Opening keeps the peers that were seen first, where it was to keep those that were seen last
(`pruned_iff`).
-/

namespace LarkX

open Std (ExtTreeMap)

variable {t : Table ℕ PotentialPeerRecord} {set set' : PotentialPeerSet} {e e' : PeerEntry}
  {r r' : PotentialPeerRecord} {key key' endpoint : ℕ}

/-- The set and the table hold the same records, one for an endpoint. -/
structure Mirror (t : Table ℕ PotentialPeerRecord) (set : PotentialPeerSet) : Prop where
  mem : ∀ e, e ∈ set ↔ t[e.databaseKey]? = some e.peerRecord
  endpoints : (set.map PeerEntry.getEndpoint).Nodup

/-- A table with one record for an endpoint. -/
def OnePerEndpoint (t : Table ℕ PotentialPeerRecord) : Prop :=
  ∀ (key key' : ℕ) (r r' : PotentialPeerRecord), t[key]? = some r → t[key']? = some r' →
    r.endpoint = r'.endpoint → key = key'

namespace Mirror

theorem nodup (h : Mirror t set) : set.Nodup :=
  h.endpoints.of_map _

theorem eq_of_endpoint (h : Mirror t set) (he : e ∈ set) (he' : e' ∈ set)
    (heq : e.getEndpoint = e'.getEndpoint) : e = e' :=
  List.inj_on_of_nodup_map h.endpoints he he' heq

/-- Every entry is under a key of its own. -/
theorem keys (h : Mirror t set) : (set.map PeerEntry.databaseKey).Nodup := by
  refine List.Nodup.map_on (fun e he e' he' hkey => ?_) h.nodup
  have hr := (h.mem e).1 he
  rw [hkey, (h.mem e').1 he'] at hr
  obtain ⟨key, r⟩ := e
  obtain ⟨key', r'⟩ := e'
  cases hkey
  cases hr
  rfl

theorem perm (h : Mirror t set) (hperm : set'.Perm set) : Mirror t set' where
  mem e := hperm.mem_iff.trans (h.mem e)
  endpoints := (hperm.map _).nodup_iff.2 h.endpoints

theorem onePerEndpoint (h : Mirror t set) : OnePerEndpoint t := by
  intro key key' r r' hr hr' heq
  have hmem := (h.mem ⟨key, r⟩).2 hr
  have hmem' := (h.mem ⟨key', r'⟩).2 hr'
  exact congrArg PeerEntry.databaseKey (h.eq_of_endpoint hmem hmem' heq)

theorem empty : Mirror ∅ [] where
  mem e := by
    rw [Table.getElem?_empty']
    exact ⟨fun h => (List.not_mem_nil h).elim, nofun⟩
  endpoints := List.nodup_nil

end Mirror

/-! ### The set in memory -/

namespace PotentialPeerSet

theorem find_eq_some (h : find set endpoint = some e) : e ∈ set ∧ e.getEndpoint = endpoint := by
  obtain ⟨he, before, after, rfl, -⟩ := List.find?_eq_some_iff_append.1 h
  exact ⟨List.mem_append_right _ List.mem_cons_self, beq_iff_eq.1 he⟩

theorem find_eq_none : find set endpoint = none ↔ ∀ e ∈ set, e.getEndpoint ≠ endpoint := by
  rw [find, List.find?_eq_none]
  exact forall₂_congr fun e _ => not_congr beq_iff_eq

theorem place_perm (set : PotentialPeerSet) (e : PeerEntry) : (place set e).Perm (e :: set) := by
  refine List.perm_middle.trans (List.Perm.cons e ?_)
  rw [List.takeWhile_append_dropWhile]

theorem insert_perm (h : find set e.getEndpoint = none) : (insert set e).Perm (e :: set) := by
  rw [insert, h]
  exact place_perm set e

/-- The entry that is modified takes the record. -/
theorem modify_perm (h : find set r.endpoint = some e) :
    ∃ rest, set.Perm (e :: rest) ∧ (modify set r).Perm ({ e with peerRecord := r } :: rest) := by
  obtain ⟨he, before, after, rfl, hbefore⟩ := List.find?_eq_some_iff_append.1 h
  have hstay : ∀ e' ∈ before, (e'.getEndpoint != r.endpoint) = true := hbefore
  have hstop : ¬(e.getEndpoint != r.endpoint) = true := by
    rw [bne, he]
    exact Bool.false_ne_true
  refine ⟨before ++ after, List.perm_middle, ?_⟩
  rw [modify, List.takeWhile_append_of_pos hstay, List.takeWhile_cons, if_neg hstop,
    List.append_nil, List.dropWhile_append_of_pos hstay, List.dropWhile_cons, if_neg hstop]
  dsimp only
  split
  · exact List.perm_middle
  · exact place_perm _ _

/-- The entry that is erased is the one with the endpoint. -/
theorem erase_perm (h : find set endpoint = some e) : set.Perm (e :: erase set endpoint) := by
  obtain ⟨he, before, after, rfl, hbefore⟩ := List.find?_eq_some_iff_append.1 h
  have hstay : ∀ e' ∈ before, ¬(e'.getEndpoint == endpoint) = true := fun e' he' hb => by
    have hne := hbefore e' he'
    rw [hb] at hne
    cases hne
  rw [erase, List.eraseP_append_right _ hstay, List.eraseP_cons, he]
  exact List.perm_middle

end PotentialPeerSet

/-! ### What the operations do to a mirror -/

namespace Mirror

/-- A record is put under a free key. -/
theorem insert (h : Mirror t set) (hendpoint : ∀ e' ∈ set, e'.getEndpoint ≠ e.getEndpoint)
    (hkey : t[e.databaseKey]? = none) :
    Mirror (t.insert e.databaseKey e.peerRecord) (e :: set) where
  mem e' := by
    rw [List.mem_cons]
    by_cases hk : e'.databaseKey = e.databaseKey
    · rw [hk, Table.getElem?_insert_same, Option.some.injEq]
      constructor
      · rintro (rfl | hmem)
        · rfl
        · have hr := (h.mem e').1 hmem
          rw [hk, hkey] at hr
          cases hr
      · intro hr
        left
        cases e
        cases e'
        cases hk
        cases hr
        rfl
    · rw [Table.getElem?_insert_of_ne _ _ hk, ← h.mem]
      exact or_iff_right fun heq => hk (congrArg PeerEntry.databaseKey heq)
  endpoints := by
    rw [List.map_cons, List.nodup_cons]
    refine ⟨fun hmem => ?_, h.endpoints⟩
    obtain ⟨e', he', heq⟩ := List.mem_map.1 hmem
    exact hendpoint e' he' heq

/-- A record is removed with its key. -/
theorem erase (h : Mirror t (e :: set)) : Mirror (t.erase e.databaseKey) set where
  mem e' := by
    have hkeys := h.keys
    rw [List.map_cons, List.nodup_cons] at hkeys
    by_cases hk : e'.databaseKey = e.databaseKey
    · rw [hk, Table.getElem?_erase_same]
      exact ⟨fun hmem => absurd (List.mem_map.2 ⟨e', hmem, hk⟩) hkeys.1, nofun⟩
    · rw [Table.getElem?_erase_of_ne _ hk, ← h.mem, List.mem_cons]
      exact (or_iff_right fun heq => hk (congrArg PeerEntry.databaseKey heq)).symm
  endpoints := (List.nodup_cons.1 h.endpoints).2

/-- A record takes the place of another one of its endpoint. -/
theorem replace (h : Mirror t (e :: set)) (hendpoint : r.endpoint = e.getEndpoint) :
    Mirror (t.insert e.databaseKey r) ({ e with peerRecord := r } :: set) := by
  have hinsert := h.erase.insert (e := { e with peerRecord := r }) (fun e' he' heq => by
    have hnodup := h.endpoints
    rw [List.map_cons, List.nodup_cons] at hnodup
    exact hnodup.1 (List.mem_map.2 ⟨e', he', heq.trans hendpoint⟩))
    (Table.getElem?_erase_same _ _)
  have htable : (t.erase e.databaseKey).insert e.databaseKey r = t.insert e.databaseKey r := by
    refine Table.ext fun key => ?_
    by_cases hk : key = e.databaseKey
    · rw [hk, Table.getElem?_insert_same, Table.getElem?_insert_same]
    · rw [Table.getElem?_insert_of_ne _ _ hk, Table.getElem?_erase_of_ne _ hk,
        Table.getElem?_insert_of_ne _ _ hk]
  exact htable ▸ hinsert

end Mirror

/-! ### The calls on the LevelDB -/

namespace PeerDatabase

variable {s : PeerDatabase} {leveldb : LevelMap ℕ PotentialPeerRecord} {α : Type} {a : α}
  {f : LevelMap ℕ PotentialPeerRecord → Except DbError (LevelMap ℕ PotentialPeerRecord)}
  {g : LevelMap ℕ PotentialPeerRecord → Except DbError α} {error : DbError}

theorem onDb_run (h : f s.leveldb = .ok leveldb) :
    (onDb f).run s = .ok () { s with leveldb := leveldb } := by
  rw [onDb, run_get_bind, h]
  rfl

theorem onDb_run_error (h : f s.leveldb = .error error) : (onDb f).run s = .error error s := by
  rw [onDb, run_get_bind, h]
  rfl

theorem readDb_run (h : g s.leveldb = .ok a) : (readDb g).run s = .ok a s := by
  rw [readDb, run_get_bind, h]
  rfl

theorem readDb_run_error (h : g s.leveldb = .error error) : (readDb g).run s = .error error s := by
  rw [readDb, run_get_bind, h]
  rfl

end PeerDatabase

/-! ### Loading and pruning -/

/-- The entries of a table are put into an empty set, which takes all when no endpoint comes
twice. -/
theorem foldl_insert_perm (set : PotentialPeerSet) {l : List (ℕ × PotentialPeerRecord)}
    (hl : (l.map fun x => x.2.endpoint).Nodup)
    (hset : ∀ x ∈ l, ∀ e ∈ set, e.getEndpoint ≠ x.2.endpoint) :
    (l.foldl (fun set x => PotentialPeerSet.insert set ⟨x.1, x.2⟩) set).Perm
      (set ++ l.map fun x => ⟨x.1, x.2⟩) := by
  induction l generalizing set with
  | nil =>
    rw [List.map_nil, List.append_nil]
    exact List.Perm.refl _
  | cons x l ih =>
    rw [List.map_cons, List.nodup_cons] at hl
    have hfind : PotentialPeerSet.find set (PeerEntry.mk x.1 x.2).getEndpoint = none :=
      PotentialPeerSet.find_eq_none.2 (hset x List.mem_cons_self)
    have hperm := PotentialPeerSet.insert_perm hfind
    refine (ih _ hl.2 fun y hy e he => ?_).trans ?_
    · rcases List.mem_cons.1 (hperm.mem_iff.1 he) with rfl | he
      · intro heq
        exact hl.1 (List.mem_map.2 ⟨y, hy, heq.symm⟩)
      · exact hset y (List.mem_cons_of_mem _ hy) e he
    · rw [List.map_cons]
      exact (hperm.append_right _).trans (List.perm_middle.symm)

/-- **Loading a table** with one record for an endpoint gives its mirror. -/
theorem mirror_loaded (h : OnePerEndpoint t) : Mirror t (PeerDatabase.loaded t.toList) := by
  have hendpoints : (t.toList.map fun x => x.2.endpoint).Nodup := by
    refine List.Nodup.map_on (fun x hx y hy heq => ?_) ((Table.nodup_toList_keys t).of_map _)
    have hkey := h x.1 y.1 x.2 y.2 (Table.mem_toList.1 hx) (Table.mem_toList.1 hy) heq
    have hx' := Table.mem_toList.1 hx
    rw [hkey, Table.mem_toList.1 hy] at hx'
    exact Prod.ext hkey (Option.some.inj hx').symm
  have hperm := foldl_insert_perm [] hendpoints fun _ _ _ he => (List.not_mem_nil he).elim
  have hentries : Mirror t (t.toList.map fun x => ⟨x.1, x.2⟩) := by
    refine ⟨fun e => ?_, ?_⟩
    · rw [← Table.mem_toList, List.mem_map]
      constructor
      · rintro ⟨x, hx, rfl⟩
        exact hx
      · exact fun he => ⟨_, he, rfl⟩
    · rw [List.map_map]
      exact hendpoints
  exact hentries.perm hperm

/-- What was seen first comes first. -/
def Ordered (set : PotentialPeerSet) : Prop :=
  set.Pairwise fun e e' => e.getLastSeenTime ≤ e'.getLastSeenTime

theorem ordered_place (h : Ordered set) (e : PeerEntry) :
    Ordered (PotentialPeerSet.place set e) := by
  induction set with
  | nil => exact List.pairwise_singleton _ _
  | cons e' set ih =>
    have htail := List.pairwise_cons.1 h
    by_cases hle : e'.getLastSeenTime ≤ e.getLastSeenTime
    · have hplace : PotentialPeerSet.place (e' :: set) e = e' :: PotentialPeerSet.place set e := by
        rw [PotentialPeerSet.place, List.takeWhile_cons, if_pos (decide_eq_true hle),
          List.dropWhile_cons, if_pos (decide_eq_true hle)]
        rfl
      rw [hplace]
      refine List.pairwise_cons.2 ⟨fun e'' he'' => ?_, ih htail.2⟩
      rcases List.mem_cons.1 ((PotentialPeerSet.place_perm set e).mem_iff.1 he'') with rfl | hmem
      · exact hle
      · exact htail.1 e'' hmem
    · have hplace : PotentialPeerSet.place (e' :: set) e = e :: e' :: set := by
        rw [PotentialPeerSet.place, List.takeWhile_cons, if_neg (by simpa using hle),
          List.dropWhile_cons, if_neg (by simpa using hle)]
        rfl
      rw [hplace]
      refine List.pairwise_cons.2 ⟨fun e'' he'' => ?_, h⟩
      have hlt : e.getLastSeenTime ≤ e'.getLastSeenTime := (Nat.le_total _ _).resolve_left hle
      rcases List.mem_cons.1 he'' with rfl | hmem
      · exact hlt
      · exact hlt.trans (htail.1 e'' hmem)

theorem ordered_loaded (entries : List (ℕ × PotentialPeerRecord)) :
    Ordered (PeerDatabase.loaded entries) := by
  have key : ∀ (l : List (ℕ × PotentialPeerRecord)) (set : PotentialPeerSet), Ordered set →
      Ordered (l.foldl (fun set x => set.insert ⟨x.1, x.2⟩) set) := by
    intro l
    induction l with
    | nil => exact fun _ h => h
    | cons x l ih =>
      intro set h
      refine ih _ ?_
      dsimp only [PotentialPeerSet.insert]
      split
      · exact h
      · exact ordered_place h _
  exact key entries [] List.Pairwise.nil

/-- The keys of the surplus are removed one after the other, and its entries with them. -/
theorem prune_run (db : LevelMap ℕ PotentialPeerRecord) {front surplus : List PeerEntry}
    (hopen : db.isOpen = true) (hfront : front.length = maximumPeerdbSize)
    (h : Mirror db.entries (front ++ surplus)) :
    ∃ t : Table ℕ PotentialPeerRecord, Mirror t front ∧
      (∀ (key : ℕ) (r : PotentialPeerRecord), t[key]? = some r → db.entries[key]? = some r) ∧
      (PeerDatabase.prune surplus).run ⟨db, front ++ surplus⟩ =
        .ok () ⟨{ db with entries := t }, front⟩ := by
  induction surplus generalizing db with
  | nil =>
    rw [List.append_nil] at h ⊢
    exact ⟨db.entries, h, fun _ _ hr => hr, rfl⟩
  | cons e surplus ih =>
    have herase := (h.perm List.perm_middle.symm).erase
    obtain ⟨t, hmirror, hsub, hrun⟩ :=
      ih { db with entries := db.entries.erase e.databaseKey } hopen herase
    refine ⟨t, hmirror, fun key r hr => ?_, ?_⟩
    · have hr' := hsub key r hr
      by_cases hk : key = e.databaseKey
      · rw [hk, Table.getElem?_erase_same] at hr'
        cases hr'
      · rwa [Table.getElem?_erase_of_ne _ hk] at hr'
    · have hset : (front ++ e :: surplus).eraseIdx maximumPeerdbSize = front ++ surplus := by
        rw [List.eraseIdx_append_of_length_le hfront.le, hfront, Nat.sub_self]
        rfl
      have hremove : (PeerDatabase.onDb fun db => db.remove e.databaseKey).run
          ⟨db, front ++ e :: surplus⟩ =
            .ok () ⟨{ db with entries := db.entries.erase e.databaseKey }, front ++ e :: surplus⟩ :=
        PeerDatabase.onDb_run (LevelMap.remove_of_open hopen _)
      have hstep : (do
          PeerDatabase.onDb fun db => db.remove e.databaseKey
          modify fun s : PeerDatabase => { s with peerSet := s.peerSet.eraseIdx maximumPeerdbSize } :
          PeerM Unit).run ⟨db, front ++ e :: surplus⟩ =
            .ok () ⟨{ db with entries := db.entries.erase e.databaseKey }, front ++ surplus⟩ := by
        rw [run_bind_ok hremove, ← hset]
        rfl
      exact (run_bind_ok hstep).trans hrun

/-! ### Runs -/

/-- A call on the peer database. -/
inductive PeerCall
  | open'
  | close
  | clear
  | erase (endpoint : ℕ)
  | updateEntry (garbage : ℕ) (updatedRecord : PotentialPeerRecord)

namespace PeerCall

def run : PeerCall → PeerM Unit
  | .open' => PeerDatabase.open'
  | .close => PeerDatabase.close
  | .clear => PeerDatabase.clear
  | .erase endpoint => PeerDatabase.erase endpoint
  | .updateEntry garbage updatedRecord => PeerDatabase.updateEntry garbage updatedRecord

/-- The database after a call, whether it has returned or thrown. -/
def after (c : PeerCall) (s : PeerDatabase) : PeerDatabase :=
  match c.run.run s with
  | .ok _ s' => s'
  | .error _ s' => s'

end PeerCall

/-- The set in memory mirrors the table of an open database; there is none beside a closed one. No
two records are for one endpoint. -/
structure PeerDatabase.Sound (s : PeerDatabase) : Prop where
  mirror : s.leveldb.isOpen = true → Mirror s.leveldb.entries s.peerSet
  closed : s.leveldb.isOpen = false → s.peerSet = []
  endpoints : OnePerEndpoint s.leveldb.entries

/-- Of a table the thousand records are kept that were seen last. -/
structure Pruned (t t' : Table ℕ PotentialPeerRecord) : Prop where
  sub : ∀ (key : ℕ) (r : PotentialPeerRecord), t'[key]? = some r → t[key]? = some r
  length : t'.toList.length = min maximumPeerdbSize t.toList.length
  recent : ∀ (key key' : ℕ) (r r' : PotentialPeerRecord), t'[key]? = some r → t[key']? = some r' →
    t'[key']? = none → r'.lastSeenTime ≤ r.lastSeenTime

/-- All calls of a run leave the database sound, and those that open it prune it. -/
def Mirrors : PeerDatabase → List PeerCall → Prop
  | s, [] => s.Sound
  | s, c :: calls =>
    s.Sound ∧ (c = .open' → s.leveldb.isOpen = false →
      Pruned s.leveldb.entries (c.after s).leveldb.entries) ∧ Mirrors (c.after s) calls

/-- What a call needs: there is nothing to prune when the database is opened, or nothing that tells
the records apart; and when there is a new record, the numbers of the records have not come to the
last one with zero in use. -/
def PeerCall.Meets (s : PeerDatabase) : PeerCall → Prop
  | .open' => s.leveldb.isOpen = false → s.leveldb.entries.toList.length ≤ maximumPeerdbSize ∨
      ∀ (key key' : ℕ) (r r' : PotentialPeerRecord), s.leveldb.entries[key]? = some r →
        s.leveldb.entries[key']? = some r' → r.lastSeenTime = r'.lastSeenTime
  | .updateEntry _ updatedRecord => s.leveldb.isOpen = true →
      s.peerSet.find updatedRecord.endpoint = none →
      s.leveldb.entries[2 ^ 32 - 1]? = none ∨ s.leveldb.entries[0]? = none
  | _ => True

/-- Every call of a run meets its condition. -/
def MeetsAll : PeerDatabase → List PeerCall → Prop
  | _, [] => True
  | s, c :: calls => c.Meets s ∧ MeetsAll (c.after s) calls

/-- The keys are 32-bit numbers. -/
def Keys32 (t : Table ℕ PotentialPeerRecord) : Prop :=
  ∀ (key : ℕ) (r : PotentialPeerRecord), t[key]? = some r → key < 2 ^ 32

theorem Mirrors.sound {s : PeerDatabase} {calls : List PeerCall} (h : Mirrors s calls) :
    s.Sound := by
  cases calls with
  | nil => exact h
  | cons c calls => exact h.1

namespace PeerCall

variable {s s' : PeerDatabase} {c : PeerCall} {error : DbError}

theorem after_of_ok (h : c.run.run s = .ok () s') : c.after s = s' := by
  rw [after, h]

theorem after_of_error (h : c.run.run s = .error error s') : c.after s = s' := by
  rw [after, h]

/-- A database that is open cannot be opened again. -/
theorem after_open_of_open (h : s.leveldb.isOpen = true) : open'.after s = s :=
  after_of_error (run_bind_error (PeerDatabase.onDb_run_error (LevelMap.open_of_open h)))

/-- **Opening** takes the thousand records that were seen first. -/
theorem after_open_of_closed (h : s.leveldb.isOpen = false)
    (hendpoints : OnePerEndpoint s.leveldb.entries) :
    ∃ t : Table ℕ PotentialPeerRecord,
      Mirror t ((PeerDatabase.loaded s.leveldb.entries.toList).take maximumPeerdbSize) ∧
      (∀ (key : ℕ) (r : PotentialPeerRecord), t[key]? = some r →
        s.leveldb.entries[key]? = some r) ∧
      open'.after s = ⟨⟨t, true⟩,
        (PeerDatabase.loaded s.leveldb.entries.toList).take maximumPeerdbSize⟩ := by
  obtain ⟨⟨entries, isOpen⟩, peerSet⟩ := s
  cases h
  have hmirror := mirror_loaded hendpoints
  have hload : PeerDatabase.open'.run ⟨⟨entries, false⟩, peerSet⟩ =
      (if maximumPeerdbSize < (PeerDatabase.loaded entries.toList).length then
        PeerDatabase.prune ((PeerDatabase.loaded entries.toList).drop maximumPeerdbSize)
        else pure ()).run
        ⟨⟨entries, true⟩, PeerDatabase.loaded entries.toList⟩ := rfl
  by_cases hsize : maximumPeerdbSize < (PeerDatabase.loaded entries.toList).length
  · have hsplit := List.take_append_drop maximumPeerdbSize (PeerDatabase.loaded entries.toList)
    obtain ⟨t, ht, hsub, hrun⟩ := prune_run ⟨entries, true⟩ rfl
      (List.length_take_of_le hsize.le) (hsplit.symm ▸ hmirror)
    rw [hsplit] at hrun
    refine ⟨t, ht, hsub, after_of_ok ?_⟩
    change PeerDatabase.open'.run _ = _
    rw [hload, if_pos hsize, hrun]
  · rw [List.take_of_length_le (not_lt.1 hsize)]
    refine ⟨entries, hmirror, fun _ _ hr => hr, after_of_ok ?_⟩
    change PeerDatabase.open'.run _ = _
    rw [hload, if_neg hsize]
    rfl

end PeerCall

/-- A mirror has as many entries as its table. -/
theorem Mirror.length (h : Mirror t set) : set.length = t.toList.length := by
  have hnodup : (t.toList.map fun x => PeerEntry.mk x.1 x.2).Nodup :=
    (((Table.nodup_toList_keys t).of_map _).map fun x y hxy => by
      cases x
      cases y
      cases hxy
      rfl)
  have hperm : set.Perm (t.toList.map fun x => PeerEntry.mk x.1 x.2) :=
    (List.perm_ext_iff_of_nodup h.nodup hnodup).2 fun e => by
      rw [h.mem e, ← Table.mem_toList, List.mem_map]
      constructor
      · exact fun he => ⟨_, he, rfl⟩
      · rintro ⟨x, hx, rfl⟩
        exact hx
  rw [hperm.length_eq, List.length_map]

/-- What opening keeps are the records seen last exactly if nothing is removed, or nothing tells the
records apart. -/
theorem pruned_iff {t' : Table ℕ PotentialPeerRecord} (h : Mirror t set) (hordered : Ordered set)
    (ht' : Mirror t' (set.take maximumPeerdbSize)) :
    Pruned t t' ↔ t.toList.length ≤ maximumPeerdbSize ∨
      ∀ (key key' : ℕ) (r r' : PotentialPeerRecord), t[key]? = some r → t[key']? = some r' →
        r.lastSeenTime = r'.lastSeenTime := by
  have hsub : ∀ (key : ℕ) (r : PotentialPeerRecord), t'[key]? = some r → t[key]? = some r :=
    fun key r hr => (h.mem ⟨key, r⟩).1 (List.mem_of_mem_take ((ht'.mem ⟨key, r⟩).2 hr))
  have hlength : t'.toList.length = min maximumPeerdbSize t.toList.length := by
    rw [← ht'.length, List.length_take, h.length]
  have hsplit := List.take_append_drop maximumPeerdbSize set
  have hfirst : ∀ e ∈ set.take maximumPeerdbSize, ∀ e' ∈ set.drop maximumPeerdbSize,
      e.getLastSeenTime ≤ e'.getLastSeenTime := by
    rw [Ordered, ← hsplit, List.pairwise_append] at hordered
    exact hordered.2.2
  have hremoved : ∀ e, e ∈ set.drop maximumPeerdbSize →
      t[e.databaseKey]? = some e.peerRecord ∧ t'[e.databaseKey]? = none := by
    intro e he
    have hmem := (h.mem e).1 (List.mem_of_mem_drop he)
    refine ⟨hmem, Option.eq_none_iff_forall_ne_some.2 fun r hr => ?_⟩
    have hr' : r = e.peerRecord := by
      have hrecord := hsub _ _ hr
      rw [hmem] at hrecord
      exact (Option.some.inj hrecord).symm
    have hkept : e ∈ set.take maximumPeerdbSize := (ht'.mem e).2 (hr' ▸ hr)
    have hnodup := h.nodup
    rw [← hsplit, List.nodup_append] at hnodup
    exact hnodup.2.2 e hkept e he rfl
  constructor
  · intro hpruned
    by_cases hsize : t.toList.length ≤ maximumPeerdbSize
    · exact Or.inl hsize
    · right
      have hsame : ∀ e ∈ set.take maximumPeerdbSize, ∀ e' ∈ set.drop maximumPeerdbSize,
          e.getLastSeenTime = e'.getLastSeenTime := fun e he e' he' =>
        (hfirst e he e' he').antisymm
          (hpruned.recent _ _ _ _ ((ht'.mem e).1 he) (hremoved e' he').1 (hremoved e' he').2)
      -- there is an entry that is kept and one that is removed
      have hlarge : maximumPeerdbSize < set.length := by
        rw [h.length]
        exact not_le.1 hsize
      obtain ⟨kept, hkept⟩ := List.exists_mem_of_length_pos
        (l := set.take maximumPeerdbSize) (by rw [List.length_take_of_le hlarge.le]; decide)
      obtain ⟨removed, hremoved⟩ := List.exists_mem_of_length_pos
        (l := set.drop maximumPeerdbSize) (by rw [List.length_drop]; exact Nat.sub_pos_of_lt hlarge)
      have hall : ∀ e ∈ set, e.getLastSeenTime = removed.getLastSeenTime := by
        intro e he
        rw [← hsplit, List.mem_append] at he
        rcases he with he | he
        · exact hsame e he removed hremoved
        · exact (hsame kept hkept e he).symm.trans (hsame kept hkept removed hremoved)
      intro key key' r r' hr hr'
      exact (hall _ ((h.mem ⟨key, r⟩).2 hr)).trans (hall _ ((h.mem ⟨key', r'⟩).2 hr')).symm
  · rintro (hsize | hsame)
    · refine ⟨hsub, hlength, fun key key' r r' _ hr' hnone => ?_⟩
      have hall : set.take maximumPeerdbSize = set := List.take_of_length_le (h.length ▸ hsize)
      have hmem := (ht'.mem ⟨key', r'⟩).1 (hall.symm ▸ (h.mem ⟨key', r'⟩).2 hr')
      rw [hnone] at hmem
      cases hmem
    · exact ⟨hsub, hlength, fun key key' r r' hr hr' _ => (hsame key' key r' r hr' (hsub _ _ hr)).le⟩

namespace PeerCall

variable {s : PeerDatabase} {c : PeerCall}

/-- The loop of `clear` removes every key it is given. -/
theorem clear_run (l : List (ℕ × PotentialPeerRecord)) (db : LevelMap ℕ PotentialPeerRecord)
    (hopen : db.isOpen = true) (set : PotentialPeerSet) :
    (l.forM fun e => tryCatch (PeerDatabase.onDb fun db => db.remove e.1) fun _ => pure () :
      PeerM Unit).run ⟨db, set⟩ =
        .ok () ⟨{ db with entries := (l.map Prod.fst).foldl (fun t key => t.erase key) db.entries },
          set⟩ := by
  induction l generalizing db with
  | nil => rfl
  | cons e l ih =>
    have hremove : (PeerDatabase.onDb fun db => db.remove e.1).run ⟨db, set⟩ =
        .ok () ⟨{ db with entries := db.entries.erase e.1 }, set⟩ :=
      PeerDatabase.onDb_run (LevelMap.remove_of_open hopen _)
    have hstep : (tryCatch (PeerDatabase.onDb fun db => db.remove e.1) fun _ => pure () :
        PeerM Unit).run ⟨db, set⟩ = .ok () ⟨{ db with entries := db.entries.erase e.1 }, set⟩ := by
      rw [run_tryCatch, hremove]
    exact (run_bind_ok hstep).trans (ih { db with entries := db.entries.erase e.1 } hopen)

theorem after_clear_of_open (h : s.leveldb.isOpen = true) :
    clear.after s = ⟨⟨∅, true⟩, []⟩ := by
  obtain ⟨⟨entries, isOpen⟩, peerSet⟩ := s
  cases h
  have hempty : (entries.toList.map Prod.fst).foldl (fun t key => t.erase key) entries = ∅ := by
    refine Table.ext fun key => ?_
    rw [Table.getElem?_foldl_erase, Table.getElem?_empty', ite_eq_left_iff]
    intro hkey
    refine Option.eq_none_iff_forall_ne_some.2 fun r hr => hkey ?_
    exact List.mem_map.2 ⟨(key, r), Table.mem_toList.2 hr, rfl⟩
  have hloop := clear_run entries.toList ⟨entries, true⟩ rfl peerSet
  rw [hempty] at hloop
  refine after_of_ok ?_
  exact (run_bind_ok (PeerDatabase.readDb_run (LevelMap.scan_of_open rfl))).trans
    ((run_bind_ok hloop).trans rfl)

theorem after_erase_of_none {endpoint : ℕ} (h : s.peerSet.find endpoint = none) :
    (erase endpoint).after s = s := by
  have hrun : (PeerDatabase.erase endpoint).run s = .ok () s := by
    rw [PeerDatabase.erase, run_get_bind, h]
    rfl
  exact after_of_ok hrun

theorem after_erase_of_some {endpoint : ℕ} {e : PeerEntry} (hopen : s.leveldb.isOpen = true)
    (h : s.peerSet.find endpoint = some e) :
    (erase endpoint).after s = ⟨{ s.leveldb with entries := s.leveldb.entries.erase e.databaseKey },
      s.peerSet.erase endpoint⟩ := by
  have hrun : (PeerDatabase.erase endpoint).run s = (do
      PeerDatabase.onDb fun db => db.remove e.databaseKey
      modify fun s : PeerDatabase =>
        { s with peerSet := s.peerSet.erase endpoint } : PeerM Unit).run s := by
    rw [PeerDatabase.erase, run_get_bind, h]
  refine after_of_ok (hrun.trans ?_)
  exact run_bind_ok (PeerDatabase.onDb_run (LevelMap.remove_of_open hopen _))

theorem after_update_of_some {garbage : ℕ} {r : PotentialPeerRecord} {e : PeerEntry}
    (hopen : s.leveldb.isOpen = true) (h : s.peerSet.find r.endpoint = some e) :
    (updateEntry garbage r).after s =
      ⟨{ s.leveldb with entries := s.leveldb.entries.insert e.databaseKey r },
        s.peerSet.modify r⟩ := by
  have hrun : (PeerDatabase.updateEntry garbage r).run s = (do
      modify fun s : PeerDatabase => { s with peerSet := s.peerSet.modify r }
      PeerDatabase.onDb fun db => db.store e.databaseKey r : PeerM Unit).run s := by
    rw [PeerDatabase.updateEntry, run_get_bind, h]
  refine after_of_ok (hrun.trans ?_)
  have hstore : (PeerDatabase.onDb fun db => db.store e.databaseKey r).run
      { s with peerSet := s.peerSet.modify r } = _ :=
    PeerDatabase.onDb_run (LevelMap.store_of_open hopen _ _)
  exact hstore

/-- The part of `updateEntry` that is run for a new endpoint. -/
theorem update_run {garbage : ℕ} {r : PotentialPeerRecord} (h : s.peerSet.find r.endpoint = none) :
    (updateEntry garbage r).run.run s = (do
      let last ← PeerDatabase.readDb LevelMap.last
      modify fun s : PeerDatabase =>
        { s with peerSet := s.peerSet.insert ⟨PeerDatabase.newDatabaseKey garbage last, r⟩ }
      PeerDatabase.onDb fun db => db.store (PeerDatabase.newDatabaseKey garbage last) r :
      PeerM Unit).run s := by
  change (PeerDatabase.updateEntry garbage r).run s = _
  rw [PeerDatabase.updateEntry, run_get_bind, h]

theorem after_update_of_none {garbage key : ℕ} {r : PotentialPeerRecord}
    (hopen : s.leveldb.isOpen = true) (h : s.peerSet.find r.endpoint = none)
    (hkey : PeerDatabase.newDatabaseKey garbage s.leveldb.entries.lastKey = key) :
    (updateEntry garbage r).after s =
      ⟨⟨s.leveldb.entries.insert key r, true⟩, s.peerSet.insert ⟨key, r⟩⟩ := by
  obtain ⟨⟨entries, isOpen⟩, peerSet⟩ := s
  cases hopen
  refine after_of_ok ((update_run h).trans ?_)
  refine (run_bind_ok (PeerDatabase.readDb_run (LevelMap.last_of_open rfl))).trans ?_
  rw [hkey]
  have hstore : (PeerDatabase.onDb fun db => db.store key r).run
      ⟨⟨entries, true⟩, peerSet.insert ⟨key, r⟩⟩ = _ :=
    PeerDatabase.onDb_run (LevelMap.store_of_open rfl _ _)
  exact hstore

/-- Nothing but opening does anything to a database that is closed. -/
theorem after_of_closed (hopen : s.leveldb.isOpen = false) (hset : s.peerSet = [])
    (hc : c ≠ .open') : c.after s = s := by
  obtain ⟨⟨entries, isOpen⟩, peerSet⟩ := s
  cases hopen
  cases hset
  cases c with
  | open' => exact absurd rfl hc
  | close => rfl
  | clear =>
    exact after_of_error (run_bind_error (PeerDatabase.readDb_run_error
      (LevelMap.scan_of_closed rfl)))
  | erase endpoint => exact after_erase_of_none rfl
  | updateEntry garbage r =>
    have hlast := PeerDatabase.readDb_run_error (g := LevelMap.last) (s := ⟨⟨entries, false⟩, []⟩)
      (LevelMap.last_of_closed rfl)
    exact after_of_error ((update_run rfl).trans (run_bind_error hlast))

end PeerCall

theorem Keys32.insert (h : Keys32 t) (hkey : key < 2 ^ 32) : Keys32 (t.insert key r) := by
  intro key' r' hr'
  by_cases hk : key' = key
  · exact hk ▸ hkey
  · rw [Table.getElem?_insert_of_ne _ _ hk] at hr'
    exact h key' r' hr'

theorem Keys32.erase (h : Keys32 t) : Keys32 (t.erase key) := by
  intro key' r' hr'
  by_cases hk : key' = key
  · rw [hk, Table.getElem?_erase_same] at hr'
    cases hr'
  · rw [Table.getElem?_erase_of_ne _ hk] at hr'
    exact h key' r' hr'

theorem keys32_empty : Keys32 ∅ := by
  intro key r hr
  rw [Table.getElem?_empty'] at hr
  cases hr

/-- The last key is the greatest one. -/
theorem lastKey_spec (t : Table ℕ PotentialPeerRecord) :
    (t.lastKey = none ∧ ∀ key : ℕ, t[key]? = none) ∨
      ∃ last r, t.lastKey = some last ∧ t[last]? = some r ∧ ∀ key, last < key → t[key]? = none := by
  have hlast : t.lastKey = t.toList.getLast?.map Prod.fst := by
    rw [Table.lastKey, ← ExtTreeMap.map_fst_toList_eq_keys, List.getLast?_map]
  rw [hlast]
  cases hl : t.toList.getLast? with
  | none =>
    refine Or.inl ⟨rfl, fun key => Option.eq_none_iff_forall_ne_some.2 fun r hr => ?_⟩
    have hmem := Table.mem_toList.2 hr
    rw [List.getLast?_eq_none_iff.1 hl] at hmem
    cases hmem
  | some entry =>
    obtain ⟨hr, hmax⟩ := Table.le_getLast?_toList hl
    refine Or.inr ⟨entry.1, entry.2, rfl, hr, fun key hlt => ?_⟩
    exact Option.eq_none_iff_forall_ne_some.2 fun r' hr' =>
      hmax key r' hr' (Nat.compare_eq_gt.2 hlt)

/-- The key for a new record is free unless the numbers have come to the last one and begin again at
a key that is in use. -/
theorem newDatabaseKey_free (h : Keys32 t) (garbage : ℕ) :
    t[PeerDatabase.newDatabaseKey garbage t.lastKey]? = none ↔
      t[2 ^ 32 - 1]? = none ∨ t[0]? = none := by
  rcases lastKey_spec t with ⟨-, hempty⟩ | ⟨last, r, hlast, hr, habove⟩
  · exact iff_of_true (hempty _) (Or.inl (hempty _))
  · have hbound := h last r hr
    rw [hlast, PeerDatabase.newDatabaseKey, Option.getD_some]
    by_cases hmax : last = 2 ^ 32 - 1
    · have hused : t[2 ^ 32 - 1]? ≠ none := by
        rw [← hmax, hr]
        exact Option.some_ne_none r
      rw [hmax, show (2 ^ 32 - 1 + 1) % 2 ^ 32 = 0 from rfl]
      exact (or_iff_right hused).symm
    · have hlt : last + 1 < 2 ^ 32 := by omega
      rw [Nat.mod_eq_of_lt hlt]
      exact iff_of_true (habove _ (Nat.lt_succ_self _)) (Or.inl (habove _ (by omega)))

namespace PeerDatabase.Sound

variable {s : PeerDatabase} {c : PeerCall}

/-- The entry of a record in memory tells that the database is open. -/
theorem isOpen (h : s.Sound) {endpoint : ℕ} {e : PeerEntry}
    (hfind : s.peerSet.find endpoint = some e) : s.leveldb.isOpen = true := by
  cases hopen : s.leveldb.isOpen with
  | true => rfl
  | false =>
    rw [h.closed hopen] at hfind
    cases hfind

theorem of_mirror {t : Table ℕ PotentialPeerRecord} {set : PotentialPeerSet} (h : Mirror t set) :
    Sound ⟨⟨t, true⟩, set⟩ :=
  ⟨fun _ => h, nofun, h.onePerEndpoint⟩

/-- A new record is put under a key of its own exactly if the key was free. -/
theorem insert_iff {key : ℕ} {r : PotentialPeerRecord} (h : Mirror t set)
    (hfind : set.find r.endpoint = none) :
    Sound ⟨⟨t.insert key r, true⟩, set.insert ⟨key, r⟩⟩ ↔ t[key]? = none := by
  have hperm := PotentialPeerSet.insert_perm (e := ⟨key, r⟩) hfind
  constructor
  · intro hsound
    refine Option.eq_none_iff_forall_ne_some.2 fun r' hr' => ?_
    have hkeys := ((hsound.mirror rfl).perm hperm.symm).keys
    rw [List.map_cons, List.nodup_cons] at hkeys
    exact hkeys.1 (List.mem_map.2 ⟨⟨key, r'⟩, (h.mem _).2 hr', rfl⟩)
  · intro hfree
    have hinsert := h.insert (e := ⟨key, r⟩) (PotentialPeerSet.find_eq_none.1 hfind) hfree
    exact of_mirror (hinsert.perm hperm)

/-- A call that does not add a record keeps an open database sound. -/
theorem after_of_open (h : s.Sound) (hopen : s.leveldb.isOpen = true) :
    (PeerCall.close.after s).Sound ∧ (PeerCall.clear.after s).Sound ∧
      ∀ endpoint, ((PeerCall.erase endpoint).after s).Sound := by
  obtain ⟨⟨entries, isOpen⟩, peerSet⟩ := s
  cases hopen
  have hmirror : Mirror entries peerSet := h.mirror rfl
  refine ⟨⟨nofun, fun _ => rfl, h.endpoints⟩, ?_, fun endpoint => ?_⟩
  · rw [PeerCall.after_clear_of_open rfl]
    exact of_mirror Mirror.empty
  · cases hfind : PotentialPeerSet.find peerSet endpoint with
    | none =>
      rw [PeerCall.after_erase_of_none hfind]
      exact h
    | some e =>
      rw [PeerCall.after_erase_of_some rfl hfind]
      exact of_mirror (hmirror.perm (PotentialPeerSet.erase_perm hfind).symm).erase

/-- An update keeps an open database sound exactly if its condition is met. -/
theorem after_update_iff (h : s.Sound) (hkeys : Keys32 s.leveldb.entries)
    (hopen : s.leveldb.isOpen = true) (garbage : ℕ) (r : PotentialPeerRecord) :
    ((PeerCall.updateEntry garbage r).after s).Sound ↔
      (PeerCall.updateEntry garbage r).Meets s := by
  obtain ⟨⟨entries, isOpen⟩, peerSet⟩ := s
  cases hopen
  have hmirror : Mirror entries peerSet := h.mirror rfl
  cases hfind : PotentialPeerSet.find peerSet r.endpoint with
  | none =>
    rw [PeerCall.after_update_of_none rfl hfind rfl, insert_iff hmirror hfind,
      newDatabaseKey_free hkeys]
    exact ⟨fun hfree _ _ => hfree, fun hmeets => hmeets rfl hfind⟩
  | some e =>
    rw [PeerCall.after_update_of_some rfl hfind]
    obtain ⟨rest, hperm, hmodified⟩ := PotentialPeerSet.modify_perm hfind
    have hendpoint : r.endpoint = e.getEndpoint := (PotentialPeerSet.find_eq_some hfind).2.symm
    have hreplaced := (hmirror.perm hperm.symm).replace hendpoint
    refine iff_of_true (of_mirror (hreplaced.perm hmodified)) fun _ hnone => ?_
    rw [hfind] at hnone
    cases hnone

/-- Opening a closed database prunes it exactly if its condition is met. -/
theorem after_open_iff (h : s.Sound) (hopen : s.leveldb.isOpen = false) :
    (PeerCall.open'.after s).Sound ∧
      (Pruned s.leveldb.entries (PeerCall.open'.after s).leveldb.entries ↔
        PeerCall.open'.Meets s) := by
  obtain ⟨t, hmirror, -, hafter⟩ := PeerCall.after_open_of_closed hopen h.endpoints
  rw [hafter]
  refine ⟨of_mirror hmirror, ?_⟩
  rw [pruned_iff (mirror_loaded h.endpoints) (ordered_loaded _) hmirror]
  exact ⟨fun hmeets _ => hmeets, fun hmeets => hmeets hopen⟩

/-- **One call** on a sound database does what it is for exactly if its condition is met. -/
theorem step_iff (h : s.Sound) (hkeys : Keys32 s.leveldb.entries) :
    (c.after s).Sound ∧ (c = .open' → s.leveldb.isOpen = false →
      Pruned s.leveldb.entries (c.after s).leveldb.entries) ↔ c.Meets s := by
  cases hopen : s.leveldb.isOpen with
  | false =>
    by_cases hc : c = .open'
    · subst hc
      obtain ⟨hsound, hiff⟩ := h.after_open_iff hopen
      rw [← hiff]
      exact ⟨fun hkept => hkept.2 rfl rfl, fun hpruned => ⟨hsound, fun _ _ => hpruned⟩⟩
    · rw [PeerCall.after_of_closed hopen (h.closed hopen) hc]
      refine iff_of_true ⟨h, fun heq => absurd heq hc⟩ ?_
      cases c with
      | updateEntry garbage r =>
        intro hopen'
        rw [hopen] at hopen'
        cases hopen'
      | open' => exact absurd rfl hc
      | _ => trivial
  | true =>
    rw [and_iff_left (fun _ => nofun)]
    have hafter := h.after_of_open hopen
    cases c with
    | open' =>
      rw [PeerCall.after_open_of_open hopen]
      refine iff_of_true h fun hclosed => ?_
      rw [hopen] at hclosed
      cases hclosed
    | close => exact iff_of_true hafter.1 trivial
    | clear => exact iff_of_true hafter.2.1 trivial
    | erase endpoint => exact iff_of_true (hafter.2.2 endpoint) trivial
    | updateEntry garbage r => exact h.after_update_iff hkeys hopen garbage r

/-- No call puts a record under a key that is not a 32-bit number. -/
theorem step_keys32 (h : s.Sound) (hkeys : Keys32 s.leveldb.entries) :
    Keys32 (c.after s).leveldb.entries := by
  cases hopen : s.leveldb.isOpen with
  | false =>
    by_cases hc : c = .open'
    · obtain ⟨t, -, hsub, hafter⟩ := PeerCall.after_open_of_closed hopen h.endpoints
      rw [hc, hafter]
      exact fun key r hr => hkeys key r (hsub key r hr)
    · rwa [PeerCall.after_of_closed hopen (h.closed hopen) hc]
  | true =>
    cases c with
    | open' => rwa [PeerCall.after_open_of_open hopen]
    | close => exact hkeys
    | clear =>
      rw [PeerCall.after_clear_of_open hopen]
      exact keys32_empty
    | erase endpoint =>
      cases hfind : s.peerSet.find endpoint with
      | none => rwa [PeerCall.after_erase_of_none hfind]
      | some e =>
        rw [PeerCall.after_erase_of_some hopen hfind]
        exact hkeys.erase
    | updateEntry garbage r =>
      cases hfind : s.peerSet.find r.endpoint with
      | none =>
        rw [PeerCall.after_update_of_none hopen hfind rfl]
        exact hkeys.insert (Nat.mod_lt _ (by decide))
      | some e =>
        rw [PeerCall.after_update_of_some hopen hfind]
        have hmem := ((h.mirror hopen).mem e).1 (PotentialPeerSet.find_eq_some hfind).1
        exact hkeys.insert (hkeys _ _ hmem)

end PeerDatabase.Sound

/-- **The peer database** does what it is for, in all calls of a run, exactly if all of them meet
their condition. -/
theorem mirrors_iff (calls : List PeerCall) : Mirrors {} calls ↔ MeetsAll {} calls := by
  have key : ∀ (calls : List PeerCall) (s : PeerDatabase), s.Sound → Keys32 s.leveldb.entries →
      (Mirrors s calls ↔ MeetsAll s calls) := by
    intro calls
    induction calls with
    | nil => exact fun s h _ => iff_of_true h trivial
    | cons c calls ih =>
      intro s h hkeys
      have hstep := h.step_iff (c := c) hkeys
      rw [Mirrors, MeetsAll, ← hstep]
      constructor
      · rintro ⟨-, hpruned, hrest⟩
        exact ⟨⟨hrest.sound, hpruned⟩, (ih _ hrest.sound (h.step_keys32 hkeys)).1 hrest⟩
      · rintro ⟨⟨hsound, hpruned⟩, hrest⟩
        exact ⟨h, hpruned, (ih _ hsound (h.step_keys32 hkeys)).2 hrest⟩
  exact key calls {} ⟨nofun, fun _ => rfl, Mirror.empty.onePerEndpoint⟩ keys32_empty

theorem Mirrors.append {s : PeerDatabase} {calls calls' : List PeerCall}
    (h : Mirrors s (calls ++ calls')) :
    Mirrors (calls.foldl (fun s c => c.after s) s) calls' := by
  induction calls generalizing s with
  | nil => exact h
  | cons c calls ih => exact ih h.2.2

theorem Mirrors.last {s : PeerDatabase} {calls : List PeerCall} (h : Mirrors s calls) :
    (calls.foldl (fun s c => c.after s) s).Sound := by
  rw [← List.append_nil calls] at h
  exact h.append.sound

/-- A peer that was seen at a time of its own. -/
def peer (n : ℕ) : PotentialPeerRecord :=
  { endpoint := n, lastSeenTime := n }

/-- An empty database in which one peer after the other is put, from number one on. -/
def heard (n : ℕ) : PeerDatabase :=
  ((List.range' 1 n).map fun i => PeerCall.updateEntry 0 (peer i)).foldl (fun s c => c.after s)
    (PeerCall.open'.after {})

theorem heard_succ (n : ℕ) :
    heard (n + 1) = (PeerCall.updateEntry 0 (peer (1 + n))).after (heard n) := by
  rw [heard, List.range'_1_concat, List.map_append, List.foldl_append]
  rfl

/-- Every peer is under its number. -/
theorem heard_spec {n : ℕ} (hn : n < 2 ^ 32) :
    (heard n).Sound ∧ (heard n).leveldb.isOpen = true ∧
      ∀ (key : ℕ) (r : PotentialPeerRecord),
        (heard n).leveldb.entries[key]? = some r ↔ (1 ≤ key ∧ key ≤ n) ∧ r = peer key := by
  induction n with
  | zero =>
    have hsound : (heard 0).Sound := PeerDatabase.Sound.of_mirror Mirror.empty
    refine ⟨hsound, rfl, fun key r => ?_⟩
    change (∅ : Table ℕ PotentialPeerRecord)[key]? = some r ↔ _
    rw [Table.getElem?_empty']
    exact ⟨nofun, fun h => by omega⟩
  | succ n ih =>
    obtain ⟨hsound, hopen, hentries⟩ := ih (by omega)
    have hmirror := hsound.mirror hopen
    have hfind : (heard n).peerSet.find (peer (1 + n)).endpoint = none := by
      refine PotentialPeerSet.find_eq_none.2 fun e he heq => ?_
      obtain ⟨hbound, hr⟩ := (hentries _ _).1 ((hmirror.mem e).1 he)
      rw [PeerEntry.getEndpoint, hr] at heq
      have hkey : e.databaseKey = 1 + n := heq
      omega
    have hlast : (heard n).leveldb.entries.lastKey.getD 0 = n := by
      rcases lastKey_spec (heard n).leveldb.entries with ⟨hnone, hempty⟩ | ⟨last, r, hsome, hr, habove⟩
      · rw [hnone, Option.getD_none]
        by_contra hne
        have hr := (hentries n (peer n)).2 ⟨by omega, rfl⟩
        rw [hempty n] at hr
        cases hr
      · rw [hsome, Option.getD_some]
        by_contra hne
        have hbound := ((hentries last r).1 hr).1
        have hr' := (hentries n (peer n)).2 ⟨by omega, rfl⟩
        rw [habove n (by omega)] at hr'
        cases hr'
    have hkey : PeerDatabase.newDatabaseKey 0 (heard n).leveldb.entries.lastKey = 1 + n := by
      rw [PeerDatabase.newDatabaseKey, hlast, Nat.mod_eq_of_lt hn, Nat.add_comm]
    have hfree : (heard n).leveldb.entries[1 + n]? = none :=
      Option.eq_none_iff_forall_ne_some.2 fun r hr => by
        have hbound := ((hentries _ r).1 hr).1
        omega
    rw [heard_succ, PeerCall.after_update_of_none hopen hfind hkey]
    have hinsert := (PeerDatabase.Sound.insert_iff hmirror hfind).2 hfree
    refine ⟨hinsert, rfl, fun key r => ?_⟩
    change ((heard n).leveldb.entries.insert (1 + n) (peer (1 + n)))[key]? = some r ↔ _
    by_cases hk : key = 1 + n
    · rw [hk, Table.getElem?_insert_same, Option.some.injEq]
      exact ⟨fun hr => ⟨by omega, hr.symm⟩, fun hr => hr.2.symm⟩
    · rw [Table.getElem?_insert_of_ne _ _ hk, hentries]
      exact and_congr_left' (by omega)

/-- After more than a thousand peers the database cannot be opened again without losing the last. -/
theorem not_mirrors_heard {n : ℕ} (hn : n < 2 ^ 32) (hlarge : maximumPeerdbSize < n) :
    ¬Mirrors {} (.open' :: ((List.range' 1 n).map fun i => .updateEntry 0 (peer i)) ++
      [.close, .open']) := by
  intro h
  obtain ⟨hsound, hopen, hentries⟩ := heard_spec hn
  have hrest : Mirrors (heard n) [.close, .open'] := h.2.2.append
  have hclosed := hrest.2.2
  have hmeets := (hclosed.sound.after_open_iff rfl).2.1 (hclosed.2.1 rfl rfl)
  have hmem : ∀ i, 1 ≤ i → i ≤ n → (heard n).leveldb.entries[i]? = some (peer i) :=
    fun i hle hge => (hentries i _).2 ⟨⟨hle, hge⟩, rfl⟩
  rcases hmeets rfl with hsize | hsame
  · have hsub : List.range' 1 n ⊆ (heard n).leveldb.entries.toList.map Prod.fst := by
      intro i hi
      obtain ⟨hle, hlt⟩ := List.mem_range'_1.1 hi
      exact List.mem_map.2 ⟨(i, peer i), Table.mem_toList.2 (hmem i hle (by omega)), rfl⟩
    have hlength := ((List.nodup_range' ..).subperm hsub).length_le
    rw [List.length_range', List.length_map] at hlength
    exact absurd (hlength.trans hsize) (not_le.2 hlarge)
  · have hthousand : (2 : ℕ) ≤ n := le_trans (by decide) hlarge.le
    have htimes := hsame 1 2 _ _ (hmem 1 le_rfl (by omega)) (hmem 2 (by decide) hthousand)
    exact absurd (htimes : 1 = 2) (by decide)

/-- The first key is what memory holds, so the numbers may come to the last one at once: the second
and the third peer are then under key zero. And of a thousand and one peers the last is removed. -/
theorem not_mirrors :
    ¬Mirrors {} [.open', .updateEntry (2 ^ 32 - 2) (peer 1), .updateEntry 0 (peer 2),
      .updateEntry 0 (peer 3)] ∧
    ¬Mirrors {} (.open' :: ((List.range' 1 1001).map fun i => .updateEntry 0 (peer i)) ++
      [.close, .open']) := by
  refine ⟨fun h => ?_, not_mirrors_heard (by decide) (by decide)⟩
  have hkeys := (h.last.mirror (by decide +kernel)).keys
  exact absurd hkeys (by decide +kernel)

end LarkX
