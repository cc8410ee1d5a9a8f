import LarkX.Chain.Extend
import LarkX.Chain.Origin

/-!
# The election of delegates

`_delegate_vote_index_db` orders delegates by `vote_del`, and `next_round_active_delegates` reads its
first entries. `Ledger.Elects` says what an election should give: distinct delegates that are
stored, in the order of their votes, with no other delegate before one of them. With an exact vote
index that is what the code reads (`nextRoundActiveDelegates_elects`), and the index is exact
whatever is stored, so also in every state a node passes through.
-/

namespace LarkX

open Std (TransOrd LawfulEqOrd)

/-- `operator <` of `vote_del`: more votes first, and the lower id in ties. -/
def VoteDel.Precedes (a b : VoteDel) : Prop :=
  b.votes < a.votes ∨ (a.votes = b.votes ∧ a.delegateId < b.delegateId)

instance (a b : VoteDel) : Decidable (a.Precedes b) :=
  inferInstanceAs (Decidable (_ ∨ _))

theorem VoteDel.compare_eq_lt {a b : VoteDel} : compare a b = .lt ↔ a.Precedes b := by
  change (compareLex (compareOn fun v : VoteDel => -v.votes) (compareOn VoteDel.delegateId)) a b =
    .lt ↔ _
  simp only [compareLex, compareOn, Ordering.then_eq_lt, compare_lt_iff_lt, compare_eq_iff_eq,
    neg_lt_neg_iff, neg_inj, Precedes]

namespace Ledger

/-- The votes of a stored delegate. -/
def netVotes (db : Ledger) (id : ℤ) : Option ℤ :=
  (db.accounts[id]?.bind AccountRecord.delegateInfo).map DelegateStats.votesFor

variable {crypto : Crypto} {db db' : Ledger}

theorem netVotes_eq_some {id votes : ℤ} : db.netVotes id = some votes ↔
    ∃ (r : AccountRecord) (info : DelegateStats), db.accounts[id]? = some r ∧
      r.delegateInfo = some info ∧ info.votesFor = votes := by
  simp only [netVotes, Option.map_eq_some_iff, Option.bind_eq_some_iff]
  exact ⟨fun ⟨info, ⟨r, hr, hinfo⟩, hvotes⟩ => ⟨r, info, hr, hinfo, hvotes⟩,
    fun ⟨r, info, hr, hinfo, hvotes⟩ => ⟨info, ⟨r, hr, hinfo⟩, hvotes⟩⟩

/-- An exact index has one entry for each delegate, with its votes. -/
theorem votesIndexed_iff : VotesIndexed db ↔ ∀ v : VoteDel,
    db.delegateVoteIndex[v]? = some () ↔ db.netVotes v.delegateId = some v.votes := by
  simp only [VotesIndexed, netVotes_eq_some]

/-- The outcome of an election: the delegates of a list are the ones with most votes. -/
structure Elects (db : Ledger) (l : List ℤ) : Prop where
  nodup : l.Nodup
  length_le : l.length ≤ btsBlockchainNumDelegates
  stored : ∀ id ∈ l, ∃ votes, db.netVotes id = some votes
  ranked : l.Pairwise fun a b => ∀ va vb, db.netVotes a = some va → db.netVotes b = some vb →
    VoteDel.Precedes ⟨va, a⟩ ⟨vb, b⟩
  /-- A delegate is left out only when the list is full, and then it comes after all of it. -/
  top : ∀ id votes, db.netVotes id = some votes → id ∈ l ∨
    (l.length = btsBlockchainNumDelegates ∧ ∀ a ∈ l, ∀ va, db.netVotes a = some va →
      VoteDel.Precedes ⟨va, a⟩ ⟨votes, id⟩)

end Ledger

namespace ChainInterface

open Ledger

variable {c c' : ChainInterface}

/-- **With an exact vote index**, the next round is elected. -/
theorem nextRoundActiveDelegates_elects (h : c.db.VotesIndexed) :
    c.db.Elects c.nextRoundActiveDelegates := by
  set entries := c.db.delegateVoteIndex.toList with hentries
  have hexact : ∀ e ∈ entries, c.db.netVotes e.1.delegateId = some e.1.votes :=
    fun e he => (votesIndexed_iff.1 h e.1).1 (Table.mem_toList.1 he)
  have hordered : entries.Pairwise fun a b => a.1.Precedes b.1 :=
    Std.ExtTreeMap.ordered_keys_toList.imp fun hlt => VoteDel.compare_eq_lt.1 hlt
  -- the votes of an entry are those of its delegate, so entries differ in their delegates
  have hranked : entries.Pairwise fun a b => a.1.delegateId ≠ b.1.delegateId ∧
      ∀ va vb, c.db.netVotes a.1.delegateId = some va → c.db.netVotes b.1.delegateId = some vb →
        VoteDel.Precedes ⟨va, a.1.delegateId⟩ ⟨vb, b.1.delegateId⟩ := by
    refine hordered.imp_of_mem fun {a b} ha hb hlt => ⟨fun hid => ?_, fun va vb hva hvb => ?_⟩
    · have hvotes : a.1.votes = b.1.votes := by
        have heq := (hexact a ha).symm.trans (hid ▸ hexact b hb)
        exact Option.some.inj heq
      obtain hlt | ⟨-, hlt⟩ := hlt <;> omega
    · cases (hexact a ha).symm.trans hva
      cases (hexact b hb).symm.trans hvb
      exact hlt
  have hlist : c.nextRoundActiveDelegates =
      (entries.take btsBlockchainNumDelegates).map fun e => e.1.delegateId :=
    (List.map_take ..).symm
  have htake := hranked.sublist (List.take_sublist btsBlockchainNumDelegates entries)
  rw [hlist]
  refine ⟨?_, ?_, ?_, ?_, ?_⟩
  · exact List.pairwise_map.2 (htake.imp And.left)
  · rw [List.length_map]
    exact List.length_take_le ..
  · intro id hid
    obtain ⟨e, he, rfl⟩ := List.mem_map.1 hid
    exact ⟨_, hexact e (List.mem_of_mem_take he)⟩
  · exact List.pairwise_map.2 (htake.imp And.right)
  · intro id votes hvotes
    have hmem : ((⟨votes, id⟩ : VoteDel), ()) ∈ entries :=
      Table.mem_toList.2 ((votesIndexed_iff.1 h _).2 hvotes)
    rw [← List.take_append_drop btsBlockchainNumDelegates entries, List.mem_append] at hmem
    obtain hmem | hmem := hmem
    · exact Or.inl (List.mem_map.2 ⟨_, hmem, rfl⟩)
    · refine Or.inr ⟨?_, fun a ha va hva => ?_⟩
      · have hlong := List.length_pos_of_mem hmem
        rw [List.length_drop] at hlong
        rw [List.length_map, List.length_take]
        omega
      · obtain ⟨e, he, rfl⟩ := List.mem_map.1 ha
        rw [← List.take_append_drop btsBlockchainNumDelegates entries] at hranked
        exact ((List.pairwise_append.1 hranked).2.2 e he _ hmem).2 va votes hva hvotes

/-- The election depends on the accounts alone. -/
theorem nextRoundActiveDelegates_congr (h : c.db.VotesIndexed) (h' : c'.db.VotesIndexed)
    (haccounts : c'.db.accounts = c.db.accounts) :
    c'.nextRoundActiveDelegates = c.nextRoundActiveDelegates := by
  unfold nextRoundActiveDelegates
  rw [h.ext h' haccounts]

end ChainInterface

/-! ### Every store of a run -/

namespace Database

open Ledger LarkX.Action

variable {crypto : Crypto} {config : GenesisBlockConfig} {wall : ℕ} {b : FullBlock} {ev : Event}
  {db db' : Database}

theorem stores_of_step (h : Step crypto wall b db ev db') : Stores crypto db.ledger db'.ledger := by
  cases h with
  | stored h => rw [h.rest]
  | marked h => rw [h.rest]
  | extended _ h =>
    obtain ⟨c, undo, c', hextends⟩ := extendChain_eq_ok h
    obtain ⟨fork, undoStateDb, -, -, rfl⟩ := hextends.result
    exact (ChainInterface.applyOverlay_storesOf rfl hextends.applied).stores.tail (.aside rfl rfl)
  | extendThrew _ h =>
    obtain ⟨db₁, hfails, hmarked⟩ := extendChain_outcome.of_error h
    rw [hmarked.rest]
    cases hfails with
    | unevaluated => exact .refl
    | unindexed => exact .refl
    | unapplied => exact (ChainInterface.applyOverlayThrown_storesOf (c := db.chain wall) rfl).stores
    | unknown _ _ happly => exact (ChainInterface.applyOverlay_storesOf rfl happly).stores
  | popped h =>
    obtain ⟨-, rfl⟩ | ⟨-, undo, c', header, hpops⟩ := popBlock_outcome.of_ok h
    · exact .refl
    · obtain ⟨fork, -, rfl⟩ := hpops.result
      exact (ChainInterface.applyOverlay_storesOf rfl hpops.applied).stores
  | popThrew h =>
    cases (popBlock_outcome.of_error h).2 with
    | unknown => exact .refl
    | noUndo => exact .refl
    | unapplied => exact (ChainInterface.applyOverlayThrown_storesOf (c := db.chain wall) rfl).stores
    | noHeader _ _ happly => exact (ChainInterface.applyOverlay_storesOf rfl happly).stores

/-- **Every reachable ledger** is built by stores. -/
theorem Reachable.stores (h : Reachable crypto config db) :
    Stores crypto { chainId := crypto.genesisDigest config } db.ledger := by
  refine h.runOf.invariant (I := fun db =>
    Stores crypto { chainId := crypto.genesisDigest config } db.ledger) (fun db h => ?_)
    (fun _ h => h) fun _ _ _ _ _ _ _ hdb hstep _ => hdb.trans (stores_of_step hstep)
  simp only [initializeGenesis, bind_eq_ok, pure_eq_ok] at h
  obtain ⟨ledger, hledger, rfl⟩ := h
  exact (Genesis.genesisLedger_storesOf hledger).stores

end Database

/-- **The vote index is exact** after any sequence of stores: its entries are the stored delegates,
each with its current votes. So the next round is elected, and it is the same on every node with
these accounts, whatever that node has stored before. -/
theorem delegateVoteIndex_exact (crypto : Crypto) {chainId chainId' : Digest}
    {c c' : ChainInterface} (h : Ledger.Stores crypto { chainId } c.db)
    (h' : Ledger.Stores crypto { chainId := chainId' } c'.db) :
    (∀ v : VoteDel, c.db.delegateVoteIndex[v]? = some () ↔
      c.db.netVotes v.delegateId = some v.votes) ∧
    c.db.Elects c.nextRoundActiveDelegates ∧
    (c'.db.accounts = c.db.accounts → c'.nextRoundActiveDelegates = c.nextRoundActiveDelegates) := by
  have hexact := h.votesIndexed (Ledger.votesIndexed_empty chainId)
  have hexact' := h'.votesIndexed (Ledger.votesIndexed_empty chainId')
  exact ⟨Ledger.votesIndexed_iff.1 hexact, ChainInterface.nextRoundActiveDelegates_elects hexact,
    ChainInterface.nextRoundActiveDelegates_congr hexact hexact'⟩

/-- Three delegates: the votes of the first change, and the last one is undone. -/
def electedLedger (chainId : Digest) : Ledger :=
  ([(1, 5, 1), (2, 5, 1), (3, 9, 1), (1, 4, 1), (3, 9, 0)].map fun (e : ℤ × ℤ × ℕ) =>
    ({ id := e.1, ownerKey := e.2.2, delegateInfo := some { votesFor := e.2.1 } } :
      AccountRecord)).foldl
    (fun db r => db.storeAccountRecord .transparent r) { chainId }

theorem delegateVoteIndex_exact_electedLedger :
    (electedLedger 0).delegateVoteIndex[(⟨4, 1⟩ : VoteDel)]? = some () ∧
      ¬ (electedLedger 0).delegateVoteIndex[(⟨9, 3⟩ : VoteDel)]? = some () ∧
      ChainInterface.nextRoundActiveDelegates { db := electedLedger 0, now := 0, headBlockNum := 0 }
        = ChainInterface.nextRoundActiveDelegates
          { db := electedLedger 1, now := 5, headBlockNum := 2 } := by
  obtain ⟨hexact, -, hsame⟩ := @delegateVoteIndex_exact .transparent 0 1
    { db := electedLedger 0, now := 0, headBlockNum := 0 }
    { db := electedLedger 1, now := 5, headBlockNum := 2 }
    (.records { chainId := 0 } _) (.records { chainId := 1 } _)
  refine ⟨(hexact _).2 (by decide +kernel), fun h => ?_, (hsame rfl).symm⟩
  exact absurd ((hexact _).1 h) (by decide +kernel)

end LarkX
