import LarkX.Chain.Delegates
import LarkX.Chain.Votes
import LarkX.Evaluate.Forward

/-!
# The schedule of the delegates

The list `get_slot_signee` looks a slot up in is well formed when it holds as many distinct
delegates as a round has slots, all of them stored (`Tables.Scheduled`). A block keeps its delegates
(`Retains`), and at the end of a round the list is a shuffle of the delegates that are elected, so a
chain that starts with enough delegates has such a list in every state.
-/

namespace LarkX

open ChainInterface Ledger

/-! ### The shuffle -/

namespace ChainInterface

theorem swapAt_perm {l : List ℤ} {i j : ℕ} (hi : i < l.length) (hj : j < l.length) :
    (swapAt l i j).Perm l := by
  rw [swapAt, List.getElem?_eq_getElem hi, List.getElem?_eq_getElem hj]
  exact List.set_set_perm hi hj

/-- **The shuffle** loses no delegate and puts none in twice. -/
theorem shuffleDelegates_perm (crypto : Crypto) (rounds i seed : ℕ) (l : List ℤ) :
    (shuffleDelegates crypto rounds i seed l).Perm l := by
  induction rounds generalizing i seed l with
  | zero => exact .refl l
  | succ rounds ih =>
    rw [shuffleDelegates]
    split
    · rename_i hi
      have hround : ∀ (xs : List ℕ) (l' : List ℤ), l'.Perm l →
          (xs.foldl (fun l' x => if i + x < l.length then
            swapAt l' (i + x) (crypto.seedWord seed x % l.length) else l') l').Perm l := by
        intro xs
        induction xs with
        | nil => exact fun _ hl' => hl'
        | cons x xs ih =>
          refine fun l' hl' => ih _ ?_
          dsimp only
          split
          · rename_i hx
            have hword : crypto.seedWord seed x % l.length < l.length := Nat.mod_lt _ (by omega)
            exact (swapAt_perm (hl'.length_eq ▸ hx) (hl'.length_eq ▸ hword)).trans hl'
          · exact hl'
      exact (ih ..).trans (hround _ l (.refl l))
    · exact .refl l

end ChainInterface

/-! ### Delegates and their list -/

namespace Tables

/-- A delegate that is stored. -/
def HasDelegate (t : Tables) (id : ℤ) : Prop :=
  ∃ r, t.accounts[id]? = some r ∧ r.isDelegate = true ∧ r.isNull = false

/-- The list of the active delegates. -/
def activeList (t : Tables) : Option Variant :=
  t.properties[ChainProperty.activeDelegateListId]?

/-- A well-formed list: as many distinct delegates as a round has slots. -/
structure Schedules (t : Tables) (active : List ℤ) : Prop where
  listed : t.activeList = some (.ids active)
  length : active.length = btsBlockchainNumDelegates
  nodup : active.Nodup
  stored : ∀ id ∈ active, t.HasDelegate id

/-- The delegates are kept. -/
def KeepsDelegates (t t' : Tables) : Prop :=
  ∀ id, t.HasDelegate id → t'.HasDelegate id

variable {t t' t₁ t₂ t₃ : Tables}

theorem KeepsDelegates.of_eq (h : t'.accounts = t.accounts) : t.KeepsDelegates t' := by
  intro id hid
  rw [HasDelegate, h]
  exact hid

theorem KeepsDelegates.trans (h : t₁.KeepsDelegates t₂) (h' : t₂.KeepsDelegates t₃) :
    t₁.KeepsDelegates t₃ :=
  fun id hid => h' id (h id hid)

/-- Accounts that move forward keep their delegates. -/
theorem KeepsDelegates.of_forward {now : ℕ} (h : AccountsForward now t.accounts t'.accounts) :
    t.KeepsDelegates t' := by
  rintro id ⟨r, hr, hdelegate, hlive⟩
  obtain ⟨r', hr', hforward⟩ := h.kept id r hr
  obtain ⟨info, hinfo⟩ := Option.isSome_iff_exists.1 hdelegate
  obtain ⟨info', hinfo', -⟩ := hforward.delegate info hinfo
  refine ⟨r', hr', ?_, ?_⟩
  · rw [AccountRecord.isDelegate, hinfo']
    rfl
  · rw [AccountRecord.isNull, hforward.identity.ownerKey]
    exact hlive

/-- A delegate is written over. -/
theorem KeepsDelegates.account {crypto : Crypto} {r : AccountRecord}
    (hdelegate : r.isDelegate = true)
    (hlive : ∀ old, t.accounts[r.id]? = some old → old.isNull = false → r.isNull = false) :
    t.KeepsDelegates (t.write crypto (.account r)) := by
  rintro id ⟨old, hold, holdDelegate, holdLive⟩
  by_cases hid : id = r.id
  · subst hid
    exact ⟨r, Table.getElem?_insert_same .., hdelegate, hlive old hold holdLive⟩
  · exact ⟨old, (Table.getElem?_insert_of_ne _ _ hid).trans hold, holdDelegate, holdLive⟩

end Tables

/-! ### The parts of a block -/

namespace ChainInterface

open EvaluationState (Registry)

variable {crypto : Crypto} {c c' c₁ c₂ c₃ : ChainInterface} {head : SignedBlockHeader}
  {b : FullBlock} {blockSignee : PublicKey}

/-- Writes to anything but accounts and the last account id leave the accounts below it. -/
theorem accountsBelow_aside {t t' : Tables} (h : t.AccountsBelow)
    (haccounts : t'.accounts = t.accounts)
    (hlast : t'.properties[ChainProperty.lastAccountId]? =
      t.properties[ChainProperty.lastAccountId]?) : t'.AccountsBelow := by
  intro last hlast' id r hr
  rw [hlast] at hlast'
  rw [haccounts] at hr
  exact h last hlast' id r hr

/-- What a part of a block leaves of the schedule: the delegates are kept, and the list is not
written. -/
structure Retains (crypto : Crypto) (c c' : ChainInterface) : Prop where
  registry : Registry crypto c'
  db : c'.db = c.db
  kept : c.flat.KeepsDelegates c'.flat
  list : c'.flat.activeList = c.flat.activeList

theorem Retains.refl (h : Registry crypto c) : Retains crypto c c :=
  ⟨h, rfl, fun _ hid => hid, rfl⟩

theorem Retains.trans (h : Retains crypto c₁ c₂) (h' : Retains crypto c₂ c₃) :
    Retains crypto c₁ c₃ :=
  ⟨h'.registry, h'.db.trans h.db, h.kept.trans h'.kept, h'.list.trans h.list⟩

/-- A write aside from the accounts. -/
theorem registry_aside (h : Registry crypto c) {w : Write}
    (haccounts : (c.flat.write crypto w).accounts = c.flat.accounts)
    (hlast : (c.flat.write crypto w).properties[ChainProperty.lastAccountId]? =
      c.flat.properties[ChainProperty.lastAccountId]?) :
    Registry crypto (c.write crypto w) ∧ c.flat.KeepsDelegates (c.write crypto w).flat := by
  refine ⟨⟨(sameBelow_write crypto c w).pending h.pending, ?_, ?_⟩, ?_⟩
  all_goals rw [flat_write h.pending]
  · exact h.keyed.write w
  · exact accountsBelow_aside h.below haccounts hlast
  · exact .of_eq haccounts

/-- A write aside from the accounts and the list. -/
theorem retains_aside (h : Registry crypto c) {w : Write}
    (haccounts : (c.flat.write crypto w).accounts = c.flat.accounts)
    (hlast : (c.flat.write crypto w).properties[ChainProperty.lastAccountId]? =
      c.flat.properties[ChainProperty.lastAccountId]?)
    (hlist : (c.flat.write crypto w).activeList = c.flat.activeList) :
    Retains crypto c (c.write crypto w) := by
  obtain ⟨hregistry, hkept⟩ := registry_aside h haccounts hlast
  refine ⟨hregistry, (sameBelow_write crypto c w).db, hkept, ?_⟩
  rw [flat_write h.pending]
  exact hlist

/-- A property that is not one of the two. -/
theorem retains_property (h : Registry crypto c) {p : ChainProperty} (hlast : p ≠ .lastAccountId)
    (hlist : p ≠ .activeDelegateListId) (v : Variant) :
    Retains crypto c (c.write crypto (.property p v)) :=
  retains_aside h rfl (Table.getElem?_insert_of_ne _ _ hlast.symm)
    (Table.getElem?_insert_of_ne _ _ hlist.symm)

/-- The statistics of a delegate are written. -/
theorem retains_delegate (h : Registry crypto c) {id : ℤ} {r : AccountRecord} {info : DelegateStats}
    (info' : DelegateStats) (hr : c.getDelegate id = .ok (r, info)) :
    Retains crypto c (c.storeAccountRecord crypto { r with delegateInfo := some info' }) := by
  obtain ⟨hold, -⟩ := getDelegate_eq_ok hr
  have hid : r.id = id := h.keyed.accounts id r hold
  have hwrite : EvaluationWrite crypto [] c (.account { r with delegateInfo := some info' }) :=
    .account hold ⟨rfl, rfl, rfl⟩ (Or.inl rfl)
  rw [storeAccountRecord_eq h.pending]
  refine ⟨⟨(sameBelow_write crypto c _).pending h.pending, ?_, ?_⟩, (sameBelow_write crypto c _).db,
    ?_, ?_⟩
  all_goals rw [flat_write h.pending]
  · exact h.keyed.write _
  · exact EvaluationState.accountsBelow_write h.keyed h.below hwrite
  · refine .account rfl fun old hold' hlive => ?_
    rw [show ({ r with delegateInfo := some info' } : AccountRecord).id = id from hid, hold] at hold'
    cases hold'
    exact hlive
  · rfl

theorem updateProducer_retains (h : Registry crypto c)
    (hrun : c.updateProducer crypto b blockSignee = .ok c') : Retains crypto c c' := by
  simp only [updateProducer, bind_eq_ok, pure_eq_ok] at hrun
  obtain ⟨signee, -, ⟨r, info⟩, hr, _, -, rfl⟩ := hrun
  have hfirst := retains_delegate h { info with
    blocksProduced := info.blocksProduced + 1
    nextSecretHash := b.nextSecretHash
    lastBlockNumProduced := b.blockNum } hr
  rw [storeSlotRecord_eq crypto hfirst.registry.pending]
  exact hfirst.trans (retains_aside hfirst.registry rfl rfl rfl)

theorem updateMissedSlot_retains (h : Registry crypto c) {active : List ℤ} {timestamp : ℕ}
    (hrun : c.updateMissedSlot crypto active timestamp = .ok c') : Retains crypto c c' := by
  simp only [updateMissedSlot, bind_eq_ok, pure_eq_ok] at hrun
  obtain ⟨signee, -, ⟨r, info⟩, hr, rfl⟩ := hrun
  have hfirst := retains_delegate h { info with blocksMissed := info.blocksMissed + 1 } hr
  rw [storeSlotRecord_eq crypto hfirst.registry.pending]
  exact hfirst.trans (retains_aside hfirst.registry rfl rfl rfl)

theorem updateDelegateProductionInfo_retains (h : Registry crypto c)
    (hrun : c.updateDelegateProductionInfo crypto head b blockSignee = .ok c') :
    Retains crypto c c' := by
  simp only [updateDelegateProductionInfo, bind_eq_ok, pure_eq_ok] at hrun
  obtain ⟨c₁, hproducer, _, -, required, -, active, -, c₂, hmissed, rfl⟩ := hrun
  have h₁ := updateProducer_retains h hproducer
  have h₂ : Retains crypto c c₂ := foldlM_induction (P := fun c₂ => Retains crypto c c₂)
    (fun _ _ _ _ hc₁ hc₂ => hc₁.trans (updateMissedSlot_retains hc₁.registry hc₂)) h₁ hmissed
  rw [setProperty_eq crypto h₂.registry.pending]
  exact h₂.trans (retains_property h₂.registry (by decide) (by decide) _)

theorem payDelegate_retains (h : Registry crypto c)
    (hrun : c.payDelegate crypto blockSignee = .ok c') : Retains crypto c c' := by
  simp only [payDelegate, bind_eq_ok, orThrow_eq_ok, pure_eq_ok] at hrun
  obtain ⟨signee, -, ⟨r, info⟩, hr, _, -, maxAvailable, -, base, -, base', -, rfl⟩ := hrun
  rw [storeAssetRecord_eq crypto h.pending]
  have h₁ := retains_aside h (w := .asset { base with
    collectedFees := wrap64 (base.collectedFees - maxAvailable) }) rfl rfl rfl
  have hr₁ : (c.write crypto (.asset { base with
      collectedFees := wrap64 (base.collectedFees - maxAvailable) })).getDelegate signee.id =
        .ok (r, info) := by
    rw [getDelegate_write h.pending rfl]
    exact hr
  have h₂ := h₁.trans (retains_delegate h₁.registry { info with
    payBalance := wrap64 (info.payBalance + (info.payRate * maxAvailable).tdiv 100)
    votesFor := wrap64 (info.votesFor + (info.payRate * maxAvailable).tdiv 100) } hr₁)
  rw [storeAssetRecord_eq crypto h₂.registry.pending]
  exact h₂.trans (retains_aside h₂.registry rfl rfl rfl)

/-- Writes that leave the accounts and the list, one after another. -/
theorem retains_writes {W : ChainInterface → Write → Prop} (h : Registry crypto c)
    (hW : ∀ c w, Registry crypto c → W c w → Retains crypto c (c.write crypto w))
    (hw : Writes crypto W c c') : Retains crypto c c' :=
  hw.invariant (I := Retains crypto c)
    (fun c₁ w _ hc₁ hw₁ => hc₁.trans (hW c₁ w hc₁.registry hw₁)) h.pending (.refl h)

theorem executeMarkets_retains (h : Registry crypto c)
    (hrun : executeMarkets crypto c = .ok c') : Retains crypto c c' := by
  refine retains_writes h (fun c w hc hw => ?_) (executeMarkets_writes h.pending h.keyed hrun)
  obtain ⟨pair, -, -, hw⟩ := hw
  cases hw with
  | dirtyMarkets => exact retains_property hc (by decide) (by decide) _
  | _ => exact retains_aside hc rfl rfl rfl

/-- The list is no part of a transaction. -/
theorem evaluate_activeList (h : Registry crypto c) {chainId : Digest} {trx : SignedTransaction}
    {skip canonical : Bool} {s : EvaluationState}
    (heval : EvaluationState.evaluate crypto c chainId trx skip canonical = .ok s) :
    s.currentState.flat.activeList = c.flat.activeList := by
  refine (EvaluationState.evaluate_writes h.pending heval).invariant
    (I := fun c' => c'.flat.activeList = c.flat.activeList) (fun c₁ w hp hc₁ hw => ?_) h.pending rfl
  rw [flat_write hp, ← hc₁]
  cases hw with
  | newAccount => exact Table.getElem?_insert_of_ne _ _ (by decide)
  | _ => rfl

theorem applyTransaction_retains (h : Registry crypto c) {skip : Bool} {blockNum : ℕ}
    {entry : SignedTransaction × ℕ} (hrun : c.applyTransaction crypto skip blockNum entry = .ok c') :
    Retains crypto c c' := by
  simp only [applyTransaction, bind_eq_ok] at hrun
  obtain ⟨s, heval, hstore⟩ := hrun
  have hwrites := EvaluationState.evaluate_writes h.pending heval
  have hfirst : Retains crypto c s.currentState :=
    ⟨h.writes hwrites, hwrites.sameBelow.db, .of_forward (EvaluationState.evaluate_forward h heval).2,
      evaluate_activeList h heval⟩
  obtain ⟨chainId, -, rfl⟩ := storeTransaction_eq_ok hfirst.registry.pending hstore
  exact hfirst.trans (retains_aside hfirst.registry rfl rfl rfl)

theorem applyTransactionsOf_retains (h : Registry crypto c) {skip : Bool}
    (hrun : c.applyTransactionsOf crypto skip b = .ok c') : Retains crypto c c' :=
  foldlM_induction (P := fun c' => Retains crypto c c')
    (fun _ _ _ _ hc₁ h₁ => hc₁.trans (applyTransaction_retains hc₁.registry h₁)) (.refl h) hrun

/-! ### The list -/

/-- What `update_active_delegate_list` stores. -/
inductive Reschedules (crypto : Crypto) (b : FullBlock) (c : ChainInterface) :
    ChainInterface → Prop
  | shuffled {active : List ℤ} (hround : b.blockNum % btsBlockchainNumDelegates = 0)
      (hperm : active.Perm c.nextRoundActiveDelegates) :
      Reschedules crypto b c (c.setActiveDelegates active)
  | same (hround : b.blockNum % btsBlockchainNumDelegates ≠ 0) : Reschedules crypto b c c

/-- **Rounds.** At the end of a round the list is a permutation of the elected delegates, whatever
the random seed is; otherwise it is left alone. -/
theorem updateActiveDelegateList_reschedules
    (hrun : c.updateActiveDelegateList crypto b = .ok c') : Reschedules crypto b c c' := by
  simp only [updateActiveDelegateList, ite_eq_ok, bind_eq_ok, pure_eq_ok] at hrun
  obtain ⟨hround, seed, -, rfl⟩ | ⟨hround, rfl⟩ := hrun
  · exact .shuffled hround (shuffleDelegates_perm ..)
  · exact .same hround

/-- **A block keeps the delegates**, and its list is the old one or a shuffle of the elected
delegates. -/
theorem evaluateBlockChanges_schedule (h : Registry crypto c) {skip : Bool}
    (hrun : c.evaluateBlockChanges crypto head skip b blockSignee = .ok c') :
    c.flat.KeepsDelegates c'.flat ∧ c'.flat.AccountsBelow ∧
      ((b.blockNum % btsBlockchainNumDelegates = 0 ∧ ∃ active,
          active.Perm c.nextRoundActiveDelegates ∧ c'.flat.activeList = some (.ids active)) ∨
        (b.blockNum % btsBlockchainNumDelegates ≠ 0 ∧ c'.flat.activeList = c.flat.activeList)) := by
  simp only [evaluateBlockChanges, bind_eq_ok] at hrun
  obtain ⟨c₁, hproduction, c₂, hpay, c₃, hmarkets, c₄, htransactions, c₅, hactive, hseed⟩ := hrun
  have h₁ := updateDelegateProductionInfo_retains h hproduction
  have h₂ := h₁.trans (payDelegate_retains h₁.registry hpay)
  have h₃ := h₂.trans (executeMarkets_retains h₂.registry hmarkets)
  have h₄ := h₃.trans (applyTransactionsOf_retains h₃.registry htransactions)
  simp only [updateRandomSeed, bind_eq_ok, pure_eq_ok] at hseed
  obtain ⟨seed, -, rfl⟩ := hseed
  cases updateActiveDelegateList_reschedules hactive with
  | @shuffled active hround hperm =>
    -- the delegates are those of the database, which the block does not write
    have helected : c₄.nextRoundActiveDelegates = c.nextRoundActiveDelegates := by
      rw [nextRoundActiveDelegates, h₄.db, nextRoundActiveDelegates]
    rw [setActiveDelegates, setProperty_eq crypto h₄.registry.pending]
    obtain ⟨hregistry, hkept⟩ := registry_aside h₄.registry
      (w := .property .activeDelegateListId (.ids active)) rfl
      (Table.getElem?_insert_of_ne _ _ (by decide))
    have h₅ := retains_property hregistry (p := .lastRandomSeedId) (by decide) (by decide)
      (.hash (crypto.mixSeed b.previousSecret seed))
    rw [setProperty_eq crypto hregistry.pending]
    refine ⟨h₄.kept.trans (hkept.trans h₅.kept), h₅.registry.below,
      Or.inl ⟨hround, active, helected ▸ hperm, h₅.list.trans ?_⟩⟩
    rw [flat_write h₄.registry.pending]
    exact Table.getElem?_insert_same ..
  | same hround =>
    rw [setProperty_eq crypto h₄.registry.pending]
    have h₅ := h₄.trans (retains_property h₄.registry (p := .lastRandomSeedId) (by decide)
      (by decide) (.hash (crypto.mixSeed b.previousSecret seed)))
    exact ⟨h₅.kept, h₅.registry.below, Or.inr ⟨hround, h₅.list⟩⟩

end ChainInterface

/-! ### The ledger -/

/-- A chain state with a well-formed list, whose accounts have ids that have been given out. -/
structure Tables.Scheduled (t : Tables) : Prop where
  below : t.AccountsBelow
  schedule : ∃ active, t.Schedules active

namespace Ledger

variable {crypto : Crypto} {db db' : Ledger}

theorem hasDelegate_iff (hlive : db.toTables.Live) {id : ℤ} :
    db.toTables.HasDelegate id ↔ ∃ votes, db.netVotes id = some votes := by
  simp only [netVotes_eq_some]
  constructor
  · rintro ⟨r, hr, hdelegate, -⟩
    obtain ⟨info, hinfo⟩ := Option.isSome_iff_exists.1 hdelegate
    exact ⟨info.votesFor, r, info, hr, hinfo, rfl⟩
  · rintro ⟨votes, r, info, hr, hinfo, -⟩
    exact ⟨r, hr, Option.isSome_iff_exists.2 ⟨info, hinfo⟩, hlive.accounts id r hr⟩

/-- With enough delegates, the list of the elected ones is full. -/
theorem Elects.length_eq {l active : List ℤ} (h : db.Elects l) (hnodup : active.Nodup)
    (hlength : btsBlockchainNumDelegates ≤ active.length)
    (hstored : ∀ id ∈ active, ∃ votes, db.netVotes id = some votes) :
    l.length = btsBlockchainNumDelegates := by
  by_contra hne
  have hsubset : active ⊆ l := by
    intro id hid
    obtain ⟨votes, hvotes⟩ := hstored id hid
    exact (h.top id votes hvotes).resolve_right fun hfull => hne hfull.1
  have hle := (hnodup.subperm hsubset).length_le
  have hle' := h.length_le
  omega

/-- The elected delegates, in any order, are a well-formed list. -/
theorem Elects.schedules {t : Tables} {l active : List ℤ} (h : db.Elects l)
    (hlive : db.toTables.Live) (hlength : l.length = btsBlockchainNumDelegates)
    (hperm : active.Perm l) (hlisted : t.activeList = some (.ids active))
    (hkept : db.toTables.KeepsDelegates t) : t.Schedules active where
  listed := hlisted
  length := hperm.length_eq.trans hlength
  nodup := hperm.nodup_iff.2 h.nodup
  stored id hid := hkept id ((hasDelegate_iff hlive).2 (h.stored id (hperm.subset hid)))

/-- What is left of the pending state of a block when it is applied. -/
theorem apply_schedule (db : Ledger) {o : Overlay} (hkeyed : o.toTables.Keyed crypto) (now : ℕ) :
    (o.toTables.above db.toTables).KeepsDelegates (db.apply crypto now o).toTables ∧
      ((o.toTables.above db.toTables).AccountsBelow →
        (db.apply crypto now o).toTables.AccountsBelow) ∧
      ∀ active, (o.toTables.above db.toTables).activeList = some (.ids active) →
        (db.apply crypto now o).toTables.activeList = some (.ids active) := by
  rw [apply_toTables now db hkeyed]
  refine ⟨?_, ?_, ?_⟩
  · rintro id ⟨r, hr, hdelegate, hlive⟩
    exact ⟨r, Table.settle_of_above hlive hr, hdelegate, hlive⟩
  · intro hbelow last hlast id r hr
    change (Std.ExtTreeMap.insert _ _ _)[_]? = _ at hlast
    rw [Table.getElem?_insert_of_ne _ _ (by decide)] at hlast
    exact hbelow last (Table.above_of_settle hlast) id r (Table.above_of_settle hr)
  · intro active hactive
    change (Std.ExtTreeMap.insert _ _ _)[_]? = _
    rw [Table.getElem?_insert_of_ne _ _ (by decide)]
    exact Table.settle_of_above rfl hactive

/-- **A block keeps the schedule well formed.** At the end of a round the list becomes a permutation
of the elected delegates, in all other blocks it is unchanged. -/
theorem scheduled_block (hdb : db.WellFormed crypto) (hvotes : db.VotesIndexed)
    (hscheduled : db.toTables.Scheduled) {now n wall : ℕ} {head : SignedBlockHeader}
    {headId : BlockId} {skip : Bool} {b : FullBlock} {o : Overlay}
    (h : evaluateBlock crypto ⟨[], db, now, n⟩ head headId skip wall b = .ok ⟨[o], db, now, n⟩)
    (now' : ℕ) :
    (db.apply crypto now' o).toTables.Scheduled ∧
      (b.blockNum % btsBlockchainNumDelegates = 0 → ∃ active,
        active.Perm (nextRoundActiveDelegates ⟨[], db, now, n⟩) ∧
        (db.apply crypto now' o).toTables.activeList = some (.ids active)) ∧
      (b.blockNum % btsBlockchainNumDelegates ≠ 0 →
        (db.apply crypto now' o).toTables.activeList = db.toTables.activeList) := by
  have hflat : (push ⟨[], db, now, n⟩).flat = db.toTables := Tables.empty_above _
  have hkeyed : o.toTables.Keyed crypto := by
    obtain ⟨o', heq, hfits⟩ := evaluateBlock_fits hdb h
    cases heq
    exact hfits.keyed
  simp only [evaluateBlock, bind_eq_ok] at h
  obtain ⟨blockSignee, -, -, -, h⟩ := h
  have hregistry : EvaluationState.Registry crypto (push ⟨[], db, now, n⟩) :=
    ⟨List.cons_ne_nil _ _, hflat ▸ hdb.keyed, hflat ▸ hscheduled.below⟩
  obtain ⟨hkept, hbelow, hlist⟩ := evaluateBlockChanges_schedule hregistry h
  rw [hflat] at hkept hlist
  obtain ⟨happlied, happliedBelow, happliedList⟩ := apply_schedule db hkeyed now'
  obtain ⟨active₀, hactive₀⟩ := hscheduled.schedule
  have hkept' := hkept.trans happlied
  obtain ⟨hround, active, hperm, hactive⟩ | ⟨hround, hactive⟩ := hlist
  · have hlisted := happliedList active hactive
    have helects := nextRoundActiveDelegates_elects (c := ⟨[], db, now, n⟩) hvotes
    have hlength := helects.length_eq hactive₀.nodup hactive₀.length.ge fun id hid =>
      (hasDelegate_iff hdb.live).1 (hactive₀.stored id hid)
    exact ⟨⟨happliedBelow hbelow, active,
      helects.schedules hdb.live hlength hperm hlisted hkept'⟩,
      fun _ => ⟨active, hperm, hlisted⟩, fun hne => absurd hround hne⟩
  · have hlisted := happliedList active₀ (hactive.trans hactive₀.listed)
    exact ⟨⟨happliedBelow hbelow, active₀, hlisted, hactive₀.length, hactive₀.nodup,
      fun id hid => hkept' id (hactive₀.stored id hid)⟩, fun heq => absurd heq hround,
      fun _ => hlisted.trans hactive₀.listed.symm⟩

/-- Ledgers that agree have the same schedule. -/
theorem Agrees.scheduled (h : Agrees db db') (hdb : db.toTables.Scheduled) :
    db'.toTables.Scheduled := by
  obtain ⟨hbelow, active, hactive⟩ := hdb
  have haccounts : db'.toTables.accounts = db.toTables.accounts := h.accounts
  refine ⟨accountsBelow_aside hbelow haccounts (h.properties _ (by decide)), active,
    (h.properties _ (by decide)).trans hactive.listed, hactive.length, hactive.nodup,
    fun id hid => Tables.KeepsDelegates.of_eq haccounts id (hactive.stored id hid)⟩

end Ledger

/-! ### Genesis -/

/-- The ids of the stored delegates. -/
def Ledger.delegates (db : Ledger) : List ℤ :=
  (db.accounts.toList.filter fun e => e.2.isDelegate).map Prod.fst

theorem Ledger.nodup_delegates (db : Ledger) : db.delegates.Nodup :=
  (Table.nodup_toList_keys db.accounts).sublist (List.filter_sublist.map Prod.fst)

namespace Genesis

variable {crypto : Crypto} {config : GenesisBlockConfig} {ledger : Ledger}

/-- The record of a balance touches neither accounts nor delegates. -/
theorem balanceRecord_accounts (s : BalanceState) (chainId : Digest) (ids : List ℤ)
    (addr : PtsAddress) (shares : ℕ) :
    (balanceRecord crypto config s chainId ids addr shares).1.ledger.accounts = s.ledger.accounts ∧
      (balanceRecord crypto config s chainId ids addr shares).1.delegates = s.delegates := by
  unfold balanceRecord storeSlate
  split
  · exact ⟨rfl, rfl⟩
  · dsimp only
    split <;> exact ⟨rfl, rfl⟩

/-- The ids of the genesis accounts are those of the names. -/
theorem fundedLedger_below (h : fundedLedger crypto config = .ok ledger) (id : ℤ)
    (r : AccountRecord) (hr : ledger.accounts[id]? = some r) : id ≤ config.names.length := by
  simp only [fundedLedger, bind_eq_ok, require_eq_ok, pure_eq_ok] at h
  obtain ⟨-, -, named, hnames, s, hbalances, rfl⟩ := h
  have hnamed := names_named hnames
  obtain ⟨haccounts, hdelegates⟩ : (∀ (id : ℤ) r, s.ledger.accounts[id]? = some r →
      id ≤ config.names.length) ∧
      ∀ (id : ℤ) r, s.delegates[id]? = some r → Candidate config.names.length id r := by
    refine foldlM_induction (P := fun s : BalanceState =>
      (∀ (id : ℤ) r, s.ledger.accounts[id]? = some r → id ≤ config.names.length) ∧
      ∀ (id : ℤ) r, s.delegates[id]? = some r → Candidate config.names.length id r)
      (fun s item s' _ hs hstep => ?_)
      ⟨fun id r hr => (hnamed.accounts id r hr).2.1, fun id r hr => (hnamed.delegates id r hr).1⟩
      hbalances
    simp only [addBalance, bind_eq_ok, pure_eq_ok] at hstep
    obtain ⟨shares, -, slate, -, delegates, hvotes, rfl⟩ := hstep
    obtain ⟨haccounts, hdelegates⟩ := @balanceRecord_accounts crypto config s
      (crypto.genesisDigest config) (named.2.toList.map Prod.fst) item.1 shares
    rw [hdelegates] at hvotes
    refine ⟨fun id r hr => hs.1 id r ?_, (addVotes_votes hs.2 hvotes).1⟩
    exact haccounts ▸ hr
  have htables := @Ledger.storeAccounts_toTables crypto _
    (fun id r hr => (hdelegates id r hr).own) s.ledger
  have hsettled : (Table.settle AccountRecord.isNull s.delegates s.ledger.accounts)[id]? =
      some r := by
    rw [← hr]
    exact (congrArg (fun t : Tables => t.accounts[id]?) htables).symm
  have habove := Table.above_of_settle hsettled
  rw [Table.getElem?_above, Option.or_eq_some_iff] at habove
  obtain hid | ⟨-, hid⟩ := habove
  · exact (hdelegates id r hid).le
  · exact haccounts id r hid

/-- The first list of the active delegates. -/
theorem withAssets_activeList (config : GenesisBlockConfig) (ledger : Ledger) (supply : ℤ) :
    (withAssets config ledger supply).toTables.activeList =
      some (.ids (nextRoundActiveDelegates ⟨[], withAssets config ledger supply, 0, 0⟩)) := by
  change (withAssets config ledger supply).properties[_]? = _
  rw [withAssets, getElem?_setProperty_of_ne _ _ (by decide), getElem?_setProperty_of_ne _ _
    (by decide), getElem?_setProperty_of_ne _ _ (by decide), getElem?_setProperty_of_ne _ _
    (by decide), getElem?_setProperty_of_ne _ _ (by decide), getElem?_setProperty_same]
  rfl

end Genesis

namespace Database

variable {crypto : Crypto} {config : GenesisBlockConfig} {db : Database}

theorem initializeGenesis_votesIndexed (h : initializeGenesis crypto config = .ok db) :
    db.ledger.VotesIndexed :=
  (Reachable.genesis h).stores.votesIndexed (votesIndexed_empty _)

/-- **A genesis with enough delegates** has a well-formed schedule. -/
theorem initializeGenesis_scheduled (h : initializeGenesis crypto config = .ok db)
    (hmany : btsBlockchainNumDelegates ≤ db.ledger.delegates.length) :
    db.ledger.toTables.Scheduled := by
  have hlive := (initializeGenesis_wellFormed h).1.live
  have helects := nextRoundActiveDelegates_elects (c := ⟨[], db.ledger, 0, 0⟩)
    (initializeGenesis_votesIndexed h)
  have hlength := helects.length_eq (Ledger.nodup_delegates _) hmany fun id hid => by
    obtain ⟨⟨id', r⟩, he, rfl⟩ := List.mem_map.1 hid
    obtain ⟨he, hdelegate⟩ := List.mem_filter.1 he
    exact (hasDelegate_iff hlive).1 ⟨r, Table.mem_toList.1 he, hdelegate,
      hlive.accounts id' r (Table.mem_toList.1 he)⟩
  simp only [initializeGenesis, Genesis.genesisLedger, bind_eq_ok, pure_eq_ok] at h
  obtain ⟨ledger, ⟨funded, hfunded, total, -, -, -, rfl⟩, rfl⟩ := h
  obtain ⟨assets, properties, htables, -, hlast⟩ :=
    Genesis.withAssets_toTables config funded total.amount
  refine ⟨?_, _, helects.schedules hlive hlength (.refl _)
    (Genesis.withAssets_activeList config funded total.amount) fun _ hid => hid⟩
  dsimp only
  rw [htables]
  intro last hlast' id r hr
  cases hlast.symm.trans hlast'
  exact Genesis.fundedLedger_below hfunded id r hr

/-! ### Runs -/

open LarkX.Action

section Paths

variable {P : FullBlock → Prop} {K : Database → Event → Prop} {genesis : Ledger}
  {links : List (Link crypto)}

/-- The schedule along a path of blocks that were accepted with an exact vote index. -/
theorem Linked.scheduled (hgenesis : genesis.toTables.Scheduled)
    (hK : ∀ db ev, K db ev → db.ledger.VotesIndexed) (h : Linked crypto P K genesis links) :
    (ledgerOf crypto genesis links).toTables.Scheduled := by
  induction h with
  | nil => exact hgenesis
  | @cons link links _ prev _ _ _ hlink ih =>
    exact (scheduled_block prev.wellFormed (hK _ _ hlink) (prev.agrees.scheduled ih) link.evaluated
      _).1

/-- The ledger after an extension that returns. -/
theorem At.extendChain (h : At crypto P K genesis links db) {wall : ℕ} {b : FullBlock}
    {db' : Database} (hrun : (extendChain crypto wall b).run db = .ok () db') :
    ∃ link : Link crypto, link.prev = db ∧ link.wall = wall ∧ link.block = b ∧
      db'.ledger.toTables = link.after.toTables := by
  obtain ⟨c, undo, c', hextends⟩ := extendChain_eq_ok hrun
  obtain ⟨link, hprev, hwall, hblock, rfl, hfits⟩ := h.link hextends.evaluated
  have hgate : atOrAfterFork25 db.headBlockNum = false := h.sane.gate
  have happlied := hextends.applied
  change applyOverlay crypto link.changes ⟨[], db.ledger, db.now wall, db.headBlockNum⟩ = _
    at happlied
  rw [applyOverlay_ledger db.ledger hgate hfits.named] at happlied
  obtain rfl := (Except.ok.inj happlied).symm
  obtain ⟨fork, undoStateDb, -, -, rfl⟩ := hextends.result
  refine ⟨link, hprev, hwall, hblock, ?_⟩
  rw [Link.after, hprev, hwall]
  rfl

end Paths

/-- A database in the middle of a call of `pushBlock`, or between two calls. -/
def Visited (crypto : Crypto) (config : GenesisBlockConfig) (db : Database) : Prop :=
  ∃ (db₀ : Database) (wall : ℕ) (b : FullBlock), Reachable crypto config db₀ ∧ b.InRange ∧
    AnySteps crypto wall b db₀ db

theorem Reachable.visited (h : Reachable crypto config db) : Visited crypto config db :=
  ⟨db, 0, {}, h, by decide, .refl⟩

/-- Every visited database has followed a path, with an exact vote index all along. -/
theorem Visited.tracks (hids : crypto.IdealIds) (h : Visited crypto config db) :
    ∃ g, initializeGenesis crypto config = .ok g ∧ db.ledger.VotesIndexed ∧
      ∃ links, Tracks crypto (fun _ => True) (fun db _ => db.ledger.VotesIndexed) g.ledger db
        links := by
  obtain ⟨db₀, wall, b, hreachable, hrange, hsteps⟩ := h
  have hstep : ∀ wall b ev (db db' : Database), db.ledger.VotesIndexed →
      Step crypto wall b db ev db' → db.ledger.VotesIndexed ∧ db'.ledger.VotesIndexed :=
    fun _ _ _ _ _ hdb hstep => ⟨hdb, (stores_of_step hstep).votesIndexed hdb⟩
  obtain ⟨hrun, hindexed⟩ := hreachable.runOf.strengthen
    (I := fun db => db.ledger.VotesIndexed) (fun _ => initializeGenesis_votesIndexed)
    (fun _ h => h) fun wall b ev db db' _ => hstep wall b ev db db'
  obtain ⟨hsteps', hindexed'⟩ := Steps.strengthen (I := fun db => db.ledger.VotesIndexed)
    (hstep wall b) hindexed hsteps
  obtain ⟨g, hg, links, htracks⟩ := (hrun.mono fun _ _ => And.right).tracks hids
  refine ⟨g, hg, hindexed', ?_⟩
  clear hindexed' hsteps
  induction hsteps' with
  | refl => exact ⟨links, htracks⟩
  | tail _ hlast ih =>
    obtain ⟨ev, hlast, -, hindexed'⟩ := hlast
    obtain ⟨links', htracks'⟩ := ih
    obtain ⟨links'', -, htracks''⟩ := htracks'.step hids trivial hrange hlast hindexed'
    exact ⟨links'', htracks''⟩

end Database

/-! ### Slots -/

/-- With a well-formed list every slot has its delegate. -/
theorem Tables.Schedules.getSlotSignee {db : Ledger} {active : List ℤ}
    (h : db.toTables.Schedules active) (now n timestamp : ℕ) :
    ∃ r, ChainInterface.getSlotSignee ⟨[], db, now, n⟩ timestamp active = .ok r := by
  have hpos : timestamp / btsBlockchainBlockIntervalSec % btsBlockchainNumDelegates <
      active.length := by
    rw [h.length]
    exact Nat.mod_lt _ (by decide)
  obtain ⟨r, hr, hdelegate, -⟩ := h.stored _ (List.getElem_mem hpos)
  refine ⟨r, ?_⟩
  simp only [ChainInterface.getSlotSignee, bind_eq_ok, orThrow_eq_ok, require_eq_ok, pure_eq_ok]
  exact ⟨_, List.getElem?_eq_getElem hpos, r, hr, (), hdelegate, rfl⟩

theorem Tables.Schedules.getActiveDelegates {db : Ledger} {active : List ℤ}
    (h : db.toTables.Schedules active) (now n : ℕ) :
    ChainInterface.getActiveDelegates ⟨[], db, now, n⟩ = .ok active := by
  simp only [ChainInterface.getActiveDelegates, bind_eq_ok, getProperty, orThrow_eq_ok]
  exact ⟨_, h.listed, rfl⟩

/-- **The schedule is always well formed.** On a chain whose genesis has enough delegates the list
of the active delegates names as many distinct stored delegates as a round has slots, so every slot
has its delegate. The block at the end of a round replaces it by a permutation of the delegates that
are elected, and no other block changes it. -/
theorem schedule_wellFormed {crypto : Crypto} (hids : crypto.IdealIds) {config : GenesisBlockConfig}
    (hgenesis : ∀ g, initializeGenesis crypto config = .ok g →
      btsBlockchainNumDelegates ≤ g.ledger.delegates.length)
    {db : Database} (h : db.Visited crypto config) :
    (∃ active, db.ledger.toTables.Schedules active ∧
      ∀ wall, (db.chain wall).getActiveDelegates = .ok active ∧
        ∀ timestamp, ∃ r, (db.chain wall).getSlotSignee timestamp active = .ok r) ∧
    (∀ wall, db.ledger.Elects (db.chain wall).nextRoundActiveDelegates) ∧
    ∀ wall b db', (Action.extendChain crypto wall b).run db = .ok () db' →
      (b.blockNum % btsBlockchainNumDelegates = 0 → ∃ active,
        active.Perm (db.chain wall).nextRoundActiveDelegates ∧
        db'.ledger.toTables.Schedules active) ∧
      (b.blockNum % btsBlockchainNumDelegates ≠ 0 →
        db'.ledger.toTables.activeList = db.ledger.toTables.activeList) := by
  obtain ⟨g, hg, hindexed, links, htracks⟩ := h.tracks hids
  have hscheduled : db.ledger.toTables.Scheduled := htracks.agrees.scheduled
    (htracks.linked.scheduled (Database.initializeGenesis_scheduled hg (hgenesis g hg))
      fun _ _ hK => hK)
  obtain ⟨active, hactive⟩ := hscheduled.schedule
  refine ⟨⟨active, hactive, fun wall => ⟨hactive.getActiveDelegates _ _,
    fun timestamp => hactive.getSlotSignee _ _ timestamp⟩⟩,
    fun wall => nextRoundActiveDelegates_elects (c := db.chain wall) hindexed,
    fun wall b db' hrun => ?_⟩
  obtain ⟨link, rfl, rfl, rfl, hafter⟩ := htracks.toAt.extendChain hrun
  obtain ⟨hscheduled', hround, hother⟩ := scheduled_block htracks.wellFormed hindexed hscheduled
    link.evaluated (link.prev.now link.wall)
  rw [hafter]
  refine ⟨fun hend => ?_, hother⟩
  obtain ⟨active', hperm, hlisted⟩ := hround hend
  obtain ⟨active'', hactive''⟩ := hscheduled'.schedule
  cases hlisted.symm.trans hactive''.listed
  exact ⟨active', hperm, hactive''⟩

set_option maxRecDepth 100000 in
/-- The small chain after one block. -/
theorem schedule_wellFormed_smallFirst :
    ∃ active, Database.smallFirst.ledger.toTables.Schedules active ∧
      ∀ timestamp, ∃ r, (Database.smallFirst.chain 100).getSlotSignee timestamp active = .ok r := by
  have hreachable : Database.Reachable .transparent Database.smallConfig Database.smallFirst :=
    Database.reachable_smallGenesis.pushed (by decide +kernel) (by decide +kernel)
  have hgenesis : ∀ g, initializeGenesis .transparent Database.smallConfig = .ok g →
      btsBlockchainNumDelegates ≤ g.ledger.delegates.length := by
    intro g hg
    cases Database.initialize_smallGenesis.symm.trans hg
    decide +kernel
  obtain ⟨⟨active, hactive, hslots⟩, -, -⟩ :=
    schedule_wellFormed Database.idealIds_transparent hgenesis hreachable.visited
  exact ⟨active, hactive, (hslots 100).2⟩

end LarkX
