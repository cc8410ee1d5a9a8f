import LarkX.Chain.Schedule

/-!
# The production of the delegates, block by block

A block credits its producer with a block, charges the delegates of the slots before it with missed
ones, writes a record for each of these slots and moves the confirmation requirement
(`Tables.Produces`); nothing else in it touches any of that (`Tables.SameProduction`). What is
applied to the ledger is the same (`Link.produces`), except that a slot of time 0 is a null record.
-/

namespace LarkX

open ChainInterface Ledger

/-- The delegate `get_slot_signee` names for a slot, by the list of active delegates in the
ledger. -/
def Ledger.slotDelegate (db : Ledger) (timestamp : ℕ) : Option ℤ :=
  (((getActiveDelegates ⟨[], db, 0, 0⟩).bind
    (getSlotSignee ⟨[], db, 0, 0⟩ timestamp)).toOption).map AccountRecord.id

namespace Tables

/-- The confirmation requirement. -/
def confirmations (t : Tables) : Option Variant :=
  t.properties[ChainProperty.confirmationRequirement]?

/-- Some delegates are credited blocks, and others are charged missed ones. -/
structure Credits (produced missed : List ℤ) (t t' : Tables) : Prop where
  produced : ∀ d, (t'.stats d).blocksProduced = (t.stats d).blocksProduced + produced.count d
  missed : ∀ d, (t'.stats d).blocksMissed = (t.stats d).blocksMissed + missed.count d

/-- The blocks of the delegates, the slots and the confirmation requirement are the same. -/
structure SameProduction (t t' : Tables) : Prop extends SameBlocks t t' where
  slots : t'.slots = t.slots
  confirmations : t'.confirmations = t.confirmations

/-- What a block by `producer` over the head `head` does to the production: `missed` are the
delegates of the slots nobody filled, by the list in the ledger. -/
structure Produces (crypto : Crypto) (db : Ledger) (head : SignedBlockHeader) (b : FullBlock)
    (producer : ℤ) (missed : List ℤ) (t t' : Tables) : Prop where
  credits : t.Credits [producer] missed t'
  scheduled : (missedSlots head b).map db.slotDelegate = missed.map some
  own : t'.slots[b.timestamp]? =
    some ⟨b.timestamp, producer, some (crypto.blockId b.toSignedBlockHeader)⟩
  empty : ∀ s ∈ missedSlots head b, ∃ d, db.slotDelegate s = some d ∧
    t'.slots[s]? = some ⟨s, d, none⟩
  others : ∀ s, s ≠ b.timestamp → s ∉ missedSlots head b → t'.slots[s]? = t.slots[s]?
  confirmations : ∃ required, t.confirmations = some (.int required) ∧ t'.confirmations =
    some (.int (nextConfirmationRequirement required (missedSlots head b).length))

variable {t t₁ t₂ t₃ : Tables} {p p' m m' : List ℤ}

theorem Credits.trans (h : Credits p m t₁ t₂) (h' : Credits p' m' t₂ t₃) :
    Credits (p ++ p') (m ++ m') t₁ t₃ := by
  refine ⟨fun d => ?_, fun d => ?_⟩
  · rw [h'.produced, h.produced, List.count_append, add_assoc]
  · rw [h'.missed, h.missed, List.count_append, add_assoc]

theorem SameBlocks.credits (h : t₁.SameBlocks t₂) : Credits [] [] t₁ t₂ :=
  ⟨h.produced, h.missed⟩

theorem SameProduction.trans (h : t₁.SameProduction t₂) (h' : t₂.SameProduction t₃) :
    t₁.SameProduction t₃ :=
  ⟨h.toSameBlocks.trans h'.toSameBlocks, h'.slots.trans h.slots,
    h'.confirmations.trans h.confirmations⟩

theorem SameProduction.refl (t : Tables) : t.SameProduction t :=
  ⟨.refl t, rfl, rfl⟩

/-- What comes after the production of a block leaves it. -/
theorem Produces.trans {crypto : Crypto} {db : Ledger} {head : SignedBlockHeader} {b : FullBlock}
    {producer : ℤ} (h : Produces crypto db head b producer m t₁ t₂) (h' : t₂.SameProduction t₃) :
    Produces crypto db head b producer m t₁ t₃ where
  credits := by
    have hcredits := h.credits.trans h'.toSameBlocks.credits
    rwa [List.append_nil, List.append_nil] at hcredits
  scheduled := h.scheduled
  own := h'.slots ▸ h.own
  empty := h'.slots ▸ h.empty
  others := h'.slots ▸ h.others
  confirmations := by
    obtain ⟨required, hold, hnew⟩ := h.confirmations
    exact ⟨required, hold, h'.confirmations.trans hnew⟩

end Tables

/-! ### Slots -/

/-- A missed slot lies between the head and the block. -/
theorem ChainInterface.mem_missedSlots {head : SignedBlockHeader} {b : FullBlock}
    (hhead : head.timestamp % btsBlockchainBlockIntervalSec = 0)
    (hb : b.timestamp % btsBlockchainBlockIntervalSec = 0) {s : ℕ} :
    s ∈ missedSlots head b ↔ 0 < head.blockNum ∧ head.timestamp < s ∧ s < b.timestamp ∧
      s % btsBlockchainBlockIntervalSec = 0 := by
  unfold missedSlots
  split
  · rename_i hnum
    simp only [btsBlockchainBlockIntervalSec, List.mem_map, List.mem_range] at *
    constructor
    · rintro ⟨k, hk, rfl⟩
      omega
    · rintro ⟨-, hlt, hlt', hslot⟩
      exact ⟨(s - (head.timestamp + 10)) / 10, by omega, by omega⟩
  · rename_i hnum
    exact ⟨fun h => absurd h List.not_mem_nil, fun h => absurd h.1 hnum⟩

theorem ChainInterface.nodup_missedSlots (head : SignedBlockHeader) (b : FullBlock) :
    (missedSlots head b).Nodup := by
  unfold missedSlots
  split
  · refine List.nodup_range.map fun k k' heq => ?_
    simp only [btsBlockchainBlockIntervalSec] at heq
    omega
  · exact List.nodup_nil

/-- No missed slot has the time of the block, and none is at time 0. -/
theorem ChainInterface.missedSlots_bounds {head : SignedBlockHeader} {b : FullBlock} {s : ℕ}
    (hs : s ∈ missedSlots head b) : 0 < s ∧ s < b.timestamp := by
  unfold missedSlots at hs
  split at hs
  · simp only [btsBlockchainBlockIntervalSec, List.mem_map, List.mem_range] at hs
    obtain ⟨k, hk, rfl⟩ := hs
    omega
  · exact absurd hs List.not_mem_nil

/-! ### The parts of a block -/

namespace ChainInterface

open EvaluationState (Registry)

variable {crypto : Crypto} {c c' : ChainInterface} {head : SignedBlockHeader} {b : FullBlock}
  {blockSignee : PublicKey}

theorem slotDelegate_of_signee {active : List ℤ} {timestamp : ℕ} {r : AccountRecord}
    (hactive : c.database.getActiveDelegates = .ok active)
    (hr : c.getSlotSignee timestamp active = .ok r) : c.db.slotDelegate timestamp = some r.id := by
  have hactive₀ : getActiveDelegates ⟨[], c.db, 0, 0⟩ = .ok active := hactive
  have hr₀ : getSlotSignee ⟨[], c.db, 0, 0⟩ timestamp active = .ok r := hr
  rw [slotDelegate, hactive₀]
  change ((getSlotSignee ⟨[], c.db, 0, 0⟩ timestamp active).toOption).map AccountRecord.id = _
  rw [hr₀]
  rfl

/-- The delegate of a slot is stored. -/
theorem slotDelegate_stored {db : Ledger} (hdb : db.WellFormed crypto) {timestamp : ℕ} {d : ℤ}
    (h : db.slotDelegate timestamp = some d) : db.toTables.HasDelegate d := by
  obtain ⟨r, hr, rfl⟩ := Option.map_eq_some_iff.1 h
  cases hactive : getActiveDelegates ⟨[], db, 0, 0⟩ with
  | error e =>
    rw [hactive] at hr
    cases hr
  | ok active =>
    rw [hactive] at hr
    change (getSlotSignee ⟨[], db, 0, 0⟩ timestamp active).toOption = some r at hr
    cases hsignee : getSlotSignee ⟨[], db, 0, 0⟩ timestamp active with
    | error e =>
      rw [hsignee] at hr
      cases hr
    | ok r' =>
      rw [hsignee] at hr
      cases hr
      simp only [getSlotSignee, bind_eq_ok, orThrow_eq_ok, require_eq_ok, pure_eq_ok] at hsignee
      obtain ⟨id, -, r', hget, -, hdelegate, rfl⟩ := hsignee
      have hstored : db.accounts[id]? = some r' := hget
      refine ⟨r', ?_, hdelegate, hdb.live.accounts id r' hstored⟩
      rw [hdb.keyed.accounts id r' hstored]
      exact hstored

/-- A write aside from the accounts, the slots and the confirmation requirement. -/
theorem sameProduction_aside (hp : c.IsPending) {w : Write}
    (haccounts : (c.flat.write crypto w).accounts = c.flat.accounts)
    (hslots : (c.flat.write crypto w).slots = c.flat.slots)
    (hconfirmations : (c.flat.write crypto w).confirmations = c.flat.confirmations) :
    c.flat.SameProduction (c.write crypto w).flat := by
  rw [flat_write hp]
  refine ⟨⟨fun d => ?_, fun d => ?_⟩, hslots, hconfirmations⟩
  all_goals rw [Tables.stats, haccounts, Tables.stats]

/-- A property that is not the confirmation requirement. -/
theorem sameProduction_property (hp : c.IsPending) {p : ChainProperty}
    (hne : p ≠ .confirmationRequirement) (v : Variant) :
    c.flat.SameProduction (c.write crypto (.property p v)).flat :=
  sameProduction_aside hp rfl rfl (Table.getElem?_insert_of_ne _ _ hne.symm)

theorem stats_of_getDelegate {id : ℤ} {r : AccountRecord} {info : DelegateStats}
    (hr : c.getDelegate id = .ok (r, info)) : c.flat.stats id = info := by
  obtain ⟨hold, hinfo⟩ := getDelegate_eq_ok hr
  rw [Tables.stats, hold, Option.elim_some, AccountRecord.stats, hinfo, Option.getD_some]

/-- The statistics of a delegate are written, with `n` more blocks and `k` more missed ones. -/
theorem credits_storeDelegate (h : Registry crypto c) {id : ℤ} {r : AccountRecord}
    {info : DelegateStats} (info' : DelegateStats) (hr : c.getDelegate id = .ok (r, info)) {n k : ℕ}
    (hproduced : info'.blocksProduced = info.blocksProduced + n)
    (hmissed : info'.blocksMissed = info.blocksMissed + k) :
    c.flat.Credits (List.replicate n id) (List.replicate k id)
      (c.storeAccountRecord crypto { r with delegateInfo := some info' }).flat := by
  have hstats : ∀ d, (c.storeAccountRecord crypto
      { r with delegateInfo := some info' }).flat.stats d =
        if d = id then info' else c.flat.stats d := by
    intro d
    rw [storeAccountRecord_eq h.pending, flat_write h.pending, Tables.stats_account]
    rw [show ({ r with delegateInfo := some info' } : AccountRecord).id = id from
      h.keyed.accounts id r (getDelegate_eq_ok hr).1]
    rfl
  have hcount : ∀ (d : ℤ) (n : ℕ), d ≠ id → (List.replicate n id).count d = 0 :=
    fun d n hd => List.count_eq_zero.2 fun hmem => hd (List.eq_of_mem_replicate hmem)
  have hold := stats_of_getDelegate hr
  refine ⟨fun d => ?_, fun d => ?_⟩
  all_goals
    rw [hstats d]
    split
    · rename_i hd
      subst hd
      rw [List.count_replicate_self, hold]
      assumption
    · rename_i hd
      rw [hcount d _ hd, Nat.add_zero]

/-- Only the account is written. -/
theorem flat_storeDelegate (h : Registry crypto c) (r : AccountRecord) :
    (c.storeAccountRecord crypto r).flat.slots = c.flat.slots ∧
      (c.storeAccountRecord crypto r).flat.confirmations = c.flat.confirmations := by
  rw [storeAccountRecord_eq h.pending, flat_write h.pending]
  exact ⟨rfl, rfl⟩

/-- A slot is written. -/
theorem flat_storeSlot (crypto : Crypto) (hp : c.IsPending) (slot : SlotRecord) :
    (c.storeSlotRecord slot).flat = { c.flat with
      slots := c.flat.slots.insert slot.startTime slot } := by
  rw [storeSlotRecord_eq crypto hp, flat_write hp]
  rfl

/-- **The producer** is credited the block, and its slot. -/
theorem updateProducer_production (h : Registry crypto c)
    (hrun : c.updateProducer crypto b blockSignee = .ok c') :
    ∃ signee, c.getDelegateRecordForSignee crypto blockSignee = .ok signee ∧
      c.flat.Credits [signee.id] [] c'.flat ∧
      c'.flat.slots = c.flat.slots.insert b.timestamp
        ⟨b.timestamp, signee.id, some (crypto.blockId b.toSignedBlockHeader)⟩ ∧
      c'.flat.confirmations = c.flat.confirmations := by
  simp only [updateProducer, bind_eq_ok, pure_eq_ok] at hrun
  obtain ⟨signee, hsignee, ⟨r, info⟩, hr, _, -, rfl⟩ := hrun
  generalize hinfo : ({ info with
    blocksProduced := info.blocksProduced + 1
    nextSecretHash := b.nextSecretHash
    lastBlockNumProduced := b.blockNum } : DelegateStats) = info'
  have hcredits : c.flat.Credits [signee.id] []
      (c.storeAccountRecord crypto { r with delegateInfo := some info' }).flat :=
    credits_storeDelegate h (n := 1) (k := 0) info' hr (hinfo ▸ rfl) (hinfo ▸ rfl)
  obtain ⟨hslots, hconfirmations⟩ := flat_storeDelegate h { r with delegateInfo := some info' }
  rw [flat_storeSlot crypto (retains_delegate h info' hr).registry.pending, hslots]
  exact ⟨signee, hsignee, ⟨hcredits.produced, hcredits.missed⟩, rfl, hconfirmations⟩

/-- One missed slot is charged to its delegate. -/
theorem updateMissedSlot_production (h : Registry crypto c) {active : List ℤ} {s : ℕ}
    (hrun : c.updateMissedSlot crypto active s = .ok c') :
    ∃ signee, c.getSlotSignee s active = .ok signee ∧ c.flat.Credits [] [signee.id] c'.flat ∧
      c'.flat.slots = c.flat.slots.insert s ⟨s, signee.id, none⟩ ∧
      c'.flat.confirmations = c.flat.confirmations := by
  simp only [updateMissedSlot, bind_eq_ok, pure_eq_ok] at hrun
  obtain ⟨signee, hsignee, ⟨r, info⟩, hr, rfl⟩ := hrun
  generalize hinfo : ({ info with blocksMissed := info.blocksMissed + 1 } : DelegateStats) = info'
  have hcredits : c.flat.Credits [] [signee.id]
      (c.storeAccountRecord crypto { r with delegateInfo := some info' }).flat :=
    credits_storeDelegate h (n := 0) (k := 1) info' hr (hinfo ▸ rfl) (hinfo ▸ rfl)
  obtain ⟨hslots, hconfirmations⟩ := flat_storeDelegate h { r with delegateInfo := some info' }
  rw [flat_storeSlot crypto (retains_delegate h info' hr).registry.pending, hslots]
  exact ⟨signee, hsignee, ⟨hcredits.produced, hcredits.missed⟩, rfl, hconfirmations⟩

/-- What the loop over the missed slots does. -/
structure Charges (crypto : Crypto) (slots : List ℕ) (missed : List ℤ) (c c' : ChainInterface) :
    Prop where
  retains : Retains crypto c c'
  credits : c.flat.Credits [] missed c'.flat
  scheduled : slots.map c.db.slotDelegate = missed.map some
  empty : ∀ s ∈ slots, ∃ d, c.db.slotDelegate s = some d ∧ c'.flat.slots[s]? = some ⟨s, d, none⟩
  others : ∀ s ∉ slots, c'.flat.slots[s]? = c.flat.slots[s]?
  confirmations : c'.flat.confirmations = c.flat.confirmations

/-- **The loop over the missed slots.** -/
theorem updateMissedSlots_charges (h : Registry crypto c) {active : List ℤ}
    (hactive : c.database.getActiveDelegates = .ok active) {slots : List ℕ}
    (hrun : slots.foldlM (updateMissedSlot crypto active) c = .ok c') :
    ∃ missed, Charges crypto slots missed c c' := by
  induction slots generalizing c with
  | nil =>
    cases hrun
    exact ⟨[], .refl h, (Tables.SameBlocks.refl _).credits, rfl,
      fun _ hs => absurd hs List.not_mem_nil, fun _ _ => rfl, rfl⟩
  | cons s slots ih =>
    rw [List.foldlM_cons, bind_eq_ok] at hrun
    obtain ⟨c₁, hstep, hrun⟩ := hrun
    have hretains := updateMissedSlot_retains h hstep
    obtain ⟨signee, hsignee, hcredits, hslots, hconfirmations⟩ :=
      updateMissedSlot_production h hstep
    have hdelegate := slotDelegate_of_signee hactive hsignee
    have hactive₁ : c₁.database.getActiveDelegates = .ok active := by
      rw [← hactive]
      change getActiveDelegates ⟨[], c₁.db, 0, 0⟩ = getActiveDelegates ⟨[], c.db, 0, 0⟩
      rw [hretains.db]
    obtain ⟨missed, hcharges⟩ := ih hretains.registry hactive₁ hrun
    have hscheduled := hcharges.scheduled
    have hempty := hcharges.empty
    rw [hretains.db] at hscheduled hempty
    refine ⟨signee.id :: missed, hretains.trans hcharges.retains,
      hcredits.trans hcharges.credits, ?_, fun s' hs' => ?_, fun s' hs' => ?_,
      hcharges.confirmations.trans hconfirmations⟩
    · rw [List.map_cons, List.map_cons, hdelegate, hscheduled]
    · by_cases hmem : s' ∈ slots
      · exact hempty s' hmem
      · obtain rfl := (List.mem_cons.1 hs').resolve_right hmem
        refine ⟨signee.id, hdelegate, ?_⟩
        rw [hcharges.others s' hmem, hslots, Table.getElem?_insert_same]
    · rw [List.mem_cons, not_or] at hs'
      rw [hcharges.others s' hs'.2, hslots, Table.getElem?_insert_of_ne _ _ hs'.1]

/-- **The production** of a block. -/
theorem updateDelegateProductionInfo_produces (h : Registry crypto c) {head : SignedBlockHeader}
    (hrun : c.updateDelegateProductionInfo crypto head b blockSignee = .ok c') :
    ∃ signee missed, c.getDelegateRecordForSignee crypto blockSignee = .ok signee ∧
      c.flat.Produces crypto c.db head b signee.id missed c'.flat := by
  simp only [updateDelegateProductionInfo, bind_eq_ok, pure_eq_ok] at hrun
  obtain ⟨c₁, hproducer, prop, hprop, required, hrequired, active, hactive, c₂, hmissed, rfl⟩ :=
    hrun
  have h₁ := updateProducer_retains h hproducer
  obtain ⟨signee, hsignee, hcredits, hslots, hconfirmations⟩ :=
    updateProducer_production h hproducer
  obtain ⟨missed, hcharges⟩ := updateMissedSlots_charges h₁.registry hactive hmissed
  have hscheduled := hcharges.scheduled
  have hempty := hcharges.empty
  rw [h₁.db] at hscheduled hempty
  have hown : b.timestamp ∉ missedSlots head b := fun hmem => (missedSlots_bounds hmem).2.false
  rw [setProperty_eq crypto hcharges.retains.registry.pending]
  rw [flat_write hcharges.retains.registry.pending]
  refine ⟨signee, missed, hsignee, ?_⟩
  have hall := hcredits.trans hcharges.credits
  refine ⟨⟨hall.produced, hall.missed⟩, hscheduled, ?_, hempty, fun s hne hs => ?_, required, ?_,
    Table.getElem?_insert_same ..⟩
  · change c₂.flat.slots[_]? = _
    rw [hcharges.others _ hown, hslots, Table.getElem?_insert_same]
  · change c₂.flat.slots[_]? = _
    rw [hcharges.others s hs, hslots, Table.getElem?_insert_of_ne _ _ hne]
  · obtain rfl : prop = .int required := by
      cases prop with
      | int value => exact congrArg Variant.int (Except.ok.inj hrequired)
      | _ => cases hrequired
    rw [← hconfirmations]
    exact (getProperty_eq_ok _).1 hprop

/-! ### The rest of a block -/

theorem payDelegate_production (h : Registry crypto c)
    (hrun : c.payDelegate crypto blockSignee = .ok c') : c.flat.SameProduction c'.flat := by
  simp only [payDelegate, bind_eq_ok, orThrow_eq_ok, pure_eq_ok] at hrun
  obtain ⟨signee, -, ⟨r, info⟩, hr, _, -, maxAvailable, -, base, -, base', -, rfl⟩ := hrun
  rw [storeAssetRecord_eq crypto h.pending]
  have h₁ := retains_aside h (w := .asset { base with
    collectedFees := wrap64 (base.collectedFees - maxAvailable) }) rfl rfl rfl
  have hfees : c.flat.SameProduction (c.write crypto (.asset { base with
    collectedFees := wrap64 (base.collectedFees - maxAvailable) })).flat :=
    sameProduction_aside h.pending rfl rfl rfl
  have hr₁ : (c.write crypto (.asset { base with
      collectedFees := wrap64 (base.collectedFees - maxAvailable) })).getDelegate signee.id =
        .ok (r, info) := by
    rw [getDelegate_write h.pending rfl]
    exact hr
  generalize hinfo : ({ info with
    payBalance := wrap64 (info.payBalance + (info.payRate * maxAvailable).tdiv 100)
    votesFor := wrap64 (info.votesFor + (info.payRate * maxAvailable).tdiv 100) } :
      DelegateStats) = info'
  have hcredits := credits_storeDelegate h₁.registry (n := 0) (k := 0) info' hr₁ (hinfo ▸ rfl)
    (hinfo ▸ rfl)
  obtain ⟨hslots, hconfirmations⟩ :=
    flat_storeDelegate h₁.registry { r with delegateInfo := some info' }
  have hp := (retains_delegate h₁.registry info' hr₁).registry.pending
  rw [storeAssetRecord_eq crypto hp]
  exact (hfees.trans ⟨⟨hcredits.produced, hcredits.missed⟩, hslots, hconfirmations⟩).trans
    (sameProduction_aside hp rfl rfl rfl)

/-- Writes that leave the production, one after another. -/
theorem sameProduction_writes {W : ChainInterface → Write → Prop} (hp : c.IsPending)
    (hW : ∀ c w, c.IsPending → W c w → c.flat.SameProduction (c.write crypto w).flat)
    (hw : Writes crypto W c c') : c.flat.SameProduction c'.flat :=
  hw.invariant (I := fun c' => c.flat.SameProduction c'.flat)
    (fun c₁ w hp₁ hc₁ hw₁ => hc₁.trans (hW c₁ w hp₁ hw₁)) hp (.refl _)

theorem executeMarkets_production (h : Registry crypto c)
    (hrun : executeMarkets crypto c = .ok c') : c.flat.SameProduction c'.flat := by
  refine sameProduction_writes h.pending (fun c w hp hw => ?_)
    (executeMarkets_writes h.pending h.keyed hrun)
  obtain ⟨pair, -, -, hw⟩ := hw
  cases hw with
  | dirtyMarkets => exact sameProduction_property hp (by decide) _
  | _ => exact sameProduction_aside hp rfl rfl rfl

/-- Slots and the confirmation requirement are no part of a transaction. -/
theorem evaluate_slots (hp : c.IsPending) {chainId : Digest} {trx : SignedTransaction}
    {skip canonical : Bool} {s : EvaluationState}
    (heval : EvaluationState.evaluate crypto c chainId trx skip canonical = .ok s) :
    s.currentState.flat.slots = c.flat.slots ∧
      s.currentState.flat.confirmations = c.flat.confirmations := by
  refine (EvaluationState.evaluate_writes hp heval).invariant
    (I := fun c' => c'.flat.slots = c.flat.slots ∧ c'.flat.confirmations = c.flat.confirmations)
    (fun c₁ w hp hc₁ hw => ?_) hp ⟨rfl, rfl⟩
  rw [flat_write hp, ← hc₁.1, ← hc₁.2]
  cases hw with
  | newAccount => exact ⟨rfl, Table.getElem?_insert_of_ne _ _ (by decide)⟩
  | _ => exact ⟨rfl, rfl⟩

theorem applyTransaction_production (hideal : Function.Injective crypto.conditionAddress)
    (hp : c.IsPending) (hc : c.flat.Countable crypto) {skip : Bool} {blockNum : ℕ}
    {entry : SignedTransaction × ℕ}
    (hrun : c.applyTransaction crypto skip blockNum entry = .ok c') :
    c.flat.SameProduction c'.flat := by
  simp only [applyTransaction, bind_eq_ok] at hrun
  obtain ⟨s, heval, hstore⟩ := hrun
  obtain ⟨-, -, hblocks⟩ := EvaluationState.evaluate_votesKept hideal hp hc heval
  obtain ⟨hslots, hconfirmations⟩ := evaluate_slots hp heval
  have hpending := (EvaluationState.evaluate_writes hp heval).isPending hp
  have hfirst : c.flat.SameProduction s.currentState.flat := ⟨hblocks, hslots, hconfirmations⟩
  obtain ⟨chainId, -, rfl⟩ := storeTransaction_eq_ok hpending hstore
  exact hfirst.trans (sameProduction_aside hpending rfl rfl rfl)

theorem applyTransactionsOf_production (hideal : Function.Injective crypto.conditionAddress)
    (hp : c.IsPending) (hc : c.flat.Countable crypto) {skip : Bool}
    (hrun : c.applyTransactionsOf crypto skip b = .ok c') : c.flat.SameProduction c'.flat := by
  have hall : Counts crypto c c' ∧ c.flat.SameProduction c'.flat := by
    refine foldlM_induction (P := fun c' => Counts crypto c c' ∧ c.flat.SameProduction c'.flat)
      (fun c₁ e c₂ he hc₁ hstep => ?_) ⟨.refl hp hc, .refl _⟩ hrun
    obtain ⟨trx, n⟩ := e
    exact ⟨hc₁.1.trans (applyTransaction_counts hideal hc₁.1.pending hc₁.1.countable
      (List.mem_zipIdx_iff_getElem?.1 he) hstep), hc₁.2.trans (applyTransaction_production hideal
        hc₁.1.pending hc₁.1.countable hstep)⟩
  exact hall.2

/-- The list of delegates and the random seed are other properties. -/
theorem updateActiveDelegateList_production (hp : c.IsPending)
    (hrun : c.updateActiveDelegateList crypto b = .ok c') : c.flat.SameProduction c'.flat := by
  cases updateActiveDelegateList_reschedules hrun with
  | shuffled =>
    rw [setActiveDelegates, setProperty_eq crypto hp]
    exact sameProduction_property hp (by decide) _
  | same => exact .refl _

theorem updateRandomSeed_production (hp : c.IsPending) {secret : SecretHash}
    (hrun : c.updateRandomSeed crypto secret = .ok c') : c.flat.SameProduction c'.flat := by
  simp only [updateRandomSeed, bind_eq_ok, pure_eq_ok] at hrun
  obtain ⟨seed, -, rfl⟩ := hrun
  rw [setProperty_eq crypto hp]
  exact sameProduction_property hp (by decide) _

/-- **A block** produces as its production part does. -/
theorem evaluateBlockChanges_produces (hideal : Function.Injective crypto.conditionAddress)
    (h : Registry crypto c) (hc : c.flat.Countable crypto) {head : SignedBlockHeader} {skip : Bool}
    (hrun : c.evaluateBlockChanges crypto head skip b blockSignee = .ok c') :
    ∃ signee missed, c.getDelegateRecordForSignee crypto blockSignee = .ok signee ∧
      c.flat.Produces crypto c.db head b signee.id missed c'.flat := by
  simp only [evaluateBlockChanges, bind_eq_ok] at hrun
  obtain ⟨c₁, hproduction, c₂, hpay, c₃, hmarkets, c₄, htransactions, c₅, hactive, hseed⟩ := hrun
  obtain ⟨signee, missed, hsignee, hproduces⟩ :=
    updateDelegateProductionInfo_produces h hproduction
  have hcounts₁ := updateDelegateProductionInfo_counts h.pending hc hproduction
  have hcounts₂ := payDelegate_counts b hcounts₁.pending hcounts₁.countable hpay
  have hcounts₃ := executeMarkets_counts b hideal hcounts₂.pending hcounts₂.countable hmarkets
  have h₁ := (updateDelegateProductionInfo_retains h hproduction).registry
  have h₂ := (payDelegate_retains h₁ hpay).registry
  have h₃ := (executeMarkets_retains h₂ hmarkets).registry
  have hp₄ := (applyTransactionsOf_retains h₃ htransactions).registry.pending
  have hwrites : BlockWrites crypto head b c₄ c₅ := updateActiveDelegateList_writes hp₄ hactive
  have hp₅ := hwrites.isPending hp₄
  refine ⟨signee, missed, hsignee, ?_⟩
  have hpaid := hproduces.trans (payDelegate_production h₁ hpay)
  have hmarketed := hpaid.trans (executeMarkets_production h₂ hmarkets)
  have happlied := hmarketed.trans (applyTransactionsOf_production hideal h₃.pending
    hcounts₃.countable htransactions)
  exact (happlied.trans (updateActiveDelegateList_production hp₄ hactive)).trans
    (updateRandomSeed_production hp₅ hseed)

end ChainInterface

/-! ### The ledger -/

namespace Ledger

variable {crypto : Crypto} {db : Ledger} {o : Overlay} {head : SignedBlockHeader} {b : FullBlock}
  {producer : ℤ} {missed : List ℤ}

/-- Writing a pending state to the ledger keeps what it holds of a live entry. -/
theorem getElem?_settle_same {κ α : Type} [Ord κ] [Std.TransOrd κ] [Std.LawfulEqOrd κ]
    {isNull : α → Bool} {top base : Table κ α} (hlive : base.Live isNull) {k : κ}
    (h : (top.above base)[k]? = base[k]?) : (Table.settle isNull top base)[k]? = base[k]? := by
  cases hk : base[k]? with
  | some v =>
    rw [hk] at h
    exact Table.settle_of_above (hlive k v hk) h
  | none =>
    cases hsettled : (Table.settle isNull top base)[k]? with
    | none => rfl
    | some v =>
      rw [hk, Table.above_of_settle hsettled] at h
      cases h

/-- The statistics that are applied are those of the pending state, or there were none. -/
theorem stats_applied (hdb : db.WellFormed crypto) (hkeyed : o.toTables.Keyed crypto)
    (hkept : db.toTables.KeepsDelegates (o.toTables.above db.toTables)) (now : ℕ) (d : ℤ) :
    (db.apply crypto now o).toTables.stats d = (o.toTables.above db.toTables).stats d ∨
      ((db.apply crypto now o).toTables.stats d = {} ∧ db.toTables.stats d = {} ∧
        ¬db.toTables.HasDelegate d) := by
  have hkept' := hkept.trans (apply_schedule db hkeyed now).1
  have haccounts : (db.apply crypto now o).toTables.accounts =
      Table.settle AccountRecord.isNull o.accounts db.accounts :=
    congrArg Tables.accounts (apply_toTables now db hkeyed)
  rw [Tables.stats]
  cases hafter : (db.apply crypto now o).toTables.accounts[d]? with
  | some r =>
    rw [haccounts] at hafter
    refine Or.inl ?_
    rw [Tables.stats, show (o.toTables.above db.toTables).accounts[d]? = some r from
      Table.above_of_settle hafter]
  | none =>
    have hnot : ¬db.toTables.HasDelegate d := by
      intro hdelegate
      obtain ⟨r, hr, -⟩ := hkept' d hdelegate
      rw [hafter] at hr
      cases hr
    refine Or.inr ⟨rfl, ?_, hnot⟩
    rw [Tables.stats]
    cases hr : db.toTables.accounts[d]? with
    | none => rfl
    | some r =>
      rw [Option.elim_some, AccountRecord.stats]
      cases hinfo : r.delegateInfo with
      | none => rfl
      | some info =>
        refine absurd ⟨r, hr, ?_, hdb.live.accounts d r hr⟩ hnot
        rw [AccountRecord.isDelegate, hinfo]
        rfl

/-- **Applied to the ledger** a block produces the same, but for a slot of time 0. -/
theorem produces_applied (hdb : db.WellFormed crypto) (hkeyed : o.toTables.Keyed crypto)
    (hkept : db.toTables.KeepsDelegates (o.toTables.above db.toTables))
    (hstored : ∀ d ∈ producer :: missed, db.toTables.HasDelegate d) (hb : b.timestamp ≠ 0)
    (h : db.toTables.Produces crypto db head b producer missed (o.toTables.above db.toTables))
    (now : ℕ) :
    db.toTables.Produces crypto db head b producer missed (db.apply crypto now o).toTables := by
  have hstats := stats_applied hdb hkeyed hkept now
  have hcount : ∀ (d : ℤ) (l : List ℤ), l ⊆ producer :: missed → ¬db.toTables.HasDelegate d →
      l.count d = 0 :=
    fun d l hl hd => List.count_eq_zero.2 fun hmem => hd (hstored d (hl hmem))
  have hcredits : db.toTables.Credits [producer] missed (db.apply crypto now o).toTables := by
    refine ⟨fun d => ?_, fun d => ?_⟩
    · rcases hstats d with heq | ⟨hnone, hold, hd⟩
      · rw [heq, h.credits.produced]
      · rw [hnone, hold, hcount d [producer] (by simp) hd]
    · rcases hstats d with heq | ⟨hnone, hold, hd⟩
      · rw [heq, h.credits.missed]
      · rw [hnone, hold, hcount d missed (List.subset_cons_self _ _) hd]
  refine ⟨hcredits, h.scheduled, ?_, fun s hs => ?_, fun s hne hs => ?_, ?_⟩
  all_goals rw [apply_toTables now db hkeyed]
  · exact Table.settle_of_above (beq_eq_false_iff_ne.2 hb) h.own
  · obtain ⟨d, hd, hslot⟩ := h.empty s hs
    exact ⟨d, hd, Table.settle_of_above
      (beq_eq_false_iff_ne.2 (missedSlots_bounds hs).1.ne') hslot⟩
  · exact getElem?_settle_same hdb.live.slots (h.others s hne hs)
  · obtain ⟨required, hold, hnew⟩ := h.confirmations
    refine ⟨required, hold, ?_⟩
    change (Std.ExtTreeMap.insert _ _ _)[_]? = _
    rw [Table.getElem?_insert_of_ne _ _ (by decide)]
    exact Table.settle_of_above rfl hnew

end Ledger

/-- The index of keys has the delegate of a slot under its active key, if anybody. -/
def Ledger.IndexesSignee (crypto : Crypto) (db : Ledger) (timestamp : ℕ) : Prop :=
  ∀ active expected r, getActiveDelegates ⟨[], db, 0, 0⟩ = .ok active →
    getSlotSignee ⟨[], db, 0, 0⟩ timestamp active = .ok expected →
    getAccountRecordByAddress ⟨[], db, 0, 0⟩ (crypto.keyAddress expected.activeKey) = some r →
      r.id = expected.id

/-- **A block that was accepted** was produced by the delegate of its slot, when the index of keys
has that delegate. -/
theorem Link.produces {crypto : Crypto} (hideal : Function.Injective crypto.conditionAddress)
    {link : Link crypto} (hwell : link.prev.ledger.WellFormed crypto)
    (hcountable : link.prev.ledger.toTables.Countable crypto) (hb : link.block.timestamp ≠ 0)
    (hindexed : link.prev.ledger.IndexesSignee crypto link.block.timestamp) :
    ∃ producer missed, link.prev.ledger.slotDelegate link.block.timestamp = some producer ∧
      link.prev.ledger.toTables.Produces crypto link.prev.ledger link.prev.headBlockHeader
        link.block producer missed link.after.toTables := by
  have hflat : (link.prev.chain link.wall).push.flat = link.prev.ledger.toTables :=
    Tables.empty_above _
  have hkeyed : link.changes.toTables.Keyed crypto := by
    obtain ⟨o, heq, hfits⟩ := evaluateBlock_fits hwell link.evaluated
    cases heq
    exact hfits.keyed
  have hrun := link.evaluated
  simp only [evaluateBlock, bind_eq_ok] at hrun
  obtain ⟨blockSignee, -, _, hheader, hrun⟩ := hrun
  obtain ⟨-, -, -, -, active, expected, hactive, hexpected, rfl⟩ := verifyHeader_eq_ok hheader
  have hbelow : link.prev.ledger.toTables.AccountsBelow := by
    intro last hlast id r hr
    obtain ⟨last', hlast', -, hids⟩ := hcountable.given
    cases hlast.symm.trans hlast'
    exact (hids id r hr).2
  have hregistry : EvaluationState.Registry crypto (link.prev.chain link.wall).push :=
    ⟨List.cons_ne_nil _ _, hflat ▸ hwell.keyed, hflat ▸ hbelow⟩
  obtain ⟨hkept, -⟩ := evaluateBlockChanges_schedule hregistry hrun
  obtain ⟨signee, missed, hsignee, hproduces⟩ :=
    evaluateBlockChanges_produces hideal hregistry (hflat ▸ hcountable) hrun
  rw [hflat] at hkept hproduces
  have hpending : link.prev.ledger.toTables.Produces crypto link.prev.ledger
      link.prev.headBlockHeader link.block signee.id missed
      (link.changes.toTables.above link.prev.ledger.toTables) := hproduces
  have hscheduled : link.prev.ledger.slotDelegate link.block.timestamp = some expected.id :=
    slotDelegate_of_signee (c := link.prev.chain link.wall) hactive hexpected
  have hid : signee.id = expected.id := by
    simp only [getDelegateRecordForSignee, bind_eq_ok, orThrow_eq_ok, require_eq_ok,
      pure_eq_ok] at hsignee
    obtain ⟨r', hfound, -, -, rfl⟩ := hsignee
    exact hindexed active expected r' hactive hexpected hfound
  have hproducer : link.prev.ledger.slotDelegate link.block.timestamp = some signee.id := by
    rw [hscheduled, hid]
  refine ⟨signee.id, missed, hproducer, produces_applied hwell hkeyed hkept (fun d hd => ?_) hb
    hpending _⟩
  rcases List.mem_cons.1 hd with rfl | hd
  · exact slotDelegate_stored hwell hproducer
  · have hmem : some d ∈ (missedSlots link.prev.headBlockHeader link.block).map
        link.prev.ledger.slotDelegate := by
      rw [hpending.scheduled]
      exact List.mem_map_of_mem hd
    obtain ⟨s, -, hs⟩ := List.mem_map.1 hmem
    exact slotDelegate_stored hwell hs

end LarkX
