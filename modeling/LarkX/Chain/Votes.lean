import LarkX.Chain.Headers
import LarkX.Evaluate.Votes

/-!
# The votes of the delegates through the chain

A block moves the votes of a delegate with its pay and with the balances its transactions
change; the market only writes balances without a slate. So a block keeps the votes of every
delegate as far from what they should be as they were (`VotesKept`), its undo state takes them
back with the balances, and at genesis they are exact: in every state of the chain the votes
agree with what they should be up to the wrap of 64 bits.
-/

namespace LarkX

namespace ChainInterface

variable {crypto : Crypto} {c c' : ChainInterface} {head : SignedBlockHeader} {b : FullBlock}

/-! ### Single writes -/

/-- **Step.** One write of a block. -/
theorem based_blockWrite {w : Write} (h : c.flat.Based crypto)
    (hw : BlockWrite crypto head b c w) : (c.flat.write crypto w).Based crypto := by
  cases hw with
  | delegate hold hsame hkeys =>
    exact ⟨h.keyed.write _, h.named, h.base, h.given.account h.keyed hold hsame.id⟩
  | slot hslot => exact ⟨h.keyed.write _, h.named, h.base, h.given⟩
  | confirmation required =>
    exact ⟨h.keyed.write _, h.named, h.base, h.given.property (by decide) _⟩
  | asset hold hsame =>
    exact ⟨h.keyed.write _, h.named, h.base.asset h.keyed hold hsame.id hsame.issuerAccountId,
      h.given⟩
  | market hdirty hlt hw =>
    cases hw with
    | asset hold hsame =>
      exact ⟨h.keyed.write _, h.named, h.base.asset h.keyed hold hsame.id hsame.issuerAccountId,
        h.given⟩
    | dirtyMarkets => exact ⟨h.keyed.write _, h.named, h.base, h.given.property (by decide) _⟩
    | _ => exact ⟨h.keyed.write _, h.named, h.base, h.given⟩
  | evaluation htrx hw => exact EvaluationState.based_write h hw
  | transaction htrx => exact ⟨h.keyed.write _, h.named, h.base, h.given⟩
  | activeDelegates ids =>
    exact ⟨h.keyed.write _, h.named, h.base, h.given.property (by decide) _⟩
  | randomSeed seed => exact ⟨h.keyed.write _, h.named, h.base, h.given.property (by decide) _⟩

/-- The account that is written was there, or has an id after the last one. -/
private theorem grown_account {t t' : Tables} {r : AccountRecord} {last : ℤ}
    (haccounts : t'.accounts = t.accounts.insert r.id r)
    (hid : t.accounts[r.id]? ≠ none ∨ last < r.id) :
    ∀ d ≤ last, t.accounts[d]? = none → t'.accounts[d]? = none := by
  intro d hd hnone
  rw [haccounts, Table.getElem?_insert]
  split
  · rename_i hmine
    subst hmine
    rcases hid with hid | hid
    · exact absurd hnone hid
    · omega
  · exact hnone

/-- **Step.** One write of a block leaves the ids that have no account. -/
theorem grown_blockWrite {w : Write} (h : c.flat.Based crypto) {last : ℤ}
    (hlast : c.flat.properties[ChainProperty.lastAccountId]? = some (.int last))
    (hw : BlockWrite crypto head b c w) : Tables.Grown last c.flat (c.flat.write crypto w) := by
  have hstored {id : ℤ} {old r : AccountRecord} (hold : c.flat.accounts[id]? = some old)
      (hid : r.id = old.id) : c.flat.accounts[r.id]? ≠ none := by
    rw [hid, h.keyed.accounts id old hold, hold]
    exact Option.some_ne_none _
  have hproperty {p : ChainProperty} (hp : p ≠ .lastAccountId) (v : Variant) :
      Tables.Grown last c.flat (c.flat.write crypto (.property p v)) := by
    refine ⟨⟨last, ?_, le_rfl⟩, fun d hd hnone => hnone⟩
    change (c.flat.properties.insert p v)[ChainProperty.lastAccountId]? = _
    rw [Table.getElem?_insert_of_ne _ _ hp.symm]
    exact hlast
  have hsame : ∃ last' : ℤ, c.flat.properties[ChainProperty.lastAccountId]? =
      some (.int last') ∧ last ≤ last' := ⟨last, hlast, le_rfl⟩
  cases hw with
  | delegate hold hid hkeys => exact ⟨hsame, grown_account rfl (Or.inl (hstored hold hid.id))⟩
  | slot hslot => exact ⟨hsame, fun d hd hnone => hnone⟩
  | confirmation required => exact hproperty (by decide) _
  | asset hold hid => exact ⟨hsame, fun d hd hnone => hnone⟩
  | market hdirty hlt hw =>
    cases hw with
    | dirtyMarkets => exact hproperty (by decide) _
    | _ => exact ⟨hsame, fun d hd hnone => hnone⟩
  | evaluation htrx hw =>
    cases hw with
    | account hold hid hkeys => exact ⟨hsame, grown_account rfl (Or.inl (hstored hold hid.id))⟩
    | @newAccount last' r hop hlast' hid hname =>
      have heq := hlast.symm.trans (lastAccountId_eq_ok.1 hlast')
      cases heq
      exact ⟨⟨r.id, Table.getElem?_insert_same _ _ _, by omega⟩,
        grown_account rfl (Or.inr (by omega))⟩
    | _ => exact ⟨hsame, fun d hd hnone => hnone⟩
  | transaction htrx => exact ⟨hsame, fun d hd hnone => hnone⟩
  | activeDelegates ids => exact hproperty (by decide) _
  | randomSeed seed => exact hproperty (by decide) _

/-- **Run.** The writes of a block. -/
theorem grown_blockWrites (hp : c.IsPending) (h : c.flat.Based crypto) {last : ℤ}
    (hlast : c.flat.properties[ChainProperty.lastAccountId]? = some (.int last))
    (hw : BlockWrites crypto head b c c') :
    c'.flat.Based crypto ∧ Tables.Grown last c.flat c'.flat := by
  refine hw.invariant (I := fun c' => c'.flat.Based crypto ∧ Tables.Grown last c.flat c'.flat)
    (fun c₁ w hp₁ hc₁ hw₁ => ?_) hp ⟨h, ⟨last, hlast, le_rfl⟩, fun d hd hnone => hnone⟩
  obtain ⟨hbased, ⟨last₁, hlast₁, hle⟩, hlost⟩ := hc₁
  rw [flat_write hp₁]
  obtain ⟨⟨last₂, hlast₂, hle₂⟩, hlost₂⟩ := grown_blockWrite hbased hlast₁ hw₁
  exact ⟨based_blockWrite hbased hw₁, ⟨last₂, hlast₂, hle.trans hle₂⟩,
    fun d hd hnone => hlost₂ d (hd.trans hle) (hlost d hd hnone)⟩

/-! ### The parts of a block -/

/-- What a part of a block does to the votes. -/
structure Counts (crypto : Crypto) (c c' : ChainInterface) : Prop where
  pending : c'.IsPending
  countable : c'.flat.Countable crypto
  kept : c.flat.VotesKept c'.flat

theorem Counts.trans {c₁ c₂ c₃ : ChainInterface} (h : Counts crypto c₁ c₂)
    (h' : Counts crypto c₂ c₃) : Counts crypto c₁ c₃ :=
  ⟨h'.pending, h'.countable, h.kept.trans h'.kept⟩

theorem Counts.refl (hp : c.IsPending) (hc : c.flat.Countable crypto) : Counts crypto c c :=
  ⟨hp, hc, .refl _⟩

/-- A part of a block is known by its writes, its slates and its votes. -/
theorem counts_writes (hp : c.IsPending) (hc : c.flat.Countable crypto)
    (hw : BlockWrites crypto head b c c') (hknown : c'.flat.SlatesKnown)
    (hkept : c.flat.VotesKept c'.flat) : Counts crypto c c' := by
  obtain ⟨last, hlast, -⟩ := hc.given
  exact ⟨hw.isPending hp, ⟨(grown_blockWrites hp hc.toBased hlast hw).1, hknown⟩, hkept⟩

/-- A single write aside from the votes. -/
theorem counts_aside (head : SignedBlockHeader) (b : FullBlock) (hp : c.IsPending)
    (hc : c.flat.Countable crypto) {w : Write} (hw : BlockWrite crypto head b c w) (haside : w.ofVotes = false) :
    Counts crypto c (c.write crypto w) := by
  have hsame : c.flat.SameVotes (c.write crypto w).flat :=
    flat_write hp w ▸ Tables.sameVotes_write haside
  exact counts_writes hp hc (.single hw) (hsame.known hc.known) hsame.votesKept

/-- The statistics of a delegate are written, with votes that follow its pay. -/
theorem counts_delegate (head : SignedBlockHeader) (b : FullBlock) (hp : c.IsPending)
    (hc : c.flat.Countable crypto) {id : ℤ} {r : AccountRecord} {info : DelegateStats}
    (info' : DelegateStats) (hr : c.getDelegate id = .ok (r, info))
    (hgap : (info'.votesFor - info'.payBalance : Word) = info.votesFor - info.payBalance)
    (hrange : IsInt64 info.votesFor → IsInt64 info'.votesFor) :
    Counts crypto c (c.storeAccountRecord crypto { r with delegateInfo := some info' }) := by
  obtain ⟨hold, hinfo⟩ := getDelegate_eq_ok hr
  have hstats : r.stats = info := by rw [AccountRecord.stats, hinfo, Option.getD_some]
  rw [storeAccountRecord_eq hp]
  have hwrite : BlockWrite crypto head b c (.account { r with delegateInfo := some info' }) :=
    .delegate hold ⟨rfl, rfl, rfl⟩ rfl
  refine counts_writes hp hc (.single hwrite) ?_ ?_
  · rw [flat_write hp]
    exact hc.known
  · rw [flat_write hp]
    exact Tables.votesKept_account hc.keyed hold rfl (hstats ▸ hgap) (hstats ▸ hrange)

theorem updateProducer_counts (hp : c.IsPending) (hc : c.flat.Countable crypto)
    {blockSignee : PublicKey} (h : c.updateProducer crypto b blockSignee = .ok c') :
    Counts crypto c c' := by
  simp only [updateProducer, bind_eq_ok, pure_eq_ok] at h
  obtain ⟨signee, -, ⟨r, info⟩, hr, _, -, rfl⟩ := h
  have hfirst := counts_delegate {} b hp hc { info with
    blocksProduced := info.blocksProduced + 1
    nextSecretHash := b.nextSecretHash
    lastBlockNumProduced := b.blockNum } hr rfl id
  rw [storeSlotRecord_eq crypto hfirst.pending]
  exact hfirst.trans (counts_aside {} b hfirst.pending hfirst.countable
    (.slot (Or.inl rfl)) rfl)

theorem updateMissedSlot_counts (hp : c.IsPending) (hc : c.flat.Countable crypto)
    {active : List ℤ} {timestamp : ℕ} (ht : timestamp ∈ missedSlots head b)
    (h : c.updateMissedSlot crypto active timestamp = .ok c') : Counts crypto c c' := by
  simp only [updateMissedSlot, bind_eq_ok, pure_eq_ok] at h
  obtain ⟨signee, -, ⟨r, info⟩, hr, rfl⟩ := h
  have hfirst := counts_delegate head b hp hc { info with
    blocksMissed := info.blocksMissed + 1 } hr rfl id
  rw [storeSlotRecord_eq crypto hfirst.pending]
  exact hfirst.trans (counts_aside head b hfirst.pending hfirst.countable
    (.slot (Or.inr ht)) rfl)

theorem updateDelegateProductionInfo_counts (hp : c.IsPending) (hc : c.flat.Countable crypto)
    {blockSignee : PublicKey}
    (h : c.updateDelegateProductionInfo crypto head b blockSignee = .ok c') :
    Counts crypto c c' := by
  simp only [updateDelegateProductionInfo, bind_eq_ok, pure_eq_ok] at h
  obtain ⟨c₁, hproducer, _, -, required, -, active, -, c₂, hmissed, rfl⟩ := h
  have h₁ := updateProducer_counts hp hc hproducer
  have h₂ : Counts crypto c c₂ := foldlM_induction (P := fun c₂ => Counts crypto c c₂)
    (fun _ _ _ ht hc₁ hc₂ => hc₁.trans (updateMissedSlot_counts hc₁.pending hc₁.countable ht hc₂))
    h₁ hmissed
  rw [setProperty_eq crypto h₂.pending]
  exact h₂.trans (counts_aside head b h₂.pending h₂.countable
    (.confirmation _) rfl)

/-- The pay of a delegate is a vote for itself. -/
theorem payDelegate_counts (b : FullBlock) (hp : c.IsPending) (hc : c.flat.Countable crypto)
    {blockSignee : PublicKey} (h : c.payDelegate crypto blockSignee = .ok c') :
    Counts crypto c c' := by
  simp only [payDelegate, bind_eq_ok, orThrow_eq_ok, pure_eq_ok] at h
  obtain ⟨signee, -, ⟨r, info⟩, hr, _, -, maxAvailable, -, base, hbase, base', hbase', rfl⟩ := h
  rw [getAssetRecord_eq] at hbase
  rw [storeAssetRecord_eq crypto hp] at hbase' ⊢
  have h₁ := counts_aside {} b hp hc (w := .asset { base with
    collectedFees := wrap64 (base.collectedFees - maxAvailable) })
    (.asset hbase ⟨rfl, rfl, rfl, rfl⟩) rfl
  have hr₁ : (c.write crypto (.asset { base with
      collectedFees := wrap64 (base.collectedFees - maxAvailable) })).getDelegate signee.id =
        .ok (r, info) := by
    rw [getDelegate_write hp rfl]
    exact hr
  have h₂ := h₁.trans (counts_delegate {} b h₁.pending h₁.countable { info with
    payBalance := wrap64 (info.payBalance + (info.payRate * maxAvailable).tdiv 100)
    votesFor := wrap64 (info.votesFor + (info.payRate * maxAvailable).tdiv 100) } hr₁
    (by
      dsimp only
      rw [wrap64_cast, wrap64_cast]
      push_cast
      ring) fun _ => isInt64_wrap64 _)
  rw [getAssetRecord_eq] at hbase'
  rw [storeAssetRecord_eq crypto h₂.pending]
  exact h₂.trans (counts_aside {} b h₂.pending h₂.countable
    (.asset hbase' ⟨rfl, rfl, rfl, rfl⟩) rfl)

/-- **Step.** The market writes balances without a slate. -/
theorem marketWrite_votes (hideal : Function.Injective crypto.conditionAddress)
    (hkeyed : c.flat.Keyed crypto) (hknown : c.flat.SlatesKnown) {pair : AssetPair} {w : Write}
    (hw : MarketEngine.MarketWrite crypto pair c w) :
    c.flat.VotesKept (c.flat.write crypto w) ∧ (c.flat.write crypto w).SlatesKnown := by
  cases hw with
  | balance r hplain =>
    obtain ⟨owner, assetId, hcondition⟩ := hplain
    have hslate : r.condition.delegateSlateId = 0 := by
      rw [hideal hcondition]
      rfl
    exact ⟨Tables.votesKept_plain hkeyed hideal hslate,
      hknown.balance fun hvoting => absurd hslate hvoting.2⟩
  | _ =>
    exact ⟨Tables.SameVotes.votesKept (Tables.sameVotes_write rfl),
      Tables.SameVotes.known (Tables.sameVotes_write rfl) hknown⟩

theorem executeMarkets_counts (b : FullBlock)
    (hideal : Function.Injective crypto.conditionAddress) (hp : c.IsPending)
    (hc : c.flat.Countable crypto) (h : executeMarkets crypto c = .ok c') : Counts crypto c c' := by
  have hvotes := (executeMarkets_writes hp hc.keyed h).invariant
    (I := fun c' => c'.flat.Keyed crypto ∧ c.flat.VotesKept c'.flat ∧ c'.flat.SlatesKnown)
    (fun c₁ w hp₁ ⟨hkeyed, hkept, hknown⟩ ⟨pair, _, _, hw⟩ => by
      obtain ⟨hkept₁, hknown₁⟩ := marketWrite_votes hideal hkeyed hknown hw
      rw [flat_write hp₁]
      exact ⟨hkeyed.write w, hkept.trans hkept₁, hknown₁⟩) hp ⟨hc.keyed, .refl _, hc.known⟩
  have hwrites : BlockWrites crypto {} b c c' := executeMarkets_blockWrites hp hc.keyed h
  exact counts_writes hp hc hwrites hvotes.2.2 hvotes.2.1

theorem applyTransaction_counts (hideal : Function.Injective crypto.conditionAddress)
    (hp : c.IsPending) (hc : c.flat.Countable crypto) {skip : Bool} {trx : SignedTransaction}
    {n : ℕ} (htrx : b.userTransactions[n]? = some trx)
    (h : c.applyTransaction crypto skip b.blockNum (trx, n) = .ok c') : Counts crypto c c' := by
  simp only [applyTransaction, bind_eq_ok] at h
  obtain ⟨s, heval, hstore⟩ := h
  obtain ⟨hcountable, hkept, -⟩ := EvaluationState.evaluate_votesKept hideal hp hc heval
  have hpending := (EvaluationState.evaluate_writes hp heval).isPending hp
  obtain ⟨chainId, -, rfl⟩ := storeTransaction_eq_ok hpending hstore
  have hfirst : Counts crypto c s.currentState := ⟨hpending, hcountable, hkept⟩
  rw [(EvaluationState.evaluate_request heval).1]
  exact hfirst.trans (counts_aside {} b hpending hcountable
    (.transaction htrx) rfl)

theorem applyTransactionsOf_counts (hideal : Function.Injective crypto.conditionAddress)
    (hp : c.IsPending) (hc : c.flat.Countable crypto) {skip : Bool}
    (h : c.applyTransactionsOf crypto skip b = .ok c') : Counts crypto c c' := by
  refine foldlM_induction (P := fun c' => Counts crypto c c') (fun c₁ e c₂ he hc₁ h => ?_)
    (.refl hp hc) h
  obtain ⟨trx, n⟩ := e
  exact hc₁.trans (applyTransaction_counts hideal hc₁.pending hc₁.countable
    (List.mem_zipIdx_iff_getElem?.1 he) h)

theorem updateActiveDelegateList_counts (hp : c.IsPending) (hc : c.flat.Countable crypto)
    (h : c.updateActiveDelegateList crypto b = .ok c') : Counts crypto c c' := by
  simp only [updateActiveDelegateList, ite_eq_ok, bind_eq_ok, pure_eq_ok] at h
  obtain ⟨-, seed, -, rfl⟩ | ⟨-, rfl⟩ := h
  · rw [setActiveDelegates, setProperty_eq crypto hp]
    exact counts_aside {} b hp hc (.activeDelegates _) rfl
  · exact .refl hp hc

theorem updateRandomSeed_counts (b : FullBlock) (hp : c.IsPending) (hc : c.flat.Countable crypto)
    {secret : SecretHash} (h : c.updateRandomSeed crypto secret = .ok c') :
    Counts crypto c c' := by
  simp only [updateRandomSeed, bind_eq_ok, pure_eq_ok] at h
  obtain ⟨seed, -, rfl⟩ := h
  rw [setProperty_eq crypto hp]
  exact counts_aside {} b hp hc (.randomSeed _) rfl

/-- **A block keeps the votes of every delegate as far from what they should be as they
were.** -/
theorem evaluateBlockChanges_counts (hideal : Function.Injective crypto.conditionAddress)
    (hp : c.IsPending) (hc : c.flat.Countable crypto) {skip : Bool} {blockSignee : PublicKey}
    (h : c.evaluateBlockChanges crypto head skip b blockSignee = .ok c') : Counts crypto c c' := by
  simp only [evaluateBlockChanges, bind_eq_ok] at h
  obtain ⟨c₁, hproduction, c₂, hpay, c₃, hmarkets, c₄, htransactions, c₅, hactive, hseed⟩ := h
  have h₁ := updateDelegateProductionInfo_counts hp hc hproduction
  have h₂ := h₁.trans (payDelegate_counts b h₁.pending h₁.countable hpay)
  have h₃ := h₂.trans (executeMarkets_counts b hideal h₂.pending h₂.countable hmarkets)
  have h₄ := h₃.trans (applyTransactionsOf_counts hideal h₃.pending h₃.countable htransactions)
  have h₅ := h₄.trans (updateActiveDelegateList_counts h₄.pending h₄.countable hactive)
  exact h₅.trans (updateRandomSeed_counts b h₅.pending h₅.countable hseed)

end ChainInterface

/-! ### Ledgers -/

theorem Tables.empty_above (t : Tables) : Tables.above {} t = t := by
  simp only [Tables.above, Table.empty_above]

namespace Ledger

open ChainInterface

variable {crypto : Crypto} {db db' : Ledger}

/-- What is left of the layers of a block when it is applied. -/
theorem remains_apply (now : ℕ) (db : Ledger) {o : Overlay} (hkeyed : o.toTables.Keyed crypto)
    (hgiven : (o.toTables.above db.toTables).IdsGiven) :
    (o.toTables.above db.toTables).Remains (db.apply crypto now o).toTables := by
  rw [apply_toTables now db hkeyed]
  refine ⟨fun _ _ => Table.above_of_settle, fun _ _ => Table.above_of_settle, fun _ => rfl,
    fun _ _ => Table.above_of_settle, fun _ slate hne => Table.settle_of_above ?_, ?_⟩
  · exact List.isEmpty_eq_false_iff.2 hne
  · obtain ⟨last, hlast, -⟩ := hgiven
    rw [hlast]
    change (Std.ExtTreeMap.insert _ _ _)[_]? = _
    rw [Table.getElem?_insert_of_ne _ _ (by decide)]
    exact Table.settle_of_above rfl hlast

/-- Ledgers that agree have the same votes. -/
theorem Agrees.remains (h : Agrees db db') : db.toTables.Remains db'.toTables where
  accounts id r hr := h.accounts ▸ hr
  assets id r hr := h.assets ▸ hr
  balances := h.balances
  slates id slate hslate := h.slates ▸ hslate
  slatesKept id slate _ hslate := h.slates ▸ hslate
  last := h.properties _ (by decide)

/-- **A block keeps the votes exact.** -/
theorem polled_block (hideal : Function.Injective crypto.conditionAddress)
    (hdb : db.WellFormed crypto) (hpolled : db.toTables.Polled crypto) {now n wall : ℕ}
    {head : SignedBlockHeader} {headId : BlockId} {skip : Bool} {b : FullBlock} {o : Overlay}
    (h : evaluateBlock crypto ⟨[], db, now, n⟩ head headId skip wall b = .ok ⟨[o], db, now, n⟩)
    (now' : ℕ) : (db.apply crypto now' o).toTables.Polled crypto := by
  have heval := h
  simp only [evaluateBlock, bind_eq_ok] at h
  obtain ⟨blockSignee, -, -, -, h⟩ := h
  have hp : (push ⟨[], db, now, n⟩).IsPending := List.cons_ne_nil _ _
  have hflat : (push ⟨[], db, now, n⟩).flat = db.toTables := Tables.empty_above _
  have hbase : (push ⟨[], db, now, n⟩).flat.Polled crypto := hflat ▸ hpolled
  have hcounts := evaluateBlockChanges_counts hideal hp hbase.toCountable h
  have hw := evaluateBlockChanges_writes hp hbase.keyed h
  have hafter : (o.toTables.above db.toTables).Polled crypto :=
    hbase.advance hcounts.countable hcounts.kept fun last hlast =>
      (grown_blockWrites hp hbase.toBased hlast hw).2
  obtain ⟨o', heq, hfits⟩ := evaluateBlock_fits hdb heval
  cases heq
  exact hafter.remains (hdb.apply now' hfits).keyed (remains_apply now' db hfits.keyed hafter.given)

end Ledger

/-! ### Genesis -/

/-- Hashes as the accounting of votes needs them: two conditions, or two external addresses,
never have one address, and a slate with a delegate never has the null id. -/
structure Crypto.IdealAddresses (crypto : Crypto) : Prop where
  condition : Function.Injective crypto.conditionAddress
  pts : Function.Injective crypto.ptsToAddress
  slate : ∀ slate, slate ≠ [] → crypto.slateHash slate ≠ 0

namespace Genesis

variable {crypto : Crypto} {config : GenesisBlockConfig}

/-- The votes of a delegate that is not stored yet. -/
def votesOf (delegates : Table ℤ AccountRecord) (d : ℤ) : ℤ :=
  (delegates[d]?).elim 0 fun r => r.stats.votesFor

/-- A delegate that is not stored yet. -/
structure Candidate (last id : ℤ) (r : AccountRecord) : Prop where
  own : r.id = id
  nonneg : 0 ≤ id
  le : id ≤ last
  payBalance : r.stats.payBalance = 0
  range : IsInt64 r.stats.votesFor
  idle : r.stats.blocksProduced = 0 ∧ r.stats.blocksMissed = 0

/-- The votes of a slate go to the delegates it names. -/
theorem addVotes_votes {last : ℤ} {slate : List ℤ} {amount : ℤ}
    {delegates delegates' : Table ℤ AccountRecord}
    (hids : ∀ (id : ℤ) r, delegates[id]? = some r → Candidate last id r)
    (h : addVotes slate amount delegates = .ok delegates') :
    (∀ (id : ℤ) r, delegates'[id]? = some r → Candidate last id r) ∧
      ∀ d, 0 ≤ d →
        (votesOf delegates' d : Word) = votesOf delegates d + amount * namings d slate := by
  induction slate generalizing delegates with
  | nil =>
    cases h
    refine ⟨hids, fun d _ => ?_⟩
    rw [namings, List.countP_nil, Nat.cast_zero, mul_zero, add_zero]
  | cons id slate ih =>
    rw [addVotes, List.foldlM_cons, bind_eq_ok] at h
    obtain ⟨delegates₁, hstep, h⟩ := h
    simp only [bind_eq_ok, AccountRecord.adjustVotesFor, orThrow_eq_ok, pure_eq_ok] at hstep
    obtain ⟨r', ⟨info, hinfo, rfl⟩, rfl⟩ := hstep
    -- only a delegate has votes to adjust
    obtain ⟨r, hr⟩ : ∃ r, delegates[id]? = some r := by
      cases hget : delegates[id]? with
      | none =>
        rw [hget] at hinfo
        cases hinfo
      | some r => exact ⟨r, rfl⟩
    rw [hr, Option.getD_some] at hinfo h
    have hcandidate := hids id r hr
    have hstats : r.stats = info := by rw [AccountRecord.stats, hinfo, Option.getD_some]
    have hids₁ (id' : ℤ) (r' : AccountRecord) (hr' : (delegates.insert id { r with
        delegateInfo := some { info with votesFor := wrap64 (info.votesFor + amount) } })[id']? =
          some r') : Candidate last id' r' := by
      rw [Table.getElem?_insert] at hr'
      split at hr'
      · rename_i hmine
        cases hr'
        rw [hmine]
        exact ⟨hcandidate.own, hcandidate.nonneg, hcandidate.le, hstats ▸ hcandidate.payBalance,
          isInt64_wrap64 _, hstats ▸ hcandidate.idle⟩
      · exact hids id' r' hr'
    obtain ⟨hids', hvotes⟩ := ih hids₁ h
    refine ⟨hids', fun d hd => ?_⟩
    rw [hvotes d hd, namings, namings, List.countP_cons]
    have hvotesOf : (votesOf (delegates.insert id { r with
        delegateInfo := some { info with votesFor := wrap64 (info.votesFor + amount) } }) d : Word) =
          votesOf delegates d + if d = id then (amount : Word) else 0 := by
      rw [votesOf, votesOf, Table.getElem?_insert]
      split
      · rename_i hmine
        rw [hmine, hr, Option.elim_some, Option.elim_some, hstats]
        change ((wrap64 (info.votesFor + amount) : ℤ) : Word) = _
        rw [wrap64_cast, Int.cast_add]
      · rw [add_zero]
    rw [hvotesOf]
    have hnonneg := hcandidate.nonneg
    have hnames : d = id ↔ id = d ∨ id = -d := by omega
    by_cases hmine : d = id
    · rw [if_pos hmine, if_pos (by simpa using hnames.1 hmine)]
      push_cast
      ring
    · rw [if_neg hmine, if_neg (by simpa using fun hn => hmine (hnames.2 hn))]
      push_cast
      ring

/-- What the loop over the balances keeps. -/
structure Counted (crypto : Crypto) (last : ℤ) (s : BalanceState) : Prop where
  keyed : s.ledger.toTables.Keyed crypto
  named : s.ledger.toTables.SlatesNamed crypto
  known : s.ledger.toTables.SlatesKnown
  accounts : ∀ (id : ℤ) r, s.ledger.accounts[id]? = some r →
    0 ≤ id ∧ id ≤ last ∧ r.delegateInfo = none
  delegates : ∀ (id : ℤ) r, s.delegates[id]? = some r → Candidate last id r
  votes : ∀ d, 0 ≤ d → (votesOf s.delegates d : Word) = s.ledger.toTables.votesCast d
  /-- The records that are looked up are the ones that are stored. -/
  found : ∀ addr cur, s.balanceByAddress.lookup addr = some cur →
    (∃ slate, cur.condition = .ofSignature (crypto.ptsToAddress addr) 0 slate) ∧
      s.ledger.balances[crypto.conditionAddress cur.condition]? = some cur
  /-- And every stored record can be looked up. -/
  owned : ∀ (id : BalanceId) r, s.ledger.balances[id]? = some r →
    ∃ addr, (∃ slate, r.condition = .ofSignature (crypto.ptsToAddress addr) 0 slate) ∧
      s.balanceByAddress.lookup addr ≠ none

/-- A new slate is under an id no balance votes by. -/
theorem Counted.storeSlate {last : ℤ} {s : BalanceState}
    (h : Counted crypto last s) (slate : List ℤ) (n : ℕ) :
    Counted crypto last { s with
      ledger := (Genesis.storeSlate crypto s.ledger slate).1
      slatesDrawn := n } := by
  rw [Genesis.storeSlate]
  split
  · exact { h with }
  · rename_i hnew
    have hne : slate ≠ [] := fun hnil => hnew (Or.inl hnil)
    have hnone : s.ledger.slates[crypto.slateId slate]? = none := by
      have hcontains : s.ledger.slates.contains (crypto.slateId slate) = false :=
        Bool.eq_false_iff.2 fun hc => hnew (Or.inr hc)
      exact Std.ExtTreeMap.getElem?_eq_none_of_contains_eq_false hcontains
    have htables : (s.ledger.storeDelegateSlate (crypto.slateId slate) slate).toTables =
        s.ledger.toTables.write crypto (.slate (crypto.slateId slate) slate) := by
      have hempty : slate.isEmpty = false := List.isEmpty_eq_false_iff.2 hne
      rw [Ledger.storeDelegateSlate, Table.put, hempty]
      rfl
    exact {
      keyed := htables ▸ h.keyed.write _
      named := htables ▸ h.named.slate rfl
      known := htables ▸ h.known.slate _ _
      accounts := h.accounts
      delegates := h.delegates
      votes := fun d hd => by
        rw [htables, Tables.votesCast_slate h.known hnone]
        exact h.votes d hd
      found := h.found
      owned := h.owned }

/-- The record of a balance adds the shares to what was stored under its condition. -/
theorem balanceRecord_eq (config : GenesisBlockConfig) (hideal : crypto.IdealAddresses) {last : ℤ}
    {s : BalanceState} (hs : Counted crypto last s) (chainId : Digest) (ids : List ℤ) (addr : PtsAddress)
    (shares : ℕ) :
    ∃ (s₁ : BalanceState) (cur old : BalanceRecord),
      balanceRecord crypto config s chainId ids addr shares = (s₁, cur) ∧
      Counted crypto last s₁ ∧
      (∃ slate, cur.condition = .ofSignature (crypto.ptsToAddress addr) 0 slate) ∧
      (s₁.ledger.balances[crypto.conditionAddress cur.condition]? = some old ∨
        s₁.ledger.balances[crypto.conditionAddress cur.condition]? = none ∧ old.balance = 0) ∧
      old.condition = cur.condition ∧ (cur.balance : Word) = old.balance + wrap64 shares := by
  rw [balanceRecord]
  split
  · rename_i cur hcur
    obtain ⟨hcondition, hstored⟩ := hs.found addr cur hcur
    refine ⟨s, _, cur, rfl, hs, hcondition, Or.inl hstored, rfl, ?_⟩
    change ((wrap64 (cur.balance + shares) : ℤ) : Word) = _
    rw [wrap64_cast, wrap64_cast, Int.cast_add]
  · rename_i hnone
    have hs₁ := hs.storeSlate (crypto.randomSlate chainId ids s.slatesDrawn)
      (s.slatesDrawn + 1)
    refine ⟨_, _, .ofOwner (crypto.ptsToAddress addr) ⟨0, 0⟩ (storeSlate crypto s.ledger
        (crypto.randomSlate chainId ids s.slatesDrawn)).2,
      rfl, hs₁, ⟨_, rfl⟩, Or.inr ⟨?_, rfl⟩, rfl, ?_⟩
    · -- a record there would belong to an address that has been looked up before
      refine Option.eq_none_iff_forall_not_mem.2 fun r hr => ?_
      obtain ⟨addr', ⟨slate', hr'⟩, hlookup⟩ := hs₁.owned _ r hr
      have hkey := hideal.condition (hs₁.keyed.balances _ r hr)
      have haddr : crypto.ptsToAddress addr' = crypto.ptsToAddress addr := by
        rw [hr'] at hkey
        exact (WithdrawData.withSignature.inj (congrArg WithdrawCondition.data hkey)).1
      rw [hideal.pts haddr] at hlookup
      exact hlookup hnone
    · change ((wrap64 shares : ℤ) : Word) = ((0 : ℤ) : Word) + wrap64 shares
      rw [Int.cast_zero, zero_add]

/-- **Step.** One balance of the configuration. -/
theorem addBalance_counted (hideal : crypto.IdealAddresses) {last : ℤ} {chainId : Digest}
    {ids : List ℤ} {total : ℕ} {s s' : BalanceState} {item : PtsAddress × ℕ}
    (hs : Counted crypto last s) (h : addBalance crypto config chainId ids total s item = .ok s') :
    Counted crypto last s' := by
  simp only [addBalance, bind_eq_ok, orThrow_eq_ok, pure_eq_ok] at h
  obtain ⟨shares, -, slate, hslate, delegates, hvotes, rfl⟩ := h
  obtain ⟨s₁, cur, old, hrecord, hs₁, ⟨sid, hcondition⟩, hold, holdCondition, hbalance⟩ :=
    balanceRecord_eq config hideal hs chainId ids item.1 shares
  rw [hrecord] at hslate hvotes ⊢
  dsimp only at hslate hvotes ⊢
  obtain ⟨hdelegates, hmoved⟩ := addVotes_votes hs₁.delegates hvotes
  set cur' : BalanceRecord := { cur with
    genesisInfo := some ⟨⟨cur.balance, cur.assetId⟩, crypto.ptsToString item.1⟩ } with hcur'
  have hbase : cur'.assetId = 0 := by
    change cur.condition.assetId = 0
    rw [hcondition]
    rfl
  have hkey : crypto.conditionAddress cur'.condition = crypto.conditionAddress cur.condition := rfl
  have htables : (s₁.ledger.storeBalanceRecord crypto cur').toTables =
      s₁.ledger.toTables.write crypto (.balance cur') := rfl
  exact {
    keyed := htables ▸ hs₁.keyed.write _
    named := htables ▸ hs₁.named
    known := by
      rw [htables]
      refine hs₁.known.balance fun _ _ => ?_
      change s₁.ledger.slates[cur.condition.delegateSlateId]? ≠ none
      rw [hslate]
      exact Option.some_ne_none _
    accounts := hs₁.accounts
    delegates := hdelegates
    votes := by
      intro d hd
      have hbefore : (s₁.ledger.balances[crypto.conditionAddress cur'.condition]?).elim 0
          (·.votes s₁.ledger.slates d) = old.votes s₁.ledger.slates d := by
        rw [hkey]
        rcases hold with hold | ⟨hold, hzero⟩
        · rw [hold, Option.elim_some]
        · rw [hold, Option.elim_none, BalanceRecord.votes_zero hzero]
      have hmove : (cur'.votes s₁.ledger.slates d - old.votes s₁.ledger.slates d : Word) =
          wrap64 shares * namings d slate := by
        by_cases hvoting : cur.condition.delegateSlateId = 0
        · -- only the empty slate has the null id
          have hempty : slate = [] := by
            by_contra hne
            have hid := hs₁.named _ slate hslate
            rw [hvoting, Crypto.slateId, if_neg hne] at hid
            exact hideal.slate slate hne hid
          have hnot : ¬cur'.Voting := fun hv => hv.2 hvoting
          have hnotOld : ¬old.Voting := fun hv => hv.2 (by rw [holdCondition]; exact hvoting)
          rw [BalanceRecord.votes_of_not_voting hnot, BalanceRecord.votes_of_not_voting hnotOld,
            hempty, namings, List.countP_nil, Nat.cast_zero, mul_zero, Int.cast_zero, sub_zero]
        · have hv : cur'.Voting := ⟨hbase, hvoting⟩
          have hvOld : old.Voting := by
            rw [BalanceRecord.Voting, BalanceRecord.assetId, holdCondition]
            exact hv
          have hslateOld : s₁.ledger.slates[old.condition.delegateSlateId]? = some slate := by
            rw [holdCondition]
            exact hslate
          have hslate' : s₁.ledger.slates[cur'.condition.delegateSlateId]? = some slate := hslate
          rw [BalanceRecord.votes, BalanceRecord.votes, if_pos hv, if_pos hvOld, hslateOld, hslate',
            Option.getD_some]
          change ((cur.balance * namings d slate : ℤ) - (old.balance * namings d slate : ℤ) : Word) =
            _
          push_cast
          rw [hbalance]
          ring
      rw [htables, Tables.votesCast_balance, hmoved d hd, hs₁.votes d hd]
      change _ = ((s₁.ledger.toTables.votesCast d + (cur'.votes s₁.ledger.slates d -
        (s₁.ledger.balances[crypto.conditionAddress cur'.condition]?).elim 0
          (·.votes s₁.ledger.slates d)) : ℤ) : Word)
      rw [hbefore, ← hmove]
      push_cast
      ring
    found := by
      intro addr cur₂ hcur₂
      change _ ∧ (s₁.ledger.balances.insert (crypto.conditionAddress cur'.condition) cur')[
        crypto.conditionAddress cur₂.condition]? = some cur₂
      rw [List.lookup_cons] at hcur₂
      split at hcur₂
      · rename_i haddr
        cases hcur₂
        rw [beq_iff_eq] at haddr
        exact ⟨⟨sid, haddr ▸ hcondition⟩, Table.getElem?_insert_same _ _ _⟩
      · rename_i haddr
        obtain ⟨⟨slate₂, hcondition₂⟩, hstored₂⟩ := hs₁.found addr cur₂ hcur₂
        refine ⟨⟨slate₂, hcondition₂⟩, ?_⟩
        rw [Table.getElem?_insert_of_ne]
        · exact hstored₂
        · -- another address has another condition
          intro hsame
          have hconditions := hideal.condition hsame
          change cur₂.condition = cur.condition at hconditions
          rw [hcondition₂, hcondition] at hconditions
          have howner := hideal.pts
            (WithdrawData.withSignature.inj (congrArg WithdrawCondition.data hconditions)).1
          rw [howner, beq_self_eq_true] at haddr
          cases haddr
    owned := by
      intro id r hr
      change (s₁.ledger.balances.insert _ cur')[id]? = some r at hr
      rw [Table.getElem?_insert] at hr
      split at hr
      · cases hr
        refine ⟨item.1, ⟨sid, hcondition⟩, ?_⟩
        rw [List.lookup_cons, beq_self_eq_true]
        exact Option.some_ne_none _
      · obtain ⟨addr, hr', hlookup⟩ := hs₁.owned id r hr
        refine ⟨addr, hr', ?_⟩
        rw [List.lookup_cons]
        split
        · exact Option.some_ne_none _
        · exact hlookup }

/-- What the loop over the names keeps: nobody has votes yet. -/
structure Named (crypto : Crypto) (last : ℤ) (state : Ledger × Table ℤ AccountRecord) : Prop where
  keyed : state.1.toTables.Keyed crypto
  balances : state.1.balances = ∅
  slates : state.1.slates = ∅
  accounts : ∀ (id : ℤ) r, state.1.accounts[id]? = some r →
    0 ≤ id ∧ id ≤ last ∧ r.delegateInfo = none
  delegates : ∀ (id : ℤ) r, state.2[id]? = some r → Candidate last id r ∧ r.stats.votesFor = 0

theorem account_eq_ok {name : NameConfig} {id : ℤ} {r : AccountRecord}
    (h : account config name id = .ok r) :
    r.id = id ∧ (r.delegateInfo = none ∨ r.delegateInfo = some { payRate := name.delegatePayRate })
      := by
  simp only [account, bind_eq_ok, pure_eq_ok] at h
  obtain ⟨r₁, hr₁, rfl⟩ := h
  have hr₁' := EvaluationState.setActiveKey_eq_ok hr₁
  subst hr₁'
  split
  · exact ⟨rfl, Or.inr rfl⟩
  · exact ⟨rfl, Or.inl rfl⟩

/-- A delegate without votes is collected. -/
theorem Named.delegate {ledger : Ledger} {delegates : Table ℤ AccountRecord} {last : ℤ}
    (h : Named crypto last (ledger, delegates)) {r : AccountRecord}
    (hr : Candidate last r.id r ∧ r.stats.votesFor = 0) :
    Named crypto last (ledger, delegates.insert r.id r) := by
  refine ⟨h.keyed, h.balances, h.slates, h.accounts, fun id r' hr' => ?_⟩
  change (delegates.insert r.id r)[id]? = some r' at hr'
  rw [Table.getElem?_insert] at hr'
  split at hr'
  · rename_i hmine
    cases hr'
    rw [hmine]
    exact hr
  · exact h.delegates id r' hr'

/-- Any other account is stored. -/
theorem Named.account {ledger : Ledger} {delegates : Table ℤ AccountRecord} {last : ℤ}
    (h : Named crypto last (ledger, delegates)) {r : AccountRecord} (hnonneg : 0 ≤ r.id)
    (hle : r.id ≤ last) (hinfo : r.delegateInfo = none) :
    Named crypto last (ledger.storeAccountRecord crypto r, delegates) := by
  have htables := @Ledger.storeAccountRecord_toTables crypto ledger r
  have haccounts : (ledger.storeAccountRecord crypto r).accounts =
      ledger.accounts.put r.isNull r.id r := congrArg Tables.accounts htables
  refine ⟨?_, (congrArg Tables.balances htables).trans h.balances,
    (congrArg Tables.slates htables).trans h.slates, fun id r' hr' => ?_, h.delegates⟩
  · rw [htables]
    exact { h.keyed with accounts := h.keyed.accounts.put _ _ }
  · change (ledger.storeAccountRecord crypto r).accounts[id]? = some r' at hr'
    rw [haccounts] at hr'
    by_cases hmine : id = r.id
    · rw [hmine, Table.getElem?_put_same] at hr'
      split at hr'
      · cases hr'
      · cases hr'
        exact hmine ▸ ⟨hnonneg, hle, hinfo⟩
    · rw [Table.getElem?_put_of_ne _ _ _ hmine] at hr'
      exact h.accounts id r' hr'

theorem addName_named {state state' : Ledger × Table ℤ AccountRecord} {last : ℤ}
    {name : NameConfig} {n : ℕ} (hn : (n : ℤ) + 1 ≤ last) (hstate : Named crypto last state)
    (h : addName crypto config state (name, n) = .ok state') : Named crypto last state' := by
  simp only [addName, bind_eq_ok, pure_eq_ok] at h
  obtain ⟨r, hr, rfl⟩ := h
  obtain ⟨hid, hinfo⟩ := account_eq_ok hr
  rcases hinfo with hinfo | hinfo
  · rw [if_neg (by rw [AccountRecord.isDelegate, hinfo]; decide)]
    exact hstate.account (by omega) (by omega) hinfo
  · rw [if_pos (by rw [AccountRecord.isDelegate, hinfo]; rfl)]
    have hstats : r.stats = { payRate := name.delegatePayRate } := by
      rw [AccountRecord.stats, hinfo, Option.getD_some]
    have hzero : r.stats.payBalance = 0 ∧ r.stats.votesFor = 0 := by rw [hstats]; exact ⟨rfl, rfl⟩
    refine hstate.delegate ⟨⟨rfl, by omega, by omega, hzero.1, ?_, ?_⟩, hzero.2⟩
    · rw [hzero.2]
      exact ⟨by decide, by decide⟩
    · rw [hstats]
      exact ⟨rfl, rfl⟩

/-- The accounts and the delegates after the loop over the names. -/
theorem names_named {state : Ledger × Table ℤ AccountRecord}
    (h : config.names.zipIdx.foldlM (addName crypto config)
      ((Ledger.setProperty { chainId := crypto.genesisDigest config } .chainId
        (.hash (crypto.genesisDigest config))).storeAccountRecord crypto
          { id := 0, name := "god".toList }, ∅) = .ok state) :
    Named crypto config.names.length state := by
  refine foldlM_induction (P := Named crypto config.names.length) ?_ ?_ h
  · rintro state ⟨name, n⟩ state' hmem hstate hstep
    have hlt := (List.getElem?_eq_some_iff.1 (List.mem_zipIdx_iff_getElem?.1 hmem)).1
    exact addName_named (by omega) hstate hstep
  · have hempty : Named crypto config.names.length (Ledger.setProperty
        { chainId := crypto.genesisDigest config } .chainId
        (.hash (crypto.genesisDigest config)), ∅) := by
      refine ⟨{ Tables.Keyed.empty with }, rfl, rfl, fun id r hr => ?_, fun id r hr => ?_⟩
      · cases (Table.getElem?_empty' id).symm.trans hr
      · cases (Table.getElem?_empty' id).symm.trans hr
    exact hempty.account le_rfl (Int.natCast_nonneg _) rfl

/-- **The genesis ledger before the assets.** -/
theorem fundedLedger_counted (hideal : crypto.IdealAddresses) {ledger : Ledger}
    (h : fundedLedger crypto config = .ok ledger) :
    ∃ s : BalanceState, Counted crypto config.names.length s ∧
      ledger.toTables = { s.ledger.toTables with
        accounts := .settle AccountRecord.isNull s.delegates s.ledger.accounts } := by
  simp only [fundedLedger, bind_eq_ok, require_eq_ok, pure_eq_ok] at h
  obtain ⟨-, -, ⟨ledger₀, delegates₀⟩, hnames, s, hbalances, rfl⟩ := h
  have hnamed : Named crypto config.names.length (ledger₀, delegates₀) := names_named hnames
  have hstart : Counted crypto config.names.length
      { ledger := ledger₀, delegates := delegates₀ } := by
    refine ⟨hnamed.keyed, fun id slate hslate => ?_, fun id r hr => ?_, hnamed.accounts,
      fun id r hr => (hnamed.delegates id r hr).1, fun d _ => ?_, fun addr cur hcur => ?_,
      fun id r hr => ?_⟩
    · rw [show ledger₀.slates = ∅ from hnamed.slates, Table.getElem?_empty'] at hslate
      cases hslate
    · rw [show ledger₀.balances = ∅ from hnamed.balances, Table.getElem?_empty'] at hr
      cases hr
    · have hvotes : votesOf delegates₀ d = 0 := by
        rw [votesOf]
        cases hd : delegates₀[d]? with
        | none => rfl
        | some r => exact (hnamed.delegates d r hd).2
      rw [hvotes, Tables.votesCast, show ledger₀.balances = ∅ from hnamed.balances, Table.sum_empty]
    · cases hcur
    · rw [show ledger₀.balances = ∅ from hnamed.balances, Table.getElem?_empty'] at hr
      cases hr
  have hs : Counted crypto config.names.length s :=
    foldlM_induction (P := Counted crypto config.names.length)
      (fun _ _ _ _ hs h => addBalance_counted hideal hs h) hstart hbalances
  exact ⟨s, hs, Ledger.storeAccounts_toTables (fun id r hr => (hs.delegates id r hr).own) _⟩

/-- The assets and the properties of the genesis ledger. -/
theorem withAssets_toTables (config : GenesisBlockConfig) (ledger : Ledger) (supply : ℤ) :
    ∃ assets properties, (withAssets config ledger supply).toTables = { ledger.toTables with
        assets, properties } ∧ assets[(0 : ℤ)]? = some (baseAsset config supply) ∧
      properties[ChainProperty.lastAccountId]? = some (.int config.names.length) := by
  -- a market asset has a positive id
  have hassets (l : List AssetConfig) (n : ℕ) (ledger₁ : Ledger)
      (hbase : ledger₁.assets[(0 : ℤ)]? = some (baseAsset config supply)) :
      ∃ assets, ((l.zipIdx n).foldl (fun ledger entry => ledger.storeAssetRecord
          (marketAsset config entry.1 (entry.2 + 1))) ledger₁).toTables =
            { ledger₁.toTables with assets } ∧
        assets[(0 : ℤ)]? = some (baseAsset config supply) := by
    induction l generalizing n ledger₁ with
    | nil => exact ⟨ledger₁.assets, rfl, hbase⟩
    | cons asset l ih =>
      have hstore := Ledger.storeAssetRecord_toTables ledger₁ (marketAsset config asset (n + 1))
      have hstored := congrArg Tables.assets hstore
      obtain ⟨assets, htables, hget⟩ := ih (n + 1)
        (ledger₁.storeAssetRecord (marketAsset config asset (n + 1))) (by
          rw [show (ledger₁.storeAssetRecord (marketAsset config asset (n + 1))).assets = _ from
            hstored, Table.getElem?_put_of_ne _ _ _ (by
              change (0 : ℤ) ≠ n + 1
              omega)]
          exact hbase)
      refine ⟨assets, ?_, hget⟩
      rw [List.zipIdx_cons, List.foldl_cons, htables, hstore]
  have hbase := Ledger.storeAssetRecord_toTables ledger (baseAsset config supply)
  obtain ⟨assets, htables, hget⟩ := hassets config.marketAssets 0
    (ledger.storeAssetRecord (baseAsset config supply)) (by
      rw [show (ledger.storeAssetRecord (baseAsset config supply)).assets = _ from
        congrArg Tables.assets hbase]
      exact Table.getElem?_put_same _ _ _ _)
  refine ⟨assets, (withAssets config ledger supply).properties, ?_, hget, ?_⟩
  · have hproperties : (withAssets config ledger supply).toTables =
        { (config.marketAssets.zipIdx.foldl (fun ledger entry => ledger.storeAssetRecord
            (marketAsset config entry.1 (entry.2 + 1)))
            (ledger.storeAssetRecord (baseAsset config supply))).toTables with
          properties := (withAssets config ledger supply).properties } := rfl
    rw [hproperties, htables, hbase]
  · rw [withAssets, Ledger.getElem?_setProperty_of_ne _ _ (by decide),
      Ledger.getElem?_setProperty_of_ne _ _ (by decide), Ledger.getElem?_setProperty_same]
    rfl

end Genesis

namespace Database

/-- **The votes are exact at genesis.** -/
theorem initializeGenesis_polled {crypto : Crypto} {config : GenesisBlockConfig}
    (hideal : crypto.IdealAddresses) {db : Database}
    (h : initializeGenesis crypto config = .ok db) : db.ledger.toTables.Polled crypto := by
  have hwell := (initializeGenesis_wellFormed h).1
  simp only [initializeGenesis, Genesis.genesisLedger, bind_eq_ok, pure_eq_ok] at h
  obtain ⟨ledger, ⟨funded, hfunded, total, -, -, -, rfl⟩, rfl⟩ := h
  obtain ⟨s, hs, hfunded⟩ := Genesis.fundedLedger_counted hideal hfunded
  obtain ⟨assets, properties, htables, hbase, hlast⟩ :=
    Genesis.withAssets_toTables config funded total.amount
  dsimp only at hwell ⊢
  have hkeyed := hwell.keyed
  rw [htables, hfunded] at hkeyed ⊢
  -- an account is a delegate with the votes that were counted, or has none
  have haccount (d : ℤ) (r : AccountRecord)
      (hr : (Table.settle AccountRecord.isNull s.delegates s.ledger.accounts)[d]? = some r) :
      (0 ≤ d ∧ d ≤ config.names.length) ∧ r.stats.payBalance = 0 ∧ IsInt64 r.stats.votesFor ∧
        r.stats.votesFor = Genesis.votesOf s.delegates d := by
    rw [Table.getElem?_settle] at hr
    cases hd : s.delegates[d]? with
    | none =>
      rw [hd, Option.elim_none] at hr
      obtain ⟨hnonneg, hle, hinfo⟩ := hs.accounts d r hr
      have hstats : r.stats = {} := by rw [AccountRecord.stats, hinfo, Option.getD_none]
      rw [hstats, Genesis.votesOf, hd, Option.elim_none]
      exact ⟨⟨hnonneg, hle⟩, rfl, ⟨by decide, by decide⟩, rfl⟩
    | some r' =>
      rw [hd, Option.elim_some] at hr
      split at hr
      · cases hr
      · cases hr
        have hcandidate := hs.delegates d r hd
        rw [Genesis.votesOf, hd, Option.elim_some]
        exact ⟨⟨hcandidate.nonneg, hcandidate.le⟩, hcandidate.payBalance, hcandidate.range, rfl⟩
  have hstored (d : ℤ) (r : AccountRecord)
      (hr : (Table.settle AccountRecord.isNull s.delegates s.ledger.accounts)[d]? = some r) :
      Tables.stats { s.ledger.toTables with
        accounts := .settle AccountRecord.isNull s.delegates s.ledger.accounts
        assets := assets
        properties := properties } d = r.stats := by
    rw [Tables.stats, hr, Option.elim_some]
  have habsent (d : ℤ)
      (hr : (Table.settle AccountRecord.isNull s.delegates s.ledger.accounts)[d]? = none) :
      Tables.stats { s.ledger.toTables with
        accounts := .settle AccountRecord.isNull s.delegates s.ledger.accounts
        assets := assets
        properties := properties } d = {} := by
    rw [Tables.stats, hr, Option.elim_none]
  refine ⟨⟨⟨hkeyed, hs.named, fun r hr => ?_, config.names.length, hlast,
    Int.natCast_nonneg _, fun id r hr => (haccount id r hr).1⟩, hs.known⟩, fun d r hr => ?_,
    fun last hlast' d hd => ?_, fun d => ?_⟩
  · rw [hbase] at hr
    cases hr
    rfl
  · obtain ⟨⟨hnonneg, -⟩, hpay, -, hvotes⟩ := haccount d r hr
    have hstats := hstored d r hr
    rw [Tables.votesGap, Tables.votesDue, hstats, hpay, hvotes, add_zero, hs.votes d hnonneg]
    exact sub_self _
  · have hlast₂ := hlast.symm.trans hlast'
    cases hlast₂
    have hdelegate : s.delegates[d]? = none := by
      cases hget : s.delegates[d]? with
      | none => rfl
      | some r => exact absurd (hs.delegates d r hget).le (by omega)
    have hnone : (Table.settle AccountRecord.isNull s.delegates s.ledger.accounts)[d]? = none := by
      cases hget : (Table.settle AccountRecord.isNull s.delegates s.ledger.accounts)[d]? with
      | none => rfl
      | some r => exact absurd (haccount d r hget).1.2 (by omega)
    have hvotes := hs.votes d (by omega)
    rw [Genesis.votesOf, hdelegate, Option.elim_none, Int.cast_zero] at hvotes
    rw [Tables.votesGap, Tables.votesDue, habsent d hnone]
    change ((0 : ℤ) - (s.ledger.toTables.votesCast d + 0 : ℤ) : Word) = 0
    rw [add_zero, ← hvotes, Int.cast_zero, sub_zero]
  · cases hget : (Table.settle AccountRecord.isNull s.delegates s.ledger.accounts)[d]? with
    | none =>
      rw [habsent d hget]
      exact ⟨by decide, by decide⟩
    | some r =>
      rw [hstored d r hget]
      exact (haccount d r hget).2.2.1

end Database

/-! ### Runs -/

namespace Database

open LarkX.Action Ledger

variable {crypto : Crypto} {P : FullBlock → Prop} {K : Database → Event → Prop} {genesis : Ledger}
  {links : List (Link crypto)} {db : Database}

theorem At.polled (h : At crypto P K genesis links db)
    (hpolled : (ledgerOf crypto genesis links).toTables.Polled crypto) :
    db.ledger.toTables.Polled crypto :=
  hpolled.remains h.wellFormed.keyed h.agrees.remains

/-- The votes are exact along a path. -/
theorem Linked.polled (hideal : Function.Injective crypto.conditionAddress)
    (hgenesis : genesis.toTables.Polled crypto) (h : Linked crypto P K genesis links) :
    (ledgerOf crypto genesis links).toTables.Polled crypto := by
  induction h with
  | nil => exact hgenesis
  | @cons link links _ prev _ _ _ _ ih =>
    exact polled_block hideal prev.wellFormed (prev.polled ih) link.evaluated _

/-- The ledger of every state of a run is polled. -/
theorem Reachable.polled (hids : crypto.IdealIds) (hideal : crypto.IdealAddresses)
    {config : GenesisBlockConfig} (h : Reachable crypto config db) :
    db.ledger.toTables.Polled crypto := by
  obtain ⟨g, hg, links, htracks⟩ := h.runOf.tracks hids
  exact htracks.toAt.polled
    (htracks.linked.polled hideal.condition (initializeGenesis_polled hideal hg))

/-- **The vote ledger.** In every state of the chain the votes of a delegate are the votes of
the balances and its pay exactly when those fit in 64 bits. -/
theorem votesFor_iff (hids : crypto.IdealIds) (hideal : crypto.IdealAddresses)
    {config : GenesisBlockConfig} (h : Reachable crypto config db) {d : ℤ} {r : AccountRecord}
    {info : DelegateStats} (hr : db.ledger.accounts[d]? = some r)
    (hinfo : r.delegateInfo = some info) :
    info.votesFor = db.ledger.toTables.votesDue d ↔ IsInt64 (db.ledger.toTables.votesDue d) := by
  have hpolled := h.polled hids hideal
  have hstats : db.ledger.toTables.stats d = info := by
    rw [Tables.stats, hr, Option.elim_some, AccountRecord.stats, hinfo, Option.getD_some]
  have hrange : IsInt64 info.votesFor := hstats ▸ hpolled.range d
  have hgap := hpolled.exact d r hr
  rw [Tables.votesGap, hstats] at hgap
  constructor
  · intro heq
    rw [← heq]
    exact hrange
  · intro hdue
    exact hrange.eq_of_cast hdue (sub_eq_zero.1 hgap)

/-! ### More votes than fit -/

/-- The transparent instance with slates that are told apart from none. -/
def slatedCrypto : Crypto :=
  { Crypto.transparent with slateHash := fun slate => (slate.map intCode).sum + 1 }

/-- Its genesis state. -/
def slatedGenesis : Database :=
  (initializeGenesis slatedCrypto smallConfig).toOption.getD {}

theorem reachable_slatedGenesis : Reachable slatedCrypto smallConfig slatedGenesis := by
  obtain ⟨db, hdb⟩ := exists_eq_ok (x := initializeGenesis slatedCrypto smallConfig)
    (by decide +kernel)
  have heq : slatedGenesis = db := by
    rw [slatedGenesis, hdb]
    rfl
  exact heq ▸ .genesis hdb

/-- A balance that votes for the first delegate. -/
def firstSlate (owner : Address) : WithdrawCondition :=
  .ofSignature owner 0 (slatedCrypto.slateId [1])

/-- The orders of a bidder who offers the base asset for asset 1. -/
def bidderKey : MarketIndexKey :=
  ⟨⟨10 ^ 18, 0, 1⟩, slatedCrypto.keyAddress 2⟩

/-- A bid changed by the least 64-bit number pays for a balance no supply could. -/
def overflowing : SignedTransaction where
  expiration := 200
  operations :=
    [.withdraw (slatedCrypto.conditionAddress
        (firstSlate (slatedCrypto.ptsToAddress ⟨56, 5⟩))) 1 .empty,
      .bid 1 bidderKey,
      .deposit (2 ^ 63 - 2) (firstSlate 99),
      .bid int64Min bidderKey]
  signatures := [2]

/-- The first block of the chain, with this transaction. -/
def overflowBlock : FullBlock :=
  slatedGenesis.blockOn 1 20 [overflowing]

set_option maxRecDepth 100000 in
/-- **More votes than fit in 64 bits**: the votes of the first delegate wrap. -/
theorem votes_overflow :
    Reachable slatedCrypto smallConfig (slatedGenesis.pushed slatedCrypto 100 overflowBlock) ∧
      overflowBlock.InRange ∧
      ∃ (r : AccountRecord) (info : DelegateStats),
        (slatedGenesis.pushed slatedCrypto 100 overflowBlock).ledger.accounts[(1 : ℤ)]? = some r ∧
        r.delegateInfo = some info ∧ info.votesFor ≠
          (slatedGenesis.pushed slatedCrypto 100 overflowBlock).ledger.toTables.votesDue 1 := by
  refine ⟨reachable_slatedGenesis.pushed (by decide +kernel) (by decide +kernel),
    by decide +kernel, ?_⟩
  have hwrong : ((slatedGenesis.pushed slatedCrypto 100 overflowBlock).ledger.accounts[(1 : ℤ)]?.bind
      AccountRecord.delegateInfo).any (fun info => info.votesFor ≠
        (slatedGenesis.pushed slatedCrypto 100 overflowBlock).ledger.toTables.votesDue 1) = true := by
    decide +kernel
  rw [Option.any_eq_true] at hwrong
  obtain ⟨info, hinfo, hne⟩ := hwrong
  obtain ⟨r, hr, hinfo⟩ := Option.bind_eq_some_iff.1 hinfo
  exact ⟨r, info, hr, hinfo, of_decide_eq_true hne⟩

/-- The hashes of this instance have no collisions. -/
theorem idealIds_slated : slatedCrypto.IdealIds :=
  ⟨idealIds_transparent.inj, idealIds_transparent.ne_zero⟩

theorem idealAddresses_slated : slatedCrypto.IdealAddresses where
  condition := WithdrawCondition.code_injective
  pts x y h := by
    obtain ⟨v, a⟩ := x
    obtain ⟨w, b⟩ := y
    have hpair : Nat.pair v a = Nat.pair w b := by
      change 2 * Nat.pair v a + 1 = 2 * Nat.pair w b + 1 at h
      omega
    rw [Nat.pair_eq_pair] at hpair
    rw [hpair.1, hpair.2]
  slate _ _ := Nat.succ_ne_zero _

set_option maxRecDepth 100000 in
/-- The votes of the first delegate at genesis are what they should be. -/
theorem votesFor_genesis :
    ∃ (r : AccountRecord) (info : DelegateStats),
      slatedGenesis.ledger.accounts[(1 : ℤ)]? = some r ∧ r.delegateInfo = some info ∧
      info.votesFor = slatedGenesis.ledger.toTables.votesDue 1 := by
  have hinfo : (slatedGenesis.ledger.accounts[(1 : ℤ)]?.bind
      AccountRecord.delegateInfo).isSome = true := by
    decide +kernel
  obtain ⟨info, hinfo⟩ := Option.isSome_iff_exists.1 hinfo
  obtain ⟨r, hr, hinfo⟩ := Option.bind_eq_some_iff.1 hinfo
  have hdue : IsInt64 (slatedGenesis.ledger.toTables.votesDue 1) := by
    decide +kernel
  exact ⟨r, info, hr, hinfo,
    (votesFor_iff idealIds_slated idealAddresses_slated reachable_slatedGenesis hr hinfo).2 hdue⟩

end Database

end LarkX
