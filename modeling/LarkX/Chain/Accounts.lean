import LarkX.Chain.UndoExact

/-!
# Accounts through the chain

Along a run in which no block is undone and `now()` does not go back, the stored accounts only move
forward (`accounts_moveOn`): none is removed or changes its identity, no entry of a key history from
before `now()` is touched, an update is never dated back, a delegate stays one at no higher pay rate
and is not relieved of the blocks it produced or missed, and no two accounts share a name. The block
does so part by part (`evaluateBlockChanges_forward`), and what it leaves is stored with no account
lost (`Link.forward`).

The names are those of the genesis accounts first: `register_account` refuses a name that is taken,
`initialize_genesis` does not (`namesakes_stay`).
-/

namespace LarkX

open ChainInterface Ledger

/-! ### The parts of a block -/

namespace ChainInterface

open EvaluationState (Registry)

variable {crypto : Crypto} {c c' : ChainInterface} {head : SignedBlockHeader} {b : FullBlock}
  {blockSignee : PublicKey}

/-- A delegate is stored with other statistics, at the same pay rate and with no block less. -/
theorem storeDelegate_forward (h : Registry crypto c) {id : ℤ} {r : AccountRecord}
    {info : DelegateStats} (info' : DelegateStats) (hr : c.getDelegate id = .ok (r, info))
    (hrate : info'.payRate = info.payRate) (hproduced : info.blocksProduced ≤ info'.blocksProduced)
    (hmissed : info.blocksMissed ≤ info'.blocksMissed) :
    c.Forward (c.storeAccountRecord crypto { r with delegateInfo := some info' }) := by
  obtain ⟨hold, hinfo⟩ := getDelegate_eq_ok hr
  have hread : c.getAccountRecord id = some r := by
    rw [getAccountRecord_eq]
    exact hold
  exact .storeAccountRecord h.pending h.keyed hread
    (AccountRecord.forward_stats _ hinfo hrate hproduced hmissed)

/-- And then its slot. -/
theorem storeDelegate_slot_forward (h : Registry crypto c) {id : ℤ} {r : AccountRecord}
    {info : DelegateStats} (info' : DelegateStats) (hr : c.getDelegate id = .ok (r, info))
    (hrate : info'.payRate = info.payRate) (hproduced : info.blocksProduced ≤ info'.blocksProduced)
    (hmissed : info.blocksMissed ≤ info'.blocksMissed) (slot : SlotRecord) :
    c.Forward ((c.storeAccountRecord crypto
      { r with delegateInfo := some info' }).storeSlotRecord slot) := by
  have hp := (retains_delegate h info' hr).registry.pending
  rw [storeSlotRecord_eq crypto hp]
  exact (storeDelegate_forward h info' hr hrate hproduced hmissed).trans (.write hp rfl)

theorem updateProducer_forward (h : Registry crypto c)
    (hrun : c.updateProducer crypto b blockSignee = .ok c') : c.Forward c' := by
  simp only [updateProducer, bind_eq_ok, pure_eq_ok] at hrun
  obtain ⟨signee, -, ⟨r, info⟩, hr, _, -, rfl⟩ := hrun
  exact storeDelegate_slot_forward h { info with
    blocksProduced := info.blocksProduced + 1
    nextSecretHash := b.nextSecretHash
    lastBlockNumProduced := b.blockNum } hr rfl (Nat.le_succ _) le_rfl _

theorem updateMissedSlot_forward (h : Registry crypto c) {active : List ℤ} {timestamp : ℕ}
    (hrun : c.updateMissedSlot crypto active timestamp = .ok c') : c.Forward c' := by
  simp only [updateMissedSlot, bind_eq_ok, pure_eq_ok] at hrun
  obtain ⟨signee, -, ⟨r, info⟩, hr, rfl⟩ := hrun
  exact storeDelegate_slot_forward h { info with blocksMissed := info.blocksMissed + 1 } hr rfl le_rfl
    (Nat.le_succ _) _

theorem updateDelegateProductionInfo_forward (h : Registry crypto c)
    (hrun : c.updateDelegateProductionInfo crypto head b blockSignee = .ok c') :
    c.Forward c' := by
  simp only [updateDelegateProductionInfo, bind_eq_ok, pure_eq_ok] at hrun
  obtain ⟨c₁, hproducer, _, -, required, -, active, -, c₂, hmissed, rfl⟩ := hrun
  obtain ⟨hreg, hforward⟩ : Registry crypto c₂ ∧ c.Forward c₂ := by
    refine foldlM_induction (P := fun c₂ => Registry crypto c₂ ∧ c.Forward c₂)
      (fun _ _ _ _ hc₁ hstep => ?_)
      ⟨(updateProducer_retains h hproducer).registry, updateProducer_forward h hproducer⟩ hmissed
    exact ⟨(updateMissedSlot_retains hc₁.1 hstep).registry,
      hc₁.2.trans (updateMissedSlot_forward hc₁.1 hstep)⟩
  rw [setProperty_eq crypto hreg.pending]
  exact hforward.trans (.write hreg.pending rfl)

/-- The pay adds to the balance and the votes of the delegate only. -/
theorem payDelegate_forward (h : Registry crypto c)
    (hrun : c.payDelegate crypto blockSignee = .ok c') : c.Forward c' := by
  simp only [payDelegate, bind_eq_ok, orThrow_eq_ok, pure_eq_ok] at hrun
  obtain ⟨signee, -, ⟨r, info⟩, hr, _, -, maxAvailable, -, base, -, base', -, rfl⟩ := hrun
  rw [storeAssetRecord_eq crypto h.pending]
  have h₁ := retains_aside h (w := .asset { base with
    collectedFees := wrap64 (base.collectedFees - maxAvailable) }) rfl rfl rfl
  have hfees : c.Forward (c.write crypto (.asset { base with
    collectedFees := wrap64 (base.collectedFees - maxAvailable) })) := .write h.pending rfl
  have hr₁ : (c.write crypto (.asset { base with
      collectedFees := wrap64 (base.collectedFees - maxAvailable) })).getDelegate signee.id =
        .ok (r, info) := by
    rw [getDelegate_write h.pending rfl]
    exact hr
  have hpay := storeDelegate_forward h₁.registry { info with
    payBalance := wrap64 (info.payBalance + (info.payRate * maxAvailable).tdiv 100)
    votesFor := wrap64 (info.votesFor + (info.payRate * maxAvailable).tdiv 100) } hr₁ rfl le_rfl
    le_rfl
  have hp := (retains_delegate h₁.registry { info with
    payBalance := wrap64 (info.payBalance + (info.payRate * maxAvailable).tdiv 100)
    votesFor := wrap64 (info.votesFor + (info.payRate * maxAvailable).tdiv 100) } hr₁).registry.pending
  rw [storeAssetRecord_eq crypto hp]
  exact (hfees.trans hpay).trans (.write hp rfl)

/-- The market engine writes no account. -/
theorem executeMarkets_forward (h : Registry crypto c) (hrun : executeMarkets crypto c = .ok c') :
    c.Forward c' := by
  refine (executeMarkets_writes h.pending h.keyed hrun).invariant (I := fun c₁ => c.Forward c₁)
    (fun c₁ w hp hc₁ hw => hc₁.trans ?_) h.pending (.refl c)
  obtain ⟨pair, -, -, hw⟩ := hw
  cases hw <;> exact .write hp rfl

theorem applyTransaction_forward (h : Registry crypto c) {skip : Bool} {blockNum : ℕ}
    {entry : SignedTransaction × ℕ} (hrun : c.applyTransaction crypto skip blockNum entry = .ok c') :
    c.Forward c' := by
  simp only [applyTransaction, bind_eq_ok] at hrun
  obtain ⟨s, heval, hstore⟩ := hrun
  have hreg := h.writes (EvaluationState.evaluate_writes h.pending heval)
  obtain ⟨chainId, -, rfl⟩ := storeTransaction_eq_ok hreg.pending hstore
  exact (EvaluationState.evaluate_forward h heval).trans (.write hreg.pending rfl)

theorem applyTransactionsOf_forward (h : Registry crypto c) {skip : Bool}
    (hrun : c.applyTransactionsOf crypto skip b = .ok c') : c.Forward c' := by
  have hall : Registry crypto c' ∧ c.Forward c' := by
    refine foldlM_induction (P := fun c' => Registry crypto c' ∧ c.Forward c')
      (fun _ _ _ _ hc₁ hstep => ?_) ⟨h, .refl c⟩ hrun
    exact ⟨(applyTransaction_retains hc₁.1 hstep).registry,
      hc₁.2.trans (applyTransaction_forward hc₁.1 hstep)⟩
  exact hall.2

/-- The list of delegates and the random seed are properties. -/
theorem updateActiveDelegateList_forward (hp : c.IsPending)
    (hrun : c.updateActiveDelegateList crypto b = .ok c') : c.Forward c' := by
  cases updateActiveDelegateList_reschedules hrun with
  | shuffled =>
    rw [setActiveDelegates, setProperty_eq crypto hp]
    exact .write hp rfl
  | same => exact .refl c

theorem updateRandomSeed_forward (hp : c.IsPending) {secret : SecretHash}
    (hrun : c.updateRandomSeed crypto secret = .ok c') : c.Forward c' := by
  simp only [updateRandomSeed, bind_eq_ok, pure_eq_ok] at hrun
  obtain ⟨seed, -, rfl⟩ := hrun
  rw [setProperty_eq crypto hp]
  exact .write hp rfl

/-- **A block takes the accounts forward.** -/
theorem evaluateBlockChanges_forward (h : Registry crypto c) {skip : Bool}
    (hrun : c.evaluateBlockChanges crypto head skip b blockSignee = .ok c') : c.Forward c' := by
  simp only [evaluateBlockChanges, bind_eq_ok] at hrun
  obtain ⟨c₁, hproduction, c₂, hpay, c₃, hmarkets, c₄, htransactions, c₅, hactive, hseed⟩ := hrun
  have h₁ := (updateDelegateProductionInfo_retains h hproduction).registry
  have h₂ := (payDelegate_retains h₁ hpay).registry
  have h₃ := (executeMarkets_retains h₂ hmarkets).registry
  have hp₄ := (applyTransactionsOf_retains h₃ htransactions).registry.pending
  have hforward₄ : c.Forward c₄ :=
    ((updateDelegateProductionInfo_forward h hproduction).trans (payDelegate_forward h₁ hpay)).trans
      ((executeMarkets_forward h₂ hmarkets).trans (applyTransactionsOf_forward h₃ htransactions))
  have hwrites : BlockWrites crypto head b c₄ c₅ := updateActiveDelegateList_writes hp₄ hactive
  exact (hforward₄.trans (updateActiveDelegateList_forward hp₄ hactive)).trans
    (updateRandomSeed_forward (hwrites.isPending hp₄) hseed)

end ChainInterface

/-! ### The ledger -/

section Ledgers

variable {crypto : Crypto} {db : Ledger} {o : Overlay} {now : ℕ}

/-- Applying a pending state loses no account: one of the ledger does not become null. -/
theorem AccountsForward.applied (hlive : db.toTables.Live) (hkeyed : o.toTables.Keyed crypto)
    (h : AccountsForward now db.accounts (o.toTables.above db.toTables).accounts) (now' : ℕ) :
    AccountsForward now db.accounts (db.apply crypto now' o).accounts := by
  have haccounts : (db.apply crypto now' o).accounts =
      Table.settle AccountRecord.isNull o.accounts db.accounts :=
    congrArg Tables.accounts (apply_toTables now' db hkeyed)
  rw [haccounts]
  refine ⟨fun id r hr => ?_, fun id r' hr' => h.made id r' (Table.above_of_settle hr')⟩
  obtain ⟨r', hr', hforward⟩ := h.kept id r hr
  have hnull : r'.isNull = false := by
    rw [AccountRecord.isNull, hforward.identity.ownerKey]
    exact hlive.accounts id r hr
  exact ⟨r', Table.settle_of_above hnull hr', hforward⟩

/-- **A block that was accepted** took the accounts of the ledger forward. -/
theorem Link.forward {link : Link crypto} (hwell : link.prev.ledger.WellFormed crypto)
    (hreg : link.prev.ledger.Registered) :
    AccountsForward (link.prev.now link.wall) link.prev.ledger.accounts link.after.accounts := by
  obtain ⟨o, heq, hfits⟩ := evaluateBlock_fits hwell link.evaluated
  cases heq
  have hrun := link.evaluated
  simp only [evaluateBlock, bind_eq_ok] at hrun
  obtain ⟨blockSignee, -, -, -, hrun⟩ := hrun
  have hflat : (link.prev.chain link.wall).push.flat = link.prev.ledger.toTables :=
    Tables.empty_above _
  have hbelow : link.prev.ledger.toTables.AccountsBelow := by
    obtain ⟨last, hlast, hle⟩ := hreg.lastAccount
    intro last' hlast' id r hr
    cases hlast.symm.trans hlast'
    exact hle id r hr
  have hregistry : EvaluationState.Registry crypto (link.prev.chain link.wall).push :=
    ⟨List.cons_ne_nil _ _, hflat ▸ hwell.keyed, hflat ▸ hbelow⟩
  obtain ⟨-, hforward⟩ := evaluateBlockChanges_forward hregistry hrun
  rw [hflat] at hforward
  exact hforward.applied hwell.live hfits.keyed _

end Ledgers

/-! ### Over time -/

/-- An account from the time `t` on: what may become of it until any later time. -/
structure AccountRecord.Onward (t : ℕ) (r r' : AccountRecord) : Prop where
  identity : EvaluationState.SameIdentity r r'
  registrationDate : r'.registrationDate = r.registrationDate
  lastUpdate : r.lastUpdate ≤ r'.lastUpdate
  history : ∀ date < t, r'.activeKeyHistory[date]? = r.activeKeyHistory[date]?
  delegate : ∀ info, r.delegateInfo = some info →
    ∃ info', r'.delegateInfo = some info' ∧ info.Onward info'
  retracted : r.isRetracted = true → r.Untouched r'

namespace AccountRecord

variable {t t' now : ℕ} {r r₁ r₂ r₃ : AccountRecord}

theorem Onward.refl (t : ℕ) (r : AccountRecord) : r.Onward t r where
  identity := .refl r
  registrationDate := rfl
  lastUpdate := le_rfl
  history _ _ := rfl
  delegate info hinfo := ⟨info, hinfo, .refl info⟩
  retracted _ := ⟨rfl, rfl, rfl, rfl⟩

theorem Onward.trans (ht : t ≤ t') (h : r₁.Onward t r₂) (h' : r₂.Onward t' r₃) :
    r₁.Onward t r₃ where
  identity := h.identity.trans h'.identity
  registrationDate := h'.registrationDate.trans h.registrationDate
  lastUpdate := h.lastUpdate.trans h'.lastUpdate
  history date hdate :=
    (h'.history date (hdate.trans_le ht)).trans (h.history date hdate)
  delegate info hinfo := by
    obtain ⟨info₂, hinfo₂, hon⟩ := h.delegate info hinfo
    obtain ⟨info₃, hinfo₃, hon'⟩ := h'.delegate info₂ hinfo₂
    exact ⟨info₃, hinfo₃, hon.trans hon'⟩
  retracted hretracted := by
    have hsame := h.retracted hretracted
    exact hsame.trans (h'.retracted (hsame.isRetracted.trans hretracted))

/-- What is done at a time that is not before `t`, to an account that is not dated after it. -/
theorem Forward.onward (ht : t ≤ now) (hdated : r₁.lastUpdate ≤ now) (h : r₁.Forward now r₂) :
    r₁.Onward t r₂ where
  identity := h.identity
  registrationDate := h.registrationDate
  lastUpdate := by
    rcases h.lastUpdate with heq | heq
    · exact heq.ge
    · exact heq ▸ hdated
  history date hdate := h.history date (hdate.trans_le ht).ne
  delegate := h.delegate
  retracted := h.retracted

end AccountRecord

namespace Ledger

/-- No stored account is dated after `t`. -/
def Dated (db : Ledger) (t : ℕ) : Prop :=
  ∀ (id : ℤ) (r : AccountRecord), db.accounts[id]? = some r → r.lastUpdate ≤ t

theorem Dated.mono {db : Ledger} {t t' : ℕ} (h : db.Dated t) (ht : t ≤ t') : db.Dated t' :=
  fun id r hr => (h id r hr).trans ht

theorem Dated.forward {db db' : Ledger} {now : ℕ} (h : db.Dated now)
    (hforward : AccountsForward now db.accounts db'.accounts) : db'.Dated now := by
  intro id r' hr'
  rcases hforward.made id r' hr' with ⟨r, hr, hrevised⟩ | hfresh
  · rcases hrevised.lastUpdate with heq | heq
    · rw [heq]
      exact h id r hr
    · exact heq.le
  · exact hfresh.lastUpdate.le

/-- The accounts that are stored at the time `t` have only moved forward in a later ledger, where no
two accounts share a name. -/
structure MovesOn (t : ℕ) (db db' : Ledger) : Prop where
  kept : db.accounts.Keeps (fun _ => AccountRecord.Onward t) db'.accounts
  names : ∀ (id id' : ℤ) (r r' : AccountRecord), db'.accounts[id]? = some r →
    db'.accounts[id']? = some r' → r.name = r'.name → id = id'

end Ledger

namespace Database

open LarkX.Action

variable {crypto : Crypto} {config : GenesisBlockConfig} {genesis : Ledger} {db db' : Database}

/-! ### Runs without undo -/

/-- A step that undoes nothing, from a database where `now()` was last read as `t`: it does not go
back before the step or with it. -/
inductive Ahead (crypto : Crypto) : Database × ℕ → Database × ℕ → Prop
  | step {db db' : Database} {t wall : ℕ} {b : FullBlock} {ev : Event} (hrange : b.InRange)
      (h : Step crypto wall b db ev db') (hundo : ev ≠ .pop) (hbefore : t ≤ db.now wall)
      (hafter : db.now wall ≤ db'.now wall) : Ahead crypto (db, t) (db', db'.now wall)
  | delegateLoop {db : Database} {t : ℕ} : Ahead crypto (db, t) (db.verifySignatures, t)

/-- What a run without undo keeps: the path of blocks, and that no account is dated after `now()`. -/
structure Onward (crypto : Crypto) (genesis : Ledger) (s : Database × ℕ) : Prop where
  path : ∃ links, Tracks crypto (fun _ => True) (fun _ _ => True) genesis s.1 links
  dated : s.1.ledger.Dated s.2

/-- A step without undo leaves the head where it is or extends the path. -/
theorem Tracks.ahead {links : List (Link crypto)} (hids : crypto.IdealIds)
    (h : Tracks crypto (fun _ => True) (fun _ _ => True) genesis db links) {wall : ℕ} {b : FullBlock}
    {ev : Event} (hstep : Step crypto wall b db ev db') (hundo : ev ≠ .pop) :
    db'.ledger.accounts = db.ledger.accounts ∨ ∃ link : Link crypto, link.prev = db ∧
      link.wall = wall ∧ db'.ledger.accounts = link.after.accounts := by
  cases hstep with
  | stored hindexes =>
    rw [hindexes.rest]
    exact Or.inl rfl
  | marked hsame =>
    rw [hsame.rest]
    exact Or.inl rfl
  | extended hstored hrun =>
    obtain ⟨c, undo, c', hextends⟩ := extendChain_eq_ok hrun
    obtain ⟨link, hprev, hwall, -, -, hledger⟩ := h.extend hids hextends hstored trivial
    rw [hledger]
    exact Or.inr ⟨link, hprev, hwall, rfl⟩
  | extendThrew hstored hrun =>
    obtain ⟨db₁, hfails, hsame⟩ := extendChain_outcome.of_error hrun
    obtain ⟨hhead, -⟩ := h.extendThrew hids hstored hfails
    rw [hsame.rest]
    exact Or.inl (congrArg (fun db : Ledger => db.accounts) hhead.ledger)
  | popped => exact absurd rfl hundo
  | popThrew => exact absurd rfl hundo

/-- **Step.** The accounts move forward. -/
theorem Ahead.onward (hids : crypto.IdealIds) (hregistered : genesis.Registered)
    {s s' : Database × ℕ} (h : Ahead crypto s s') (hs : Onward crypto genesis s) :
    s.2 ≤ s'.2 ∧ s.1.ledger.accounts.Keeps (fun _ => AccountRecord.Onward s.2)
      s'.1.ledger.accounts ∧ Onward crypto genesis s' := by
  obtain ⟨⟨links, htracks⟩, hdated⟩ := hs
  cases h with
  | @step db db' t wall b ev hrange hstep hundo hbefore hafter =>
    obtain ⟨links', -, htracks'⟩ := htracks.step hids trivial hrange hstep trivial
    have hforward : AccountsForward (db.now wall) db.ledger.accounts db'.ledger.accounts := by
      rcases htracks.ahead hids hstep hundo with hsame | ⟨link, rfl, rfl, hafter'⟩
      · exact .of_eq _ hsame
      · rw [hafter']
        exact Link.forward htracks.wellFormed (htracks.registered hregistered)
    have hdatedNow : db.ledger.Dated (db.now wall) := hdated.mono hbefore
    refine ⟨hbefore.trans hafter, fun id r hr => ?_, ⟨links', htracks'⟩,
      (hdatedNow.forward hforward).mono hafter⟩
    obtain ⟨r', hr', hrevised⟩ := hforward.kept id r hr
    exact ⟨r', hr', hrevised.onward hbefore (hdatedNow id r hr)⟩
  | delegateLoop =>
    exact ⟨le_rfl, .refl (fun _ => .refl _) _, ⟨links, ⟨htracks.toAt.same ⟨rfl, rfl, rfl⟩,
      htracks.linked, htracks.undo, htracks.undoZero, htracks.records, htracks.recordIds,
      htracks.data⟩⟩, hdated⟩

/-- **Run.** -/
theorem Onward.run (hids : crypto.IdealIds) (hregistered : genesis.Registered)
    {s s' : Database × ℕ} (hs : Onward crypto genesis s)
    (h : Relation.ReflTransGen (Ahead crypto) s s') :
    s.2 ≤ s'.2 ∧ s.1.ledger.accounts.Keeps (fun _ => AccountRecord.Onward s.2)
      s'.1.ledger.accounts ∧ Onward crypto genesis s' := by
  induction h with
  | refl => exact ⟨le_rfl, .refl (fun _ => .refl _) _, hs⟩
  | tail _ hstep ih =>
    obtain ⟨hle, hkept, hs₁⟩ := ih
    obtain ⟨hle', hkept', hs'⟩ := hstep.onward hids hregistered hs₁
    refine ⟨hle.trans hle', fun id r hr => ?_, hs'⟩
    obtain ⟨r₁, hr₁, honward⟩ := hkept id r hr
    obtain ⟨r₂, hr₂, honward'⟩ := hkept' id r₁ hr₁
    exact ⟨r₂, hr₂, honward.trans hle honward'⟩

/-- The genesis accounts are dated at the time of the configuration. -/
theorem initializeGenesis_dated (hdistinct : config.DistinctNames)
    (h : initializeGenesis crypto config = .ok db) : db.ledger.Dated config.timestamp := by
  intro id r hr
  obtain ⟨n, name, -, -, -, -, hdated⟩ :=
    ((initializeGenesis_christened hdistinct h).accounts id r hr).2.2
  exact hdated.le

/-- **Accounts only move forward**, from any reachable state of a chain whose genesis accounts have
distinct names, in which no account is dated after `now()`: between any two points of a run without
undo in which `now()` does not go back. And an update of an account that is retracted throws. -/
theorem accounts_moveOn (hids : crypto.IdealIds) (hdistinct : config.DistinctNames)
    {db₀ db₁ db₂ : Database} {t₀ t₁ t₂ : ℕ} (hstart : Reachable crypto config db₀)
    (hdated : db₀.ledger.Dated t₀) (hrun : Relation.ReflTransGen (Ahead crypto) (db₀, t₀) (db₁, t₁))
    (hrun' : Relation.ReflTransGen (Ahead crypto) (db₁, t₁) (db₂, t₂)) :
    db₁.ledger.MovesOn t₁ db₂.ledger ∧
      ∀ (s : EvaluationState) (accountId : ℤ) (r : AccountRecord),
        s.currentState.getAccountRecord accountId = some r → r.isRetracted = true →
        ∀ publicData activeKey payRate,
          s.updateAccount crypto accountId publicData activeKey payRate =
            .error .accountRetracted := by
  obtain ⟨g, hg, links, htracks⟩ := hstart.runOf.tracks hids
  have hregistered : g.ledger.Registered := initializeGenesis_registered hdistinct hg
  have hs₀ : Onward crypto g.ledger (db₀, t₀) := ⟨⟨links, htracks⟩, hdated⟩
  obtain ⟨-, -, hs₁⟩ := hs₀.run hids hregistered hrun
  obtain ⟨-, hkept, ⟨links₂, htracks₂⟩, -⟩ := hs₁.run hids hregistered hrun'
  refine ⟨⟨hkept, fun id id' r r' hr hr' hname => ?_⟩, fun s accountId r hr hretracted _ _ _ =>
    EvaluationState.updateAccount_retracted hr hretracted⟩
  exact (htracks₂.registered hregistered).indexed.name_inj hr hr' hname

/-! ### A first block -/

/-- The database after a first block at time 20, which extends the chain at time 30. -/
def afterFirst (g : Database) : Database :=
  match (extendChain .transparent 30 (g.blockOn 1 20 [])).run
    (g.stored .transparent 30 (g.blockOn 1 20 [])) with
  | .ok _ db' => db'
  | .error _ db' => db'

/-- The block is stored, and then the chain is extended by it. -/
theorem ahead_afterFirst {g : Database} (hrange : (g.blockOn 1 20 []).InRange)
    (hstart : g.now 30 = 20) (hfirst : g.afterFirst.now 30 = 20) :
    Relation.ReflTransGen (Ahead .transparent) (g, 20) (g.afterFirst, 20) := by
  have hindexes := stored_indexes .transparent 30 (g.blockOn 1 20 []) g
  have hhead : (g.stored .transparent 30 (g.blockOn 1 20 [])).now 30 = 20 := by
    rw [hindexes.rest]
    exact hstart
  have hdata : (g.stored .transparent 30 (g.blockOn 1 20 [])).blockIdToBlockDataDb[
      Crypto.transparent.blockId (g.blockOn 1 20 []).toSignedBlockHeader]? =
        some (g.blockOn 1 20 []) := by
    rw [hindexes.rest]
    exact Table.getElem?_insert_same ..
  have hstored : Ahead .transparent (g, 20) (g.stored .transparent 30 (g.blockOn 1 20 []),
      (g.stored .transparent 30 (g.blockOn 1 20 [])).now 30) :=
    .step hrange (.stored hindexes) nofun hstart.ge (hstart.trans hhead.symm).le
  have hextend : Step .transparent 30 (g.blockOn 1 20 [])
      (g.stored .transparent 30 (g.blockOn 1 20 [])) (.extend 30 (g.blockOn 1 20 [])) g.afterFirst := by
    unfold afterFirst
    split
    · rename_i hrun
      exact .extended hdata hrun
    · rename_i hrun
      exact .extendThrew hdata hrun
  have hextended : Ahead .transparent (g.stored .transparent 30 (g.blockOn 1 20 []), 20)
      (g.afterFirst, g.afterFirst.now 30) :=
    .step hrange hextend nofun hhead.ge (hhead.trans hfirst.symm).le
  rw [hhead] at hstored
  rw [hfirst] at hextended
  exact (Relation.ReflTransGen.single hstored).tail hextended

set_option maxRecDepth 100000 in
/-- The first block of the small chain. -/
theorem smallGenesis_movesOn : smallGenesis.afterFirst.headBlockNum = 1 ∧
    smallGenesis.ledger.MovesOn 20 smallGenesis.afterFirst.ledger := by
  have hdistinct : smallConfig.DistinctNames := by decide +kernel
  have hrun : Relation.ReflTransGen (Ahead .transparent) (smallGenesis, 20)
      (smallGenesis.afterFirst, 20) :=
    ahead_afterFirst (by decide +kernel) (by decide +kernel) (by decide +kernel)
  exact ⟨by decide +kernel, (accounts_moveOn idealIds_transparent hdistinct reachable_smallGenesis
    ((initializeGenesis_dated hdistinct initialize_smallGenesis).mono (by decide)) .refl hrun).1⟩

set_option maxRecDepth 100000 in
/-- **Two genesis accounts keep their one name**, in a run without undo whose clock stands still. -/
theorem namesakes_stay : Reachable .transparent namesakeConfig namesakeGenesis ∧
    Relation.ReflTransGen (Ahead .transparent) (namesakeGenesis, 20)
      (namesakeGenesis.afterFirst, 20) ∧
    namesakeGenesis.afterFirst.headBlockNum = 1 ∧
    ¬namesakeGenesis.ledger.MovesOn 20 namesakeGenesis.afterFirst.ledger := by
  refine ⟨.genesis initialize_namesakeGenesis, ahead_afterFirst (by decide +kernel)
    (by decide +kernel) (by decide +kernel), by decide +kernel, fun h => ?_⟩
  have hname : ∀ id : ℤ, id = 1 ∨ id = 2 → (namesakeGenesis.afterFirst.ledger.accounts[id]?.map
      AccountRecord.name) = some "delegate".toList := by
    rintro id (rfl | rfl) <;> decide +kernel
  obtain ⟨r, hr, hrname⟩ := Option.map_eq_some_iff.1 (hname 1 (Or.inl rfl))
  obtain ⟨r', hr', hrname'⟩ := Option.map_eq_some_iff.1 (hname 2 (Or.inr rfl))
  exact absurd (h.names 1 2 r r' hr hr' (hrname.trans hrname'.symm)) (by decide)

end Database

end LarkX
