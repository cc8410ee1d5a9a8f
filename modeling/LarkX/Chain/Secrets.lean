import LarkX.Chain.Atomic
import LarkX.Chain.Keys
import LarkX.Chain.Production
import LarkX.Client.Delegate

/-!
# The secrets of the delegates

A delegate is bound to the secret that its last block committed to:
`update_delegate_production_info` compares the hash of the revealed secret with the one in the
statistics of the delegate, unless it has produced no block. Nothing else in a block touches what a
delegate is bound to, so along a chain the statistics of every account are those of its last block
(`Promises`), also of an account that was registered later or whose key has changed. The last block
is found in the index under the number in the statistics (`RunOf.promises`).
-/

namespace LarkX

open ChainInterface Ledger

variable {crypto : Crypto}

/-- The delegate whose slot a block of a path has. -/
def Link.producer (link : Link crypto) : Option ℤ :=
  link.prev.ledger.slotDelegate link.block.timestamp

/-- The last block of a delegate on a path. -/
def lastOf (links : List (Link crypto)) (id : ℤ) : Option (Link crypto) :=
  links.find? fun link => link.producer = some id

/-- The statistics are bound to the secret of a block, or of none. -/
def DelegateStats.BoundTo (i : DelegateStats) : Option (Link crypto) → Prop
  | none => i.blocksProduced = 0
  | some link => i.blocksProduced ≠ 0 ∧ i.nextSecretHash = link.block.nextSecretHash ∧
      i.lastBlockNumProduced = link.block.blockNum

theorem DelegateStats.BoundTo.sameTerms {i j : DelegateStats} {link : Option (Link crypto)}
    (h : i.BoundTo link) (hsame : i.SameTerms j) : j.BoundTo link := by
  cases link with
  | none => exact hsame.blocksProduced.trans h
  | some link =>
    exact ⟨hsame.blocksProduced.symm ▸ h.1, hsame.nextSecretHash.trans h.2.1,
      hsame.lastBlockNumProduced.trans h.2.2⟩

/-- Along a path, the accounts have the statistics of their last blocks, and their pay rates are
percentages. -/
structure Promises (links : List (Link crypto)) (accounts : Table ℤ AccountRecord) : Prop where
  producers : ∀ link ∈ links, ∃ id, link.producer = some id ∧ accounts[id]? ≠ none
  bound : ∀ (id : ℤ) (r : AccountRecord), accounts[id]? = some r →
    r.stats.BoundTo (lastOf links id)
  payRate : ∀ (id : ℤ) (r : AccountRecord), accounts[id]? = some r → r.stats.payRate ≤ 100

/-! ### A block -/

namespace ChainInterface

variable {c₀ c c' : ChainInterface}

/-- What the writes of a block, once its producer is credited, make of the accounts in `c₀`. -/
structure KeepsSecrets (c₀ c : ChainInterface) : Prop where
  kept : ∀ id : ℤ, c₀.flat.accounts[id]? ≠ none → c.flat.accounts[id]? ≠ none
  secrets : ∀ (id : ℤ) (r : AccountRecord), c.flat.accounts[id]? = some r →
    (∃ r₀, c₀.flat.accounts[id]? = some r₀ ∧ r₀.stats.SameTerms r.stats) ∨
      c₀.flat.accounts[id]? = none ∧ ({} : DelegateStats).SameTerms r.stats

theorem KeepsSecrets.refl (c : ChainInterface) : KeepsSecrets c c :=
  ⟨fun _ h => h, fun _ r hr => Or.inl ⟨r, hr, .refl _⟩⟩

/-- One account is written. -/
theorem KeepsSecrets.account (h : KeepsSecrets c₀ c) (hp : c.IsPending) {r : AccountRecord}
    (hw : AccountWrite crypto c r) : KeepsSecrets c₀ (c.write crypto (.account r)) := by
  have hread : ∀ id : ℤ, (c.write crypto (.account r)).flat.accounts[id]? =
      if id = r.id then some r else c.flat.accounts[id]? := by
    intro id
    rw [flat_write hp]
    exact Table.getElem?_insert ..
  refine ⟨fun id hid => ?_, fun id r' hr' => ?_⟩
  · rw [hread]
    split
    · exact Option.some_ne_none r
    · exact h.kept id hid
  · rw [hread] at hr'
    split at hr'
    · rename_i heq
      cases hr'
      subst heq
      cases hw with
      | updated hold hupdates =>
        obtain ⟨r₀, hr₀, hsame⟩ | ⟨hnone, hsame⟩ := h.secrets _ _ hold
        · exact Or.inl ⟨r₀, hr₀, hsame.trans hupdates.terms⟩
        · exact Or.inr ⟨hnone, hsame.trans hupdates.terms⟩
      | registered hnone _ _ hsecret =>
        refine Or.inr ⟨?_, hsecret⟩
        by_contra hsome
        exact h.kept _ hsome hnone
    · exact h.secrets id r' hr'

/-- The writes of a block after its producer is credited. -/
theorem keepsSecrets_writes (hp : c.IsPending) (h : Writes crypto (AccountStep crypto) c c') :
    KeepsSecrets c c' := by
  refine h.invariant (I := fun c₁ => KeepsSecrets c c₁) (fun c₁ w hp₁ hc₁ hw => ?_) hp (.refl c)
  by_cases haccount : ∃ r, w = .account r
  · obtain ⟨r, rfl⟩ := haccount
    exact hc₁.account hp₁ hw
  · have hsame : (c₁.write crypto w).flat.accounts = c₁.flat.accounts := by
      rw [flat_write hp₁]
      cases w with
      | account r => exact absurd ⟨r, rfl⟩ haccount
      | newAccount r => exact hw.elim
      | _ => rfl
    exact ⟨fun id hid => hsame ▸ hc₁.kept id hid, fun id r hr => hc₁.secrets id r (hsame ▸ hr)⟩

end ChainInterface

/-! ### Paths -/

section Links

variable {link : Link crypto} {links : List (Link crypto)}

theorem lastOf_cons (link : Link crypto) (links : List (Link crypto)) (id : ℤ) :
    lastOf (link :: links) id = if link.producer = some id then some link else lastOf links id := by
  rw [lastOf, List.find?_cons]
  split
  · rename_i h
    rw [if_pos (of_decide_eq_true h)]
  · rename_i h
    rw [if_neg (of_decide_eq_false h)]
    rfl

/-- **Step.** A block binds its producer to the secret it commits to, and nobody else. -/
theorem Promises.cons (h : Promises links link.prev.ledger.accounts)
    (hwell : link.prev.ledger.WellFormed crypto) (hreg : link.prev.ledger.Registered)
    (howned : link.prev.ledger.KeysOwned crypto) :
    Promises (link :: links) link.after.accounts := by
  obtain ⟨hregistry, ⟨active, expected, hactive, hexpected, hrun⟩, hafter⟩ :=
    Link.runs hwell hreg
  have hflat : (link.prev.chain link.wall).push.flat = link.prev.ledger.toTables :=
    Tables.empty_above _
  have hproducer : link.producer = some expected.id :=
    slotDelegate_of_signee (c := link.prev.chain link.wall) hactive hexpected
  obtain ⟨c₁, hproduced, hwrites⟩ := evaluateBlockChanges_accountWrites hregistry hrun
  obtain ⟨signee, r, info, hsignee, hr, -, rfl⟩ := updateProducer_binds hregistry hproduced
  have hfound : (link.prev.chain link.wall).push.getDelegateRecordForSignee crypto
      expected.activeKey = .ok expected := howned.signee hexpected _ _
  cases hfound.symm.trans hsignee
  obtain ⟨hold, hinfo⟩ := getDelegate_eq_ok hr
  have hid : r.id = expected.id := hregistry.keyed.accounts _ r hold
  have hread : ∀ id : ℤ, (((link.prev.chain link.wall).push.write crypto (.account { r with
      delegateInfo := some { info with
        blocksProduced := info.blocksProduced + 1
        nextSecretHash := link.block.nextSecretHash
        lastBlockNumProduced := link.block.blockNum } })).write crypto (.slot
          ⟨link.block.timestamp, expected.id,
            some (crypto.blockId link.block.toSignedBlockHeader)⟩)).flat.accounts[id]? =
      if id = expected.id then some { r with
        delegateInfo := some { info with
          blocksProduced := info.blocksProduced + 1
          nextSecretHash := link.block.nextSecretHash
          lastBlockNumProduced := link.block.blockNum } }
      else link.prev.ledger.accounts[id]? := by
    intro id
    rw [flat_write ((sameBelow_write crypto _ _).pending hregistry.pending),
      flat_write hregistry.pending, hflat, ← hid]
    exact Table.getElem?_insert ..
  have hkeeps := keepsSecrets_writes ((sameBelow_write crypto _ _).pending
    ((sameBelow_write crypto _ _).pending hregistry.pending)) hwrites
  have hkept := (Link.forward hwell hreg).kept
  have hstays : ∀ id : ℤ, link.prev.ledger.accounts[id]? ≠ none →
      link.after.accounts[id]? ≠ none := by
    intro id hid
    obtain ⟨r, hr⟩ := Option.ne_none_iff_exists'.1 hid
    obtain ⟨r', hr', -⟩ := hkept id r hr
    rw [hr']
    exact Option.some_ne_none r'
  rw [hflat] at hold
  have hstored : link.prev.ledger.accounts[expected.id]? ≠ none := by
    change link.prev.ledger.accounts[expected.id]? = some r at hold
    rw [hold]
    exact Option.some_ne_none r
  refine ⟨fun link' hlink' => ?_, fun id r' hr' => ?_, fun id r' hr' => ?_⟩
  · rcases List.mem_cons.1 hlink' with rfl | hlink'
    · exact ⟨_, hproducer, hstays _ hstored⟩
    · obtain ⟨id, hid, hmem⟩ := h.producers link' hlink'
      exact ⟨id, hid, hstays id hmem⟩
  · rw [lastOf_cons, hproducer]
    rcases hkeeps.secrets id r' (hafter id r' hr') with ⟨r₀, hr₀, hsame⟩ | ⟨hnone, hsame⟩
    · rw [hread] at hr₀
      split at hr₀
      · rename_i heq
        cases hr₀
        rw [if_pos (congrArg some heq.symm)]
        exact DelegateStats.BoundTo.sameTerms ⟨Nat.succ_ne_zero _, rfl, rfl⟩ hsame
      · rename_i hne
        rw [if_neg fun heq => hne (Option.some.inj heq).symm]
        exact (h.bound id r₀ hr₀).sameTerms hsame
    · rw [hread] at hnone
      split at hnone
      · cases hnone
      · rename_i hne
        rw [if_neg fun heq => hne (Option.some.inj heq).symm]
        -- it was registered in this block, so no block before is its own
        have hlast : lastOf links id = none := by
          refine List.find?_eq_none.2 fun link' hlink' hproduced => ?_
          obtain ⟨id', hid', hmem⟩ := h.producers link' hlink'
          cases hid'.symm.trans (of_decide_eq_true hproduced)
          exact hmem hnone
        rw [hlast]
        exact hsame.blocksProduced
  · rcases hkeeps.secrets id r' (hafter id r' hr') with ⟨r₀, hr₀, hsame⟩ | ⟨-, hsame⟩
    · refine hsame.payRate ?_
      rw [hread] at hr₀
      split at hr₀
      · cases hr₀
        have hrate := h.payRate _ r hold
        rwa [AccountRecord.stats, hinfo] at hrate
      · exact h.payRate id r₀ hr₀
    · exact hsame.payRate (Nat.zero_le 100)

end Links

namespace Database

open LarkX.Action

/-- `get_block_header( block_num )`. -/
def getBlockHeaderByNum (db : Database) (blockNum : ℕ) : Fallible SignedBlockHeader := do
  let id ← db.getBlockId blockNum
  orThrow db.blockIdToBlockRecordDb[id]? (.assertion "_valid")

variable {config : GenesisBlockConfig} {P : FullBlock → Prop} {K : Database → Event → Prop}
  {genesis ledger : Ledger} {links : List (Link crypto)} {db : Database}

/-- The accounts that a path leaves behind have the statistics of their last blocks. -/
theorem Linked.promises (h : Linked crypto P K genesis links) (hregistered : genesis.Registered)
    (hterms : ∀ (id : ℤ) (r : AccountRecord), genesis.accounts[id]? = some r →
      ({} : DelegateStats).SameTerms r.stats)
    (hkeys : KeysKept crypto links ledger) :
    Promises links (ledgerOf crypto genesis links).accounts := by
  induction h generalizing ledger with
  | nil =>
    exact ⟨fun _ hlink => absurd hlink List.not_mem_nil,
      fun id r hr => (hterms id r hr).blocksProduced,
      fun id r hr => (hterms id r hr).payRate (Nat.zero_le 100)⟩
  | @cons link links _ hprev _ _ _ _ ih =>
    obtain ⟨howned, -, hkeys⟩ := hkeys
    have hbefore := ih hkeys
    rw [← hprev.agrees.accounts] at hbefore
    exact hbefore.cons hprev.wellFormed (hprev.registered hregistered) howned

/-- The headers of a path are found by their numbers, and above the first one each names the one
below it. -/
structure FindsPath (db : Database) (links : List (Link crypto)) : Prop where
  header : ∀ link ∈ links,
    db.getBlockHeaderByNum link.block.blockNum = .ok link.block.toSignedBlockHeader
  parent : ∀ link ∈ links, link.block.blockNum = 1 ∧ link.block.previous = 0 ∨
    1 < link.block.blockNum ∧ ∃ parent,
      db.getBlockHeaderByNum (link.block.blockNum - 1) = .ok parent ∧
        crypto.blockId parent = link.block.previous
  beyond : ∀ blockNum, links.length < blockNum → ∀ header,
    db.getBlockHeaderByNum blockNum ≠ .ok header

theorem getBlockHeaderByNum_eq_ok {blockNum : ℕ} {header : SignedBlockHeader} :
    db.getBlockHeaderByNum blockNum = .ok header ↔ ∃ id, db.blockNumToIdDb[blockNum]? = some id ∧
      db.blockIdToBlockRecordDb[id]? = some header := by
  simp only [getBlockHeaderByNum, getBlockId, bind_eq_ok, orThrow_eq_ok]

theorem Indexed.findsPath (hids : crypto.IdealIds) (h : Indexed db (links.map Link.id))
    (htracks : Tracks crypto P K genesis db links) (hkept : ∀ db ev, K db ev → IndexKept db ev) :
    db.FindsPath links := by
  have hchain := (htracks.linked.mono (onBlocks_of_indexKept hkept)).headerChain hids
  have hindex : ∀ (i : ℕ) (link : Link crypto), links.reverse[i]? = some link →
      db.getBlockHeaderByNum (i + 1) = .ok link.block.toSignedBlockHeader := by
    intro i link hlink
    refine getBlockHeaderByNum_eq_ok.2 ⟨link.id, ?_, htracks.records link
      (List.mem_reverse.1 (List.mem_of_getElem? hlink))⟩
    rw [h.index, ← List.map_reverse, List.getElem?_map, hlink]
    rfl
  have hposition : ∀ link ∈ links, ∃ i : ℕ, links.reverse[i]? = some link := by
    intro link hlink
    exact List.getElem?_of_mem (List.mem_reverse.2 hlink)
  refine ⟨fun link hlink => ?_, fun link hlink => ?_, fun blockNum hlt header hheader => ?_⟩
  · obtain ⟨i, hi⟩ := hposition link hlink
    rw [(hchain.block i link hi).1]
    exact hindex i link hi
  · obtain ⟨i, hi⟩ := hposition link hlink
    obtain ⟨hnumber, hprevious⟩ := hchain.block i link hi
    cases i with
    | zero =>
      rw [List.getElem?_cons_zero] at hprevious
      exact Or.inl ⟨hnumber, (Option.some.inj hprevious).symm⟩
    | succ i =>
      rw [List.getElem?_cons_succ, ← List.map_reverse, List.getElem?_map,
        Option.map_eq_some_iff] at hprevious
      obtain ⟨parent, hparent, hid⟩ := hprevious
      refine Or.inr ⟨by omega, parent.block.toSignedBlockHeader, ?_, hid⟩
      rw [hnumber, Nat.add_sub_cancel]
      exact hindex i parent hparent
  · obtain ⟨id, hid, -⟩ := getBlockHeaderByNum_eq_ok.1 hheader
    obtain ⟨i, rfl⟩ := Nat.exists_eq_add_of_lt hlt
    rw [Nat.add_assoc, ← Nat.add_assoc, h.index, List.getElem?_eq_none] at hid
    · cases hid
    · rw [List.length_reverse, List.length_map]
      exact Nat.le_add_right _ _

/-- **The secrets along a run** that keeps the index: the accounts are bound to their last blocks,
and these are found by their numbers. -/
theorem RunOf.promises (hids : crypto.IdealIds) (hnames : config.DistinctNames)
    (hkeys : config.DistinctKeys crypto)
    (h : RunOf crypto config (fun _ => True) IndexKept db) :
    ∃ g, initializeGenesis crypto config = .ok g ∧ ∃ links,
      Tracks crypto (fun _ => True) IndexKept g.ledger db links ∧
        Promises links db.ledger.accounts ∧ db.ledger.KeysOwned crypto ∧ db.FindsPath links := by
  obtain ⟨g, hg, links, htracks, halong⟩ := h.along
    (J := fun db links => KeysAlong crypto db links) hids
    (fun g hg => ⟨(initializeGenesis_ownedIn hkeys hg).toKeysOwned, trivial⟩)
    (fun _ _ hJ => ⟨hJ.owned, hJ.kept⟩) fun g hg _ _ _ _ _ htracks hJ hmoves _ =>
      (hmoves.keysAlong htracks (initializeGenesis_registered hnames hg) hJ).1
  obtain ⟨g', hg', links', htracks', hindexed⟩ := h.indexed hids fun _ _ h => h
  cases hg.symm.trans hg'
  -- the two paths end in the head, so they are of the same blocks
  have hsame : links.map Link.id = links'.map Link.id :=
    htracks.linked.unique hids htracks'.linked (htracks.id.symm.trans htracks'.id)
  have hpromises := htracks.linked.promises (initializeGenesis_registered hnames hg)
    (fun id r hr => by
      obtain ⟨-, -, n, name, -, -, -, -, hterms⟩ :=
        (initializeGenesis_ownedIn hkeys hg).allowed id r hr
      exact hterms) halong.kept
  rw [← htracks.agrees.accounts] at hpromises
  exact ⟨g, hg, links, htracks, hpromises, halong.owned,
    Indexed.findsPath hids (hsame ▸ hindexed) htracks fun _ _ h => h⟩

end Database

end LarkX
