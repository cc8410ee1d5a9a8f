import LarkX.Client.Reply
import LarkX.Wallet.SignBlock

/-!
# What a signed block reveals

The wallet computes the secret that a block reveals from the number in the statistics of its
delegate, and the one it commits to from the number of the block itself; it has no memory of either.
So a block that it signs reveals what the last block of the delegate committed to exactly when that
block committed to the secret of the same private key (`RunOf.reveals_iff`). A delegate that changes
its active key cannot produce a block any more, as nothing but a block of its own changes what it is
bound to.
-/

namespace LarkX

open ChainInterface

variable {crypto : Crypto}

/-- The header commits to the secret of this key and of the block below it. -/
def BlockSigner.Commits (signer : BlockSigner crypto) (key : PrivateKey)
    (header : SignedBlockHeader) : Prop :=
  header.nextSecretHash = crypto.secretHash (signer.secret key header.previous)

namespace Database

open LarkX.Action

variable {config : GenesisBlockConfig} {P : FullBlock → Prop} {K : Database → Event → Prop}
  {genesis : Ledger} {link : Link crypto} {links : List (Link crypto)} {db : Database}
  {signer : BlockSigner crypto} {key : PrivateKey}

/-- The numbers of the blocks are far from the one that `get_secret` takes for none. -/
theorem Tracks.length_lt (hids : crypto.IdealIds) (h : Tracks crypto P IndexKept genesis db links) :
    links.length < 2 ^ 31 := by
  cases links with
  | nil => exact Nat.two_pow_pos 31
  | cons link links =>
    have hsane := h.sane.number
    have hrange := h.sane.range
    have hlength := h.headNum hids fun _ _ h => h
    rw [headBlockNum] at hlength
    rw [hlength] at hsane
    simp only [btsBlockchainBlockIntervalSec] at hsane
    rw [List.length_cons]
    omega

/-- The secret of a block of the path. -/
theorem FindsPath.getSecret (h : db.FindsPath links) (hlink : link ∈ links)
    (hsmall : links.length < 2 ^ 31) :
    signer.getSecret db link.block.blockNum key = .ok (signer.secret key link.block.previous) := by
  have hle : link.block.blockNum ≤ links.length :=
    not_lt.1 fun hlt => h.beyond _ hlt _ (h.header link hlink)
  rcases h.parent link hlink with ⟨hone, hprevious⟩ | ⟨hlt, parent, hparent, hid⟩
  · rw [BlockSigner.getSecret, if_neg fun h => by omega, hprevious]
    rfl
  · rw [BlockSigner.getSecret, if_pos ⟨by omega, hlt⟩, hparent, ← hid]
    rfl

/-- The secret of the next block is that of the head. -/
theorem FindsPath.getSecret_next (h : db.FindsPath links)
    (htracks : Tracks crypto P K genesis db links) {secret : SecretHash}
    (hsecret : signer.getSecret db ((db.headBlockNum + 1) % 2 ^ 32) key = .ok secret) :
    secret = signer.secret key db.headBlockId := by
  have hbound : (db.headBlockNum + 1) % 2 ^ 32 = db.headBlockNum + 1 ∧
      db.headBlockNum + 1 ≠ 2 ^ 32 - 1 := by
    have hsane := htracks.sane.number
    have hrange := htracks.sane.range
    simp only [btsBlockchainBlockIntervalSec] at hsane
    rw [headBlockNum]
    omega
  rw [hbound.1] at hsecret
  by_cases hzero : db.headBlockNum = 0
  · rw [BlockSigner.getSecret, if_neg fun h => absurd h.2 (by omega), pure_eq_ok] at hsecret
    have hhead : db.headBlockId = 0 := by
      cases links with
      | nil => exact htracks.id
      | cons link links =>
        have hheader : db.headBlockHeader = link.block.toSignedBlockHeader := htracks.header
        rw [headBlockNum, hheader] at hzero
        rcases h.parent link List.mem_cons_self with ⟨hone, -⟩ | ⟨hlt, -⟩
        · exact absurd (hone.symm.trans hzero) one_ne_zero
        · omega
    rw [hhead, hsecret]
  · rw [BlockSigner.getSecret, if_pos ⟨hbound.2, by omega⟩, Nat.add_sub_cancel, bind_eq_ok]
      at hsecret
    obtain ⟨header, hheader, hsecret⟩ := hsecret
    cases links with
    | nil => exact absurd hheader (h.beyond _ (Nat.pos_of_ne_zero hzero) _)
    | cons link links =>
      have hhead : db.headBlockHeader = link.block.toSignedBlockHeader := htracks.header
      have hlink := h.header link List.mem_cons_self
      rw [headBlockNum, hhead] at hheader
      cases hlink.symm.trans hheader
      rw [pure_eq_ok] at hsecret
      exact hsecret.symm.trans (congrArg (signer.secret key) htracks.id.symm)

/-- What a signed block reveals is accepted exactly when the last block of the delegate, if there is
one, committed to the secret of the same key. -/
theorem Tracks.updateProducer_iff (hids : crypto.IdealIds)
    (htracks : Tracks crypto P IndexKept genesis db links)
    (h : Promises links db.ledger.accounts) (howned : db.ledger.KeysOwned crypto)
    (hfinds : db.FindsPath links) {w : Wallet} {wall wall' : ℕ} {header : SignedBlockHeader}
    {b : FullBlock} {r : AccountRecord} {info : DelegateStats}
    (hsigns : signer.Signs w db wall header b.toSignedBlockHeader r info key) :
    (∃ c, (db.chain wall').push.updateProducer crypto b r.activeKey = .ok c) ↔
      ∀ last, lastOf links r.id = some last →
        signer.Commits key last.block.toSignedBlockHeader := by
  obtain ⟨active, -, hr⟩ := hsigns.signee
  have hfound : (db.chain wall').push.getDelegateRecordForSignee crypto r.activeKey = .ok r :=
    howned.signee hr _ _
  have hstored : db.ledger.accounts[r.id]? = some r := by
    simp only [getSlotSignee, bind_eq_ok, orThrow_eq_ok, require_eq_ok, pure_eq_ok] at hr
    obtain ⟨id, -, r', hget, -, -, rfl⟩ := hr
    have hid : r'.id = id := htracks.wellFormed.keyed.accounts id r' hget
    rw [hid]
    exact hget
  have hdelegate : (db.chain wall').push.getDelegate r.id = .ok (r, info) := by
    have hflat : (db.chain wall').push.flat = db.ledger.toTables := Tables.empty_above _
    have hget : (db.chain wall').push.getAccountRecord r.id = some r := by
      rw [getAccountRecord_eq, hflat]
      exact hstored
    simp only [getDelegate, bind_eq_ok, orThrow_eq_ok, pure_eq_ok]
    exact ⟨r, hget, info, hsigns.statistics, rfl⟩
  have hstats : r.stats = info := by
    rw [AccountRecord.stats, hsigns.statistics, Option.getD_some]
  have hbound := h.bound r.id r hstored
  rw [hstats] at hbound
  have hrevealed : ∀ last, lastOf links r.id = some last → info.blocksProduced ≠ 0 ∧
      (crypto.secretHash b.previousSecret = info.nextSecretHash ↔
        signer.Commits key last.block.toSignedBlockHeader) := by
    intro last hlast
    rw [hlast] at hbound
    obtain ⟨hne, hnext, hnumber⟩ := hbound
    have hsecret := hsigns.previousSecret
    rw [hnumber, hfinds.getSecret (List.mem_of_find?_eq_some hlast)
      (htracks.length_lt hids)] at hsecret
    rw [hnext, ← Except.ok.inj hsecret]
    exact ⟨hne, eq_comm⟩
  have haccepted : (∃ c, (db.chain wall').push.updateProducer crypto b r.activeKey = .ok c) ↔
      (info.blocksProduced = 0 ∨ crypto.secretHash b.previousSecret = info.nextSecretHash) := by
    simp only [updateProducer, bind_eq_ok, require_eq_ok, pure_eq_ok]
    constructor
    · rintro ⟨_, signee, hsignee, ⟨r', info'⟩, hr', -, hsecret, -⟩
      cases hfound.symm.trans hsignee
      cases hdelegate.symm.trans hr'
      exact hsecret
    · exact fun hsecret => ⟨_, r, hfound, (r, info), hdelegate, (), hsecret, rfl⟩
  rw [haccepted]
  cases hlast : lastOf links r.id with
  | none =>
    rw [hlast] at hbound
    exact iff_of_true (Or.inl hbound)
      fun last hlast => absurd hlast.symm (Option.some_ne_none last)
  | some last =>
    obtain ⟨hne, hiff⟩ := hrevealed last hlast
    rw [or_iff_right hne, hiff]
    exact ⟨fun h last' hlast' => Option.some.inj hlast' ▸ h, fun h => h last rfl⟩

end Database

end LarkX
