import LarkX.Chain.Slots
import LarkX.Chain.Queue
import LarkX.Chain.Secrets
import LarkX.Wallet.KeyStore
import Mathlib.Data.Char
import Mathlib.Data.List.Lex

/-!
# A delegate signs its block

A block commits to the secret of its delegate, by the hash of it, and reveals the one that its last
block committed to. The wallet keeps none of the two: `get_secret( block_num, key )` computes the
secret of a block number again from the private key and the id of the block before it.

`sign_block` fills both into the header of a new block and signs it with the key of the delegate
whose slot it is (`Signs`).
-/

namespace LarkX

/-- What `sign_block` takes from its cryptography, beside what the chain checks with. A compact
signature is canonical, and the key is recovered from it. -/
structure BlockSigner (crypto : Crypto) extends WalletCrypto where
  /-- `sign_compact( digest )`. -/
  signCompact : PrivateKey → Digest → Signature
  /-- The hash in `get_secret`, of a private key and the id of a block. -/
  secret : PrivateKey → BlockId → SecretHash
  recover_sign : ∀ key digest enforceCanonical,
    crypto.recover (signCompact key digest) digest enforceCanonical = some (publicKey key)

/-- The exceptions of block production. -/
inductive ProducerError
  | chain (e : Error)
  | wallet (e : WalletError)
  | invalidTimestamp
  deriving DecidableEq

/-- A call to the chain database. -/
def chainCall {α : Type} (x : Fallible α) : Except ProducerError α :=
  x.mapError .chain

/-- A call to the wallet's database. -/
def walletCall {α : Type} (x : Except WalletError α) : Except ProducerError α :=
  x.mapError .wallet

theorem chainCall_eq_ok {α : Type} {x : Fallible α} {a : α} : chainCall x = .ok a ↔ x = .ok a := by
  cases x with
  | error e => exact iff_of_false nofun nofun
  | ok b =>
    exact ⟨fun h => congrArg Except.ok (Except.ok.inj h), fun h => congrArg _ (Except.ok.inj h)⟩

theorem walletCall_eq_ok {α : Type} {x : Except WalletError α} {a : α} :
    walletCall x = .ok a ↔ x = .ok a := by
  cases x with
  | error e => exact iff_of_false nofun nofun
  | ok b =>
    exact ⟨fun h => congrArg Except.ok (Except.ok.inj h), fun h => congrArg _ (Except.ok.inj h)⟩

/-! ### The wallet -/

/-- `wallet_account_record`, without what is of no use for a delegate. -/
structure WalletAccountRecord extends AccountRecord where
  isMyAccount : Bool := false
  blockProductionEnabled : Bool := false

/-- `wallet`, as the delegate loop sees it. -/
structure Wallet where
  walletDb : WalletDb := {}
  btcToBtsAddress : Table Address Address := ∅
  /-- The accounts, in the order of the hash map. -/
  accounts : List WalletAccountRecord := []
  walletPassword : Password := 0

/-- The flags of `delegate_status_flags`. -/
def enabledDelegateStatus : ℕ := 0x01
def activeDelegateStatus : ℕ := 0x02
def disabledDelegateStatus : ℕ := 0x04
def inactiveDelegateStatus : ℕ := 0x08

namespace Wallet

variable {crypto : Crypto} (signer : BlockSigner crypto) (w : Wallet)

/-- `is_open()`. -/
def isOpen : Bool :=
  w.walletDb.records.isOpen

/-- `is_locked()`. -/
def isLocked : Except WalletError Bool := do
  require (w.isOpen = true) (.assertion "is_open()")
  return w.walletPassword == 0

/-- `is_unlocked()`. -/
def isUnlocked : Except WalletError Bool := do
  require (w.isOpen = true) (.assertion "is_open()")
  return !(← w.isLocked)

/-- `list_my_accounts()`. -/
def listMyAccounts : List WalletAccountRecord :=
  (w.accounts.filter WalletAccountRecord.isMyAccount).insertionSort fun a b => a.name ≤ b.name

/-- Whether `get_my_delegates` retrieves an account. -/
def retrieves (db : Database) (wall delegatesToRetrieve : ℕ) (r : WalletAccountRecord) :
    Fallible Bool := do
  if r.isDelegate = false then return false
  if delegatesToRetrieve &&& enabledDelegateStatus ≠ 0 ∧ r.blockProductionEnabled = false then
    return false
  if delegatesToRetrieve &&& disabledDelegateStatus ≠ 0 ∧ r.blockProductionEnabled = true then
    return false
  if delegatesToRetrieve &&& activeDelegateStatus ≠ 0 then
    if (← (db.chain wall).isActiveDelegate r.id) = false then return false
  if delegatesToRetrieve &&& inactiveDelegateStatus ≠ 0 then
    if (← (db.chain wall).isActiveDelegate r.id) = true then return false
  return true

/-- `get_my_delegates( delegates_to_retrieve )`. -/
def getMyDelegates (db : Database) (wall delegatesToRetrieve : ℕ) :
    Except ProducerError (List WalletAccountRecord) := do
  walletCall (require (w.isOpen = true) (.assertion "is_open()"))
  chainCall (w.listMyAccounts.filterM (retrieves db wall delegatesToRetrieve))

/-- `get_next_producible_block_timestamp( delegate_records )`. -/
def getNextProducibleBlockTimestamp (db : Database) (wall : ℕ)
    (delegateRecords : List WalletAccountRecord) : Except ProducerError (Option ℕ) := do
  if w.isOpen = false ∨ (← walletCall w.isLocked) = true then return none
  else
    chainCall (db.getNextProducibleBlockTimestamp wall (delegateRecords.map fun r => r.id))

/-- `wallet_db::lookup_key( address )`. -/
def lookupKey (address : Address) : Option KeyRecord :=
  match w.btcToBtsAddress[address]? with
  | some address => w.walletDb.keys[address]?
  | none => none

/-- `get_private_key( addr )`. -/
def getPrivateKey (address : Address) : Except WalletError PrivateKey := do
  require (w.isOpen = true) (.assertion "is_open()")
  require ((← w.isUnlocked) = true) (.assertion "is_unlocked()")
  let key ← orThrow (w.lookupKey address) (.assertion "key.valid()")
  require (key.hasPrivateKey = true) (.assertion "key->has_private_key()")
  key.decryptPrivateKey signer.toWalletCrypto w.walletPassword

end Wallet

/-! ### Secrets -/

namespace BlockSigner

variable {crypto : Crypto} (signer : BlockSigner crypto)

/-- `get_secret( block_num, delegate_key )`. -/
def getSecret (db : Database) (blockNum : ℕ) (delegateKey : PrivateKey) : Fallible SecretHash := do
  if blockNum ≠ 2 ^ 32 - 1 ∧ 1 < blockNum then do
    let blockHeader ← db.getBlockHeaderByNum (blockNum - 1)
    return signer.secret delegateKey (crypto.blockId blockHeader)
  else return signer.secret delegateKey 0

/-- `sign_block( header )`. -/
def signBlock (w : Wallet) (db : Database) (wall : ℕ) (header : SignedBlockHeader) :
    Except ProducerError SignedBlockHeader := do
  let unlocked ← walletCall w.isUnlocked
  walletCall (require (unlocked = true) (.assertion "is_unlocked()"))
  require (header.timestamp ≠ 0) .invalidTimestamp
  let active ← chainCall (db.chain wall).getActiveDelegates
  let delegateRecord ← chainCall ((db.chain wall).getSlotSignee header.timestamp active)
  let info ← chainCall (orThrow delegateRecord.delegateInfo
    (.assertion "delegate_record.is_delegate() && delegate_record.delegate_info.valid()"))
  let delegatePubKey := delegateRecord.activeKey
  let delegateKey ← walletCall (w.getPrivateKey signer (crypto.keyAddress delegatePubKey))
  walletCall (require (delegatePubKey = signer.publicKey delegateKey)
    (.assertion "delegate_pub_key == delegate_key.get_public_key()"))
  let previousSecret ← chainCall (signer.getSecret db info.lastBlockNumProduced delegateKey)
  let nextSecret ←
    chainCall (signer.getSecret db ((db.headBlockNum + 1) % 2 ^ 32) delegateKey)
  let filled : BlockHeader := { header.toBlockHeader with
    previousSecret
    nextSecretHash := crypto.secretHash nextSecret }
  let signature := signer.signCompact delegateKey (crypto.headerDigest filled)
  chainCall (require (crypto.recover signature (crypto.headerDigest filled) false =
    some delegatePubKey) (.assertion "header.validate_signee( delegate_pub_key )"))
  return { filled with delegateSignature := signature }

/-- What a signed header is: `r`, with the statistics `info`, is the delegate of the slot, and `key`
its private key. -/
structure Signs (w : Wallet) (db : Database) (wall : ℕ) (header signed : SignedBlockHeader)
    (r : AccountRecord) (info : DelegateStats) (key : PrivateKey) : Prop where
  unlocked : w.isUnlocked = .ok true
  timestamp : header.timestamp ≠ 0
  signee : ∃ active, (db.chain wall).getActiveDelegates = .ok active ∧
    (db.chain wall).getSlotSignee header.timestamp active = .ok r
  statistics : r.delegateInfo = some info
  privateKey : w.getPrivateKey signer (crypto.keyAddress r.activeKey) = .ok key
  publicKey : r.activeKey = signer.publicKey key
  previousSecret : signer.getSecret db info.lastBlockNumProduced key = .ok signed.previousSecret
  nextSecret : ∃ secret, signer.getSecret db ((db.headBlockNum + 1) % 2 ^ 32) key = .ok secret ∧
    signed.nextSecretHash = crypto.secretHash secret
  header : signed.toBlockHeader = { header.toBlockHeader with
    previousSecret := signed.previousSecret
    nextSecretHash := signed.nextSecretHash }
  signature : signed.delegateSignature =
    signer.signCompact key (crypto.headerDigest signed.toBlockHeader)

variable {signer} {w : Wallet} {db : Database} {wall : ℕ} {header signed : SignedBlockHeader}

theorem signBlock_signs (h : signer.signBlock w db wall header = .ok signed) :
    ∃ r info key, signer.Signs w db wall header signed r info key := by
  simp only [signBlock, bind_eq_ok, walletCall_eq_ok, chainCall_eq_ok, require_eq_ok,
    orThrow_eq_ok, pure_eq_ok] at h
  obtain ⟨_, hunlocked, -, rfl, -, htime, active, hactive, r, hr, info, hinfo, key, hkey, -,
    hpublic, previousSecret, hprevious, nextSecret, hnext, -, -, rfl⟩ := h
  exact ⟨r, info, key, hunlocked, htime, ⟨active, hactive, hr⟩, hinfo, hkey, hpublic, hprevious,
    ⟨nextSecret, hnext, rfl⟩, rfl, rfl⟩

/-- Whoever checks the signature finds the active key of the delegate. -/
theorem Signs.signee_eq {r : AccountRecord} {info : DelegateStats} {key : PrivateKey}
    (h : signer.Signs w db wall header signed r info key) (enforceCanonical : Bool) :
    crypto.signee signed enforceCanonical = .ok r.activeKey := by
  rw [Crypto.signee, orThrow_eq_ok, h.signature, signer.recover_sign, h.publicKey]

end BlockSigner

/-! ### A small wallet -/

/-- Keys written out, and the password ignored. -/
def plainSealing : Sealing ℕ where
  encrypt _ key := List.replicate (key + 1) 0
  decrypt _ sealed := some (sealed.length - 1)
  decrypt_encrypt _ key := by rw [List.length_replicate, Nat.add_sub_cancel]
  encrypt_ne_nil _ key := List.replicate_succ ▸ List.cons_ne_nil _ _

/-- In the transparent instance a key is its own public key, and its signature. -/
def transparentSigner : BlockSigner .transparent where
  masterKeys := plainSealing
  privateKeys := plainSealing
  publicKey key := key
  keyAddress := Crypto.transparent.keyAddress
  passwordHash password := password
  signCompact key _ := key
  secret := Nat.pair
  recover_sign _ _ _ := rfl

/-- A wallet that has the delegate `id` of the small chain, and its key. -/
def smallWallet (id : ℕ) : Wallet where
  walletDb.records.isOpen := true
  walletDb.keys := (∅ : Table Address KeyRecord).insert (Crypto.transparent.keyAddress id)
    (KeyRecord.sealed transparentSigner.toWalletCrypto ⟨masterKeyIndex, id, []⟩ 7 id)
  btcToBtsAddress := (∅ : Table Address Address).insert (Crypto.transparent.keyAddress id)
    (Crypto.transparent.keyAddress id)
  accounts := [{
    id := id
    delegateInfo := some {}
    isMyAccount := true
    blockProductionEnabled := true }]
  walletPassword := 7

end LarkX
