import LarkX.Db.LevelMap
import LarkX.ForMathlib.Outcome
import LarkX.Types.Basic

/-!
# The keys of a wallet

A wallet keeps its master key and its private keys encrypted with a password, in memory and, under
the index of the record, in a LevelDB. Changing the password encrypts them again, one after the
other: first the master key, then the other keys in the order of the hash map they are in.

Encryption is given: what is encrypted with a password is decrypted with it. A password is a hash;
the hash of nothing is none.
-/

namespace LarkX

/-- The SHA-512 hash of a passphrase; zero is `fc::sha512()`. -/
abbrev Password := ℕ
abbrev PrivateKey := ℕ
abbrev ExtendedPrivateKey := ℕ

/-- `fc::aes_encrypt` of a packed key, and `fc::aes_decrypt`, which throws where the password is not
the right one. -/
structure Sealing (κ : Type) where
  encrypt : Password → κ → List UInt8
  decrypt : Password → List UInt8 → Option κ
  decrypt_encrypt : ∀ password key, decrypt password (encrypt password key) = some key
  encrypt_ne_nil : ∀ password key, encrypt password key ≠ []

/-- What the wallet takes from its cryptography. -/
structure WalletCrypto where
  masterKeys : Sealing ExtendedPrivateKey
  privateKeys : Sealing PrivateKey
  /-- `get_public_key()`. -/
  publicKey : PrivateKey → PublicKey
  /-- `address( public_key_type )`. -/
  keyAddress : PublicKey → Address
  /-- `fc::sha512::hash( password )`. -/
  passwordHash : Password → ℕ

/-- The exceptions of the wallet's key store. -/
inductive WalletError
  | assertion (text : String)
  | aes
  | db (e : DbError)
  deriving DecidableEq

/-- The `wallet_record_index` of a record that has one. -/
abbrev RecordIndex := { index : ℤ // index ≠ 0 }

/-- The index of the record of the master key. -/
def masterKeyIndex : RecordIndex :=
  ⟨-1, by decide⟩

/-! ### The records -/

/-- `wallet_master_key_record`. -/
structure MasterKeyRecord where
  index : RecordIndex
  encryptedKey : List UInt8
  checksum : ℕ

/-- `wallet_key_record`, without what is of no use for its private key. -/
structure KeyRecord where
  index : RecordIndex
  publicKey : PublicKey
  encryptedPrivateKey : List UInt8

variable (c : WalletCrypto)

/-- `master_key::decrypt_key`. -/
def MasterKeyRecord.decryptKey (r : MasterKeyRecord) (password : Password) :
    Except WalletError ExtendedPrivateKey := do
  require (password ≠ 0) (.assertion "password != fc::sha512()")
  require (0 < r.encryptedKey.length) (.assertion "encrypted_key.size()")
  orThrow (c.masterKeys.decrypt password r.encryptedKey) .aes

/-- `master_key::encrypt_key`, of a record with this index. -/
def encryptKey (index : RecordIndex) (password : Password) (k : ExtendedPrivateKey) :
    Except WalletError MasterKeyRecord := do
  require (password ≠ 0) (.assertion "password != fc::sha512()")
  let r : MasterKeyRecord := ⟨index, c.masterKeys.encrypt password k, c.passwordHash password⟩
  let _ ← r.decryptKey c password
  return r

namespace KeyRecord

/-- `has_private_key`. -/
def hasPrivateKey (r : KeyRecord) : Bool :=
  0 < r.encryptedPrivateKey.length

/-- `decrypt_private_key`. -/
def decryptPrivateKey (r : KeyRecord) (password : Password) : Except WalletError PrivateKey := do
  require (password ≠ 0) (.assertion "password != fc::sha512()")
  orThrow (c.privateKeys.decrypt password r.encryptedPrivateKey) .aes

/-- The record with its private key encrypted. -/
def sealed (r : KeyRecord) (password : Password) (key : PrivateKey) : KeyRecord :=
  { r with
    publicKey := c.publicKey key
    encryptedPrivateKey := c.privateKeys.encrypt password key }

/-- `encrypt_private_key`. -/
def encryptPrivateKey (r : KeyRecord) (password : Password) (keyToEncrypt : PrivateKey) :
    Except WalletError KeyRecord := do
  require (password ≠ 0) (.assertion "password != fc::sha512()")
  let decrypted ← (r.sealed c password keyToEncrypt).decryptPrivateKey c password
  require (keyToEncrypt = decrypted)
    (.assertion "key_to_encrypt == decrypt_private_key( password )")
  return r.sealed c password keyToEncrypt

end KeyRecord

/-- `generic_wallet_record`. -/
inductive GenericRecord
  | masterKey (r : MasterKeyRecord)
  | key (r : KeyRecord)
  | other

/-! ### The wallet -/

/-- `wallet_db`. -/
structure WalletDb where
  records : LevelMap ℤ GenericRecord := {}
  masterKey : Option MasterKeyRecord := none
  keys : Table Address KeyRecord := ∅

/-- A member function: what it has changed stays changed when it throws. -/
abbrev WalletM := EStateM WalletError WalletDb

namespace WalletDb

/-- `load_generic_record`. -/
def loadGenericRecord : GenericRecord → WalletM Unit
  | .masterKey r => modify fun s => { s with masterKey := some r }
  | .key r => modify fun s => { s with keys := s.keys.insert (c.keyAddress r.publicKey) r }
  | .other => pure ()

/-- `store_record`, of a record that has an index. -/
def storeRecord (index : RecordIndex) (record : GenericRecord) : WalletM Unit := do
  let s ← get
  ofExcept (require (s.records.isOpen = true) (.assertion "_records.is_open()"))
  match s.records.store index.1 record with
  | .error e => throw (.db e)
  | .ok records =>
    set { s with records := records }
    loadGenericRecord c record

/-- `set_master_key`. -/
def setMasterKey (extendedKey : ExtendedPrivateKey) (newPassword : Password) : WalletM Unit := do
  let keyRecord ← ofExcept (encryptKey c masterKeyIndex newPassword extendedKey)
  storeRecord c keyRecord.index (.masterKey keyRecord)

/-- The loop of `change_password`, for one key. -/
def changeKey (oldPassword newPassword : Password) (key : Address × KeyRecord) : WalletM Unit :=
  if key.2.hasPrivateKey then do
    let privKey ← ofExcept (key.2.decryptPrivateKey c oldPassword)
    let keyRecord ← ofExcept (key.2.encryptPrivateKey c newPassword privKey)
    storeRecord c keyRecord.index (.key keyRecord)
  else pure ()

/-- `change_password`. `keyOrder` lists the keys in the order of the hash map. -/
def changePassword (keyOrder : List (Address × KeyRecord)) (oldPassword newPassword : Password) :
    WalletM Unit := do
  let s ← get
  let masterKey ← ofExcept (orThrow s.masterKey (.assertion "wallet_master_key"))
  let oldKey ← ofExcept (masterKey.decryptKey c oldPassword)
  setMasterKey c oldKey newPassword
  keyOrder.forM (changeKey c oldPassword newPassword)

end WalletDb

/-- A wallet that is open: its keys are those of the LevelDB. The record of a key is under the
address of its public key, and the private key in it, if it is decrypted, is the one of the public
key. -/
structure OpenWallet extends WalletDb where
  isOpen : records.isOpen = true
  masterKey_stored : ∀ r, masterKey = some r ↔ records.entries[(-1 : ℤ)]? = some (.masterKey r)
  key_stored : ∀ (address : Address) (r : KeyRecord), keys[address]? = some r →
    records.entries[r.index.1]? = some (.key r)
  key_loaded : ∀ (index : ℤ) (r : KeyRecord), records.entries[index]? = some (.key r) →
    keys[c.keyAddress r.publicKey]? = some r
  address : ∀ (address : Address) (r : KeyRecord), keys[address]? = some r →
    c.keyAddress r.publicKey = address
  own : ∀ (address : Address) (r : KeyRecord), keys[address]? = some r → ∀ password key,
    c.privateKeys.decrypt password r.encryptedPrivateKey = some key → c.publicKey key = r.publicKey
  /-- The keys in the order of the hash map. -/
  keyOrder : List (Address × KeyRecord)
  keyOrder_perm : keyOrder.Perm keys.toList

end LarkX
