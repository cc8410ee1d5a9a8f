import LarkX.Types.Records
import Mathlib.Data.Nat.Pairing

/-!
# Operations, transactions and blocks

The inputs of the chain: the operations a transaction is made of, signed transactions, block
headers and blocks, and the genesis configuration. The last section collects what the code
takes from its cryptography and big-float libraries as one parameter, `Crypto`: every hash,
every key recovery and every piece of arithmetic the chain calls but does not define.
-/

namespace LarkX

/-! ### Operations -/

/-- `pts_address`: an external address, with its version byte. -/
structure PtsAddress where
  version : ℕ := 0
  body : ℕ := 0
  deriving DecidableEq, Repr

/-- `claim_input_data` of a withdrawal: nothing, a packed `withdraw_with_pts`, or bytes that
do not unpack. -/
inductive ClaimInputData
  | empty
  | withPts (newKey : PublicKey) (ptsSignature : Signature)
  | malformed
  deriving DecidableEq, Repr

/-- `operation`, unpacked. The operations whose evaluation is switched off carry no data; an
unregistered type byte is `unknown`. -/
inductive Operation
  | withdraw (balanceId : BalanceId) (amount : ℤ) (claimInputData : ClaimInputData)
  | deposit (amount : ℤ) (condition : WithdrawCondition)
  | claim (balanceId : BalanceId) (amount : ℤ) (source : PtsAddress) (dest : PublicKey)
      (sig : Signature)
  | burn (amount : Asset) (accountId : ℤ) (message : List Char)
      (messageSignature : Option Signature)
  | registerAccount (name : Name) (publicData : ℕ) (ownerKey activeKey : PublicKey)
      (delegatePayRate : ℕ) (metaData : Option ℕ)
  | updateAccount (accountId : ℤ) (publicData : Option ℕ) (activeKey : Option PublicKey)
      (delegatePayRate : ℕ)
  | withdrawPay (amount : ℤ) (accountId : ℤ)
  | defineDelegateSlate (supportedDelegates : List ℤ)
  | bid (amount : ℤ) (bidIndex : MarketIndexKey)
  | ask (amount : ℤ) (askIndex : MarketIndexKey)
  | short (amount : ℤ) (shortIndex : MarketIndexKey) (shortPriceLimit : Option Price)
  | cover (amount : ℤ) (coverIndex : MarketIndexKey) (newCoverPrice : Option Price)
  | addCollateral (amount : ℤ) (coverIndex : MarketIndexKey)
  | updateFeed (feed : FeedIndex) (value : FeedValue)
  | withdrawAll
  | removeCollateral
  | linkAccount
  | releaseEscrow
  | unknown (type : ℕ)
  deriving DecidableEq, Repr

/-- The amount an operation names. -/
def Operation.namedAmount : Operation → ℤ
  | .withdraw _ amount _ | .deposit amount _ | .claim _ amount _ _ _ | .withdrawPay amount _ => amount
  | .burn amount _ _ _ => amount.amount
  | .bid amount _ | .ask amount _ | .short amount _ _ => amount
  | .cover amount _ _ | .addCollateral amount _ => amount
  | _ => 0

/-! ### Transactions -/

/-- `transaction`: what `digest` covers. -/
structure Transaction where
  expiration : ℕ := 0
  delegateSlateId : Option SlateId := none
  operations : List Operation := []
  deriving DecidableEq, Repr

/-- `signed_transaction`. -/
structure SignedTransaction extends Transaction where
  signatures : List Signature := []
  deriving DecidableEq, Repr

/-- `transaction_location`. -/
structure TransactionLocation where
  blockNum : ℕ := 0
  trxNum : ℕ := 0
  deriving DecidableEq, Repr

/-- `transaction_record`: the transaction and where it is. -/
structure TransactionRecord where
  trx : SignedTransaction := {}
  chainLocation : TransactionLocation := {}
  deriving DecidableEq, Repr

/-! ### Blocks -/

/-- `block_header`. -/
structure BlockHeader where
  previous : BlockId := 0
  blockNum : ℕ := 0
  timestamp : ℕ := 0
  transactionDigest : Digest := 0
  nextSecretHash : SecretHash := 0
  previousSecret : SecretHash := 0
  deriving DecidableEq, Repr

/-- `signed_block_header`. -/
structure SignedBlockHeader extends BlockHeader where
  delegateSignature : Signature := 0
  deriving DecidableEq, Repr

/-- `full_block`. -/
structure FullBlock extends SignedBlockHeader where
  userTransactions : List SignedTransaction := []
  deriving DecidableEq, Repr

/-- The fixed-width fields of a block hold what their types can hold. -/
def FullBlock.InRange (b : FullBlock) : Prop :=
  b.blockNum < 2 ^ 32 ∧ b.timestamp < 2 ^ 32 ∧
    ∀ trx ∈ b.userTransactions, ∀ op ∈ trx.operations, IsInt64 op.namedAmount

instance (b : FullBlock) : Decidable b.InRange :=
  inferInstanceAs (Decidable (_ ∧ _ ∧ _))

/-! ### Genesis -/

/-- `name_config`. -/
structure NameConfig where
  name : Name
  owner : PublicKey
  delegatePayRate : ℕ := 255
  deriving DecidableEq, Repr

/-- `asset_config`. -/
structure AssetConfig where
  symbol : Name
  precision : ℕ
  deriving DecidableEq, Repr

/-- `genesis_block_config`. -/
structure GenesisBlockConfig where
  timestamp : ℕ
  marketAssets : List AssetConfig := []
  names : List NameConfig := []
  balances : List (PtsAddress × ℕ) := []
  deriving DecidableEq, Repr

/-! ### The libraries the chain rests on -/

/-- What the chain takes from its cryptography and arithmetic libraries. -/
structure Crypto where
  /-- `withdraw_condition::get_address()`: the hash of the packed condition. -/
  conditionAddress : WithdrawCondition → BalanceId
  /-- `address( public_key_type )`. -/
  keyAddress : PublicKey → Address
  /-- `pts_address( key, compressed, version )`. -/
  ptsAddress : PublicKey → Bool → ℕ → PtsAddress
  /-- `address( pts_address )`. -/
  ptsToAddress : PtsAddress → Address
  /-- `string( pts_address )`. -/
  ptsToString : PtsAddress → ℕ
  /-- `fc::ecc::public_key( signature, digest, enforce_canonical )`, which may throw. -/
  recover : Signature → Digest → Bool → Option PublicKey
  /-- `transaction::digest( chain_id )`: the signatures are not covered. -/
  transactionDigest : Transaction → Digest → Digest
  /-- `signed_transaction::id()`. -/
  transactionId : SignedTransaction → TransactionId
  /-- `block_header::digest()`. -/
  headerDigest : BlockHeader → Digest
  /-- `signed_block_header::id()`. -/
  blockId : SignedBlockHeader → BlockId
  /-- `digest_block::calculate_transaction_digest()`. -/
  transactionsDigest : List TransactionId → Digest
  /-- The hash in `delegate_slate::id()`. -/
  slateHash : List ℤ → SlateId
  /-- `double_hash_message( source, dest )` of a claim. -/
  claimHash : PtsAddress → PublicKey → Digest
  /-- The digest a `withdraw_with_pts` signs: the chain id and the new key. -/
  withdrawWithPtsDigest : Digest → PublicKey → Digest
  /-- `fc::ripemd160::hash( secret )`. -/
  secretHash : SecretHash → SecretHash
  /-- The random seed after a secret is mixed in. -/
  mixSeed : SecretHash → SecretHash → SecretHash
  /-- `fc::sha256::hash` of a seed, and of its own results. -/
  seedHash : ℕ → ℕ
  /-- The four words of such a hash. -/
  seedWord : ℕ → ℕ → ℕ
  /-- The id of a genesis configuration. -/
  genesisDigest : GenesisBlockConfig → Digest
  /-- The `n`-th random slate drawn while the genesis balances are read. -/
  randomSlate : Digest → List ℤ → ℕ → List ℤ
  /-- Whether a text parses as an external address, an address or a public key. -/
  parsesAsAddress : Name → Bool
  /-- `interest_owed.to_uint64()` of the principal, the two sides of the rate and the age. -/
  interestOwed : ℤ → ℤ → ℤ → ℤ → ℤ
  /-- `interest_paid.to_uint64()` of the payment, the two sides of the rate and the age. -/
  interestPaid : ℤ → ℤ → ℤ → ℤ → ℤ

/-- `delegate_slate::id()`. -/
def Crypto.slateId (crypto : Crypto) (supportedDelegates : List ℤ) : SlateId :=
  if supportedDelegates = [] then 0 else crypto.slateHash supportedDelegates

/-- `signed_block_header::signee( enforce_canonical )`. -/
def Crypto.signee (crypto : Crypto) (h : SignedBlockHeader) (enforceCanonical : Bool) :
    Fallible PublicKey :=
  orThrow (crypto.recover h.delegateSignature (crypto.headerDigest h.toBlockHeader)
    enforceCanonical) (.assertion "public key recovery")

/-- The ids in `digest_block::user_transaction_ids`. -/
def Crypto.userTransactionIds (crypto : Crypto) (b : FullBlock) : List TransactionId :=
  b.userTransactions.map crypto.transactionId

/-! ### Transparent cryptography

An instance of `Crypto` whose hashes are pairings of numbers, so that they compute: the ids of
blocks and the addresses of conditions have no collisions, and a signature is the key that made
it. It serves to run the chain on concrete inputs. -/

/-- A list of numbers as one number. -/
def pairList (l : List ℕ) : ℕ :=
  l.foldr (fun a code => Nat.pair a code + 1) 0

theorem pairList_injective : Function.Injective pairList := by
  intro l
  induction l with
  | nil =>
    intro l' h
    cases l' with
    | nil => rfl
    | cons => cases h
  | cons a l ih =>
    intro l' h
    cases l' with
    | nil => cases h
    | cons b l' =>
      obtain ⟨rfl, hl⟩ := Nat.pair_eq_pair.1 (Nat.succ.inj h)
      rw [ih hl]

/-- An integer as a natural number. -/
def intCode : ℤ → ℕ
  | .ofNat n => 2 * n
  | .negSucc n => 2 * n + 1

theorem intCode_injective : Function.Injective intCode := by
  intro x y h
  cases x <;> cases y <;> simp only [intCode] at h
  · rw [show _ = _ from Nat.eq_of_mul_eq_mul_left (by decide) h]
  · omega
  · omega
  · rw [show _ = _ from Nat.eq_of_mul_eq_mul_left (by decide) (Nat.succ.inj h)]

/-- The type byte of a condition. -/
def WithdrawConditionType.code : WithdrawConditionType → ℕ
  | .null => 0
  | .signature => 1
  | .multiSig => 2
  | .password => 3
  | .option => 4
  | .escrow => 5
  | .unknown byte => byte + 6

theorem WithdrawConditionType.code_injective : Function.Injective WithdrawConditionType.code := by
  intro x y h
  cases x <;> cases y <;> simp only [WithdrawConditionType.code] at h <;>
    first | rfl | omega | skip
  rw [Nat.add_right_cancel h]

/-- The packed data of a condition. -/
def WithdrawData.code : WithdrawData → List ℕ
  | .withSignature owner none => [0, owner]
  | .withSignature owner (some memo) => [0, owner, memo]
  | .bytes data => [1, data]

theorem WithdrawData.code_injective : Function.Injective WithdrawData.code := by
  intro x y h
  rcases x with ⟨o, _ | m⟩ | d <;> rcases y with ⟨o', _ | m'⟩ | d' <;>
    simp only [WithdrawData.code, List.cons.injEq, reduceCtorEq, and_false, and_true,
      zero_ne_one, one_ne_zero, false_and, true_and] at h
  · rw [h]
  · rw [h.1, h.2]
  · rw [h]

/-- A condition as one number. -/
def WithdrawCondition.code (c : WithdrawCondition) : ℕ :=
  pairList (intCode c.assetId :: c.delegateSlateId :: c.type.code :: c.data.code)

theorem WithdrawCondition.code_injective : Function.Injective WithdrawCondition.code := by
  intro x y h
  have hl := pairList_injective h
  simp only [List.cons.injEq] at hl
  obtain ⟨hasset, hslate, htype, hdata⟩ := hl
  cases x
  cases y
  simp only at hslate
  rw [WithdrawCondition.mk.injEq]
  exact ⟨intCode_injective hasset, hslate, WithdrawConditionType.code_injective htype,
    WithdrawData.code_injective hdata⟩

/-- The transparent instance. -/
def Crypto.transparent : Crypto where
  conditionAddress := WithdrawCondition.code
  keyAddress key := 2 * key
  ptsAddress key compressed version := ⟨version, 2 * key + compressed.toNat⟩
  ptsToAddress a := 2 * Nat.pair a.version a.body + 1
  ptsToString a := Nat.pair a.version a.body
  recover sig _ _ := some sig
  transactionDigest trx chainId := pairList [chainId, trx.expiration, trx.operations.length]
  transactionId trx := pairList [trx.expiration, trx.operations.length, trx.signatures.length]
  headerDigest h := pairList [h.previous, h.blockNum, h.timestamp]
  blockId h := pairList [h.previous, h.blockNum, h.timestamp, h.transactionDigest,
    h.nextSecretHash, h.previousSecret, h.delegateSignature]
  transactionsDigest := pairList
  slateHash slate := (slate.map intCode).sum
  claimHash source dest := Nat.pair source.body dest
  withdrawWithPtsDigest := Nat.pair
  secretHash secret := secret
  mixSeed secret seed := secret + seed
  seedHash seed := seed
  seedWord seed x := seed + x
  genesisDigest config := config.timestamp
  randomSlate _ ids n := (ids.drop n).take 1
  parsesAsAddress _ := false
  interestOwed _ _ _ _ := 0
  interestPaid _ _ _ _ := 0

end LarkX
