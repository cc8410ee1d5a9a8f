import LarkX.ForMathlib.Base58
import LarkX.ForMathlib.Bytes
import LarkX.Types.Basic

/-!
# Addresses as text

An address is written as a prefix and the base 58 of its twenty bytes with the first four bytes of
their hash behind them. The reader takes any payload of one to twenty bytes before the checksum,
but looks for the checksum behind the twentieth byte in every case.
-/

namespace LarkX

/-- The bytes of a `ripemd160`, which are those of an `address`. -/
abbrev Ripemd160 := {bytes : List UInt8 // bytes.length = 20}

/-- What the text of addresses rests on: base 58 and the hash of byte strings. -/
structure AddressCodec where
  base58 : Base58
  ripemd160 : List UInt8 → Ripemd160

/-- `BTS_ADDRESS_PREFIX`. -/
def btsAddressPrefix : List Char :=
  "XCL".toList

namespace AddressCodec

variable (codec : AddressCodec)

/-- `fc::from_base58`. -/
def fromBase58 (s : List Char) : Fallible (List UInt8) :=
  orThrow (codec.base58.decode s) (.parseError "Unable to decode base58 string")

/-- `address::is_valid`. -/
def isValid (base58str : List Char) : Fallible Bool := do
  require (btsAddressPrefix.length < base58str.length)
    (.assertion "base58str.size() > prefix_len")
  require (base58str.take btsAddressPrefix.length = btsAddressPrefix)
    (.assertion "base58str.substr( 0, prefix_len ) == prefix")
  let v ← codec.fromBase58 (base58str.drop btsAddressPrefix.length)
  require (4 < v.length) (.assertion "all addresses must have a 4 byte checksum")
  require (v.length ≤ 20 + 4) (.assertion "all addresses are less than 24 bytes")
  let checksum := codec.ripemd160 (v.take (v.length - 4))
  let bytes ← orThrow (readAt v 20 4) .outOfBounds
  require (bytes = checksum.val.take 4) (.assertion "address checksum mismatch")
  return true

/-- The bytes that `memcpy` leaves in an address that was zero. -/
def copied (v : List UInt8) : Ripemd160 :=
  let n := min (v.length - 4) 20
  ⟨v.take n ++ List.replicate (20 - n) 0, by
    rw [List.length_append, List.length_take, List.length_replicate]
    omega⟩

/-- `address( string )`. -/
def ofText (base58str : List Char) : Fallible Ripemd160 := do
  let valid ← codec.isValid base58str
  require (valid = true) (.assertion "is_valid( base58str )")
  let v ← codec.fromBase58 (base58str.drop btsAddressPrefix.length)
  return copied v

/-- The bytes that are written for an address: the address and its checksum. -/
def binAddr (addr : Ripemd160) : List UInt8 :=
  addr.val ++ (codec.ripemd160 addr.val).val.take 4

/-- `address::operator std::string`. -/
def toText (addr : Ripemd160) : List Char :=
  btsAddressPrefix ++ codec.base58.encode (codec.binAddr addr)

/-! ### What is read -/

variable {codec} {base58str : List Char} {v : List UInt8} {addr : Ripemd160}

/-- The text has the prefix, and what follows it decodes to these bytes. -/
structure Decodes (codec : AddressCodec) (base58str : List Char) (v : List UInt8) : Prop where
  longer : btsAddressPrefix.length < base58str.length
  prefixed : base58str.take btsAddressPrefix.length = btsAddressPrefix
  bytes : codec.base58.decode (base58str.drop btsAddressPrefix.length) = some v

/-- The text decodes to a checksum and a payload that is shorter than an address. -/
def ShortPayload (codec : AddressCodec) (base58str : List Char) : Prop :=
  ∃ v, codec.Decodes base58str v ∧ 4 < v.length ∧ v.length < 24

/-- What is asked of the reader: it stays within the decoded bytes, and a text that it accepts is
the text of the address that it reads. -/
structure ReadsWell (codec : AddressCodec) (base58str : List Char) : Prop where
  inside : codec.isValid base58str ≠ .error .outOfBounds
  written : codec.isValid base58str = .ok true →
    ∃ addr, codec.ofText base58str = .ok addr ∧ codec.toText addr = base58str

/-- A text is accepted when it decodes to an address and its checksum. -/
theorem isValid_eq_ok {valid : Bool} : codec.isValid base58str = .ok valid ↔
    valid = true ∧ ∃ v, codec.Decodes base58str v ∧ v.length = 24 ∧
      v.drop 20 = (codec.ripemd160 (v.take 20)).val.take 4 := by
  simp only [isValid, fromBase58, bind_eq_ok, require_eq_ok, orThrow_eq_ok, readAt_eq_some,
    pure_eq_ok]
  constructor
  · rintro ⟨-, hlonger, -, hbegins, v, hv, -, -, -, hmax, bytes, ⟨hmin, rfl⟩, -, hsum, rfl⟩
    have hlen : v.length = 24 := by omega
    refine ⟨rfl, v, ⟨hlonger, hbegins, hv⟩, hlen, ?_⟩
    rw [hlen] at hsum
    rw [← hsum, List.take_of_length_le]
    rw [List.length_drop, hlen]
  · rintro ⟨rfl, v, ⟨hlonger, hbegins, hv⟩, hlen, hsum⟩
    refine ⟨(), hlonger, (), hbegins, v, hv, (), by omega, (), by omega, (v.drop 20).take 4,
      ⟨by omega, rfl⟩, (), ?_, rfl⟩
    rw [hlen, ← hsum, List.take_of_length_le]
    rw [List.length_drop, hlen]

/-- The reader leaves the decoded bytes exactly at a short payload. -/
theorem isValid_eq_outOfBounds :
    codec.isValid base58str = .error .outOfBounds ↔ codec.ShortPayload base58str := by
  simp only [isValid, fromBase58, readAt_eq_none, bind_eq_error, require_eq_error, require_eq_ok,
    orThrow_eq_error, orThrow_eq_ok, pure_eq_error, reduceCtorEq, and_false, false_or,
    exists_const, or_false, and_true]
  constructor
  · rintro ⟨hlonger, hbegins, v, hv, hmin, -, hshort⟩
    exact ⟨v, ⟨hlonger, hbegins, hv⟩, hmin, hshort⟩
  · rintro ⟨v, ⟨hlonger, hbegins, hv⟩, hmin, hshort⟩
    exact ⟨hlonger, hbegins, v, hv, hmin, by omega, hshort⟩

/-! ### Round trips -/

theorem val_copied (h : v.length = 24) : (copied v).val = v.take 20 := by
  have hn : min (v.length - 4) 20 = 20 := by omega
  simp only [copied, hn, Nat.sub_self, List.replicate_zero, List.append_nil]

/-- A text that is accepted is read as the first twenty bytes behind the prefix. -/
theorem ofText_eq_ok (h : codec.isValid base58str = .ok true)
    (hv : codec.base58.decode (base58str.drop btsAddressPrefix.length) = some v) :
    codec.ofText base58str = .ok (copied v) := by
  rw [ofText, h, fromBase58, hv]
  rfl

/-- An accepted text is the text of the address that is read from it. -/
theorem toText_of_isValid (h : codec.isValid base58str = .ok true) :
    ∃ addr, codec.ofText base58str = .ok addr ∧ codec.toText addr = base58str := by
  obtain ⟨-, v, ⟨-, hbegins, hv⟩, hlen, hsum⟩ := isValid_eq_ok.1 h
  refine ⟨_, ofText_eq_ok h hv, ?_⟩
  have hbin : codec.binAddr (copied v) = v := by
    rw [binAddr, val_copied hlen, ← hsum, List.take_append_drop]
  rw [toText, hbin, codec.base58.encode_of_decode hv]
  have happend := List.take_append_drop btsAddressPrefix.length base58str
  rwa [hbegins] at happend

/-- **The text of an address** is read back as the address. -/
theorem ofText_toText (codec : AddressCodec) (addr : Ripemd160) :
    codec.ofText (codec.toText addr) = .ok addr := by
  have hsum : ((codec.ripemd160 addr.val).val.take 4).length = 4 := by
    rw [List.length_take, (codec.ripemd160 addr.val).property]
    rfl
  have hlen : (codec.binAddr addr).length = 24 := by
    rw [binAddr, List.length_append, addr.property, hsum]
  have htake : (codec.binAddr addr).take 20 = addr.val := by
    rw [binAddr, List.take_append_of_le_length addr.property.ge,
      List.take_of_length_le addr.property.le]
  have hdrop : (codec.toText addr).drop btsAddressPrefix.length =
      codec.base58.encode (codec.binAddr addr) := List.drop_left
  have hdecode : codec.base58.decode ((codec.toText addr).drop btsAddressPrefix.length) =
      some (codec.binAddr addr) := by rw [hdrop, codec.base58.decode_encode]
  have hlonger : btsAddressPrefix.length < (codec.toText addr).length := by
    rw [toText, List.length_append]
    refine Nat.lt_add_of_pos_right (List.length_pos_iff.2 fun hnil => ?_)
    rw [hdrop, hnil, codec.base58.decode_nil, Option.some.injEq] at hdecode
    rw [← hdecode] at hlen
    cases hlen
  have hvalid : codec.isValid (codec.toText addr) = .ok true := by
    refine isValid_eq_ok.2 ⟨rfl, _, ⟨hlonger, List.take_left, hdecode⟩, hlen, ?_⟩
    rw [htake, binAddr, List.drop_append_of_le_length addr.property.ge,
      List.drop_of_length_le addr.property.le, List.nil_append]
  rw [ofText_eq_ok hvalid hdecode]
  exact congrArg Except.ok (Subtype.ext ((val_copied hlen).trans htake))

/-- **When the text of addresses is sound.** Every address is read back from its text, and two
texts that are accepted do not denote the same address; a text is read within its bytes, and written
back as it was, exactly when it does not decode to a short payload. -/
theorem readsWell_iff (codec : AddressCodec) (base58str : List Char) :
    (∀ addr, codec.ofText (codec.toText addr) = .ok addr) ∧
      (∀ s addr, codec.ofText base58str = .ok addr → codec.ofText s = .ok addr →
        s = base58str) ∧
      (codec.ReadsWell base58str ↔ ¬codec.ShortPayload base58str) := by
  have hvalid : ∀ {s addr}, codec.ofText s = .ok addr → codec.toText addr = s := by
    intro s addr h
    have hs : codec.isValid s = .ok true := by
      simp only [ofText, bind_eq_ok, require_eq_ok] at h
      obtain ⟨_, hs, -, rfl, -⟩ := h
      exact hs
    obtain ⟨addr', haddr', htext⟩ := toText_of_isValid hs
    cases haddr'.symm.trans h
    exact htext
  refine ⟨codec.ofText_toText, fun s addr h h' => (hvalid h').symm.trans (hvalid h), ?_⟩
  rw [← isValid_eq_outOfBounds]
  exact ⟨fun h => h.inside, fun h => ⟨h, toText_of_isValid⟩⟩

/-- Five bytes are fewer than the reader looks at. -/
theorem not_readsWell_short :
    ¬(AddressCodec.mk .standard fun _ => ⟨List.replicate 20 0, by decide⟩).ReadsWell
      "XCL11111".toList := by
  intro h
  have hones : "XCL11111".toList.drop btsAddressPrefix.length = List.replicate 5 '1' := by decide
  have hdecode : Base58.standard.decode ("XCL11111".toList.drop btsAddressPrefix.length) =
      some (List.replicate 5 0) := by
    rw [hones]
    exact Base58.ofText_ones 5
  exact h.inside (isValid_eq_outOfBounds.2
    ⟨List.replicate 5 0, ⟨by decide, by decide, hdecode⟩, by decide, by decide⟩)

end AddressCodec

end LarkX
