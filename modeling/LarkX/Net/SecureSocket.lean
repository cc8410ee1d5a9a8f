import LarkX.ForMathlib.Concurs
import LarkX.Net.Framing
import Mathlib.Algebra.GroupWithZero.Nat

/-!
# The encrypted socket

`stcp_socket`: the two sides agree on a secret, and each encrypts what it writes with a cipher
whose state goes on from block to block. The reader decrypts whole blocks, in whatever pieces the
bytes arrive. So the peer's read loop is given the messages that were sent, in their order, up to
the last one that has arrived as a whole (`secure_delivery`), wherever the stream of bytes is cut
into pieces and wherever it ends.
-/

namespace LarkX

/-- The cryptography library. A cipher takes whole blocks of sixteen bytes; how a long text is cut
does not matter, and a decoder in the state of the encoder undoes it. -/
structure Cryptography (State : Type) where
  publicKey : ℕ → ℕ
  getSharedSecret : ℕ → ℕ → ℕ
  getSharedSecret_comm : ∀ a b, getSharedSecret a (publicKey b) = getSharedSecret b (publicKey a)
  /-- The state for the key and the first block that are made of a secret. -/
  init : ℕ → State
  encode : State → List UInt8 → State × List UInt8
  decode : State → List UInt8 → State × List UInt8
  length_encode : ∀ s text, text.length % 16 = 0 → (encode s text).2.length = text.length
  encode_nil : ∀ s, encode s [] = (s, [])
  encode_append : ∀ s a b, a.length % 16 = 0 → b.length % 16 = 0 → encode s (a ++ b) =
    ((encode (encode s a).1 b).1, (encode s a).2 ++ (encode (encode s a).1 b).2)
  decode_encode : ∀ s text, text.length % 16 = 0 →
    decode s (encode s text).2 = ((encode s text).1, text)

variable {State : Type} (crypto : Cryptography State)

/-- `stcp_socket`: what the other side has written and this one has not read is beside it. -/
structure StcpSocket (State : Type) where
  sharedSecret : ℕ
  sendAes : State
  recvAes : State

namespace StcpSocket

/-- `do_key_exchange()`, with the public key that is read. -/
def doKeyExchange (privKey rpub : ℕ) : StcpSocket State :=
  let sharedSecret := crypto.getSharedSecret privKey rpub
  ⟨sharedSecret, crypto.init sharedSecret, crypto.init sharedSecret⟩

/-- The length of the buffers of the socket. -/
def bufferLength : ℕ := 4096

/-! ### Writing -/

/-- `writesome`: the bytes that are taken, and what goes to the wire. -/
def writesome (sock : StcpSocket State) (buffer : List UInt8) :
    Except NetFault (StcpSocket State × ℕ × List UInt8) := do
  require (0 < buffer.length ∧ buffer.length % 16 = 0)
    (.thrown (.exception "len > 0 && (len % 16) == 0"))
  let len := min bufferLength buffer.length
  let (sendAes, ciphertext) := crypto.encode sock.sendAes (buffer.take len)
  return ({ sock with sendAes }, len, ciphertext)

theorem writesome_pos {sock sock' : StcpSocket State} {buffer ciphertext : List UInt8} {len : ℕ}
    (h : writesome crypto sock buffer = .ok (sock', len, ciphertext)) :
    0 < len ∧ 0 < buffer.length := by
  unfold writesome require at h
  split at h
  · rename_i hpos
    cases h
    exact ⟨lt_min (by decide) hpos.1, hpos.1⟩
  · cases h

/-- `write`: some bytes are written until none are left. -/
def write (sock : StcpSocket State) (buffer : List UInt8) :
    Except NetFault (StcpSocket State × List UInt8) :=
  if buffer = [] then .ok (sock, [])
  else
    match _h : writesome crypto sock buffer with
    | .error fault => .error fault
    | .ok (sock, len, ciphertext) => do
      let (sock, more) ← write sock (buffer.drop len)
      return (sock, ciphertext ++ more)
termination_by buffer.length
decreasing_by
  have hpos := writesome_pos crypto ‹_›
  rw [List.length_drop]
  omega

/-- Messages are sent one after the other: what goes to the wire. -/
def sendMessages (sock : StcpSocket State) :
    List (Message × (ℕ → UInt8)) → Except NetFault (StcpSocket State × List UInt8)
  | [] => return (sock, [])
  | (m, garbage) :: rest => do
    let bytes ← sendMessage garbage m
    let (sock, ciphertext) ← write crypto sock bytes
    let (sock, more) ← sendMessages sock rest
    return (sock, ciphertext ++ more)

/-! ### Reading -/

/-- `readsome`, when `available n` bytes are there at the time `n` are still to come: bytes are
awaited until the last block is whole. How many bytes are read, the text, the rest of the stream,
and the socket. -/
def readsome (available : ℕ → ℕ) (sock : StcpSocket State) (len : ℕ) (stream : List UInt8) :
    Except NetFault (ℕ × List UInt8 × List UInt8 × StcpSocket State) := do
  require (0 < len ∧ len % 16 = 0) (.thrown (.exception "len > 0 && (len % 16) == 0"))
  let len := min bufferLength len
  require (stream ≠ []) (.thrown .eof)
  let s := max 1 (min (available stream.length) (min len stream.length))
  let s := if s % 16 ≠ 0 then s + (16 - s % 16) else s
  require (s ≤ stream.length) (.thrown .eof)
  let (recvAes, text) := crypto.decode sock.recvAes (stream.take s)
  return (s, text, stream.drop s, { sock with recvAes })

/-- How many bytes `readsome` reads. -/
def amountRead (available : ℕ → ℕ) (len : ℕ) (stream : List UInt8) : ℕ :=
  16 * ((max 1 (min (available stream.length) (min (min bufferLength len) stream.length)) + 15) /
    16)

theorem readsome_eq {available : ℕ → ℕ} {sock : StcpSocket State} {len : ℕ}
    {stream : List UInt8} (hlen : 0 < len) (hblocks : len % 16 = 0) :
    readsome crypto available sock len stream =
      if amountRead available len stream ≤ stream.length then
        .ok (amountRead available len stream,
          (crypto.decode sock.recvAes (stream.take (amountRead available len stream))).2,
          stream.drop (amountRead available len stream), { sock with
            recvAes :=
              (crypto.decode sock.recvAes (stream.take (amountRead available len stream))).1 })
      else .error (.thrown .eof) := by
  have hround : ∀ s, (if s % 16 ≠ 0 then s + (16 - s % 16) else s) = 16 * ((s + 15) / 16) := by
    intro s
    split <;> omega
  have hs : 16 * ((max 1 (min (available stream.length)
      (min (min bufferLength len) stream.length)) + 15) / 16) = amountRead available len stream :=
    rfl
  unfold readsome
  simp only [hround, hs, require, if_pos (And.intro hlen hblocks), ok_bind]
  by_cases hempty : stream = []
  · subst hempty
    have hshort : ¬amountRead available len [] ≤ ([] : List UInt8).length := by
      rw [amountRead, List.length_nil]
      omega
    simp only [if_neg hshort]
    rfl
  · rw [if_pos hempty, ok_bind]
    by_cases hfits : amountRead available len stream ≤ stream.length
    · rw [if_pos hfits, if_pos hfits]
      rfl
    · rw [if_neg hfits, if_neg hfits]
      rfl

theorem amountRead_bounds {available : ℕ → ℕ} {len : ℕ} {stream : List UInt8} (hlen : 0 < len)
    (hblocks : len % 16 = 0) : 0 < amountRead available len stream ∧
      amountRead available len stream ≤ len ∧ amountRead available len stream % 16 = 0 := by
  unfold amountRead bufferLength
  refine ⟨?_, ?_, ?_⟩ <;> omega

theorem readsome_pos {available : ℕ → ℕ} {sock : StcpSocket State} {len : ℕ}
    {stream : List UInt8} {result : ℕ × List UInt8 × List UInt8 × StcpSocket State}
    (h : readsome crypto available sock len stream = .ok result) :
    0 < result.1 ∧ result.1 ≤ len ∧ result.1 ≤ stream.length ∧
      result.2.2.1 = stream.drop result.1 := by
  have hlen : 0 < len ∧ len % 16 = 0 := by
    by_contra hlen
    rw [readsome, require, if_neg hlen] at h
    cases h
  obtain ⟨hpos, hle, -⟩ := @amountRead_bounds available len stream hlen.1 hlen.2
  rw [readsome_eq crypto hlen.1 hlen.2] at h
  split at h
  · rename_i hfits
    cases h
    exact ⟨hpos, hle, hfits, rfl⟩
  · cases h

/-- `read`: some bytes are read until there are as many as were asked for. -/
def read (available : ℕ → ℕ) (left : ℕ) (from' : List UInt8 × StcpSocket State) :
    Except NetFault (List UInt8 × List UInt8 × StcpSocket State) :=
  if left = 0 then .ok ([], from')
  else
    match _h : readsome crypto available from'.2 left from'.1 with
    | .error fault => .error fault
    | .ok (s, text, rest) => do
      let (more, rest) ← read available (left - s) rest
      return (text ++ more, rest)
termination_by left
decreasing_by
  obtain ⟨hpos, hle, -⟩ := readsome_pos crypto ‹_›
  dsimp only at hpos hle
  omega

/-! ### What a stream carries -/

/-- The stream is the ciphertext of a text in whole blocks, and the start of a block that has not
arrived as a whole. -/
def Carries (s : State) (stream text : List UInt8) : Prop :=
  text.length % 16 = 0 ∧ ∃ tail, tail.length < 16 ∧ stream = (crypto.encode s text).2 ++ tail

variable {crypto}

theorem Carries.length {s : State} {stream text : List UInt8} (h : Carries crypto s stream text) :
    text.length = 16 * (stream.length / 16) := by
  obtain ⟨hblocks, tail, htail, rfl⟩ := h
  rw [List.length_append, crypto.length_encode s text hblocks]
  omega

/-- Whole blocks are decrypted, and the rest of the stream carries the rest of the text. -/
theorem Carries.split {s : State} {stream text : List UInt8} (h : Carries crypto s stream text)
    {k : ℕ} (hk : k % 16 = 0) (hle : k ≤ text.length) :
    (crypto.decode s (stream.take k)).2 = text.take k ∧
      Carries crypto (crypto.decode s (stream.take k)).1 (stream.drop k) (text.drop k) := by
  obtain ⟨hblocks, tail, htail, rfl⟩ := h
  have hfirst : (text.take k).length = k := List.length_take_of_le hle
  have hrest : (text.drop k).length % 16 = 0 := by
    rw [List.length_drop]
    omega
  have hencode := crypto.encode_append s (text.take k) (text.drop k) (by rw [hfirst]; exact hk)
    hrest
  rw [List.take_append_drop] at hencode
  have hlength : (crypto.encode s (text.take k)).2.length = k :=
    (crypto.length_encode s _ (by rw [hfirst]; exact hk)).trans hfirst
  rw [hencode, List.append_assoc, List.take_left' hlength, List.drop_left' hlength,
    crypto.decode_encode s _ (by rw [hfirst]; exact hk)]
  exact ⟨rfl, hrest, tail, htail, rfl⟩

/-- **Reading** from such a stream gives the text. -/
theorem read_carries (available : ℕ → ℕ) {len : ℕ} {stream text : List UInt8}
    {sock : StcpSocket State} (hblocks : len % 16 = 0)
    (h : Carries crypto sock.recvAes stream text) :
    (len ≤ text.length → ∃ stream' sock', read crypto available len (stream, sock) =
      .ok (text.take len, stream', sock') ∧
        Carries crypto sock'.recvAes stream' (text.drop len)) ∧
    (text.length < len → read crypto available len (stream, sock) = .error (.thrown .eof)) := by
  induction len using Nat.strong_induction_on generalizing stream text sock with
  | _ len ih =>
    by_cases hzero : len = 0
    · subst hzero
      refine ⟨fun _ => ⟨stream, sock, ?_, h⟩, fun hlt => absurd hlt (Nat.not_lt_zero _)⟩
      rw [read, if_pos rfl, List.take_zero]
    have hpos : 0 < len := Nat.pos_of_ne_zero hzero
    obtain ⟨hread, hle, hwhole⟩ := @amountRead_bounds available len stream hpos hblocks
    have hlength := h.length
    have hsome := @readsome_eq _ crypto available sock len stream hpos hblocks
    by_cases hfits : amountRead available len stream ≤ stream.length
    · -- a block has arrived as a whole, and the loop goes on behind it
      have htext : amountRead available len stream ≤ text.length := by omega
      obtain ⟨hdecode, hcarries⟩ := h.split hwhole htext
      rw [if_pos hfits, hdecode] at hsome
      obtain ⟨hok, herror⟩ := @ih (len - amountRead available len stream) (by omega)
        (stream.drop (amountRead available len stream))
        (text.drop (amountRead available len stream)) { sock with
          recvAes :=
            (crypto.decode sock.recvAes (stream.take (amountRead available len stream))).1 }
        (by omega) hcarries
      have hstep : read crypto available len (stream, sock) = (do
          let (more, rest) ← read crypto available (len - amountRead available len stream)
            (stream.drop (amountRead available len stream), { sock with
              recvAes :=
                (crypto.decode sock.recvAes (stream.take (amountRead available len stream))).1 })
          return (text.take (amountRead available len stream) ++ more, rest)) := by
        rw [read, if_neg hzero]
        split
        · rename_i heq
          cases heq.symm.trans hsome
        · rename_i heq
          cases heq.symm.trans hsome
          rfl
      rw [hstep]
      refine ⟨fun hlen => ?_, fun hlen => ?_⟩
      · obtain ⟨stream', sock', hrest, hcarries'⟩ := hok (by rw [List.length_drop]; omega)
        refine ⟨stream', sock', ?_, ?_⟩
        · rw [hrest, ok_bind]
          change Except.ok _ = Except.ok _
          rw [← List.take_add, Nat.add_sub_cancel' hle]
        · rwa [List.drop_drop, Nat.add_sub_cancel' hle] at hcarries'
      · rw [herror (by rw [List.length_drop]; omega)]
        rfl
    · rw [if_neg hfits] at hsome
      refine ⟨fun hlen => absurd ?_ hfits, fun _ => ?_⟩
      · omega
      · rw [read, if_neg hzero]
        split
        · rename_i heq
          cases heq.symm.trans hsome
          rfl
        · rename_i heq
          cases heq.symm.trans hsome

/-! ### Messages -/

/-- The blocks after the first one, if there are any. -/
def readRest {S : Type} (read : ℕ → S → Except NetFault (List UInt8 × S)) (remaining : ℕ)
    (data : List UInt8) (from' : S) : Except NetFault (List UInt8 × S) :=
  if remaining = 0 then pure (data, from')
  else do
    let (bytes, from') ← read remaining from'
    let data ← orThrow (writeAt data leftover bytes) .outOfBounds
    pure (data, from')

/-- A round of `read_loop` up to the call of the delegate, over any kind of stream. -/
def readMessageWith {S : Type} (read : ℕ → S → Except NetFault (List UInt8 × S)) (m : Message)
    (from' : S) : Except NetFault (Message × S) := do
  let (buffer, from') ← read bufferSize from'
  let m := { m with size := ofLe32 (buffer.take 4), msgType := ofLe32 ((buffer.drop 4).take 4) }
  require (m.size.toNat ≤ maxMessageSize) (.thrown (.exception "m.size <= MAX_MESSAGE_SIZE"))
  let remaining := remainingBytesWithPadding m.size
  let data := resize m.data (leftover + remaining)
  let data ← orThrow (writeAt data 0 (buffer.drop sizeofMessageHeader)) .outOfBounds
  let (data, from') ← readRest read remaining data from'
  return ({ m with data := resize data m.size.toNat }, from')

/-- The model of `message_oriented_connection` reads from a plain stream. -/
theorem readMessage_eq_with (m : Message) (stream : List UInt8) :
    LarkX.readMessage m stream = readMessageWith readBlocks m stream := by
  unfold LarkX.readMessage readMessageWith readRest
  refine bind_congr ?_
  rintro ⟨buffer, rest⟩
  refine bind_congr fun _ => bind_congr fun data => ?_
  split
  · rfl
  · rw [bind_assoc]
    refine bind_congr ?_
    rintro ⟨bytes, rest⟩
    rw [bind_assoc]

theorem remainingBytesWithPadding_mod (size : UInt32) :
    remainingBytesWithPadding size % 16 = 0 := by
  unfold remainingBytesWithPadding
  rw [UInt32.toNat_mul, show (16 : UInt32).toNat = 16 from rfl]
  omega

/-- Streams that concur on reads in whole blocks concur on rounds. -/
theorem readMessageWith_concurs {S T : Type} {R : S → T → Prop}
    {read : ℕ → S → Except NetFault (List UInt8 × S)}
    {read' : ℕ → T → Except NetFault (List UInt8 × T)}
    (hread : ∀ len s t, 0 < len → len % 16 = 0 → R s t →
      Concurs (fun a b => a.1 = b.1 ∧ R a.2 b.2) (read len s) (read' len t))
    (m : Message) {s : S} {t : T} (h : R s t) :
    Concurs (fun a b => a.1 = b.1 ∧ R a.2 b.2) (readMessageWith read m s)
      (readMessageWith read' m t) := by
  unfold readMessageWith
  refine (hread bufferSize s t (by decide) (by decide) h).bind ?_
  rintro ⟨buffer, s₁⟩ ⟨_, t₁⟩ ⟨rfl, h₁⟩
  refine Concurs.bind_same fun _ _ => ?_
  refine Concurs.bind_same fun data _ => ?_
  have hrest : ∀ remaining, remaining % 16 = 0 →
      Concurs (fun a b => a.1 = b.1 ∧ R a.2 b.2) (readRest read remaining data s₁)
        (readRest read' remaining data t₁) := by
    intro remaining hblocks
    unfold readRest
    refine Concurs.ite (fun _ => .pure ⟨rfl, h₁⟩) fun hne => ?_
    refine (hread remaining s₁ t₁ (Nat.pos_of_ne_zero hne) hblocks h₁).bind ?_
    rintro ⟨bytes, s₂⟩ ⟨_, t₂⟩ ⟨rfl, h₂⟩
    exact Concurs.bind_same fun _ _ => .pure ⟨rfl, h₂⟩
  refine (hrest _ (remainingBytesWithPadding_mod _)).bind ?_
  rintro ⟨data₂, s₂⟩ ⟨_, t₂⟩ ⟨rfl, h₂⟩
  exact .pure ⟨rfl, h₂⟩

variable (crypto)

/-- A round of `read_loop` on the socket. -/
def readMessage (available : ℕ → ℕ) (m : Message) (from' : List UInt8 × StcpSocket State) :
    Except NetFault (Message × List UInt8 × StcpSocket State) :=
  readMessageWith (read crypto available) m from'

theorem read_length {available : ℕ → ℕ} {left : ℕ}
    {from' rest : List UInt8 × StcpSocket State} {text : List UInt8}
    (h : read crypto available left from' = .ok (text, rest)) :
    rest.1.length + left ≤ from'.1.length := by
  induction left using Nat.strong_induction_on generalizing from' text with
  | _ left ih =>
    rw [read] at h
    split at h
    · rename_i hzero
      cases h
      omega
    · split at h
      · cases h
      · rename_i s bytes middle heq
        obtain ⟨hpos, hle, hfits, hrest⟩ := readsome_pos crypto heq
        obtain ⟨⟨more, final⟩, hmore, hfinal⟩ := bind_eq_ok.1 h
        cases hfinal
        have hlength := ih (left - s) (by omega) hmore
        rw [show middle.1 = _ from hrest, List.length_drop] at hlength
        dsimp only at hpos hle hfits hlength
        omega

theorem readMessage_length {available : ℕ → ℕ} {m m' : Message}
    {from' rest : List UInt8 × StcpSocket State}
    (h : readMessage crypto available m from' = .ok (m', rest)) :
    rest.1.length < from'.1.length := by
  unfold readMessage readMessageWith at h
  obtain ⟨⟨buffer, middle⟩, hfirst, h⟩ := bind_eq_ok.1 h
  have hlength := read_length crypto hfirst
  obtain ⟨-, -, h⟩ := bind_eq_ok.1 h
  obtain ⟨data, -, h⟩ := bind_eq_ok.1 h
  obtain ⟨⟨data', final⟩, hsecond, h⟩ := bind_eq_ok.1 h
  cases h
  unfold readRest at hsecond
  split at hsecond
  · cases hsecond
    rw [bufferSize] at hlength
    omega
  · obtain ⟨⟨bytes, last⟩, hread, hsecond⟩ := bind_eq_ok.1 hsecond
    obtain ⟨data'', -, hsecond⟩ := bind_eq_ok.1 hsecond
    cases hsecond
    have hlength' := read_length crypto hread
    rw [bufferSize] at hlength
    omega

/-- The rounds of `read_loop` on the socket. -/
def readRounds (available : ℕ → ℕ) (onMessage : List Message → Option NetException)
    (delivered : List Message) (m : Message) (from' : List UInt8 × StcpSocket State) :
    LoopResult :=
  match _h : readMessage crypto available m from' with
  | .error fault => finish delivered fault
  | .ok (m', rest) =>
    match onMessage (delivered ++ [m']) with
    | some e => finish (delivered ++ [m']) (.thrown e)
    | none => readRounds available onMessage (delivered ++ [m']) m' rest
termination_by from'.1.length
decreasing_by exact readMessage_length crypto ‹_›

/-- `read_loop` on all that arrives. -/
def readLoop (available : ℕ → ℕ) (onMessage : List Message → Option NetException)
    (fresh : Message) (sock : StcpSocket State) (stream : List UInt8) : LoopResult :=
  readRounds crypto available onMessage [] fresh (stream, sock)

variable {crypto}

theorem read_concurs (available : ℕ → ℕ) {len : ℕ} {from' : List UInt8 × StcpSocket State}
    {text : List UInt8} (hpos : 0 < len) (hblocks : len % 16 = 0)
    (h : Carries crypto from'.2.recvAes from'.1 text) :
    Concurs (fun a b => a.1 = b.1 ∧ Carries crypto a.2.2.recvAes a.2.1 b.2)
      (read crypto available len from') (readBlocks len text) := by
  obtain ⟨hok, herror⟩ := read_carries available hblocks h
  rw [readBlocks_eq hpos hblocks]
  by_cases hle : len ≤ text.length
  · obtain ⟨stream', sock', hread, hcarries⟩ := hok hle
    rw [if_pos hle, hread]
    exact .ok ⟨rfl, hcarries⟩
  · rw [if_neg hle, herror (not_le.1 hle)]
    exact .error _

/-- **The socket is a plain stream**: what the read loop does on it is what it does on the text
that has arrived. -/
theorem readRounds_eq (available : ℕ → ℕ) (onMessage : List Message → Option NetException)
    (delivered : List Message) (m : Message) {from' : List UInt8 × StcpSocket State}
    {text : List UInt8} (h : Carries crypto from'.2.recvAes from'.1 text) :
    readRounds crypto available onMessage delivered m from' =
      LarkX.readRounds onMessage delivered m text := by
  induction hn : text.length using Nat.strong_induction_on generalizing text from' delivered m with
  | _ k ih =>
    have hconcurs : Concurs (fun a b => a.1 = b.1 ∧ Carries crypto a.2.2.recvAes a.2.1 b.2)
        (readMessage crypto available m from') (LarkX.readMessage m text) := by
      rw [readMessage_eq_with]
      refine readMessageWith_concurs
        (R := fun (s : List UInt8 × StcpSocket State) t => Carries crypto s.2.recvAes s.1 t) ?_ m h
      intro len s t hpos hblocks hst
      exact read_concurs available hpos hblocks hst
    generalize hx : readMessage crypto available m from' = x at hconcurs
    generalize hy : LarkX.readMessage m text = y at hconcurs
    cases hconcurs with
    | error fault =>
      rw [readRounds_error hy, readRounds]
      split
      · rename_i heq
        cases hx.symm.trans heq
        rfl
      · rename_i heq
        cases hx.symm.trans heq
    | @ok a b hab =>
      obtain ⟨m₁, rest⟩ := a
      obtain ⟨m₂, text'⟩ := b
      obtain ⟨heq, hcarries⟩ := hab
      cases heq
      rw [readRounds_ok hy, readRounds]
      split
      · rename_i heq
        cases hx.symm.trans heq
      · rename_i heq
        cases hx.symm.trans heq
        cases onMessage (delivered ++ [m₁]) with
        | some e => rfl
        | none =>
          exact ih text'.length (hn ▸ (readMessage_eq_ok hy).2.2.2.2) _ _ hcarries rfl

/-! ### From one side to the other -/

/-- **Writing** encrypts the buffer, however many calls it takes. -/
theorem write_eq (sock : StcpSocket State) {buffer : List UInt8}
    (hblocks : buffer.length % 16 = 0) : write crypto sock buffer =
      .ok ({ sock with sendAes := (crypto.encode sock.sendAes buffer).1 },
        (crypto.encode sock.sendAes buffer).2) := by
  induction hn : buffer.length using Nat.strong_induction_on generalizing sock buffer with
  | _ k ih =>
    by_cases hempty : buffer = []
    · subst hempty
      rw [write, if_pos rfl, crypto.encode_nil]
    have hpos : 0 < buffer.length := List.length_pos_iff.2 hempty
    set len := min bufferLength buffer.length with hlen
    have hle : len ≤ buffer.length := min_le_right _ _
    have hwhole : len % 16 = 0 := by
      rw [hlen, bufferLength]
      omega
    have hlenpos : 0 < len := lt_min (by decide) hpos
    have hsome : writesome crypto sock buffer =
        .ok ({ sock with sendAes := (crypto.encode sock.sendAes (buffer.take len)).1 }, len,
          (crypto.encode sock.sendAes (buffer.take len)).2) := by
      rw [writesome, require, if_pos ⟨hpos, hblocks⟩]
      rfl
    have hrest := @ih (buffer.length - len) (by omega)
      { sock with sendAes := (crypto.encode sock.sendAes (buffer.take len)).1 } (buffer.drop len)
      (by rw [List.length_drop]; omega) (List.length_drop ..)
    have hencode := crypto.encode_append sock.sendAes (buffer.take len) (buffer.drop len)
      (by rw [List.length_take_of_le hle]; exact hwhole) (by rw [List.length_drop]; omega)
    rw [List.take_append_drop] at hencode
    rw [write, if_neg hempty]
    split
    · rename_i heq
      cases heq.symm.trans hsome
    · rename_i heq
      cases heq.symm.trans hsome
      rw [hrest, hencode]
      rfl

/-- The messages whose last byte is among the first `k` on the wire. -/
def arrived : ℕ → List FramedMessage → List FramedMessage
  | _, [] => []
  | k, m :: rest =>
    if sizeWithPadding m.size ≤ k then m :: arrived (k - sizeWithPadding m.size) rest else []

theorem arrived_prefix (k : ℕ) (msgs : List FramedMessage) : arrived k msgs <+: msgs := by
  induction msgs generalizing k with
  | nil => exact List.prefix_rfl
  | cons m msgs ih =>
    rw [arrived]
    split
    · exact (List.prefix_cons_inj m).2 (ih _)
    · exact List.nil_prefix

/-- The start of a frame is not a message. -/
theorem readMessage_cut (m₀ : Message) (m : FramedMessage) {padding : List UInt8}
    (hlen : (m.header ++ m.data ++ padding).length = 16 + bytesAfterFirst m.size) {j : ℕ}
    (hj : j < 16 + bytesAfterFirst m.size) :
    LarkX.readMessage m₀ ((m.header ++ m.data ++ padding).take j) = .error (.thrown .eof) := by
  have hshort : ((m.header ++ m.data ++ padding).take j).length = j :=
    List.length_take_of_le (hlen ▸ hj.le)
  rw [readMessage_eq, hshort]
  by_cases hfirst : j < 16
  · rw [if_pos hfirst]
  · have hdeclared : declaredSize ((m.header ++ m.data ++ padding).take j) = m.size := by
      rw [declaredSize, List.take_take, min_eq_left (by omega)]
      exact ofLe32_le32 m.size
    rw [if_neg hfirst, hdeclared, if_neg (not_lt.2 m.le), if_pos hj]

/-- What is sent, in the clear and on the wire, and what is read from the start of it. -/
theorem sendMessages_eq (sent : List (FramedMessage × (ℕ → UInt8))) :
    ∃ text, text.length % 16 = 0 ∧
      text.length = (sent.map fun e => sizeWithPadding e.1.size).sum ∧
      (∀ sock, sendMessages crypto sock (sent.map fun e => (e.1.toMessage, e.2)) =
        .ok ({ sock with sendAes := (crypto.encode sock.sendAes text).1 },
          (crypto.encode sock.sendAes text).2)) ∧
      ∀ k onMessage delivered m, LarkX.readRounds onMessage delivered m
          (text.take (16 * (k / 16))) =
        deliver onMessage delivered
          ((arrived k (sent.map Prod.fst)).map FramedMessage.toMessage) := by
  induction sent with
  | nil =>
    refine ⟨[], rfl, rfl, fun sock => ?_, fun k onMessage delivered m => ?_⟩
    · rw [crypto.encode_nil]
      rfl
    · refine readRounds_error ?_
      rw [List.take_nil, readMessage_eq]
      rfl
  | cons e sent ih =>
    obtain ⟨m, garbage⟩ := e
    obtain ⟨text, hblocks, hsum, hsend, hread⟩ := ih
    obtain ⟨padding, hframe, hlen⟩ := sendMessage_eq garbage m
    set frame := m.header ++ m.data ++ padding with hdef
    have hsize : sizeWithPadding m.size = frame.length := (sizeWithPadding_eq m.size).trans hlen.symm
    have hwhole : frame.length % 16 = 0 := by
      rw [hlen, bytesAfterFirst]
      omega
    refine ⟨frame ++ text, ?_, ?_, fun sock => ?_, fun k onMessage delivered m₀ => ?_⟩
    · rw [List.length_append]
      omega
    · rw [List.length_append, hsum, List.map_cons, List.sum_cons, hsize]
    · rw [crypto.encode_append _ _ _ hwhole hblocks, List.map_cons, sendMessages, hframe, ok_bind,
        write_eq sock hwhole, ok_bind]
      dsimp only
      rw [hsend]
      rfl
    · rw [List.map_cons, arrived, hsize]
      by_cases hle : frame.length ≤ k
      · have htake : (frame ++ text).take (16 * (k / 16)) =
            frame ++ text.take (16 * ((k - frame.length) / 16)) := by
          rw [List.take_append, List.take_of_length_le (by omega)]
          congr 2
          omega
        rw [if_pos hle, htake, List.map_cons, deliver,
          readRounds_ok (readMessage_send m₀ m hlen _)]
        cases onMessage (delivered ++ [m.toMessage]) with
        | some e => rfl
        | none => exact hread _ onMessage _ m.toMessage
      · have htake : (frame ++ text).take (16 * (k / 16)) = frame.take (16 * (k / 16)) :=
          List.take_append_of_le_length (by omega)
        rw [if_neg hle, htake, readRounds_error (readMessage_cut m₀ m hlen (by omega))]
        rfl

/-- **What arrives is what was sent**: when `k` bytes of what one side writes reach the other, its
delegate is given the messages that have arrived as a whole, in their order, up to the one on which
it throws; however the bytes are cut into pieces on the way. -/
theorem secure_delivery (a b : ℕ) (sent : List (FramedMessage × (ℕ → UInt8))) :
    ∃ sock ciphertext, sendMessages crypto (doKeyExchange crypto a (crypto.publicKey b))
        (sent.map fun e => (e.1.toMessage, e.2)) = .ok (sock, ciphertext) ∧
      ciphertext.length = (sent.map fun e => sizeWithPadding e.1.size).sum ∧
      ∀ k ≤ ciphertext.length, ∀ available onMessage fresh,
        readLoop crypto available onMessage fresh (doKeyExchange crypto b (crypto.publicKey a))
            (ciphertext.take k) =
          deliver onMessage [] ((arrived k (sent.map Prod.fst)).map FramedMessage.toMessage) := by
  obtain ⟨text, hblocks, hsum, hsend, hread⟩ := @sendMessages_eq _ crypto sent
  set sender := doKeyExchange crypto a (crypto.publicKey b) with hsender
  have hlength := crypto.length_encode sender.sendAes text hblocks
  refine ⟨_, _, hsend sender, hlength.trans hsum, fun k hk available onMessage fresh => ?_⟩
  have hstate : (doKeyExchange crypto b (crypto.publicKey a)).recvAes = sender.sendAes := by
    rw [hsender, doKeyExchange, doKeyExchange, crypto.getSharedSecret_comm b a]
  rw [hlength] at hk
  -- the whole blocks among the bytes that have arrived
  have hcut : 16 * (k / 16) ≤ text.length := by omega
  have hfirst : (text.take (16 * (k / 16))).length = 16 * (k / 16) := List.length_take_of_le hcut
  have hencode := crypto.encode_append sender.sendAes (text.take (16 * (k / 16)))
    (text.drop (16 * (k / 16))) (by rw [hfirst]; omega) (by rw [List.length_drop]; omega)
  rw [List.take_append_drop] at hencode
  have hwhole := crypto.length_encode sender.sendAes (text.take (16 * (k / 16)))
    (by rw [hfirst]; omega)
  refine (readRounds_eq available onMessage [] fresh ?_).trans (hread k onMessage [] fresh)
  rw [hstate]
  refine ⟨by rw [hfirst]; omega,
    (crypto.encode (crypto.encode sender.sendAes (text.take (16 * (k / 16)))).1
      (text.drop (16 * (k / 16)))).2.take (k - 16 * (k / 16)), ?_, ?_⟩
  · rw [List.length_take]
    omega
  · rw [hencode, List.take_append, hwhole, hfirst, List.take_of_length_le (by omega)]

/-! ### A small cipher -/

/-- Each byte is combined with the ciphertext of the one before. -/
def chainEncode : UInt8 → List UInt8 → UInt8 × List UInt8
  | s, [] => (s, [])
  | s, b :: rest => ((chainEncode (b ^^^ s) rest).1, (b ^^^ s) :: (chainEncode (b ^^^ s) rest).2)

def chainDecode : UInt8 → List UInt8 → UInt8 × List UInt8
  | s, [] => (s, [])
  | s, c :: rest => ((chainDecode c rest).1, (c ^^^ s) :: (chainDecode c rest).2)

theorem length_chainEncode (s : UInt8) (text : List UInt8) :
    (chainEncode s text).2.length = text.length := by
  induction text generalizing s with
  | nil => rfl
  | cons b text ih => exact congrArg (· + 1) (ih _)

theorem chainEncode_append (s : UInt8) (a b : List UInt8) : chainEncode s (a ++ b) =
    ((chainEncode (chainEncode s a).1 b).1,
      (chainEncode s a).2 ++ (chainEncode (chainEncode s a).1 b).2) := by
  induction a generalizing s with
  | nil => rfl
  | cons c a ih =>
    rw [List.cons_append, chainEncode, ih]
    rfl

theorem chainDecode_chainEncode (s : UInt8) (text : List UInt8) :
    chainDecode s (chainEncode s text).2 = ((chainEncode s text).1, text) := by
  induction text generalizing s with
  | nil => rfl
  | cons b text ih =>
    rw [chainEncode, chainDecode, ih, UInt8.xor_assoc, UInt8.xor_self, UInt8.xor_zero]

/-- A library with this cipher. -/
def chained : Cryptography UInt8 where
  publicKey a := a
  getSharedSecret a b := a * b
  getSharedSecret_comm a b := Nat.mul_comm a b
  init secret := UInt8.ofNat secret
  encode := chainEncode
  decode := chainDecode
  length_encode s text _ := length_chainEncode s text
  encode_nil _ := rfl
  encode_append s a b _ _ := chainEncode_append s a b
  decode_encode s text _ := chainDecode_chainEncode s text

/-- A message of three bytes. -/
def threeBytes : FramedMessage where
  size := 3
  msgType := 1
  data := [1, 2, 3]
  sized := rfl
  le := by decide

/-- One message from one side to the other. -/
theorem secure_delivery_chained : ∃ sock ciphertext,
    sendMessages chained (doKeyExchange chained 3 5) [(threeBytes.toMessage, fun _ => 0)] =
      .ok (sock, ciphertext) ∧
    ∀ available onMessage fresh,
      readLoop chained available onMessage fresh (doKeyExchange chained 5 3) ciphertext =
        deliver onMessage [] [threeBytes.toMessage] := by
  obtain ⟨sock, ciphertext, hsend, hlength, hread⟩ :=
    @secure_delivery _ chained 3 5 [(threeBytes, fun _ => 0)]
  refine ⟨sock, ciphertext, hsend, fun available onMessage fresh => ?_⟩
  have hall := hread ciphertext.length (Nat.le_refl _) available onMessage fresh
  rw [List.take_length, hlength] at hall
  exact hall

end StcpSocket

end LarkX
