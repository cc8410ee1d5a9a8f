import LarkX.ForMathlib.Bytes
import LarkX.ForMathlib.Fallible
import Mathlib.Algebra.Order.Group.Nat

/-!
# Message framing

`message_oriented_connection`: a message is sent as a header of eight bytes and its data, padded to
a multiple of sixteen, since the cipher underneath takes blocks of that size. The reader takes the
first block, learns the size from it, and reads as many blocks more as the sender has written.

The socket decrypts what the peer's socket has encrypted, so it is a stream of bytes here. The
padding is whatever the sender's memory held.
-/

namespace LarkX

/-- `MAX_MESSAGE_SIZE`. -/
def maxMessageSize : ℕ := 512 * 1024

/-- `message`, with its header. -/
structure Message where
  size : UInt32
  msgType : UInt32
  data : List UInt8
  deriving DecidableEq, Repr

/-- `sizeof(message_header)`. -/
def sizeofMessageHeader : ℕ := 8

/-- The bytes of a header in memory. -/
def Message.header (m : Message) : List UInt8 :=
  le32 m.size ++ le32 m.msgType

/-- The exceptions that the catch clauses of `read_loop` tell apart. -/
inductive NetException
  | canceled
  | eof
  | exception (text : String)
  deriving DecidableEq, Repr

/-- What ends a read or a write: an exception, or an access outside a buffer, which has no defined
result. -/
inductive NetFault
  | thrown (e : NetException)
  | outOfBounds
  deriving DecidableEq, Repr

/-! ### The socket -/

/-- `stcp_socket::write`: the blocks that are written. `writesome` asserts that they are whole. -/
def writeBlocks (bytes : List UInt8) : Except NetFault (List UInt8) := do
  require (0 < bytes.length ∧ bytes.length % 16 = 0)
    (.thrown (.exception "len > 0 && (len % 16) == 0"))
  return bytes

/-- `stcp_socket::read`: the bytes and the rest of the stream. `readsome` asserts that whole blocks
are asked for. -/
def readBlocks (len : ℕ) (stream : List UInt8) : Except NetFault (List UInt8 × List UInt8) := do
  require (0 < len ∧ len % 16 = 0) (.thrown (.exception "len > 0 && (len % 16) == 0"))
  require (len ≤ stream.length) (.thrown .eof)
  return (stream.take len, stream.drop len)

/-! ### Sending -/

/-- The size of a message with its header, padded to a multiple of sixteen. -/
def sizeWithPadding (size : UInt32) : ℕ :=
  16 * ((sizeofMessageHeader + size.toNat + 15) / 16)

/-- `send_message`, in a buffer whose memory holds `garbage`: the bytes that are written. -/
def sendMessage (garbage : ℕ → UInt8) (m : Message) : Except NetFault (List UInt8) := do
  let paddedMessage := (List.range (sizeWithPadding m.size)).map garbage
  let paddedMessage ← orThrow (writeAt paddedMessage 0 m.header) .outOfBounds
  let data ← orThrow (readAt m.data 0 m.size.toNat) .outOfBounds
  let paddedMessage ← orThrow (writeAt paddedMessage sizeofMessageHeader data) .outOfBounds
  writeBlocks paddedMessage

/-- Messages sent one after the other, each from memory of its own. -/
def sendMessages : List (Message × (ℕ → UInt8)) → Except NetFault (List UInt8)
  | [] => return []
  | (m, garbage) :: rest => do
    let bytes ← sendMessage garbage m
    let stream ← sendMessages rest
    return bytes ++ stream

/-! ### Receiving -/

/-- `BUFFER_SIZE` and `LEFTOVER`. -/
def bufferSize : ℕ := 16
def leftover : ℕ := bufferSize - sizeofMessageHeader

/-- `16 * ((m.size - LEFTOVER + 15) / 16)`, in the 32-bit arithmetic of `m.size`. -/
def remainingBytesWithPadding (size : UInt32) : ℕ :=
  (16 * ((size - UInt32.ofNat leftover + 15) / 16)).toNat

/-- One round of `read_loop` up to the call of the delegate: the message that is read over the last
one, and the rest of the stream. -/
def readMessage (m : Message) (stream : List UInt8) : Except NetFault (Message × List UInt8) := do
  let (buffer, stream) ← readBlocks bufferSize stream
  let m := { m with size := ofLe32 (buffer.take 4), msgType := ofLe32 ((buffer.drop 4).take 4) }
  require (m.size.toNat ≤ maxMessageSize) (.thrown (.exception "m.size <= MAX_MESSAGE_SIZE"))
  let remaining := remainingBytesWithPadding m.size
  let data := resize m.data (leftover + remaining)
  let data ← orThrow (writeAt data 0 (buffer.drop sizeofMessageHeader)) .outOfBounds
  let (data, stream) ←
    if remaining = 0 then pure (data, stream)
    else do
      let (bytes, stream) ← readBlocks remaining stream
      let data ← orThrow (writeAt data leftover bytes) .outOfBounds
      pure (data, stream)
  return ({ m with data := resize data m.size.toNat }, stream)

/-! ### Sizes -/

/-- The bytes of the blocks after the first one. -/
def bytesAfterFirst (size : UInt32) : ℕ :=
  16 * ((size.toNat + 7) / 16)

/-- The unsigned subtraction wraps for a size below eight, and the addition wraps back. -/
theorem remainingBytesWithPadding_eq {size : UInt32} (h : size.toNat ≤ maxMessageSize) :
    remainingBytesWithPadding size = bytesAfterFirst size := by
  have hmax : maxMessageSize = 524288 := rfl
  have hleft : (UInt32.ofNat leftover).toNat = 8 := rfl
  have h15 : (15 : UInt32).toNat = 15 := rfl
  have h16 : (16 : UInt32).toNat = 16 := rfl
  simp only [remainingBytesWithPadding, bytesAfterFirst, UInt32.toNat_mul, UInt32.toNat_div,
    UInt32.toNat_add, UInt32.toNat_sub, hleft, h15, h16]
  omega

/-- The sender and the reader agree on the number of blocks. -/
theorem sizeWithPadding_eq (size : UInt32) : sizeWithPadding size = 16 + bytesAfterFirst size := by
  simp only [sizeWithPadding, sizeofMessageHeader, bytesAfterFirst]
  omega

theorem le_bytesAfterFirst (size : UInt32) : size.toNat ≤ 8 + bytesAfterFirst size := by
  simp only [bytesAfterFirst]
  omega

/-! ### One message -/

/-- The size that the first block of a stream declares. -/
def declaredSize (stream : List UInt8) : UInt32 :=
  ofLe32 (stream.take 4)

/-- The message at the front of a stream. -/
def frontMessage (stream : List UInt8) : Message where
  size := declaredSize stream
  msgType := ofLe32 ((stream.drop 4).take 4)
  data := (stream.drop 8).take (declaredSize stream).toNat

theorem readBlocks_eq {len : ℕ} {stream : List UInt8} (hpos : 0 < len) (hblocks : len % 16 = 0) :
    readBlocks len stream =
      if len ≤ stream.length then .ok (stream.take len, stream.drop len)
      else .error (.thrown .eof) := by
  rw [readBlocks, require, if_pos ⟨hpos, hblocks⟩, ok_bind, require]
  split <;> rfl

/-- The bytes of the first block that belong to the data. -/
theorem drop_take_first (stream : List UInt8) :
    (stream.take bufferSize).drop sizeofMessageHeader = (stream.drop 8).take 8 := by
  rw [List.drop_take]
  rfl

/-- The first eight bytes of data are written over a buffer. -/
theorem writeAt_first (old : List UInt8) {stream : List UInt8} (r : ℕ)
    (hfirst : 16 ≤ stream.length) :
    writeAt (resize old (leftover + r)) 0 ((stream.drop 8).take 8) =
      some ((stream.drop 8).take 8 ++ (resize old (leftover + r)).drop 8) := by
  have hlen : ((stream.drop 8).take 8).length = 8 := by
    rw [List.length_take, List.length_drop]
    omega
  rw [writeAt_zero (by rw [hlen, length_resize, show leftover = 8 from rfl]; omega), hlen]

/-- The blocks after the first one are written behind them, up to the end of the buffer. -/
theorem writeAt_rest (old : List UInt8) {stream : List UInt8} {r : ℕ}
    (hrest : 16 + r ≤ stream.length) :
    writeAt ((stream.drop 8).take 8 ++ (resize old (leftover + r)).drop 8) leftover
      ((stream.drop 16).take r) = some ((stream.drop 8).take (8 + r)) := by
  have hlen : ((stream.drop 8).take 8).length = leftover := by
    rw [List.length_take, List.length_drop, show leftover = 8 from rfl]
    omega
  have hbytes : ((stream.drop 16).take r).length = r := by
    rw [List.length_take, List.length_drop]
    omega
  have hold : ((resize old (leftover + r)).drop 8).length = r := by
    rw [List.length_drop, length_resize]
    exact Nat.add_sub_cancel_left 8 r
  have hwrite := writeAt_append ((stream.drop 8).take 8) (hbytes.le.trans hold.ge)
  rw [hlen] at hwrite
  rw [hwrite, hbytes, List.drop_of_length_le hold.le, List.append_nil, List.take_add,
    List.drop_drop]

/-- **What one round reads**, from any stream: it ends at the end of the stream or with a size above
the maximum, and otherwise takes the message and its padding off. No access leaves the buffer. -/
theorem readMessage_eq (m : Message) (stream : List UInt8) :
    readMessage m stream =
      if stream.length < 16 then .error (.thrown .eof)
      else if maxMessageSize < (declaredSize stream).toNat then
        .error (.thrown (.exception "m.size <= MAX_MESSAGE_SIZE"))
      else if stream.length < 16 + bytesAfterFirst (declaredSize stream) then
        .error (.thrown .eof)
      else .ok (frontMessage stream, stream.drop (16 + bytesAfterFirst (declaredSize stream))) := by
  unfold readMessage
  rw [readBlocks_eq (by decide) (by decide)]
  by_cases hfirst : stream.length < 16
  · rw [if_pos hfirst, if_neg (by simp only [bufferSize]; omega)]
    rfl
  have hbuffer : bufferSize ≤ stream.length := not_lt.1 hfirst
  have hsize : ofLe32 ((stream.take bufferSize).take 4) = declaredSize stream := by
    rw [List.take_take]
    rfl
  have htype : ofLe32 (((stream.take bufferSize).drop 4).take 4) =
      ofLe32 ((stream.drop 4).take 4) := by
    rw [List.drop_take, List.take_take]
    rfl
  rw [if_neg hfirst, if_pos hbuffer, ok_bind]
  simp only [hsize, htype]
  by_cases hmax : maxMessageSize < (declaredSize stream).toNat
  · rw [if_pos hmax, require, if_neg (not_le.2 hmax)]
    rfl
  have hremaining := remainingBytesWithPadding_eq (not_lt.1 hmax)
  have hle := le_bytesAfterFirst (declaredSize stream)
  rw [if_neg hmax, require, if_pos (not_lt.1 hmax), ok_bind, hremaining, drop_take_first,
    writeAt_first m.data _ hbuffer]
  by_cases hzero : bytesAfterFirst (declaredSize stream) = 0
  · -- all of the data is in the first block
    have hdata : resize ((stream.drop 8).take 8 ++ (resize m.data (leftover + 0)).drop 8)
        (declaredSize stream).toNat = (stream.drop 8).take (declaredSize stream).toNat := by
      have hlen : ((stream.drop 8).take 8).length = 8 := by
        rw [List.length_take, List.length_drop]
        omega
      have hempty : (resize m.data (leftover + 0)).drop 8 = [] :=
        List.drop_of_length_le (length_resize _ _).le
      rw [hempty, List.append_nil, resize_of_le (by omega), List.take_take]
      congr 1
      omega
    simp only [hzero, Nat.add_zero, if_true, if_neg hfirst]
    change Except.ok _ = Except.ok _
    rw [frontMessage, ← hdata]
    rfl
  · have hblocks : bytesAfterFirst (declaredSize stream) % 16 = 0 := Nat.mul_mod_right 16 _
    have hlength : bytesAfterFirst (declaredSize stream) ≤ (stream.drop bufferSize).length ↔
        ¬stream.length < 16 + bytesAfterFirst (declaredSize stream) := by
      rw [List.length_drop, show bufferSize = 16 from rfl]
      omega
    rw [readBlocks_eq (Nat.pos_of_ne_zero hzero) hblocks]
    by_cases hshort : stream.length < 16 + bytesAfterFirst (declaredSize stream)
    · rw [if_pos hshort, if_neg (fun h => hlength.1 h hshort)]
      simp only [if_neg hzero]
      rfl
    · rw [if_neg hshort, if_pos (hlength.2 hshort)]
      have hwrite := writeAt_rest m.data (not_lt.1 hshort)
      have hdata : resize ((stream.drop 8).take (8 + bytesAfterFirst (declaredSize stream)))
          (declaredSize stream).toNat = (stream.drop 8).take (declaredSize stream).toNat := by
        rw [resize_of_le, List.take_take, Nat.min_eq_left hle]
        rw [List.length_take, List.length_drop]
        omega
      simp only [if_neg hzero, orThrow, ok_bind, pure_bind, show bufferSize = 16 from rfl, hwrite,
        hdata, List.drop_drop]
      rfl

/-- A round that reads a message. -/
theorem readMessage_eq_ok {m m' : Message} {stream rest : List UInt8}
    (h : readMessage m stream = .ok (m', rest)) :
    16 ≤ stream.length ∧ m' = frontMessage stream ∧ m'.size.toNat ≤ maxMessageSize ∧
      m'.data.length = m'.size.toNat ∧ rest.length < stream.length := by
  rw [readMessage_eq] at h
  split at h
  · cases h
  split at h
  · cases h
  split at h
  · cases h
  rename_i hfirst hmax hshort
  cases h
  have hle := le_bytesAfterFirst (declaredSize stream)
  refine ⟨not_lt.1 hfirst, rfl, not_lt.1 hmax, ?_, ?_⟩
  · change ((stream.drop 8).take (declaredSize stream).toNat).length = (declaredSize stream).toNat
    rw [List.length_take, List.length_drop]
    omega
  · rw [List.length_drop]
    omega

/-! ### The loop -/

/-- `on_connection_closed` is called, unless the task is canceled. -/
def NetFault.closes : NetFault → Bool
  | .thrown .canceled => false
  | .thrown _ => true
  | .outOfBounds => false

/-- What `read_loop` throws in the end: the end of the stream is not passed on. -/
def NetFault.rethrown : NetFault → Option NetException
  | .thrown .eof => none
  | .thrown e => some e
  | .outOfBounds => none

/-- What the delegate has been given when the loop ends, and how it ends. -/
structure LoopResult where
  delivered : List Message
  fault : NetFault
  closed : Bool
  rethrown : Option NetException
  deriving DecidableEq, Repr

/-- The catch clauses of `read_loop`. -/
def finish (delivered : List Message) (fault : NetFault) : LoopResult :=
  ⟨delivered, fault, fault.closes, fault.rethrown⟩

/-- The rounds of `read_loop`. What `on_message` throws depends on the messages the delegate has
been given. -/
def readRounds (onMessage : List Message → Option NetException) (delivered : List Message)
    (m : Message) (stream : List UInt8) : LoopResult :=
  match _h : readMessage m stream with
  | .error fault => finish delivered fault
  | .ok (m', rest) =>
    match onMessage (delivered ++ [m']) with
    | some e => finish (delivered ++ [m']) (.thrown e)
    | none => readRounds onMessage (delivered ++ [m']) m' rest
termination_by stream.length
decreasing_by exact (readMessage_eq_ok ‹_›).2.2.2.2

/-- `read_loop` on all that the peer sends; `fresh` is the message before it is first read. -/
def readLoop (onMessage : List Message → Option NetException) (fresh : Message)
    (stream : List UInt8) : LoopResult :=
  readRounds onMessage [] fresh stream

/-- The delegate is given messages until it throws, or until the stream ends. -/
def deliver (onMessage : List Message → Option NetException) (delivered : List Message) :
    List Message → LoopResult
  | [] => finish delivered (.thrown .eof)
  | m :: rest =>
    match onMessage (delivered ++ [m]) with
    | some e => finish (delivered ++ [m]) (.thrown e)
    | none => deliver onMessage (delivered ++ [m]) rest

variable {onMessage : List Message → Option NetException} {delivered : List Message}
  {m m' fresh : Message} {stream rest : List UInt8}

theorem readRounds_ok (h : readMessage m stream = .ok (m', rest)) :
    readRounds onMessage delivered m stream =
      match onMessage (delivered ++ [m']) with
      | some e => finish (delivered ++ [m']) (.thrown e)
      | none => readRounds onMessage (delivered ++ [m']) m' rest := by
  rw [readRounds]
  split
  · rename_i hrun
    cases h.symm.trans hrun
  · rename_i hrun
    cases h.symm.trans hrun
    rfl

theorem readRounds_error {fault : NetFault} (h : readMessage m stream = .error fault) :
    readRounds onMessage delivered m stream = finish delivered fault := by
  rw [readRounds]
  split
  · rename_i hrun
    cases h.symm.trans hrun
    rfl
  · rename_i hrun
    cases h.symm.trans hrun

/-- A delegate that does not throw is given everything. -/
theorem deliver_eq_finish (h : ∀ l, onMessage l = none) (msgs : List Message) :
    deliver onMessage delivered msgs = finish (delivered ++ msgs) (.thrown .eof) := by
  induction msgs generalizing delivered with
  | nil => rw [deliver, List.append_nil]
  | cons m msgs ih =>
    rw [deliver, h]
    exact ih.trans (by rw [List.append_assoc]; rfl)

/-! ### Sent and read back -/

/-- A message whose data has the declared size, which is at most the maximum. -/
structure FramedMessage extends Message where
  sized : data.length = size.toNat
  le : size.toNat ≤ maxMessageSize

/-- What is sent: the header, the data, and padding up to whole blocks. -/
theorem sendMessage_eq (garbage : ℕ → UInt8) (m : FramedMessage) :
    ∃ padding, sendMessage garbage m.toMessage = .ok (m.header ++ m.data ++ padding) ∧
      (m.header ++ m.data ++ padding).length = 16 + bytesAfterFirst m.size := by
  have hheader : m.header.length = sizeofMessageHeader := rfl
  have hle := le_bytesAfterFirst m.size
  set memory := (List.range (sizeWithPadding m.size)).map garbage with hmemory
  have hlen : memory.length = 16 + bytesAfterFirst m.size := by
    rw [hmemory, List.length_map, List.length_range, sizeWithPadding_eq]
  have hrest : (memory.drop m.header.length).length = 8 + bytesAfterFirst m.size := by
    rw [List.length_drop, hlen, hheader, show sizeofMessageHeader = 8 from rfl]
    omega
  have hfirst : writeAt memory 0 m.header = some (m.header ++ memory.drop m.header.length) :=
    writeAt_zero (by rw [hlen, hheader, show sizeofMessageHeader = 8 from rfl]; omega)
  have hdata : readAt m.data 0 m.size.toNat = some m.data := by
    refine readAt_eq_some.2 ⟨by rw [m.sized, Nat.zero_add], ?_⟩
    rw [List.drop_zero, ← m.sized, List.take_length]
  have hfits : m.data.length ≤ (memory.drop m.header.length).length := by
    rw [hrest, m.sized]
    exact hle
  have hsecond := writeAt_append m.header hfits
  rw [hheader] at hsecond
  set padding := (memory.drop sizeofMessageHeader).drop m.data.length with hpadding
  have htotal : (m.header ++ m.data ++ padding).length = 16 + bytesAfterFirst m.size := by
    rw [hheader] at hrest
    rw [List.length_append, List.length_append, hpadding, List.length_drop, hrest, hheader,
      m.sized, show sizeofMessageHeader = 8 from rfl]
    omega
  refine ⟨padding, ?_, htotal⟩
  have hwrite : writeBlocks (m.header ++ m.data ++ padding) =
      .ok (m.header ++ m.data ++ padding) := by
    rw [writeBlocks, require, if_pos]
    · rfl
    · rw [htotal, bytesAfterFirst]
      omega
  rw [hheader] at hfirst
  simp only [sendMessage, ← hmemory, hfirst, hdata, orThrow, ok_bind, hsecond, hwrite]

/-- What is read back from it. -/
theorem readMessage_send (m₀ : Message) (m : FramedMessage) {padding : List UInt8}
    (hlen : (m.header ++ m.data ++ padding).length = 16 + bytesAfterFirst m.size)
    (rest : List UInt8) :
    readMessage m₀ (m.header ++ m.data ++ padding ++ rest) = .ok (m.toMessage, rest) := by
  set stream := m.header ++ m.data ++ padding ++ rest with hstream
  have hdeclared : declaredSize stream = m.size := by
    rw [declaredSize, hstream]
    exact ofLe32_le32 m.size
  have htype : ofLe32 ((stream.drop 4).take 4) = m.msgType := by
    rw [hstream]
    exact ofLe32_le32 m.msgType
  have hdata : (stream.drop 8).take m.size.toNat = m.data := by
    have hdrop : stream.drop 8 = m.data ++ (padding ++ rest) := by
      rw [hstream, List.append_assoc, List.append_assoc]
      rfl
    rw [hdrop, ← m.sized, List.take_left]
  have hlength : stream.length = 16 + bytesAfterFirst m.size + rest.length := by
    rw [hstream, List.length_append, hlen]
  have hfront : frontMessage stream = m.toMessage := by
    rw [frontMessage, hdeclared, htype, hdata]
  have hrest : stream.drop (16 + bytesAfterFirst m.size) = rest := by
    rw [hstream, ← hlen, List.drop_left]
  rw [readMessage_eq, hdeclared, hfront, hrest, if_neg (by omega), if_neg (not_lt.2 m.le),
    if_neg (by omega)]

/-- **Framing is lossless.** Whatever messages are sent, the peer's delegate is given the same ones
in the same order, up to the one on which it throws. -/
theorem readRounds_sendMessages (sent : List (FramedMessage × (ℕ → UInt8))) :
    ∃ stream, sendMessages (sent.map fun e => (e.1.toMessage, e.2)) = .ok stream ∧
      stream.length % 16 = 0 ∧
      ∀ (onMessage : List Message → Option NetException) (delivered : List Message) (m : Message),
        readRounds onMessage delivered m stream =
          deliver onMessage delivered (sent.map fun e => e.1.toMessage) := by
  induction sent with
  | nil =>
    refine ⟨[], rfl, rfl, fun onMessage delivered m => readRounds_error ?_⟩
    rw [readMessage_eq]
    rfl
  | cons e sent ih =>
    obtain ⟨m, garbage⟩ := e
    obtain ⟨stream, hstream, hblocks, hread⟩ := ih
    obtain ⟨padding, hsend, hlen⟩ := sendMessage_eq garbage m
    refine ⟨m.header ++ m.data ++ padding ++ stream, ?_, ?_, fun onMessage delivered m₀ => ?_⟩
    · rw [List.map_cons, sendMessages, hsend, ok_bind, hstream]
      rfl
    · rw [List.length_append, hlen, bytesAfterFirst]
      omega
    · rw [readRounds_ok (readMessage_send m₀ m hlen stream), List.map_cons, deliver]
      cases onMessage (delivered ++ [m.toMessage]) with
      | some e => rfl
      | none => exact hread onMessage (delivered ++ [m.toMessage]) m.toMessage

/-- A round ends with an exception, never with an access outside the buffer. -/
theorem readMessage_error {fault : NetFault} (h : readMessage m stream = .error fault) :
    fault = .thrown .eof ∨ (maxMessageSize < (declaredSize stream).toNat ∧
      fault = .thrown (.exception "m.size <= MAX_MESSAGE_SIZE")) := by
  rw [readMessage_eq] at h
  split at h
  · exact Or.inl (Except.error.inj h).symm
  split at h
  · exact Or.inr ⟨‹_›, (Except.error.inj h).symm⟩
  split at h
  · exact Or.inl (Except.error.inj h).symm
  · cases h

/-- Whatever a peer sends, the loop stays within its buffers and gives the delegate only messages
within the maximum, with as much data as they declare. -/
theorem readRounds_safe (hdelivered : ∀ m ∈ delivered, m.size.toNat ≤ maxMessageSize ∧
      m.data.length = m.size.toNat) :
    (readRounds onMessage delivered m stream).fault ≠ .outOfBounds ∧
      ∀ m' ∈ (readRounds onMessage delivered m stream).delivered,
        m'.size.toNat ≤ maxMessageSize ∧ m'.data.length = m'.size.toNat := by
  induction hn : stream.length using Nat.strongRecOn generalizing delivered m stream with
  | ind n ih =>
    cases hrun : readMessage m stream with
    | error fault =>
      rw [readRounds_error hrun]
      refine ⟨?_, hdelivered⟩
      rcases readMessage_error hrun with rfl | ⟨-, rfl⟩
      all_goals nofun
    | ok r =>
      obtain ⟨m', rest⟩ := r
      obtain ⟨-, -, hmax, hsized, hlt⟩ := readMessage_eq_ok hrun
      have hdelivered' : ∀ m₁ ∈ delivered ++ [m'], m₁.size.toNat ≤ maxMessageSize ∧
          m₁.data.length = m₁.size.toNat := by
        intro m₁ hm₁
        rcases List.mem_append.1 hm₁ with hm₁ | hm₁
        · exact hdelivered m₁ hm₁
        · exact List.mem_singleton.1 hm₁ ▸ ⟨hmax, hsized⟩
      rw [readRounds_ok hrun]
      split
      · exact ⟨nofun, hdelivered'⟩
      · exact ih rest.length (hn ▸ hlt) hdelivered' rfl

/-- **Message framing.** What is sent is read back as the same messages, in whole blocks; and any
stream is read within the buffers, where a size above the maximum ends the loop. -/
theorem framing_lossless :
    (∀ sent : List (FramedMessage × (ℕ → UInt8)), ∃ stream,
      sendMessages (sent.map fun e => (e.1.toMessage, e.2)) = .ok stream ∧
        stream.length % 16 = 0 ∧
        ∀ onMessage fresh, readLoop onMessage fresh stream =
            deliver onMessage [] (sent.map fun e => e.1.toMessage) ∧
          ((∀ l, onMessage l = none) → readLoop onMessage fresh stream =
            finish (sent.map fun e => e.1.toMessage) (.thrown .eof))) ∧
      (∀ onMessage fresh stream, (readLoop onMessage fresh stream).fault ≠ .outOfBounds ∧
        ∀ m ∈ (readLoop onMessage fresh stream).delivered,
          m.size.toNat ≤ maxMessageSize ∧ m.data.length = m.size.toNat) ∧
      ∀ m stream, 16 ≤ stream.length → maxMessageSize < (declaredSize stream).toNat →
        readMessage m stream = .error (.thrown (.exception "m.size <= MAX_MESSAGE_SIZE")) := by
  refine ⟨fun sent => ?_, fun onMessage fresh stream => ?_, fun m stream hfirst hmax => ?_⟩
  · obtain ⟨stream, hsend, hblocks, hread⟩ := readRounds_sendMessages sent
    refine ⟨stream, hsend, hblocks, fun onMessage fresh => ⟨hread .., fun h => ?_⟩⟩
    exact (hread ..).trans (deliver_eq_finish h _)
  · exact readRounds_safe fun m hm => (List.not_mem_nil hm).elim
  · rw [readMessage_eq, if_neg (not_lt.2 hfirst), if_pos hmax]

end LarkX
