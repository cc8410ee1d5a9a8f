import Mathlib.Algebra.Order.Group.Nat
import Mathlib.Data.List.Nodup
import Mathlib.Data.List.Range
import Mathlib.Tactic.Common

/-!
# Fast sync

A `chain_downloader` asks chain servers for all blocks from a number on. A server announces how many
blocks it is about to send, sends them, and looks whether its chain has grown meanwhile; it
announces zero when it has not. The downloader hands every block to a callback.

A connection may fail at any point, by itself, in the callback, or because the downloader gives it
up: `arrives` is how much of what the server writes is read. The block to start from is not moved on,
so every server that is asked sends all its blocks (`deliversOnce_iff`).
-/

namespace LarkX

/-- `PROTOCOL_VERSION`. -/
def protocolVersion : ℕ := 0

/-- What a server writes to its socket: an announced count or a block. -/
inductive SyncWord (β : Type)
  | count (n : ℕ)
  | block (b : β)

/-- The numbers that `get_head_block_num` returns, one call after the other, on a chain that grows.
They are 32-bit. -/
structure HeadReads where
  read : ℕ → ℕ
  mono : Monotone read
  lt : ∀ t, read t < 2 ^ 32

/-- The blocks of a chain, by number. -/
structure ServedChain (β : Type) (blockNum : β → ℕ) where
  block : ℕ → β
  blockNum_block : ∀ n, blockNum (block n) = n

variable {β : Type} {blockNum : β → ℕ}

/-! ### The server -/

/-- The rounds of `handle_get_blocks_from_number`, after `t` looks at the head. The server writes as
long as its chain grows, so what it writes is given up to a number of rounds. -/
def sendBlocks (chain : ServedChain β blockNum) (heads : HeadReads) :
    ℕ → ℕ → ℕ → List (SyncWord β)
  | 0, _, _ => []
  | rounds + 1, startBlock, t =>
    if startBlock ≤ heads.read t then
      let endBlock := heads.read (t + 1)
      let blocksToSend := endBlock - startBlock + 1
      .count blocksToSend ::
        (List.range' startBlock blocksToSend).map (fun n => .block (chain.block n)) ++
          -- past the last 32-bit number the counter is zero, and `get_block` throws
          if endBlock + 1 = 2 ^ 32 then []
          else sendBlocks chain heads rounds (endBlock + 1) (t + 2)
    else [.count 0]

/-- The block a server starts from: there is no block zero. -/
def startBlock (firstBlockNumber : ℕ) : ℕ :=
  if firstBlockNumber = 0 then 1 else firstBlockNumber

/-- A chain server, as the downloader meets it. -/
structure ChainServer (β : Type) (blockNum : β → ℕ) where
  /-- `connect_to` returns. -/
  connects : Bool
  /-- The protocol version it sends, if it gets to that. -/
  version : Option ℕ
  chain : ServedChain β blockNum
  heads : HeadReads
  rounds : ℕ
  /-- How many of its words are read before the connection ends. -/
  arrives : ℕ
  /-- The downloader is left with an exception after this connection. -/
  leaves : Bool

namespace ChainServer

/-- `handle_get_blocks_from_number`. -/
def sent (first : ℕ) (s : ChainServer β blockNum) : List (SyncWord β) :=
  sendBlocks s.chain s.heads s.rounds (startBlock first) 0

end ChainServer

/-! ### The downloader -/

/-- The loop that retrieves blocks: what the callback is given, each block with the number of
announced blocks that are left, and whether the server has announced zero. A count is read where no
blocks are left to retrieve. -/
def retrieve : ℕ → List (SyncWord β) → List (β × ℕ) × Bool
  | 0, .count 0 :: _ => ([], true)
  | 0, .count (n + 1) :: words => retrieve (n + 1) words
  | n + 1, .block b :: words =>
    let rest := retrieve n words
    ((b, n + 1) :: rest.1, rest.2)
  | _, _ => ([], false)

/-- What `connect_to_chain_server` ends with. -/
inductive Connected (β : Type) (blockNum : β → ℕ)
  /-- There are no servers left. -/
  | closed
  /-- The connection broke before the server sent its protocol version. -/
  | broken (s : ChainServer β blockNum)
  | opened (s : ChainServer β blockNum)

/-- `connect_to_chain_server`, with the servers in the order in which they are taken: the
connection and the servers that are left. -/
def connectToChainServer :
    List (ChainServer β blockNum) → Connected β blockNum × List (ChainServer β blockNum)
  | [] => (.closed, [])
  | s :: rest =>
    if s.connects then
      match s.version with
      | none => (.broken s, rest)
      | some version =>
        if version = protocolVersion then (.opened s, rest) else connectToChainServer rest
    else connectToChainServer rest

theorem length_connectToChainServer (s : ChainServer β blockNum)
    (rest : List (ChainServer β blockNum)) :
    (connectToChainServer (s :: rest)).2.length ≤ rest.length := by
  induction rest generalizing s with
  | nil =>
    unfold connectToChainServer
    split
    · split
      · exact le_rfl
      · split <;> exact le_rfl
    · exact le_rfl
  | cons s' rest ih =>
    unfold connectToChainServer
    split
    · split
      · exact le_rfl
      · split
        · exact le_rfl
        · exact (ih s').trans (Nat.le_succ _)
    · exact (ih s').trans (Nat.le_succ _)

/-- The loop of `get_all_blocks` over the servers: those it asks for blocks, one after the other.
It goes on after a connection that failed and after one that did not. -/
def sessions (servers : List (ChainServer β blockNum)) : List (ChainServer β blockNum) :=
  match servers with
  | [] => []
  | s :: rest =>
    match _h : connectToChainServer (s :: rest) with
    | (.closed, _) => []
    | (.broken s', rest') => if s'.leaves then [] else sessions rest'
    | (.opened s', rest') => s' :: if s'.leaves then [] else sessions rest'
termination_by servers.length
decreasing_by all_goals
  have hle := length_connectToChainServer s rest
  rw [‹connectToChainServer _ = _›] at hle
  exact Nat.lt_succ_of_le hle

namespace ChainServer

/-- What is read over the connection to a server. -/
def received (first : ℕ) (s : ChainServer β blockNum) : List (β × ℕ) × Bool :=
  retrieve 0 ((s.sent first).take s.arrives)

/-- The numbers of the blocks that are read over the connection to a server. -/
def numbers (first : ℕ) (s : ChainServer β blockNum) : List ℕ :=
  (s.received first).1.map fun e => blockNum e.1

end ChainServer

/-- `get_all_blocks`: what the callback is given. -/
def getAllBlocks (first : ℕ) (servers : List (ChainServer β blockNum)) : List (β × ℕ) :=
  (sessions servers).flatMap fun s => (s.received first).1

/-! ### Announced counts -/

/-- Every announced count is followed by as many blocks, up to where the words end. -/
inductive Announced : List (SyncWord β) → Prop
  | nil : Announced []
  | stop : Announced [.count 0]
  | batch {n : ℕ} {blocks : List β} {words : List (SyncWord β)} (hn : blocks.length = n + 1)
      (hwords : Announced words) : Announced (.count (n + 1) :: blocks.map .block ++ words)

/-- What follows a batch that ends with a block. -/
def afterBatch (chain : ServedChain β blockNum) (heads : HeadReads) (rounds endBlock t : ℕ) :
    List (SyncWord β) :=
  if endBlock + 1 = 2 ^ 32 then [] else sendBlocks chain heads rounds (endBlock + 1) t

/-- A round in which there are blocks to send. -/
theorem sendBlocks_succ (chain : ServedChain β blockNum) {heads : HeadReads} {start t : ℕ}
    (rounds : ℕ) (h : start ≤ heads.read t) :
    sendBlocks chain heads (rounds + 1) start t =
      .count (heads.read (t + 1) - start + 1) ::
        (((List.range' start (heads.read (t + 1) - start + 1)).map chain.block).map .block ++
          afterBatch chain heads rounds (heads.read (t + 1)) (t + 2)) := by
  rw [sendBlocks, if_pos h, List.map_map]
  rfl

theorem sendBlocks_of_lt (chain : ServedChain β blockNum) {heads : HeadReads} {start t : ℕ}
    (rounds : ℕ) (h : heads.read t < start) :
    sendBlocks chain heads (rounds + 1) start t = [.count 0] := by
  rw [sendBlocks, if_neg (not_le.2 h)]

theorem announced_sendBlocks (chain : ServedChain β blockNum) (heads : HeadReads)
    (rounds start t : ℕ) : Announced (sendBlocks chain heads rounds start t) := by
  induction rounds generalizing start t with
  | zero => exact .nil
  | succ rounds ih =>
    by_cases h : start ≤ heads.read t
    · rw [sendBlocks_succ chain rounds h]
      refine .batch (by rw [List.length_map, List.length_range']) ?_
      unfold afterBatch
      split
      · exact .nil
      · exact ih ..
    · rw [sendBlocks_of_lt chain rounds (not_le.1 h)]
      exact .stop

/-! ### One connection -/

/-- What is read where a batch of blocks is followed by other words, and only `k` words arrive. -/
theorem retrieve_blocks (blocks : List β) (words : List (SyncWord β)) (k : ℕ) :
    (retrieve blocks.length ((blocks.map SyncWord.block ++ words).take k)).1.map Prod.fst =
        blocks.take k ++ (retrieve 0 (words.take (k - blocks.length))).1.map Prod.fst ∧
      ((retrieve blocks.length ((blocks.map SyncWord.block ++ words).take k)).2 = true →
        blocks.length ≤ k ∧ (retrieve 0 (words.take (k - blocks.length))).2 = true) := by
  induction blocks generalizing k with
  | nil =>
    simp only [List.length_nil, List.map_nil, List.nil_append, List.take_nil, Nat.sub_zero]
    exact ⟨trivial, fun h => ⟨Nat.zero_le k, h⟩⟩
  | cons b blocks ih =>
    cases k with
    | zero =>
      rw [List.take_zero, List.take_zero, Nat.zero_sub, List.take_zero]
      exact ⟨rfl, nofun⟩
    | succ k =>
      obtain ⟨hfst, hsnd⟩ := ih k
      rw [List.length_cons, Nat.add_sub_add_right]
      refine ⟨congrArg (b :: ·) hfst, fun h => ?_⟩
      obtain ⟨hle, hrest⟩ := hsnd h
      exact ⟨Nat.succ_le_succ hle, hrest⟩

/-- The head of a chain when its server announces zero: the last one it looks at. -/
def lastHead (heads : HeadReads) : ℕ → ℕ → ℕ → Option ℕ
  | 0, _, _ => none
  | rounds + 1, start, t =>
    if start ≤ heads.read t then
      if heads.read (t + 1) + 1 = 2 ^ 32 then none
      else lastHead heads rounds (heads.read (t + 1) + 1) (t + 2)
    else some (heads.read t)

/-- **One connection** reads consecutive blocks: none where the chain is too short or nothing
arrives, and all up to the head where the server announces zero in the end. -/
theorem retrieve_sendBlocks (chain : ServedChain β blockNum) (heads : HeadReads)
    (rounds start t k : ℕ) :
    ∃ n, (retrieve 0 ((sendBlocks chain heads rounds start t).take k)).1.map Prod.fst =
        (List.range' start n).map chain.block ∧
      (0 < n ↔ 0 < rounds ∧ start ≤ heads.read t ∧ 2 ≤ k) ∧
      ((retrieve 0 ((sendBlocks chain heads rounds start t).take k)).2 = true →
        ∃ h, lastHead heads rounds start t = some h ∧ h < start + n) := by
  induction rounds generalizing start t k with
  | zero =>
    refine ⟨0, ?_, ⟨nofun, fun h => absurd h.1 (lt_irrefl 0)⟩, ?_⟩
    · rw [sendBlocks, List.take_nil]
      rfl
    · rw [sendBlocks, List.take_nil]
      nofun
  | succ rounds ih =>
    cases k with
    | zero => exact ⟨0, rfl, ⟨nofun, fun h => absurd h.2.2 (by decide)⟩, nofun⟩
    | succ k =>
      by_cases h : start ≤ heads.read t
      · set m := heads.read (t + 1) - start + 1 with hm
        set blocks := (List.range' start m).map chain.block with hblocks
        have hlen : blocks.length = m := by rw [hblocks, List.length_map, List.length_range']
        have hmono : heads.read t ≤ heads.read (t + 1) := heads.mono (Nat.le_succ t)
        obtain ⟨hfst, hsnd⟩ := retrieve_blocks blocks
          (afterBatch chain heads rounds (heads.read (t + 1)) (t + 2)) k
        rw [hlen] at hfst hsnd
        have hrun : retrieve 0 ((sendBlocks chain heads (rounds + 1) start t).take (k + 1)) =
            retrieve m ((blocks.map SyncWord.block ++
              afterBatch chain heads rounds (heads.read (t + 1)) (t + 2)).take k) := by
          rw [sendBlocks_succ chain rounds h]
          rfl
        rw [hrun, hfst]
        by_cases hk : k < m
        · have hrest : (retrieve 0 ((afterBatch chain heads rounds (heads.read (t + 1))
              (t + 2)).take (k - m))).1 = [] := by
            rw [Nat.sub_eq_zero_of_le hk.le, List.take_zero]
            rfl
          refine ⟨k, ?_, ⟨fun hpos => ⟨rounds.succ_pos, h, Nat.succ_le_succ hpos⟩,
            fun hpos => Nat.lt_of_succ_le (Nat.le_of_succ_le_succ hpos.2.2)⟩,
            fun hdone => absurd (hsnd hdone).1 (not_le.2 hk)⟩
          rw [hrest, hblocks, ← List.map_take, List.take_range'_of_length_ge hk.le, List.map_nil,
            List.append_nil]
        · have hall : blocks.take k = blocks := List.take_of_length_le (hlen ▸ not_lt.1 hk)
          have hm0 : 0 < m := Nat.succ_pos _
          have hpos : ∀ n, 0 < m + n ↔ 0 < rounds + 1 ∧ start ≤ heads.read t ∧ 2 ≤ k + 1 :=
            fun n => ⟨fun _ => ⟨rounds.succ_pos, h, by omega⟩, fun _ => by omega⟩
          rw [hall]
          unfold afterBatch at hsnd ⊢
          by_cases hwrap : heads.read (t + 1) + 1 = 2 ^ 32
          · -- the server throws before it announces another count
            rw [if_pos hwrap, List.take_nil] at hsnd ⊢
            refine ⟨m, by rw [hblocks]; exact List.append_nil _, hpos 0, fun hdone => ?_⟩
            exact absurd (hsnd hdone).2 Bool.false_ne_true
          · rw [if_neg hwrap] at hsnd ⊢
            obtain ⟨n, hnext, -, hdone⟩ := ih (heads.read (t + 1) + 1) (t + 2) (k - m)
            have hstart : start + m = heads.read (t + 1) + 1 := by omega
            refine ⟨m + n, ?_, hpos n, fun hcomplete => ?_⟩
            · rw [hnext, hblocks, ← List.map_append, ← hstart, List.range'_append_1]
            · obtain ⟨head, hhead, hlt⟩ := hdone (hsnd hcomplete).2
              refine ⟨head, ?_, by omega⟩
              rw [lastHead, if_pos h, if_neg hwrap, hhead]
      · rw [sendBlocks_of_lt chain rounds (not_le.1 h)]
        refine ⟨0, ?_, ⟨nofun, fun h' => absurd h'.2.1 h⟩, fun _ => ⟨heads.read t, ?_, ?_⟩⟩
        · rw [List.take_succ_cons]
          rfl
        · rw [lastHead, if_neg h]
        · exact not_le.1 h

namespace ChainServer

/-- A block gets through from the server: its chain is long enough when it first looks, and the
count and a block arrive. -/
def SendsBlock (first : ℕ) (s : ChainServer β blockNum) : Prop :=
  0 < s.rounds ∧ startBlock first ≤ s.heads.read 0 ∧ 2 ≤ s.arrives

instance (first : ℕ) (s : ChainServer β blockNum) : Decidable (s.SendsBlock first) :=
  inferInstanceAs (Decidable (_ ∧ _))

/-- The head of the chain when the server has answered completely. -/
def answeredHead (first : ℕ) (s : ChainServer β blockNum) : Option ℕ :=
  if (s.received first).2 then lastHead s.heads s.rounds (startBlock first) 0 else none

/-- The numbers of the blocks read over a connection are consecutive, from the start. -/
theorem numbers_eq (first : ℕ) (s : ChainServer β blockNum) :
    ∃ n, s.numbers first = List.range' (startBlock first) n ∧ (0 < n ↔ s.SendsBlock first) ∧
      ∀ h ∈ s.answeredHead first, h < startBlock first + n := by
  obtain ⟨n, hfst, hpos, hdone⟩ :=
    retrieve_sendBlocks s.chain s.heads s.rounds (startBlock first) 0 s.arrives
  refine ⟨n, ?_, hpos, fun h hh => ?_⟩
  · have hnumbers : s.numbers first = ((s.received first).1.map Prod.fst).map blockNum := by
      rw [List.map_map]
      rfl
    have hid : (blockNum ∘ s.chain.block) = id := funext s.chain.blockNum_block
    rw [hnumbers, received, sent, hfst, List.map_map, hid, List.map_id]
  · rw [answeredHead] at hh
    split at hh
    · rename_i hcomplete
      obtain ⟨h', hlast, hlt⟩ := hdone hcomplete
      cases Option.some.inj (hlast.symm.trans hh)
      exact hlt
    · cases hh

end ChainServer

/-! ### All connections -/

/-- Lists that all count up from one number make such a list together when at most one of them is
not empty. -/
theorem flatMap_range'_iff {σ : Type} {f : σ → List ℕ} {p : σ → Bool} {start : ℕ}
    (hf : ∀ s, ∃ n, f s = List.range' start n ∧ (0 < n ↔ p s = true)) (l : List σ) :
    (∃ n, l.flatMap f = List.range' start n) ↔ l.countP p ≤ 1 := by
  have hcount : (l.flatMap f).count start = l.countP p := by
    induction l with
    | nil => rfl
    | cons s l ih =>
      obtain ⟨n, hn, hpos⟩ := hf s
      rw [List.flatMap_cons, List.count_append, ih, hn, List.countP_cons, Nat.add_comm]
      refine congrArg (l.countP p + ·) ?_
      cases n with
      | zero =>
        have hp : ¬p s = true := fun hp => lt_irrefl 0 (hpos.2 hp)
        rw [if_neg hp]
        rfl
      | succ n =>
        rw [if_pos (hpos.1 n.succ_pos)]
        exact List.count_eq_one_of_mem List.nodup_range' (List.mem_range'_1.2 ⟨le_rfl, by omega⟩)
  constructor
  · rintro ⟨n, hn⟩
    rw [← hcount, hn]
    exact List.nodup_iff_count_le_one.1 List.nodup_range' start
  · intro hle
    clear hcount
    induction l with
    | nil => exact ⟨0, rfl⟩
    | cons s l ih =>
      obtain ⟨n, hn, hpos⟩ := hf s
      rw [List.countP_cons] at hle
      by_cases hp : p s = true
      · -- nothing comes after the one list that is not empty
        rw [if_pos hp] at hle
        have hnone : ∀ s' ∈ l, f s' = [] := by
          intro s' hs'
          obtain ⟨n', hn', hpos'⟩ := hf s'
          have hp' := List.countP_eq_zero.1 (Nat.le_zero.1 (Nat.le_of_succ_le_succ hle)) s' hs'
          cases n' with
          | zero => rw [hn']; rfl
          | succ n' => exact absurd (hpos'.1 n'.succ_pos) hp'
        exact ⟨n, by rw [List.flatMap_cons, hn, List.flatMap_eq_nil_iff.2 hnone, List.append_nil]⟩
      · rw [if_neg hp] at hle
        obtain ⟨n', hn'⟩ := ih hle
        refine ⟨n', ?_⟩
        cases n with
        | zero =>
          rw [List.flatMap_cons, hn, hn']
          rfl
        | succ n => exact absurd (hpos.1 n.succ_pos) hp

/-- The numbers of the blocks the callback is given. -/
def blockNumbers (first : ℕ) (servers : List (ChainServer β blockNum)) : List ℕ :=
  (getAllBlocks first servers).map fun e => blockNum e.1

/-- What is asked of a download: the blocks come in order and once, and no block is missing up to
the head of the last server that answered completely. -/
structure DeliversOnce (first : ℕ) (servers : List (ChainServer β blockNum)) : Prop where
  once : ∃ n, blockNumbers first servers = List.range' (startBlock first) n
  covers : ∀ h ∈ ((sessions servers).filterMap (ChainServer.answeredHead first)).getLast?,
    ∀ k, startBlock first ≤ k → k ≤ h → k ∈ blockNumbers first servers

theorem blockNumbers_eq (first : ℕ) (servers : List (ChainServer β blockNum)) :
    blockNumbers first servers = (sessions servers).flatMap (ChainServer.numbers first) := by
  rw [blockNumbers, getAllBlocks, List.map_flatMap]
  rfl

/-- **When a download gives every block once**: exactly when not more than one server gets a block
through. No block is missing in any case, and the announced counts are right. -/
theorem deliversOnce_iff (first : ℕ) (servers : List (ChainServer β blockNum)) :
    (∀ s : ChainServer β blockNum, Announced (s.sent first)) ∧
      (DeliversOnce first servers ↔
        (sessions servers).countP (fun s => s.SendsBlock first) ≤ 1) := by
  refine ⟨fun s => announced_sendBlocks .., ?_⟩
  have hcovers : ∀ h ∈ ((sessions servers).filterMap (ChainServer.answeredHead first)).getLast?,
      ∀ k, startBlock first ≤ k → k ≤ h → k ∈ blockNumbers first servers := by
    intro h hlast k hstart hk
    obtain ⟨s, hs, hhead⟩ := List.mem_filterMap.1 (List.mem_of_mem_getLast? hlast)
    obtain ⟨n, hn, -, hlt⟩ := s.numbers_eq first
    rw [blockNumbers_eq, List.mem_flatMap]
    refine ⟨s, hs, ?_⟩
    rw [hn, List.mem_range'_1]
    exact ⟨hstart, hk.trans_lt (hlt h hhead)⟩
  rw [← flatMap_range'_iff (f := ChainServer.numbers first)]
  · rw [← blockNumbers_eq]
    exact ⟨fun h => h.once, fun h => ⟨h, hcovers⟩⟩
  · intro s
    obtain ⟨n, hn, hpos, -⟩ := s.numbers_eq first
    exact ⟨n, hn, hpos.trans decide_eq_true_iff.symm⟩

/-- A server with two blocks that answers completely. -/
def twoBlocks : ChainServer ℕ id where
  connects := true
  version := some 0
  chain := ⟨id, fun _ => rfl⟩
  heads := ⟨fun _ => 2, monotone_const, fun _ => by decide⟩
  rounds := 2
  arrives := 4
  leaves := false

theorem sessions_of_opened {s s' : ChainServer β blockNum}
    {rest rest' : List (ChainServer β blockNum)}
    (h : connectToChainServer (s :: rest) = (.opened s', rest')) (hleaves : s'.leaves = false) :
    sessions (s :: rest) = s' :: sessions rest' := by
  rw [sessions]
  split
  · cases h.symm.trans ‹_›
  · cases h.symm.trans ‹_›
  · cases h.symm.trans ‹_›
    rw [hleaves]
    rfl

theorem sessions_twoBlocks : sessions [twoBlocks, twoBlocks] = [twoBlocks, twoBlocks] := by
  have hfirst : connectToChainServer [twoBlocks, twoBlocks] = (.opened twoBlocks, [twoBlocks]) :=
    rfl
  have hsecond : connectToChainServer [twoBlocks] = (.opened twoBlocks, []) := rfl
  rw [sessions_of_opened hfirst rfl, sessions_of_opened hsecond rfl, sessions]

/-- Two servers that answer completely give the same blocks twice. -/
theorem not_deliversOnce_twoBlocks : blockNumbers 1 [twoBlocks, twoBlocks] = [1, 2, 1, 2] ∧
    ¬DeliversOnce 1 [twoBlocks, twoBlocks] := by
  have hnumbers : blockNumbers 1 [twoBlocks, twoBlocks] = [1, 2, 1, 2] := by
    rw [blockNumbers_eq, sessions_twoBlocks]
    rfl
  refine ⟨hnumbers, fun h => ?_⟩
  obtain ⟨n, hn⟩ := h.once
  have hnodup : (blockNumbers 1 [twoBlocks, twoBlocks]).Nodup := by
    rw [hn]
    exact List.nodup_range'
  rw [hnumbers] at hnodup
  exact absurd hnodup (by decide)

end LarkX
