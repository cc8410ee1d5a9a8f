import LarkX.Client.Delegate
import LarkX.Db.CachedMap
import LarkX.ForMathlib.Pieces
import LarkX.Market.Engine

/-!
# The order history of a market

With every block the chain database stores the trades of the block under its number, in a table of
its own. `marketOrderHistory` gives out the trades of a market page by page, the newest first: it
goes from block to block through a counter and an iterator that both step back.

The iterator stands on the last block when it starts and on a lower bound of the counter
afterwards, and steps back before it is read. So the newest block is never read, and since the
counter is lowered too, neither is a block right below one that has been. The other blocks are
read in order (`prior_cases`).
-/

namespace LarkX

/-- `order_history_record`. -/
structure OrderHistoryRecord extends MarketTransaction where
  timestamp : ℕ
  deriving DecidableEq, Repr

/-- `get_block_header( block_num )`. -/
def Database.getBlockHeader (db : Database) (blockNum : ℕ) : Fallible SignedBlockHeader := do
  let id ← db.getBlockId blockNum
  orThrow db.blockIdToBlockRecordDb[id]? .optionalNotSet

/-- The chain database with `_market_transactions_db`. -/
structure MarketDatabase extends Database where
  marketTransactionsDb : CachedLevelMap ℕ (List MarketTransaction) := {}

namespace MarketDatabase

variable (db : MarketDatabase)

/-- `set_market_transactions`, on the table. -/
def setMarketTransactions (trxs : List MarketTransaction) :
    CachedM ℕ (List MarketTransaction) Unit :=
  if trxs.length = 0 then CachedLevelMap.remove (db.headBlockNum + 1)
  else CachedLevelMap.store (db.headBlockNum + 1) trxs

/-- `get_market_transactions`. -/
def getMarketTransactions (blockNum : ℕ) : List MarketTransaction :=
  match db.marketTransactionsDb.fetchOptional blockNum with
  | some tmp => tmp
  | none => []

/-! ### A page of the history -/

/-- `get_transactions_from_prior_block`: the counter and the transactions. -/
def priorBlock (currentBlockNum : ℕ) : ℕ × List MarketTransaction :=
  let s := db.marketTransactionsDb
  let itr := if currentBlockNum = db.headBlockNum then s.lastIt else s.lowerBound currentBlockNum
  let itr := if itr.valid then itr.prev s else itr
  match itr.entry s with
  | some (key, value) => (key, value)
  | none => (1, [])

/-- `order_is_uninteresting`. The null address is zero. -/
def orderIsUninteresting (quote base : ℤ) (owner : Address) (order : MarketTransaction) : Bool :=
  if order.askPrice.baseAssetId = base ∧ order.askPrice.quoteAssetId = quote then
    if owner = 0 then false
    else decide (owner ≠ order.bidOwner ∧ owner ≠ order.askOwner)
  else true

section Recorded

variable {db} {trxs : List MarketTransaction}

/-- The transactions of a block that is applied are under its number, if there are any. -/
theorem setMarketTransactions_run (h : db.marketTransactionsDb.Consistent) :
    ∃ s, (db.setMarketTransactions trxs).run db.marketTransactionsDb = .ok () s ∧ s.Consistent ∧
      ∀ n, s.cache[n]? = if n = db.headBlockNum + 1 then (if trxs = [] then none else some trxs)
        else db.marketTransactionsDb.cache[n]? := by
  unfold setMarketTransactions
  split
  · rename_i hnone
    refine ⟨_, CachedLevelMap.remove_run h _, (h.remove _).consistent, fun n => ?_⟩
    rw [(h.remove _).cache n, ← CachedLevelMap.tells_remove, Table.getElem?_erase,
      if_pos (List.length_eq_zero_iff.1 hnone)]
  · rename_i hsome
    refine ⟨_, CachedLevelMap.store_run h _ _, (h.store _ _).consistent, fun n => ?_⟩
    rw [(h.store _ _).cache n, ← CachedLevelMap.tells_store, Table.getElem?_insert,
      if_neg fun hnone => hsome (List.length_eq_zero_iff.2 hnone)]

/-- What is set for a block is what is got for it. -/
theorem getMarketTransactions_set (h : db.marketTransactionsDb.Consistent) :
    ∃ s, (db.setMarketTransactions trxs).run db.marketTransactionsDb = .ok () s ∧
      ∀ n, getMarketTransactions { db with marketTransactionsDb := s } n =
        if n = db.headBlockNum + 1 then trxs else db.getMarketTransactions n := by
  obtain ⟨s, hrun, -, hcache⟩ := @setMarketTransactions_run db trxs h
  refine ⟨s, hrun, fun n => ?_⟩
  unfold getMarketTransactions CachedLevelMap.fetchOptional
  rw [hcache n]
  split_ifs with hn hnone
  · exact hnone.symm
  · rfl
  · rfl

end Recorded

variable (isUninteresting : MarketTransaction → Bool)

/-- The orders that are not erased. -/
def interesting (orders : List MarketTransaction) : List MarketTransaction :=
  orders.filter fun order => !isUninteresting order

/-- The loop that skips blocks, with one unit of fuel for each block: what is left to skip, the
counter and the orders. -/
def skipBlocks : (fuel skipCount currentBlockNum : ℕ) → List MarketTransaction →
    ℕ × ℕ × List MarketTransaction
  | 0, skipCount, currentBlockNum, orders => (skipCount, currentBlockNum, orders)
  | fuel + 1, skipCount, currentBlockNum, orders =>
    if 0 < skipCount then
      -- the counter is at least one here
      let currentBlockNum := currentBlockNum - 1
      if 0 < currentBlockNum ∧ orders.length ≤ skipCount then
        let prior := db.priorBlock currentBlockNum
        skipBlocks fuel (skipCount - orders.length) prior.1 (interesting isUninteresting prior.2)
      else (skipCount, currentBlockNum, orders)
    else (skipCount, currentBlockNum, orders)

/-- The loop over the orders of one more block, and whether it returns. -/
def pushOrders (limit stamp : ℕ) : (results : List OrderHistoryRecord) → List MarketTransaction →
    List OrderHistoryRecord × Bool
  | results, [] => (results, false)
  | results, rec :: moreOrders =>
    if results.length < limit then pushOrders limit stamp (results ++ [⟨rec, stamp⟩]) moreOrders
    else (results, true)

/-- The loop that goes on until the limit is reached, with one unit of fuel for each block. -/
def fillUp (limit size : ℕ) : (fuel currentBlockNum : ℕ) → List OrderHistoryRecord →
    Fallible (List OrderHistoryRecord)
  | 0, _, results => return results
  | fuel + 1, currentBlockNum, results =>
    let currentBlockNum := currentBlockNum - 1
    if 1 ≤ currentBlockNum ∧ size < limit then do
      let prior := db.priorBlock currentBlockNum
      let header ← db.getBlockHeader prior.1
      let pushed := pushOrders limit header.timestamp results (interesting isUninteresting prior.2)
      if pushed.2 then return pushed.1
      else fillUp limit size fuel prior.1 pushed.1
    else return results

/-- `market_order_history` from where the blocks are skipped. -/
def historyFrom (limit : ℕ) (skipped : ℕ × ℕ × List MarketTransaction) :
    Fallible (List OrderHistoryRecord) :=
  let skipCount := skipped.1
  let currentBlockNum := skipped.2.1
  let orders := skipped.2.2
  if currentBlockNum = 0 ∧ orders.length ≤ skipCount then return []
  else do
    let orders := orders.drop skipCount
    let header ← db.getBlockHeader currentBlockNum
    let results := orders.map fun rec => ⟨rec, header.timestamp⟩
    db.fillUp isUninteresting limit orders.length currentBlockNum currentBlockNum results

/-- `market_order_history`. -/
def marketOrderHistory (quote base : ℤ) (skipCount limit : ℕ) (owner : Address) :
    Fallible (List OrderHistoryRecord) := do
  require (limit ≤ 10000) (.assertion "Limit must be at most 10000!")
  let currentBlockNum := db.headBlockNum
  require (0 < currentBlockNum) (.assertion "No blocks have been created yet!")
  let prior := db.priorBlock currentBlockNum
  let isUninteresting := orderIsUninteresting quote base owner
  db.historyFrom isUninteresting limit (db.skipBlocks isUninteresting prior.1 skipCount prior.1
    (interesting isUninteresting prior.2))

end MarketDatabase

/-- A chain with the trades of its blocks. Every block has a header, and the times of the blocks
rise; what is recorded is under the number of a block. -/
structure MarketChain extends MarketDatabase where
  header : ∀ n, 1 ≤ n → n ≤ toDatabase.headBlockNum →
    ∃ header, toDatabase.getBlockHeader n = .ok header
  no_genesis : toDatabase.blockNumToIdDb[0]? = none
  later : ∀ m n header header', m < n → toDatabase.getBlockHeader m = .ok header →
    toDatabase.getBlockHeader n = .ok header' → header.timestamp < header'.timestamp
  recorded : ∀ (n : ℕ) (trxs : List MarketTransaction),
    marketTransactionsDb.cache[n]? = some trxs → 1 ≤ n ∧ n ≤ toDatabase.headBlockNum

namespace MarketChain

open MarketDatabase

variable (c : MarketChain)

/-- The time of a block. -/
def timeOf (blockNum : ℕ) : ℕ :=
  match c.getBlockHeader blockNum with
  | .ok header => header.timestamp
  | .error _ => 0

/-- The recorded blocks, the newest first. -/
def newestFirst : List (ℕ × List MarketTransaction) :=
  c.marketTransactionsDb.cache.toList.reverse

/-- The orders of a block that are not erased, with the time of the block. -/
def stamped (isUninteresting : MarketTransaction → Bool) (block : ℕ × List MarketTransaction) :
    List OrderHistoryRecord :=
  (interesting isUninteresting block.2).map fun rec => ⟨rec, c.timeOf block.1⟩

/-- All matching transactions, from the newest block to the oldest. -/
def matching (quote base : ℤ) (owner : Address) : List OrderHistoryRecord :=
  c.newestFirst.flatMap (c.stamped (orderIsUninteresting quote base owner))

/-- **A page is a slice** of all matching transactions. -/
def IsPage (quote base : ℤ) (skipCount limit : ℕ) (owner : Address) : Prop :=
  limit ≤ 10000 → 0 < c.headBlockNum →
    c.marketOrderHistory quote base skipCount limit owner =
      .ok (Piece.slice skipCount limit (c.matching quote base owner))

/-! ### Going from block to block -/

variable {c : MarketChain} {isUninteresting : MarketTransaction → Bool}

/-- The recorded blocks as pieces, and which of them are read below a block number. -/
def pieces (c : MarketChain) (isUninteresting : MarketTransaction → Bool) :
    ℕ → List (ℕ × List MarketTransaction) → List (Piece OrderHistoryRecord)
  | _, [] => []
  | bound, e :: rest =>
    if e.1 < bound then
      ⟨c.stamped isUninteresting e, true⟩ :: pieces c isUninteresting (e.1 - 1) rest
    else ⟨c.stamped isUninteresting e, false⟩ :: pieces c isUninteresting bound rest

theorem newestFirst_pairwise (c : MarketChain) :
    c.newestFirst.Pairwise fun e e' => e'.1 < e.1 := by
  rw [newestFirst, List.pairwise_reverse]
  exact Std.ExtTreeMap.ordered_keys_toList.imp fun h => Nat.compare_eq_lt.1 h

/-- What an iterator reads that steps back to the first block of `rest`. -/
theorem entry_of_at {l₁ rest : List (ℕ × List MarketTransaction)}
    (hsplit : c.newestFirst = l₁ ++ rest) (hl₁ : l₁ ≠ []) {it : CachedLevelMap.Iterator ℕ}
    (hit : it.At c.marketTransactionsDb.cache.toList rest.length) :
    (if it.valid then it.prev c.marketTransactionsDb else it).entry c.marketTransactionsDb =
      rest.head? := by
  have hlist : c.marketTransactionsDb.cache.toList = rest.reverse ++ l₁.reverse := by
    rw [← List.reverse_append, ← hsplit, newestFirst, List.reverse_reverse]
  have hlt : rest.length < c.marketTransactionsDb.cache.toList.length := by
    have hpos := List.length_pos_iff.2 hl₁
    rw [hlist, List.length_append, List.length_reverse, List.length_reverse]
    omega
  have hanswers := CachedLevelMap.answersAs_cache c.marketTransactionsDb
  have hprev := hanswers.prev it rest.length hlt.le hit
  rw [hanswers.valid it rest.length hit, if_pos (decide_eq_true hlt), hanswers.entry _ _ hprev]
  cases rest with
  | nil =>
    rw [List.length_nil, if_pos rfl, List.getElem?_eq_none le_rfl]
    rfl
  | cons e rest =>
    rw [List.length_cons, if_neg (Nat.succ_ne_zero _), Nat.add_sub_cancel, hlist,
      List.reverse_cons, List.append_assoc,
      List.getElem?_append_right (by rw [List.length_reverse]), List.length_reverse, Nat.sub_self]
    rfl

/-- The block that is read when the iterator has stepped back. -/
theorem priorBlock_of_at {l₁ rest : List (ℕ × List MarketTransaction)} {currentBlockNum : ℕ}
    {it : CachedLevelMap.Iterator ℕ} (hsplit : c.newestFirst = l₁ ++ rest) (hl₁ : l₁ ≠ [])
    (hstart : (if currentBlockNum = c.headBlockNum then c.marketTransactionsDb.lastIt
      else c.marketTransactionsDb.lowerBound currentBlockNum) = it)
    (hit : it.At c.marketTransactionsDb.cache.toList rest.length) :
    c.priorBlock currentBlockNum = rest.head?.getD (1, []) := by
  unfold priorBlock
  simp only [hstart, entry_of_at hsplit hl₁ hit]
  cases rest.head? <;> rfl

/-- The lower bound of a block number stands before the blocks below it. -/
theorem lowerBound_at {l₁ rest : List (ℕ × List MarketTransaction)} {bound : ℕ}
    (hsplit : c.newestFirst = l₁ ++ rest) (hl₁ : ∀ e ∈ l₁, bound ≤ e.1)
    (hrest : ∀ e ∈ rest, e.1 < bound) :
    (c.marketTransactionsDb.lowerBound bound).At c.marketTransactionsDb.cache.toList
      rest.length := by
  have hlist : c.marketTransactionsDb.cache.toList = rest.reverse ++ l₁.reverse := by
    rw [← List.reverse_append, ← hsplit, newestFirst, List.reverse_reverse]
  obtain ⟨i, hi, hat, hplace⟩ := c.marketTransactionsDb.lowerBound_at bound
  have heq : i = rest.length := by
    rcases lt_trichotomy i rest.length with hlt | heq | hlt
    · have hlt' : i < rest.reverse.length := by rwa [List.length_reverse]
      obtain ⟨e, he⟩ : ∃ e, rest.reverse[i]? = some e := ⟨_, List.getElem?_eq_getElem hlt'⟩
      have hbelow := hrest e (List.mem_reverse.1 (List.mem_of_getElem? he))
      rw [← List.getElem?_append_left hlt', ← hlist] at he
      exact absurd ((hplace i e he).2 (Nat.compare_eq_lt.2 hbelow)) (lt_irrefl i)
    · exact heq
    · obtain ⟨e, he⟩ : ∃ e, c.marketTransactionsDb.cache.toList[rest.length]? = some e :=
        ⟨_, List.getElem?_eq_getElem (hlt.trans_le hi)⟩
      have hbelow := Nat.compare_eq_lt.1 ((hplace _ e he).1 hlt)
      rw [hlist, List.getElem?_append_right (by rw [List.length_reverse])] at he
      have habove := hl₁ e (List.mem_reverse.1 (List.mem_of_getElem? he))
      omega
  rwa [← heq]

/-- At first the block below the newest is read. -/
theorem priorBlock_head {e : ℕ × List MarketTransaction} {rest : List (ℕ × List MarketTransaction)}
    (hsplit : c.newestFirst = e :: rest) :
    c.priorBlock c.headBlockNum = rest.head?.getD (1, []) := by
  have hlength : c.marketTransactionsDb.cache.toList.length - 1 = rest.length := by
    rw [← List.length_reverse, ← newestFirst, hsplit, List.length_cons, Nat.add_sub_cancel]
  have hlast := (CachedLevelMap.answersAs_cache c.marketTransactionsDb).lastIt
  rw [hlength] at hlast
  exact @priorBlock_of_at c [e] rest _ _ hsplit (List.cons_ne_nil _ _) (if_pos rfl) hlast

theorem priorBlock_head_nil (hnone : c.newestFirst = []) :
    c.priorBlock c.headBlockNum = (1, []) := by
  have hempty : c.marketTransactionsDb.cache.toList = [] := List.reverse_eq_nil_iff.1 hnone
  have hanswers := CachedLevelMap.answersAs_cache c.marketTransactionsDb
  have hvalid : c.marketTransactionsDb.lastIt.valid = false := by
    rw [hanswers.valid _ _ hanswers.lastIt, hempty]
    rfl
  have hentry : c.marketTransactionsDb.lastIt.entry c.marketTransactionsDb = none := by
    rw [hanswers.entry _ _ hanswers.lastIt, hempty]
    rfl
  unfold priorBlock
  simp only [if_pos, hvalid, Bool.false_eq_true, if_false, hentry]

/-- Afterwards the block below the counter is read. -/
theorem priorBlock_below {l₁ rest : List (ℕ × List MarketTransaction)} {currentBlockNum : ℕ}
    (hsplit : c.newestFirst = l₁ ++ rest) (hne : l₁ ≠ []) (hhead : currentBlockNum ≠ c.headBlockNum)
    (hl₁ : ∀ e ∈ l₁, currentBlockNum ≤ e.1) (hrest : ∀ e ∈ rest, e.1 < currentBlockNum) :
    c.priorBlock currentBlockNum = rest.head?.getD (1, []) :=
  priorBlock_of_at hsplit hne (if_neg hhead) (lowerBound_at hsplit hl₁ hrest)

theorem read_pieces_cons {e : ℕ × List MarketTransaction} {rest : List (ℕ × List MarketTransaction)}
    {bound : ℕ} (h : e.1 < bound) :
    Piece.read (pieces c isUninteresting bound (e :: rest)) =
      c.stamped isUninteresting e :: Piece.read (pieces c isUninteresting (e.1 - 1) rest) := by
  rw [pieces, if_pos h]
  exact Piece.read_cons_of_read rfl

theorem read_pieces_append {l₂ rest : List (ℕ × List MarketTransaction)} {bound : ℕ}
    (h : ∀ e ∈ l₂, bound ≤ e.1) :
    Piece.read (pieces c isUninteresting bound (l₂ ++ rest)) =
      Piece.read (pieces c isUninteresting bound rest) := by
  induction l₂ with
  | nil => rfl
  | cons e l₂ ih =>
    rw [List.cons_append, pieces, if_neg (not_lt.2 (h e List.mem_cons_self)),
      Piece.read_cons_of_not_read Bool.false_ne_true]
    exact ih fun e' he' => h e' (List.mem_cons_of_mem _ he')

/-- **Going back by one block**: there is no more block to read, or the next one is read. -/
theorem prior_cases {l₁ rest : List (ℕ × List MarketTransaction)} {e : ℕ × List MarketTransaction}
    {bound : ℕ} (hsplit : c.newestFirst = l₁ ++ e :: rest) (hbound : bound ≤ e.1)
    (hhead : bound ≠ c.headBlockNum) :
    (c.priorBlock bound = (1, []) ∧ Piece.read (pieces c isUninteresting bound rest) = []) ∨
      ∃ l b rest', c.newestFirst = l ++ b :: rest' ∧ b.1 < bound ∧ c.priorBlock bound = b ∧
        Piece.read (pieces c isUninteresting bound rest) =
          c.stamped isUninteresting b :: Piece.read (pieces c isUninteresting (b.1 - 1) rest') := by
  have hfalls := c.newestFirst_pairwise
  rw [hsplit, List.pairwise_append, List.pairwise_cons] at hfalls
  obtain ⟨-, ⟨-, hrest⟩, hl₁⟩ := hfalls
  have habove : ∀ e' ∈ l₁ ++ [e], bound ≤ e'.1 := fun e' he' => by
    rcases List.mem_append.1 he' with he' | he'
    · exact hbound.trans (hl₁ e' he' e List.mem_cons_self).le
    · rwa [List.mem_singleton.1 he']
  cases hfound : rest.find? fun e' => decide (e'.1 < bound) with
  | none =>
    have hover : ∀ e' ∈ rest, bound ≤ e'.1 := fun e' he' => by
      simpa using List.find?_eq_none.1 hfound e' he'
    have hnone : c.newestFirst = (l₁ ++ [e] ++ rest) ++ [] := by
      rw [hsplit, List.append_nil, List.append_assoc, List.singleton_append]
    refine .inl ⟨priorBlock_below hnone (by simp) hhead (fun e' he' => ?_) nofun, ?_⟩
    · exact (List.mem_append.1 he').elim (habove e') (hover e')
    · rw [← List.append_nil rest]
      exact read_pieces_append hover
  | some b =>
    obtain ⟨hb, l₂, rest', rfl, hover⟩ := List.find?_eq_some_iff_append.1 hfound
    have hb : b.1 < bound := of_decide_eq_true hb
    have hover : ∀ e' ∈ l₂, bound ≤ e'.1 := fun e' he' => by simpa using hover e' he'
    rw [List.pairwise_append, List.pairwise_cons] at hrest
    have hnext : c.newestFirst = (l₁ ++ [e] ++ l₂) ++ b :: rest' := by
      rw [hsplit, List.append_assoc, List.append_assoc, List.singleton_append]
    refine .inr ⟨_, b, rest', hnext, hb, ?_, ?_⟩
    · refine priorBlock_below hnext (by simp) hhead (fun e' he' => ?_) fun e' he' => ?_
      · exact (List.mem_append.1 he').elim (habove e') (hover e')
      · rcases List.mem_cons.1 he' with rfl | he'
        · exact hb
        · exact (hrest.2.1.1 e' he').trans hb
    · rw [read_pieces_append hover, read_pieces_cons hb]

/-- The first step goes to the block below the newest one. -/
theorem prior_cases_head {e : ℕ × List MarketTransaction}
    {rest : List (ℕ × List MarketTransaction)} (hsplit : c.newestFirst = e :: rest) :
    (c.priorBlock c.headBlockNum = (1, []) ∧
        Piece.read (pieces c isUninteresting e.1 rest) = []) ∨
      ∃ l b rest', c.newestFirst = l ++ b :: rest' ∧ c.priorBlock c.headBlockNum = b ∧
        Piece.read (pieces c isUninteresting e.1 rest) =
          c.stamped isUninteresting b :: Piece.read (pieces c isUninteresting (b.1 - 1) rest') := by
  have hprior := priorBlock_head hsplit
  have hfalls := c.newestFirst_pairwise
  rw [hsplit, List.pairwise_cons] at hfalls
  cases rest with
  | nil => exact .inl ⟨hprior, rfl⟩
  | cons b rest =>
    exact .inr ⟨[e], b, rest, hsplit, hprior, read_pieces_cons (hfalls.1 b List.mem_cons_self)⟩

end MarketChain

end LarkX
