import LarkX.Market.OrderHistory

/-!
# The pages of the order history

Where the skip ends between two blocks, the order history gives out what the reader of `Piece`
does. Where it ends inside of a block, the counter is one lower by then, and the orders get the
time of the block before (`marketOrderHistory_spec`).

Hence `isPage_iff`: a page is a slice of the history exactly if the skip ends between two blocks,
the next block fits, and no trade is passed over before the page is full.
-/

namespace LarkX

namespace MarketChain

open MarketDatabase

variable {c : MarketChain} {isUninteresting : MarketTransaction → Bool}

/-! ### The loops -/

theorem mem_newestFirst {e : ℕ × List MarketTransaction} (h : e ∈ c.newestFirst) :
    1 ≤ e.1 ∧ e.1 ≤ c.headBlockNum :=
  c.recorded e.1 e.2 (Table.mem_toList.1 (List.mem_reverse.1 h))

theorem getBlockHeader_eq {blockNum : ℕ} (h : 1 ≤ blockNum) (h' : blockNum ≤ c.headBlockNum) :
    ∃ header, c.getBlockHeader blockNum = .ok header ∧ header.timestamp = c.timeOf blockNum := by
  obtain ⟨header, hheader⟩ := c.header blockNum h h'
  refine ⟨header, hheader, ?_⟩
  rw [timeOf, hheader]

/-- Orders are pushed until the limit is reached. -/
theorem pushOrders_eq {limit stamp : ℕ} {results : List OrderHistoryRecord}
    {moreOrders : List MarketTransaction} :
    pushOrders limit stamp results moreOrders =
      (results ++ (moreOrders.map fun rec => ⟨rec, stamp⟩).take (limit - results.length),
        decide (limit - results.length < moreOrders.length)) := by
  induction moreOrders generalizing results with
  | nil =>
    rw [pushOrders, List.map_nil, List.take_nil, List.append_nil]
    rfl
  | cons rec moreOrders ih =>
    unfold pushOrders
    split
    · rename_i hlt
      obtain ⟨n, hn⟩ := Nat.exists_eq_add_of_lt hlt
      have hsub : limit - results.length = n + 1 := by omega
      have hsub' : limit - (results ++ [(⟨rec, stamp⟩ : OrderHistoryRecord)]).length = n := by
        rw [List.length_append, List.length_singleton]
        omega
      rw [ih, hsub, hsub', List.map_cons, List.take_succ_cons, List.append_assoc,
        List.singleton_append, List.length_cons]
      simp only [Nat.add_lt_add_iff_right]
    · rename_i hge
      have hsub : limit - results.length = 0 := by omega
      rw [hsub, List.take_zero, List.append_nil, decide_eq_true (by simp)]

/-- Nothing is below the first block. -/
theorem read_pieces_zero (rest : List (ℕ × List MarketTransaction)) :
    Piece.read (pieces c isUninteresting 0 rest) = [] := by
  rw [← List.append_nil rest]
  exact read_pieces_append fun _ _ => Nat.zero_le _

theorem length_stamped (c : MarketChain) (isUninteresting : MarketTransaction → Bool)
    (block : ℕ × List MarketTransaction) :
    (c.stamped isUninteresting block).length = (interesting isUninteresting block.2).length :=
  List.length_map _

section Loops

variable {l₁ rest : List (ℕ × List MarketTransaction)} {e : ℕ × List MarketTransaction}
  {fuel limit size skipCount : ℕ} {results : List OrderHistoryRecord}

/-- With the counter at one there is no block left. -/
theorem fillUp_one : c.fillUp isUninteresting limit size fuel 1 results = .ok results := by
  cases fuel with
  | zero => rfl
  | succ fuel => rfl

/-- The page is filled up with the blocks that are read, and cut off at the limit. -/
theorem fillUp_eq (hsplit : c.newestFirst = l₁ ++ e :: rest) (hfuel : e.1 ≤ fuel)
    (hsize : size < limit) :
    c.fillUp isUninteresting limit size fuel e.1 results = .ok (results ++
      (Piece.read (pieces c isUninteresting (e.1 - 1) rest)).flatten.take
        (limit - results.length)) := by
  induction fuel generalizing l₁ e rest results with
  | zero =>
    have hblock := mem_newestFirst (c := c) (by rw [hsplit]; exact List.mem_append_cons_self)
    omega
  | succ fuel ih =>
    have hblock := mem_newestFirst (c := c) (by rw [hsplit]; exact List.mem_append_cons_self)
    unfold fillUp
    by_cases hmore : 1 ≤ e.1 - 1
    · rw [if_pos ⟨hmore, hsize⟩]
      rcases @prior_cases c isUninteresting l₁ rest e (e.1 - 1) hsplit (by omega) (by omega) with
        ⟨hprior, hread⟩ | ⟨l, b, rest', hsplit', hb, hprior, hread⟩
      · obtain ⟨header, hheader, -⟩ := c.getBlockHeader_eq le_rfl (hblock.1.trans hblock.2)
        rw [hprior, hread]
        simp only [hheader, ok_bind, interesting, List.filter_nil, pushOrders, Bool.false_eq_true,
          if_false]
        rw [fillUp_one, List.flatten_nil, List.take_nil, List.append_nil]
      · have hblock' := mem_newestFirst (c := c) (by rw [hsplit']; exact List.mem_append_cons_self)
        obtain ⟨header, hheader, htime⟩ := c.getBlockHeader_eq hblock'.1 hblock'.2
        have hpushed : pushOrders limit header.timestamp results (interesting isUninteresting b.2) =
            (results ++ (c.stamped isUninteresting b).take (limit - results.length),
              decide (limit - results.length < (c.stamped isUninteresting b).length)) := by
          rw [pushOrders_eq, htime, length_stamped]
          rfl
        rw [hprior, hread, List.flatten_cons]
        simp only [hheader, ok_bind, hpushed]
        split
        · rename_i hfull
          have hlt := of_decide_eq_true hfull
          rw [List.take_append_of_le_length hlt.le]
          rfl
        · rename_i hroom
          have hle := not_lt.1 fun h => hroom (decide_eq_true h)
          rw [ih hsplit' (by omega), List.take_append, List.take_of_length_le hle,
            List.length_append, List.append_assoc, Nat.sub_add_eq]
    · rw [if_neg fun h => hmore h.1, Nat.le_zero.1 (by omega : e.1 - 1 ≤ 0), read_pieces_zero,
        List.flatten_nil, List.take_nil, List.append_nil]
      rfl

/-- The results that there are stay in front. -/
theorem prefix_of_fillUp {currentBlockNum : ℕ} {results' : List OrderHistoryRecord}
    (h : c.fillUp isUninteresting limit size fuel currentBlockNum results = .ok results') :
    results <+: results' := by
  induction fuel generalizing currentBlockNum results with
  | zero =>
    cases h
    exact List.prefix_rfl
  | succ fuel ih =>
    unfold fillUp at h
    simp only [ite_eq_ok, bind_eq_ok, pure_eq_ok, pushOrders_eq] at h
    rcases h with ⟨-, header, -, ⟨-, rfl⟩ | ⟨-, h⟩⟩ | ⟨-, rfl⟩
    · exact List.prefix_append _ _
    · exact (List.prefix_append _ _).trans (ih h)
    · exact List.prefix_rfl

/-- With the counter at one there is nothing left to give out. -/
theorem historyFrom_one (hhead : 0 < c.headBlockNum) :
    c.historyFrom isUninteresting limit (c.skipBlocks isUninteresting fuel skipCount 1 []) =
      .ok [] := by
  obtain ⟨header, hheader, -⟩ := c.getBlockHeader_eq le_rfl hhead
  have hone : ∀ k, c.historyFrom isUninteresting limit (k, 1, []) = .ok [] := fun k => by
    unfold historyFrom
    simp only [hheader, ok_bind, List.drop_nil, List.map_nil]
    exact fillUp_one
  cases fuel with
  | zero => exact hone _
  | succ fuel =>
    unfold skipBlocks
    split
    · rfl
    · exact hone _

theorem fillUp_of_le {currentBlockNum : ℕ} (h : limit ≤ size) :
    c.fillUp isUninteresting limit size fuel currentBlockNum results = .ok results := by
  cases fuel with
  | zero => rfl
  | succ fuel =>
    unfold fillUp
    rw [if_neg fun hmore => not_lt.2 h hmore.2]
    rfl

/-- With nothing left to skip the block is given out, and the page is filled up. -/
theorem historyFrom_zero (hsplit : c.newestFirst = l₁ ++ e :: rest) :
    c.historyFrom isUninteresting limit (0, e.1, interesting isUninteresting e.2) =
      .ok (c.stamped isUninteresting e ++
        (Piece.read (pieces c isUninteresting (e.1 - 1) rest)).flatten.take
          (limit - (c.stamped isUninteresting e).length)) := by
  have hblock := mem_newestFirst (c := c) (by rw [hsplit]; exact List.mem_append_cons_self)
  obtain ⟨header, hheader, htime⟩ := c.getBlockHeader_eq hblock.1 hblock.2
  unfold historyFrom
  rw [if_neg fun h => absurd h.1 (Nat.ne_of_gt hblock.1), hheader, ok_bind, htime, List.drop_zero]
  change c.fillUp isUninteresting limit _ e.1 e.1 (c.stamped isUninteresting e) = _
  by_cases hsize : (interesting isUninteresting e.2).length < limit
  · exact fillUp_eq hsplit le_rfl hsize
  · rw [fillUp_of_le (not_lt.1 hsize), length_stamped, Nat.sub_eq_zero_of_le (not_lt.1 hsize),
      List.take_zero, List.append_nil]

/-- Where the skip ends inside of a block, the orders have the time of the block before. -/
theorem historyFrom_inside (hsplit : c.newestFirst = l₁ ++ e :: rest)
    (hskip : skipCount < (interesting isUninteresting e.2).length) {r : List OrderHistoryRecord}
    (h : c.historyFrom isUninteresting limit
      (skipCount, e.1 - 1, interesting isUninteresting e.2) = .ok r) :
    ∃ first r', r = first :: r' ∧ first.timestamp < c.timeOf e.1 := by
  have hblock := mem_newestFirst (c := c) (by rw [hsplit]; exact List.mem_append_cons_self)
  obtain ⟨header, hheader, htime⟩ := c.getBlockHeader_eq hblock.1 hblock.2
  unfold historyFrom at h
  rw [if_neg fun h => absurd h.2 (not_le.2 hskip), bind_eq_ok] at h
  obtain ⟨before, hbefore, h⟩ := h
  obtain ⟨t, rfl⟩ := prefix_of_fillUp h
  rw [List.drop_eq_getElem_cons hskip]
  refine ⟨_, _, rfl, ?_⟩
  rw [← htime]
  exact c.later (e.1 - 1) e.1 _ _ (by omega) hbefore hheader

/-- **The loops are the reader.** From a block that is read, the blocks are skipped and the page is
filled as `page` says; where the skip ends inside of a block, what is returned begins with an
earlier time than any of its orders has. -/
theorem historyFrom_skipBlocks (hsplit : c.newestFirst = l₁ ++ e :: rest) (hfuel : e.1 ≤ fuel) :
    match Piece.page limit skipCount
      (c.stamped isUninteresting e :: Piece.read (pieces c isUninteresting (e.1 - 1) rest)) with
    | .ok r => c.historyFrom isUninteresting limit (c.skipBlocks isUninteresting fuel skipCount e.1
        (interesting isUninteresting e.2)) = .ok r
    | .error p => ∀ r, c.historyFrom isUninteresting limit (c.skipBlocks isUninteresting fuel
        skipCount e.1 (interesting isUninteresting e.2)) = .ok r →
          ∃ first r', r = first :: r' ∧ ∀ a ∈ p, first.timestamp < a.timestamp := by
  induction fuel generalizing l₁ e rest skipCount with
  | zero =>
    have hblock := mem_newestFirst (c := c) (by rw [hsplit]; exact List.mem_append_cons_self)
    omega
  | succ fuel ih =>
    have hblock := mem_newestFirst (c := c) (by rw [hsplit]; exact List.mem_append_cons_self)
    unfold Piece.page skipBlocks
    rw [length_stamped]
    by_cases hskip : skipCount = 0
    · rw [if_pos hskip, if_neg (by omega), hskip, ← length_stamped]
      exact historyFrom_zero hsplit
    · rw [if_neg hskip, if_pos (Nat.pos_of_ne_zero hskip)]
      by_cases hsize : (interesting isUninteresting e.2).length ≤ skipCount
      · rw [if_pos hsize]
        by_cases hlast : 0 < e.1 - 1
        · rw [if_pos ⟨hlast, hsize⟩]
          rcases @prior_cases c isUninteresting l₁ rest e (e.1 - 1) hsplit (by omega)
            (by omega) with ⟨hprior, hread⟩ | ⟨l, b, rest', hsplit', hb, hprior, hread⟩
          · rw [hprior, hread]
            exact historyFrom_one (hblock.1.trans hblock.2)
          · rw [hprior, hread]
            exact ih hsplit' (by omega)
        · rw [if_neg fun h => hlast h.1, Nat.eq_zero_of_not_pos hlast, read_pieces_zero]
          unfold historyFrom
          exact if_pos ⟨rfl, hsize⟩
      · rw [if_neg hsize, if_neg fun h => hsize h.2]
        intro r hr
        obtain ⟨first, r', hr, hfirst⟩ := historyFrom_inside hsplit (not_le.1 hsize) hr
        refine ⟨first, r', hr, fun a ha => ?_⟩
        obtain ⟨order, -, rfl⟩ := List.mem_map.1 ha
        exact hfirst

end Loops

/-! ### The pages of a chain -/

/-- All recorded blocks as pieces: what is read is below the newest. -/
def history (c : MarketChain) (isUninteresting : MarketTransaction → Bool) :
    List (Piece OrderHistoryRecord) :=
  pieces c isUninteresting ((c.newestFirst.head?.map Prod.fst).getD 0) c.newestFirst

theorem items_pieces (l : List (ℕ × List MarketTransaction)) (bound : ℕ) :
    (pieces c isUninteresting bound l).map Piece.items = l.map (c.stamped isUninteresting) := by
  induction l generalizing bound with
  | nil => rfl
  | cons e rest ih =>
    unfold pieces
    split <;> rw [List.map_cons, List.map_cons, ih]

theorem all_history (quote base : ℤ) (owner : Address) :
    Piece.all (history c (orderIsUninteresting quote base owner)) =
      c.matching quote base owner := by
  rw [Piece.all_eq_flatten, history, items_pieces]
  rfl

theorem timestamp_of_mem_stamped {e : ℕ × List MarketTransaction} {a : OrderHistoryRecord}
    (h : a ∈ c.stamped isUninteresting e) : a.timestamp = c.timeOf e.1 := by
  obtain ⟨order, -, rfl⟩ := List.mem_map.1 h
  rfl

/-- The times fall from block to block. -/
theorem stamped_history (c : MarketChain) (isUninteresting : MarketTransaction → Bool) :
    Piece.Stamped OrderHistoryRecord.timestamp ((history c isUninteresting).map Piece.items) := by
  rw [history, items_pieces]
  constructor
  · rw [List.pairwise_map]
    refine c.newestFirst_pairwise.imp_of_mem fun {e e'} he he' hlt a ha b hb => ?_
    have hblock := mem_newestFirst he
    have hblock' := mem_newestFirst he'
    obtain ⟨header, hheader, htime⟩ := c.getBlockHeader_eq hblock.1 hblock.2
    obtain ⟨header', hheader', htime'⟩ := c.getBlockHeader_eq hblock'.1 hblock'.2
    rw [timestamp_of_mem_stamped ha, timestamp_of_mem_stamped hb, ← htime, ← htime']
    exact c.later _ _ _ _ hlt hheader' hheader
  · intro p hp a ha b hb
    obtain ⟨e, -, rfl⟩ := List.mem_map.1 hp
    rw [timestamp_of_mem_stamped ha, timestamp_of_mem_stamped hb]

/-- **The order history is the reader** of the recorded blocks. -/
theorem marketOrderHistory_spec {quote base : ℤ} {skipCount limit : ℕ} {owner : Address}
    (hlimit : limit ≤ 10000) (hhead : 0 < c.headBlockNum) :
    match Piece.page limit skipCount
      (Piece.read (history c (orderIsUninteresting quote base owner))) with
    | .ok r => c.marketOrderHistory quote base skipCount limit owner = .ok r
    | .error p => ∀ r, c.marketOrderHistory quote base skipCount limit owner = .ok r →
        ∃ first r', r = first :: r' ∧ ∀ a ∈ p, first.timestamp < a.timestamp := by
  unfold marketOrderHistory
  have hrequire : require (limit ≤ 10000) (Error.assertion "Limit must be at most 10000!") =
    .ok () := require_eq_ok.2 hlimit
  have hrequire' : require (0 < c.headBlockNum)
    (Error.assertion "No blocks have been created yet!") = .ok () := require_eq_ok.2 hhead
  simp only [hrequire, hrequire', ok_bind]
  cases hsplit : c.newestFirst with
  | nil =>
    rw [history, hsplit, priorBlock_head_nil hsplit]
    exact historyFrom_one hhead
  | cons e rest =>
    have hread : Piece.read (history c (orderIsUninteresting quote base owner)) =
        Piece.read (pieces c (orderIsUninteresting quote base owner) e.1 rest) := by
      rw [history, hsplit]
      exact @read_pieces_append c _ [e] rest e.1 fun e' he' => (List.mem_singleton.1 he') ▸ le_rfl
    rw [hread]
    rcases @prior_cases_head c (orderIsUninteresting quote base owner) e rest hsplit with
      ⟨hprior, hread⟩ | ⟨l, b, rest', hsplit', hprior, hread⟩
    · rw [hprior, hread]
      exact historyFrom_one hhead
    · rw [hprior, hread]
      exact historyFrom_skipBlocks hsplit' le_rfl

/-- No trade is missed: there are none left; or the skip ends between two blocks that are read, the
block after it is not over the limit, and no block that is passed over has any before the page is
full. -/
def InReach (c : MarketChain) (quote base : ℤ) (skipCount limit : ℕ) (owner : Address) : Prop :=
  let history := history c (orderIsUninteresting quote base owner)
  (c.matching quote base owner).length ≤ skipCount ∨
    Piece.EndsAtBorder limit skipCount (Piece.read history) ∧
      (limit = 0 ∨ Piece.MissesNone (skipCount + limit) history)

/-- **A page of the order history** is a slice of it exactly if no trade is missed. -/
theorem isPage_iff (c : MarketChain) (quote base : ℤ) (skipCount limit : ℕ) (owner : Address) :
    c.IsPage quote base skipCount limit owner ↔
      (limit ≤ 10000 → 0 < c.headBlockNum → InReach c quote base skipCount limit owner) := by
  unfold IsPage InReach
  refine imp_congr_right fun hlimit => imp_congr_right fun hhead => ?_
  have hspec := @marketOrderHistory_spec c quote base skipCount limit owner hlimit hhead
  have hstamped := c.stamped_history (orderIsUninteresting quote base owner)
  rw [← all_history, ← Piece.page_eq_iff hstamped]
  cases hpage : Piece.page limit skipCount
      (Piece.read (history c (orderIsUninteresting quote base owner))) with
  | ok r =>
    rw [hpage] at hspec
    rw [hspec]
    simp only [Except.ok.injEq]
  | error p =>
    rw [hpage] at hspec
    refine iff_of_false (fun h => ?_) nofun
    obtain ⟨first, r', hr, hfirst⟩ := hspec _ h
    exact Piece.ne_slice_of_page_error hstamped hpage hfirst hr.symm

def tradedDb : MarketDatabase where
  headBlockHeader := { blockNum := 2 }
  blockNumToIdDb := (∅ : Table ℕ BlockId).insert 1 1 |>.insert 2 2
  blockIdToBlockRecordDb := (∅ : Table BlockId SignedBlockHeader).insert 1 { timestamp := 10 }
    |>.insert 2 { timestamp := 20 }
  marketTransactionsDb.cache := (∅ : Table ℕ (List MarketTransaction)).insert 2
    [⟨1, 2, ⟨1, 1, 0⟩, ⟨1, 1, 0⟩, {}, {}, {}, {}, {}, {}⟩]

theorem tradedDb_header {n : ℕ} {header : SignedBlockHeader} :
    tradedDb.getBlockHeader n = .ok header ↔
      n = 1 ∧ header = { timestamp := 10 } ∨ n = 2 ∧ header = { timestamp := 20 } := by
  have hid : tradedDb.blockNumToIdDb[n]? =
      if n = 2 then some 2 else if n = 1 then some 1 else none := by
    rw [tradedDb, Table.getElem?_insert, Table.getElem?_insert, Table.getElem?_empty']
  unfold Database.getBlockHeader Database.getBlockId
  rw [hid]
  split_ifs with h2 h1
  · subst h2
    change Except.ok _ = Except.ok header ↔ _
    simp [eq_comm]
  · subst h1
    change Except.ok _ = Except.ok header ↔ _
    simp [eq_comm]
  · exact iff_of_false nofun (by tauto)

/-- A trade in the second block of two. -/
def tradedChain : MarketChain where
  toMarketDatabase := tradedDb
  header n h h' := by
    have hn : n = 1 ∨ n = 2 := by
      change n ≤ 2 at h'
      omega
    rcases hn with rfl | rfl
    · exact ⟨_, tradedDb_header.2 (.inl ⟨rfl, rfl⟩)⟩
    · exact ⟨_, tradedDb_header.2 (.inr ⟨rfl, rfl⟩)⟩
  no_genesis := by
    rw [tradedDb, Table.getElem?_insert_of_ne _ _ (by decide),
      Table.getElem?_insert_of_ne _ _ (by decide), Table.getElem?_empty']
  later m n header header' hlt h h' := by
    rcases tradedDb_header.1 h with ⟨rfl, rfl⟩ | ⟨rfl, rfl⟩ <;>
      rcases tradedDb_header.1 h' with ⟨rfl, rfl⟩ | ⟨rfl, rfl⟩
    · exact absurd hlt (lt_irrefl 1)
    · decide
    · exact absurd hlt (by decide)
    · exact absurd hlt (lt_irrefl 2)
  recorded n trxs h := by
    rw [tradedDb, Table.getElem?_insert, Table.getElem?_empty'] at h
    split at h
    · rename_i hn
      rw [hn]
      decide
    · cases h

/-- The newest trade is on no page. -/
theorem not_isPage_newest : ¬tradedChain.IsPage 1 0 0 10 0 := by
  intro h
  have hpage := h (by decide) (by decide)
  have hspec := @marketOrderHistory_spec tradedChain 1 0 0 10 0 (by decide) (by decide)
  change tradedChain.marketOrderHistory 1 0 0 10 0 = .ok [] at hspec
  have hlength := congrArg List.length (Except.ok.inj (hspec.symm.trans hpage))
  exact absurd hlength (by decide)

end MarketChain

end LarkX
