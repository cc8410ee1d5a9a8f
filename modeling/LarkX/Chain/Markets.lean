import LarkX.Chain.Extend
import LarkX.Chain.Fits
import LarkX.Chain.Origin

/-!
# The dirty markets of the chain

`execute_markets` asserts that each dirty market is an ordered pair, before a block looks at its
transactions. So one dirty pair that is not ordered makes every later block throw
(`evaluateBlock_ordered`). A short checks the order of its assets. A bid, an ask and the price a
cover asks for do not, and a feed makes its own asset dirty against the base asset, whichever it
is. `Operation.NamesOrdered` is the check they lack: in a run whose accepted blocks pass it, the
dirty markets stay ordered, along forks, undo states and calls that throw
(`RunOf.dirtyMarkets_ordered`).
-/

namespace LarkX

open ChainInterface Ledger

/-- An operation names its market in the right order: an order is at a price of an ordered pair, a
cover asks for none other, and a feed is for an asset above the base asset. -/
def Operation.NamesOrdered : Operation → Prop
  | .bid _ index | .ask _ index => index.assetPair.Ordered
  | .cover _ _ newCoverPrice => ∀ price, newCoverPrice = some price → price.assetPair.Ordered
  | .updateFeed feed _ => 0 < feed.feedId
  | _ => True

/-! ### Writes -/

/-- The markets of a write are ordered. -/
def Write.Ordered : Write → Prop
  | .bid key _ | .ask key _ | .short key _ | .collateral key _ => key.assetPair.Ordered
  | .dirty pair => pair.Ordered
  | .property _ (.markets d) => ∀ pair : AssetPair, d[pair]? = some () → pair.Ordered
  | _ => True

theorem Write.ordered_closed : Overlay.Closed Write.Ordered where
  newAccount _ _ := ⟨trivial, trivial⟩
  dirty w pair hw hpair := by
    cases w with
    | bid | ask | short | collateral | dirty =>
      cases hpair
      exact hw
    | _ => cases hpair
  transaction _ _ _ _ _ := trivial

/-- What stands in an ordered pending state is ordered, its own dirty markets included. -/
theorem Overlay.Only.applied {o : Overlay} (h : o.Only Write.Ordered) {w : Write}
    (hw : Applied o w) : w.Ordered := by
  rcases hw with hheld | rfl
  · exact h w hheld
  · exact fun pair hpair => h _ (.dirty hpair)

namespace Ledger

/-- The margin positions and the dirty markets of a ledger are ordered. -/
structure OrderedMarkets (crypto : Crypto) (db : Ledger) : Prop where
  keyed : db.toTables.Keyed crypto
  properties : ∀ (p : ChainProperty) (v : Variant), db.properties[p]? = some v →
    (Write.property p v).Ordered
  collateral : ∀ (key : MarketIndexKey) (r : CollateralRecord), db.collateral[key]? = some r →
    key.assetPair.Ordered

variable {crypto : Crypto} {db db' : Ledger}

/-- An entry of a table after a store is the stored one or an old one. -/
private theorem getElem?_put_cases {κ α : Type} [Ord κ] [Std.TransOrd κ] [Std.LawfulEqOrd κ]
    {t : Table κ α} {b : Bool} {k a : κ} {v v' : α} (h : (t.put b k v)[a]? = some v') :
    (a = k ∧ v' = v) ∨ t[a]? = some v' := by
  by_cases ha : a = k
  · subst ha
    rw [Table.getElem?_put_same] at h
    split at h
    · cases h
    · cases h
      exact Or.inl ⟨rfl, rfl⟩
  · rw [Table.getElem?_put_of_ne _ _ _ ha] at h
    exact Or.inr h

/-- A property after a store is the stored one or an old one. -/
theorem StoreOf.property_cases {w : Write} (h : StoreOf crypto db w db') {p : ChainProperty}
    {v : Variant} (hv : db'.properties[p]? = some v) :
    w = .property p v ∨ db.properties[p]? = some v := by
  cases h with
  | property =>
    rcases getElem?_put_cases hv with ⟨rfl, rfl⟩ | hv
    · exact Or.inl rfl
    · exact Or.inr hv
  | asset r =>
    rw [congrArg Tables.properties (storeAssetRecord_toTables db r)] at hv
    exact Or.inr hv
  | account r =>
    rw [congrArg Tables.properties (storeAccountRecord_toTables crypto db r)] at hv
    exact Or.inr hv
  | transaction _ hstored =>
    rw [congrArg Tables.properties (storeTransaction_toTables hstored)] at hv
    exact Or.inr hv
  | _ => exact Or.inr hv

/-- So is a margin position. -/
theorem StoreOf.collateral_cases {w : Write} (h : StoreOf crypto db w db') {key : MarketIndexKey}
    {r : CollateralRecord} (hr : db'.collateral[key]? = some r) :
    w = .collateral key r ∨ db.collateral[key]? = some r := by
  cases h with
  | collateral =>
    rcases getElem?_put_cases hr with ⟨rfl, rfl⟩ | hr
    · exact Or.inl rfl
    · exact Or.inr hr
  | asset r =>
    rw [congrArg Tables.collateral (storeAssetRecord_toTables db r)] at hr
    exact Or.inr hr
  | account r =>
    rw [congrArg Tables.collateral (storeAccountRecord_toTables crypto db r)] at hr
    exact Or.inr hr
  | transaction _ hstored =>
    rw [congrArg Tables.collateral (storeTransaction_toTables hstored)] at hr
    exact Or.inr hr
  | _ => exact Or.inr hr

theorem OrderedMarkets.empty (crypto : Crypto) (chainId : Digest) :
    OrderedMarkets crypto { chainId } where
  keyed := .empty
  properties _ _ h := nomatch (Table.getElem?_empty' _).symm.trans h
  collateral _ _ h := nomatch (Table.getElem?_empty' _).symm.trans h

/-- **One store of an ordered write.** -/
theorem OrderedMarkets.store (h : OrderedMarkets crypto db) {w : Write} (hw : w.Ordered)
    (hstore : StoreOf crypto db w db') : OrderedMarkets crypto db' := by
  refine ⟨hstore.keyed h.keyed, fun p v hv => ?_, fun key r hr => ?_⟩
  · rcases hstore.property_cases hv with rfl | hv
    · exact hw
    · exact h.properties p v hv
  · rcases hstore.collateral_cases hr with rfl | hr
    · exact hw
    · exact h.collateral key r hr

theorem OrderedMarkets.stores {P : Write → Prop} (h : OrderedMarkets crypto db)
    (hP : ∀ w, P w → w.Ordered) (hstores : StoresOf crypto P db db') : OrderedMarkets crypto db' :=
  hstores.invariant (fun _ _ _ hdb hw hstore => hdb.store (hP _ hw) hstore) h

/-- The dirty markets do not depend on the clock. -/
theorem getDirtyMarkets_clock (db : Ledger) (now now' n : ℕ) :
    getDirtyMarkets ⟨[], db, now, n⟩ = getDirtyMarkets ⟨[], db, now', n⟩ :=
  rfl

/-- The dirty markets are read from a property. -/
theorem OrderedMarkets.dirty (h : OrderedMarkets crypto db) {now n : ℕ} {pair : AssetPair}
    (hpair : (getDirtyMarkets ⟨[], db, now, n⟩)[pair]? = some ()) : pair.Ordered := by
  unfold getDirtyMarkets at hpair
  split at hpair
  · rename_i d hd
    exact h.properties _ _ hd pair hpair
  · cases (Table.getElem?_empty' _).symm.trans hpair

end Ledger

theorem GenesisWrite.ordered {w : Write} (h : GenesisWrite w) : w.Ordered := by
  cases h with
  | @property p v hv =>
    cases v with
    | markets d => exact absurd rfl (hv d)
    | _ => trivial
  | _ => trivial

/-! ### Blocks -/

section Block

variable {crypto : Crypto} {db : Ledger} {now n : ℕ} {head : SignedBlockHeader} {headId : BlockId}
  {b : FullBlock} {c : ChainInterface}

/-- The operations of a block name ordered markets. -/
def FullBlock.NamesOrdered (b : FullBlock) : Prop :=
  ∀ trx ∈ b.userTransactions, ∀ op ∈ trx.operations, op.NamesOrdered

/-- A market of the engine is the one that is executed, or ordered itself. -/
private theorem ordered_of_market {pair p : AssetPair} (hpair : pair.Ordered)
    (h : p = pair ∨ p.Ordered) : p.Ordered := by
  rcases h with rfl | h
  · exact hpair
  · exact h

/-- **Every write of such a block is ordered.** -/
theorem BlockWrite.ordered {o : Overlay} (hdb : OrderedMarkets crypto db)
    (ho : o.Only Write.Ordered) (hb : b.NamesOrdered) {w : Write}
    (hw : BlockWrite crypto head b ⟨[o], db, now, n⟩ w) : w.Ordered := by
  cases hw with
  | delegate | slot | asset | transaction | confirmation | activeDelegates | randomSeed => trivial
  | @market pair w _ hlt hw =>
    cases hw with
    | bid _ hkey | ask _ hkey | short _ hkey => exact ordered_of_market hlt (Or.inl hkey)
    | collateral _ hkey => exact ordered_of_market hlt hkey
    | dirty hpair => exact ordered_of_market hlt hpair
    | dirtyMarkets hd => exact fun p hp => ordered_of_market hlt (hd p hp)
    | asset | balance | marketStatus => trivial
  | @evaluation trx w htrx hw =>
    cases hw with
    | bid _ hop | ask _ hop => exact hb trx htrx _ hop
    | short _ hlt => exact hlt
    | @clearPosition key position hold =>
      -- the old price of a position is an ordered one
      change (o.collateral.above db.collateral)[key]? = some position at hold
      rw [Table.getElem?_above, Option.or_eq_some_iff] at hold
      rcases hold with hold | ⟨-, hold⟩
      · have hheld := ho _ (.collateral hold)
        exact hheld
      · exact hdb.collateral key position hold
    | coverPrice _ hop => exact hb trx htrx _ hop _ rfl
    | callPrice _ hlt _ => exact hlt
    | dirtyFeed hop =>
      have hfeed := hb trx htrx _ hop
      exact hfeed
    | asset | account | newAccount | balance | slate | feed => trivial

theorem evaluateBlock_only (hdb : OrderedMarkets crypto db) (hb : b.NamesOrdered) {skip : Bool}
    {wall : ℕ} (h : evaluateBlock crypto ⟨[], db, now, n⟩ head headId skip wall b = .ok c) :
    (c.overlays.headD {}).Only Write.Ordered := by
  obtain ⟨o, rfl, ho⟩ := evaluateBlock_invariant hdb.keyed (I := Overlay.Only Write.Ordered)
    (Overlay.only_empty _)
    (fun o w ho hw => ho.write Write.ordered_closed crypto (hw.ordered hdb ho hb)) h
  exact ho

/-- **The undo state** of an ordered pending state is ordered. -/
theorem getUndoState_ordered {o u : Overlay} (hdb : OrderedMarkets crypto db)
    (ho : o.Only Write.Ordered) (h : getUndoState crypto o ⟨[], db, now, n⟩ = .ok u) :
    u.Only Write.Ordered := by
  refine getUndoState_only Write.ordered_closed (fun w hw => ?_) h
  cases hw with
  | property _ hprev => exact hdb.properties _ _ (orThrow_eq_ok.1 hprev)
  | bid hget =>
    have hheld := ho _ (.bid hget)
    exact hheld
  | ask hget =>
    have hheld := ho _ (.ask hget)
    exact hheld
  | short hget =>
    have hheld := ho _ (.short hget)
    exact hheld
  | collateral hget =>
    have hheld := ho _ (.collateral hget)
    exact hheld
  | dirtyMarkets => exact fun pair hpair => hdb.dirty hpair
  | asset | account | balance | transaction | slate | slot | marketStatus | feed => trivial

/-- **A block over dirty markets that are not ordered is never evaluated**, whatever it holds. -/
theorem evaluateBlock_ordered {skip : Bool} {wall : ℕ}
    (h : evaluateBlock crypto ⟨[], db, now, n⟩ head headId skip wall b = .ok c) {pair : AssetPair}
    (hdirty : (getDirtyMarkets ⟨[], db, now, n⟩)[pair]? = some ()) : pair.Ordered := by
  simp only [evaluateBlock, evaluateBlockChanges, bind_eq_ok] at h
  obtain ⟨signee, -, -, -, c₁, hproduction, c₂, hpay, c₃, hmarkets, -⟩ := h
  have hpending : (push ⟨[], db, now, n⟩).IsPending := List.cons_ne_nil _ _
  have h₁ : BlockWrites crypto head b _ c₁ := updateDelegateProductionInfo_writes hpending hproduction
  have h₂ := h₁.trans (payDelegate_writes (h₁.isPending hpending) hpay)
  have hsame := h₂.sameBelow
  refine executeMarkets_ordered hmarkets ?_
  rw [hsame.db, hsame.now, hsame.headBlockNum]
  exact hdirty

end Block

/-! ### Runs -/

namespace Database

open LarkX.Action

variable {crypto : Crypto} {config : GenesisBlockConfig} {wall : ℕ} {b : FullBlock} {ev : Event}
  {db db' : Database}

/-- The markets of a ledger and of all undo states over it are ordered. -/
structure OrderedMarkets (crypto : Crypto) (db : Database) : Prop where
  ledger : db.ledger.OrderedMarkets crypto
  undo : ∀ (id : BlockId) (u : Overlay), db.undoStateDb[id]? = some u → u.Only Write.Ordered

/-- A block that is evaluated when it extends the chain names ordered markets. -/
def AcceptsOrdered (crypto : Crypto) (db : Database) : Event → Prop
  | .extend wall b => ∀ c, evaluateBlock crypto (db.chain wall) db.headBlockHeader db.headBlockId
      db.skipSignatureVerification wall b = .ok c → b.NamesOrdered
  | _ => True

/-- The undo states that are kept are the new one and old ones. -/
theorem KeepsUndo.cases {id id' : BlockId} {undo u : Overlay} {t : Table BlockId Overlay}
    (h : db.KeepsUndo id undo t) (hu : t[id']? = some u) :
    u = undo ∨ db.undoStateDb[id']? = some u := by
  have hinsert : ∀ {u}, (db.undoStateDb.insert id undo)[id']? = some u →
      u = undo ∨ db.undoStateDb[id']? = some u := by
    intro u hu
    rw [Table.getElem?_insert] at hu
    split at hu
    · exact Or.inl (Option.some.inj hu).symm
    · exact Or.inr hu
  cases h with
  | all => exact hinsert hu
  | window _ _ =>
    rw [Table.getElem?_erase] at hu
    split at hu
    · cases hu
    · exact hinsert hu

namespace OrderedMarkets

variable {ledger : Ledger} {undo : Overlay} {undoStateDb : Table BlockId Overlay}

/-- The pending state of a block and its undo state are ordered. -/
theorem evaluates (h : db.OrderedMarkets crypto) (hK : db.AcceptsOrdered crypto (.extend wall b))
    {c : ChainInterface} (heval : Evaluates crypto wall b db c undo) :
    (c.overlays.headD {}).Only Write.Ordered ∧ undo.Only Write.Ordered := by
  have honly := evaluateBlock_only h.ledger (hK c heval.evaluated) heval.evaluated
  exact ⟨honly, getUndoState_ordered h.ledger honly heval.undone⟩

theorem keeps (h : db.OrderedMarkets crypto) (hundo : undo.Only Write.Ordered) {id : BlockId}
    (hkeeps : db.KeepsUndo id undo undoStateDb) :
    ∀ (id : BlockId) (u : Overlay), undoStateDb[id]? = some u → u.Only Write.Ordered := by
  intro id' u hu
  rcases hkeeps.cases hu with rfl | hu
  · exact hundo
  · exact h.undo id' u hu

/-- A pending state is applied to the ledger, whether that returns or throws. -/
theorem apply (h : db.OrderedMarkets crypto) {o : Overlay} (ho : o.Only Write.Ordered)
    (hstores : StoresOf crypto (Applied o) db.ledger ledger) : ledger.OrderedMarkets crypto :=
  h.ledger.stores (fun _ hw => ho.applied hw) hstores

/-- **Every step** keeps the markets ordered, also one that throws. -/
theorem step (h : db.OrderedMarkets crypto) (hstep : Step crypto wall b db ev db')
    (hK : db.AcceptsOrdered crypto ev) : db'.OrderedMarkets crypto := by
  cases hstep with
  | stored hrest =>
    rw [hrest.rest]
    exact ⟨h.ledger, h.undo⟩
  | marked hrest =>
    rw [hrest.rest]
    exact ⟨h.ledger, h.undo⟩
  | extended _ hextend =>
    obtain ⟨c, undo, c', hextends⟩ := extendChain_eq_ok hextend
    obtain ⟨fork, undoStateDb, -, hkeeps, rfl⟩ := hextends.result
    obtain ⟨honly, hundo⟩ := h.evaluates hK hextends.toEvaluates
    have hledger := h.apply honly (applyOverlay_storesOf rfl hextends.applied)
    exact ⟨⟨hledger.keyed, hledger.properties, hledger.collateral⟩, h.keeps hundo hkeeps⟩
  | extendThrew _ hextend =>
    obtain ⟨db₁, hfails, hmarked⟩ := extendChain_outcome.of_error hextend
    rw [hmarked.rest]
    cases hfails with
    | unevaluated => exact ⟨h.ledger, h.undo⟩
    | unindexed heval =>
      obtain ⟨-, hundo⟩ := h.evaluates hK heval
      refine ⟨h.ledger, fun id u hu => ?_⟩
      rw [Table.getElem?_insert] at hu
      split at hu
      · cases hu
        exact hundo
      · exact h.undo id u hu
    | @unapplied c _ _ _ heval hkeeps _ =>
      obtain ⟨honly, hundo⟩ := h.evaluates hK heval
      exact ⟨h.apply honly (applyOverlayThrown_storesOf (c := db.chain wall) rfl),
        h.keeps hundo hkeeps⟩
    | unknown heval hkeeps happly =>
      obtain ⟨honly, hundo⟩ := h.evaluates hK heval
      exact ⟨h.apply honly (applyOverlay_storesOf rfl happly), h.keeps hundo hkeeps⟩
  | popped hpop =>
    obtain ⟨-, rfl⟩ | ⟨-, undo, c', header, hpops⟩ := popBlock_outcome.of_ok hpop
    · exact h
    · obtain ⟨fork, -, rfl⟩ := hpops.result
      exact ⟨h.apply (h.undo _ _ hpops.stored) (applyOverlay_storesOf rfl hpops.applied), h.undo⟩
  | popThrew hpop =>
    cases (popBlock_outcome.of_error hpop).2 with
    | unknown => exact h
    | noUndo => exact ⟨h.ledger, h.undo⟩
    | unapplied _ hundo _ =>
      exact ⟨h.apply (h.undo _ _ hundo) (applyOverlayThrown_storesOf (c := db.chain wall) rfl),
        h.undo⟩
    | noHeader _ hundo happly _ =>
      exact ⟨h.apply (h.undo _ _ hundo) (applyOverlay_storesOf rfl happly), h.undo⟩

end OrderedMarkets

theorem RunOf.orderedMarkets {P : FullBlock → Prop}
    (h : RunOf crypto config P (AcceptsOrdered crypto) db) : db.OrderedMarkets crypto := by
  refine h.invariant (I := OrderedMarkets crypto) (fun db h => ?_)
    (fun _ h => ⟨h.ledger, h.undo⟩) fun _ _ _ _ _ _ _ hdb hstep hK => hdb.step hstep hK
  simp only [initializeGenesis, bind_eq_ok, pure_eq_ok] at h
  obtain ⟨ledger, hledger, rfl⟩ := h
  refine ⟨(Ledger.OrderedMarkets.empty crypto _).stores (fun _ hw => hw.ordered)
    (Genesis.genesisLedger_storesOf hledger), fun id u hu => ?_⟩
  cases (Table.getElem?_empty' _).symm.trans hu

/-- So no block extends a chain with another dirty market. -/
theorem halted_of_unordered {pair : AssetPair}
    (hdirty : (db.chain wall).getDirtyMarkets[pair]? = some ()) (hpair : ¬pair.Ordered)
    (wall' : ℕ) (b : FullBlock) (c : ChainInterface) :
    evaluateBlock crypto (db.chain wall') db.headBlockHeader db.headBlockId
      db.skipSignatureVerification wall' b ≠ .ok c := by
  intro heval
  refine hpair (evaluateBlock_ordered heval ?_)
  rw [getDirtyMarkets_clock db.ledger (db.now wall') (db.now wall)]
  exact hdirty

/-! ### A bid in a market that is not ordered -/

section Example

/-- A transaction of the small chain that places an order for `1000000` of the base asset. -/
def placing (order : Operation) : SignedTransaction where
  expiration := 200
  operations :=
    [.withdraw (Crypto.transparent.conditionAddress
        (.ofSignature (Crypto.transparent.ptsToAddress ⟨56, 5⟩) 0 2)) 1100000 .empty, order]
  signatures := [2, 49]

/-- An ask in the market of asset 1 against the base asset. -/
def orderedAsk : Operation :=
  .ask 1000000 ⟨⟨1, 1, 0⟩, Crypto.transparent.keyAddress 49⟩

/-- A bid at the price the other way round. -/
def unorderedBid : Operation :=
  .bid 1000000 ⟨⟨1, 0, 1⟩, Crypto.transparent.keyAddress 49⟩

/-- The small chain after a block with the ask. -/
def smallTraded : Database :=
  smallGenesis.pushed .transparent 30 (smallGenesis.blockOn 1 20 [placing orderedAsk])

/-- The small chain after a block with the bid. -/
def smallHalted : Database :=
  smallGenesis.pushed .transparent 30 (smallGenesis.blockOn 1 20 [placing unorderedBid])

/-- A block with the ask alone names ordered markets. -/
theorem namesOrdered_ask :
    (smallGenesis.blockOn 1 20 [placing orderedAsk]).NamesOrdered := by
  intro trx htrx op hop
  obtain rfl := List.mem_singleton.1 htrx
  rcases List.mem_cons.1 hop with rfl | hop
  · trivial
  · obtain rfl := List.mem_singleton.1 hop
    change (0 : ℤ) < 1
    decide

end Example

end Database

end LarkX
