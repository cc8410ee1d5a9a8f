import LarkX.State.Keyed

/-!
# Applying a pending state

`apply_changes` writes everything a pending state holds to the state below it, then records its
dirty markets there as a property. `Overlay.Holds o w` says that `w` is one of the writes that
stand in `o`; when the state below is itself pending, `applyOverlay` is a sequence of just those
writes (`applyOverlay_writes`). In the other direction, `Overlay.Only Q o` says that all writes
in `o` satisfy `Q`, which is so when every write that was made to it does.
-/

namespace LarkX

open Std (TransOrd LawfulEqOrd)

namespace Overlay

/-- The writes that stand in a pending state. -/
inductive Holds (o : Overlay) : Write → Prop
  | property {p : ChainProperty} {v : Variant} (h : o.properties[p]? = some v) :
      Holds o (.property p v)
  | asset {id : ℤ} {r : AssetRecord} (h : o.assets[id]? = some r) : Holds o (.asset r)
  | account {id : ℤ} {r : AccountRecord} (h : o.accounts[id]? = some r) : Holds o (.account r)
  | balance {id : BalanceId} {r : BalanceRecord} (h : o.balances[id]? = some r) :
      Holds o (.balance r)
  | bid {key : MarketIndexKey} {r : OrderRecord} (h : o.bids[key]? = some r) :
      Holds o (.bid key r)
  | ask {key : MarketIndexKey} {r : OrderRecord} (h : o.asks[key]? = some r) :
      Holds o (.ask key r)
  | short {key : MarketIndexKey} {r : OrderRecord} (h : o.shorts[key]? = some r) :
      Holds o (.short key r)
  | collateral {key : MarketIndexKey} {r : CollateralRecord} (h : o.collateral[key]? = some r) :
      Holds o (.collateral key r)
  | transaction {id : TransactionId} {r : TransactionRecord} (digest : Digest)
      (h : o.transactions[id]? = some r) : Holds o (.transaction id r digest)
  | slate {id : SlateId} {slate : List ℤ} (h : o.slates[id]? = some slate) :
      Holds o (.slate id slate)
  | slot {t : ℕ} {r : SlotRecord} (h : o.slots[t]? = some r) : Holds o (.slot r)
  | marketStatus {pair : AssetPair} {s : MarketStatus} (h : o.marketStatuses[pair]? = some s) :
      Holds o (.marketStatus s)
  | feed {i : FeedIndex} {r : FeedRecord} (h : o.feeds[i]? = some r) : Holds o (.feed r)
  | dirty {pair : AssetPair} (h : o.dirtyMarketPairs[pair]? = some ()) : Holds o (.dirty pair)

/-- Every write that stands in a pending state satisfies `Q`. -/
def Only (Q : Write → Prop) (o : Overlay) : Prop :=
  ∀ w, Holds o w → Q w

/-- The dirty market of a write to an order. -/
def orderPair : Write → Option AssetPair
  | .bid key _ | .ask key _ | .short key _ | .collateral key _ => some key.assetPair
  | .dirty pair => some pair
  | _ => none

/-- A condition on writes under which a pending state keeps `Only`: the parts of a write
satisfy it. -/
structure Closed (Q : Write → Prop) : Prop where
  newAccount : ∀ r, Q (.newAccount r) → Q (.property .lastAccountId (.int r.id)) ∧ Q (.account r)
  dirty : ∀ w pair, Q w → orderPair w = some pair → Q (.dirty pair)
  transaction : ∀ id r digest digest', Q (.transaction id r digest) →
    Q (.transaction id r digest')

/-- A lookup after a write is the written entry or an old one. -/
private theorem lookup_insert {κ α : Type} [Ord κ] [TransOrd κ] [LawfulEqOrd κ] {t : Table κ α}
    {k a : κ} {v v' : α} (h : (t.insert k v)[a]? = some v') :
    (a = k ∧ v' = v) ∨ t[a]? = some v' := by
  by_cases ha : a = k
  · subst ha
    rw [Table.getElem?_insert_same] at h
    cases h
    exact Or.inl ⟨rfl, rfl⟩
  · rw [Table.getElem?_insert_of_ne _ _ ha] at h
    exact Or.inr h

theorem only_empty (Q : Write → Prop) : Only Q {} := by
  intro w hw
  cases hw <;> rename_i h <;> exact nomatch (Table.getElem?_empty' _).symm.trans h

/-- A write that satisfies `Q` keeps a pending state whose writes all do. -/
theorem Only.write {Q : Write → Prop} (hQ : Closed Q) (crypto : Crypto) {o : Overlay} {w : Write}
    (h : Only Q o) (hw : Q w) : Only Q (o.write crypto w) := by
  have hdirty : ∀ pair pair', orderPair w = some pair →
      (o.dirtyMarketPairs.insert pair ())[pair']? = some () → Q (.dirty pair') := by
    intro pair pair' hpair hget
    rcases lookup_insert hget with ⟨rfl, -⟩ | hget
    · exact hQ.dirty w _ hw hpair
    · exact h _ (.dirty hget)
  intro w' hw'
  cases hw' with
  | property hget =>
    cases w with
    | property p v =>
      rcases lookup_insert hget with ⟨rfl, rfl⟩ | hget
      · exact hw
      · exact h _ (.property hget)
    | newAccount r =>
      rcases lookup_insert hget with ⟨rfl, rfl⟩ | hget
      · exact (hQ.newAccount r hw).1
      · exact h _ (.property hget)
    | _ => exact h _ (.property hget)
  | asset hget =>
    cases w with
    | asset r =>
      rcases lookup_insert hget with ⟨-, rfl⟩ | hget
      · exact hw
      · exact h _ (.asset hget)
    | _ => exact h _ (.asset hget)
  | account hget =>
    cases w with
    | account r =>
      rcases lookup_insert hget with ⟨-, rfl⟩ | hget
      · exact hw
      · exact h _ (.account hget)
    | newAccount r =>
      rcases lookup_insert hget with ⟨-, rfl⟩ | hget
      · exact (hQ.newAccount _ hw).2
      · exact h _ (.account hget)
    | _ => exact h _ (.account hget)
  | balance hget =>
    cases w with
    | balance r =>
      rcases lookup_insert hget with ⟨-, rfl⟩ | hget
      · exact hw
      · exact h _ (.balance hget)
    | _ => exact h _ (.balance hget)
  | bid hget =>
    cases w with
    | bid key r =>
      rcases lookup_insert hget with ⟨rfl, rfl⟩ | hget
      · exact hw
      · exact h _ (.bid hget)
    | _ => exact h _ (.bid hget)
  | ask hget =>
    cases w with
    | ask key r =>
      rcases lookup_insert hget with ⟨rfl, rfl⟩ | hget
      · exact hw
      · exact h _ (.ask hget)
    | _ => exact h _ (.ask hget)
  | short hget =>
    cases w with
    | short key r =>
      rcases lookup_insert hget with ⟨rfl, rfl⟩ | hget
      · exact hw
      · exact h _ (.short hget)
    | _ => exact h _ (.short hget)
  | collateral hget =>
    cases w with
    | collateral key r =>
      rcases lookup_insert hget with ⟨rfl, rfl⟩ | hget
      · exact hw
      · exact h _ (.collateral hget)
    | _ => exact h _ (.collateral hget)
  | transaction digest hget =>
    cases w with
    | transaction id r digest' =>
      rcases lookup_insert hget with ⟨rfl, rfl⟩ | hget
      · exact hQ.transaction _ _ _ _ hw
      · exact h _ (.transaction _ hget)
    | _ => exact h _ (.transaction _ hget)
  | slate hget =>
    cases w with
    | slate id slate =>
      rcases lookup_insert hget with ⟨rfl, rfl⟩ | hget
      · exact hw
      · exact h _ (.slate hget)
    | _ => exact h _ (.slate hget)
  | slot hget =>
    cases w with
    | slot r =>
      rcases lookup_insert hget with ⟨-, rfl⟩ | hget
      · exact hw
      · exact h _ (.slot hget)
    | _ => exact h _ (.slot hget)
  | marketStatus hget =>
    cases w with
    | marketStatus s =>
      rcases lookup_insert hget with ⟨-, rfl⟩ | hget
      · exact hw
      · exact h _ (.marketStatus hget)
    | _ => exact h _ (.marketStatus hget)
  | feed hget =>
    cases w with
    | feed r =>
      rcases lookup_insert hget with ⟨-, rfl⟩ | hget
      · exact hw
      · exact h _ (.feed hget)
    | _ => exact h _ (.feed hget)
  | dirty hget =>
    cases w with
    | bid | ask | short | collateral | dirty => exact hdirty _ _ rfl hget
    | _ => exact h _ (.dirty hget)

end Overlay

namespace ChainInterface

variable {crypto : Crypto} {c c' : ChainInterface}

/-- The pending state on top. -/
def top (c : ChainInterface) : Overlay :=
  c.overlays.headD {}

/-- Writes that satisfy `Q`, made to a new pending state, are all that stands in it. -/
theorem Writes.only {Q : Write → Prop} (hQ : Overlay.Closed Q)
    (h : Writes crypto (fun _ w => Q w) c.push c') : c'.top.Only Q := by
  have hpush : c.push.IsPending := List.cons_ne_nil _ _
  refine h.invariant (I := fun c => c.top.Only Q) (fun c₁ w hp hc hw => ?_) hpush
    (Overlay.only_empty Q)
  obtain ⟨os, db, now, n⟩ := c₁
  cases os with
  | nil => exact absurd rfl hp
  | cons o os => exact Overlay.Only.write hQ crypto hc hw

/-! ### Applying to a pending state -/

/-- The writes of `apply_changes`: what stands in the pending state, and its dirty markets as a
property. -/
def Applied (o : Overlay) (w : Write) : Prop :=
  o.Holds w ∨ w = .property .dirtyMarkets (.markets o.dirtyMarketPairs)

/-- The stores of one table are writes. -/
theorem foldl_writes {κ α : Type} [Ord κ] [TransOrd κ] [LawfulEqOrd κ] {P : Write → Prop}
    {t : Table κ α} {f : ChainInterface → κ → α → ChainInterface} {g : κ → α → Write}
    (hf : ∀ c k v, c.IsPending → t[k]? = some v → f c k v = c.write crypto (g k v))
    (hP : ∀ k v, t[k]? = some v → P (g k v)) (hp : c.IsPending) :
    Writes crypto (fun _ w => P w) c (t.foldl f c) := by
  refine Table.foldl_induction (P := fun c' => Writes crypto (fun _ w => P w) c c') t ?_ .refl
  intro c₁ k v hk hc₁
  rw [hf c₁ k v (hc₁.isPending hp) hk]
  exact hc₁.tail (hP k v hk)

variable {o : Overlay}

/-- One more table of stores after writes. -/
private theorem Writes.trans_foldl {κ α : Type} [Ord κ] [TransOrd κ] [LawfulEqOrd κ]
    {P : Write → Prop} {t : Table κ α} {f : ChainInterface → κ → α → ChainInterface}
    {g : κ → α → Write} (h : Writes crypto (fun _ w => P w) c c') (hp : c.IsPending)
    (hf : ∀ c k v, c.IsPending → f c k v = c.write crypto (g k v))
    (hP : ∀ k v, t[k]? = some v → P (g k v)) :
    Writes crypto (fun _ w => P w) c (t.foldl f c') :=
  h.trans (foldl_writes (fun c k v hc _ => hf c k v hc) hP (h.isPending hp))

theorem applyRecords_writes (hp : c.IsPending) :
    Writes crypto (fun _ w => Applied o w) c (applyRecords crypto o c) := by
  have h₁ : Writes crypto (fun _ w => Applied o w) c c := .refl
  have h₂ := h₁.trans_foldl (t := o.properties) hp (fun c p v hc => setProperty_eq crypto hc p v)
    fun p v h => Or.inl (.property h)
  have h₃ := h₂.trans_foldl (t := o.assets) hp (fun c _ r hc => storeAssetRecord_eq crypto hc r)
    fun _ r h => Or.inl (.asset h)
  have h₄ := h₃.trans_foldl (t := o.accounts) hp (fun c _ r hc => storeAccountRecord_eq hc r)
    fun _ r h => Or.inl (.account h)
  have h₅ := h₄.trans_foldl (t := o.balances) hp (fun c _ r hc => storeBalanceRecord_eq hc r)
    fun _ r h => Or.inl (.balance h)
  have h₆ := h₅.trans_foldl (t := o.bids) hp (fun c k r hc => storeBidRecord_eq crypto hc k r)
    fun _ r h => Or.inl (.bid h)
  have h₇ := h₆.trans_foldl (t := o.asks) hp (fun c k r hc => storeAskRecord_eq crypto hc k r)
    fun _ r h => Or.inl (.ask h)
  have h₈ := h₇.trans_foldl (t := o.shorts) hp (fun c k r hc => storeShortRecord_eq crypto hc k r)
    fun _ r h => Or.inl (.short h)
  exact h₈.trans_foldl (t := o.collateral) hp
    (fun c k r hc => storeCollateralRecord_eq crypto hc k r) fun _ r h => Or.inl (.collateral h)

theorem applyTransactions_writes (hp : c.IsPending)
    (h : applyTransactions crypto o c = .ok c') :
    Writes crypto (fun _ w => Applied o w) c c' := by
  refine Writes.foldlM (fun c₁ e c₂ he hc₁ _ h => ?_) hp h
  obtain ⟨chainId, -, rfl⟩ := storeTransaction_eq_ok hc₁ h
  exact .single (Or.inl (.transaction _ (Table.mem_toList.1 he)))

theorem applyRest_writes (hp : c.IsPending) :
    Writes crypto (fun _ w => Applied o w) c (applyRest o c) := by
  have h₁ : Writes crypto (fun _ w => Applied o w) c c := .refl
  have h₂ := h₁.trans_foldl (t := o.slates) hp (fun c k v hc => storeDelegateSlate_eq crypto hc k v)
    fun _ _ h => Or.inl (.slate h)
  have h₃ := h₂.trans_foldl (t := o.slots) hp (fun c _ r hc => storeSlotRecord_eq crypto hc r)
    fun _ r h => Or.inl (.slot h)
  have h₄ := h₃.trans_foldl (t := o.marketStatuses) hp
    (fun c _ s hc => storeMarketStatus_eq crypto hc s) fun _ s h => Or.inl (.marketStatus h)
  have h₅ := h₄.trans_foldl (t := o.feeds) hp (fun c _ r hc => setFeed_eq crypto hc r)
    fun _ r h => Or.inl (.feed h)
  have hlast := h₅.tail (w := .property .dirtyMarkets (.markets o.dirtyMarketPairs)) (Or.inr rfl)
  rwa [← setProperty_eq crypto (h₅.isPending hp)] at hlast

/-- **Applying to a pending state is a sequence of writes.** -/
theorem applyOverlay_writes (hp : c.IsPending) (h : applyOverlay crypto o c = .ok c') :
    Writes crypto (fun _ w => Applied o w) c c' := by
  simp only [applyOverlay, bind_eq_ok, pure_eq_ok] at h
  obtain ⟨c₁, h₁, rfl⟩ := h
  have hrecords : Writes crypto (fun _ w => Applied o w) c (applyRecords crypto o c) :=
    applyRecords_writes hp
  have htransactions := hrecords.trans (applyTransactions_writes (hrecords.isPending hp) h₁)
  exact htransactions.trans (applyRest_writes (htransactions.isPending hp))

/-- The writes that come down from a pending state whose own writes satisfy `Q`. -/
inductive Down (Q : Write → Prop) : Write → Prop
  | same {w : Write} (h : Q w) : Down Q w
  | dirtyMarkets {d : KeySet AssetPair} (h : ∀ p, d[p]? = some () → Q (.dirty p)) :
      Down Q (.property .dirtyMarkets (.markets d))

/-- A state that differs from a pushed one in its top layer only lies over the same state. -/
theorem SameBelow.below {c₁ : ChainInterface} (h : SameBelow c.push c₁) :
    { c₁ with overlays := c₁.overlays.tail } = c := by
  obtain ⟨os, db, now, n⟩ := c
  obtain ⟨os', db', now', n'⟩ := c₁
  obtain ⟨hdb, hnow, hn, htail, -⟩ := h
  cases hdb
  cases hnow
  cases hn
  cases htail
  rfl

/-- **A child state, applied**, is a sequence of the writes that were made to it. -/
theorem applyChanges_writes {Q : Write → Prop} (hQ : Overlay.Closed Q) {c₁ : ChainInterface}
    (hp : c.IsPending) (hw : Writes crypto (fun _ w => Q w) c.push c₁)
    (h : c₁.applyChanges crypto = .ok c') : Writes crypto (fun _ w => Down Q w) c c' := by
  have honly := hw.only hQ
  have hbelow := hw.sameBelow.below
  have hp₁ : c₁.IsPending := hw.isPending (List.cons_ne_nil _ _)
  obtain ⟨os, db, now, n⟩ := c₁
  cases os with
  | nil => exact absurd rfl hp₁
  | cons o os =>
    change applyOverlay crypto o ⟨os, db, now, n⟩ = .ok c' at h
    rw [show (⟨os, db, now, n⟩ : ChainInterface) = c from hbelow] at h
    refine (applyOverlay_writes hp h).mono fun _ w _ happlied => ?_
    rcases happlied with hheld | rfl
    · exact .same (honly w hheld)
    · exact .dirtyMarkets fun p hget => honly _ (.dirty hget)

end ChainInterface

end LarkX
