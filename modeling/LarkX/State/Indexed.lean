import LarkX.State.Apply

/-!
# The name index and the vote index

The database keeps an index of account names and an index of delegates by votes next to its
accounts. `Ledger.Indexed` says that both are exact: they hold what the accounts hold and
nothing else. A store keeps this when its record fits the names in use (`Ledger.NameFits`), and
so does applying a pending state whose accounts do (`Ledger.Indexed.apply`). Exact indexes are
determined by the accounts (`Ledger.Indexed.ext`).
-/

namespace LarkX

open Std (TransOrd LawfulEqOrd)

namespace Ledger

/-- The vote index is exact: it has the entry of every delegate, with its current votes, and no
other. -/
def VotesIndexed (db : Ledger) : Prop :=
  ∀ v : VoteDel, db.delegateVoteIndex[v]? = some () ↔
    ∃ (r : AccountRecord) (info : DelegateStats), db.accounts[v.delegateId]? = some r ∧
      r.delegateInfo = some info ∧ info.votesFor = v.votes

/-- The indexes of accounts are exact. -/
structure Indexed (db : Ledger) : Prop where
  names : ∀ (name : Name) (id : ℤ), db.accountIndex[name]? = some id ↔
    ∃ r : AccountRecord, db.accounts[id]? = some r ∧ r.name = name
  votes : ∀ v : VoteDel, db.delegateVoteIndex[v]? = some () ↔
    ∃ (r : AccountRecord) (info : DelegateStats), db.accounts[v.delegateId]? = some r ∧
      r.delegateInfo = some info ∧ info.votesFor = v.votes

/-- The name of a record is the name of the account under its id, and of no other. -/
def NameFits (db : Ledger) (r : AccountRecord) : Prop :=
  ∀ (id : ℤ) (r' : AccountRecord), db.accounts[id]? = some r' → (r'.name = r.name ↔ id = r.id)

variable {crypto : Crypto} {db db' : Ledger}

/-- Names are unique. -/
theorem Indexed.name_inj (h : Indexed db) {id id' : ℤ} {r r' : AccountRecord}
    (hr : db.accounts[id]? = some r) (hr' : db.accounts[id']? = some r') (hname : r.name = r'.name) :
    id = id' := by
  have h₁ := (h.names r.name id).2 ⟨r, hr, rfl⟩
  have h₂ := (h.names r.name id').2 ⟨r', hr', hname.symm⟩
  exact Option.some.inj (h₁.symm.trans h₂)

/-- A record with the name of the account it replaces fits. -/
theorem Indexed.nameFits (h : Indexed db) {r old : AccountRecord}
    (hold : db.accounts[r.id]? = some old) (hname : r.name = old.name) : NameFits db r := by
  intro id r' hr'
  constructor
  · exact fun heq => h.name_inj hr' hold (heq.trans hname)
  · rintro rfl
    rw [hold] at hr'
    cases hr'
    exact hname.symm

/-- Exact indexes are determined by the accounts. -/
theorem Indexed.ext (h : Indexed db) (h' : Indexed db') (haccounts : db'.accounts = db.accounts) :
    db'.accountIndex = db.accountIndex ∧ db'.delegateVoteIndex = db.delegateVoteIndex := by
  constructor
  · refine Table.ext fun name => Option.ext fun id => ?_
    rw [h.names, h'.names, haccounts]
  · refine Table.ext fun v => Option.ext fun u => ?_
    rw [h.votes, h'.votes, haccounts]

/-! ### Stores -/

theorem Indexed.votesIndexed (h : Indexed db) : VotesIndexed db :=
  fun v => h.votes v

/-- The votes of other accounts, after those of one were removed. -/
private theorem removeVotes_get (h : VotesIndexed db) {id : ℤ} {old : AccountRecord}
    (hold : db.accounts[id]? = some old) (v : VoteDel) :
    (removeVotes db.delegateVoteIndex id old)[v]? = some () ↔
      v.delegateId ≠ id ∧ db.delegateVoteIndex[v]? = some () := by
  have hmine : db.delegateVoteIndex[v]? = some () → v.delegateId = id →
      ∃ info, old.delegateInfo = some info ∧ v = ⟨info.votesFor, id⟩ := by
    intro hv hid
    obtain ⟨r, info, hr, hinfo, hvotes⟩ := (h v).1 hv
    rw [hid, hold] at hr
    cases hr
    exact ⟨info, hinfo, by rw [hvotes, ← hid]⟩
  unfold removeVotes
  split
  · rename_i info hinfo
    rw [Table.getElem?_erase]
    split
    · rename_i heq
      exact ⟨fun h => (nomatch h), fun h => absurd (by rw [heq]) h.1⟩
    · rename_i hne
      refine ⟨fun hv => ⟨fun hid => ?_, hv⟩, fun hv => hv.2⟩
      obtain ⟨info', hinfo', heq⟩ := hmine hv hid
      rw [hinfo] at hinfo'
      cases hinfo'
      exact hne heq
  · rename_i hnone
    refine ⟨fun hv => ⟨fun hid => ?_, hv⟩, fun hv => hv.2⟩
    obtain ⟨info', hinfo', -⟩ := hmine hv hid
    rw [hnone] at hinfo'
    cases hinfo'

/-- The votes of one account added to those of the others. -/
private theorem addVotes_get {votes : KeySet VoteDel} {id : ℤ} {r : AccountRecord}
    (v : VoteDel) : (addVotes votes id r)[v]? = some () ↔
      votes[v]? = some () ∨ (v.delegateId = id ∧
        ∃ info, r.delegateInfo = some info ∧ info.votesFor = v.votes) := by
  unfold addVotes
  split
  · rename_i info hinfo
    rw [Table.getElem?_insert]
    split
    · rename_i heq
      subst heq
      exact ⟨fun _ => Or.inr ⟨rfl, info, hinfo, rfl⟩, fun _ => rfl⟩
    · rename_i hne
      refine ⟨Or.inl, fun hv => hv.resolve_right ?_⟩
      rintro ⟨rfl, info', hinfo', hvotes⟩
      rw [hinfo] at hinfo'
      cases hinfo'
      exact hne (by rw [hvotes])
  · rename_i hnone
    refine ⟨Or.inl, fun hv => hv.resolve_right ?_⟩
    rintro ⟨-, info', hinfo', -⟩
    rw [hnone] at hinfo'
    cases hinfo'

/-- The accounts after one is written. -/
private theorem insert_get {t : Table ℤ AccountRecord} {r : AccountRecord} {id : ℤ}
    {r' : AccountRecord} : (t.insert r.id r)[id]? = some r' ↔
      (id = r.id ∧ r' = r) ∨ (id ≠ r.id ∧ t[id]? = some r') := by
  rw [Table.getElem?_insert]
  split
  · rename_i heq
    refine ⟨fun h => Or.inl ⟨heq, (Option.some.inj h).symm⟩, fun h => ?_⟩
    rcases h with ⟨-, rfl⟩ | ⟨hne, -⟩
    · rfl
    · exact absurd heq hne
  · rename_i hne
    refine ⟨fun h => Or.inr ⟨hne, h⟩, fun h => ?_⟩
    rcases h with ⟨heq, -⟩ | ⟨-, h⟩
    · exact absurd heq hne
    · exact h

/-- The accounts after one is removed. -/
private theorem erase_get {t : Table ℤ AccountRecord} {k id : ℤ} {r' : AccountRecord} :
    (t.erase k)[id]? = some r' ↔ id ≠ k ∧ t[id]? = some r' := by
  rw [Table.getElem?_erase]
  split
  · rename_i heq
    exact ⟨fun h => (nomatch h), fun h => absurd heq h.1⟩
  · rename_i hne
    exact ⟨fun h => ⟨hne, h⟩, fun h => h.2⟩

private theorem VotesIndexed.remove (h : VotesIndexed db) {r old : AccountRecord}
    (hold : db.accounts[r.id]? = some old) (haccounts : db'.accounts = db.accounts.erase r.id)
    (hvotes : db'.delegateVoteIndex = removeVotes db.delegateVoteIndex r.id old) :
    VotesIndexed db' := by
  intro v
  rw [haccounts]
  simp only [erase_get]
  rw [hvotes, removeVotes_get h hold, h]
  exact ⟨fun ⟨hne, r', info, hr', hinfo⟩ => ⟨r', info, ⟨hne, hr'⟩, hinfo⟩,
    fun ⟨r', info, ⟨hne, hr'⟩, hinfo⟩ => ⟨hne, r', info, hr', hinfo⟩⟩

private theorem VotesIndexed.put (h : VotesIndexed db) {r : AccountRecord}
    (haccounts : db'.accounts = db.accounts.insert r.id r)
    (hvotes : db'.delegateVoteIndex = addVotes
      (match db.accounts[r.id]? with
        | some old => removeVotes db.delegateVoteIndex r.id old
        | none => db.delegateVoteIndex) r.id r) : VotesIndexed db' := by
  have hothers : ∀ v : VoteDel, (match db.accounts[r.id]? with
      | some old => removeVotes db.delegateVoteIndex r.id old
      | none => db.delegateVoteIndex)[v]? = some () ↔
        v.delegateId ≠ r.id ∧ db.delegateVoteIndex[v]? = some () := by
    intro v
    cases hold : db.accounts[r.id]? with
    | some old => exact removeVotes_get h hold v
    | none =>
      refine ⟨fun hv => ⟨fun hid => ?_, hv⟩, fun hv => hv.2⟩
      obtain ⟨r', info, hr', -⟩ := (h v).1 hv
      rw [hid, hold] at hr'
      cases hr'
  intro v
  rw [hvotes, addVotes_get, hothers, h, haccounts]
  simp only [insert_get]
  constructor
  · rintro (⟨hne, r', info, hr', hinfo⟩ | ⟨hid, info, hinfo⟩)
    · exact ⟨r', info, Or.inr ⟨hne, hr'⟩, hinfo⟩
    · exact ⟨r, info, Or.inl ⟨hid, rfl⟩, hinfo⟩
  · rintro ⟨r', info, ⟨hid, rfl⟩ | ⟨hne, hr'⟩, hinfo⟩
    · exact Or.inr ⟨hid, info, hinfo⟩
    · exact Or.inl ⟨hne, r', info, hr', hinfo⟩

/-- **Every store keeps the vote index exact**: also one of a null record, of a record that was not
there, or of an account that becomes or ceases to be a delegate. -/
theorem VotesIndexed.storeAccountRecord (h : VotesIndexed db) (r : AccountRecord) :
    VotesIndexed (db.storeAccountRecord crypto r) := by
  unfold Ledger.storeAccountRecord
  split
  · rename_i old _ hold
    exact h.remove hold rfl rfl
  · exact h
  · exact h.put rfl rfl

/-- Removing an account. -/
private theorem Indexed.remove (h : Indexed db) {r old : AccountRecord}
    (hold : db.accounts[r.id]? = some old) (hfits : NameFits db r)
    (haccounts : db'.accounts = db.accounts.erase r.id)
    (hnames : db'.accountIndex = db.accountIndex.erase r.name)
    (hvotes : db'.delegateVoteIndex = removeVotes db.delegateVoteIndex r.id old) :
    Indexed db' := by
  refine ⟨fun name id => ?_, h.votesIndexed.remove hold haccounts hvotes⟩
  rw [haccounts]
  simp only [erase_get]
  rw [hnames, Table.getElem?_erase]
  split
  · rename_i heq
    subst heq
    refine ⟨fun h => (nomatch h), ?_⟩
    rintro ⟨r', ⟨hne, hr'⟩, hname⟩
    exact absurd ((hfits id r' hr').1 hname) hne
  · rename_i hne
    rw [h.names]
    refine ⟨fun ⟨r', hr', hname⟩ => ⟨r', ⟨?_, hr'⟩, hname⟩, fun ⟨r', ⟨_, hr'⟩, hname⟩ =>
      ⟨r', hr', hname⟩⟩
    intro hid
    exact hne (hname.symm.trans ((hfits id r' hr').2 hid))

/-- Writing an account. -/
private theorem Indexed.put (h : Indexed db) {r : AccountRecord} (hfits : NameFits db r)
    (haccounts : db'.accounts = db.accounts.insert r.id r)
    (hnames : db'.accountIndex = db.accountIndex.insert r.name r.id)
    (hvotes : db'.delegateVoteIndex = addVotes
      (match db.accounts[r.id]? with
        | some old => removeVotes db.delegateVoteIndex r.id old
        | none => db.delegateVoteIndex) r.id r) : Indexed db' := by
  refine ⟨fun name id => ?_, h.votesIndexed.put haccounts hvotes⟩
  rw [hnames, haccounts, Table.getElem?_insert]
  simp only [insert_get]
  split
  · rename_i heq
    subst heq
    refine ⟨fun hid => ?_, ?_⟩
    · cases hid
      exact ⟨r, Or.inl ⟨rfl, rfl⟩, rfl⟩
    · rintro ⟨r', ⟨rfl, -⟩ | ⟨hne, hr'⟩, hname⟩
      · rfl
      · exact absurd ((hfits id r' hr').1 hname) hne
  · rename_i hne
    rw [h.names]
    constructor
    · rintro ⟨r', hr', hname⟩
      refine ⟨r', Or.inr ⟨fun hid => ?_, hr'⟩, hname⟩
      exact hne (hname.symm.trans ((hfits id r' hr').2 hid))
    · rintro ⟨r', ⟨-, rfl⟩ | ⟨-, hr'⟩, hname⟩
      · exact absurd hname.symm hne
      · exact ⟨r', hr', hname⟩

/-- **A store keeps the indexes exact** when its record fits the names in use. -/
theorem Indexed.storeAccountRecord (h : Indexed db) {r : AccountRecord}
    (hfits : r.isNull = false ∨ db.accounts[r.id]? ≠ none → NameFits db r) :
    Indexed (db.storeAccountRecord crypto r) := by
  unfold Ledger.storeAccountRecord
  split
  · rename_i old _ hold
    exact h.remove hold (hfits (Or.inr (by rw [hold]; exact Option.some_ne_none old))) rfl rfl rfl
  · exact h
  · rename_i hnull
    exact h.put (hfits (Or.inl hnull)) rfl rfl rfl

/-! ### Applying a pending state -/

/-- The accounts of a pending state fit the database: those that exist keep their names, and
new ones have names of their own. -/
structure Compatible (db : Ledger) (t : Table ℤ AccountRecord) : Prop where
  keyed : t.KeyedBy AccountRecord.id
  old : ∀ (id : ℤ) (r old : AccountRecord), t[id]? = some r → db.accounts[id]? = some old →
    r.name = old.name
  fresh : ∀ (id : ℤ) (r : AccountRecord), t[id]? = some r → r.isNull = false →
    db.accounts[id]? = none → ∀ (id' : ℤ) (r' : AccountRecord), db.accounts[id']? = some r' →
      r'.name ≠ r.name
  distinct : ∀ (id id' : ℤ) (r r' : AccountRecord), t[id]? = some r → t[id']? = some r' →
    r.isNull = false → r'.isNull = false → r.name = r'.name → id = id'

/-- While the accounts of a pending state are stored, each account is the old or the new one. -/
private theorem Indexed.storeAccounts (h : Indexed db) {t : Table ℤ AccountRecord}
    (hc : Compatible db t) :
    Indexed (t.foldl (fun db _ r => db.storeAccountRecord crypto r) db) := by
  have key := Table.foldl_induction (f := fun (db : Ledger) (_ : ℤ) r =>
      db.storeAccountRecord crypto r) (P := fun db' => Indexed db' ∧
      ∀ id : ℤ, db'.accounts[id]? = db.accounts[id]? ∨ ∃ r : AccountRecord, t[id]? = some r ∧
        db'.accounts[id]? = if r.isNull then none else some r) t ?_ ⟨h, fun _ => Or.inl rfl⟩
  · exact key.1
  · rintro db' id r hr ⟨hdb', hall⟩
    have hid : r.id = id := hc.keyed id r hr
    subst hid
    have htables : (db'.storeAccountRecord crypto r).accounts =
        db'.accounts.put r.isNull r.id r := by
      rw [storeAccountRecord_toTables]
    refine ⟨hdb'.storeAccountRecord fun hwritten => ?_, fun id' => ?_⟩
    · cases hold : db'.accounts[r.id]? with
      | some old =>
        refine hdb'.nameFits hold ?_
        rcases hall r.id with heq | ⟨r', hr', heq⟩
        · exact hc.old r.id r old hr (heq ▸ hold)
        · rw [hr] at hr'
          cases hr'
          rw [hold] at heq
          split at heq <;> cases heq
          rfl
      | none =>
        have hnull : r.isNull = false := hwritten.resolve_right fun hne => hne hold
        have hnone : db.accounts[r.id]? = none := by
          rcases hall r.id with heq | ⟨r', hr', heq⟩
          · exact heq ▸ hold
          · rw [hr] at hr'
            cases hr'
            rw [hold, hnull] at heq
            cases heq
        intro id' r' hr'
        refine ⟨fun hname => ?_, fun hid' => ?_⟩
        · rcases hall id' with heq | ⟨r'', hr'', heq⟩
          · exact absurd hname (hc.fresh r.id r hr hnull hnone id' r' (heq ▸ hr'))
          · rw [hr'] at heq
            split at heq
            · cases heq
            · rename_i hnull''
              cases heq
              exact hc.distinct id' r.id r' r hr'' hr (Bool.eq_false_iff.2 hnull'') hnull hname
        · rw [hid', hold] at hr'
          cases hr'
    · by_cases hid' : id' = r.id
      · subst hid'
        exact Or.inr ⟨r, hr, by rw [htables, Table.getElem?_put_same]⟩
      · rw [htables, Table.getElem?_put_of_ne _ _ _ hid']
        exact hall id'

/-- Stores that leave the accounts and their indexes alone. -/
private theorem Indexed.foldl {κ α : Type} [Ord κ] [TransOrd κ] [LawfulEqOrd κ]
    {f : Ledger → κ → α → Ledger} (t : Table κ α) (h : Indexed db)
    (hf : ∀ db k v, (f db k v).accounts = db.accounts ∧
      (f db k v).accountIndex = db.accountIndex ∧
      (f db k v).delegateVoteIndex = db.delegateVoteIndex) : Indexed (t.foldl f db) := by
  refine Table.foldl_induction (P := Indexed) t (fun db k v _ h => ?_) h
  obtain ⟨haccounts, hnames, hvotes⟩ := hf db k v
  exact ⟨fun name id => by rw [hnames, haccounts]; exact h.names name id,
    fun v => by rw [hvotes, haccounts]; exact h.votes v⟩

/-- **Applying a pending state keeps the indexes exact** when its accounts fit. -/
theorem Indexed.apply {o : Overlay} (h : Indexed db) (now : ℕ)
    (hc : Compatible db o.accounts) : Indexed (db.apply crypto now o) := by
  have hassets : ∀ (db : Ledger) (_ : ℤ) (r : AssetRecord),
      (db.storeAssetRecord r).accounts = db.accounts ∧
      (db.storeAssetRecord r).accountIndex = db.accountIndex ∧
      (db.storeAssetRecord r).delegateVoteIndex = db.delegateVoteIndex := by
    intro db _ r
    unfold storeAssetRecord
    split <;> exact ⟨rfl, rfl, rfl⟩
  have hstart : Indexed (o.assets.foldl (fun db _ r => db.storeAssetRecord r)
      (o.properties.foldl (fun db p v => db.setProperty p v) db)) :=
    Indexed.foldl o.assets (Indexed.foldl (f := fun db p v => db.setProperty p v) o.properties h
      fun _ _ _ => ⟨rfl, rfl, rfl⟩) hassets
  have haccounts : (o.assets.foldl (fun db _ r => db.storeAssetRecord r)
      (o.properties.foldl (fun db p v => db.setProperty p v) db)).accounts = db.accounts := by
    rw [Table.foldl_unchanged (o := fun db : Ledger => db.accounts) o.assets
        fun db id r => (hassets db id r).1,
      Table.foldl_unchanged (f := fun db p v => db.setProperty p v)
        (o := fun db : Ledger => db.accounts) o.properties fun _ _ _ => rfl]
  have hrecords : Indexed (db.applyRecords crypto o) := by
    have haccountsStored : Indexed (o.accounts.foldl
        (fun db _ r => db.storeAccountRecord crypto r) _) := hstart.storeAccounts
      ⟨hc.keyed, by rw [haccounts]; exact hc.old, by rw [haccounts]; exact hc.fresh, hc.distinct⟩
    have hbalances := Indexed.foldl (f := fun db _ r => db.storeBalanceRecord crypto r) o.balances
      haccountsStored fun _ _ _ => ⟨rfl, rfl, rfl⟩
    have hbids := Indexed.foldl (f := fun db k r => db.storeBidRecord k r) o.bids
      hbalances fun _ _ _ => ⟨rfl, rfl, rfl⟩
    have hasks := Indexed.foldl (f := fun db k r => db.storeAskRecord k r) o.asks
      hbids fun _ _ _ => ⟨rfl, rfl, rfl⟩
    have hshorts := Indexed.foldl (f := fun db k r => db.storeShortRecord k r) o.shorts
      hasks fun _ _ _ => ⟨rfl, rfl, rfl⟩
    exact Indexed.foldl (f := fun db k r => db.storeCollateralRecord k r) o.collateral
      hshorts fun _ _ _ => ⟨rfl, rfl, rfl⟩
  have htransactions : Indexed ((db.applyRecords crypto o).applyTransactions crypto now o) := by
    refine hrecords.foldl o.transactions fun db id r => ?_
    unfold putTransaction
    dsimp only
    split
    · exact ⟨rfl, rfl, rfl⟩
    · split <;> exact ⟨rfl, rfl, rfl⟩
  have hrest := Indexed.foldl (f := fun db _ r => db.setFeed r) o.feeds
    (Indexed.foldl (f := fun db _ s => db.storeMarketStatus s) o.marketStatuses
      (Indexed.foldl (f := fun db _ r => db.storeSlotRecord r) o.slots
        (htransactions.foldl (f := fun db id slate => db.storeDelegateSlate id slate) o.slates
          fun _ _ _ => ⟨rfl, rfl, rfl⟩) fun _ _ _ => ⟨rfl, rfl, rfl⟩)
      fun _ _ _ => ⟨rfl, rfl, rfl⟩) fun _ _ _ => ⟨rfl, rfl, rfl⟩
  exact ⟨hrest.names, hrest.votes⟩

end Ledger

end LarkX
