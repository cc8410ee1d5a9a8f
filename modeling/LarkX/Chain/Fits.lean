import LarkX.Chain.Writes
import LarkX.State.Undo

/-!
# The pending state of a block fits

The evaluation of a block leaves a pending state that can be written to the ledger
(`evaluateBlock_fits`) and that registers its accounts there (`evaluateBlock_registers`). What
carries the second through the writes of a block is that accounts keep their identity and that a
new account gets the next id and a fresh name (`AccountsFit`).
-/

namespace LarkX

open ChainInterface Ledger

namespace Overlay

/-- The accounts of a pending state over a ledger, and its index of names. -/
structure AccountsFit (db : Ledger) (o : Overlay) : Prop where
  keyed : o.accounts.KeyedBy AccountRecord.id
  old : ∀ (id : ℤ) (r old : AccountRecord), o.accounts[id]? = some r →
    db.accounts[id]? = some old → r.name = old.name ∧ r.isNull = false
  fresh : ∀ (id : ℤ) (r : AccountRecord), o.accounts[id]? = some r →
    db.accounts[id]? = none → ∀ (id' : ℤ) (r' : AccountRecord), db.accounts[id']? = some r' →
      r'.name ≠ r.name
  names : ∀ (name : Name) (id : ℤ), o.accountIdIndex[name]? = some id ↔
    ∃ r : AccountRecord, o.accounts[id]? = some r ∧ r.name = name
  lastAccount : ∀ last : ℤ, db.properties[ChainProperty.lastAccountId]? = some (.int last) →
    ∃ last' : ℤ, (o.properties.above db.properties)[ChainProperty.lastAccountId]? =
      some (.int last') ∧ last ≤ last' ∧
      ∀ (id : ℤ) (r : AccountRecord), o.accounts[id]? = some r → id ≤ last'

namespace AccountsFit

variable {crypto : Crypto} {db : Ledger} {o o' : Overlay}

theorem empty (db : Ledger) : AccountsFit db {} where
  keyed := .empty
  old id r old h := by rw [Table.getElem?_empty'] at h; cases h
  fresh id r h := by rw [Table.getElem?_empty'] at h; cases h
  names name id := by
    simp only [Table.getElem?_empty']
    exact ⟨fun h => (nomatch h), fun ⟨_, h, _⟩ => nomatch h⟩
  lastAccount last h := by
    refine ⟨last, by rwa [Table.empty_above], le_rfl, fun id r h => ?_⟩
    rw [Table.getElem?_empty'] at h
    cases h

/-- The names of a pending state are its own. -/
theorem name_inj (h : AccountsFit db o) {id id' : ℤ} {r r' : AccountRecord}
    (hr : o.accounts[id]? = some r) (hr' : o.accounts[id']? = some r') (hname : r.name = r'.name) :
    id = id' := by
  have h₁ := (h.names r.name id).2 ⟨r, hr, rfl⟩
  have h₂ := (h.names r.name id').2 ⟨r', hr', hname.symm⟩
  exact Option.some.inj (h₁.symm.trans h₂)

theorem registers (h : AccountsFit db o) : o.Registers db where
  accounts :=
    { keyed := h.keyed
      old := fun id r old hr hold => (h.old id r old hr hold).1
      fresh := fun id r hr _ hnone => h.fresh id r hr hnone
      distinct := fun _ _ _ _ hr hr' _ _ hname => h.name_inj hr hr' hname }
  kept id r old hr hold := (h.old id r old hr hold).2
  lastAccount := h.lastAccount

/-- A write to anything but accounts. -/
theorem of_same (h : AccountsFit db o) (haccounts : o'.accounts = o.accounts)
    (hindex : o'.accountIdIndex = o.accountIdIndex)
    (hlast : o'.properties[ChainProperty.lastAccountId]? =
      o.properties[ChainProperty.lastAccountId]?) : AccountsFit db o' where
  keyed := haccounts ▸ h.keyed
  old := haccounts ▸ h.old
  fresh := haccounts ▸ h.fresh
  names := by rw [haccounts, hindex]; exact h.names
  lastAccount := by
    rw [haccounts]
    simp only [Table.getElem?_above, hlast] at *
    intro last hdb
    obtain ⟨last', h₁, h₂⟩ := h.lastAccount last hdb
    rw [Table.getElem?_above] at h₁
    exact ⟨last', h₁, h₂⟩

/-- What an account of the state is: one of the pending state or one of the ledger. -/
private theorem above_cases {id : ℤ} {r : AccountRecord}
    (h : (o.accounts.above db.accounts)[id]? = some r) :
    o.accounts[id]? = some r ∨ (o.accounts[id]? = none ∧ db.accounts[id]? = some r) := by
  rw [Table.getElem?_above, Option.or_eq_some_iff] at h
  exact h

/-- The entries of a table after one is written. -/
private theorem insert_cases {t : Table ℤ AccountRecord} {r r' : AccountRecord} {id : ℤ}
    (h : (t.insert r.id r)[id]? = some r') :
    (id = r.id ∧ r' = r) ∨ (id ≠ r.id ∧ t[id]? = some r') := by
  rw [Table.getElem?_insert] at h
  split at h
  · rename_i hid
    exact Or.inl ⟨hid, (Option.some.inj h).symm⟩
  · rename_i hid
    exact Or.inr ⟨hid, h⟩

/-- A record that no other account of the pending state shares its name with, and its write to
the index of names. -/
private theorem names_store (h : AccountsFit db o) {r : AccountRecord}
    (hother : ∀ (id : ℤ) (r' : AccountRecord), o.accounts[id]? = some r' → r'.name = r.name →
      id = r.id) (hmine : ∀ r', o.accounts[r.id]? = some r' → r'.name = r.name) (name : Name)
    (id : ℤ) : (o.accountIdIndex.insert r.name r.id)[name]? = some id ↔
      ∃ r' : AccountRecord, (o.accounts.insert r.id r)[id]? = some r' ∧ r'.name = name := by
  rw [Table.getElem?_insert]
  split
  · rename_i hname
    subst hname
    constructor
    · rintro ⟨⟩
      exact ⟨r, Table.getElem?_insert_same .., rfl⟩
    · rintro ⟨r', hr', hname⟩
      rcases insert_cases hr' with ⟨rfl, -⟩ | ⟨-, hr'⟩
      · rfl
      · rw [hother id r' hr' hname]
  · rename_i hne
    rw [h.names]
    constructor
    · rintro ⟨r', hr', hname⟩
      refine ⟨r', ?_, hname⟩
      rw [Table.getElem?_insert_of_ne _ _ ?_]
      · exact hr'
      · rintro rfl
        exact hne (hname.symm.trans (hmine r' hr'))
    · rintro ⟨r', hr', hname⟩
      rcases insert_cases hr' with ⟨-, rfl⟩ | ⟨-, hr'⟩
      · exact absurd hname.symm hne
      · exact ⟨r', hr', hname⟩

/-- An account is written over a record with its identity. -/
theorem account (h : AccountsFit db o) (hdb : db.WellFormed crypto) (hreg : db.Registered) {id : ℤ}
    {old r : AccountRecord} (hold : (o.accounts.above db.accounts)[id]? = some old)
    (hsame : EvaluationState.SameIdentity old r) :
    AccountsFit db (o.storeAccountRecord crypto r) := by
  have hid : r.id = id := hsame.id.trans ((h.keyed.above hdb.keyed.accounts) id old hold)
  subst hid
  have hnull : r.isNull = old.isNull := by
    rw [AccountRecord.isNull, AccountRecord.isNull, hsame.ownerKey]
  have hother : ∀ (id : ℤ) (r' : AccountRecord), o.accounts[id]? = some r' →
      r'.name = r.name → id = r.id := by
    intro id r' hr' hname
    rcases above_cases hold with hold | ⟨-, hold⟩
    · exact h.name_inj hr' hold (hname.trans hsame.name)
    · cases hdbid : db.accounts[id]? with
      | some old' =>
        have hname' := (h.old id r' old' hr' hdbid).1
        exact hreg.indexed.name_inj hdbid hold (hname'.symm.trans (hname.trans hsame.name))
      | none => exact absurd (hname.trans hsame.name).symm (h.fresh id r' hr' hdbid r.id old hold)
  have hmine : ∀ r', o.accounts[r.id]? = some r' → r'.name = r.name := by
    intro r' hr'
    rcases above_cases hold with hold | ⟨hnone, -⟩
    · rw [hold] at hr'
      cases hr'
      exact hsame.name.symm
    · rw [hnone] at hr'
      cases hr'
  have hkeep : ∀ old', db.accounts[r.id]? = some old' → r.name = old'.name ∧ r.isNull = false := by
    intro old' hold'
    rcases above_cases hold with hold | ⟨-, hold⟩
    · rw [hsame.name, hnull]
      exact h.old r.id old old' hold hold'
    · rw [hold] at hold'
      cases hold'
      exact ⟨hsame.name, hnull ▸ hdb.live.accounts r.id old hold⟩
  have hfresh : db.accounts[r.id]? = none → ∀ (id' : ℤ) (r' : AccountRecord),
      db.accounts[id']? = some r' → r'.name ≠ r.name := by
    intro hnone id' r' hr'
    rcases above_cases hold with hold | ⟨-, hold⟩
    · rw [hsame.name]
      exact h.fresh r.id old hold hnone id' r' hr'
    · rw [hnone] at hold
      cases hold
  have hbound : ∀ last : ℤ, db.properties[ChainProperty.lastAccountId]? = some (.int last) →
      ∃ last' : ℤ, (o.properties.above db.properties)[ChainProperty.lastAccountId]? =
        some (.int last') ∧ last ≤ last' ∧ ∀ (id : ℤ) (r' : AccountRecord),
          (o.accounts.insert r.id r)[id]? = some r' → id ≤ last' := by
    intro last hlast
    obtain ⟨last', hlast', hle, hids⟩ := h.lastAccount last hlast
    obtain ⟨last'', hlast'', hdbids⟩ := hreg.lastAccount
    rw [hlast] at hlast''
    cases hlast''
    refine ⟨last', hlast', hle, fun id r' hr' => ?_⟩
    rcases insert_cases hr' with ⟨rfl, -⟩ | ⟨-, hr'⟩
    · rcases above_cases hold with hold | ⟨-, hold⟩
      · exact hids _ old hold
      · exact (hdbids _ old hold).trans hle
    · exact hids id r' hr'
  refine ⟨h.keyed.insert r, fun id r' old' hr' hold' => ?_, fun id r' hr' hnone => ?_,
    h.names_store hother hmine, hbound⟩
  · rcases insert_cases hr' with ⟨rfl, rfl⟩ | ⟨-, hr'⟩
    · exact hkeep old' hold'
    · exact h.old id r' old' hr' hold'
  · rcases insert_cases hr' with ⟨rfl, rfl⟩ | ⟨-, hr'⟩
    · exact hfresh hnone
    · exact h.fresh id r' hr' hnone

/-- A name that is not found is the name of no account. -/
private theorem name_fresh (h : AccountsFit db o) (hreg : db.Registered) {name : Name}
    (hnone : getAccountRecordByNameIn db name [o] = none) :
    (∀ (id : ℤ) (r : AccountRecord), o.accounts[id]? = some r → r.name ≠ name) ∧
      ∀ (id : ℤ) (r : AccountRecord), db.accounts[id]? = some r → r.name ≠ name := by
  rw [getAccountRecordByNameIn, getAccountRecordByNameIn] at hnone
  have hindex : o.accountIdIndex[name]? = none := by
    cases hid : o.accountIdIndex[name]? with
    | none => rfl
    | some id =>
      obtain ⟨r, hr, -⟩ := (h.names name id).1 hid
      simp only [hid, lookupIn, hr] at hnone
      cases hnone
  refine ⟨fun id r hr hname => ?_, fun id r hr hname => ?_⟩
  · rw [(h.names name id).2 ⟨r, hr, hname⟩] at hindex
    cases hindex
  · simp only [hindex, (hreg.indexed.names name id).2 ⟨r, hr, hname⟩, hr] at hnone
    cases hnone

/-- A new account, under the next id and a fresh name. -/
theorem newAccount (h : AccountsFit db o) (hreg : db.Registered) {last : ℤ}
    {r : AccountRecord} (hlast : (o.properties.above db.properties)[ChainProperty.lastAccountId]? =
      some (.int last)) (hid : r.id = last + 1)
    (hname : getAccountRecordByNameIn db r.name [o] = none) :
    AccountsFit db (o.write crypto (.newAccount r)) := by
  obtain ⟨dbLast, hdbLast, hdbids⟩ := hreg.lastAccount
  obtain ⟨last', hlast', hle, hids⟩ := h.lastAccount dbLast hdbLast
  rw [hlast] at hlast'
  cases hlast'
  obtain ⟨hnew, hdbnew⟩ := h.name_fresh hreg hname
  -- both the pending state and the ledger hold smaller ids only
  have hnone : o.accounts[r.id]? = none := by
    cases hr : o.accounts[r.id]? with
    | none => rfl
    | some r' => exact absurd (hids r.id r' hr) (by omega)
  have hdbnone : db.accounts[r.id]? = none := by
    cases hr : db.accounts[r.id]? with
    | none => rfl
    | some r' => exact absurd (hdbids r.id r' hr) (by omega)
  refine ⟨h.keyed.insert r, fun id r' old' hr' hold' => ?_, fun id r' hr' hnone' => ?_,
    h.names_store (fun id r' hr' hname => absurd hname (hnew id r' hr')) (fun r' hr' => ?_),
    fun dbLast' hdbLast' => ?_⟩
  · rcases insert_cases hr' with ⟨rfl, rfl⟩ | ⟨-, hr'⟩
    · rw [hdbnone] at hold'
      cases hold'
    · exact h.old id r' old' hr' hold'
  · rcases insert_cases hr' with ⟨rfl, rfl⟩ | ⟨-, hr'⟩
    · exact hdbnew
    · exact h.fresh id r' hr' hnone'
  · rw [hnone] at hr'
    cases hr'
  · rw [hdbLast] at hdbLast'
    cases hdbLast'
    refine ⟨r.id, ?_, by omega, fun id r' hr' => ?_⟩
    · change (Table.above (o.properties.insert .lastAccountId (.int r.id)) db.properties)[_]? = _
      rw [Table.insert_above, Table.getElem?_insert_same]
    · rcases insert_cases hr' with ⟨rfl, -⟩ | ⟨-, hr'⟩
      · exact le_rfl
      · exact (hids id r' hr').trans (by omega)

/-- A property other than the last account id. -/
theorem property (h : AccountsFit db o) {p : ChainProperty} (hp : p ≠ .lastAccountId)
    (v : Variant) : AccountsFit db (o.setProperty p v) :=
  h.of_same rfl rfl (Table.getElem?_insert_of_ne _ _ hp.symm)

/-- **Every write of a block** keeps the accounts in order. -/
theorem write (h : AccountsFit db o) (hdb : db.WellFormed crypto) (hreg : db.Registered) {now n : ℕ}
    {head : SignedBlockHeader} {b : FullBlock} {w : Write}
    (hw : BlockWrite crypto head b ⟨[o], db, now, n⟩ w) :
    AccountsFit db (o.write crypto w) := by
  cases hw with
  | delegate hold hsame hkeys => exact h.account hdb hreg hold hsame
  | slot _ | asset _ _ | transaction _ => exact h.of_same rfl rfl rfl
  | confirmation _ | activeDelegates _ | randomSeed _ => exact h.property (by decide) _
  | market _ _ hw =>
    cases hw with
    | dirtyMarkets _ => exact h.property (by decide) _
    | _ => exact h.of_same rfl rfl rfl
  | evaluation _ hw =>
    cases hw with
    | account hold hsame hkeys => exact h.account hdb hreg hold hsame
    | newAccount hop hlast hid hname =>
      exact h.newAccount hreg (lastAccountId_eq_ok.1 hlast) hid hname
    | _ => exact h.of_same rfl rfl rfl

end AccountsFit

end Overlay

/-! ### Blocks -/

variable {crypto : Crypto} {db : Ledger} {now n : ℕ} {head : SignedBlockHeader} {headId : BlockId}
  {b : FullBlock} {c : ChainInterface}

/-- The writes of a block to its pending state, which lies over the ledger alone. -/
theorem evaluateBlock_invariant {I : Overlay → Prop} (hdb : db.toTables.Keyed crypto)
    (empty : I {}) (step : ∀ o w, I o → BlockWrite crypto head b ⟨[o], db, now, n⟩ w →
      I (o.write crypto w)) {skip : Bool} {wall : ℕ}
    (h : evaluateBlock crypto ⟨[], db, now, n⟩ head headId skip wall b = .ok c) :
    ∃ o, c = ⟨[o], db, now, n⟩ ∧ I o := by
  simp only [evaluateBlock, bind_eq_ok] at h
  obtain ⟨signee, -, -, -, h⟩ := h
  have hpending : (push ⟨[], db, now, n⟩).IsPending := List.cons_ne_nil _ _
  have hkeyed : (push ⟨[], db, now, n⟩).flat.Keyed crypto := Tables.Keyed.empty.above hdb
  refine (evaluateBlockChanges_writes hpending hkeyed h).invariant
    (I := fun c => ∃ o, c = ⟨[o], db, now, n⟩ ∧ I o) (fun c w _ hc hw => ?_) hpending
    ⟨{}, rfl, empty⟩
  obtain ⟨o, rfl, ho⟩ := hc
  exact ⟨o.write crypto w, rfl, step o w ho hw⟩

/-- A transaction of a block is stored under its own id. -/
private theorem named_write {o : Overlay} (h : TransactionsNamed crypto o) {w : Write}
    (hw : BlockWrite crypto head b c w) : TransactionsNamed crypto (o.write crypto w) := by
  cases hw with
  | @transaction trx index digest htrx =>
    intro id r hr
    change (o.transactions.insert (crypto.transactionId trx) ⟨trx, ⟨b.blockNum, index⟩⟩)[id]? =
      some r at hr
    rw [Table.getElem?_insert] at hr
    split at hr
    · rename_i hid
      cases hr
      exact Or.inr hid
    · exact h id r hr
  | delegate _ _ _ | slot _ | asset _ _ | confirmation _ | activeDelegates _ | randomSeed _ =>
    exact h
  | market _ _ hw => cases hw <;> exact h
  | evaluation _ hw => cases hw <;> exact h

/-- **The pending state of a block** lies over the ledger and can be written to it. -/
theorem evaluateBlock_fits (hdb : db.WellFormed crypto) {skip : Bool} {wall : ℕ}
    (h : evaluateBlock crypto ⟨[], db, now, n⟩ head headId skip wall b = .ok c) :
    ∃ o, c = ⟨[o], db, now, n⟩ ∧ o.Fits crypto := by
  refine evaluateBlock_invariant hdb.keyed (I := Overlay.Fits crypto) ⟨.empty, fun id r hr => ?_⟩
    (fun o w ho hw => ⟨?_, named_write ho.named hw⟩) h
  · rw [Table.getElem?_empty'] at hr
    cases hr
  · rw [Overlay.write_toTables]
    exact ho.keyed.write w

/-- **The accounts of a block** are registered on top of those of the ledger. -/
theorem evaluateBlock_registers (hdb : db.WellFormed crypto) (hreg : db.Registered) {skip : Bool}
    {wall : ℕ} (h : evaluateBlock crypto ⟨[], db, now, n⟩ head headId skip wall b = .ok c) :
    c.top.Registers db := by
  obtain ⟨o, rfl, ho⟩ := evaluateBlock_invariant hdb.keyed (I := Overlay.AccountsFit db) (.empty db)
    (fun o w ho hw => ho.write hdb hreg hw) h
  exact ho.registers

end LarkX
