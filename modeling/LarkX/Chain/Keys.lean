import LarkX.Chain.AccountWrites

/-!
# The index of keys

`get_account_record( address )` finds an account by the address of any key of its history. The index
is written with the accounts and never compared with them, so that it is right is a property of
runs: from a genesis with distinct names and keys on, every key of every account finds that account
(`Visited.keysOwned`). A block gives an account only keys that are free when they are given
(`KeyClaims`), so the records before and after it share no key but those of one account
(`KeysApart`); then any order of stores between them keeps the index, those of an undo state
included.

An address never moves from an account that stays to another one (`Visited.address_stays`). The
index keeps the keys that an undone block had set, so they stay taken.
-/

namespace LarkX

open ChainInterface Ledger

/-! ### A table with a list of keys -/

namespace Table

variable {κ α ι : Type} [Ord κ] [Std.TransOrd κ] [Std.LawfulEqOrd κ] [DecidableEq κ]

/-- A lookup after a value is written under a list of keys. -/
theorem getElem?_foldl_insert (f : ι → κ) (v : α) (l : List ι) (t : Table κ α) (a : κ) :
    (l.foldl (fun t i => t.insert (f i) v) t)[a]? = if a ∈ l.map f then some v else t[a]? := by
  induction l generalizing t with
  | nil => rfl
  | cons i l ih =>
    rw [List.foldl_cons, ih, getElem?_insert, List.map_cons]
    by_cases ha : a = f i
    · rw [if_pos ha, ite_self, if_pos (ha ▸ List.mem_cons_self)]
    · rw [if_neg ha]
      simp only [List.mem_cons, ha, false_or]

end Table

namespace ChainInterface

variable {crypto : Crypto} {c c₀ c' : ChainInterface}

/-! ### Addresses in use -/

/-- A key is looked up in the top pending state first. -/
theorem getAccountRecordByAddress_cons (o : Overlay) (os : List Overlay) (db : Ledger) (now n : ℕ)
    (a : Address) : getAccountRecordByAddress ⟨o :: os, db, now, n⟩ a =
      match o.keyToAccount[a]? with
      | some id => (flat ⟨o :: os, db, now, n⟩).accounts[id]?
      | none => getAccountRecordByAddress ⟨os, db, now, n⟩ a := by
  cases hid : o.keyToAccount[a]? with
  | none => simp only [getAccountRecordByAddress, getAccountRecordByAddressIn, hid]
  | some id =>
    dsimp only
    rw [← getAccountRecord_eq]
    simp only [getAccountRecordByAddress, getAccountRecordByAddressIn, hid]
    rfl

/-- The keys of an account that is written are in use, and the addresses that were in use still
are. -/
theorem takes_account (hp : c.IsPending) (r : AccountRecord) :
    (∀ a, c.Takes a → (c.write crypto (.account r)).Takes a) ∧
      ∀ key ∈ r.activeKeys, (c.write crypto (.account r)).Takes (crypto.keyAddress key) := by
  obtain ⟨os, db, now, n⟩ := c
  cases os with
  | nil => exact absurd rfl hp
  | cons o os =>
    have hflat : ∀ id : ℤ, (flat ⟨o.storeAccountRecord crypto r :: os, db, now, n⟩).accounts[id]? =
        if id = r.id then some r else (flat ⟨o :: os, db, now, n⟩).accounts[id]? := by
      intro id
      have hwrite := congrArg Tables.accounts
        (@flat_write crypto ⟨o :: os, db, now, n⟩ hp (.account r))
      change (flat ⟨o.storeAccountRecord crypto r :: os, db, now, n⟩).accounts = _ at hwrite
      rw [hwrite]
      exact Table.getElem?_insert ..
    have hkeys : ∀ a, (o.storeAccountRecord crypto r).keyToAccount[a]? =
        if a = crypto.keyAddress r.ownerKey ∨ a ∈ r.activeKeys.map crypto.keyAddress then some r.id
        else o.keyToAccount[a]? := by
      intro a
      rw [Overlay.storeAccountRecord, Table.getElem?_insert, Table.getElem?_foldl_insert]
      by_cases howner : a = crypto.keyAddress r.ownerKey
      · rw [if_pos howner, if_pos (Or.inl howner)]
      · rw [if_neg howner]
        simp only [howner, false_or]
    have htakes : ∀ a, Takes (write crypto ⟨o :: os, db, now, n⟩ (.account r)) a ↔
        (match (o.storeAccountRecord crypto r).keyToAccount[a]? with
          | some id => (flat ⟨o.storeAccountRecord crypto r :: os, db, now, n⟩).accounts[id]?
          | none => getAccountRecordByAddress ⟨os, db, now, n⟩ a).isSome = true := by
      intro a
      rw [← getAccountRecordByAddress_cons]
      rfl
    refine ⟨fun a ha => ?_, fun key hkey => ?_⟩
    · rw [htakes, hkeys]
      rw [Takes, getAccountRecordByAddress_cons] at ha
      split
      · rename_i id hid
        rw [hflat]
        split
        · rfl
        · rename_i hne
          split at hid
          · exact absurd (Option.some.inj hid).symm hne
          · rw [hid] at ha
            exact ha
      · rename_i hid
        split at hid
        · cases hid
        · rw [hid] at ha
          exact ha
    · rw [htakes, hkeys, if_pos (Or.inr (List.mem_map_of_mem hkey))]
      dsimp only
      rw [hflat, if_pos rfl]
      rfl

/-- What a block may have done to the keys of the accounts: the addresses in use still are, and no
account has a key of another one, nor one that was in use and not its own. -/
structure KeyClaims (crypto : Crypto) (c₀ c : ChainInterface) : Prop where
  taken : ∀ a, c₀.Takes a → c.Takes a
  keyed : ∀ (id : ℤ) (r : AccountRecord), c.flat.accounts[id]? = some r → r.activeKeys ≠ []
  found : ∀ (id : ℤ) (r : AccountRecord), c.flat.accounts[id]? = some r →
    ∀ key ∈ r.activeKeys, c.Takes (crypto.keyAddress key)
  apart : ∀ (id id' : ℤ) (r r' : AccountRecord), c.flat.accounts[id]? = some r →
    c.flat.accounts[id']? = some r' → ∀ key ∈ r.activeKeys, ∀ key' ∈ r'.activeKeys,
      crypto.keyAddress key = crypto.keyAddress key' → id = id'
  fresh : ∀ (id : ℤ) (r : AccountRecord), c.flat.accounts[id]? = some r → ∀ key ∈ r.activeKeys,
    (∃ r₀, c₀.flat.accounts[id]? = some r₀ ∧ key ∈ r₀.activeKeys) ∨
      ¬c₀.Takes (crypto.keyAddress key)

/-- **An account that is written** with keys of its own or free ones. -/
theorem KeyClaims.account (h : KeyClaims crypto c₀ c) (hp : c.IsPending) {r : AccountRecord}
    (hne : r.activeKeys ≠ [])
    (hkeys : ∀ key ∈ r.activeKeys, (∃ old, c.flat.accounts[r.id]? = some old ∧
      key ∈ old.activeKeys) ∨ ¬c.Takes (crypto.keyAddress key)) :
    KeyClaims crypto c₀ (c.write crypto (.account r)) := by
  obtain ⟨htaken, hmine⟩ := @takes_account crypto c hp r
  have hget : ∀ (id : ℤ) (r' : AccountRecord),
      (c.write crypto (.account r)).flat.accounts[id]? = some r' →
        (id = r.id ∧ r' = r) ∨ (id ≠ r.id ∧ c.flat.accounts[id]? = some r') := by
    intro id r' hr'
    rw [flat_write hp] at hr'
    change (c.flat.accounts.insert r.id r)[id]? = _ at hr'
    rw [Table.getElem?_insert] at hr'
    split at hr'
    · rename_i hid
      exact Or.inl ⟨hid, (Option.some.inj hr').symm⟩
    · rename_i hid
      exact Or.inr ⟨hid, hr'⟩
  -- a key of the account is no key of another one
  have hother : ∀ (id' : ℤ) (r' : AccountRecord), c.flat.accounts[id']? = some r' →
      ∀ key ∈ r.activeKeys, ∀ key' ∈ r'.activeKeys,
        crypto.keyAddress key = crypto.keyAddress key' → r.id = id' := by
    intro id' r' hr' key hkey key' hkey' heq
    rcases hkeys key hkey with ⟨old, hold, hkeyOld⟩ | hfree
    · exact h.apart r.id id' old r' hold hr' key hkeyOld key' hkey' heq
    · rw [heq] at hfree
      exact absurd (h.found id' r' hr' key' hkey') hfree
  refine ⟨fun a ha => htaken a (h.taken a ha), fun id r' hr' => ?_, fun id r' hr' key hkey => ?_,
    fun id id' r₁ r₂ hr₁ hr₂ key hkey key' hkey' heq => ?_, fun id r' hr' key hkey => ?_⟩
  · rcases hget id r' hr' with ⟨-, rfl⟩ | ⟨-, hr'⟩
    · exact hne
    · exact h.keyed id r' hr'
  · rcases hget id r' hr' with ⟨-, rfl⟩ | ⟨-, hr'⟩
    · exact hmine key hkey
    · exact htaken _ (h.found id r' hr' key hkey)
  · rcases hget id r₁ hr₁ with ⟨hid, rfl⟩ | ⟨-, hold₁⟩
    · rcases hget id' r₂ hr₂ with ⟨hid', rfl⟩ | ⟨-, hold₂⟩
      · rw [hid, hid']
      · exact hid.trans (hother id' r₂ hold₂ key hkey key' hkey' heq)
    · rcases hget id' r₂ hr₂ with ⟨hid', rfl⟩ | ⟨-, hold₂⟩
      · exact (hid'.trans (hother id r₁ hold₁ key' hkey' key hkey heq.symm)).symm
      · exact h.apart id id' r₁ r₂ hold₁ hold₂ key hkey key' hkey' heq
  · rcases hget id r' hr' with ⟨rfl, rfl⟩ | ⟨-, hr'⟩
    · rcases hkeys key hkey with ⟨old, hold, hkeyOld⟩ | hfree
      · exact h.fresh _ old hold key hkeyOld
      · exact Or.inr fun ha => hfree (h.taken _ ha)
    · exact h.fresh id r' hr' key hkey

/-- A write to anything but an account. -/
theorem KeyClaims.aside (h : KeyClaims crypto c₀ c) (hp : c.IsPending) {w : Write}
    (hw : ∀ r, w ≠ .account r ∧ w ≠ .newAccount r) :
    KeyClaims crypto c₀ (c.write crypto w) := by
  have haccounts : (c.write crypto w).flat.accounts = c.flat.accounts := by
    rw [flat_write hp]
    cases w with
    | account r => exact absurd rfl (hw r).1
    | newAccount r => exact absurd rfl (hw r).2
    | _ => rfl
  have htakes : ∀ {a : Address}, (c.write crypto w).Takes a ↔ c.Takes a := takes_aside hw
  exact ⟨fun a ha => htakes.2 (h.taken a ha), haccounts ▸ h.keyed,
    fun id r hr key hkey => htakes.2 (h.found id r (haccounts ▸ hr) key hkey),
    haccounts ▸ h.apart, haccounts ▸ h.fresh⟩

/-- **Step.** A write after the producer is credited. -/
theorem KeyClaims.step (h : KeyClaims crypto c₀ c) (hp : c.IsPending) {w : Write}
    (hw : AccountStep crypto c w) : KeyClaims crypto c₀ (c.write crypto w) := by
  cases w with
  | account r =>
    cases hw with
    | @updated old _ hold hupdates =>
      refine h.account hp (hupdates.keyed (h.keyed _ old hold)) fun key hkey => ?_
      exact (hupdates.keys key hkey).imp_left fun hkey => ⟨old, hold, hkey⟩
    | registered hnone hkey hfree hsecret =>
      refine h.account hp (by rw [hkey]; exact List.cons_ne_nil _ _) fun key' hkey' => ?_
      rw [hkey, List.mem_singleton] at hkey'
      exact Or.inr (hkey' ▸ hfree)
  | newAccount r => exact hw.elim
  | _ => exact h.aside hp fun r => ⟨nofun, nofun⟩

/-- **A block** gives every account only keys that are free. -/
theorem evaluateBlockChanges_keyClaims {head : SignedBlockHeader} {b : FullBlock}
    {blockSignee : PublicKey} (hreg : EvaluationState.Registry crypto c)
    (hc : KeyClaims crypto c₀ c) {skip : Bool}
    (hrun : c.evaluateBlockChanges crypto head skip b blockSignee = .ok c') :
    KeyClaims crypto c₀ c' := by
  obtain ⟨c₁, hproducer, hwrites⟩ := evaluateBlockChanges_accountWrites hreg hrun
  obtain ⟨signee, r, info, -, hr, -, rfl⟩ := updateProducer_binds hreg hproducer
  obtain ⟨hold, -⟩ := getDelegate_eq_ok hr
  have hid : r.id = signee.id := hreg.keyed.accounts _ r hold
  have hp₁ := (sameBelow_write crypto c (.account { r with delegateInfo := some { info with
    blocksProduced := info.blocksProduced + 1
    nextSecretHash := b.nextSecretHash
    lastBlockNumProduced := b.blockNum } })).pending hreg.pending
  have hfirst := hc.account hreg.pending (r := { r with delegateInfo := some { info with
    blocksProduced := info.blocksProduced + 1
    nextSecretHash := b.nextSecretHash
    lastBlockNumProduced := b.blockNum } }) (hc.keyed _ r hold) fun key hkey =>
      Or.inl ⟨r, hid ▸ hold, hkey⟩
  exact hwrites.invariant (I := KeyClaims crypto c₀) (fun c w hp hc hw => hc.step hp hw)
    ((sameBelow_write crypto _ _).pending hp₁)
    (hfirst.aside (w := .slot _) hp₁ fun r => ⟨nofun, nofun⟩)

end ChainInterface

/-! ### The ledger -/

/-- The records `V` allows have keys, and share none but those of one account. -/
structure KeysApart (crypto : Crypto) (V : ℤ → AccountRecord → Prop) : Prop where
  keyed : ∀ id r, V id r → r.activeKeys ≠ []
  apart : ∀ id id' r r', V id r → V id' r' → ∀ key ∈ r.activeKeys, ∀ key' ∈ r'.activeKeys,
    crypto.keyAddress key = crypto.keyAddress key' → id = id'

/-- The record stands in one of the two tables. -/
def Table.HasEither (t t' : Table ℤ AccountRecord) (id : ℤ) (r : AccountRecord) : Prop :=
  t[id]? = some r ∨ t'[id]? = some r

theorem KeysApart.symm {crypto : Crypto} {t t' : Table ℤ AccountRecord}
    (h : KeysApart crypto (t.HasEither t')) : KeysApart crypto (t'.HasEither t) :=
  ⟨fun id r hr => h.keyed id r hr.symm,
    fun id id' r r' hr hr' => h.apart id id' r r' hr.symm hr'.symm⟩

namespace Ledger

variable {crypto : Crypto} {db db' : Ledger} {o : Overlay} {a : Address} {id i : ℤ}
  {r : AccountRecord}

/-- Every account is found by every key of its history. -/
structure KeysOwned (crypto : Crypto) (db : Ledger) : Prop where
  keyed : ∀ (id : ℤ) (r : AccountRecord), db.accounts[id]? = some r → r.activeKeys ≠ []
  owned : ∀ (id : ℤ) (r : AccountRecord), db.accounts[id]? = some r → ∀ key ∈ r.activeKeys,
    db.addressToAccount[crypto.keyAddress key]? = some id

/-- The address is that of an account that is stored. -/
def TakenBy (db : Ledger) (a : Address) (id : ℤ) : Prop :=
  db.addressToAccount[a]? = some id ∧ db.accounts[id]? ≠ none

theorem KeysOwned.takenBy (h : db.KeysOwned crypto) (hr : db.accounts[id]? = some r)
    {key : PublicKey} (hkey : key ∈ r.activeKeys) : db.TakenBy (crypto.keyAddress key) id :=
  ⟨h.owned id r hr key hkey, by rw [hr]; exact Option.some_ne_none r⟩

/-- A key of an account finds it. -/
theorem KeysOwned.found (h : db.KeysOwned crypto) (hr : db.accounts[id]? = some r)
    {key : PublicKey} (hkey : key ∈ r.activeKeys) (now n : ℕ) :
    getAccountRecordByAddress ⟨[], db, now, n⟩ (crypto.keyAddress key) = some r := by
  change getAccountRecordByAddressIn db _ [] = _
  rw [getAccountRecordByAddressIn, h.owned id r hr key hkey]
  exact hr

/-- The delegate of a slot is the one that its signature is credited to. -/
theorem KeysOwned.signee (h : db.KeysOwned crypto) {timestamp now n : ℕ} {active : List ℤ}
    (hr : getSlotSignee ⟨[], db, now, n⟩ timestamp active = .ok r) (now' n' : ℕ) :
    getDelegateRecordForSignee crypto ⟨[], db, now', n'⟩ r.activeKey = .ok r := by
  simp only [getSlotSignee, bind_eq_ok, orThrow_eq_ok, require_eq_ok, pure_eq_ok] at hr
  obtain ⟨id, -, r', hstored, -, hdelegate, rfl⟩ := hr
  have hactive := h.found hstored (AccountRecord.activeKey_mem (h.keyed id r' hstored)) now' n'
  simp only [getDelegateRecordForSignee, bind_eq_ok, orThrow_eq_ok, require_eq_ok, pure_eq_ok]
  exact ⟨r', hactive, (), hdelegate, rfl⟩

theorem TakenBy.unique (h : db.TakenBy a id) (h' : db.TakenBy a i) : id = i :=
  Option.some.inj (h.1.symm.trans h'.1)

/-- What a store of an account does to the table and the index of keys. -/
inductive StoresKeys (crypto : Crypto) (db : Ledger) (r : AccountRecord) (db' : Ledger) : Prop
  | written (hnull : r.isNull = false)
      (haccounts : ∀ id : ℤ, db'.accounts[id]? = if id = r.id then some r else db.accounts[id]?)
      (hkeys : ∀ a, db'.addressToAccount[a]? =
        if a ∈ r.activeKeys.map crypto.keyAddress then some r.id else db.addressToAccount[a]?)
  | removed {old : AccountRecord} (hnull : r.isNull = true) (hold : db.accounts[r.id]? = some old)
      (haccounts : ∀ id : ℤ, db'.accounts[id]? = if id = r.id then none else db.accounts[id]?)
      (hkeys : ∀ a, db'.addressToAccount[a]? =
        if a ∈ old.activeKeys.map crypto.keyAddress then none else db.addressToAccount[a]?)
  | same (h : db' = db)

theorem storeAccountRecord_keys (db : Ledger) (r : AccountRecord) :
    StoresKeys crypto db r (db.storeAccountRecord crypto r) := by
  cases hnull : r.isNull with
  | false =>
    refine .written hnull (fun id => ?_) fun a => ?_
    · rw [show (db.storeAccountRecord crypto r).accounts = db.accounts.insert r.id r by
        rw [Ledger.storeAccountRecord, hnull]]
      exact Table.getElem?_insert ..
    · rw [show (db.storeAccountRecord crypto r).addressToAccount = r.activeKeys.foldl
        (fun t key => t.insert (crypto.keyAddress key) r.id) db.addressToAccount by
          rw [Ledger.storeAccountRecord, hnull]]
      exact Table.getElem?_foldl_insert ..
  | true =>
    cases hold : db.accounts[r.id]? with
    | none =>
      refine .same ?_
      rw [Ledger.storeAccountRecord, hnull, hold]
    | some old =>
      refine .removed hnull hold (fun id => ?_) fun a => ?_
      · rw [show (db.storeAccountRecord crypto r).accounts = db.accounts.erase r.id by
          rw [Ledger.storeAccountRecord, hnull, hold]]
        exact Table.getElem?_erase ..
      · rw [show (db.storeAccountRecord crypto r).addressToAccount =
            (old.activeKeys.map crypto.keyAddress).foldl (fun t a => t.erase a)
              db.addressToAccount by
          rw [Ledger.storeAccountRecord, hnull, hold, List.foldl_map]]
        exact Table.getElem?_foldl_erase ..

/-- A store of anything but an account. -/
theorem storeOf_keys {w : Write} (h : StoreOf crypto db w db') :
    (∃ r, w = .account r ∧ db' = db.storeAccountRecord crypto r) ∨
      (db'.accounts = db.accounts ∧ db'.addressToAccount = db.addressToAccount) := by
  cases h with
  | account r => exact Or.inl ⟨r, rfl, rfl⟩
  | asset r =>
    unfold storeAssetRecord
    split <;> exact Or.inr ⟨rfl, rfl⟩
  | transaction _ h =>
    simp only [storeTransaction, ite_eq_ok, bind_eq_ok, pure_eq_ok] at h
    obtain ⟨-, rfl⟩ | ⟨-, _, -, ⟨-, _, -, rfl⟩ | ⟨-, rfl⟩⟩ := h <;> exact Or.inr ⟨rfl, rfl⟩
  | _ => exact Or.inr ⟨rfl, rfl⟩

/-- The accounts are found by their keys, and `V` allows them all. -/
structure OwnedIn (crypto : Crypto) (V : ℤ → AccountRecord → Prop) (db : Ledger) : Prop
    extends db.KeysOwned crypto where
  allowed : ∀ (id : ℤ) (r : AccountRecord), db.accounts[id]? = some r → V id r

theorem OwnedIn.congr {V : ℤ → AccountRecord → Prop} (h : OwnedIn crypto V db)
    (haccounts : db'.accounts = db.accounts)
    (hkeys : db'.addressToAccount = db.addressToAccount) : OwnedIn crypto V db' := by
  refine ⟨⟨haccounts ▸ h.keyed, fun id r hr key hkey => ?_⟩, haccounts ▸ h.allowed⟩
  rw [hkeys]
  exact h.owned id r (haccounts ▸ hr) key hkey

variable {V : ℤ → AccountRecord → Prop}

/-- **Step.** A store of one of the accounts. -/
theorem OwnedIn.store (hV : KeysApart crypto V) (h : OwnedIn crypto V db)
    (hr : r.isNull = false → V r.id r) : OwnedIn crypto V (db.storeAccountRecord crypto r) := by
  cases @storeAccountRecord_keys crypto db r with
  | written hnull haccounts hkeys =>
    have hmine : V r.id r := hr hnull
    have hallowed : ∀ (id : ℤ) (r' : AccountRecord),
        (db.storeAccountRecord crypto r).accounts[id]? = some r' → V id r' := by
      intro id r' hr'
      rw [haccounts] at hr'
      split at hr'
      · rename_i hid
        cases hr'
        exact hid ▸ hmine
      · exact h.allowed id r' hr'
    refine ⟨⟨fun id r' hr' => hV.keyed id r' (hallowed id r' hr'),
      fun id r' hr' key hkey => ?_⟩, hallowed⟩
    rw [hkeys]
    split
    · rename_i hmem
      obtain ⟨key', hkey', heq⟩ := List.mem_map.1 hmem
      exact congrArg some (hV.apart _ _ _ _ hmine (hallowed id r' hr') key' hkey' key hkey
        heq)
    · rename_i hmem
      rw [haccounts] at hr'
      split at hr'
      · cases hr'
        exact absurd (List.mem_map_of_mem hkey) hmem
      · exact h.owned id r' hr' key hkey
  | removed hnull hold haccounts hkeys =>
    have hkept : ∀ (id : ℤ) (r' : AccountRecord),
        (db.storeAccountRecord crypto r).accounts[id]? = some r' →
          id ≠ r.id ∧ db.accounts[id]? = some r' := by
      intro id r' hr'
      rw [haccounts] at hr'
      split at hr'
      · cases hr'
      · rename_i hne
        exact ⟨hne, hr'⟩
    refine ⟨⟨fun id r' hr' => h.keyed id r' (hkept id r' hr').2, fun id r' hr' key hkey => ?_⟩,
      fun id r' hr' => h.allowed id r' (hkept id r' hr').2⟩
    obtain ⟨hne, hstored⟩ := hkept id r' hr'
    rw [hkeys, if_neg]
    · exact h.owned id r' hstored key hkey
    · rintro hmem
      obtain ⟨key', hkey', heq⟩ := List.mem_map.1 hmem
      exact hne (hV.apart _ _ _ _ (h.allowed id r' hstored) (h.allowed _ _ hold) key hkey key'
        hkey' heq.symm)
  | same heq =>
    rw [heq]
    exact h

/-- **Step.** No store takes an address from the account that has it, when that stays. -/
theorem OwnedIn.store_address (h : OwnedIn crypto V db) (hr : r.isNull = false → V r.id r)
    (hremoved : r.isNull = true → r.id ≠ i) (ha : db.addressToAccount[a]? = some i)
    (howner : ∀ id r, V id r → ∀ key ∈ r.activeKeys, crypto.keyAddress key = a → id = i) :
    (db.storeAccountRecord crypto r).addressToAccount[a]? = some i := by
  cases @storeAccountRecord_keys crypto db r with
  | written hnull haccounts hkeys =>
    rw [hkeys]
    split
    · rename_i hmem
      obtain ⟨key, hkey, heq⟩ := List.mem_map.1 hmem
      exact congrArg some (howner _ r (hr hnull) key hkey heq)
    · exact ha
  | removed hnull hold haccounts hkeys =>
    rw [hkeys, if_neg]
    · exact ha
    · rintro hmem
      obtain ⟨key, hkey, heq⟩ := List.mem_map.1 hmem
      exact hremoved hnull (howner _ _ (h.allowed _ _ hold) key hkey heq)
  | same heq =>
    rw [heq]
    exact ha

/-! ### Applying a pending state -/

theorem apply_storesOf (db : Ledger) (now : ℕ) (hnamed : TransactionsNamed crypto o) :
    StoresOf crypto (Applied o) db (db.apply crypto now o) := by
  have happly : applyOverlay crypto o ⟨[], db, now, 0⟩ =
      .ok ⟨[], db.apply crypto now o, now, 0⟩ := applyOverlay_ledger db (by decide) hnamed
  exact applyOverlay_storesOf rfl happly

/-- The records of a pending state are the ones its ledger has after it is applied. -/
theorem apply_account (db : Ledger) (now : ℕ) (hkeyed : o.toTables.Keyed crypto)
    (hr : o.accounts[id]? = some r) :
    (r.isNull = false → (db.apply crypto now o).accounts[r.id]? = some r) ∧
      (r.isNull = true → (db.apply crypto now o).accounts[r.id]? = none) := by
  have hid : r.id = id := hkeyed.accounts id r hr
  have haccounts : (db.apply crypto now o).accounts =
      Table.settle AccountRecord.isNull o.accounts db.accounts :=
    congrArg Tables.accounts (apply_toTables now db hkeyed)
  rw [haccounts, hid, Table.getElem?_settle, hr]
  constructor <;> intro hnull <;> simp [hnull]

/-- **Applying a pending state** to a ledger keeps the index of keys. -/
theorem KeysOwned.apply (h : db.KeysOwned crypto) (hfits : o.Fits crypto) (now : ℕ)
    (hapart : KeysApart crypto (db.accounts.HasEither (db.apply crypto now o).accounts)) :
    (db.apply crypto now o).KeysOwned crypto := by
  have hall := (apply_storesOf db now hfits.named).invariant
    (I := OwnedIn crypto (db.accounts.HasEither (db.apply crypto now o).accounts))
    (fun db₁ w db₂ h₁ hw hstore => ?_) ⟨h, fun id r hr => Or.inl hr⟩
  · exact hall.toKeysOwned
  · rcases storeOf_keys hstore with ⟨r, rfl, rfl⟩ | ⟨haccounts, hkeys⟩
    · refine h₁.store hapart fun hnull => ?_
      rcases hw with hholds | hdirty
      · cases hholds with
        | account hr => exact Or.inr ((apply_account db now hfits.keyed hr).1 hnull)
      · cases hdirty
    · exact h₁.congr haccounts hkeys

/-- **Applying a pending state** takes no address from an account that stays. -/
theorem KeysOwned.apply_address (h : db.KeysOwned crypto) (hfits : o.Fits crypto) (now : ℕ)
    (hapart : KeysApart crypto (db.accounts.HasEither (db.apply crypto now o).accounts))
    (ha : db.addressToAccount[a]? = some i)
    (hstays : (db.apply crypto now o).accounts[i]? ≠ none)
    (howner : ∀ id r, db.accounts.HasEither (db.apply crypto now o).accounts id r →
      ∀ key ∈ r.activeKeys, crypto.keyAddress key = a → id = i) :
    (db.apply crypto now o).TakenBy a i := by
  refine ⟨?_, hstays⟩
  have hall := (apply_storesOf db now hfits.named).invariant
    (I := fun db₁ => OwnedIn crypto (db.accounts.HasEither (db.apply crypto now o).accounts) db₁ ∧
      db₁.addressToAccount[a]? = some i)
    (fun db₁ w db₂ h₁ hw hstore => ?_) ⟨⟨h, fun id r hr => Or.inl hr⟩, ha⟩
  · exact hall.2
  · rcases storeOf_keys hstore with ⟨r, rfl, rfl⟩ | ⟨haccounts, hkeys⟩
    · rcases hw with hholds | hdirty
      · cases hholds with
        | account hr =>
          obtain ⟨hwritten, hremoved⟩ := apply_account db now hfits.keyed hr
          have hmine : r.isNull = false →
              db.accounts.HasEither (db.apply crypto now o).accounts r.id r :=
            fun hnull => Or.inr (hwritten hnull)
          exact ⟨h₁.1.store hapart hmine, h₁.1.store_address hmine
            (fun hnull hid => hstays (hid ▸ hremoved hnull)) h₁.2 howner⟩
      · cases hdirty
    · exact ⟨h₁.1.congr haccounts hkeys, hkeys ▸ h₁.2⟩

end Ledger

/-! ### One block -/

section Blocks

variable {crypto : Crypto} {link : Link crypto}

/-- An address is in use under an empty pending state when the ledger has it. -/
theorem takes_push (db : Ledger) (now n : ℕ) (a : Address) :
    (push ⟨[], db, now, n⟩).Takes a ↔ ∃ id, db.TakenBy a id := by
  change (getAccountRecordByAddress ⟨[{}], db, now, n⟩ a).isSome = true ↔ _
  rw [getAccountRecordByAddress_cons, show ({} : Overlay).keyToAccount[a]? = none from
    Table.getElem?_empty' a]
  simp only [getAccountRecordByAddress, getAccountRecordByAddressIn, TakenBy]
  cases db.addressToAccount[a]? with
  | none => simp
  | some id => simp

/-- What a block does to the keys of the accounts of its ledger. -/
structure Link.KeepsKeys (link : Link crypto) : Prop where
  apart : KeysApart crypto (link.prev.ledger.accounts.HasEither link.after.accounts)
  fresh : ∀ (id : ℤ) (r : AccountRecord), link.after.accounts[id]? = some r →
    ∀ key ∈ r.activeKeys,
      (∃ r₀, link.prev.ledger.accounts[id]? = some r₀ ∧ key ∈ r₀.activeKeys) ∨
        ∀ i, ¬link.prev.ledger.TakenBy (crypto.keyAddress key) i

/-- How a block that was accepted ran, and that its ledger has no other accounts than its pending
state. -/
theorem Link.runs (hwell : link.prev.ledger.WellFormed crypto)
    (hreg : link.prev.ledger.Registered) :
    EvaluationState.Registry crypto (link.prev.chain link.wall).push ∧
      (∃ active expected, (link.prev.chain link.wall).getActiveDelegates = .ok active ∧
        (link.prev.chain link.wall).getSlotSignee link.block.timestamp active = .ok expected ∧
        (link.prev.chain link.wall).push.evaluateBlockChanges crypto link.prev.headBlockHeader
          link.prev.skipSignatureVerification link.block expected.activeKey =
            .ok ⟨[link.changes], link.prev.ledger, link.prev.now link.wall,
              link.prev.headBlockNum⟩) ∧
      ∀ (id : ℤ) (r : AccountRecord), link.after.accounts[id]? = some r →
        (flat ⟨[link.changes], link.prev.ledger, link.prev.now link.wall,
          link.prev.headBlockNum⟩).accounts[id]? = some r := by
  obtain ⟨o, heq, hfits⟩ := evaluateBlock_fits hwell link.evaluated
  cases heq
  have hrun := link.evaluated
  simp only [evaluateBlock, bind_eq_ok] at hrun
  obtain ⟨blockSignee, -, _, hheader, hrun⟩ := hrun
  obtain ⟨-, -, -, -, active, expected, hactive, hexpected, rfl⟩ := verifyHeader_eq_ok hheader
  have hflat : (link.prev.chain link.wall).push.flat = link.prev.ledger.toTables :=
    Tables.empty_above _
  have hbelow : link.prev.ledger.toTables.AccountsBelow := by
    obtain ⟨last, hlast, hle⟩ := hreg.lastAccount
    intro last' hlast' id r hr
    cases hlast.symm.trans hlast'
    exact hle id r hr
  refine ⟨⟨List.cons_ne_nil _ _, hflat ▸ hwell.keyed, hflat ▸ hbelow⟩,
    ⟨active, expected, hactive, hexpected, hrun⟩, fun id r hr => ?_⟩
  have hsettled : link.after.accounts =
      Table.settle AccountRecord.isNull link.changes.accounts link.prev.ledger.accounts :=
    congrArg Tables.accounts (apply_toTables _ _ hfits.keyed)
  rw [hsettled] at hr
  exact Table.above_of_settle hr

/-- **A block that was accepted** gave its accounts only keys that were free. -/
theorem Link.keepsKeys (hwell : link.prev.ledger.WellFormed crypto)
    (hreg : link.prev.ledger.Registered) (howned : link.prev.ledger.KeysOwned crypto) :
    link.KeepsKeys := by
  obtain ⟨hregistry, ⟨_, _, -, -, hrun⟩, hafter⟩ := Link.runs hwell hreg
  have hflat : (link.prev.chain link.wall).push.flat = link.prev.ledger.toTables :=
    Tables.empty_above _
  have htakes : ∀ a, (link.prev.chain link.wall).push.Takes a ↔
      ∃ id, link.prev.ledger.TakenBy a id := takes_push _ _ _
  have hstart : KeyClaims crypto (link.prev.chain link.wall).push
      (link.prev.chain link.wall).push := by
    refine ⟨fun _ ha => ha, ?_, ?_, ?_, ?_⟩ <;> rw [hflat]
    · exact howned.keyed
    · exact fun id r hr key hkey => (htakes _).2 ⟨id, howned.takenBy hr hkey⟩
    · intro id id' r r' hr hr' key hkey key' hkey' heq
      exact (howned.takenBy hr hkey).unique (heq ▸ howned.takenBy hr' hkey')
    · exact fun id r hr key hkey => Or.inl ⟨r, hr, hkey⟩
  have hclaims := evaluateBlockChanges_keyClaims hregistry hstart hrun
  have hfresh : ∀ (id : ℤ) (r : AccountRecord), link.after.accounts[id]? = some r →
      ∀ key ∈ r.activeKeys,
        (∃ r₀, link.prev.ledger.accounts[id]? = some r₀ ∧ key ∈ r₀.activeKeys) ∨
          ∀ i, ¬link.prev.ledger.TakenBy (crypto.keyAddress key) i := by
    intro id r hr key hkey
    rcases hclaims.fresh id r (hafter id r hr) key hkey with ⟨r₀, hr₀, hmem⟩ | hfree
    · rw [hflat] at hr₀
      exact Or.inl ⟨r₀, hr₀, hmem⟩
    · exact Or.inr fun i hi => hfree ((htakes _).2 ⟨i, hi⟩)
  -- a key after the block and one of another account before it
  have hcross : ∀ (id id' : ℤ) (r r' : AccountRecord), link.after.accounts[id]? = some r →
      link.prev.ledger.accounts[id']? = some r' → ∀ key ∈ r.activeKeys, ∀ key' ∈ r'.activeKeys,
        crypto.keyAddress key = crypto.keyAddress key' → id = id' := by
    intro id id' r r' hr hr' key hkey key' hkey' heq
    have htaken := howned.takenBy hr' hkey'
    rcases hfresh id r hr key hkey with ⟨r₀, hr₀, hmem⟩ | hfree
    · exact (heq ▸ howned.takenBy hr₀ hmem).unique htaken
    · exact absurd (heq ▸ htaken) (hfree id')
  refine ⟨⟨fun id r hr => ?_, fun id id' r r' hr hr' key hkey key' hkey' heq => ?_⟩, hfresh⟩
  · rcases hr with hr | hr
    · exact howned.keyed id r hr
    · exact hclaims.keyed id r (hafter id r hr)
  · rcases hr with hr | hr <;> rcases hr' with hr' | hr'
    · exact (howned.takenBy hr hkey).unique (heq ▸ howned.takenBy hr' hkey')
    · exact (hcross id' id r' r hr' hr key' hkey' key hkey heq.symm).symm
    · exact hcross id id' r r' hr hr' key hkey key' hkey' heq
    · exact hclaims.apart id id' r r' (hafter id r hr) (hafter id' r' hr') key hkey key' hkey' heq

/-- **The ledger after a block**: every account is found by its keys, and no address left the
account that had it. -/
theorem Link.owned_after (hwell : link.prev.ledger.WellFormed crypto)
    (hreg : link.prev.ledger.Registered) (howned : link.prev.ledger.KeysOwned crypto) :
    link.after.KeysOwned crypto ∧
      ∀ a i, link.prev.ledger.TakenBy a i → link.after.TakenBy a i := by
  obtain ⟨o, heq, hfits⟩ := evaluateBlock_fits hwell link.evaluated
  cases heq
  obtain ⟨hapart, hfresh⟩ := Link.keepsKeys hwell hreg howned
  refine ⟨howned.apply hfits _ hapart, fun a i hi => ?_⟩
  refine howned.apply_address hfits _ hapart hi.1 ?_ fun id r hr key hkey heq => ?_
  · obtain ⟨r, hr⟩ := Option.ne_none_iff_exists'.1 hi.2
    obtain ⟨r', hr', -⟩ := (Link.forward hwell hreg).kept i r hr
    change link.after.accounts[i]? ≠ none
    rw [hr']
    exact Option.some_ne_none r'
  · rcases hr with hr | hr
    · exact (heq ▸ howned.takenBy hr hkey).unique hi
    · rcases hfresh id r hr key hkey with ⟨r₀, hr₀, hmem⟩ | hfree
      · exact (heq ▸ howned.takenBy hr₀ hmem).unique hi
      · exact absurd (heq ▸ hi) (hfree i)

end Blocks

/-! ### Paths -/

namespace Database

open LarkX.Action

variable {crypto : Crypto} {config : GenesisBlockConfig} {P : FullBlock → Prop}
  {K : Database → Event → Prop} {genesis : Ledger} {link : Link crypto} {links : List (Link crypto)}
  {db db' : Database} {ledger ledger' : Ledger}

/-- The ledgers along a path: every account was found by its keys, and no address has left the
account that had it. -/
def KeysKept (crypto : Crypto) : List (Link crypto) → Ledger → Prop
  | [], _ => True
  | link :: links, ledger => link.prev.ledger.KeysOwned crypto ∧
      (∀ a i, link.prev.ledger.TakenBy a i → ledger.TakenBy a i) ∧
      KeysKept crypto links link.prev.ledger

theorem KeysKept.mono (h : KeysKept crypto links ledger)
    (hkeeps : ∀ a i, ledger.TakenBy a i → ledger'.TakenBy a i) : KeysKept crypto links ledger' := by
  cases links with
  | nil => trivial
  | cons link links => exact ⟨h.1, fun a i hi => hkeeps a i (h.2.1 a i hi), h.2.2⟩

/-- The index of keys of a database and along its path. -/
structure KeysAlong (crypto : Crypto) (db : Database) (links : List (Link crypto)) : Prop where
  owned : db.ledger.KeysOwned crypto
  kept : KeysKept crypto links db.ledger

/-- **Undoing a block** keeps the index, and takes no address from an account that stays. -/
theorem Tracks.keysOwned_undo (h : Tracks crypto P K genesis db (link :: links))
    (hregistered : genesis.Registered) (hkeys : KeysAlong crypto db (link :: links))
    {undo : Overlay}
    (hundo : (link.prev.chain link.wall).getUndoState crypto link.changes = .ok undo) (now : ℕ) :
    (db.ledger.apply crypto now undo).KeysOwned crypto ∧
      (db.ledger.apply crypto now undo).accounts = link.prev.ledger.accounts ∧
      ∀ a i, db.ledger.TakenBy a i → (db.ledger.apply crypto now undo).accounts[i]? ≠ none →
        (db.ledger.apply crypto now undo).TakenBy a i := by
  cases h.linked with
  | cons hlinked hprev hfresh hP hrange hK =>
    obtain ⟨o, heq, hfits⟩ := evaluateBlock_fits hprev.wellFormed link.evaluated
    cases heq
    have hundoes : Undoes crypto undo link.prev.ledger link.after :=
      hprev.wellFormed.undoes hfits hundo fun hreg =>
        evaluateBlock_registers hprev.wellFormed hreg link.evaluated
    have hbefore : (db.ledger.apply crypto now undo).accounts = link.prev.ledger.accounts :=
      (hundoes.agrees db.ledger now h.wellFormed h.agrees).accounts
    have hafter : db.ledger.accounts = link.after.accounts := h.agrees.accounts
    have hapart : KeysApart crypto
        (db.ledger.accounts.HasEither (db.ledger.apply crypto now undo).accounts) := by
      rw [hbefore, hafter]
      exact (Link.keepsKeys hprev.wellFormed (hprev.registered hregistered)
        hkeys.kept.1).apart.symm
    refine ⟨hkeys.owned.apply hundoes.fits now hapart, hbefore, fun a i hi hstays =>
      hkeys.owned.apply_address hundoes.fits now hapart hi.1 hstays fun id r hr key hkey heq => ?_⟩
    rcases hr with hr | hr
    · exact (heq ▸ hkeys.owned.takenBy hr hkey).unique hi
    · rw [hbefore] at hr
      exact (heq ▸ hkeys.kept.2.1 _ _ (hkeys.kept.1.takenBy hr hkey)).unique hi

/-- **Step.** The index of keys along a path. -/
theorem Moves.keysAlong {wall : ℕ} {links' : List (Link crypto)}
    (h : Moves crypto K wall db links db' links') (htracks : Tracks crypto P K genesis db links)
    (hregistered : genesis.Registered) (hkeys : KeysAlong crypto db links) :
    KeysAlong crypto db' links' ∧ ∀ a i, db.ledger.TakenBy a i →
      db'.ledger.accounts[i]? ≠ none → db'.ledger.TakenBy a i := by
  cases h with
  | stay hsame =>
    rw [hsame.ledger]
    exact ⟨⟨hsame.ledger ▸ hkeys.owned, hsame.ledger ▸ hkeys.kept⟩, fun _ _ hi _ => hi⟩
  | extend hprev _ _ hledger =>
    subst hprev
    obtain ⟨howned, hkeeps⟩ := Link.owned_after htracks.wellFormed
      (htracks.registered hregistered) hkeys.owned
    rw [hledger]
    refine ⟨⟨?_, ?_⟩, fun a i hi _ => hkeeps a i hi⟩
    · rw [hledger]
      exact ⟨howned.keyed, howned.owned⟩
    · rw [hledger]
      exact ⟨hkeys.owned, hkeeps, hkeys.kept⟩
  | pop hundo hledger _ =>
    obtain ⟨howned, hbefore, hkeeps⟩ := htracks.keysOwned_undo hregistered hkeys hundo (db.now wall)
    rw [hledger]
    refine ⟨⟨hledger ▸ howned, ?_⟩, hkeeps⟩
    rw [hledger]
    exact hkeys.kept.2.2.mono fun a i hi =>
      hkeeps a i (hkeys.kept.2.1 a i hi) (hbefore ▸ hi.2)

end Database

/-! ### Genesis -/

/-- No two accounts of the configuration have one key. An account without an owner key is null, and
is not stored. -/
def GenesisBlockConfig.DistinctKeys (crypto : Crypto) (config : GenesisBlockConfig) : Prop :=
  config.names.Pairwise fun a b => a.owner ≠ 0 → b.owner ≠ 0 →
    crypto.keyAddress a.owner ≠ crypto.keyAddress b.owner

instance (crypto : Crypto) (config : GenesisBlockConfig) :
    Decidable (config.DistinctKeys crypto) :=
  inferInstanceAs (Decidable (List.Pairwise _ _))

namespace Genesis

variable {crypto : Crypto} {config : GenesisBlockConfig} {ledger ledger' : Ledger}
  {r : AccountRecord}

/-- The record is the account of a name of the configuration, with its key as the only one, and is
bound to nothing. -/
def KeyOf (config : GenesisBlockConfig) (r : AccountRecord) : Prop :=
  ∃ (n : ℕ) (name : NameConfig), config.names[n]? = some name ∧ r.id = n + 1 ∧
    r.ownerKey = name.owner ∧ r.activeKeys = [name.owner] ∧
    ({} : DelegateStats).SameTerms r.stats

/-- What the genesis state may hold of an account. -/
def Keyed (config : GenesisBlockConfig) (id : ℤ) (r : AccountRecord) : Prop :=
  r.id = id ∧ r.isNull = false ∧ KeyOf config r

/-- Distinct keys tell the accounts apart. -/
theorem keysApart_keyed (hdistinct : config.DistinctKeys crypto) :
    KeysApart crypto (Keyed config) := by
  constructor
  · rintro id r ⟨-, -, n, name, -, -, -, hkeys, -⟩
    rw [hkeys]
    exact List.cons_ne_nil _ _
  · rintro id id' r r' ⟨rfl, hnull, n, name, hn, hid, howner, hkeys, -⟩
      ⟨rfl, hnull', n', name', hn', hid', howner', hkeys', -⟩ key hkey key' hkey' heq
    rw [hkeys, List.mem_singleton] at hkey
    rw [hkeys', List.mem_singleton] at hkey'
    subst hkey hkey'
    obtain ⟨hlt, rfl⟩ := List.getElem?_eq_some_iff.1 hn
    obtain ⟨hlt', rfl⟩ := List.getElem?_eq_some_iff.1 hn'
    have hkey : config.names[n].owner ≠ 0 := howner ▸ beq_eq_false_iff_ne.1 hnull
    have hkey' : config.names[n'].owner ≠ 0 := howner' ▸ beq_eq_false_iff_ne.1 hnull'
    have hpairwise := List.pairwise_iff_getElem.1 hdistinct
    rcases Nat.lt_trichotomy n n' with hnn | rfl | hnn
    · exact absurd heq (hpairwise n n' hlt hlt' hnn hkey hkey')
    · rw [hid, hid']
    · exact absurd heq.symm (hpairwise n' n hlt' hlt hnn hkey' hkey)

theorem keyOf_account {name : NameConfig} {n : ℕ} (hn : config.names[n]? = some name)
    (h : account config name (n + 1) = .ok r) : KeyOf config r := by
  simp only [account, bind_eq_ok, pure_eq_ok] at h
  obtain ⟨r₁, hr₁, rfl⟩ := h
  obtain rfl := EvaluationState.setActiveKey_eq_ok hr₁
  split
  · rename_i hrate
    exact ⟨n, name, hn, rfl, rfl, rfl, rfl, rfl, rfl, fun _ => hrate⟩
  · exact ⟨n, name, hn, rfl, rfl, rfl, .refl _⟩

theorem OwnedIn.storeKey (hdistinct : config.DistinctKeys crypto)
    (h : OwnedIn crypto (Keyed config) ledger) (hr : KeyOf config r) :
    OwnedIn crypto (Keyed config) (ledger.storeAccountRecord crypto r) :=
  h.store (keysApart_keyed hdistinct) fun hnull => ⟨rfl, hnull, hr⟩

/-- The loop over the names. -/
theorem addName_ownedIn (hdistinct : config.DistinctKeys crypto)
    {state state' : Ledger × Table ℤ AccountRecord} {name : NameConfig} {n : ℕ}
    (hn : config.names[n]? = some name) (hledger : OwnedIn crypto (Keyed config) state.1)
    (hdelegates : ∀ (id : ℤ) r, state.2[id]? = some r → KeyOf config r)
    (h : addName crypto config state (name, n) = .ok state') :
    OwnedIn crypto (Keyed config) state'.1 ∧
      ∀ (id : ℤ) r, state'.2[id]? = some r → KeyOf config r := by
  simp only [addName, bind_eq_ok, pure_eq_ok] at h
  obtain ⟨r, hr, rfl⟩ := h
  have hof := keyOf_account hn hr
  split
  · refine ⟨hledger, fun id r' hr' => ?_⟩
    rw [Table.getElem?_insert] at hr'
    split at hr'
    · cases hr'
      exact hof
    · exact hdelegates id r' hr'
  · exact ⟨OwnedIn.storeKey hdistinct hledger hof, hdelegates⟩

/-- Votes change no key. -/
theorem addVotes_keyOf {slate : List ℤ} {amount : ℤ} {delegates delegates' : Table ℤ AccountRecord}
    (hdelegates : ∀ (id : ℤ) r, delegates[id]? = some r → KeyOf config r)
    (h : addVotes slate amount delegates = .ok delegates') (id : ℤ) (r : AccountRecord)
    (hr : delegates'[id]? = some r) : KeyOf config r := by
  refine foldlM_induction
    (P := fun t : Table ℤ AccountRecord => ∀ (id : ℤ) r, t[id]? = some r → KeyOf config r)
    (fun t d t' _ ht hstep id r hr => ?_) hdelegates h id r hr
  simp only [bind_eq_ok, AccountRecord.adjustVotesFor, orThrow_eq_ok, pure_eq_ok] at hstep
  obtain ⟨r', ⟨info, hinfo, rfl⟩, rfl⟩ := hstep
  rw [Table.getElem?_insert] at hr
  split at hr
  · cases hr
    cases hd : t[d]? with
    | none =>
      rw [hd] at hinfo
      cases hinfo
    | some old =>
      rw [hd] at hinfo
      obtain ⟨n, name, hn, hid, howner, hkeys, hterms⟩ := ht d old hd
      have hstats : old.stats = info := congrArg (fun i => i.getD {}) hinfo
      exact ⟨n, name, hn, hid, howner, hkeys,
        (hstats ▸ hterms).trans ⟨rfl, rfl, rfl, fun hrate => hrate⟩⟩
  · exact ht id r hr

/-- The loop over the balances stores no account. -/
theorem addBalance_ownedIn {chainId : Digest} {ids : List ℤ} {total : ℕ} {s s' : BalanceState}
    {item : PtsAddress × ℕ} (hledger : OwnedIn crypto (Keyed config) s.ledger)
    (hdelegates : ∀ (id : ℤ) r, s.delegates[id]? = some r → KeyOf config r)
    (h : addBalance crypto config chainId ids total s item = .ok s') :
    OwnedIn crypto (Keyed config) s'.ledger ∧
      ∀ (id : ℤ) r, s'.delegates[id]? = some r → KeyOf config r := by
  simp only [addBalance, bind_eq_ok, pure_eq_ok] at h
  obtain ⟨shares, -, slate, -, delegates, hvotes, rfl⟩ := h
  rw [(balanceRecord_accounts s chainId ids item.1 shares).2] at hvotes
  refine ⟨hledger.congr ?_ ?_, addVotes_keyOf hdelegates hvotes⟩ <;>
  · unfold balanceRecord storeSlate
    split
    · rfl
    · dsimp only
      split <;> rfl

/-- The accounts, the slates and the balances. -/
theorem fundedLedger_ownedIn (hdistinct : config.DistinctKeys crypto)
    (h : fundedLedger crypto config = .ok ledger) : OwnedIn crypto (Keyed config) ledger := by
  simp only [fundedLedger, bind_eq_ok, require_eq_ok, pure_eq_ok] at h
  obtain ⟨-, -, named, hnames, s, hbalances, rfl⟩ := h
  have hnone : ∀ id : ℤ, (∅ : Table ℤ AccountRecord)[id]? = none := Table.getElem?_empty'
  have hempty : OwnedIn crypto (Keyed config) (Ledger.setProperty
      { chainId := crypto.genesisDigest config } .chainId
        (.hash (crypto.genesisDigest config))) := by
    refine ⟨⟨fun id r hr => ?_, fun id r hr => ?_⟩, fun id r hr => ?_⟩ <;>
      cases (hnone id).symm.trans hr
  -- the account of "god" is null
  have hgod := hempty.store (r := { id := 0, name := "god".toList })
    (keysApart_keyed hdistinct) fun hnull => by cases hnull
  obtain ⟨hnamed, hcollected⟩ := foldlM_induction
    (P := fun state : Ledger × Table ℤ AccountRecord => OwnedIn crypto (Keyed config) state.1 ∧
      ∀ (id : ℤ) r, state.2[id]? = some r → KeyOf config r)
    (fun state entry _ hmem hstate hstep => addName_ownedIn hdistinct
      (List.mem_zipIdx_iff_getElem?.1 hmem) hstate.1 hstate.2 hstep)
    ⟨hgod, fun id r hr => by cases (hnone id).symm.trans hr⟩ hnames
  obtain ⟨hs, hdelegates⟩ := foldlM_induction
    (P := fun s : BalanceState => OwnedIn crypto (Keyed config) s.ledger ∧
      ∀ (id : ℤ) r, s.delegates[id]? = some r → KeyOf config r)
    (fun _ _ _ _ hs hstep => addBalance_ownedIn hs.1 hs.2 hstep)
    ⟨hnamed, hcollected⟩ hbalances
  exact Table.foldl_induction (P := OwnedIn crypto (Keyed config)) s.delegates
    (fun _ id r hr hledger => OwnedIn.storeKey hdistinct hledger (hdelegates id r hr)) hs

/-- The assets and the properties leave the accounts alone. -/
theorem withAssets_ownedIn (h : OwnedIn crypto (Keyed config) ledger) (supply : ℤ) :
    OwnedIn crypto (Keyed config) (withAssets config ledger supply) := by
  have hasset : ∀ (ledger : Ledger) (r : AssetRecord), OwnedIn crypto (Keyed config) ledger →
      OwnedIn crypto (Keyed config) (ledger.storeAssetRecord r) := by
    intro ledger r h
    unfold Ledger.storeAssetRecord
    split <;> exact h.congr rfl rfl
  have hassets : ∀ (l : List (AssetConfig × ℕ)) (ledger : Ledger),
      OwnedIn crypto (Keyed config) ledger → OwnedIn crypto (Keyed config) (l.foldl
        (fun ledger entry => ledger.storeAssetRecord
          (marketAsset config entry.1 (entry.2 + 1))) ledger) := by
    intro l
    induction l with
    | nil => exact fun _ h => h
    | cons e l ih => exact fun _ h => ih _ (hasset _ _ h)
  exact (hassets config.marketAssets.zipIdx _ (hasset _ (baseAsset config supply) h)).congr rfl rfl

end Genesis

/-! ### Runs -/

namespace Database

open LarkX.Action

variable {crypto : Crypto} {config : GenesisBlockConfig} {db db' : Database}

/-- At genesis the accounts are those of the configuration, found by their keys. -/
theorem initializeGenesis_ownedIn (hdistinct : config.DistinctKeys crypto)
    (h : initializeGenesis crypto config = .ok db) :
    OwnedIn crypto (Genesis.Keyed config) db.ledger := by
  simp only [initializeGenesis, Genesis.genesisLedger, bind_eq_ok, pure_eq_ok] at h
  obtain ⟨ledger, ⟨funded, hfunded, total, -, -, -, rfl⟩, rfl⟩ := h
  exact Genesis.withAssets_ownedIn (Genesis.fundedLedger_ownedIn hdistinct hfunded) total.amount

/-- Every visited database has followed a path along which the index of keys is right. -/
theorem Visited.keysAlong (hids : crypto.IdealIds) (hnames : config.DistinctNames)
    (hkeys : config.DistinctKeys crypto) (h : db.Visited crypto config) :
    ∃ g, initializeGenesis crypto config = .ok g ∧ g.ledger.Registered ∧ ∃ links,
      Tracks crypto (fun _ => True) (fun _ _ => True) g.ledger db links ∧
        KeysAlong crypto db links := by
  obtain ⟨db₀, wall, b, hreachable, hrange, hsteps⟩ := h
  obtain ⟨g, hg, links, htracks, halong⟩ := hreachable.runOf.along
    (J := fun db links => KeysAlong crypto db links) hids
    (fun g hg => ⟨(initializeGenesis_ownedIn hkeys hg).toKeysOwned, trivial⟩)
    (fun _ _ hJ => ⟨hJ.owned, hJ.kept⟩) fun g hg _ _ _ _ _ htracks hJ hmoves _ =>
      (hmoves.keysAlong htracks (initializeGenesis_registered hnames hg) hJ).1
  have hregistered := initializeGenesis_registered hnames hg
  refine ⟨g, hg, hregistered, ?_⟩
  induction hsteps with
  | refl => exact ⟨links, htracks, halong⟩
  | tail _ hlast ih =>
    obtain ⟨ev, hlast, hK⟩ := hlast
    obtain ⟨links', htracks', halong'⟩ := ih
    obtain ⟨links'', hmoves, htracks''⟩ := htracks'.step hids trivial hrange hlast hK
    exact ⟨links'', htracks'', (hmoves.keysAlong htracks' hregistered halong').1⟩

/-- **Every account is found by every key it ever had**, in every state of a chain whose genesis has
distinct names and keys. So no two accounts share a key, and the delegate of a slot is the one its
signature is credited to. -/
theorem Visited.keysOwned (hids : crypto.IdealIds) (hnames : config.DistinctNames)
    (hkeys : config.DistinctKeys crypto) (h : db.Visited crypto config) (wall : ℕ) :
    (∀ (id : ℤ) (r : AccountRecord), db.ledger.accounts[id]? = some r → ∀ key ∈ r.activeKeys,
      (db.chain wall).getAccountRecordByAddress (crypto.keyAddress key) = some r) ∧
    ∀ timestamp orderedDelegates r,
      (db.chain wall).getSlotSignee timestamp orderedDelegates = .ok r →
        (db.chain wall).getDelegateRecordForSignee crypto r.activeKey = .ok r := by
  obtain ⟨g, hg, -, links, htracks, hkeys⟩ := h.keysAlong hids hnames hkeys
  exact ⟨fun id r hr key hkey => hkeys.owned.found hr hkey _ _,
    fun timestamp orderedDelegates r hr => hkeys.owned.signee hr _ _⟩

set_option maxRecDepth 100000 in
/-- The small chain after one block: the delegate of the next slot is found by its key. -/
theorem keysOwned_smallFirst :
    ∃ active r, (smallFirst.chain 100).getSlotSignee 30 active = .ok r ∧
      (smallFirst.chain 100).getDelegateRecordForSignee .transparent r.activeKey = .ok r := by
  have hreachable : Reachable .transparent smallConfig smallFirst :=
    reachable_smallGenesis.pushed (by decide +kernel) (by decide +kernel)
  obtain ⟨-, hsignee⟩ := Visited.keysOwned idealIds_transparent (by decide +kernel)
    (by decide +kernel) hreachable.visited 100
  have hslot : Except.isOk ((smallFirst.chain 100).getActiveDelegates.bind
      ((smallFirst.chain 100).getSlotSignee 30)) = true := by decide +kernel
  obtain ⟨r, hr⟩ := exists_eq_ok hslot
  obtain ⟨active, -, hr⟩ := bind_eq_ok.1 hr
  exact ⟨active, r, hr, hsignee 30 active r hr⟩

/-- The small chain after two blocks. -/
def smallSecond : Database :=
  smallFirst.pushed .transparent 100 (smallFirst.blockOn 2 30 [])

end Database

end LarkX
