import LarkX.Wallet.KeyStore
import Mathlib.Data.List.Nodup
import Mathlib.Data.List.TakeWhile

/-!
# Changing the password

A key that does not open under the old password ends the loop, and what is written already stays
under the new one: the master key, and the keys that come before. So changing the password is all or
nothing exactly if all keys open, or nothing is written, or the old password opens what is written
with the new one (`allOrNothing_iff`).
-/

namespace LarkX

open WalletDb

variable {c : WalletCrypto} {s s' : WalletDb} {password old new : Password}

/-! ### Opening what has been sealed -/

theorem MasterKeyRecord.decryptKey_eq_ok {r : MasterKeyRecord} {key : ExtendedPrivateKey} :
    r.decryptKey c password = .ok key ↔ password ≠ 0 ∧ 0 < r.encryptedKey.length ∧
      c.masterKeys.decrypt password r.encryptedKey = some key := by
  simp only [decryptKey, bind_eq_ok, require_eq_ok, orThrow_eq_ok, exists_const]

/-- Under a password, what another one has encrypted opens to what it was or it does not. -/
theorem MasterKeyRecord.decryptKey_of_encrypt {r : MasterKeyRecord} {key : ExtendedPrivateKey}
    (hr : r.encryptedKey = c.masterKeys.encrypt new key) (hpassword : password ≠ 0) :
    r.decryptKey c password = .ok key ↔
      c.masterKeys.decrypt password (c.masterKeys.encrypt new key) = some key := by
  have hlength := List.length_pos_of_ne_nil (c.masterKeys.encrypt_ne_nil new key)
  rw [decryptKey_eq_ok, hr]
  exact ⟨fun h => h.2.2, fun h => ⟨hpassword, hlength, h⟩⟩

/-- A master key is encrypted with every password that is not empty. -/
theorem encryptKey_eq_ok {index : RecordIndex} {key : ExtendedPrivateKey} {r : MasterKeyRecord} :
    encryptKey c index password key = .ok r ↔ password ≠ 0 ∧
      r = ⟨index, c.masterKeys.encrypt password key, c.passwordHash password⟩ := by
  have hlength := List.length_pos_of_ne_nil (c.masterKeys.encrypt_ne_nil password key)
  have hdecrypt := c.masterKeys.decrypt_encrypt password key
  simp only [encryptKey, bind_eq_ok, require_eq_ok, pure_eq_ok, exists_const]
  constructor
  · rintro ⟨hpassword, -, -, rfl⟩
    exact ⟨hpassword, rfl⟩
  · rintro ⟨hpassword, rfl⟩
    exact ⟨hpassword, key, MasterKeyRecord.decryptKey_eq_ok.2 ⟨hpassword, hlength, hdecrypt⟩, rfl⟩

namespace KeyRecord

variable {r : KeyRecord} {key : PrivateKey}

theorem decryptPrivateKey_eq_ok :
    r.decryptPrivateKey c password = .ok key ↔ password ≠ 0 ∧
      c.privateKeys.decrypt password r.encryptedPrivateKey = some key := by
  simp only [decryptPrivateKey, bind_eq_ok, require_eq_ok, orThrow_eq_ok, exists_const]

theorem decryptPrivateKey_sealed (h : password ≠ 0) :
    (r.sealed c new key).decryptPrivateKey c password = .ok key ↔
      c.privateKeys.decrypt password (c.privateKeys.encrypt new key) = some key := by
  rw [decryptPrivateKey_eq_ok]
  exact and_iff_right h

theorem encryptPrivateKey_eq_ok (h : password ≠ 0) :
    r.encryptPrivateKey c password key = .ok (r.sealed c password key) := by
  have hdecrypt : (r.sealed c password key).decryptPrivateKey c password = .ok key :=
    decryptPrivateKey_eq_ok.2 ⟨h, c.privateKeys.decrypt_encrypt password key⟩
  simp only [encryptPrivateKey, bind_eq_ok, require_eq_ok, pure_eq_ok, exists_const]
  exact ⟨h, key, hdecrypt, rfl, trivial⟩

end KeyRecord

/-- The private key opens under the password. -/
def Opens (c : WalletCrypto) (password : Password) (e : Address × KeyRecord) : Bool :=
  (e.2.decryptPrivateKey c password).isOk

/-! ### The loop -/

/-- The database after a key is encrypted again. -/
def resealKey (c : WalletCrypto) (old new : Password) (s : WalletDb) (e : Address × KeyRecord) :
    WalletDb :=
  match e.2.decryptPrivateKey c old with
  | .ok key =>
    let r := e.2.sealed c new key
    { s with
      records := { s.records with entries := s.records.entries.insert r.index.1 (.key r) }
      keys := s.keys.insert (c.keyAddress r.publicKey) r }
  | .error _ => s

/-- The keys that the loop encrypts again: those before the first that does not open. -/
def resealed (c : WalletCrypto) (old : Password) (l : List (Address × KeyRecord)) :
    List (Address × KeyRecord) :=
  (l.filter fun e => e.2.hasPrivateKey).takeWhile (Opens c old)

theorem storeRecord_run (h : s.records.isOpen = true) {index : RecordIndex}
    {record : GenericRecord} :
    (storeRecord c index record).run s = (loadGenericRecord c record).run { s with
      records := { s.records with entries := s.records.entries.insert index.1 record } } := by
  have hopen : require (s.records.isOpen = true) (WalletError.assertion "_records.is_open()") =
    .ok () := require_eq_ok.2 h
  rw [storeRecord, run_get_bind, hopen, LevelMap.store_of_open h]
  rfl

/-- **The loop** encrypts keys again up to the first that does not open. -/
theorem changeKeys_run (hopen : s.records.isOpen = true) (hnew : new ≠ 0)
    (l : List (Address × KeyRecord)) :
    Outcome (l.forM (changeKey c old new)) s
      (fun _ s' => (∀ e ∈ l, e.2.hasPrivateKey = true → Opens c old e = true) ∧
        s' = (resealed c old l).foldl (resealKey c old new) s)
      (fun _ s' => (∃ e ∈ l, e.2.hasPrivateKey = true ∧ Opens c old e = false) ∧
        s' = (resealed c old l).foldl (resealKey c old new) s) := by
  induction l generalizing s with
  | nil => exact ⟨fun _ he => (List.not_mem_nil he).elim, rfl⟩
  | cons e l ih =>
    change Outcome (changeKey c old new e >>= fun _ => l.forM (changeKey c old new)) s _ _
    by_cases hprivate : e.2.hasPrivateKey = true
    · cases hkey : e.2.decryptPrivateKey c old with
      | error error =>
        have hclosed : Opens c old e = false := by rw [Opens, hkey]; rfl
        have hrun : (changeKey c old new e).run s = .error error s := by
          rw [changeKey, if_pos hprivate, hkey]
          rfl
        have hnone : resealed c old (e :: l) = [] := by
          rw [resealed, List.filter_cons, if_pos hprivate, List.takeWhile_cons, hclosed]
          rfl
        rw [hnone]
        refine .intro (fun _ _ h => ?_) fun _ _ h => ?_
        · cases h.symm.trans (run_bind_error hrun)
        · cases h.symm.trans (run_bind_error hrun)
          exact ⟨⟨e, List.mem_cons_self, hprivate, hclosed⟩, rfl⟩
      | ok key =>
        have hopens : Opens c old e = true := by rw [Opens, hkey]; rfl
        have hrun : (changeKey c old new e).run s = .ok () (resealKey c old new s e) := by
          rw [changeKey, if_pos hprivate, hkey]
          change (do
            let keyRecord ← ofExcept (e.2.encryptPrivateKey c new key)
            storeRecord c keyRecord.index (.key keyRecord) : WalletM Unit).run s = _
          rw [KeyRecord.encryptPrivateKey_eq_ok hnew]
          refine (storeRecord_run hopen).trans ?_
          rw [resealKey, hkey]
          rfl
        have hcons : resealed c old (e :: l) = e :: resealed c old l := by
          rw [resealed, List.filter_cons, if_pos hprivate, List.takeWhile_cons, hopens]
          rfl
        have hopen' : (resealKey c old new s e).records.isOpen = true := by
          rw [resealKey, hkey]
          exact hopen
        rw [hcons, List.foldl_cons, Outcome.bind_of_run hrun]
        refine (ih hopen').mono (fun _ s' h => ⟨fun e' he' hprivate' => ?_, h.2⟩) fun _ s' h => ?_
        · rcases List.mem_cons.1 he' with rfl | he'
          · exact hopens
          · exact h.1 e' he' hprivate'
        · obtain ⟨⟨e', he', hclosed⟩, hs'⟩ := h
          exact ⟨⟨e', List.mem_cons_of_mem _ he', hclosed⟩, hs'⟩
    · have hrun : (changeKey c old new e).run s = .ok () s := by
        rw [changeKey, if_neg hprivate]
        rfl
      have hskip : resealed c old (e :: l) = resealed c old l := by
        rw [resealed, List.filter_cons, if_neg hprivate, resealed]
      rw [hskip, Outcome.bind_of_run hrun]
      refine (ih hopen).mono (fun _ s' h => ⟨fun e' he' hprivate' => ?_, h.2⟩) fun _ s' h => ?_
      · rcases List.mem_cons.1 he' with rfl | he'
        · exact absurd hprivate' hprivate
        · exact h.1 e' he' hprivate'
      · obtain ⟨⟨e', he', hclosed⟩, hs'⟩ := h
        exact ⟨⟨e', List.mem_cons_of_mem _ he', hclosed⟩, hs'⟩

/-! ### What the loop leaves -/

/-- Every key that is encrypted again is under its address and its index, and everything else is as
it was. -/
theorem foldl_resealKey {l : List (Address × KeyRecord)} (hnodup : (l.map Prod.fst).Nodup)
    (hindex : (l.map fun e => e.2.index.1).Nodup)
    (hl : ∀ e ∈ l, ∃ key, e.2.decryptPrivateKey c old = .ok key ∧
      c.keyAddress (c.publicKey key) = e.1) :
    (l.foldl (resealKey c old new) s).masterKey = s.masterKey ∧
      (∀ a ∉ l.map Prod.fst, (l.foldl (resealKey c old new) s).keys[a]? = s.keys[a]?) ∧
      (∀ i ∉ l.map fun e => e.2.index.1,
        (l.foldl (resealKey c old new) s).records.entries[i]? = s.records.entries[i]?) ∧
      ∀ e ∈ l, ∀ key, e.2.decryptPrivateKey c old = .ok key →
        (l.foldl (resealKey c old new) s).keys[e.1]? = some (e.2.sealed c new key) ∧
        (l.foldl (resealKey c old new) s).records.entries[e.2.index.1]? =
          some (.key (e.2.sealed c new key)) := by
  induction l generalizing s with
  | nil => exact ⟨rfl, fun _ _ => rfl, fun _ _ => rfl, fun _ he => (List.not_mem_nil he).elim⟩
  | cons e l ih =>
    rw [List.map_cons, List.nodup_cons] at hnodup hindex
    obtain ⟨key, hkey, haddress⟩ := hl e List.mem_cons_self
    have hreseal : resealKey c old new s e = { s with
        records := { s.records with
          entries := s.records.entries.insert e.2.index.1 (.key (e.2.sealed c new key)) }
        keys := s.keys.insert e.1 (e.2.sealed c new key) } := by
      rw [resealKey, hkey, ← haddress]
      rfl
    obtain ⟨hmaster, hkeys, hentries, hall⟩ := ih (s := resealKey c old new s e) hnodup.2 hindex.2
      fun e' he' => hl e' (List.mem_cons_of_mem _ he')
    rw [List.foldl_cons]
    refine ⟨?_, fun a ha => ?_, fun i hi => ?_, fun e' he' key' hkey' => ?_⟩
    · rw [hmaster, hreseal]
    · rw [List.map_cons, List.mem_cons, not_or] at ha
      rw [hkeys a ha.2, hreseal]
      exact Table.getElem?_insert_of_ne _ _ ha.1
    · rw [List.map_cons, List.mem_cons, not_or] at hi
      rw [hentries i hi.2, hreseal]
      exact Table.getElem?_insert_of_ne _ _ hi.1
    · rcases List.mem_cons.1 he' with rfl | he'
      · cases hkey.symm.trans hkey'
        rw [hkeys _ hnodup.1, hentries _ hindex.1, hreseal]
        exact ⟨Table.getElem?_insert_same .., Table.getElem?_insert_same ..⟩
      · exact hall e' he' key' hkey'

/-! ### All or nothing -/

/-- The master key and all private keys, in memory and in the LevelDB, open under `password` to what
they opened to under `old`. -/
structure SameUnder (c : WalletCrypto) (old password : Password) (s s' : WalletDb) : Prop where
  masterKey : ∀ r, s.masterKey = some r →
    (∃ r', s'.masterKey = some r' ∧ r'.decryptKey c password = r.decryptKey c old) ∧
    ∃ r', s'.records.entries[(-1 : ℤ)]? = some (.masterKey r') ∧
      r'.decryptKey c password = r.decryptKey c old
  keys : ∀ (a : Address) (r : KeyRecord), s.keys[a]? = some r → r.hasPrivateKey = true →
    (∃ r', s'.keys[a]? = some r' ∧ r'.decryptPrivateKey c password = r.decryptPrivateKey c old) ∧
    ∃ r', s'.records.entries[r.index.1]? = some (.key r') ∧
      r'.decryptPrivateKey c password = r.decryptPrivateKey c old

/-- The master key and all private keys open under a password. -/
structure AllOpen (c : WalletCrypto) (password : Password) (s : WalletDb) : Prop where
  masterKey : ∃ r, s.masterKey = some r ∧ (r.decryptKey c password).isOk = true
  keys : ∀ (a : Address) (r : KeyRecord), s.keys[a]? = some r → r.hasPrivateKey = true →
    (r.decryptPrivateKey c password).isOk = true

/-- **Changing the password is all or nothing.** -/
def AllOrNothing (w : OpenWallet c) (old new : Password) : Prop :=
  Outcome (changePassword c w.keyOrder old new) w.toWalletDb
    (fun _ s' => AllOpen c old w.toWalletDb ∧ SameUnder c old new w.toWalletDb s')
    (fun _ s' => SameUnder c old old w.toWalletDb s')

/-- Where something is written, all private keys open under the old password; or else the old
password opens what is written with the new one. -/
def Changeable (w : OpenWallet c) (old new : Password) : Prop :=
  ∀ r key, w.masterKey = some r → r.decryptKey c old = .ok key → new ≠ 0 →
    (∀ e ∈ w.keyOrder, e.2.hasPrivateKey = true → Opens c old e = true) ∨
    (c.masterKeys.decrypt old (c.masterKeys.encrypt new key) = some key ∧
      ∀ e ∈ resealed c old w.keyOrder, ∀ key, e.2.decryptPrivateKey c old = .ok key →
        c.privateKeys.decrypt old (c.privateKeys.encrypt new key) = some key)

namespace OpenWallet

variable (w : OpenWallet c)

theorem mem_keyOrder {a : Address} {r : KeyRecord} : (a, r) ∈ w.keyOrder ↔ w.keys[a]? = some r :=
  w.keyOrder_perm.mem_iff.trans Table.mem_toList

theorem nodup_addresses : (w.keyOrder.map Prod.fst).Nodup :=
  (w.keyOrder_perm.map _).nodup_iff.2 (Table.nodup_toList_keys _)

/-- No two keys have one index. -/
theorem nodup_indices : (w.keyOrder.map fun e => e.2.index.1).Nodup := by
  refine List.Nodup.map_on (fun e he e' he' heq => ?_) (w.nodup_addresses.of_map _)
  have hkey := w.mem_keyOrder.1 he
  have hkey' := w.mem_keyOrder.1 he'
  have hstored := w.key_stored _ _ hkey
  rw [heq, w.key_stored _ _ hkey'] at hstored
  have hrecord : e'.2 = e.2 := GenericRecord.key.inj (Option.some.inj hstored)
  refine Prod.ext ?_ hrecord.symm
  rw [← w.address _ _ hkey, ← w.address _ _ hkey', hrecord]

/-- A wallet that is not written to is as it was. -/
theorem sameUnder_refl (password : Password) :
    SameUnder c password password w.toWalletDb w.toWalletDb where
  masterKey r hr := ⟨⟨r, hr, rfl⟩, r, (w.masterKey_stored r).1 hr, rfl⟩
  keys a r hr _ := ⟨⟨r, hr, rfl⟩, r, w.key_stored a r hr, rfl⟩

end OpenWallet

theorem resealed_subset {l : List (Address × KeyRecord)} {e : Address × KeyRecord}
    (he : e ∈ resealed c old l) :
    e ∈ l ∧ e.2.hasPrivateKey = true ∧ ∃ key, e.2.decryptPrivateKey c old = .ok key := by
  have hmem := (List.takeWhile_sublist _).subset he
  rw [List.mem_filter] at hmem
  have hopens : Opens c old e = true := List.mem_takeWhile_imp he
  exact ⟨hmem.1, hmem.2, exists_eq_ok hopens⟩

/-- All private keys are encrypted again when all open. -/
theorem resealed_eq {l : List (Address × KeyRecord)}
    (h : ∀ e ∈ l, e.2.hasPrivateKey = true → Opens c old e = true) :
    resealed c old l = l.filter fun e => e.2.hasPrivateKey := by
  rw [resealed, List.takeWhile_eq_self_iff]
  intro e he
  rw [List.mem_filter] at he
  exact h e he.1 he.2

/-- The database when the new master key is stored. -/
def withMasterKey (c : WalletCrypto) (s : WalletDb) (new : Password) (key : ExtendedPrivateKey) :
    WalletDb :=
  let r : MasterKeyRecord :=
    ⟨masterKeyIndex, c.masterKeys.encrypt new key, c.passwordHash new⟩
  { s with
    records := { s.records with entries := s.records.entries.insert (-1) (.masterKey r) }
    masterKey := some r }

/-- **What the loop leaves** of an open wallet. -/
theorem changed_spec (w : OpenWallet c) {r : MasterKeyRecord} {masterKey : ExtendedPrivateKey}
    (hmaster : w.masterKey = some r)
    (hs' : s' = (resealed c old w.keyOrder).foldl (resealKey c old new)
      (withMasterKey c w.toWalletDb new masterKey)) :
    (∃ r' : MasterKeyRecord, r'.encryptedKey = c.masterKeys.encrypt new masterKey ∧
      s'.masterKey = some r' ∧ s'.records.entries[(-1 : ℤ)]? = some (.masterKey r')) ∧
    ∀ e ∈ w.keyOrder,
      (e ∈ resealed c old w.keyOrder → ∀ key, e.2.decryptPrivateKey c old = .ok key →
        s'.keys[e.1]? = some (e.2.sealed c new key) ∧
        s'.records.entries[e.2.index.1]? = some (.key (e.2.sealed c new key))) ∧
      (e ∉ resealed c old w.keyOrder →
        s'.keys[e.1]? = some e.2 ∧ s'.records.entries[e.2.index.1]? = some (.key e.2)) := by
  have hsub : (resealed c old w.keyOrder).Sublist w.keyOrder :=
    (List.takeWhile_sublist _).trans List.filter_sublist
  have hopened : ∀ e ∈ resealed c old w.keyOrder, ∃ key, e.2.decryptPrivateKey c old = .ok key ∧
      c.keyAddress (c.publicKey key) = e.1 := by
    intro e he
    obtain ⟨hmem, -, key, hkey⟩ := resealed_subset he
    have hrecord := w.mem_keyOrder.1 hmem
    have hown := w.own _ _ hrecord old key (KeyRecord.decryptPrivateKey_eq_ok.1 hkey).2
    exact ⟨key, hkey, by rw [hown, w.address _ _ hrecord]⟩
  have hindex : ∀ e ∈ w.keyOrder, e.2.index.1 ≠ -1 := by
    intro e he heq
    have hstored := w.key_stored _ _ (w.mem_keyOrder.1 he)
    rw [heq, (w.masterKey_stored r).1 hmaster] at hstored
    cases hstored
  have hnodup := w.nodup_addresses
  have hindices := w.nodup_indices
  have hleft := @foldl_resealKey c (withMasterKey c w.toWalletDb new masterKey) old new _
    ((hsub.map _).nodup hnodup) ((hsub.map _).nodup hindices) hopened
  rw [← hs'] at hleft
  obtain ⟨hkept, hkeys, hentries, hall⟩ := hleft
  refine ⟨⟨_, rfl, hkept, ?_⟩, fun e he => ⟨fun hin => hall e hin, fun hout => ?_⟩⟩
  · rw [hentries (-1) fun hmem => ?_]
    · exact Table.getElem?_insert_same ..
    · obtain ⟨e, he, heq⟩ := List.mem_map.1 hmem
      exact hindex e (hsub.subset he) heq
  · have hother : ∀ e' ∈ resealed c old w.keyOrder, e' ≠ e := fun e' he' heq => hout (heq ▸ he')
    have haddress : e.1 ∉ (resealed c old w.keyOrder).map Prod.fst := fun hmem => by
      obtain ⟨e', he', heq⟩ := List.mem_map.1 hmem
      exact hother e' he' (List.inj_on_of_nodup_map hnodup (hsub.subset he') he heq)
    have hplace : e.2.index.1 ∉ (resealed c old w.keyOrder).map fun e => e.2.index.1 := by
      intro hmem
      obtain ⟨e', he', heq⟩ := List.mem_map.1 hmem
      exact hother e' he' (List.inj_on_of_nodup_map hindices (hsub.subset he') he heq)
    have hrecord := w.mem_keyOrder.1 he
    rw [hkeys _ haddress, hentries _ hplace]
    refine ⟨hrecord, (Table.getElem?_insert_of_ne _ _ (hindex e he)).trans ?_⟩
    exact w.key_stored _ _ hrecord

/-- After the loop all is as it was under a password exactly if the password opens what is
encrypted again, and what is not as the old one does. -/
theorem sameUnder_iff (w : OpenWallet c) {r : MasterKeyRecord} {masterKey : ExtendedPrivateKey}
    (hmaster : w.masterKey = some r) (hkey : r.decryptKey c old = .ok masterKey)
    (hpassword : password ≠ 0)
    (hs' : s' = (resealed c old w.keyOrder).foldl (resealKey c old new)
      (withMasterKey c w.toWalletDb new masterKey)) :
    SameUnder c old password w.toWalletDb s' ↔
      c.masterKeys.decrypt password (c.masterKeys.encrypt new masterKey) = some masterKey ∧
      (∀ e ∈ resealed c old w.keyOrder, ∀ key, e.2.decryptPrivateKey c old = .ok key →
        c.privateKeys.decrypt password (c.privateKeys.encrypt new key) = some key) ∧
      ∀ e ∈ w.keyOrder, e.2.hasPrivateKey = true → e ∉ resealed c old w.keyOrder →
        e.2.decryptPrivateKey c password = e.2.decryptPrivateKey c old := by
  obtain ⟨⟨r', hr', hmaster', hstored'⟩, hkeys⟩ := changed_spec w hmaster hs'
  have hopen := MasterKeyRecord.decryptKey_of_encrypt hr' hpassword
  constructor
  · intro hsame
    refine ⟨?_, fun e he key hk => ?_, fun e he hprivate hout => ?_⟩
    · obtain ⟨⟨r₁, hr₁, heq⟩, -⟩ := hsame.masterKey r hmaster
      cases hmaster'.symm.trans hr₁
      exact hopen.1 (heq.trans hkey)
    · obtain ⟨hmem, hprivate, -⟩ := resealed_subset he
      obtain ⟨⟨r₁, hr₁, heq⟩, -⟩ := hsame.keys _ _ (w.mem_keyOrder.1 hmem) hprivate
      cases (((hkeys e hmem).1 he key hk).1).symm.trans hr₁
      exact (KeyRecord.decryptPrivateKey_sealed hpassword).1 (heq.trans hk)
    · obtain ⟨⟨r₁, hr₁, heq⟩, -⟩ := hsame.keys _ _ (w.mem_keyOrder.1 he) hprivate
      cases (((hkeys e he).2 hout).1).symm.trans hr₁
      exact heq
  · rintro ⟨hopens, hsealed, hout⟩
    refine ⟨fun r₁ hr₁ => ?_, fun a r₁ hr₁ hprivate => ?_⟩
    · cases hmaster.symm.trans hr₁
      rw [hkey]
      exact ⟨⟨r', hmaster', hopen.2 hopens⟩, r', hstored', hopen.2 hopens⟩
    · have hmem := w.mem_keyOrder.2 hr₁
      by_cases hin : (a, r₁) ∈ resealed c old w.keyOrder
      · obtain ⟨-, -, key, hk⟩ := resealed_subset hin
        obtain ⟨hmemory, hdisk⟩ := (hkeys _ hmem).1 hin key hk
        have heq : (r₁.sealed c new key).decryptPrivateKey c password = .ok key :=
          (KeyRecord.decryptPrivateKey_sealed hpassword).2 (hsealed _ hin key hk)
        rw [hk]
        exact ⟨⟨_, hmemory, heq⟩, _, hdisk, heq⟩
      · obtain ⟨hmemory, hdisk⟩ := (hkeys _ hmem).2 hin
        exact ⟨⟨_, hmemory, hout _ hmem hprivate hin⟩, _, hdisk, hout _ hmem hprivate hin⟩

theorem setMasterKey_run (hopen : s.records.isOpen = true) (hnew : new ≠ 0)
    (key : ExtendedPrivateKey) :
    (setMasterKey c key new).run s = .ok () (withMasterKey c s new key) := by
  unfold setMasterKey
  rw [encryptKey_eq_ok.2 ⟨hnew, rfl⟩]
  exact storeRecord_run hopen

/-- Without a new password nothing is written. -/
theorem setMasterKey_run_zero (key : ExtendedPrivateKey) :
    (setMasterKey c key 0).run s = .error (.assertion "password != fc::sha512()") s :=
  rfl

/-- Where something is written, the change is all or nothing exactly if all private keys open or the
old password opens what is written. -/
theorem allOrNothing_iff_of_opens (w : OpenWallet c) {r : MasterKeyRecord}
    {masterKey : ExtendedPrivateKey} (hmaster : w.masterKey = some r)
    (hkey : r.decryptKey c old = .ok masterKey) (hnew : new ≠ 0) :
    AllOrNothing w old new ↔
      (∀ e ∈ w.keyOrder, e.2.hasPrivateKey = true → Opens c old e = true) ∨
      (c.masterKeys.decrypt old (c.masterKeys.encrypt new masterKey) = some masterKey ∧
        ∀ e ∈ resealed c old w.keyOrder, ∀ key, e.2.decryptPrivateKey c old = .ok key →
          c.privateKeys.decrypt old (c.privateKeys.encrypt new key) = some key) := by
  have hold := (MasterKeyRecord.decryptKey_eq_ok.1 hkey).1
  have hopen : (withMasterKey c w.toWalletDb new masterKey).records.isOpen = true := w.isOpen
  have hloop := @changeKeys_run c _ old new hopen hnew w.keyOrder
  unfold AllOrNothing changePassword
  rw [Outcome.bind_iff, Outcome.get_iff, Outcome.bind_iff, hmaster]
  change Outcome (ofExcept (r.decryptKey c old) >>= _) _ _ _ ↔ _
  rw [Outcome.bind_iff, hkey]
  change Outcome (setMasterKey c masterKey new >>= _) _ _ _ ↔ _
  rw [Outcome.bind_of_run (setMasterKey_run w.isOpen hnew masterKey)]
  by_cases hall : ∀ e ∈ w.keyOrder, e.2.hasPrivateKey = true → Opens c old e = true
  · refine iff_of_true ?_ (.inl hall)
    refine hloop.mono (fun _ s' h => ⟨?_, ?_⟩) fun _ s' h => ?_
    · exact ⟨⟨r, hmaster, by rw [hkey]; rfl⟩, fun a r' hr' => hall _ (w.mem_keyOrder.2 hr')⟩
    · refine (sameUnder_iff w hmaster hkey hnew h.2).2
        ⟨c.masterKeys.decrypt_encrypt new masterKey,
          fun _ _ key _ => c.privateKeys.decrypt_encrypt new key, fun e he hprivate hout => ?_⟩
      rw [resealed_eq hall] at hout
      exact absurd (List.mem_filter.2 ⟨he, hprivate⟩) hout
    · obtain ⟨⟨e, he, hprivate, hclosed⟩, -⟩ := h
      exact absurd ((hall e he hprivate).symm.trans hclosed) Bool.noConfusion
  · rw [or_iff_right hall]
    constructor
    · intro h
      cases hrun : (w.keyOrder.forM (changeKey c old new)).run
          (withMasterKey c w.toWalletDb new masterKey) with
      | ok _ s' => exact absurd (hloop.of_ok hrun).1 hall
      | error e s' =>
        have hsame := sameUnder_iff w hmaster hkey hold (hloop.of_error hrun).2
        obtain ⟨hopens, hsealed, -⟩ := hsame.1 (h.of_error hrun)
        exact ⟨hopens, hsealed⟩
    · rintro ⟨hopens, hsealed⟩
      refine hloop.mono (fun _ s' h => absurd h.1 hall) fun _ s' h => ?_
      exact (sameUnder_iff w hmaster hkey hold h.2).2 ⟨hopens, hsealed, fun _ _ _ _ => rfl⟩

/-- Where the master key does not open, or there is no new password, nothing is written. -/
theorem allOrNothing_of_unwritten (w : OpenWallet c)
    (h : ∀ r masterKey, w.masterKey = some r → r.decryptKey c old = .ok masterKey → new = 0) :
    AllOrNothing w old new := by
  have hrefl := w.sameUnder_refl old
  unfold AllOrNothing changePassword
  rw [Outcome.bind_iff, Outcome.get_iff, Outcome.bind_iff]
  cases hmaster : w.masterKey with
  | none => exact hrefl
  | some r =>
    change Outcome (ofExcept (r.decryptKey c old) >>= _) _ _ _
    cases hkey : r.decryptKey c old with
    | error e =>
      rw [Outcome.bind_iff]
      exact hrefl
    | ok masterKey =>
      have hrun : (ofExcept (.ok masterKey : Except WalletError _)).run w.toWalletDb =
        .ok masterKey w.toWalletDb := rfl
      cases h r masterKey hmaster hkey
      rw [Outcome.bind_of_run hrun, Outcome.bind_iff]
      exact hrefl

/-- A key in unary after its password in unary. -/
def unarySealing : Sealing ℕ where
  encrypt password key := .replicate password 0 ++ 1 :: .replicate key 0
  decrypt password bytes :=
    if bytes.idxOf 1 = password then some (bytes.length - (password + 1)) else none
  decrypt_encrypt password key := by
    have hindex : (List.replicate password (0 : UInt8) ++ 1 :: .replicate key 0).idxOf 1 =
        password := by
      rw [List.idxOf_append_of_notMem fun h => ?_]
      · simp
      · exact absurd (List.eq_of_mem_replicate h) (by decide)
    rw [if_pos hindex]
    simp
    omega
  encrypt_ne_nil password key := List.append_ne_nil_of_right_ne_nil _ (List.cons_ne_nil _ _)

def unaryCrypto : WalletCrypto where
  masterKeys := unarySealing
  privateKeys := unarySealing
  publicKey key := key
  keyAddress publicKey := publicKey
  passwordHash password := password

/-- A wallet with password 1 that has a private key under password 2. -/
def twoPasswords : OpenWallet unaryCrypto :=
  let master : MasterKeyRecord := ⟨masterKeyIndex, unarySealing.encrypt 1 7, 1⟩
  let r : KeyRecord := ⟨⟨1, by decide⟩, 5, unarySealing.encrypt 2 5⟩
  { records.entries := (∅ : Table ℤ GenericRecord).insert (-1) (.masterKey master)
      |>.insert 1 (.key r)
    records.isOpen := true
    masterKey := some master
    keys := (∅ : Table Address KeyRecord).insert 5 r
    isOpen := rfl
    masterKey_stored := fun r' => by
      rw [Table.getElem?_insert_of_ne _ _ (by decide), Table.getElem?_insert_same]
      simp
    key_stored := fun address r' h => by
      rw [Table.getElem?_insert] at h
      split at h
      · cases h
        exact Table.getElem?_insert_same ..
      · cases h
    key_loaded := fun index r' h => by
      rw [Table.getElem?_insert, Table.getElem?_insert] at h
      split at h
      · cases h
        exact Table.getElem?_insert_same ..
      · split at h <;> cases h
    address := fun address r' h => by
      rw [Table.getElem?_insert] at h
      split at h
      · cases h
        exact Eq.symm ‹_›
      · cases h
    own := fun address r' h password key hkey => by
      rw [Table.getElem?_insert] at h
      split at h
      · cases h
        by_cases hpassword : (2 : ℕ) = password
        · subst hpassword
          exact (Option.some.inj hkey).symm
        · exact absurd ((if_neg hpassword).symm.trans hkey) nofun
      · cases h
    keyOrder := ((∅ : Table Address KeyRecord).insert 5 r).toList
    keyOrder_perm := .refl _ }

end LarkX
