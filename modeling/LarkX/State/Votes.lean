import LarkX.State.Keyed

/-!
# Votes and statistics of delegates

The votes of a delegate are a number in its account record, moved by deltas. What they should
add up to is a sum over the balances of the base asset: `Tables.votesDue` is that sum, with the
pay of the delegate, and the facts here say how one write to the tables moves it.
-/

namespace LarkX

open Std (TransOrd LawfulEqOrd)

/-- The statistics of an account as a delegate; zero for any other account. -/
def AccountRecord.stats (r : AccountRecord) : DelegateStats :=
  r.delegateInfo.getD {}

/-- How often a slate names a delegate, by its id or by the opposite of its id. -/
def namings (d : ℤ) (slate : List ℤ) : ℕ :=
  slate.countP fun x => x = d ∨ x = -d

namespace BalanceRecord

/-- Only balances of the base asset with a slate vote. -/
def Voting (r : BalanceRecord) : Prop :=
  r.assetId = 0 ∧ r.condition.delegateSlateId ≠ 0

instance (r : BalanceRecord) : Decidable r.Voting :=
  inferInstanceAs (Decidable (_ ∧ _))

/-- The votes a balance gives a delegate: its amount for every entry of its slate that names
the delegate. -/
def votes (slates : Table SlateId (List ℤ)) (d : ℤ) (r : BalanceRecord) : ℤ :=
  if r.Voting then r.balance * namings d (slates[r.condition.delegateSlateId]?.getD []) else 0

theorem votes_of_not_voting {r : BalanceRecord} (h : ¬r.Voting) (slates : Table SlateId (List ℤ))
    (d : ℤ) : r.votes slates d = 0 :=
  if_neg h

theorem votes_zero {r : BalanceRecord} (h : r.balance = 0) (slates : Table SlateId (List ℤ))
    (d : ℤ) : r.votes slates d = 0 := by
  rw [votes, h, zero_mul, ite_self]

end BalanceRecord

/-- The writes that can move votes. -/
def Write.ofVotes : Write → Bool
  | .balance _ | .account _ | .newAccount _ | .slate _ _ => true
  | _ => false

namespace Tables

variable {crypto : Crypto} {t : Tables}

/-- The statistics of a delegate. -/
def stats (t : Tables) (d : ℤ) : DelegateStats :=
  (t.accounts[d]?).elim {} AccountRecord.stats

/-- The votes all balances give a delegate. -/
def votesCast (t : Tables) (d : ℤ) : ℤ :=
  t.balances.sum fun _ r => r.votes t.slates d

/-- What the votes of a delegate should be: the votes of the balances and its own pay. -/
def votesDue (t : Tables) (d : ℤ) : ℤ :=
  t.votesCast d + (t.stats d).payBalance

/-- The blocks of the delegates are the same. -/
structure SameBlocks (t t' : Tables) : Prop where
  produced : ∀ d, (t'.stats d).blocksProduced = (t.stats d).blocksProduced
  missed : ∀ d, (t'.stats d).blocksMissed = (t.stats d).blocksMissed

theorem SameBlocks.refl (t : Tables) : t.SameBlocks t :=
  ⟨fun _ => rfl, fun _ => rfl⟩

theorem SameBlocks.trans {t₁ t₂ t₃ : Tables} (h : t₁.SameBlocks t₂) (h' : t₂.SameBlocks t₃) :
    t₁.SameBlocks t₃ :=
  ⟨fun d => (h'.produced d).trans (h.produced d), fun d => (h'.missed d).trans (h.missed d)⟩

/-- How far the votes of a delegate are from what they should be, up to the wrap of 64 bits. -/
def votesGap (t : Tables) (d : ℤ) : Word :=
  (t.stats d).votesFor - t.votesDue d

/-- No delegate gets further from its votes. -/
structure VotesKept (t t' : Tables) : Prop where
  gap : ∀ d, 0 ≤ d → t'.votesGap d = t.votesGap d
  range : ∀ d, IsInt64 (t.stats d).votesFor → IsInt64 (t'.stats d).votesFor

theorem VotesKept.refl (t : Tables) : t.VotesKept t :=
  ⟨fun _ _ => rfl, fun _ => id⟩

theorem VotesKept.trans {t₁ t₂ t₃ : Tables} (h : t₁.VotesKept t₂) (h' : t₂.VotesKept t₃) :
    t₁.VotesKept t₃ :=
  ⟨fun d hd => (h'.gap d hd).trans (h.gap d hd), fun d hd => h'.range d (h.range d hd)⟩

/-- The slate of every balance that votes is there. -/
def SlatesKnown (t : Tables) : Prop :=
  ∀ (id : BalanceId) r, t.balances[id]? = some r → r.Voting → r.balance ≠ 0 →
    t.slates[r.condition.delegateSlateId]? ≠ none

/-- The market does not issue the base asset. -/
def BaseNotIssued (t : Tables) : Prop :=
  ∀ r, t.assets[(0 : ℤ)]? = some r → r.isMarketIssued = false

/-- The ids of the accounts are given out one after the other. -/
def IdsGiven (t : Tables) : Prop :=
  ∃ last : ℤ, t.properties[ChainProperty.lastAccountId]? = some (.int last) ∧ 0 ≤ last ∧
    ∀ (id : ℤ) r, t.accounts[id]? = some r → 0 ≤ id ∧ id ≤ last

/-- Slates are under their own ids. -/
def SlatesNamed (crypto : Crypto) (t : Tables) : Prop :=
  ∀ (id : SlateId) slate, t.slates[id]? = some slate → crypto.slateId slate = id

/-- What single writes keep: records under their own keys, a base asset without yield, and
account ids that have been given out. -/
structure Based (crypto : Crypto) (t : Tables) : Prop where
  keyed : t.Keyed crypto
  named : t.SlatesNamed crypto
  base : t.BaseNotIssued
  given : t.IdsGiven

/-- What the accounting of votes rests on. -/
structure Countable (crypto : Crypto) (t : Tables) : Prop extends t.Based crypto where
  known : t.SlatesKnown

/-! ### One write -/

/-- A balance that is written moves the votes cast by the votes it gives, less those of the
balance that was there. -/
theorem votesCast_balance (t : Tables) (r : BalanceRecord) (d : ℤ) :
    (t.write crypto (.balance r)).votesCast d = t.votesCast d + (r.votes t.slates d -
      (t.balances[crypto.conditionAddress r.condition]?).elim 0 (·.votes t.slates d)) :=
  Table.sum_insert _ _ _ _

/-- A new slate is the slate of no balance yet. -/
theorem votesCast_slate (hknown : t.SlatesKnown) {id : SlateId} (hnone : t.slates[id]? = none)
    (slate : List ℤ) (d : ℤ) :
    (t.write crypto (.slate id slate)).votesCast d = t.votesCast d := by
  refine Table.sum_congr fun k => ?_
  change (t.balances[k]?).elim 0 _ = (t.balances[k]?).elim 0 _
  cases hr : t.balances[k]? with
  | none => rfl
  | some r =>
    change r.votes (t.slates.insert id slate) d = r.votes t.slates d
    by_cases hvoting : r.Voting
    · by_cases hzero : r.balance = 0
      · rw [BalanceRecord.votes_zero hzero, BalanceRecord.votes_zero hzero]
      · have hne : r.condition.delegateSlateId ≠ id := by
          rintro rfl
          exact hknown k r hr hvoting hzero hnone
        rw [BalanceRecord.votes, BalanceRecord.votes, Table.getElem?_insert_of_ne _ _ hne]
    · rw [BalanceRecord.votes_of_not_voting hvoting, BalanceRecord.votes_of_not_voting hvoting]

/-- An account that is written changes its own statistics only. -/
theorem stats_account (t : Tables) (r : AccountRecord) (d : ℤ) :
    (t.write crypto (.account r)).stats d = if d = r.id then r.stats else t.stats d := by
  change ((t.accounts.insert r.id r)[d]?).elim {} AccountRecord.stats = _
  rw [Table.getElem?_insert]
  split <;> rfl

/-- A balance that votes, or is none, is written over. -/
theorem SlatesKnown.balance (h : t.SlatesKnown) {r : BalanceRecord}
    (hr : r.Voting → r.balance ≠ 0 → t.slates[r.condition.delegateSlateId]? ≠ none) :
    (t.write crypto (.balance r)).SlatesKnown := by
  intro id r' hr'
  change (t.balances.insert _ r)[id]? = some r' at hr'
  rw [Table.getElem?_insert] at hr'
  split at hr'
  · cases hr'
    exact hr
  · exact h id r' hr'

theorem SlatesKnown.slate (h : t.SlatesKnown) (id : SlateId) (slate : List ℤ) :
    (t.write crypto (.slate id slate)).SlatesKnown := by
  intro k r hr hvoting hbalance
  change (t.slates.insert id slate)[_]? ≠ none
  rw [Table.getElem?_insert]
  split
  · exact Option.some_ne_none _
  · exact h k r hr hvoting hbalance

theorem SlatesNamed.slate (h : t.SlatesNamed crypto) {id : SlateId} {slate : List ℤ}
    (hid : crypto.slateId slate = id) : (t.write crypto (.slate id slate)).SlatesNamed crypto := by
  intro id' slate' hget
  change (t.slates.insert id slate)[id']? = some slate' at hget
  rw [Table.getElem?_insert] at hget
  split at hget
  · rename_i hmine
    cases hget
    exact hid.trans hmine.symm
  · exact h id' slate' hget

/-- An asset that is written over keeps its issuer. -/
theorem BaseNotIssued.asset (h : t.BaseNotIssued) (hkeyed : t.Keyed crypto) {id : ℤ}
    {old r : AssetRecord} (hold : t.assets[id]? = some old) (hid : r.id = old.id)
    (hissuer : r.issuerAccountId = old.issuerAccountId) :
    (t.write crypto (.asset r)).BaseNotIssued := by
  intro r' hget
  change (t.assets.insert r.id r)[(0 : ℤ)]? = some r' at hget
  rw [Table.getElem?_insert] at hget
  split at hget
  · rename_i hzero
    cases hget
    rw [← hkeyed.assets id old hold, ← hid, ← hzero] at hold
    rw [AssetRecord.isMarketIssued, hissuer]
    exact h old hold
  · exact h r' hget

/-- An account that is written over keeps its id. -/
theorem IdsGiven.account (h : t.IdsGiven) (hkeyed : t.Keyed crypto) {id : ℤ}
    {old r : AccountRecord} (hold : t.accounts[id]? = some old) (hid : r.id = old.id) :
    (t.write crypto (.account r)).IdsGiven := by
  obtain ⟨last, hlast, hnonneg, hids⟩ := h
  refine ⟨last, hlast, hnonneg, fun id' r' hget => ?_⟩
  change (t.accounts.insert r.id r)[id']? = some r' at hget
  rw [Table.getElem?_insert] at hget
  split at hget
  · rename_i hmine
    rw [hmine, hid, hkeyed.accounts id old hold]
    exact hids id old hold
  · exact hids id' r' hget

theorem IdsGiven.newAccount (h : t.IdsGiven) {last : ℤ} {r : AccountRecord}
    (hlast : t.properties[ChainProperty.lastAccountId]? = some (.int last))
    (hid : r.id = last + 1) : (t.write crypto (.newAccount r)).IdsGiven := by
  obtain ⟨last', hlast', hnonneg, hids⟩ := h
  rw [hlast] at hlast'
  cases hlast'
  refine ⟨r.id, Table.getElem?_insert_same _ _ _, by omega, fun id' r' hget => ?_⟩
  change (t.accounts.insert r.id r)[id']? = some r' at hget
  rw [Table.getElem?_insert] at hget
  split at hget
  · omega
  · have hbound := hids id' r' hget
    omega

theorem IdsGiven.property (h : t.IdsGiven) {p : ChainProperty} (hp : p ≠ .lastAccountId)
    (v : Variant) : (t.write crypto (.property p v)).IdsGiven := by
  obtain ⟨last, hlast, hrest⟩ := h
  refine ⟨last, ?_, hrest⟩
  change (t.properties.insert p v)[ChainProperty.lastAccountId]? = _
  rw [Table.getElem?_insert_of_ne _ _ hp.symm]
  exact hlast

/-! ### Tables without votes -/

/-- The tables the votes depend on are the same. -/
structure SameVotes (t t' : Tables) : Prop where
  balances : t'.balances = t.balances
  accounts : t'.accounts = t.accounts
  slates : t'.slates = t.slates

namespace SameVotes

variable {t' : Tables}

theorem stats (h : t.SameVotes t') (d : ℤ) : t'.stats d = t.stats d := by
  rw [Tables.stats, h.accounts, Tables.stats]

theorem votesDue (h : t.SameVotes t') (d : ℤ) : t'.votesDue d = t.votesDue d := by
  rw [Tables.votesDue, Tables.votesCast, h.balances, h.slates, h.stats]
  rfl

theorem sameBlocks (h : t.SameVotes t') : t.SameBlocks t' :=
  ⟨fun d => by rw [h.stats], fun d => by rw [h.stats]⟩

theorem votesKept (h : t.SameVotes t') : t.VotesKept t' :=
  ⟨fun d _ => by rw [votesGap, votesGap, h.stats, h.votesDue], fun d hd => by rwa [h.stats]⟩

theorem known (h : t.SameVotes t') (hknown : t.SlatesKnown) : t'.SlatesKnown := by
  intro id r hr
  rw [h.balances] at hr
  rw [h.slates]
  exact hknown id r hr

end SameVotes

/-- The other writes leave the tables the votes depend on. -/
theorem sameVotes_write {w : Write} (hw : w.ofVotes = false) :
    t.SameVotes (t.write crypto w) := by
  cases w with
  | balance | account | newAccount | slate => cases hw
  | _ => exact ⟨rfl, rfl, rfl⟩

/-- An account that is written over keeps its votes as far from its pay as they were. -/
theorem votesKept_account (hkeyed : t.Keyed crypto) {id : ℤ} {old r : AccountRecord}
    (hold : t.accounts[id]? = some old) (hid : r.id = old.id)
    (hgap : (r.stats.votesFor - r.stats.payBalance : Word) =
      old.stats.votesFor - old.stats.payBalance)
    (hrange : IsInt64 old.stats.votesFor → IsInt64 r.stats.votesFor) :
    t.VotesKept (t.write crypto (.account r)) := by
  have hstats : t.stats r.id = old.stats := by
    rw [stats, hid, hkeyed.accounts id old hold, hold, Option.elim_some]
  refine ⟨fun d _ => ?_, fun d hd => ?_⟩
  · rw [votesGap, votesGap, votesDue, votesDue, stats_account]
    change (_ - (t.votesCast d + _ : ℤ) : Word) = _
    split
    · rename_i hmine
      rw [hmine, hstats]
      push_cast
      linear_combination hgap
    · rfl
  · rw [stats_account]
    split
    · rename_i hmine
      rw [hmine, hstats] at hd
      exact hrange hd
    · exact hd

/-- A balance without a slate is written over another one. -/
theorem votesKept_plain (hkeyed : t.Keyed crypto)
    (hideal : Function.Injective crypto.conditionAddress) {r : BalanceRecord}
    (hslate : r.condition.delegateSlateId = 0) : t.VotesKept (t.write crypto (.balance r)) := by
  refine ⟨fun d _ => ?_, fun _ hd => hd⟩
  have hnew : ¬r.Voting := fun h => h.2 hslate
  have hold : (t.balances[crypto.conditionAddress r.condition]?).elim 0
      (·.votes t.slates d) = 0 := by
    cases hget : t.balances[crypto.conditionAddress r.condition]? with
    | none => rfl
    | some old =>
      rw [Option.elim_some, BalanceRecord.votes_of_not_voting]
      intro h
      rw [BalanceRecord.Voting, hideal (hkeyed.balances _ old hget)] at h
      exact h.2 hslate
  rw [votesGap, votesGap, votesDue, votesDue, votesCast_balance, hold,
    BalanceRecord.votes_of_not_voting hnew, sub_zero, add_zero]
  rfl

/-! ### Exact votes -/

/-- Ids up to `last` that have no account get none. -/
structure Grown (last : ℤ) (t t' : Tables) : Prop where
  grows : ∃ last' : ℤ, t'.properties[ChainProperty.lastAccountId]? = some (.int last') ∧
    last ≤ last'
  lost : ∀ d ≤ last, t.accounts[d]? = none → t'.accounts[d]? = none

/-- The votes of every account, and of every account to come, are what they should be. -/
structure Polled (crypto : Crypto) (t : Tables) : Prop extends t.Countable crypto where
  exact : ∀ (d : ℤ) r, t.accounts[d]? = some r → t.votesGap d = 0
  ahead : ∀ last : ℤ, t.properties[ChainProperty.lastAccountId]? = some (.int last) →
    ∀ d, last < d → t.votesGap d = 0
  range : ∀ d, IsInt64 (t.stats d).votesFor

/-- The last id of polled tables. -/
theorem IdsGiven.last_nonneg (h : t.IdsGiven) {last : ℤ}
    (hlast : t.properties[ChainProperty.lastAccountId]? = some (.int last)) : 0 ≤ last := by
  obtain ⟨last', hlast', hnonneg, -⟩ := h
  rw [hlast] at hlast'
  cases hlast'
  exact hnonneg

theorem Polled.advance {t' : Tables} (h : t.Polled crypto) (hc : t'.Countable crypto)
    (hkept : t.VotesKept t')
    (hgrown : ∀ last : ℤ, t.properties[ChainProperty.lastAccountId]? = some (.int last) →
      Grown last t t') : t'.Polled crypto := by
  obtain ⟨last, hlast, hnonneg, -⟩ := h.given
  obtain ⟨⟨last', hlast', hle⟩, hlost⟩ := hgrown last hlast
  obtain ⟨last₂, hlast₂, -, hids⟩ := hc.given
  refine ⟨hc, fun d r hr => ?_, fun last₁ hlast₁ d hd => ?_, fun d => hkept.range d (h.range d)⟩
  · rw [hkept.gap d (hids d r hr).1]
    by_cases hd : d ≤ last
    · cases hold : t.accounts[d]? with
      | none =>
        rw [hlost d hd hold] at hr
        cases hr
      | some old => exact h.exact d old hold
    · exact h.ahead last hlast d (by omega)
  · rw [hlast'] at hlast₁
    cases hlast₁
    rw [hkept.gap d (by omega)]
    exact h.ahead last hlast d (by omega)

/-- What is left of tables when null records are removed. -/
structure Remains (t t' : Tables) : Prop where
  accounts : ∀ (id : ℤ) r, t'.accounts[id]? = some r → t.accounts[id]? = some r
  assets : ∀ (id : ℤ) r, t'.assets[id]? = some r → t.assets[id]? = some r
  balances : ∀ id : BalanceId, t'.balances[id]?.filter (fun r => !r.isNull) =
    t.balances[id]?.filter fun r => !r.isNull
  slates : ∀ (id : SlateId) slate, t'.slates[id]? = some slate → t.slates[id]? = some slate
  slatesKept : ∀ (id : SlateId) slate, slate ≠ [] → t.slates[id]? = some slate →
    t'.slates[id]? = some slate
  last : t'.properties[ChainProperty.lastAccountId]? =
    t.properties[ChainProperty.lastAccountId]?

/-- The slate of a balance that votes is not empty. -/
theorem Countable.slate (h : t.Countable crypto) {id : BalanceId} {r : BalanceRecord}
    (hr : t.balances[id]? = some r) (hvoting : r.Voting) (hbalance : r.balance ≠ 0) :
    ∃ slate, slate ≠ [] ∧ t.slates[r.condition.delegateSlateId]? = some slate := by
  obtain ⟨slate, hslate⟩ := Option.ne_none_iff_exists'.1 (h.known id r hr hvoting hbalance)
  refine ⟨slate, ?_, hslate⟩
  rintro rfl
  exact hvoting.2 (h.named _ _ hslate).symm

theorem Remains.votesCast {t' : Tables} (h : t.Remains t') (hc : t.Countable crypto) (d : ℤ) :
    t'.votesCast d = t.votesCast d := by
  -- a balance that is not null votes by the same slate, a null one has no votes
  have hsame (k : BalanceId) (r : BalanceRecord) (hr : t.balances[k]? = some r) :
      r.votes t'.slates d = r.votes t.slates d := by
    by_cases hzero : r.balance = 0
    · rw [BalanceRecord.votes_zero hzero, BalanceRecord.votes_zero hzero]
    · by_cases hvoting : r.Voting
      · obtain ⟨slate, hne, hslate⟩ := hc.slate hr hvoting hzero
        rw [BalanceRecord.votes, BalanceRecord.votes, hslate, h.slatesKept _ _ hne hslate]
      · rw [BalanceRecord.votes_of_not_voting hvoting, BalanceRecord.votes_of_not_voting hvoting]
  have hfilter (slates : Table SlateId (List ℤ)) (o : Option BalanceRecord) :
      o.elim 0 (·.votes slates d) = (o.filter fun r => !r.isNull).elim 0 (·.votes slates d) := by
    cases o with
    | none => rfl
    | some r =>
      by_cases hzero : r.balance = 0
      · rw [Option.elim_some, BalanceRecord.votes_zero hzero, Option.filter_some_neg]
        · rfl
        · simp [BalanceRecord.isNull, hzero]
      · rw [Option.filter_some_pos]
        simp [BalanceRecord.isNull, hzero]
  refine Table.sum_congr fun k => ?_
  rw [hfilter, h.balances k, ← hfilter]
  cases hr : t.balances[k]? with
  | none => rfl
  | some r => exact hsame k r hr

theorem Polled.remains {t' : Tables} (h : t.Polled crypto) (hkeyed : t'.Keyed crypto)
    (hremains : t.Remains t') : t'.Polled crypto := by
  have hcast := hremains.votesCast h.toCountable
  have hgap (d : ℤ) (hstats : t'.stats d = t.stats d) : t'.votesGap d = t.votesGap d := by
    rw [votesGap, votesGap, votesDue, votesDue, hcast, hstats]
  have hstats (d : ℤ) (r : AccountRecord) (hr : t'.accounts[d]? = some r) :
      t'.stats d = t.stats d := by
    rw [stats, stats, hr, hremains.accounts d r hr]
  obtain ⟨last, hlast, hnonneg, hids⟩ := h.given
  refine ⟨⟨⟨hkeyed, fun id slate hslate => h.named id slate (hremains.slates id slate hslate),
    fun r hr => h.base r (hremains.assets 0 r hr),
    ⟨last, hremains.last ▸ hlast, hnonneg, fun id r hr => hids id r (hremains.accounts id r hr)⟩⟩,
    fun id r hr hvoting hbalance => ?_⟩, fun d r hr => ?_, fun last' hlast' d hd => ?_,
    fun d => ?_⟩
  · -- a balance that is not null was there before
    have hold : t.balances[id]? = some r := by
      have hfilter := hremains.balances id
      rw [hr, Option.filter_some_pos (by simp [BalanceRecord.isNull, hbalance])] at hfilter
      exact (Option.filter_eq_some_iff.1 hfilter.symm).1
    obtain ⟨slate, hne, hslate⟩ := h.slate hold hvoting hbalance
    rw [hremains.slatesKept _ _ hne hslate]
    exact Option.some_ne_none _
  · rw [hgap d (hstats d r hr)]
    exact h.exact d r (hremains.accounts d r hr)
  · have hnone : t.accounts[d]? = none := by
      cases hr : t.accounts[d]? with
      | none => rfl
      | some r =>
        rw [hremains.last, hlast] at hlast'
        cases hlast'
        exact absurd (hids d r hr).2 (by omega)
    have hnone' : t'.accounts[d]? = none := by
      cases hr : t'.accounts[d]? with
      | none => rfl
      | some r =>
        rw [hremains.accounts d r hr] at hnone
        cases hnone
    rw [hgap d (by rw [stats, stats, hnone, hnone'])]
    exact h.ahead last' (hremains.last ▸ hlast') d hd
  · cases hr : t'.accounts[d]? with
    | none =>
      rw [stats, hr, Option.elim_none]
      exact ⟨by decide, by decide⟩
    | some r =>
      rw [hstats d r hr]
      exact h.range d

end Tables

end LarkX
