import LarkX.Chain.Production

/-!
# The next slot of a delegate

`get_next_producible_block_timestamp` looks through the slots of one round, from the current one on,
for the first whose delegate is one of its own. As the list of the active delegates is well formed
in every state of a chain, the search never throws, and it comes back with nothing only if none of
them is active (`Visited.nextProducible`): the slots of a round are those of all active delegates.

The current slot counts as long as the head is older. So the slot can lie before the head, whose
time may be up to two slots ahead of the clock.
-/

namespace LarkX

open ChainInterface

/-- `get_slot_number( timestamp )`. -/
def slotNumber (timestamp : ℕ) : ℕ :=
  timestamp / btsBlockchainBlockIntervalSec

/-- `get_slot_start_time( timestamp )`. -/
def slotStartTime (timestamp : ℕ) : ℕ :=
  slotNumber timestamp * btsBlockchainBlockIntervalSec

namespace Database

/-- The loop of `get_next_producible_block_timestamp`, from `nextBlockTime` up to `lastBlockTime`.
Times are in 32 bits; there are no more slots between the two than a round has. -/
def findSlot (delegateIds activeDelegates : List ℤ) (lastBlockTime : ℕ) :
    ℕ → ℕ → Fallible (Option ℕ)
  | 0, _ => throw .hang
  | slots + 1, nextBlockTime =>
    if nextBlockTime < lastBlockTime then do
      let delegatePos := slotNumber nextBlockTime % btsBlockchainNumDelegates
      let delegateId ← orThrow activeDelegates[delegatePos]?
        (.assertion "delegate_pos < active_delegates.size()")
      if delegateId ∈ delegateIds then return some nextBlockTime
      else
        findSlot delegateIds activeDelegates lastBlockTime slots
          ((nextBlockTime + btsBlockchainBlockIntervalSec) % 2 ^ 32)
    else return none

/-- `get_next_producible_block_timestamp( delegate_ids )`. -/
def getNextProducibleBlockTimestamp (db : Database) (wall : ℕ) (delegateIds : List ℤ) :
    Fallible (Option ℕ) := do
  let nextBlockTime := if slotStartTime wall ≤ db.now wall then
    (slotStartTime wall + btsBlockchainBlockIntervalSec) % 2 ^ 32 else slotStartTime wall
  let lastBlockTime :=
    (nextBlockTime + btsBlockchainNumDelegates * btsBlockchainBlockIntervalSec) % 2 ^ 32
  let activeDelegates ← (db.chain wall).getActiveDelegates
  findSlot delegateIds activeDelegates lastBlockTime (btsBlockchainNumDelegates + 1) nextBlockTime

/-- The slots in which one of the delegates may produce the next block, by the clock at `wall`: the
current one, unless the head is as new, and those after it. -/
def ProducibleSlots (db : Database) (wall : ℕ) (delegateIds : List ℤ) : Set ℕ :=
  { t | t % btsBlockchainBlockIntervalSec = 0 ∧ slotStartTime wall ≤ t ∧
    (t = slotStartTime wall → db.now wall < t) ∧
    ∃ id ∈ delegateIds, db.ledger.slotDelegate t = some id }

end Database

/-! ### The search -/

/-- A well-formed list is what the delegates of the slots are read from. -/
theorem Tables.Schedules.slotDelegate_eq {crypto : Crypto} {db : Ledger} {active : List ℤ}
    (h : db.toTables.Schedules active) (hdb : db.WellFormed crypto) (timestamp : ℕ) :
    db.slotDelegate timestamp =
      active[slotNumber timestamp % btsBlockchainNumDelegates]? := by
  obtain ⟨r, hr⟩ := h.getSlotSignee 0 0 timestamp
  rw [slotDelegate_of_signee (c := ⟨[], db, 0, 0⟩) (h.getActiveDelegates 0 0) hr]
  simp only [ChainInterface.getSlotSignee, bind_eq_ok, orThrow_eq_ok, require_eq_ok,
    pure_eq_ok] at hr
  obtain ⟨id, hid, r', hstored, -, -, rfl⟩ := hr
  rw [slotNumber, hid, hdb.keyed.accounts id r' hstored]

/-- The slots of a round are those of all positions. -/
theorem exists_slot_of_position (n k : ℕ) {i : ℕ} (hi : i < n) : ∃ j < n, (k + j) % n = i := by
  have hk : k % n < n := Nat.mod_lt k (by omega)
  refine ⟨(i + (n - k % n)) % n, Nat.mod_lt _ (by omega), ?_⟩
  rw [Nat.add_mod, Nat.mod_mod, ← Nat.add_mod, ← Nat.mod_add_mod k n]
  rw [show k % n + (i + (n - k % n)) = i + n by omega, Nat.add_mod_right, Nat.mod_eq_of_lt hi]

namespace Database

variable {delegateIds active : List ℤ} {last t : ℕ}

/-- The delegate of the slot is one of those looked for. -/
def Hits (delegateIds active : List ℤ) (t : ℕ) : Prop :=
  ∃ id ∈ delegateIds, active[slotNumber t % btsBlockchainNumDelegates]? = some id

/-- **The search finds the first slot.** -/
theorem findSlot_eq (hactive : active.length = btsBlockchainNumDelegates) {slots rounds : ℕ}
    (hslots : slots < rounds) (hlast : last = t + btsBlockchainBlockIntervalSec * slots)
    (hrange : last < 2 ^ 32) :
    (∃ j < slots, Hits delegateIds active (t + btsBlockchainBlockIntervalSec * j) ∧
      (∀ i < j, ¬Hits delegateIds active (t + btsBlockchainBlockIntervalSec * i)) ∧
      findSlot delegateIds active last rounds t =
        .ok (some (t + btsBlockchainBlockIntervalSec * j))) ∨
    ((∀ j < slots, ¬Hits delegateIds active (t + btsBlockchainBlockIntervalSec * j)) ∧
      findSlot delegateIds active last rounds t = .ok none) := by
  induction rounds generalizing slots t with
  | zero => exact absurd hslots (Nat.not_lt_zero _)
  | succ rounds ih =>
    cases slots with
    | zero =>
      refine Or.inr ⟨fun j hj => absurd hj (Nat.not_lt_zero _), ?_⟩
      rw [findSlot, if_neg (by omega)]
      rfl
    | succ slots =>
      have hpos : slotNumber t % btsBlockchainNumDelegates < active.length :=
        hactive.symm ▸ Nat.mod_lt _ (by decide)
      have hread : active[slotNumber t % btsBlockchainNumDelegates]? =
          some active[slotNumber t % btsBlockchainNumDelegates] := List.getElem?_eq_getElem hpos
      have hnext : t + btsBlockchainBlockIntervalSec < 2 ^ 32 ∧
          last = t + btsBlockchainBlockIntervalSec + btsBlockchainBlockIntervalSec * slots := by
        simp only [btsBlockchainBlockIntervalSec] at *
        omega
      have hlt : t < last := by
        simp only [btsBlockchainBlockIntervalSec] at *
        omega
      have hstep : findSlot delegateIds active last (rounds + 1) t =
          if active[slotNumber t % btsBlockchainNumDelegates] ∈ delegateIds then .ok (some t)
          else findSlot delegateIds active last rounds (t + btsBlockchainBlockIntervalSec) := by
        rw [findSlot, if_pos hlt, Nat.mod_eq_of_lt hnext.1]
        simp only [hread]
        rfl
      have hshift : ∀ j, t + btsBlockchainBlockIntervalSec * (j + 1) =
          t + btsBlockchainBlockIntervalSec + btsBlockchainBlockIntervalSec * j := fun j => by ring
      rw [hstep]
      split
      · rename_i hmem
        exact Or.inl ⟨0, Nat.succ_pos _, ⟨_, hmem, hread⟩, fun i hi =>
          absurd hi (Nat.not_lt_zero _), rfl⟩
      · rename_i hmem
        have hmiss : ¬Hits delegateIds active (t + btsBlockchainBlockIntervalSec * 0) := by
          rintro ⟨id, hid, heq⟩
          exact hmem (Option.some.inj (hread.symm.trans heq) ▸ hid)
        obtain ⟨j, hj, hhit, hfirst, heq⟩ | ⟨hnone, heq⟩ :=
          ih (Nat.lt_of_succ_lt_succ hslots) hnext.2
        · refine Or.inl ⟨j + 1, Nat.succ_lt_succ hj, hshift j ▸ hhit, fun i hi => ?_,
            hshift j ▸ heq⟩
          cases i with
          | zero => exact hmiss
          | succ i => exact hshift i ▸ hfirst i (Nat.lt_of_succ_lt_succ hi)
        · refine Or.inr ⟨fun i hi => ?_, heq⟩
          cases i with
          | zero => exact hmiss
          | succ i => exact hshift i ▸ hnone i (Nat.lt_of_succ_lt_succ hi)

/-- The first slot that `get_next_producible_block_timestamp` looks at. -/
def firstSlot (db : Database) (wall : ℕ) : ℕ :=
  if slotStartTime wall ≤ db.now wall then slotStartTime wall + btsBlockchainBlockIntervalSec
  else slotStartTime wall

theorem slotStartTime_mod (t : ℕ) : slotStartTime t % btsBlockchainBlockIntervalSec = 0 :=
  Nat.mul_mod_left _ _

theorem slotNumber_add (t j : ℕ) :
    slotNumber (t + btsBlockchainBlockIntervalSec * j) = slotNumber t + j :=
  Nat.add_mul_div_left t j (by decide)

/-- What may be produced is a slot from the first one on. -/
theorem mem_producibleSlots {db : Database} {wall : ℕ}
    (hslots : ∀ s, db.ledger.slotDelegate s =
      active[slotNumber s % btsBlockchainNumDelegates]?) :
    t ∈ db.ProducibleSlots wall delegateIds ↔
      ∃ j, t = db.firstSlot wall + btsBlockchainBlockIntervalSec * j ∧
        Hits delegateIds active t := by
  have hstart := slotStartTime_mod wall
  have hhits : (∃ id ∈ delegateIds, db.ledger.slotDelegate t = some id) ↔
      Hits delegateIds active t := by
    rw [hslots]
    rfl
  rw [ProducibleSlots, Set.mem_ofPred_eq, hhits, firstSlot]
  simp only [btsBlockchainBlockIntervalSec] at *
  constructor
  · rintro ⟨hslot, hle, hnew, hhit⟩
    split
    · exact ⟨(t - (slotStartTime wall + 10)) / 10, by omega, hhit⟩
    · exact ⟨(t - slotStartTime wall) / 10, by omega, hhit⟩
  · rintro ⟨j, ht, hhit⟩
    split at ht
    · exact ⟨by omega, by omega, by omega, hhit⟩
    · exact ⟨by omega, by omega, by omega, hhit⟩

/-- A well-formed list has every one of its delegates in the slots of a round. -/
theorem exists_hits (hactive : active.length = btsBlockchainNumDelegates) {id : ℤ}
    (hid : id ∈ delegateIds) (hmem : id ∈ active) (t : ℕ) :
    ∃ j < btsBlockchainNumDelegates,
      Hits delegateIds active (t + btsBlockchainBlockIntervalSec * j) := by
  obtain ⟨i, hi, heq⟩ := List.getElem_of_mem hmem
  obtain ⟨j, hj, hpos⟩ := exists_slot_of_position btsBlockchainNumDelegates (slotNumber t)
    (hactive ▸ hi)
  refine ⟨j, hj, id, hid, ?_⟩
  rw [slotNumber_add, hpos, List.getElem?_eq_getElem hi, heq]

/-- With enough delegates at genesis the list of the active delegates is well formed. -/
theorem Visited.scheduled {crypto : Crypto} {config : GenesisBlockConfig} (hids : crypto.IdealIds)
    (hgenesis : ∀ g, initializeGenesis crypto config = .ok g →
      btsBlockchainNumDelegates ≤ g.ledger.delegates.length)
    {db : Database} (h : db.Visited crypto config) :
    db.ledger.WellFormed crypto ∧ db.ledger.toTables.Scheduled := by
  obtain ⟨g, hg, -, links, htracks⟩ := h.tracks hids
  exact ⟨htracks.wellFormed, htracks.agrees.scheduled
    (htracks.linked.scheduled (initializeGenesis_scheduled hg (hgenesis g hg)) fun _ _ hK => hK)⟩

/-- The search for the next slot finds the least one, or none of the delegates is active. -/
theorem Visited.findsLeast {crypto : Crypto} {config : GenesisBlockConfig}
    (hids : crypto.IdealIds)
    (hgenesis : ∀ g, initializeGenesis crypto config = .ok g →
      btsBlockchainNumDelegates ≤ g.ledger.delegates.length)
    {db : Database} (h : db.Visited crypto config) {wall : ℕ}
    (hwall : wall + btsBlockchainBlockIntervalSec * (btsBlockchainNumDelegates + 1) < 2 ^ 32)
    (delegateIds : List ℤ) :
    ∃ active next, (db.chain wall).getActiveDelegates = .ok active ∧
      db.getNextProducibleBlockTimestamp wall delegateIds = .ok next ∧
      ((∃ t, next = some t ∧ IsLeast (db.ProducibleSlots wall delegateIds) t ∧
          ∃ id ∈ delegateIds, id ∈ active) ∨
        next = none ∧ (∀ t, t ∉ db.ProducibleSlots wall delegateIds) ∧
          ∀ id ∈ delegateIds, id ∉ active) := by
  obtain ⟨hwell, -, active, hactive⟩ := h.scheduled hids hgenesis
  have hread : (db.chain wall).getActiveDelegates = .ok active := hactive.getActiveDelegates _ _
  have hslots := hactive.slotDelegate_eq hwell
  have hfirst : db.firstSlot wall ≤ wall + btsBlockchainBlockIntervalSec ∧
      db.firstSlot wall + btsBlockchainBlockIntervalSec * btsBlockchainNumDelegates < 2 ^ 32 := by
    have hle : slotStartTime wall ≤ wall := Nat.div_mul_le_self _ _
    unfold firstSlot
    simp only [btsBlockchainBlockIntervalSec, btsBlockchainNumDelegates] at *
    split <;> omega
  have hrun : db.getNextProducibleBlockTimestamp wall delegateIds =
      findSlot delegateIds active
        (db.firstSlot wall + btsBlockchainBlockIntervalSec * btsBlockchainNumDelegates)
        (btsBlockchainNumDelegates + 1) (db.firstSlot wall) := by
    simp only [getNextProducibleBlockTimestamp, hread, ok_bind]
    have hnext : (if slotStartTime wall ≤ db.now wall then
        (slotStartTime wall + btsBlockchainBlockIntervalSec) % 2 ^ 32 else slotStartTime wall) =
          db.firstSlot wall := by
      unfold firstSlot at *
      split
      · rename_i hle
        rw [if_pos hle] at hfirst
        exact Nat.mod_eq_of_lt (by omega)
      · rfl
    rw [hnext, Nat.mul_comm btsBlockchainNumDelegates, Nat.mod_eq_of_lt hfirst.2]
  have hmem : ∀ t, t ∈ db.ProducibleSlots wall delegateIds ↔
      ∃ j, t = db.firstSlot wall + btsBlockchainBlockIntervalSec * j ∧
        Hits delegateIds active t := fun _ => mem_producibleSlots hslots
  refine ⟨active, ?_⟩
  obtain ⟨j, -, hhit, hleast, hfound⟩ | ⟨hnone, hfound⟩ :=
    @findSlot_eq delegateIds _ _ _ hactive.length _ _ (Nat.lt_succ_self _) rfl hfirst.2
  · refine ⟨_, hread, hrun.trans hfound, Or.inl ⟨_, rfl, ⟨(hmem _).2 ⟨j, rfl, hhit⟩,
      fun t' ht' => ?_⟩, ?_⟩⟩
    · obtain ⟨j', rfl, hhit'⟩ := (hmem _).1 ht'
      have hle : j ≤ j' := not_lt.1 fun hlt => hleast j' hlt hhit'
      exact Nat.add_le_add_left (Nat.mul_le_mul_left _ hle) _
    · obtain ⟨id, hid, hslot⟩ := hhit
      exact ⟨id, hid, List.mem_of_getElem? hslot⟩
  · have hinactive : ∀ id ∈ delegateIds, id ∉ active := by
      intro id hid hin
      obtain ⟨j, hj, hhit⟩ := exists_hits hactive.length hid hin (db.firstSlot wall)
      exact hnone j hj hhit
    refine ⟨_, hread, hrun.trans hfound, Or.inr ⟨rfl, fun t ht => ?_, hinactive⟩⟩
    obtain ⟨-, -, id, hid, hslot⟩ := (hmem t).1 ht
    exact hinactive id hid (List.mem_of_getElem? hslot)

end Database

end LarkX
