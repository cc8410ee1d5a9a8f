import LarkX.Chain.Production

/-!
# Production accounting

Along a path that is numbered from 1 the delegates' blocks add up to its length, their missed blocks
to the slots nobody filled, each charged to the delegate the list in force then named, and every
slot from the first block to the last one has the record that says so (`Accounted`). A run accounts
for its production (`RunOf.accounted`) when it extends the chain only where the index of keys has
the delegate of the slot, by blocks after time 0, and without slots before the first block
(`CreditsRight`). A first block at time 0 is accepted and leaves no slot record
(`slot_zero_unrecorded`).

An undo state has no key for the slots it clears, so slots of abandoned blocks stay; those of the
path are given back or written over (`SlotsKept`).
-/

namespace LarkX

open ChainInterface Ledger

/-! ### Slots and undo -/

/-- The slot records of one table are in another; time 0 is the key of null records. -/
def KeepsSlots (slots slots' : Table ℕ SlotRecord) : Prop :=
  ∀ (s : ℕ) (r : SlotRecord), s ≠ 0 → slots[s]? = some r → slots'[s]? = some r

/-- An undo state has the slots that were there. -/
theorem Tables.undo_slots {crypto : Crypto} {top base : Tables} (hbase : base.Keyed crypto) {s : ℕ}
    (hs : s ≠ 0) {r : SlotRecord} (hr : base.slots[s]? = some r) :
    (top.undo base).slots[s]? = (top.slots[s]?).map fun _ => r := by
  have hkey : ∀ k, (base.slots[k]?.getD {}).startTime = s → k = s := by
    intro k hk
    cases hget : base.slots[k]? with
    | none =>
      rw [hget] at hk
      exact absurd hk.symm hs
    | some r' =>
      rw [hget, Option.getD_some, hbase.slots k r' hget] at hk
      exact hk
  have hobserve := Table.foldl_observe
    (f := fun (t : Table ℕ SlotRecord) k (_ : SlotRecord) =>
      t.insert (base.slots[k]?.getD {}).startTime (base.slots[k]?.getD {}))
    (o := fun t k => if k = s then t[s]? else (none : Option SlotRecord))
    (g := fun k _ => if k = s then some r else none)
    (fun t k _ => by
      split
      · rename_i hk
        rw [hk, hr, Option.getD_some, hbase.slots s r hr, Table.getElem?_insert_same]
      · rfl)
    (fun t k _ a hne => by
      split
      · rename_i ha
        exact Table.getElem?_insert_of_ne _ _ fun heq => hne (ha.trans (hkey k heq.symm).symm)
      · rfl) top.slots ∅ s
  simp only [if_true] at hobserve
  rw [Tables.undo, hobserve]
  cases top.slots[s]? with
  | none => exact Table.getElem?_empty' s
  | some _ => rfl

/-- **Undoing a block** gives back the slots there were, when those of the block are there. -/
theorem Link.keepsSlots_undo {crypto : Crypto} {link : Link crypto}
    (hwell : link.prev.ledger.WellFormed crypto) {undo : Overlay}
    (hundo : (link.prev.chain link.wall).getUndoState crypto link.changes = .ok undo) {db : Ledger}
    (hkept : KeepsSlots link.after.slots db.slots) (now : ℕ) :
    KeepsSlots link.prev.ledger.slots (db.apply crypto now undo).slots := by
  obtain ⟨o, heq, hfits⟩ := evaluateBlock_fits hwell link.evaluated
  cases heq
  intro s r hs hr
  obtain ⟨htables, -⟩ := getUndoState_toTables hwell.keyed hfits.keyed hundo
  have hundone : undo.slots = (link.changes.toTables.undo link.prev.ledger.toTables).slots := by
    rw [htables]
  have hkeyed : undo.toTables.Keyed crypto := by
    rw [htables]
    exact { keyed_undo hwell.keyed hfits.keyed with }
  have hslots : ∀ {db : Ledger} {o : Overlay} {now : ℕ}, o.toTables.Keyed crypto →
      (db.apply crypto now o).slots = Table.settle SlotRecord.isNull o.slots db.slots :=
    fun h => congrArg Tables.slots (apply_toTables _ _ h)
  rw [hslots hkeyed, Table.getElem?_settle, hundone, Tables.undo_slots hwell.keyed hs hr]
  cases hchange : link.changes.slots[s]? with
  | some _ =>
    rw [Option.map_some, Option.elim_some, hwell.live.slots s r hr]
    rfl
  | none =>
    refine hkept s r hs ?_
    rw [Link.after, hslots hfits.keyed, Table.getElem?_settle, hchange]
    exact hr

namespace Database

open LarkX.Action

variable {crypto : Crypto} {config : GenesisBlockConfig} {P : FullBlock → Prop}
  {K : Database → Event → Prop} {genesis : Ledger} {link : Link crypto} {links : List (Link crypto)}
  {db : Database} {ledger : Ledger}

/-! ### The slots of a path -/

/-- The blocks of a path are numbered from 1. -/
def Numbered : List (Link crypto) → Prop
  | [] => True
  | link :: links => link.block.blockNum = links.length + 1 ∧ Numbered links

/-- The delegate of a slot by the list in force then, which is that of the ledger the first block
from the slot on was accepted on. -/
def inForce : List (Link crypto) → ℕ → Option ℤ
  | [], _ => none
  | [link], s => link.prev.ledger.slotDelegate s
  | link :: parent :: links, s =>
    if s ≤ parent.block.timestamp then inForce (parent :: links) s
    else link.prev.ledger.slotDelegate s

/-- The block of the path that fills a slot. -/
def blockAt (links : List (Link crypto)) (s : ℕ) : Option BlockId :=
  (links.find? fun link => link.block.timestamp = s).map Link.id

/-- The slots between the first block and the last one that no block fills. -/
def emptySlots (links : List (Link crypto)) : Finset ℕ :=
  match links.getLast?, links.head? with
  | some first, some last =>
    (Finset.Ioo first.block.timestamp last.block.timestamp).filter fun s =>
      s % btsBlockchainBlockIntervalSec = 0 ∧ blockAt links s = none
  | _, _ => ∅

/-- The production of a path is accounted for in the ledger. -/
structure Accounted (links : List (Link crypto)) (ledger : Ledger) : Prop where
  produced : (ledger.accounts.sum fun _ r => (r.stats.blocksProduced : ℤ)) = links.length
  missed : (ledger.accounts.sum fun _ r => (r.stats.blocksMissed : ℤ)) = (emptySlots links).card
  /-- A block is credited to the delegate of its slot. -/
  credited : ∀ d, (ledger.toTables.stats d).blocksProduced = links.countP fun link =>
    inForce links link.block.timestamp = some d
  /-- A missed slot is charged to its delegate. -/
  charged : ∀ d, (ledger.toTables.stats d).blocksMissed =
    ((emptySlots links).filter fun s => inForce links s = some d).card
  recorded : ∀ first ∈ links.getLast?, ∀ last ∈ links.head?, ∀ s,
    s % btsBlockchainBlockIntervalSec = 0 → first.block.timestamp ≤ s → s ≤ last.block.timestamp →
    ∃ d, inForce links s = some d ∧ ledger.slots[s]? = some ⟨s, d, blockAt links s⟩

/-- The confirmation requirement is between 1 and three times the number of delegates. -/
def ConfirmationsBounded (ledger : Ledger) : Prop :=
  ∃ required : ℤ, ledger.toTables.confirmations = some (.int required) ∧ 1 ≤ required ∧
    required ≤ 3 * btsBlockchainNumDelegates

/-- The extensions whose production is accounted for: the block comes after time 0, the index of
keys has the delegate of its slot, and a first block is not compared with one that was popped. -/
def CreditsRight (crypto : Crypto) (db : Database) : Event → Prop
  | .extend _ b => b.timestamp ≠ 0 ∧ db.ledger.IndexesSignee crypto b.timestamp ∧
      (db.headBlockId = 0 → 0 < db.headBlockNum →
        b.timestamp ≤ db.headBlockHeader.timestamp + btsBlockchainBlockIntervalSec)
  | _ => True

/-- The slot records each block of the path left are in the table the next one found. -/
def SlotsKept : List (Link crypto) → Table ℕ SlotRecord → Prop
  | [], _ => True
  | link :: links, slots =>
    KeepsSlots link.after.slots slots ∧ SlotsKept links link.prev.ledger.slots

theorem SlotsKept.mono {slots slots' : Table ℕ SlotRecord} (h : SlotsKept links slots)
    (hslots : KeepsSlots slots slots') : SlotsKept links slots' := by
  cases links with
  | nil => trivial
  | cons link links => exact ⟨fun s r hs hr => hslots s r hs (h.1 s r hs hr), h.2⟩

/-! ### The path grows -/

/-- The blocks of a path, the head first, are later and later from its end. -/
def Later (links : List (Link crypto)) : Prop :=
  links.Pairwise fun link link' => link'.block.timestamp < link.block.timestamp

/-- No block of a path is later than its head. -/
theorem Later.le_head {parent : Link crypto} (h : Later (parent :: links)) {link : Link crypto}
    (hlink : link ∈ parent :: links) : link.block.timestamp ≤ parent.block.timestamp := by
  rcases List.mem_cons.1 hlink with rfl | hlink
  · exact le_rfl
  · exact (List.rel_of_pairwise_cons h hlink).le

theorem Later.exists_head (h : Later links) (hlink : link ∈ links) :
    ∃ parent ∈ links.head?, link.block.timestamp ≤ parent.block.timestamp := by
  cases links with
  | nil => exact absurd hlink List.not_mem_nil
  | cons parent links => exact ⟨parent, rfl, h.le_head hlink⟩

/-- What the header of a block of a path says. -/
theorem header_of_link (link : Link crypto) :
    link.block.timestamp % btsBlockchainBlockIntervalSec = 0 ∧
      (1 < link.block.blockNum → link.prev.headBlockHeader.timestamp < link.block.timestamp) := by
  have hrun := link.evaluated
  simp only [evaluateBlock, bind_eq_ok] at hrun
  obtain ⟨signee, -, _, hheader, -⟩ := hrun
  obtain ⟨-, -, hslot, htime, -⟩ := verifyHeader_eq_ok hheader
  exact ⟨hslot, htime⟩

theorem Linked.later (h : Linked crypto P K genesis links) (hnum : Numbered links) :
    Later links := by
  induction h with
  | nil => exact .nil
  | @cons link links _ hprev _ _ _ _ ih =>
    have hrest := ih hnum.2
    cases links with
    | nil => exact List.pairwise_singleton ..
    | cons parent links =>
      have hhead : link.prev.headBlockHeader = parent.block.toSignedBlockHeader := hprev.header
      have htime := (header_of_link link).2 (by
        rw [hnum.1, List.length_cons]
        omega)
      rw [hhead] at htime
      exact List.pairwise_cons.2 ⟨fun link' hlink' => (hrest.le_head hlink').trans_lt htime, hrest⟩

theorem blockAt_cons (link : Link crypto) (links : List (Link crypto)) (s : ℕ) :
    blockAt (link :: links) s = if link.block.timestamp = s then some link.id
      else blockAt links s := by
  rw [blockAt, List.find?_cons]
  split
  · rename_i heq
    rw [if_pos (of_decide_eq_true heq)]
    rfl
  · rename_i hne
    rw [if_neg (of_decide_eq_false hne)]
    rfl

theorem blockAt_eq_none {s : ℕ} :
    blockAt links s = none ↔ ∀ link ∈ links, link.block.timestamp ≠ s := by
  simp only [blockAt, Option.map_eq_none_iff, List.find?_eq_none, decide_eq_true_eq]

theorem mem_emptySlots {s : ℕ} : s ∈ emptySlots links ↔ ∃ first ∈ links.getLast?,
    ∃ last ∈ links.head?, first.block.timestamp < s ∧ s < last.block.timestamp ∧
      s % btsBlockchainBlockIntervalSec = 0 ∧ blockAt links s = none := by
  unfold emptySlots
  split
  · rename_i first last hfirst hlast
    simp only [hfirst, hlast, Option.mem_some_iff, exists_eq_left', Finset.mem_filter,
      Finset.mem_Ioo, and_assoc]
  · rename_i hnot
    refine iff_of_false (Finset.notMem_empty s) ?_
    rintro ⟨first, hfirst, last, hlast, -⟩
    exact hnot first last hfirst hlast

/-- A first block is neither preceded nor followed by an empty slot. -/
theorem emptySlots_singleton (link : Link crypto) : emptySlots [link] = ∅ := by
  refine Finset.eq_empty_of_forall_notMem fun s hs => ?_
  obtain ⟨first, hfirst, last, hlast, hlt, hlt', -⟩ := mem_emptySlots.1 hs
  rw [List.getLast?_singleton] at hfirst
  cases hfirst
  cases hlast
  omega

/-- **A new block** adds the empty slots before it. -/
theorem mem_emptySlots_cons {parent : Link crypto} (hlater : Later (link :: parent :: links))
    {s : ℕ} : s ∈ emptySlots (link :: parent :: links) ↔ s ∈ emptySlots (parent :: links) ∨
      (parent.block.timestamp < s ∧ s < link.block.timestamp ∧
        s % btsBlockchainBlockIntervalSec = 0) := by
  obtain ⟨hlink, hparent⟩ := List.pairwise_cons.1 hlater
  have hlt := hlink parent List.mem_cons_self
  simp only [mem_emptySlots, List.getLast?_cons_cons, List.head?_cons, Option.mem_some_iff,
    exists_eq_left', blockAt_cons link]
  constructor
  · rintro ⟨first, hfirst, hafter, hbefore, hslot, hnone⟩
    rw [if_neg hbefore.ne'] at hnone
    rcases Nat.lt_trichotomy s parent.block.timestamp with hs | rfl | hs
    · exact Or.inl ⟨first, hfirst, hafter, hs, hslot, hnone⟩
    · exact absurd rfl (blockAt_eq_none.1 hnone parent List.mem_cons_self)
    · exact Or.inr ⟨hs, hbefore, hslot⟩
  · rintro (⟨first, hfirst, hafter, hbefore, hslot, hnone⟩ | ⟨hafter, hbefore, hslot⟩)
    · refine ⟨first, hfirst, hafter, hbefore.trans hlt, hslot, ?_⟩
      rw [if_neg (hbefore.trans hlt).ne']
      exact hnone
    · obtain ⟨first, hfirst⟩ : ∃ first, (parent :: links).getLast? = some first :=
        ⟨_, List.getLast?_eq_some_getLast (List.cons_ne_nil _ _)⟩
      refine ⟨first, hfirst, (Later.le_head hparent (List.mem_of_getLast? hfirst)).trans_lt hafter,
        hbefore, hslot, ?_⟩
      rw [if_neg hbefore.ne']
      exact blockAt_eq_none.2 fun l hl => ((Later.le_head hparent hl).trans_lt hafter).ne

/-- Credits move the blocks of all delegates together by as many. -/
theorem sum_credits {t t' : Tables} {p m : List ℤ} (h : t.Credits p m t') :
    (t'.accounts.sum fun _ r => (r.stats.blocksProduced : ℤ)) =
        (t.accounts.sum fun _ r => (r.stats.blocksProduced : ℤ)) + p.length ∧
      (t'.accounts.sum fun _ r => (r.stats.blocksMissed : ℤ)) =
        (t.accounts.sum fun _ r => (r.stats.blocksMissed : ℤ)) + m.length := by
  have hproduced : ∀ (t : Tables) (d : ℤ), (t.accounts[d]?).elim (0 : ℤ)
      (fun r => (r.stats.blocksProduced : ℤ)) = (t.stats d).blocksProduced := by
    intro t d
    rw [Tables.stats]
    cases t.accounts[d]? <;> rfl
  have hmissed : ∀ (t : Tables) (d : ℤ), (t.accounts[d]?).elim (0 : ℤ)
      (fun r => (r.stats.blocksMissed : ℤ)) = (t.stats d).blocksMissed := by
    intro t d
    rw [Tables.stats]
    cases t.accounts[d]? <;> rfl
  refine ⟨Table.sum_eq_add_length p fun d => ?_, Table.sum_eq_add_length m fun d => ?_⟩
  · rw [hproduced, hproduced, h.produced, Nat.cast_add]
  · rw [hmissed, hmissed, h.missed, Nat.cast_add]

theorem Accounted.nil (hidle : ∀ d, (ledger.toTables.stats d).blocksProduced = 0 ∧
    (ledger.toTables.stats d).blocksMissed = 0) : Accounted ([] : List (Link crypto)) ledger := by
  have hstats : ∀ (d : ℤ) (r : AccountRecord), ledger.accounts[d]? = some r →
      ledger.toTables.stats d = r.stats := by
    intro d r hr
    rw [Tables.stats, hr, Option.elim_some]
  refine ⟨Table.sum_eq_zero fun d r hr => ?_, Table.sum_eq_zero fun d r hr => ?_,
    fun d => (hidle d).1, fun d => (hidle d).2, fun _ hfirst => absurd hfirst (Option.not_mem_none _)⟩
  · rw [← hstats d r hr, (hidle d).1, Nat.cast_zero]
  · rw [← hstats d r hr, (hidle d).2, Nat.cast_zero]

theorem inForce_older {s : ℕ} (h : ∃ parent ∈ links.head?, s ≤ parent.block.timestamp) :
    inForce (link :: links) s = inForce links s := by
  cases links with
  | nil =>
    obtain ⟨parent, hparent, -⟩ := h
    cases hparent
  | cons parent links =>
    obtain ⟨_, ⟨⟩, hs⟩ := h
    exact if_pos hs

theorem inForce_newer {s : ℕ} (h : ∀ parent ∈ links.head?, parent.block.timestamp < s) :
    inForce (link :: links) s = link.prev.ledger.slotDelegate s := by
  cases links with
  | nil => rfl
  | cons parent links => exact if_neg (h parent rfl).not_ge

/-- The slots a block finds missed are the empty slots it adds to the path. -/
structure Grows (link : Link crypto) (links : List (Link crypto)) : Prop where
  empty : ∀ s, s ∈ emptySlots (link :: links) ↔
    s ∈ emptySlots links ∨ s ∈ missedSlots link.prev.headBlockHeader link.block
  newer : ∀ s ∈ missedSlots link.prev.headBlockHeader link.block,
    ∀ parent ∈ links.head?, parent.block.timestamp < s
  later : ∀ parent ∈ links.head?, parent.block.timestamp < link.block.timestamp
  between : ∀ s, s % btsBlockchainBlockIntervalSec = 0 → s < link.block.timestamp →
    (∃ parent ∈ links.head?, parent.block.timestamp < s) →
    s ∈ missedSlots link.prev.headBlockHeader link.block

theorem Grows.older (h : Grows link links) {s : ℕ} (hs : s ∈ emptySlots links) :
    (∃ parent ∈ links.head?, s ≤ parent.block.timestamp) ∧
      s ∉ missedSlots link.prev.headBlockHeader link.block := by
  obtain ⟨-, -, parent, hparent, -, hlt, -⟩ := mem_emptySlots.1 hs
  exact ⟨⟨parent, hparent, hlt.le⟩, fun hmem => (h.newer s hmem parent hparent).asymm hlt⟩

/-- The missed slots of a delegate are as many as it is charged. -/
theorem card_missed {slots : List ℕ} (hnodup : slots.Nodup) {f : ℕ → Option ℤ} {missed : List ℤ}
    (h : slots.map f = missed.map some) (d : ℤ) :
    (slots.toFinset.filter fun s => f s = some d).card = missed.count d := by
  have hfilter : (slots.toFinset.filter fun s => f s = some d) =
      (slots.filter fun s => f s = some d).toFinset := by
    ext s
    simp only [Finset.mem_filter, List.mem_toFinset, List.mem_filter, decide_eq_true_eq]
  rw [hfilter, List.toFinset_card_of_nodup (hnodup.filter _), ← List.countP_eq_length_filter,
    ← List.count_map_of_injective missed some (Option.some_injective ℤ) d, ← h, List.count,
    List.countP_map]
  refine List.countP_congr fun s _ => ?_
  simp only [decide_eq_true_eq, Function.comp_apply, beq_iff_eq]

/-- **A new block** is accounted for. -/
theorem Accounted.cons (hgrows : Grows link links) (hlater : Later (link :: links))
    (h : Accounted links link.prev.ledger) {producer : ℤ} {missed : List ℤ}
    (hproducer : link.prev.ledger.slotDelegate link.block.timestamp = some producer)
    (hproduces : link.prev.ledger.toTables.Produces crypto link.prev.ledger
      link.prev.headBlockHeader link.block producer missed link.after.toTables)
    (hkept : KeepsSlots link.after.slots ledger.slots)
    (haccounts : ledger.accounts = link.after.accounts)
    (hzero : ∀ l ∈ link :: links, l.block.timestamp ≠ 0) :
    Accounted (link :: links) ledger := by
  have hstats : ∀ d, ledger.toTables.stats d = link.after.toTables.stats d := by
    intro d
    rw [Tables.stats, show ledger.toTables.accounts = link.after.toTables.accounts from haccounts,
      Tables.stats]
  have hrest : Later links := hlater.of_cons
  have hnodup := nodup_missedSlots link.prev.headBlockHeader link.block
  have hempty : emptySlots (link :: links) = emptySlots links ∪
      (missedSlots link.prev.headBlockHeader link.block).toFinset := by
    ext s
    rw [hgrows.empty, Finset.mem_union, List.mem_toFinset]
  have hapart : Disjoint (emptySlots links)
      (missedSlots link.prev.headBlockHeader link.block).toFinset :=
    Finset.disjoint_left.2 fun s hs hmem => (hgrows.older hs).2 (List.mem_toFinset.1 hmem)
  have hlength : (missedSlots link.prev.headBlockHeader link.block).length = missed.length := by
    have hlengths := congrArg List.length hproduces.scheduled
    rwa [List.length_map, List.length_map] at hlengths
  obtain ⟨hsumProduced, hsumMissed⟩ := sum_credits hproduces.credits
  have hown : inForce (link :: links) link.block.timestamp = some producer :=
    (inForce_newer hgrows.later).trans hproducer
  refine ⟨?_, ?_, fun d => ?_, fun d => ?_, ?_⟩
  · rw [haccounts, List.length_cons, Nat.cast_add, ← h.produced]
    exact hsumProduced
  · rw [haccounts, hempty, Finset.card_union_of_disjoint hapart,
      List.toFinset_card_of_nodup hnodup, hlength, Nat.cast_add, ← h.missed]
    exact hsumMissed
  · rw [hstats, hproduces.credits.produced, h.credited, List.countP_cons, List.count_singleton,
      hown]
    refine congrArg₂ _ (List.countP_congr fun l hl => ?_) ?_
    · rw [inForce_older (hrest.exists_head hl)]
    · simp only [beq_iff_eq, decide_eq_true_eq, Option.some.injEq]
  · rw [hstats, hproduces.credits.missed, h.charged, hempty, Finset.filter_union,
      Finset.card_union_of_disjoint (Finset.disjoint_filter_filter hapart),
      ← card_missed hnodup hproduces.scheduled]
    refine congrArg₂ _ (congrArg _ (Finset.filter_congr fun s hs => ?_))
      (congrArg _ (Finset.filter_congr fun s hs => ?_))
    · rw [inForce_older (hgrows.older hs).1]
    · rw [inForce_newer (hgrows.newer s (List.mem_toFinset.1 hs))]
  · rintro first hfirst _ ⟨⟩ s hslot hafter hbefore
    have hne : s ≠ 0 := fun heq => hzero first (List.mem_of_getLast? hfirst) (by omega)
    rw [blockAt_cons]
    rcases hbefore.eq_or_lt with rfl | hlt
    · exact ⟨producer, hown, hkept _ _ hne (by rw [if_pos rfl]; exact hproduces.own)⟩
    rw [if_neg hlt.ne']
    by_cases hold : ∃ parent ∈ links.head?, s ≤ parent.block.timestamp
    · -- an older slot keeps its record
      obtain ⟨parent, hparent, hs⟩ := hold
      have hfirst' : first ∈ links.getLast? := by
        cases links with
        | nil => cases hparent
        | cons parent' links => rwa [List.getLast?_cons_cons] at hfirst
      obtain ⟨d, hd, hrecord⟩ := h.recorded first hfirst' parent hparent s hslot hafter hs
      refine ⟨d, (inForce_older ⟨parent, hparent, hs⟩).trans hd, hkept _ _ hne ?_⟩
      exact (hproduces.others s hlt.ne fun hmem =>
        (hgrows.newer s hmem parent hparent).not_ge hs).trans hrecord
    · have hnew : ∀ parent ∈ links.head?, parent.block.timestamp < s :=
        fun parent hparent => not_le.1 fun hs => hold ⟨parent, hparent, hs⟩
      cases links with
      | nil =>
        rw [List.getLast?_singleton] at hfirst
        cases hfirst
        omega
      | cons parent links =>
        obtain ⟨d, hd, hrecord⟩ := hproduces.empty s
          (hgrows.between s hslot hlt ⟨parent, rfl, hnew parent rfl⟩)
        have hnone : blockAt (parent :: links) s = none :=
          blockAt_eq_none.2 fun l hl => ((hrest.le_head hl).trans_lt (hnew parent rfl)).ne
        refine ⟨d, (inForce_newer hnew).trans hd, hkept _ _ hne ?_⟩
        rw [hnone]
        exact hrecord

/-! ### Paths -/

/-- A block of a path that is numbered finds the empty slots it adds missed. -/
theorem At.grows (h : At crypto P K genesis links link.prev)
    (hK : CreditsRight crypto link.prev (.extend link.wall link.block))
    (hnum : Numbered (link :: links)) (hlater : Later (link :: links)) : Grows link links := by
  cases links with
  | nil =>
    have hnone : missedSlots link.prev.headBlockHeader link.block = [] := by
      unfold missedSlots
      split
      · rename_i hhead
        have hle := hK.2.2 h.id hhead
        simp only [btsBlockchainBlockIntervalSec, List.map_eq_nil_iff, List.range_eq_nil] at hle ⊢
        omega
      · rfl
    refine ⟨fun s => ?_, fun s hs => ?_, fun _ hparent => absurd hparent (Option.not_mem_none _),
      fun _ _ _ hparent => absurd hparent.choose_spec.1 (Option.not_mem_none _)⟩
    · rw [hnone, emptySlots_singleton]
      simp only [emptySlots, List.getLast?_nil, Finset.notMem_empty, List.not_mem_nil, or_self]
    · rw [hnone] at hs
      cases hs
  | cons parent links =>
    have hhead : link.prev.headBlockHeader = parent.block.toSignedBlockHeader := h.header
    have hmissed : ∀ s, s ∈ missedSlots link.prev.headBlockHeader link.block ↔
        parent.block.timestamp < s ∧ s < link.block.timestamp ∧
          s % btsBlockchainBlockIntervalSec = 0 := by
      intro s
      rw [hhead, mem_missedSlots (header_of_link parent).1 (header_of_link link).1]
      refine and_iff_right ?_
      rw [hnum.2.1]
      exact Nat.succ_pos _
    refine ⟨fun s => ?_, fun s hs => ?_, ?_, ?_⟩
    · rw [mem_emptySlots_cons hlater, hmissed]
    · rintro _ ⟨⟩
      exact ((hmissed s).1 hs).1
    · rintro _ ⟨⟩
      exact List.rel_of_pairwise_cons hlater List.mem_cons_self
    · rintro s hslot hlt ⟨_, ⟨⟩, hs⟩
      exact (hmissed s).2 ⟨hs, hlt, hslot⟩

/-- What a block does to the production of its path. -/
theorem At.produces (hideal : Function.Injective crypto.conditionAddress)
    (h : At crypto P K genesis links link.prev)
    (hpolled : (ledgerOf crypto genesis links).toTables.Polled crypto)
    (hK : CreditsRight crypto link.prev (.extend link.wall link.block)) :
    ∃ producer missed, link.prev.ledger.slotDelegate link.block.timestamp = some producer ∧
      link.prev.ledger.toTables.Produces crypto link.prev.ledger link.prev.headBlockHeader
        link.block producer missed link.after.toTables :=
  Link.produces hideal h.wellFormed (h.polled hpolled).toCountable hK.1 hK.2.1

theorem Linked.after_zero (h : Linked crypto P (CreditsRight crypto) genesis links) :
    ∀ link ∈ links, link.block.timestamp ≠ 0 := by
  induction h with
  | nil => exact fun _ hlink => absurd hlink List.not_mem_nil
  | cons _ _ _ _ _ hK ih => exact List.forall_mem_cons.2 ⟨hK.1, ih⟩

/-- **A path** accounts for its production, in every ledger that agrees with it. -/
theorem Linked.accountedFor (hideal : Function.Injective crypto.conditionAddress)
    (hgenesis : genesis.toTables.Polled crypto)
    (hidle : ∀ d, (genesis.toTables.stats d).blocksProduced = 0 ∧
      (genesis.toTables.stats d).blocksMissed = 0)
    (h : Linked crypto P (CreditsRight crypto) genesis links) (hnum : Numbered links)
    (hagrees : Agrees (ledgerOf crypto genesis links) ledger)
    (hkept : SlotsKept links ledger.slots) : Accounted links ledger := by
  induction h generalizing ledger with
  | nil =>
    refine .nil fun d => ?_
    rw [Tables.stats, show ledger.toTables.accounts = genesis.toTables.accounts from
      hagrees.accounts]
    exact hidle d
  | @cons link links hlinked hprev hfresh hP hrange hK ih =>
    have hpath : Linked crypto P (CreditsRight crypto) genesis (link :: links) :=
      .cons hlinked hprev hfresh hP hrange hK
    have hlater := hpath.later hnum
    obtain ⟨producer, missed, hproducer, hproduces⟩ :=
      hprev.produces hideal (hlinked.polled hideal hgenesis) hK
    exact (ih hnum.2 hprev.agrees hkept.2).cons (hprev.grows hK hnum hlater) hlater hproducer
      hproduces hkept.1 hagrees.accounts hpath.after_zero

/-- **The confirmation requirement** stays within its bounds. -/
theorem Linked.confirmations (hideal : Function.Injective crypto.conditionAddress)
    (hgenesis : genesis.toTables.Polled crypto) (hbounded : ConfirmationsBounded genesis)
    (h : Linked crypto P (CreditsRight crypto) genesis links)
    (hagrees : Agrees (ledgerOf crypto genesis links) ledger) : ConfirmationsBounded ledger := by
  have hsame : ledger.toTables.confirmations =
      (ledgerOf crypto genesis links).toTables.confirmations := hagrees.properties _ (by decide)
  rw [ConfirmationsBounded, hsame]
  cases h with
  | nil => exact hbounded
  | cons hlinked hprev _ _ _ hK =>
    obtain ⟨producer, missed, -, hproduces⟩ :=
      hprev.produces hideal (hlinked.polled hideal hgenesis) hK
    obtain ⟨required, -, hnew⟩ := hproduces.confirmations
    refine ⟨_, hnew, ?_, ?_⟩
    · exact le_min (by decide) (le_max_left _ _)
    · exact min_le_left _ _

/-! ### Runs -/

/-- At genesis nobody has produced or missed a block. -/
theorem initializeGenesis_idle (hideal : crypto.IdealAddresses)
    (h : initializeGenesis crypto config = .ok db) (d : ℤ) :
    (db.ledger.toTables.stats d).blocksProduced = 0 ∧
      (db.ledger.toTables.stats d).blocksMissed = 0 := by
  simp only [initializeGenesis, Genesis.genesisLedger, bind_eq_ok, pure_eq_ok] at h
  obtain ⟨ledger, ⟨funded, hfunded, total, -, -, -, rfl⟩, rfl⟩ := h
  obtain ⟨s, hs, hfunded⟩ := Genesis.fundedLedger_counted hideal hfunded
  obtain ⟨assets, properties, htables, -, -⟩ :=
    Genesis.withAssets_toTables config funded total.amount
  dsimp only
  rw [htables, hfunded]
  change (((Table.settle AccountRecord.isNull s.delegates s.ledger.accounts)[d]?).elim {}
    AccountRecord.stats).blocksProduced = 0 ∧ (((Table.settle AccountRecord.isNull s.delegates
      s.ledger.accounts)[d]?).elim {} AccountRecord.stats).blocksMissed = 0
  cases hr : (Table.settle AccountRecord.isNull s.delegates s.ledger.accounts)[d]? with
  | none => exact ⟨rfl, rfl⟩
  | some r =>
    have habove := Table.above_of_settle hr
    rw [Table.getElem?_above, Option.or_eq_some_iff] at habove
    rcases habove with hd | ⟨-, hd⟩
    · exact (hs.delegates d r hd).idle
    · rw [Option.elim_some, AccountRecord.stats, (hs.accounts d r hd).2.2]
      exact ⟨rfl, rfl⟩

theorem initializeGenesis_confirmations (h : initializeGenesis crypto config = .ok db) :
    ConfirmationsBounded db.ledger := by
  simp only [initializeGenesis, Genesis.genesisLedger, bind_eq_ok, pure_eq_ok] at h
  obtain ⟨ledger, ⟨funded, -, total, -, -, -, rfl⟩, rfl⟩ := h
  refine ⟨btsBlockchainNumDelegates * 2, ?_, by decide, by decide⟩
  change (Genesis.withAssets config funded total.amount).properties[_]? = _
  rw [Genesis.withAssets, getElem?_setProperty_same]
  rfl

/-- The run has followed a path, and when that is numbered its production is accounted for. -/
def HasAccounts (crypto : Crypto) (config : GenesisBlockConfig) (P : FullBlock → Prop)
    (K : Database → Event → Prop) (db : Database) : Prop :=
  ConfirmationsBounded db.ledger ∧ ∃ g, initializeGenesis crypto config = .ok g ∧ ∃ links,
    Tracks crypto P K g.ledger db links ∧ (Numbered links → Accounted links db.ledger)

/-- **Production accounting.** In every state of a run that extends the chain only where the
production is credited right, the blocks, the missed blocks, the slots and the confirmation
requirement are as the path says. -/
theorem RunOf.accounted (hids : crypto.IdealIds) (hideal : crypto.IdealAddresses)
    (h : RunOf crypto config P (CreditsRight crypto) db) :
    db.HasAccounts crypto config P (CreditsRight crypto) := by
  obtain ⟨g, hg, links, htracks, hkept⟩ := h.along
    (J := fun db links => SlotsKept links db.ledger.slots) hids (fun _ _ => trivial)
    (fun _ _ hJ => hJ) fun g _ wall db links db' links' htracks hJ hmoves _ => by
      cases hmoves with
      | stay hsame =>
        rw [hsame.ledger]
        exact hJ
      | extend hprev _ _ hledger =>
        rw [hledger]
        exact ⟨fun _ _ _ hr => hr, hprev ▸ hJ⟩
      | pop hundo hledger _ =>
        cases htracks.linked with
        | cons _ hprev _ _ _ _ =>
          rw [hledger]
          exact hJ.2.mono (Link.keepsSlots_undo hprev.wellFormed hundo hJ.1 _)
  have hpolled := initializeGenesis_polled hideal hg
  exact ⟨htracks.linked.confirmations hideal.condition hpolled (initializeGenesis_confirmations hg)
    htracks.agrees, g, hg, links, htracks, fun hnum => htracks.linked.accountedFor hideal.condition
      hpolled (initializeGenesis_idle hideal hg) hnum htracks.agrees hkept⟩

/-! ### A block on the head, and one at time 0 -/

/-- A call that pushes a block onto the head extends the chain by that block only. -/
theorem Push.steps_onHead {wall : ℕ} {b : FullBlock} {db' : Database}
    (h : Push crypto wall b db db') (hb : b.previous = db.headBlockId) (htree : ∀ db, K db .tree)
    (hK : ∀ db₁, SameHead db db₁ → K db₁ (.extend wall b)) : Steps crypto K wall b db db' := by
  have hpush : Outcome (pushBlock crypto wall b) db (fun _ => Steps crypto K wall b db)
      fun _ => Steps crypto K wall b db := by
    rw [pushBlock, Outcome.bind_iff, Outcome.get_iff, Outcome.bind_iff, outcome_lift]
    refine ⟨fun _ _ => ?_, fun _ _ => .refl⟩
    rw [Outcome.bind_iff]
    refine (storeAndIndex_indexes wall b db).mono (fun longest db₁ h₁ => ?_)
      fun _ _ h₁ => .single ⟨.tree, .stored h₁, htree _⟩
    have hsteps : Steps crypto K wall b db db₁ := .single ⟨.tree, .stored h₁, htree _⟩
    rw [Outcome.bind_iff]
    refine (onForks_getBlockForkData _ db₁).mono (fun newForkData db₂ h₂ => ?_)
      fun _ _ h₂ => hsteps.tail ⟨.tree, .marked h₂, htree _⟩
    have hsteps₂ : Steps crypto K wall b db db₂ := hsteps.tail ⟨.tree, .marked h₂, htree _⟩
    have hstored : db₂.blockIdToBlockDataDb[crypto.blockId b.toSignedBlockHeader]? = some b := by
      rw [h₂.rest, h₁.rest]
      exact Table.getElem?_insert_same ..
    have hsame : SameHead db db₂ := by
      rw [h₂.rest, h₁.rest]
      exact ⟨rfl, rfl, rfl⟩
    rw [if_pos hb, Outcome.bind_iff]
    refine .intro (fun _ db₃ h₃ => ?_) fun _ _ h₃ =>
      hsteps₂.tail ⟨_, .extendThrew hstored h₃, hK db₂ hsame⟩
    have hsteps₃ := hsteps₂.tail ⟨_, .extended hstored h₃, hK db₂ hsame⟩
    exact (onForks_getBlockForkData _ db₃).mono
      (fun _ _ h₄ => hsteps₃.tail ⟨.tree, .marked h₄, htree _⟩)
      fun _ _ h₄ => hsteps₃.tail ⟨.tree, .marked h₄, htree _⟩
  cases h with
  | returned r h => exact hpush.of_ok h
  | threw e _ h => exact hpush.of_error h

/-- The chain after a first block. -/
def slatedFirst (timestamp : ℕ) : Database :=
  slatedGenesis.pushed slatedCrypto 100 (slatedGenesis.blockOn 1 timestamp [])

/-- In the genesis state of this instance every key belongs to one delegate. -/
def slatedSignee (timestamp : ℕ) : Bool :=
  (getActiveDelegates ⟨[], slatedGenesis.ledger, 0, 0⟩).toOption.all fun active =>
    (getSlotSignee ⟨[], slatedGenesis.ledger, 0, 0⟩ timestamp active).toOption.all fun expected =>
      (getAccountRecordByAddress ⟨[], slatedGenesis.ledger, 0, 0⟩
        (slatedCrypto.keyAddress expected.activeKey)).all fun r => r.id = expected.id

set_option maxRecDepth 100000 in
/-- The production of the first block at time 20 is accounted for. -/
theorem slatedFirst_accounted : (slatedFirst 20).headBlockNum = 1 ∧
    (slatedFirst 20).HasAccounts slatedCrypto smallConfig (fun _ => True)
      (CreditsRight slatedCrypto) := by
  have hpush : Push slatedCrypto 100 (slatedGenesis.blockOn 1 20 []) slatedGenesis
      (slatedFirst 20) := push_pushed (by decide +kernel)
  have hsignee : slatedSignee 20 = true := by decide +kernel
  have hindexed : slatedGenesis.ledger.IndexesSignee slatedCrypto 20 := by
    intro active expected r hactive hexpected hr
    rw [slatedSignee, hactive] at hsignee
    change (getSlotSignee ⟨[], slatedGenesis.ledger, 0, 0⟩ 20 active).toOption.all _ = true
      at hsignee
    rw [hexpected] at hsignee
    change (getAccountRecordByAddress ⟨[], slatedGenesis.ledger, 0, 0⟩
      (slatedCrypto.keyAddress expected.activeKey)).all _ = true at hsignee
    rw [hr] at hsignee
    exact of_decide_eq_true hsignee
  have hfresh : slatedGenesis.headBlockNum = 0 := by decide +kernel
  have hsteps := hpush.steps_onHead (K := CreditsRight slatedCrypto) rfl (fun _ => trivial)
    fun db₁ hsame => by
      refine ⟨by decide, ?_, fun _ hnum => ?_⟩
      · rw [hsame.ledger]
        exact hindexed
      · rw [headBlockNum, hsame.header] at hnum
        exact absurd hfresh hnum.ne'
  refine ⟨by decide +kernel, RunOf.accounted idealIds_slated idealAddresses_slated ?_⟩
  obtain ⟨g, hg⟩ := exists_eq_ok (x := initializeGenesis slatedCrypto smallConfig)
    (by decide +kernel)
  have hgenesis : slatedGenesis = g := by
    rw [slatedGenesis, hg]
    rfl
  exact .push 100 _ (.genesis (hgenesis ▸ hg)) (by decide +kernel) trivial hpush hsteps

set_option maxRecDepth 100000 in
/-- **A first block at time 0** is accepted, and its slot has no record. -/
theorem slot_zero_unrecorded : Reachable slatedCrypto smallConfig (slatedFirst 0) ∧
    (slatedFirst 0).headBlockNum = 1 ∧
    ∀ P K, ¬(slatedFirst 0).HasAccounts slatedCrypto smallConfig P K := by
  have hnum : (slatedFirst 0).headBlockHeader.blockNum = 1 := by decide +kernel
  refine ⟨reachable_slatedGenesis.pushed (by decide +kernel) (by decide +kernel), hnum, ?_⟩
  rintro P K ⟨-, g, -, links, htracks, haccounted⟩
  have hprevious : (slatedFirst 0).headBlockHeader.previous = 0 := by decide +kernel
  have hhead : (slatedFirst 0).headBlockId ≠ 0 := by decide +kernel
  have htime : (slatedFirst 0).headBlockHeader.timestamp = 0 := by decide +kernel
  have hslot : (slatedFirst 0).ledger.slots[(0 : ℕ)]? = none := by decide +kernel
  cases links with
  | nil => exact hhead htracks.id
  | cons link links =>
    obtain ⟨hheader, -, hparent⟩ := htracks.header_cons
    rw [hheader] at hnum htime
    cases links with
    | cons parent links => exact idealIds_slated.ne_zero _ (hparent.symm.trans hprevious)
    | nil =>
      obtain ⟨d, -, hrecord⟩ := (haccounted ⟨hnum, trivial⟩).recorded link rfl link rfl 0
        (by decide) htime.le (Nat.zero_le _)
      rw [hslot] at hrecord
      cases hrecord

end Database

end LarkX
