import LarkX.Chain.Index
import LarkX.Client.Delegate

/-!
# The reply to a synopsis

`get_item_ids` looks for the last entry of the synopsis that is in the chain and replies with the
ids from there on, up to a limit: `rightReply` says which. The id of genesis, zero, counts as
included and has number 0, where the index has no entry. A synopsis whose last included entry is
zero is answered as if there were no blocks, and every other one rightly (`getItemIds_iff`).

A requester that keeps asking, each time with a synopsis that ends in the last id it was given,
gets to the head (`Holds.reaches`).
-/

namespace LarkX

namespace Database

/-! ### The right reply -/

/-- The number at which a reply starts: that of the last entry of the synopsis that is in the
chain, or 1. -/
def startNum (chain synopsis : List BlockId) : ℕ :=
  match synopsis.reverse.find? fun id => decide (id ∈ chain) with
  | some id => chain.idxOf id + 1
  | none => 1

/-- The ids from one number on, up to a limit, and how many are left after the last of them. -/
def idsFrom (chain : List BlockId) (num limit : ℕ) : List BlockId × ℕ :=
  let ids := (chain.drop (num - 1)).take limit
  (ids, chain.length - (num - 1 + ids.length))

/-- The reply to a synopsis. -/
def rightReply (chain synopsis : List BlockId) (limit : ℕ) : List BlockId × ℕ :=
  idsFrom chain (startNum chain synopsis) limit

/-- The last entry of a synopsis that is included. -/
def lastIncluded (db : Database) (synopsis : List BlockId) : Option BlockId :=
  synopsis.reverse.find? db.isIncludedBlock

variable {crypto : Crypto} {db : Database} {chain synopsis : List BlockId} {limit : ℕ}

/-! ### The first loop -/

theorem Holds.getBlockNum (h : Holds crypto db chain) {id : BlockId} (hid : id ∈ chain) :
    db.getBlockNum id = .ok (chain.idxOf id + 1) := by
  have hne : id ≠ 0 := fun hzero => h.nonzero (hzero ▸ hid)
  obtain ⟨b, -, hrecord, -, hnum, -⟩ := h.recorded (chain.idxOf id) id (List.getElem?_idxOf hid)
  rw [Database.getBlockNum, if_neg hne, hrecord, ← hnum]
  rfl

/-- The number the loop finds: that of the last entry that is included, or 1. -/
theorem Holds.lastSeenBlockNum (h : Holds crypto db chain) (l : List BlockId) :
    db.lastSeenBlockNum l = match l.find? db.isIncludedBlock with
      | some id => if id = 0 then 0 else chain.idxOf id + 1
      | none => 1 := by
  induction l with
  | nil => rfl
  | cons id l ih =>
    rw [Database.lastSeenBlockNum, List.find?_cons]
    cases hincluded : db.isIncludedBlock id with
    | false =>
      -- an entry that is not included is skipped, whether its number is known or not
      cases db.getBlockNum id with
      | ok num => exact ih
      | error e => exact ih
    | true =>
      rcases (h.included id).1 hincluded with hzero | hid
      · rw [hzero]
        rfl
      · have hne : id ≠ 0 := fun hzero => h.nonzero (hzero ▸ hid)
        dsimp only
        rw [h.getBlockNum hid, if_neg hne]
        rfl

theorem Holds.nodup (h : Holds crypto db chain) : chain.Nodup := by
  rw [List.nodup_iff_getElem?_ne_getElem?]
  intro i j hlt hj heq
  obtain ⟨b, -, hb, -, hnum, -⟩ := h.recorded i _ (heq.trans (List.getElem?_eq_getElem hj))
  obtain ⟨b', -, hb', -, hnum', -⟩ := h.recorded j _ (List.getElem?_eq_getElem hj)
  rw [hb] at hb'
  have hheader : b.toSignedBlockHeader = b'.toSignedBlockHeader := Option.some.inj hb'
  have hsame : b.blockNum = b'.blockNum :=
    congrArg (fun header : SignedBlockHeader => header.blockNum) hheader
  omega

/-- Where the reply starts when the last included entry is a block. -/
theorem Holds.lastSeen_eq_startNum (h : Holds crypto db chain)
    (hlast : db.lastIncluded synopsis ≠ some 0) :
    db.lastSeenBlockNum synopsis.reverse = startNum chain synopsis := by
  have key : ∀ l : List BlockId, l.find? db.isIncludedBlock ≠ some 0 →
      l.find? db.isIncludedBlock = l.find? fun id => decide (id ∈ chain) := by
    intro l
    induction l with
    | nil => exact fun _ => rfl
    | cons id l ih =>
      intro hne
      rw [List.find?_cons, List.find?_cons] at *
      have hflag := h.included id
      cases hincluded : db.isIncludedBlock id with
      | true =>
        rw [hincluded] at hne
        have hmem : id ∈ chain := (hflag.1 hincluded).resolve_left fun hzero => hne (hzero ▸ rfl)
        rw [decide_eq_true hmem]
      | false =>
        rw [hincluded] at hne
        have hmem : id ∉ chain := fun hmem => by
          rw [hflag.2 (Or.inr hmem)] at hincluded
          cases hincluded
        rw [decide_eq_false hmem]
        exact ih hne
  rw [h.lastSeenBlockNum, startNum, ← key _ hlast]
  cases hfind : synopsis.reverse.find? db.isIncludedBlock with
  | none => rfl
  | some id =>
    have hne : id ≠ 0 := by
      rintro rfl
      exact hlast hfind
    dsimp only
    rw [if_neg hne]

theorem startNum_pos (chain synopsis : List BlockId) : 1 ≤ startNum chain synopsis := by
  unfold startNum
  split <;> omega

theorem startNum_le (hne : chain ≠ []) (synopsis : List BlockId) :
    startNum chain synopsis ≤ chain.length := by
  unfold startNum
  split
  · rename_i id hfind
    have hmem : id ∈ chain := of_decide_eq_true (List.find?_some (p := fun id => decide (id ∈ chain)) hfind)
    exact List.idxOf_lt_length_of_mem hmem
  · exact List.length_pos_of_ne_nil hne

/-! ### The second loop -/

/-- The index gives the ids of the chain. -/
theorem Holds.mapM_getBlockId (h : Holds crypto db chain) {num n : ℕ} (hnum : 1 ≤ num)
    (hn : num - 1 + n ≤ chain.length) : ((List.range n).mapM fun i => db.getBlockId (num + i)) =
      .ok ((chain.drop (num - 1)).take n) := by
  rw [mapM_eq_ok, List.forall₂_iff_get]
  refine ⟨?_, fun i hi hi' => ?_⟩
  · rw [List.length_range, List.length_take, List.length_drop]
    omega
  · have hindex := h.index (num - 1 + i)
    rw [List.get_eq_getElem, List.getElem_range, List.get_eq_getElem, List.getElem_take,
      List.getElem_drop, getBlockId, orThrow_eq_ok, show num + i = num - 1 + i + 1 by omega,
      hindex]
    exact List.getElem?_eq_getElem _

/-- The reply from a number on that is one of the chain. -/
theorem Holds.getItemIds_from (h : Holds crypto db chain) {num : ℕ}
    (hsize : synopsis.length ≤ blockchainSynopsisSizeLimit)
    (hseen : db.lastSeenBlockNum synopsis.reverse = num) (hpos : 1 ≤ num)
    (hle : num ≤ chain.length) :
    db.getItemIds blockMessageType synopsis limit = .ok (idsFrom chain num limit) := by
  have hbound := h.bound
  have hhead : db.headBlockNum = chain.length :=
    (h.head (List.ne_nil_of_length_pos (by omega))).1
  have hremaining : (chain.length + 2 ^ 32 - num + 1) % 2 ^ 32 = chain.length - num + 1 := by
    omega
  have hloop := h.mapM_getBlockId (n := min limit (chain.length - num + 1)) hpos (by omega)
  have htake : (chain.drop (num - 1)).take (min limit (chain.length - num + 1)) =
      (chain.drop (num - 1)).take limit := by
    rw [List.take_eq_take_iff, List.length_drop]
    omega
  rw [getItemIds, require, if_pos rfl, require, if_pos hsize, hhead, hseen]
  simp only [ok_bind]
  rw [if_neg (by omega), if_neg (by omega), hremaining, hloop, htake, idsFrom]
  dsimp only
  rw [List.length_take, List.length_drop]
  refine congrArg (fun left => Except.ok (_, left)) ?_
  omega

/-- The reply to a synopsis whose last included entry is the id of genesis. -/
theorem Holds.getItemIds_zero (h : Holds crypto db chain) (hne : chain ≠ []) (hlimit : 0 < limit)
    (hsize : synopsis.length ≤ blockchainSynopsisSizeLimit)
    (hlast : db.lastIncluded synopsis = some 0) :
    db.getItemIds blockMessageType synopsis limit = .ok ([], 0) := by
  have hbound := h.bound
  have hlength : 0 < chain.length := List.length_pos_of_ne_nil hne
  have hseen : db.lastSeenBlockNum synopsis.reverse = 0 := by
    rw [h.lastSeenBlockNum, show synopsis.reverse.find? db.isIncludedBlock = some 0 from hlast]
    rfl
  rw [getItemIds, require, if_pos rfl, require, if_pos hsize, (h.head hne).1, hseen]
  simp only [ok_bind]
  rw [if_neg (by omega), if_neg (by omega)]
  -- the first number that is looked up is zero
  obtain ⟨n, hn⟩ : ∃ n, min limit ((chain.length + 2 ^ 32 - 0 + 1) % 2 ^ 32) = n + 1 ∨
      (chain.length + 1 = 2 ^ 32 ∧ n = 0) := by
    by_cases hfull : chain.length + 1 = 2 ^ 32
    · exact ⟨0, Or.inr ⟨hfull, rfl⟩⟩
    · exact ⟨min limit ((chain.length + 2 ^ 32 - 0 + 1) % 2 ^ 32) - 1, Or.inl (by omega)⟩
  rcases hn with hn | ⟨hfull, -⟩
  · rw [hn, List.range_succ_eq_map, List.mapM_cons, getBlockId, Nat.zero_add, h.unnumbered]
    rfl
  · rw [show (chain.length + 2 ^ 32 - 0 + 1) % 2 ^ 32 = 0 by omega, Nat.min_zero]
    rfl

/-- **The reply is right** exactly when the last included entry of the synopsis is not the id of
genesis. -/
theorem Holds.getItemIds_iff (h : Holds crypto db chain) (hne : chain ≠ []) (hlimit : 0 < limit)
    (hsize : synopsis.length ≤ blockchainSynopsisSizeLimit) :
    db.getItemIds blockMessageType synopsis limit = .ok (rightReply chain synopsis limit) ↔
      db.lastIncluded synopsis ≠ some 0 := by
  constructor
  · intro hright hlast
    rw [h.getItemIds_zero hne hlimit hsize hlast] at hright
    have hnil : [] = (chain.drop (startNum chain synopsis - 1)).take limit :=
      congrArg Prod.fst (Except.ok.inj hright)
    have hlength := congrArg List.length hnil
    rw [List.length_nil, List.length_take, List.length_drop] at hlength
    have hstart := startNum_le hne synopsis
    have hpos := startNum_pos chain synopsis
    omega
  · intro hlast
    exact h.getItemIds_from hsize (h.lastSeen_eq_startNum hlast) (startNum_pos _ _)
      (startNum_le hne _)

/-! ### A requester that asks on -/

/-- What a requester is given for a synopsis. -/
def replyTo (db : Database) (limit : ℕ) (synopsis : List BlockId) : List BlockId × ℕ :=
  match db.getItemIds blockMessageType synopsis limit with
  | .ok reply => reply
  | .error _ => ([], 0)

/-- Each synopsis after the first ends in the last id of the reply before, and is not too
long. -/
def AsksOn (db : Database) (limit : ℕ) (synopses : ℕ → List BlockId) : Prop :=
  ∀ k, (synopses (k + 1)).length ≤ blockchainSynopsisSizeLimit ∧
    (synopses (k + 1)).getLast? = (db.replyTo limit (synopses k)).1.getLast?

/-- After `n` more replies the requester has the ids of the chain from a number on: each reply
starts with the last id of the one before and has no other id in common with it, and nothing is
left after the last one. -/
structure Reaches (db : Database) (chain : List BlockId) (limit : ℕ)
    (synopses : ℕ → List BlockId) (num n : ℕ) : Prop where
  left : (db.replyTo limit (synopses n)).2 = 0
  head : (db.replyTo limit (synopses n)).1.getLast? = chain.getLast?
  joins : ∀ k < n, ∃ id, (db.replyTo limit (synopses k)).1.getLast? = some id ∧
    (db.replyTo limit (synopses (k + 1))).1.head? = some id ∧
    ∀ id' ∈ (db.replyTo limit (synopses k)).1,
      id' ∈ (db.replyTo limit (synopses (k + 1))).1 → id' = id
  given : (db.replyTo limit (synopses 0)).1 ++
    ((List.range n).map fun k => (db.replyTo limit (synopses (k + 1))).1.tail).flatten =
      chain.drop (num - 1)

/-- The reply to a synopsis that ends in a block of the chain. -/
theorem Holds.replyTo_ending (h : Holds crypto db chain) {id : BlockId} (hid : id ∈ chain)
    (hsize : synopsis.length ≤ blockchainSynopsisSizeLimit)
    (hlast : synopsis.getLast? = some id) :
    db.replyTo limit synopsis = idsFrom chain (chain.idxOf id + 1) limit := by
  have hne : id ≠ 0 := fun hzero => h.nonzero (hzero ▸ hid)
  have hhead : synopsis.reverse.head? = some id := by rw [List.head?_reverse, hlast]
  have hfind : synopsis.reverse.find? db.isIncludedBlock = some id := by
    cases hrev : synopsis.reverse with
    | nil =>
      rw [hrev] at hhead
      cases hhead
    | cons first rest =>
      rw [hrev] at hhead
      cases hhead
      rw [List.find?_cons, (h.included id).2 (Or.inr hid)]
  have hseen : db.lastSeenBlockNum synopsis.reverse = chain.idxOf id + 1 := by
    rw [h.lastSeenBlockNum, hfind]
    exact if_neg hne
  have hlt := List.idxOf_lt_length_of_mem hid
  rw [replyTo, h.getItemIds_from hsize hseen (by omega) (by omega)]

/-- **A requester reaches the head**, from any reply that is part of the chain. -/
theorem Holds.reaches (h : Holds crypto db chain) (hlimit : 2 ≤ limit) {num : ℕ} (hpos : 1 ≤ num)
    (hle : num ≤ chain.length) {synopses : ℕ → List BlockId} (hasks : db.AsksOn limit synopses)
    (hfirst : db.replyTo limit (synopses 0) = idsFrom chain num limit) :
    ∃ n, db.Reaches chain limit synopses num n := by
  -- by induction on how far the reply is from the head
  induction hleft : chain.length - num using Nat.strong_induction_on generalizing num synopses with
  | _ left ih =>
  subst hleft
  by_cases hend : chain.length ≤ num - 1 + limit
  · have htake : (chain.drop (num - 1)).take limit = chain.drop (num - 1) :=
      List.take_of_length_le (by rw [List.length_drop]; omega)
    refine ⟨0, ?_, ?_, fun k hk => absurd hk (Nat.not_lt_zero k), ?_⟩
    · rw [hfirst, idsFrom, htake]
      dsimp only
      rw [List.length_drop]
      omega
    · rw [hfirst, idsFrom, htake, List.getLast?_drop, if_neg (by omega)]
    · rw [hfirst, idsFrom, htake]
      exact List.append_nil _
  · -- the next reply starts with the last id of this one
    have hlt : num - 1 + limit - 1 < chain.length := by omega
    have hlast : (db.replyTo limit (synopses 0)).1.getLast? = some chain[num - 1 + limit - 1] := by
      rw [hfirst, idsFrom, List.getLast?_eq_getElem?, List.length_take, List.length_drop,
        List.getElem?_take_of_lt (by omega), List.getElem?_drop, List.getElem?_eq_getElem (by omega)]
      congr 2
      omega
    have hindex : chain.idxOf chain[num - 1 + limit - 1] = num - 1 + limit - 1 :=
      h.nodup.idxOf_getElem _ _
    have hnext : db.replyTo limit (synopses 1) = idsFrom chain (num + limit - 1) limit := by
      rw [h.replyTo_ending (List.getElem_mem hlt) (hasks 0).1 ((hasks 0).2.trans hlast), hindex]
      congr 1
      omega
    have hasks' : db.AsksOn limit fun k => synopses (k + 1) := fun k => hasks (k + 1)
    obtain ⟨n, hreaches⟩ := ih (chain.length - (num + limit - 1)) (by omega) (by omega) (by omega)
      hasks' hnext rfl
    have hdrop : chain.drop (num + limit - 1 - 1) =
        chain[num - 1 + limit - 1] :: chain.drop (num - 1 + limit) := by
      rw [show num + limit - 1 - 1 = num - 1 + limit - 1 by omega, List.drop_eq_getElem_cons hlt]
      congr 2
      omega
    have hcons : (db.replyTo limit (synopses 1)).1 =
        chain[num - 1 + limit - 1] :: (chain.drop (num - 1 + limit)).take (limit - 1) := by
      rw [hnext, idsFrom, hdrop]
      obtain ⟨m, rfl⟩ : ∃ m, limit = m + 1 := ⟨limit - 1, by omega⟩
      exact List.take_succ_cons
    refine ⟨n + 1, hreaches.left, hreaches.head, fun k hk => ?_, ?_⟩
    · cases k with
      | succ k => exact hreaches.joins k (by omega)
      | zero =>
        refine ⟨_, hlast, ?_, fun id' hid hid' => ?_⟩
        · rw [Nat.zero_add, hcons]
          rfl
        · -- what is after the last id is not before it
          rw [Nat.zero_add, hcons] at hid'
          rcases List.mem_cons.1 hid' with hid' | hid'
          · exact hid'
          · rw [hfirst] at hid
            have hnodup : (chain.drop (num - 1)).Nodup := List.Pairwise.drop h.nodup
            have hdisjoint := List.disjoint_take_drop hnodup (Nat.le_refl limit)
            rw [List.drop_drop] at hdisjoint
            exact (hdisjoint hid (List.mem_of_mem_take hid')).elim
    · have hgiven := hreaches.given
      rw [Nat.zero_add, hcons, hdrop, List.cons_append, List.cons.injEq] at hgiven
      rw [List.range_succ_eq_map, List.map_cons, List.flatten_cons, hfirst, idsFrom, List.map_map]
      have hrest : (db.replyTo limit (synopses (0 + 1))).1.tail ++
          ((List.range n).map ((fun k => (db.replyTo limit (synopses (k + 1))).1.tail) ∘
            Nat.succ)).flatten = chain.drop (num - 1 + limit) := by
        rw [Nat.zero_add, hcons]
        exact hgiven.2
      rw [hrest, ← List.drop_drop]
      exact List.take_append_drop limit _

/-- A chain is served to a requester: the first reply is right, and one that asks on for at least
two ids at a time reaches the head. -/
structure Serves (db : Database) (chain : List BlockId) (limit : ℕ)
    (synopses : ℕ → List BlockId) : Prop where
  first : db.getItemIds blockMessageType (synopses 0) limit =
    .ok (rightReply chain (synopses 0) limit)
  reaches : 2 ≤ limit → db.AsksOn limit synopses →
    ∃ n, db.Reaches chain limit synopses (startNum chain (synopses 0)) n

theorem Holds.replies_iff (h : Holds crypto db chain) (hne : chain ≠ []) (hlimit : 0 < limit)
    {synopses : ℕ → List BlockId} (hsize : (synopses 0).length ≤ blockchainSynopsisSizeLimit) :
    db.Serves chain limit synopses ↔ db.lastIncluded (synopses 0) ≠ some 0 := by
  constructor
  · intro hserves
    exact (h.getItemIds_iff hne hlimit hsize).1 hserves.first
  · intro hlast
    have hfirst := (h.getItemIds_iff hne hlimit hsize).2 hlast
    refine ⟨hfirst, fun htwo hasks => ?_⟩
    refine h.reaches htwo (startNum_pos _ _) (startNum_le hne _) hasks ?_
    rw [replyTo, hfirst, rightReply]

/-- **The reply to a synopsis**: every state of a run that keeps the index holds a chain, and
serves it to a requester exactly when the last included entry of its first synopsis is not the id
of genesis. -/
theorem RunOf.serves_iff {config : GenesisBlockConfig} {P : FullBlock → Prop}
    (hids : crypto.IdealIds) (h : RunOf crypto config P IndexKept db) :
    ∃ chain, Holds crypto db chain ∧ (chain ≠ [] → ∀ limit, 0 < limit →
      ∀ synopses : ℕ → List BlockId, (synopses 0).length ≤ blockchainSynopsisSizeLimit →
        (db.Serves chain limit synopses ↔ db.lastIncluded (synopses 0) ≠ some 0)) := by
  obtain ⟨chain, hchain⟩ := h.holds hids
  exact ⟨chain, hchain, fun hne _ hlimit _ hsize => hchain.replies_iff hne hlimit hsize⟩

/-! ### The id of genesis in a synopsis -/

set_option maxRecDepth 100000 in
theorem runOf_smallFirst : RunOf .transparent smallConfig (fun _ => True) IndexKept smallFirst := by
  have hpush : Push .transparent 100 (smallGenesis.blockOn 1 20 []) smallGenesis smallFirst :=
    push_pushed (by decide +kernel)
  have hkept : FirstIsOne (smallGenesis.blockOn 1 20 []) := by decide +kernel
  have hhead : (smallGenesis.blockOn 1 20 []).previous = smallGenesis.headBlockId := by
    decide +kernel
  have hsteps : Outcome (Action.pushBlock .transparent 100 (smallGenesis.blockOn 1 20 []))
      smallGenesis
      (fun _ => Action.Steps .transparent IndexKept 100 (smallGenesis.blockOn 1 20 []) smallGenesis)
      (fun _ => Action.Steps .transparent IndexKept 100 (smallGenesis.blockOn 1 20 [])
        smallGenesis) := steps_on_head (fun _ => trivial) (fun _ => hkept) hhead
  refine .push 100 _ (.genesis initialize_smallGenesis) (by decide +kernel) trivial hpush ?_
  cases hpush with
  | returned r hrun => exact hsteps.of_ok hrun
  | threw e _ hrun => exact hsteps.of_error hrun

set_option maxRecDepth 100000 in
theorem holds_smallFirst : Holds .transparent smallFirst [smallFirst.headBlockId] := by
  obtain ⟨chain, hchain⟩ := runOf_smallFirst.holds idealIds_transparent
  have hindex := hchain.index
  have hfirst : smallFirst.blockNumToIdDb[1]? = some smallFirst.headBlockId := by decide +kernel
  have hsecond : smallFirst.blockNumToIdDb[2]? = none := by decide +kernel
  cases chain with
  | nil =>
    rw [hindex 0] at hfirst
    cases hfirst
  | cons id rest =>
    cases rest with
    | cons id' rest =>
      rw [hindex 1] at hsecond
      cases hsecond
    | nil =>
      rw [hindex 0] at hfirst
      cases hfirst
      exact hchain

set_option maxRecDepth 100000 in
theorem serves_smallFirst : ∃ chain, Holds .transparent smallFirst chain ∧
    smallFirst.Serves chain 2000 fun _ => [] := by
  obtain ⟨chain, hchain, hserves⟩ := RunOf.serves_iff idealIds_transparent runOf_smallFirst
  have hne : chain ≠ [] := by
    rintro rfl
    have hnone := hchain.index 0
    rw [show smallFirst.blockNumToIdDb[0 + 1]? = some smallFirst.headBlockId by decide +kernel]
      at hnone
    cases hnone
  refine ⟨chain, hchain, (hserves hne 2000 (by decide) (fun _ => []) (by decide)).2 ?_⟩
  decide +kernel

set_option maxRecDepth 100000 in
/-- The id of genesis is answered as if there were no blocks. The reply should be the id of the
only block. -/
theorem genesis_id_unanswered : Reachable .transparent smallConfig smallFirst ∧
    Holds .transparent smallFirst [smallFirst.headBlockId] ∧
    smallFirst.getItemIds blockMessageType [0] 2000 = .ok ([], 0) ∧
    rightReply [smallFirst.headBlockId] [0] 2000 = ([smallFirst.headBlockId], 0) :=
  ⟨runOf_smallFirst.reachable, holds_smallFirst, by decide +kernel, by decide +kernel⟩

end Database

end LarkX
