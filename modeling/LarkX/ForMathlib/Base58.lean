import Mathlib.Data.List.GetD
import Mathlib.Data.List.Nodup
import Mathlib.Data.List.TakeWhile
import Mathlib.Data.Nat.Digits.Lemmas

/-!
# Base 58

A list of digits, most significant first, is rewritten from one base to another (`changeBase`).
Zeros in front carry no value; they are kept, one for one, so that nothing is lost and the way back
(`changeBase_changeBase`) gives the same list.

`Base58` is a bijection between byte strings and the texts that it accepts; `Base58.standard` is the
usual one.
-/

namespace LarkX

variable {b c : ℕ} {l : List ℕ}

/-- The digits in base `c` of a number given by its digits in base `b`, with as many zeros in
front. -/
def changeBase (b c : ℕ) (l : List ℕ) : List ℕ :=
  List.replicate (l.takeWhile (· == 0)).length 0 ++ (Nat.digits c (Nat.ofDigits b l.reverse)).reverse

/-- A list of digits is zeros and then a list without a zero in front. -/
theorem exists_zeros_append (l : List ℕ) : ∃ k m, l = List.replicate k 0 ++ m ∧ m.head? ≠ some 0 := by
  induction l with
  | nil => exact ⟨0, [], rfl, nofun⟩
  | cons d l ih =>
    obtain ⟨k, m, rfl, hm⟩ := ih
    by_cases hd : d = 0
    · exact ⟨k + 1, m, by rw [hd, List.replicate_succ, List.cons_append], hm⟩
    · exact ⟨0, d :: (List.replicate k 0 ++ m), rfl, fun h => hd (Option.some.inj h)⟩

theorem changeBase_zeros_append {k : ℕ} {m : List ℕ} (hm : m.head? ≠ some 0) :
    changeBase b c (List.replicate k 0 ++ m) =
      List.replicate k 0 ++ (Nat.digits c (Nat.ofDigits b m.reverse)).reverse := by
  have hzeros : (List.replicate k 0 ++ m).takeWhile (· == 0) = List.replicate k 0 := by
    rw [List.takeWhile_append_of_pos fun d hd => beq_iff_eq.2 (List.eq_of_mem_replicate hd)]
    cases m with
    | nil => rw [List.takeWhile_nil, List.append_nil]
    | cons d m =>
      have hd : (d == 0) = false := beq_eq_false_iff_ne.2 fun h => hm (congrArg some h)
      rw [List.takeWhile_cons, hd, if_neg Bool.false_ne_true, List.append_nil]
  rw [changeBase, hzeros, List.length_replicate, List.reverse_append, List.reverse_replicate,
    Nat.ofDigits_append_replicate_zero]

theorem changeBase_zeros (k : ℕ) : changeBase b c (List.replicate k 0) = List.replicate k 0 := by
  have hzeros := @changeBase_zeros_append b c k [] nofun
  rwa [List.append_nil, List.reverse_nil, Nat.ofDigits_nil, Nat.digits_zero, List.reverse_nil,
    List.append_nil] at hzeros

/-- The number has no zero in front. -/
theorem head?_reverse_digits (c n : ℕ) : (Nat.digits c n).reverse.head? ≠ some 0 := by
  rw [List.head?_reverse]
  by_cases hn : n = 0
  · rw [hn, Nat.digits_zero]
    nofun
  · rw [List.getLast?_eq_some_getLast (Nat.digits_ne_nil_iff_ne_zero.2 hn)]
    exact fun h => Nat.getLast_digit_ne_zero c hn (Option.some.inj h)

theorem changeBase_lt (hc : 1 < c) {d : ℕ} (hd : d ∈ changeBase b c l) : d < c := by
  rcases List.mem_append.1 hd with hd | hd
  · rw [List.eq_of_mem_replicate hd]
    exact Nat.zero_lt_of_lt hc
  · exact Nat.digits_lt_base hc (List.mem_reverse.1 hd)

/-- **Changing the base and back** gives the same digits. -/
theorem changeBase_changeBase (hb : 1 < b) (hl : ∀ d ∈ l, d < b) :
    changeBase c b (changeBase b c l) = l := by
  obtain ⟨k, m, rfl, hm⟩ := exists_zeros_append l
  rw [changeBase_zeros_append hm, changeBase_zeros_append (head?_reverse_digits c _),
    List.reverse_reverse, Nat.ofDigits_digits, Nat.digits_ofDigits b hb m.reverse,
    List.reverse_reverse]
  · exact fun d hd => hl d (List.mem_append_right _ (List.mem_reverse.1 hd))
  · intro hne hlast
    rw [List.getLast_reverse] at hlast
    rw [List.head?_eq_some_head (List.reverse_ne_nil_iff.1 hne), hlast] at hm
    exact hm rfl

/-- An encoding of byte strings as texts that loses nothing: the texts it accepts are those it
writes. -/
structure Base58 where
  encode : List UInt8 → List Char
  decode : List Char → Option (List UInt8)
  decode_encode : ∀ v, decode (encode v) = some v
  encode_of_decode : ∀ {s v}, decode s = some v → encode v = s
  decode_nil : decode [] = some []

namespace Base58

/-- The digits of base 58: no `0`, `I`, `O` and `l`. -/
def alphabet : List Char :=
  "123456789ABCDEFGHJKLMNPQRSTUVWXYZabcdefghijkmnopqrstuvwxyz".toList

/-- The usual encoding. -/
def toText (v : List UInt8) : List Char :=
  (changeBase 256 58 (v.map UInt8.toNat)).map (alphabet.getD · '1')

/-- The usual decoding; a text with any other character is refused. -/
def ofText (s : List Char) : Option (List UInt8) :=
  if s.all fun c => decide (c ∈ alphabet) then
    some ((changeBase 58 256 (s.map (alphabet.idxOf ·))).map UInt8.ofNat)
  else none

theorem idxOf_getD {d : ℕ} (hd : d < 58) : alphabet.idxOf (alphabet.getD d '1') = d := by
  have hlen : d < alphabet.length := hd
  have hnodup : alphabet.Nodup := by decide
  rw [List.getD_eq_getElem _ _ hlen, hnodup.idxOf_getElem]

theorem getD_mem (d : ℕ) : alphabet.getD d '1' ∈ alphabet := by
  by_cases hd : d < alphabet.length
  · rw [List.getD_eq_getElem _ _ hd]
    exact List.getElem_mem hd
  · rw [List.getD_eq_default _ _ (not_lt.1 hd)]
    decide

theorem getD_idxOf {c : Char} (hc : c ∈ alphabet) : alphabet.getD (alphabet.idxOf c) '1' = c := by
  have hlt := List.idxOf_lt_length_of_mem hc
  rw [List.getD_eq_getElem _ _ hlt, List.getElem_idxOf]

theorem all_alphabet_iff {s : List Char} :
    (s.all fun c => decide (c ∈ alphabet)) = true ↔ ∀ c ∈ s, c ∈ alphabet := by
  simp only [List.all_eq_true, decide_eq_true_eq]

theorem ofText_toText (v : List UInt8) : ofText (toText v) = some v := by
  have hmem : ∀ c ∈ toText v, c ∈ alphabet := by
    intro c hc
    obtain ⟨d, -, rfl⟩ := List.mem_map.1 hc
    exact getD_mem d
  have hdigits : (toText v).map (alphabet.idxOf ·) = changeBase 256 58 (v.map UInt8.toNat) := by
    rw [toText, List.map_map]
    refine (List.map_congr_left fun d hd => ?_).trans (List.map_id _)
    exact idxOf_getD (changeBase_lt (by decide) hd)
  have hbytes : ∀ d ∈ v.map UInt8.toNat, d < 256 := by
    intro d hd
    obtain ⟨x, -, rfl⟩ := List.mem_map.1 hd
    exact x.toNat_lt
  rw [ofText, if_pos (all_alphabet_iff.2 hmem), hdigits,
    changeBase_changeBase (by decide) hbytes, List.map_map]
  refine congrArg some ((List.map_congr_left fun x _ => ?_).trans (List.map_id v))
  exact UInt8.ofNat_toNat

theorem toText_of_ofText {s : List Char} {v : List UInt8} (h : ofText s = some v) :
    toText v = s := by
  unfold ofText at h
  split at h
  · rename_i hmem
    cases h
    have hdigits : ∀ d ∈ s.map (alphabet.idxOf ·), d < 58 := by
      intro d hd
      obtain ⟨c, hc, rfl⟩ := List.mem_map.1 hd
      exact List.idxOf_lt_length_of_mem (all_alphabet_iff.1 hmem c hc)
    have hbytes : ((changeBase 58 256 (s.map (alphabet.idxOf ·))).map UInt8.ofNat).map
        UInt8.toNat = changeBase 58 256 (s.map (alphabet.idxOf ·)) := by
      rw [List.map_map]
      refine (List.map_congr_left fun d hd => ?_).trans (List.map_id _)
      exact UInt8.toNat_ofNat_of_lt' (changeBase_lt (by decide) hd)
    rw [toText, hbytes, changeBase_changeBase (by decide) hdigits, List.map_map]
    exact (List.map_congr_left fun c hc => getD_idxOf (all_alphabet_iff.1 hmem c hc)).trans
      (List.map_id s)
  · cases h

/-- A text of ones stands for zeros. -/
theorem ofText_ones (n : ℕ) : ofText (List.replicate n '1') = some (List.replicate n 0) := by
  have hmem : ∀ c ∈ List.replicate n '1', c ∈ alphabet := by
    intro c hc
    rw [List.eq_of_mem_replicate hc]
    decide
  have hfirst : alphabet.idxOf '1' = 0 := rfl
  rw [ofText, if_pos (all_alphabet_iff.2 hmem), List.map_replicate, hfirst, changeBase_zeros,
    List.map_replicate]
  rfl

/-- The usual encoding. -/
def standard : Base58 where
  encode := toText
  decode := ofText
  decode_encode := ofText_toText
  encode_of_decode := toText_of_ofText
  decode_nil := ofText_ones 0

end Base58

end LarkX
