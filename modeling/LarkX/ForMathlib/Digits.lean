import Mathlib.Data.List.DropRight
import Mathlib.Data.Nat.Log
import Mathlib.Tactic.Ring

/-!
# Decimal digits

A list of digit characters denotes a number (`decimal`), most significant digit first. The lemmas say
how that number changes when digits are appended, when trailing zeros are dropped, and when a number
is written with a fixed count of digits (`padded`).
-/

namespace LarkX

/-- The number that a list of digits denotes. -/
def decimal (ds : List Char) : ℕ :=
  Nat.ofDigitChars 10 ds 0

@[simp]
theorem decimal_nil : decimal [] = 0 :=
  rfl

/-- A digit is a number below ten. -/
theorem digit_lt {c : Char} (hc : c.isDigit) : c.toNat - '0'.toNat < 10 := by
  have hle : c.toNat ≤ 57 := by
    rw [Char.isDigit, Bool.and_eq_true, decide_eq_true_eq, decide_eq_true_eq] at hc
    exact hc.2
  have hzero : '0'.toNat = 48 := rfl
  omega

theorem ofDigitChars_eq (ds : List Char) (n : ℕ) :
    Nat.ofDigitChars 10 ds n = n * 10 ^ ds.length + decimal ds := by
  rw [Nat.ofDigitChars_eq_ofDigitChars_zero, mul_comm, decimal]

theorem decimal_append (ds es : List Char) :
    decimal (ds ++ es) = decimal ds * 10 ^ es.length + decimal es := by
  rw [decimal, Nat.ofDigitChars_append, ofDigitChars_eq, ← decimal]

theorem decimal_cons (c : Char) (ds : List Char) :
    decimal (c :: ds) = (c.toNat - '0'.toNat) * 10 ^ ds.length + decimal ds := by
  rw [decimal, Nat.ofDigitChars_cons, Nat.mul_zero, Nat.zero_add, ofDigitChars_eq]

/-- Zeros at the end scale the number. -/
theorem decimal_append_zeros (ds : List Char) (n : ℕ) :
    decimal (ds ++ List.replicate n '0') = decimal ds * 10 ^ n := by
  rw [decimal_append, List.length_replicate, decimal, decimal, Nat.ofDigitChars_replicate_zero,
    Nat.mul_zero, Nat.add_zero]

/-- Zeros in front do not count. -/
theorem decimal_zeros_append (ds : List Char) (n : ℕ) :
    decimal (List.replicate n '0' ++ ds) = decimal ds := by
  rw [decimal_append, decimal, Nat.ofDigitChars_replicate_zero, Nat.mul_zero, Nat.zero_mul,
    Nat.zero_add]

theorem decimal_lt {ds : List Char} (hds : ∀ c ∈ ds, c.isDigit) : decimal ds < 10 ^ ds.length := by
  induction ds with
  | nil => exact Nat.one_pos
  | cons c ds ih =>
    have hc := digit_lt (hds c List.mem_cons_self)
    have hrest := ih fun d hd => hds d (List.mem_cons_of_mem c hd)
    calc decimal (c :: ds) = (c.toNat - '0'.toNat) * 10 ^ ds.length + decimal ds := decimal_cons ..
      _ < (c.toNat - '0'.toNat) * 10 ^ ds.length + 10 ^ ds.length := by omega
      _ = (c.toNat - '0'.toNat + 1) * 10 ^ ds.length := by ring
      _ ≤ 10 * 10 ^ ds.length := Nat.mul_le_mul_right _ hc
      _ = 10 ^ (c :: ds).length := by rw [List.length_cons, pow_succ, mul_comm]

/-- The first digits denote no more than all of them. -/
theorem decimal_mono {ds es : List Char} (h : ds <+: es) : decimal ds ≤ decimal es := by
  obtain ⟨rest, rfl⟩ := h
  rw [decimal_append]
  have hpow : 1 ≤ 10 ^ rest.length := Nat.one_le_pow _ _ (by decide)
  calc decimal ds = decimal ds * 1 := (mul_one _).symm
    _ ≤ decimal ds * 10 ^ rest.length := Nat.mul_le_mul_left _ hpow
    _ ≤ decimal ds * 10 ^ rest.length + decimal rest := Nat.le_add_right ..

/-- Digits that begin with one other than zero denote a number of as many digits. -/
theorem log_decimal_cons {c : Char} {ds : List Char} (hds : ∀ d ∈ c :: ds, d.isDigit)
    (hc : c ≠ '0') : Nat.log 10 (decimal (c :: ds)) = ds.length := by
  have hfirst : 1 ≤ c.toNat - '0'.toNat := by
    have hdigit := hds c List.mem_cons_self
    rw [Char.isDigit, Bool.and_eq_true, decide_eq_true_eq, decide_eq_true_eq] at hdigit
    have hzero : '0'.toNat = 48 := rfl
    have hne : c.toNat ≠ '0'.toNat := fun h => hc (Char.toNat_inj.1 h)
    have hle : 48 ≤ c.toNat := hdigit.1
    omega
  refine Nat.log_eq_of_pow_le_of_lt_pow ?_ (decimal_lt hds)
  calc 10 ^ ds.length = 1 * 10 ^ ds.length := (Nat.one_mul _).symm
    _ ≤ (c.toNat - '0'.toNat) * 10 ^ ds.length := Nat.mul_le_mul_right _ hfirst
    _ ≤ decimal (c :: ds) := by rw [decimal_cons]; exact Nat.le_add_right ..

/-- A positive number has as many digits as its text, less the zeros in front. -/
theorem length_eq_log {ds : List Char} (hds : ∀ d ∈ ds, d.isDigit) (hpos : decimal ds ≠ 0) :
    ds.length = (ds.takeWhile (· == '0')).length + (Nat.log 10 (decimal ds) + 1) := by
  have hsplit := List.takeWhile_append_dropWhile (p := (· == '0')) (l := ds)
  have hzeros : ds.takeWhile (· == '0') =
      List.replicate (ds.takeWhile (· == '0')).length '0' := by
    refine List.eq_replicate_of_mem fun c hc => ?_
    have hzero := List.mem_takeWhile_imp (p := (· == '0')) hc
    exact beq_iff_eq.1 hzero
  have hvalue : decimal ds = decimal (ds.dropWhile (· == '0')) := by
    conv_lhs => rw [← hsplit, hzeros, decimal_zeros_append]
  have hlength := congrArg List.length hsplit
  rw [List.length_append] at hlength
  rw [hvalue] at hpos ⊢
  have hhead := List.head?_dropWhile_not (· == '0') ds
  have hrest : ∀ d ∈ ds.dropWhile (· == '0'), d.isDigit :=
    fun d hd => hds d ((List.dropWhile_sublist _).subset hd)
  generalize ds.dropWhile (· == '0') = es at hpos hlength hhead hrest ⊢
  cases es with
  | nil => exact absurd decimal_nil hpos
  | cons c es =>
    have hc : c ≠ '0' := by simpa using hhead
    rw [log_decimal_cons hrest hc, ← hlength, List.length_cons]

/-- Zeros at the end add to the number of digits. -/
theorem log_mul_pow_ten {n : ℕ} (hn : n ≠ 0) (d : ℕ) :
    Nat.log 10 (n * 10 ^ d) = Nat.log 10 n + d := by
  induction d with
  | zero => rw [pow_zero, Nat.mul_one, Nat.add_zero]
  | succ d ih =>
    have hpos : n * 10 ^ d ≠ 0 := Nat.mul_ne_zero hn (pow_pos (by decide) d).ne'
    rw [pow_succ, ← Nat.mul_assoc, Nat.log_mul_base (by decide) hpos, ih, Nat.add_assoc]

/-- Dropped zeros at the end leave a factor. -/
theorem decimal_rdropWhile (ds : List Char) :
    decimal ds = decimal (ds.rdropWhile (· == '0')) *
      10 ^ (ds.length - (ds.rdropWhile (· == '0')).length) := by
  have hsplit := @List.rdropWhile_append_rtakeWhile Char (· == '0') ds
  have hzeros : ds.rtakeWhile (· == '0') =
      List.replicate (ds.rtakeWhile (· == '0')).length '0' := by
    refine List.eq_replicate_of_mem fun c hc => ?_
    have hzero := List.mem_rtakeWhile_imp (p := (· == '0')) hc
    exact beq_iff_eq.1 hzero
  have hlength : ds.length - (ds.rdropWhile (· == '0')).length =
      (ds.rtakeWhile (· == '0')).length := by
    have hsum := congrArg List.length hsplit
    rw [List.length_append] at hsum
    omega
  rw [hlength]
  conv_lhs => rw [← hsplit, hzeros, decimal_append_zeros]

/-! ### Numbers written out -/

theorem isDigit_toDigits (n : ℕ) {c : Char} (hc : c ∈ Nat.toDigits 10 n) : c.isDigit :=
  Nat.isDigit_of_mem_toDigits (by decide) (by decide) hc

@[simp]
theorem decimal_toDigits (n : ℕ) : decimal (Nat.toDigits 10 n) = n :=
  Nat.ofDigitChars_ten_toDigits

/-- The last `k` digits of `n`, zeros included: the digits of `10 ^ k + n` but the first. -/
def padded (k n : ℕ) : List Char :=
  (Nat.toDigits 10 (10 ^ k + n)).tail

variable {k n : ℕ}

/-- With `n` below it, `10 ^ k` contributes the digit in front. -/
theorem toDigits_eq_cons_padded (hn : n < 10 ^ k) :
    Nat.toDigits 10 (10 ^ k + n) = '1' :: padded k n ∧ (padded k n).length = k ∧
      decimal (padded k n) = n := by
  have hlength : (Nat.toDigits 10 (10 ^ k + n)).length = k + 1 := by
    have hle : (Nat.toDigits 10 (10 ^ k + n)).length ≤ k + 1 := by
      rw [Nat.length_toDigits_le_iff (by decide) k.succ_pos, pow_succ]
      omega
    have hlt : ¬ (Nat.toDigits 10 (10 ^ k + n)).length ≤ k := by
      intro hk
      cases k with
      | zero =>
        have hpos := Nat.length_toDigits_pos (b := 10) (n := 10 ^ 0 + n)
        omega
      | succ k => exact absurd ((Nat.length_toDigits_le_iff (by decide) k.succ_pos).1 hk) (by omega)
    omega
  have hvalue := decimal_toDigits (10 ^ k + n)
  have hdigits : ∀ c ∈ Nat.toDigits 10 (10 ^ k + n), c.isDigit := fun c hc => isDigit_toDigits _ hc
  unfold padded
  generalize Nat.toDigits 10 (10 ^ k + n) = ds at hlength hvalue hdigits
  cases ds with
  | nil => simp at hlength
  | cons c ds =>
    have htail : ds.length = k := by simpa using hlength
    have hrest := decimal_lt fun d hd => hdigits d (List.mem_cons_of_mem c hd)
    rw [decimal_cons, htail] at hvalue
    rw [htail] at hrest
    -- the first digit is the quotient by `10 ^ k`, which is one
    have hfirst : c.toNat - '0'.toNat = 1 := by
      have hpos : 0 < 10 ^ k := pow_pos (by decide) k
      refine Nat.le_antisymm (Nat.lt_succ_iff.1 ?_) ?_
      · refine lt_of_mul_lt_mul_right (a := 10 ^ k) ?_ (Nat.zero_le _)
        omega
      · by_contra hzero
        rw [Nat.lt_one_iff.1 (not_le.1 hzero), Nat.zero_mul] at hvalue
        omega
    have hone : c = '1' := by
      have hzero : '0'.toNat = 48 := rfl
      have hnat : c.toNat = '1'.toNat := by
        have : '1'.toNat = 49 := rfl
        omega
      exact Char.toNat_inj.1 hnat
    refine ⟨by rw [hone, List.tail_cons], htail, ?_⟩
    rw [hfirst] at hvalue
    rw [List.tail_cons]
    omega

theorem length_padded (hn : n < 10 ^ k) : (padded k n).length = k :=
  (toDigits_eq_cons_padded hn).2.1

theorem decimal_padded (hn : n < 10 ^ k) : decimal (padded k n) = n :=
  (toDigits_eq_cons_padded hn).2.2

theorem isDigit_padded {c : Char} (hc : c ∈ padded k n) : c.isDigit :=
  isDigit_toDigits _ (List.mem_of_mem_tail hc)

end LarkX
