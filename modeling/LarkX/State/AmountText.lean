import LarkX.ForMathlib.Digits
import LarkX.State.Tables
import Mathlib.Algebra.Order.Floor.Semifield
import Mathlib.Data.Rat.Floor

/-!
# Amount text

`to_ugly_asset` reads an amount of an asset from decimal text, and `to_pretty_asset` prints one. The
reader scales the digits after the point until they reach the precision, and takes one digit off when
they exceed it: digits that come out equal to the precision stay ten times too large. It takes the
sign from the whole part, so a text between `-1` and `0` loses it. What C++ leaves undefined (`atoll`
out of range, signed overflow) is `none` here.
-/

namespace LarkX

/-! ### The reader and the printer -/

/-- `isspace`. -/
def isSpace (c : Char) : Bool :=
  c == ' ' || (9 ≤ c.toNat && c.toNat ≤ 13)

/-- A result of signed 64-bit arithmetic, undefined out of range. -/
def inInt64 (x : ℤ) : Option ℤ :=
  if IsInt64 x then some x else none

/-- `-n` or `n`. -/
def signed (neg : Bool) (n : ℕ) : ℤ :=
  if neg then -n else n

@[simp] theorem signed_true (n : ℕ) : signed true n = -n := rfl
@[simp] theorem signed_false (n : ℕ) : signed false n = n := rfl

/-- `atoll`: spaces, a sign, and digits. -/
def atoll (cs : List Char) : Option ℤ :=
  match cs.dropWhile isSpace with
  | '-' :: ds => inInt64 (signed true (decimal (ds.takeWhile Char.isDigit)))
  | '+' :: ds => inInt64 (signed false (decimal (ds.takeWhile Char.isDigit)))
  | ds => inInt64 (signed false (decimal (ds.takeWhile Char.isDigit)))

/-- `while( fraction < precision ) fraction *= 10`, for a positive fraction. -/
def scaleUp (precision fraction : ℕ) : Option ℕ :=
  if 0 < fraction ∧ fraction < precision then
    if (fraction * 10 : ℕ) ≤ int64Max then scaleUp precision (fraction * 10) else none
  else some fraction
termination_by precision - fraction
decreasing_by omega

/-- `while( fraction > precision ) fraction /= 10`. -/
def scaleDown (precision fraction : ℕ) : ℕ :=
  if precision < fraction then scaleDown precision (fraction / 10) else fraction
termination_by fraction
decreasing_by omega

/-- The last loop: `fraction /= 10` for each zero in front of the fraction. -/
def scaleZeros : List Char → ℕ → ℕ
  | '0' :: cs, fraction => scaleZeros cs (fraction / 10)
  | _, fraction => fraction

/-- The amount `to_ugly_asset` reads, given the precision of the asset. -/
def toUglyAmount (precision : ℕ) (amount : List Char) : Option ℤ :=
  match amount.dropWhile (· != '.') with
  | [] => (atoll amount).map fun whole => wrap64 (whole * precision)
  | _ :: fractionString => do
    let whole := wrap64 ((← atoll (amount.takeWhile (· != '.'))) * precision)
    let fraction ← atoll fractionString
    if fractionString.isEmpty ∨ fraction ≤ 0 then return whole
    let fraction := scaleZeros fractionString (scaleDown precision (← scaleUp precision fraction.toNat))
    inInt64 (if 0 ≤ whole then whole + fraction else whole - fraction)

/-- `asset_record::get_precision`. -/
def AssetRecord.getPrecision (r : AssetRecord) : ℕ :=
  if r.precision = 0 then 1 else r.precision

namespace Ledger

/-- `get_asset_record( symbol )`. -/
def getAssetRecordBySymbol (db : Ledger) (symbol : Name) : Option AssetRecord :=
  db.symbolIndex[symbol]?.bind fun id => db.assets[id]?

/-- `chain_interface::to_ugly_asset`. -/
def toUglyAsset (db : Ledger) (amount : List Char) (symbol : Name) : Fallible (Option Asset) := do
  let record ← orThrow (db.getAssetRecordBySymbol symbol) (.unknownAssetSymbol symbol)
  return (toUglyAmount record.precision amount).map fun a => ⟨a, record.id⟩

/-- `chain_interface::to_pretty_asset`. `toPrettyString` is `fc::to_pretty_string`. -/
def toPrettyAsset (toPrettyString : ℤ → List Char) (db : Ledger) (a : Asset) :
    Option (List Char) :=
  match db.assets[a.assetId]? with
  | some record => do
    let amount := (← inInt64 (if 0 ≤ a.amount then a.amount else -a.amount)).toNat
    let precision := record.getPrecision
    -- the first digit of the sum is overwritten by the point
    let decimal := '.' :: (Nat.toDigits 10 ((precision + amount % precision) % 2 ^ 64)).tail
    let str := toPrettyString (amount / precision : ℕ) ++ decimal ++ ' ' :: record.symbol
    return if a.amount < 0 then '-' :: str else str
  | none => some (toPrettyString a.amount ++ [' ', '?', '?', '?'])

end Ledger

/-! ### The loops -/

variable {k : ℕ} {f : ℕ}

/-- The first `k + 1` digits of a number, with zeros added to a shorter one. -/
def leadingDigits (k f : ℕ) : ℕ :=
  f * 10 ^ (k - Nat.log 10 f) / 10 ^ (Nat.log 10 f - k)

/-- The first loop scales to `k + 1` digits, if that fits. -/
theorem scaleUp_eq (hf : 0 < f) (hfits : (f : ℤ) ≤ int64Max) : scaleUp (10 ^ k) f =
    if (f * 10 ^ (k - Nat.log 10 f) : ℕ) ≤ int64Max then some (f * 10 ^ (k - Nat.log 10 f))
    else none := by
  induction hd : k - Nat.log 10 f generalizing f with
  | zero =>
    have hge : ¬ f < 10 ^ k := by
      rw [not_lt]
      exact (Nat.pow_le_pow_right (by decide) (Nat.sub_eq_zero_iff_le.1 hd)).trans
        (Nat.pow_log_le_self 10 hf.ne')
    rw [scaleUp, if_neg (fun h => hge h.2), pow_zero, Nat.mul_one, if_pos hfits]
  | succ d ih =>
    have hlt : f < 10 ^ k := by
      calc f < 10 ^ (Nat.log 10 f + 1) := Nat.lt_pow_succ_log_self (by decide) f
        _ ≤ 10 ^ k := Nat.pow_le_pow_right (by decide) (by omega)
    have hlog : Nat.log 10 (f * 10) = Nat.log 10 f + 1 := Nat.log_mul_base (by decide) hf.ne'
    have hpow : f * 10 ^ (d + 1) = f * 10 * 10 ^ d := by rw [pow_succ']; ring
    rw [scaleUp, if_pos ⟨hf, hlt⟩, hpow]
    by_cases hnext : ((f * 10 : ℕ) : ℤ) ≤ int64Max
    · rw [if_pos hnext, ih (by omega) hnext (by omega)]
    · -- an overflow on the way is one at the end
      have hmore : f * 10 ≤ f * 10 * 10 ^ d := Nat.le_mul_of_pos_right _ (pow_pos (by decide) d)
      rw [if_neg hnext, if_neg fun h => hnext (le_trans (by exact_mod_cast hmore) h)]

/-- The second loop leaves the first `k` digits, and takes the first `k + 1` for them if they are a
one and zeros. -/
theorem scaleDown_eq (hf : 10 ^ k ≤ f) : scaleDown (10 ^ k) f =
    if f / 10 ^ (Nat.log 10 f - k) = 10 ^ k then 10 ^ k
    else f / 10 ^ (Nat.log 10 f - k) / 10 := by
  have hpos : f ≠ 0 := (lt_of_lt_of_le (pow_pos (by decide) k) hf).ne'
  have hk : k ≤ Nat.log 10 f := Nat.le_log_of_pow_le (by decide) hf
  induction hd : Nat.log 10 f - k generalizing f with
  | zero =>
    have hlog : Nat.log 10 f = k := by omega
    rw [pow_zero, Nat.div_one]
    by_cases heq : f = 10 ^ k
    · rw [if_pos heq, scaleDown, if_neg (by omega), heq]
    · have hlt : f < 10 ^ k * 10 := by
        rw [← pow_succ, ← hlog]
        exact Nat.lt_pow_succ_log_self (by decide) f
      rw [if_neg heq, scaleDown, if_pos (by omega), scaleDown, if_neg (by omega)]
  | succ d ih =>
    have hle : 10 ^ k ≤ f / 10 := by
      rw [Nat.le_div_iff_mul_le (by decide), ← pow_succ]
      exact (Nat.pow_le_pow_right (by decide) (by omega)).trans (Nat.pow_log_le_self 10 hpos)
    have hlog : Nat.log 10 (f / 10) = Nat.log 10 f - 1 := Nat.log_div_base 10 f
    have hpow : f / 10 ^ (d + 1) = f / 10 / 10 ^ d := by rw [pow_succ', Nat.div_div_eq_div_mul]
    have hpos' : f / 10 ≠ 0 := (lt_of_lt_of_le (pow_pos (by decide) k) hle).ne'
    rw [scaleDown, if_pos (by omega), hpow, ih hle hpos' (by omega) (by omega)]

/-- The scaled number reaches the precision. -/
theorem pow_le_scaled (hf : f ≠ 0) : 10 ^ k ≤ f * 10 ^ (k - Nat.log 10 f) := by
  calc 10 ^ k ≤ 10 ^ (Nat.log 10 f + (k - Nat.log 10 f)) :=
        Nat.pow_le_pow_right (by decide) (by omega)
    _ = 10 ^ Nat.log 10 f * 10 ^ (k - Nat.log 10 f) := pow_add ..
    _ ≤ f * 10 ^ (k - Nat.log 10 f) := Nat.mul_le_mul_right _ (Nat.pow_log_le_self 10 hf)

/-- Both loops together. -/
theorem scaleDown_scaled (hf : 0 < f) : scaleDown (10 ^ k) (f * 10 ^ (k - Nat.log 10 f)) =
    if leadingDigits k f = 10 ^ k then 10 ^ k else leadingDigits k f / 10 := by
  have hlog : Nat.log 10 (f * 10 ^ (k - Nat.log 10 f)) = Nat.log 10 f + (k - Nat.log 10 f) :=
    log_mul_pow_ten hf.ne' _
  rw [scaleDown_eq (pow_le_scaled hf.ne'), hlog, leadingDigits]
  have hsub : Nat.log 10 f + (k - Nat.log 10 f) - k = Nat.log 10 f - k := by omega
  rw [hsub]

theorem scaleZeros_eq (cs : List Char) (f : ℕ) :
    scaleZeros cs f = f / 10 ^ (cs.takeWhile (· == '0')).length := by
  induction cs generalizing f with
  | nil => exact (Nat.div_one f).symm
  | cons c cs ih =>
    by_cases hc : c = '0'
    · rw [hc, scaleZeros, ih, List.takeWhile_cons_of_pos (by decide), List.length_cons, pow_succ',
        Nat.div_div_eq_div_mul]
    · rw [List.takeWhile_cons_of_neg (by simpa using hc), List.length_nil, pow_zero, Nat.div_one]
      unfold scaleZeros
      split
      · next heq => exact absurd (List.cons.inj heq).1 hc
      · rfl

/-! ### What the reader reads -/

/-- A text of an optional minus, digits, and an optional point with digits. -/
def amountText (neg : Bool) (ds : List Char) (point : Option (List Char)) : List Char :=
  (if neg then ['-'] else []) ++ ds ++ point.elim [] ('.' :: ·)

/-- The value of such a text times `10 ^ k`, truncated toward zero. -/
def uglyValue (k : ℕ) (neg : Bool) (ds fs : List Char) : ℤ :=
  signed neg ⌊(decimal ds + (decimal fs : ℚ) / 10 ^ fs.length) * 10 ^ k⌋₊

theorem uglyValue_eq (k : ℕ) (neg : Bool) (ds fs : List Char) : uglyValue k neg ds fs =
    signed neg (decimal ds * 10 ^ k + decimal fs * 10 ^ k / 10 ^ fs.length) := by
  have hsplit : ((decimal ds : ℚ) + (decimal fs : ℚ) / 10 ^ fs.length) * 10 ^ k =
      ((decimal fs * 10 ^ k : ℕ) : ℚ) / ((10 ^ fs.length : ℕ) : ℚ) +
        ((decimal ds * 10 ^ k : ℕ) : ℚ) := by
    push_cast
    ring
  rw [uglyValue, hsplit, Nat.floor_add_natCast (by positivity), Nat.floor_div_eq_div, Nat.add_comm]

variable {neg : Bool} {ds fs : List Char}

theorem not_isSpace_of_isDigit {c : Char} (hc : c.isDigit) : ¬ isSpace c := by
  rw [Char.isDigit, Bool.and_eq_true, decide_eq_true_eq, decide_eq_true_eq] at hc
  have hge : 48 ≤ c.toNat := hc.1
  rw [isSpace, Bool.or_eq_true, Bool.and_eq_true, decide_eq_true_eq, decide_eq_true_eq, beq_iff_eq]
  rintro (rfl | hspace)
  · exact absurd hge (by decide)
  · omega

theorem ne_point_of_isDigit {c : Char} (hc : c.isDigit) : (c != '.') = true := by
  rw [bne_iff_ne]
  rintro rfl
  exact absurd hc (by decide)

/-- `atoll` reads a sign and digits. -/
theorem atoll_signed (neg : Bool) (hds : ∀ c ∈ ds, c.isDigit) :
    atoll ((if neg then ['-'] else []) ++ ds) = inInt64 (signed neg (decimal ds)) := by
  have htake := List.takeWhile_eq_self_iff.2 hds
  cases neg with
  | true =>
    have hspace : (['-'] ++ ds).dropWhile isSpace = '-' :: ds :=
      List.dropWhile_cons_of_neg (by decide)
    rw [if_pos rfl, atoll, hspace]
    exact congrArg (fun es => inInt64 (signed true (decimal es))) htake
  | false =>
    have hspace : ds.dropWhile isSpace = ds := by
      cases ds with
      | nil => rfl
      | cons c ds =>
        exact List.dropWhile_cons_of_neg (not_isSpace_of_isDigit (hds c List.mem_cons_self))
    rw [if_neg Bool.false_ne_true, List.nil_append, atoll, hspace]
    split
    · exact absurd (hds _ List.mem_cons_self) (by decide)
    · exact absurd (hds _ List.mem_cons_self) (by decide)
    · rw [htake]

theorem sign_ne_point (neg : Bool) (hds : ∀ c ∈ ds, c.isDigit) :
    ∀ c ∈ (if neg then ['-'] else []) ++ ds, (c != '.') = true := by
  intro c hc
  rcases List.mem_append.1 hc with hsign | hdigit
  · split_ifs at hsign
    · rw [List.mem_singleton.1 hsign]
      decide
    · cases hsign
  · exact ne_point_of_isDigit (hds c hdigit)

theorem toUglyAmount_whole (precision : ℕ) (neg : Bool) (hds : ∀ c ∈ ds, c.isDigit) :
    toUglyAmount precision (amountText neg ds none) =
      (inInt64 (signed neg (decimal ds))).map fun whole => wrap64 (whole * precision) := by
  have hbefore : (amountText neg ds none).dropWhile (· != '.') = [] := by
    rw [amountText, Option.elim_none, List.append_nil]
    exact List.dropWhile_eq_nil_iff.2 (sign_ne_point neg hds)
  rw [toUglyAmount, hbefore]
  dsimp only
  rw [amountText, Option.elim_none, List.append_nil, atoll_signed neg hds]

theorem toUglyAmount_point (precision : ℕ) (neg : Bool) (hds : ∀ c ∈ ds, c.isDigit)
    (hfs : ∀ c ∈ fs, c.isDigit) : toUglyAmount precision (amountText neg ds (some fs)) = (do
      let whole := wrap64 ((← inInt64 (signed neg (decimal ds))) * precision)
      let fraction ← inInt64 (decimal fs)
      if fs.isEmpty ∨ fraction ≤ 0 then return whole
      let fraction := scaleZeros fs (scaleDown precision (← scaleUp precision fraction.toNat))
      inInt64 (if 0 ≤ whole then whole + fraction else whole - fraction)) := by
  have hbefore := sign_ne_point neg hds
  have hsplit : amountText neg ds (some fs) = ((if neg then ['-'] else []) ++ ds) ++ '.' :: fs := by
    rw [amountText, Option.elim_some]
  have hdrop : (amountText neg ds (some fs)).dropWhile (· != '.') = '.' :: fs := by
    rw [hsplit, List.dropWhile_append_of_pos hbefore]
    exact List.dropWhile_cons_of_neg (by decide)
  have htake : (amountText neg ds (some fs)).takeWhile (· != '.') =
      (if neg then ['-'] else []) ++ ds := by
    rw [hsplit, List.takeWhile_append_of_pos hbefore, List.takeWhile_cons_of_neg (by decide),
      List.append_nil]
  have hfraction := atoll_signed false hfs
  rw [if_neg Bool.false_ne_true, List.nil_append] at hfraction
  rw [toUglyAmount, hdrop]
  dsimp only
  rw [htake, atoll_signed neg hds, hfraction, signed_false]

/-! ### Where the reader is exact -/

/-- The zeros a fraction begins with. -/
def leadingZeros (fs : List Char) : ℕ :=
  (fs.takeWhile (· == '0')).length

/-- The texts that are read exactly: the digits after the point, and these with zeros added up to
`k + 1` digits, fit in 64 bits; if their first `k + 1` are a one and zeros, more than `k` zeros stand
before them; and a negative text has a whole part or a fraction below `10 ^ -k`. -/
structure ReadsAmount (k : ℕ) (neg : Bool) (ds fs : List Char) : Prop where
  digits : decimal fs ≤ int64Max
  scaled : (decimal fs * 10 ^ (k - Nat.log 10 (decimal fs)) : ℕ) ≤ int64Max
  power : leadingDigits k (decimal fs) = 10 ^ k → k < leadingZeros fs
  sign : neg → decimal ds = 0 → decimal fs * 10 ^ k < 10 ^ fs.length

/-- The exact fraction is the first `k` digits, without the zeros in front. -/
theorem fraction_eq (hfs : ∀ c ∈ fs, c.isDigit) (hpos : decimal fs ≠ 0) :
    decimal fs * 10 ^ k / 10 ^ fs.length =
      leadingDigits k (decimal fs) / 10 / 10 ^ leadingZeros fs := by
  rw [length_eq_log hfs hpos, leadingDigits, Nat.div_div_eq_div_mul, Nat.div_div_eq_div_mul]
  generalize decimal fs = f
  rcases le_total k (Nat.log 10 f) with hle | hle
  · rw [Nat.sub_eq_zero_of_le hle, pow_zero, Nat.mul_one]
    have hpow : 10 ^ (leadingZeros fs + (Nat.log 10 f + 1)) =
        10 ^ (Nat.log 10 f - k) * 10 * 10 ^ leadingZeros fs * 10 ^ k := by
      rw [← pow_succ, ← pow_add, ← pow_add]
      congr 1
      omega
    rw [← leadingZeros, hpow, Nat.mul_div_mul_right _ _ (pow_pos (by decide) k), Nat.mul_assoc]
  · rw [Nat.sub_eq_zero_of_le hle, pow_zero, Nat.one_mul]
    have hpow : 10 ^ (leadingZeros fs + (Nat.log 10 f + 1)) =
        10 * 10 ^ leadingZeros fs * 10 ^ Nat.log 10 f := by
      rw [← pow_succ', ← pow_add]
      congr 1
      omega
    have hscale : f * 10 ^ k = f * 10 ^ (k - Nat.log 10 f) * 10 ^ Nat.log 10 f := by
      rw [Nat.mul_assoc, ← pow_add, Nat.sub_add_cancel hle]
    rw [← leadingZeros, hpow, hscale, Nat.mul_div_mul_right _ _ (pow_pos (by decide) _)]

/-- What the loops make of the fraction is the exact fraction, or more where the first digits are a
one and zeros. -/
theorem scaled_eq_iff (hfs : ∀ c ∈ fs, c.isDigit) (hpos : decimal fs ≠ 0) :
    scaleZeros fs (scaleDown (10 ^ k) (decimal fs * 10 ^ (k - Nat.log 10 (decimal fs)))) =
        decimal fs * 10 ^ k / 10 ^ fs.length ↔
      (leadingDigits k (decimal fs) = 10 ^ k → k < leadingZeros fs) := by
  rw [scaleZeros_eq, ← leadingZeros, scaleDown_scaled (Nat.pos_of_ne_zero hpos), fraction_eq hfs hpos]
  by_cases hlead : leadingDigits k (decimal fs) = 10 ^ k
  · rw [if_pos hlead, hlead, imp_iff_right rfl]
    constructor
    · intro heq
      by_contra hle
      -- a positive number is not its own tenth
      have hge : 1 ≤ 10 ^ k / 10 ^ leadingZeros fs :=
        (Nat.one_le_div_iff (pow_pos (by decide) _)).2
          (Nat.pow_le_pow_right (by decide) (not_lt.1 hle))
      rw [Nat.div_div_eq_div_mul, Nat.mul_comm 10, ← Nat.div_div_eq_div_mul] at heq
      omega
    · intro hlt
      have hsmall : 10 ^ k < 10 ^ leadingZeros fs := Nat.pow_lt_pow_right (by decide) hlt
      rw [Nat.div_eq_of_lt hsmall, Nat.div_eq_of_lt ((Nat.div_le_self _ _).trans_lt hsmall)]
  · rw [if_neg hlead]
    exact iff_of_true rfl fun h => absurd h hlead

theorem inInt64_eq_some {x y : ℤ} : inInt64 x = some y ↔ IsInt64 x ∧ x = y := by
  unfold inInt64
  by_cases hx : IsInt64 x
  · rw [if_pos hx, Option.some.injEq, and_iff_right hx]
  · rw [if_neg hx]
    exact ⟨fun h => (nomatch h), fun h => absurd h.1 hx⟩

theorem isInt64_signed_of_le {m n : ℕ} (hle : m ≤ n) (hn : IsInt64 (signed neg n)) :
    IsInt64 (signed neg m) := by
  unfold IsInt64 int64Min int64Max at *
  cases neg with
  | true =>
    rw [signed_true] at *
    omega
  | false =>
    rw [signed_false] at *
    omega

/-- The whole part of a representable value is read exactly. -/
theorem wrap64_whole {w e : ℕ} (hin : IsInt64 (signed neg (w * 10 ^ k + e))) :
    IsInt64 (signed neg w) ∧
      wrap64 (signed neg w * (10 ^ k : ℕ)) = signed neg (w * 10 ^ k) := by
  have hpos : 0 < 10 ^ k := pow_pos (by decide) k
  have hwhole := isInt64_signed_of_le (Nat.le_add_right (w * 10 ^ k) e) hin
  refine ⟨isInt64_signed_of_le (Nat.le_mul_of_pos_right w hpos) hwhole, ?_⟩
  have hmul : signed neg w * (10 ^ k : ℕ) = signed neg (w * 10 ^ k) := by
    cases neg with
    | true =>
      rw [signed_true, signed_true]
      push_cast
      ring
    | false =>
      rw [signed_false, signed_false]
      push_cast
      ring
  rw [hmul, wrap64_eq_self hwhole]

/-- Adding the fraction on the side of the whole part's sign is exact for the exact fraction, except
that a negative text without a whole part loses its sign. -/
theorem add_fraction_iff {w p e v : ℕ} (hp : 0 < p) (hin : IsInt64 (signed neg (w * p + e))) :
    inInt64 (if 0 ≤ signed neg (w * p) then signed neg (w * p) + v else signed neg (w * p) - v) =
        some (signed neg (w * p + e)) ↔ v = e ∧ (neg → w = 0 → e = 0) := by
  have hsum : ∀ x : ℤ, inInt64 x = some (signed neg (w * p + e)) ↔ x = signed neg (w * p + e) := by
    intro x
    rw [inInt64_eq_some]
    exact ⟨And.right, fun h => ⟨h ▸ hin, h⟩⟩
  rw [hsum]
  have hzero : w = 0 ↔ w * p = 0 := by
    rw [Nat.mul_eq_zero, or_iff_left hp.ne']
  rw [hzero]
  generalize w * p = n
  split_ifs with hsign
  · cases neg with
    | false =>
      simp only [signed_false, Bool.false_eq_true, false_imp_iff, and_true]
      omega
    | true =>
      simp only [signed_true, true_imp_iff] at hsign ⊢
      omega
  · cases neg with
    | false =>
      rw [signed_false] at hsign
      omega
    | true =>
      simp only [signed_true, true_imp_iff] at hsign ⊢
      omega

/-- **Where the reader is exact.** A text whose value is representable gives that value times the
precision, truncated toward zero, if and only if it meets `ReadsAmount`. -/
theorem toUglyAmount_eq_iff {point : Option (List Char)} (hds : ∀ c ∈ ds, c.isDigit)
    (hpoint : ∀ c ∈ point.getD [], c.isDigit)
    (hin : IsInt64 (uglyValue k neg ds (point.getD []))) :
    toUglyAmount (10 ^ k) (amountText neg ds point) = some (uglyValue k neg ds (point.getD [])) ↔
      ReadsAmount k neg ds (point.getD []) := by
  have hten : 0 < 10 ^ k := pow_pos (by decide) k
  have hpow : ∀ fs : List Char, 0 < 10 ^ fs.length := fun fs => pow_pos (by decide) _
  rw [uglyValue_eq] at hin ⊢
  obtain ⟨hwhole, hwrap⟩ := wrap64_whole hin
  -- without a fraction only the whole part counts
  have hzero : ∀ fs : List Char, decimal fs = 0 → ReadsAmount k neg ds fs := by
    intro fs hzero
    refine ⟨by rw [hzero]; decide, by rw [hzero, Nat.zero_mul]; decide, fun hlead => ?_,
      fun _ _ => by rw [hzero, Nat.zero_mul]; exact hpow fs⟩
    rw [hzero, leadingDigits, Nat.zero_mul, Nat.zero_div] at hlead
    exact absurd hlead hten.ne
  cases point with
  | none =>
    refine iff_of_true ?_ (hzero [] decimal_nil)
    rw [toUglyAmount_whole _ neg hds, inInt64, if_pos hwhole, Option.map_some, hwrap,
      Option.getD_none, decimal_nil, Nat.zero_mul, Nat.zero_div, Nat.add_zero]
  | some fs =>
    rw [Option.getD_some] at hpoint hin ⊢
    rw [toUglyAmount_point _ neg hds hpoint]
    have hread : inInt64 (signed neg (decimal ds)) = some (signed neg (decimal ds)) := if_pos hwhole
    rw [hread, Option.bind_eq_bind, Option.bind_some, hwrap]
    by_cases hdigits : (decimal fs : ℤ) ≤ int64Max
    · have hfraction : inInt64 (decimal fs : ℤ) = some (decimal fs : ℤ) :=
        if_pos ⟨le_trans (by decide) (Int.natCast_nonneg _), hdigits⟩
      dsimp only
      rw [hfraction, Option.bind_some]
      by_cases hpos : decimal fs = 0
      · rw [if_pos (Or.inr (by rw [hpos]; decide)), hpos, Nat.zero_mul, Nat.zero_div, Nat.add_zero]
        exact iff_of_true rfl (hzero fs hpos)
      · have hne : ¬ (fs.isEmpty ∨ (decimal fs : ℤ) ≤ 0) := by
          rintro (hempty | hle)
          · rw [List.isEmpty_iff.1 hempty] at hpos
            exact hpos decimal_nil
          · omega
        rw [if_neg hne, Int.toNat_natCast, scaleUp_eq (Nat.pos_of_ne_zero hpos) hdigits]
        by_cases hscaled :
            (decimal fs * 10 ^ (k - Nat.log 10 (decimal fs)) : ℕ) ≤ int64Max
        · rw [if_pos hscaled, Option.bind_eq_bind, Option.bind_some, add_fraction_iff hten hin, scaled_eq_iff hpoint hpos,
            Nat.div_eq_zero_iff_lt (hpow fs)]
          exact ⟨fun h => ⟨hdigits, hscaled, h.1, h.2⟩, fun h => ⟨h.power, h.sign⟩⟩
        · rw [if_neg hscaled]
          exact iff_of_false (fun h => nomatch h) fun h => hscaled h.scaled
    · have hfraction : inInt64 (decimal fs : ℤ) = none := if_neg fun h => hdigits h.2
      dsimp only
      rw [hfraction]
      exact iff_of_false (fun h => nomatch h) fun h => hdigits h.digits

/-! ### Printing and reading back -/

/-- The number at the front of a printed amount. -/
def printedNumber (text : List Char) : List Char :=
  text.takeWhile (· != ' ')

theorem printedNumber_amountText (neg : Bool) (hds : ∀ c ∈ ds, c.isDigit) (hfs : ∀ c ∈ fs, c.isDigit)
    (symbol : List Char) :
    printedNumber (amountText neg ds (some fs) ++ ' ' :: symbol) = amountText neg ds (some fs) := by
  have hdigit : ∀ c : Char, c.isDigit → (c != ' ') = true := by
    intro c hc
    rw [bne_iff_ne]
    rintro rfl
    exact absurd hc (by decide)
  have hnumber : ∀ c ∈ amountText neg ds (some fs), (c != ' ') = true := by
    intro c hc
    rw [amountText, Option.elim_some, List.mem_append, List.mem_append, List.mem_cons] at hc
    rcases hc with (hsign | hwhole) | rfl | hfraction
    · split_ifs at hsign
      · rw [List.mem_singleton.1 hsign]
        decide
      · cases hsign
    · exact hdigit c (hds c hwhole)
    · decide
    · exact hdigit c (hfs c hfraction)
  rw [printedNumber, List.takeWhile_append_of_pos hnumber, List.takeWhile_cons_of_neg (by decide),
    List.append_nil]

variable {db : Ledger} {record : AssetRecord} {symbol : Name} {toPrettyString : ℤ → List Char}
  {a : ℤ}

/-- What `to_pretty_asset` prints. -/
theorem toPrettyAsset_eq (hid : db.assets[record.id]? = some record)
    (hprecision : record.precision = 10 ^ k)
    (hwhole : toPrettyString (a.natAbs / 10 ^ k : ℕ) = Nat.toDigits 10 (a.natAbs / 10 ^ k)) :
    db.toPrettyAsset toPrettyString ⟨a, record.id⟩ = if IsInt64 (a.natAbs : ℤ) then
      some (amountText (a < 0) (Nat.toDigits 10 (a.natAbs / 10 ^ k))
        (some (Nat.toDigits 10 ((10 ^ k + a.natAbs % 10 ^ k) % 2 ^ 64)).tail) ++
          ' ' :: record.symbol)
      else none := by
  have habs : (if 0 ≤ a then a else -a) = a.natAbs := by
    split_ifs <;> omega
  have hne : record.precision ≠ 0 := by
    rw [hprecision]
    exact (pow_pos (by decide) k).ne'
  rw [Ledger.toPrettyAsset, hid]
  dsimp only
  rw [habs, inInt64, AssetRecord.getPrecision, if_neg hne, hprecision]
  by_cases hin : IsInt64 (a.natAbs : ℤ)
  · rw [if_pos hin, if_pos hin, Option.bind_eq_bind, Option.bind_some, Int.toNat_natCast, hwhole,
      amountText, Option.elim_some]
    by_cases hneg : a < 0
    · rw [if_pos hneg, if_pos (decide_eq_true hneg)]
      rfl
    · rw [if_neg hneg, if_neg (by rwa [decide_eq_true_eq])]
      rfl
  · rw [if_neg hin, if_neg hin]
    rfl

/-- The printed text denotes the amount. -/
theorem uglyValue_printed (k : ℕ) (a : ℤ) : uglyValue k (a < 0) (Nat.toDigits 10 (a.natAbs / 10 ^ k))
    (padded k (a.natAbs % 10 ^ k)) = a := by
  have hlt : a.natAbs % 10 ^ k < 10 ^ k := Nat.mod_lt _ (pow_pos (by decide) k)
  rw [uglyValue_eq, decimal_toDigits, decimal_padded hlt, length_padded hlt,
    Nat.mul_div_cancel _ (pow_pos (by decide) k), Nat.div_add_mod']
  unfold signed
  split_ifs with hneg
  · rw [decide_eq_true_eq] at hneg
    omega
  · rw [decide_eq_true_eq] at hneg
    omega

/-- A printed amount is read exactly if the fraction is zero, or neither a power of ten nor without a
whole part below zero. -/
theorem readsAmount_printed_iff : ReadsAmount k (a < 0) (Nat.toDigits 10 (a.natAbs / 10 ^ k))
      (padded k (a.natAbs % 10 ^ k)) ↔
    (a.natAbs % 10 ^ k ≠ 0 → ((a.natAbs % 10 ^ k * 10 ^ (k - Nat.log 10 (a.natAbs % 10 ^ k)) : ℕ) : ℤ) ≤
      int64Max ∧ (∀ i, a.natAbs % 10 ^ k ≠ 10 ^ i) ∧ (a < 0 → 10 ^ k ≤ a.natAbs)) := by
  have hten : 0 < 10 ^ k := pow_pos (by decide) k
  have hlt : a.natAbs % 10 ^ k < 10 ^ k := Nat.mod_lt _ hten
  have hvalue := decimal_padded hlt
  have hlength := length_padded hlt
  -- the first digits of a fraction are a one and zeros exactly for a power of ten
  have hpower : a.natAbs % 10 ^ k ≠ 0 →
      ((leadingDigits k (a.natAbs % 10 ^ k) = 10 ^ k → k < leadingZeros (padded k (a.natAbs % 10 ^ k))) ↔
        ∀ i, a.natAbs % 10 ^ k ≠ 10 ^ i) := by
    intro hpos
    have hcount := length_eq_log (fun c hc => isDigit_padded hc) (by rwa [hvalue])
    rw [hvalue, hlength, ← leadingZeros] at hcount
    have hzeros : ¬ k < leadingZeros (padded k (a.natAbs % 10 ^ k)) := by omega
    rw [imp_iff_not hzeros]
    generalize a.natAbs % 10 ^ k = f at hpos hcount
    rw [leadingDigits, Nat.sub_eq_zero_of_le (by omega : Nat.log 10 f ≤ k), pow_zero, Nat.div_one]
    have hsplit : 10 ^ k = 10 ^ Nat.log 10 f * 10 ^ (k - Nat.log 10 f) := by
      rw [← pow_add, Nat.add_sub_cancel' (by omega)]
    constructor
    · rintro hlead i rfl
      refine hlead ?_
      rw [Nat.log_pow (by decide)] at hsplit ⊢
      exact hsplit.symm
    · intro hne hlead
      rw [hsplit] at hlead
      exact hne _ (Nat.eq_of_mul_eq_mul_right (pow_pos (by decide) _) hlead)
  constructor
  · intro h hpos
    have hscaled := h.scaled
    have hlead := h.power
    have hsign := h.sign
    rw [hvalue] at hscaled hlead hsign
    refine ⟨hscaled, (hpower hpos).1 hlead, fun hneg => ?_⟩
    by_contra hsmall
    have hwhole := hsign (decide_eq_true hneg)
      (by rw [decimal_toDigits, Nat.div_eq_of_lt (not_le.1 hsmall)])
    rw [hlength] at hwhole
    exact absurd (Nat.le_mul_of_pos_left (10 ^ k) (Nat.pos_of_ne_zero hpos)) (not_le.2 hwhole)
  · intro h
    by_cases hpos : a.natAbs % 10 ^ k = 0
    · rw [hpos] at hvalue hlength ⊢
      refine ⟨by rw [hvalue]; decide, by rw [hvalue, Nat.zero_mul]; decide, fun hlead => ?_,
        fun _ _ => by rw [hvalue, Nat.zero_mul]; exact pow_pos (by decide) _⟩
      rw [hvalue, leadingDigits, Nat.zero_mul, Nat.zero_div] at hlead
      exact absurd hlead hten.ne
    · obtain ⟨hscaled, hne, hsign⟩ := h hpos
      have hmore := Nat.le_mul_of_pos_right (a.natAbs % 10 ^ k)
        (pow_pos (by decide : 0 < 10) (k - Nat.log 10 (a.natAbs % 10 ^ k)))
      refine ⟨?_, by rw [hvalue]; exact hscaled, by rw [hvalue]; exact (hpower hpos).2 hne,
        fun hneg hwhole => ?_⟩
      · rw [hvalue]
        omega
      · rw [decimal_toDigits] at hwhole
        have hlarge := hsign (of_decide_eq_true hneg)
        exact absurd hwhole (Nat.div_pos hlarge hten).ne'

/-- A precision above the signed range reads only zero from a text without a whole part. -/
theorem toUglyAmount_of_large (hlarge : int64Max < (10 ^ k : ℕ)) (hds : ∀ c ∈ ds, c.isDigit)
    (hfs : ∀ c ∈ fs, c.isDigit) (hzero : decimal ds = 0)
    (h : toUglyAmount (10 ^ k) (amountText neg ds (some fs)) = some a) : a = 0 := by
  have hwhole : inInt64 (signed neg 0) = some 0 := by cases neg <;> rfl
  have hwrap : wrap64 (0 * (10 ^ k : ℕ)) = 0 := by rw [Int.zero_mul]; rfl
  rw [toUglyAmount_point _ neg hds hfs, hzero, hwhole, Option.bind_eq_bind, Option.bind_some,
    hwrap] at h
  dsimp only at h
  by_cases hdigits : IsInt64 (decimal fs : ℤ)
  · rw [inInt64, if_pos hdigits, Option.bind_some] at h
    by_cases hpos : decimal fs = 0
    · rw [if_pos (Or.inr (by rw [hpos]; decide))] at h
      exact (Option.some.inj h).symm
    · -- the first loop overflows before it reaches the precision
      have hover : ¬ ((decimal fs * 10 ^ (k - Nat.log 10 (decimal fs)) : ℕ) : ℤ) ≤ int64Max := by
        have hle := pow_le_scaled (k := k) hpos
        omega
      rw [Int.toNat_natCast, scaleUp_eq (Nat.pos_of_ne_zero hpos) hdigits.2, if_neg hover] at h
      by_cases hempty : fs.isEmpty ∨ (decimal fs : ℤ) ≤ 0
      · rw [if_pos hempty] at h
        exact (Option.some.inj h).symm
      · rw [if_neg hempty] at h
        cases h
  · rw [inInt64, if_neg hdigits] at h
    cases h

/-- **Amount text is exact where the fraction is.** For an asset of precision `10 ^ k`: a text whose
value is representable gives that value times the precision, truncated toward zero, if and only if it
meets `ReadsAmount`; and an amount whose whole part has no separator survives being printed and read
if and only if it can be negated and its fraction is zero, or is not a power of ten, fits with zeros
added up to `k + 1` digits, and in a negative amount follows a whole part. `fc::to_pretty_string`
prints a number without separators as its digits. -/
theorem toUglyAsset_exact_iff (hsymbol : db.getAssetRecordBySymbol symbol = some record)
    (hid : db.assets[record.id]? = some record) (hprecision : record.precision = 10 ^ k)
    (huint64 : record.precision < 2 ^ 64)
    (hpretty : ∀ n : ℕ, ',' ∉ toPrettyString n → toPrettyString n = Nat.toDigits 10 n) :
    (∀ (neg : Bool) (ds : List Char) (point : Option (List Char)), (∀ c ∈ ds, c.isDigit) →
      (∀ c ∈ point.getD [], c.isDigit) → IsInt64 (uglyValue k neg ds (point.getD [])) →
      (db.toUglyAsset (amountText neg ds point) symbol =
          .ok (some ⟨uglyValue k neg ds (point.getD []), record.id⟩) ↔
        ReadsAmount k neg ds (point.getD []))) ∧
    ∀ a : ℤ, IsInt64 a → ',' ∉ toPrettyString (a.natAbs / record.precision : ℕ) →
      ((∃ text, db.toPrettyAsset toPrettyString ⟨a, record.id⟩ = some text ∧
          db.toUglyAsset (printedNumber text) symbol = .ok (some ⟨a, record.id⟩)) ↔
        a ≠ int64Min ∧ (a.natAbs % 10 ^ k ≠ 0 →
          ((a.natAbs % 10 ^ k * 10 ^ (k - Nat.log 10 (a.natAbs % 10 ^ k)) : ℕ) : ℤ) ≤ int64Max ∧
            (∀ i, a.natAbs % 10 ^ k ≠ 10 ^ i) ∧ (a < 0 → 10 ^ k ≤ a.natAbs))) := by
  have hread : ∀ (text : List Char) (x : ℤ), db.toUglyAsset text symbol =
      .ok (some ⟨x, record.id⟩) ↔ toUglyAmount (10 ^ k) text = some x := by
    intro text x
    rw [Ledger.toUglyAsset, hsymbol, orThrow, ok_bind, hprecision, pure_eq_ok, Option.map_eq_some_iff]
    constructor
    · rintro ⟨y, hy, heq⟩
      rw [hy, (Asset.mk.inj heq).1]
    · exact fun h => ⟨x, h, rfl⟩
  refine ⟨fun neg ds point hds hpoint hin => ?_, fun a ha hseparator => ?_⟩
  · rw [hread]
    exact toUglyAmount_eq_iff hds hpoint hin
  · rw [hprecision] at hseparator huint64
    rw [toPrettyAsset_eq hid hprecision (hpretty _ hseparator), ← readsAmount_printed_iff]
    have hdigits : ∀ c ∈ Nat.toDigits 10 (a.natAbs / 10 ^ k), c.isDigit := fun c hc => isDigit_toDigits _ hc
    by_cases hmin : a = int64Min
    · rw [hmin, if_neg (by decide)]
      exact iff_of_false (fun ⟨_, h, _⟩ => nomatch h) fun h => h.1 rfl
    · have habs : IsInt64 (a.natAbs : ℤ) := by
        unfold IsInt64 int64Min int64Max at *
        omega
      have hlt : a.natAbs % 10 ^ k < 10 ^ k := Nat.mod_lt _ (pow_pos (by decide) k)
      rw [if_pos habs, and_iff_right hmin]
      simp only [Option.some.injEq, exists_eq_left', hread]
      rw [printedNumber_amountText _ hdigits
        (fun c hc => isDigit_toDigits _ (List.mem_of_mem_tail hc))]
      by_cases hsum : 10 ^ k + a.natAbs % 10 ^ k < 2 ^ 64
      · have hvalue := uglyValue_printed k a
        have hiff := @toUglyAmount_eq_iff k (a < 0) _
          (some (padded k (a.natAbs % 10 ^ k))) hdigits (fun c hc => isDigit_padded hc)
          (by rw [Option.getD_some, hvalue]; exact ha)
        rw [Option.getD_some, hvalue] at hiff
        rw [Nat.mod_eq_of_lt hsum]
        exact hiff
      · -- only the precision `10 ^ 19` is that large
        have hk19 : 18 < k := by
          by_contra hle
          have hpow := Nat.pow_le_pow_right (n := 10) (by decide) (not_lt.1 hle)
          omega
        have hlarge : int64Max < ((10 ^ k : ℕ) : ℤ) := by
          have hpow := Nat.pow_le_pow_right (n := 10) (by decide) hk19
          have hten : (10 : ℕ) ^ (18 + 1) = 10000000000000000000 := rfl
          unfold int64Max
          omega
        have hfraction : a.natAbs % 10 ^ k ≠ 0 := by omega
        refine iff_of_false (fun h => ?_) fun h => ?_
        · have hwhole : decimal (Nat.toDigits 10 (a.natAbs / 10 ^ k)) = 0 := by
            rw [decimal_toDigits]
            refine Nat.div_eq_of_lt ?_
            have hmax := habs.2
            omega
          have hzero := toUglyAmount_of_large hlarge hdigits
            (fun c hc => isDigit_toDigits _ (List.mem_of_mem_tail hc)) hwhole h
          rw [hzero] at hfraction
          exact hfraction (Nat.zero_mod _)
        · have hscaled := h.scaled
          rw [decimal_padded hlt] at hscaled
          have hle := pow_le_scaled (k := k) hfraction
          omega

/-- A database with one asset, of five decimals. -/
def amountLedger : Ledger :=
  Ledger.storeAssetRecord {} { id := 1, symbol := ['U'], precision := 10 ^ 5 }

/-- Twelve and a quarter is read exactly, and printed and read back. -/
theorem toUglyAsset_exact_quarter :
    amountLedger.toUglyAsset ['1', '2', '.', '2', '5'] ['U'] = .ok (some ⟨1225000, 1⟩) ∧
    ∃ text, amountLedger.toPrettyAsset (fun n => Nat.toDigits 10 n.toNat) ⟨1225000, 1⟩ = some text ∧
      amountLedger.toUglyAsset (printedNumber text) ['U'] = .ok (some ⟨1225000, 1⟩) := by
  have hexact := @toUglyAsset_exact_iff 5 amountLedger
    { id := 1, symbol := ['U'], precision := 10 ^ 5 } ['U']
    (fun n => Nat.toDigits 10 n.toNat) (by decide +kernel) (by decide +kernel) rfl
    (by decide) fun n _ => rfl
  have hvalue : uglyValue 5 false ['1', '2'] ['2', '5'] = 1225000 := by
    rw [uglyValue_eq]
    decide +kernel
  have hwhole : ['1', '2'].all Char.isDigit = true := by decide
  have hfraction : ['2', '5'].all Char.isDigit = true := by decide
  have htext := hexact.1 false ['1', '2'] (some ['2', '5']) (List.all_eq_true.1 hwhole)
    (List.all_eq_true.1 hfraction) (by rw [Option.getD_some, hvalue]; decide)
  rw [Option.getD_some, hvalue] at htext
  refine ⟨htext.2 ⟨by decide +kernel, by decide +kernel, by decide +kernel, fun h => nomatch h⟩,
    (hexact.2 1225000 (by decide) (by decide +kernel)).2 ⟨by decide, fun _ => ⟨by decide +kernel,
      fun i hi => ?_, by decide⟩⟩⟩
  have hlog := congrArg (Nat.log 10) hi
  rw [Nat.log_pow (by decide)] at hlog
  rw [← hlog] at hi
  exact absurd hi (by decide +kernel)

/-- A tenth is read as one, minus a half as a half, and a printed tenth is read back as one. -/
theorem toUglyAsset_exact_tenth :
    amountLedger.toUglyAsset ['0', '.', '1'] ['U'] = .ok (some ⟨100000, 1⟩) ∧
    uglyValue 5 false ['0'] ['1'] = 10000 ∧
    amountLedger.toUglyAsset ['-', '0', '.', '5'] ['U'] = .ok (some ⟨50000, 1⟩) ∧
    uglyValue 5 true ['0'] ['5'] = -50000 ∧
    (amountLedger.toPrettyAsset (fun n => Nat.toDigits 10 n.toNat) ⟨10000, 1⟩).map
      (fun text => amountLedger.toUglyAsset (printedNumber text) ['U']) =
        some (.ok (some ⟨100000, 1⟩)) := by
  refine ⟨by decide +kernel, by rw [uglyValue_eq]; decide +kernel, by decide +kernel,
    by rw [uglyValue_eq]; decide +kernel, by decide +kernel⟩

end LarkX
