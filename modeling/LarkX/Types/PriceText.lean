import LarkX.ForMathlib.Digits
import LarkX.Types.Records
import Mathlib.Algebra.Order.Floor.Semifield
import Mathlib.Data.Rat.Floor

/-!
# Price text

`set_ratio_from_string` reads a ratio from decimal text, and `ratio_string` writes one. The reader
keeps the digits before the point in 64 bits, and the digits after it, with their power of ten, in 63.
Its result is the value of the text times the price precision where those suffice
(`setRatioFromString_eq`), and where they do not it wraps or divides by zero
(`setRatioFromString_exact_iff`).
-/

namespace LarkX

variable {cs : List Char} {r : ℕ}

/-! ### The parts of a text -/

/-- The digits before the point. -/
def wholeDigits (cs : List Char) : List Char :=
  cs.takeWhile Char.isDigit

/-- The digits after the point, if a point follows the first digits. -/
def fractionDigits (cs : List Char) : List Char :=
  match cs.dropWhile Char.isDigit with
  | '.' :: rest => rest.takeWhile Char.isDigit
  | _ => []

/-- What `set_ratio_from_string` leaves of the text: it returns the position where this begins. -/
def unreadText (cs : List Char) : List Char :=
  match cs.dropWhile Char.isDigit with
  | '.' :: rest => rest.dropWhile Char.isDigit
  | rest => rest

/-- The number a text denotes. -/
def textValue (cs : List Char) : ℚ :=
  decimal (wholeDigits cs) + (decimal (fractionDigits cs) : ℚ) / 10 ^ (fractionDigits cs).length

theorem isDigit_of_mem_takeWhile {c : Char} (h : c ∈ cs.takeWhile Char.isDigit) : c.isDigit :=
  List.mem_takeWhile_imp h

theorem fractionDigits_of_point {rest : List Char} (h : cs.dropWhile Char.isDigit = '.' :: rest) :
    fractionDigits cs = rest.takeWhile Char.isDigit := by
  unfold fractionDigits
  split
  · next rest' hrest =>
    rw [h, List.cons.injEq] at hrest
    rw [hrest.2]
  · next hnone => exact (hnone rest h).elim

theorem fractionDigits_of_no_point
    (h : ∀ rest, cs.dropWhile Char.isDigit = '.' :: rest → False) : fractionDigits cs = [] := by
  unfold fractionDigits
  split
  · next rest hrest => exact (h rest hrest).elim
  · rfl

theorem isDigit_fractionDigits {c : Char} (h : c ∈ fractionDigits cs) : c.isDigit := by
  unfold fractionDigits at h
  split at h
  · exact isDigit_of_mem_takeWhile h
  · cases h

theorem takeWhile_isDigit {ds rest : List Char} (hds : ∀ c ∈ ds, c.isDigit)
    (hrest : ∀ c ∈ rest.head?, ¬ c.isDigit) :
    (ds ++ rest).takeWhile Char.isDigit = ds ∧ (ds ++ rest).dropWhile Char.isDigit = rest := by
  rw [List.takeWhile_append_of_pos hds, List.dropWhile_append_of_pos hds]
  cases rest with
  | nil => exact ⟨List.append_nil ds, rfl⟩
  | cons c rest =>
    have hc : ¬ c.isDigit := hrest c rfl
    rw [List.takeWhile_cons_of_neg hc, List.dropWhile_cons_of_neg hc, List.append_nil]
    exact ⟨rfl, rfl⟩

/-- A text of digits, a point and digits falls into these parts. -/
theorem digits_point_digits {ds fs : List Char} (hds : ∀ c ∈ ds, c.isDigit)
    (hfs : ∀ c ∈ fs, c.isDigit) :
    wholeDigits (ds ++ '.' :: fs) = ds ∧ fractionDigits (ds ++ '.' :: fs) = fs := by
  have hpoint : ∀ c ∈ ('.' :: fs).head?, ¬ c.isDigit := by
    intro c hc
    cases hc
    decide
  obtain ⟨hwhole, hrest⟩ := takeWhile_isDigit hds hpoint
  refine ⟨hwhole, ?_⟩
  rw [fractionDigits_of_point hrest]
  exact List.takeWhile_eq_self_iff.2 hfs

/-! ### The reader -/

theorem digitOf_eq (c : Char) :
    digitOf c = if c.isDigit then some (c.toNat - '0'.toNat) else none := by
  have hdigit : c.isDigit ↔ '0' ≤ c ∧ c ≤ '9' := by
    rw [Char.isDigit, Bool.and_eq_true, decide_eq_true_eq, decide_eq_true_eq, Char.le_def,
      Char.le_def]
  unfold digitOf
  exact if_congr hdigit.symm rfl rfl

/-- The first scan takes the digits, modulo `2 ^ 64`. -/
theorem scanInteger_eq (cs : List Char) : ∀ {acc : ℕ}, acc < 2 ^ 64 → scanInteger acc cs =
    (Nat.ofDigitChars 10 (cs.takeWhile Char.isDigit) acc % 2 ^ 64, cs.dropWhile Char.isDigit) := by
  induction cs with
  | nil =>
    intro acc hacc
    exact congrArg (·, []) (Nat.mod_eq_of_lt hacc).symm
  | cons c cs ih =>
    intro acc hacc
    rw [scanInteger, digitOf_eq]
    by_cases hc : c.isDigit
    · rw [if_pos hc, List.takeWhile_cons_of_pos hc, List.dropWhile_cons_of_pos hc,
        Nat.ofDigitChars_cons]
      dsimp only
      rw [ih (Nat.mod_lt _ (by decide)), ofDigitChars_eq, ofDigitChars_eq, mul_comm 10 acc]
      congr 1
      rw [Nat.add_mod, Nat.mod_mul_mod, ← Nat.add_mod]
    · rw [if_neg hc, List.takeWhile_cons_of_neg hc, List.dropWhile_cons_of_neg hc]
      exact congrArg (·, c :: cs) (Nat.mod_eq_of_lt hacc).symm

theorem wrap64_wrap64_mul_add (x y z : ℤ) : wrap64 (wrap64 x * y + z) = wrap64 (x * y + z) := by
  rw [wrap64_eq_iff]
  push_cast
  rw [wrap64_cast]

/-- The second scan takes the digits and their power of ten, both wrapped. -/
theorem scanFraction_eq (cs : List Char) : ∀ {part magnitude : ℤ}, IsInt64 part →
    IsInt64 magnitude → scanFraction part magnitude cs =
      (wrap64 (part * 10 ^ (cs.takeWhile Char.isDigit).length +
        decimal (cs.takeWhile Char.isDigit)),
       wrap64 (magnitude * 10 ^ (cs.takeWhile Char.isDigit).length)) := by
  induction cs with
  | nil =>
    intro part magnitude hpart hmagnitude
    rw [scanFraction, List.takeWhile_nil, List.length_nil, pow_zero, mul_one, mul_one, decimal_nil,
      Nat.cast_zero, add_zero, wrap64_eq_self hpart, wrap64_eq_self hmagnitude]
  | cons c cs ih =>
    intro part magnitude hpart hmagnitude
    rw [scanFraction, digitOf_eq]
    by_cases hc : c.isDigit
    · rw [if_pos hc, List.takeWhile_cons_of_pos hc, List.length_cons, decimal_cons]
      dsimp only
      rw [ih (isInt64_wrap64 _) (isInt64_wrap64 _), wrap64_wrap64_mul_add,
        ← add_zero (wrap64 (magnitude * 10) * _), wrap64_wrap64_mul_add]
      push_cast
      congr 2 <;> ring
    · rw [if_neg hc, List.takeWhile_cons_of_neg hc, List.length_nil, pow_zero, mul_one, mul_one,
        decimal_nil, Nat.cast_zero, add_zero, wrap64_eq_self hpart, wrap64_eq_self hmagnitude]

/-- A power of ten up to the price precision divides it. -/
theorem btsPricePrecision_eq {k : ℕ} (hk : k ≤ 18) : btsPricePrecision = 10 ^ (18 - k) * 10 ^ k := by
  rw [← pow_add, Nat.sub_add_cancel hk]
  rfl

theorem btsPricePrecision_div {k : ℕ} (hk : k ≤ 18) : btsPricePrecision / 10 ^ k = 10 ^ (18 - k) := by
  rw [btsPricePrecision_eq hk, Nat.mul_div_cancel _ (pow_pos (by decide) k)]

/-- Up to eighteen digits after the point are read exactly. -/
theorem fractionRatio_eq (hk : (cs.takeWhile Char.isDigit).length ≤ 18) :
    fractionRatio cs = some (decimal (cs.takeWhile Char.isDigit) *
      10 ^ (18 - (cs.takeWhile Char.isDigit).length)) := by
  cases cs with
  | nil => rfl
  | cons c cs =>
    rw [fractionRatio, digitOf_eq]
    by_cases hc : c.isDigit
    · have hlt := decimal_lt fun d (hd : d ∈ (c :: cs).takeWhile Char.isDigit) =>
        isDigit_of_mem_takeWhile hd
      have hpow := Nat.pow_le_pow_right (n := 10) (by decide) hk
      have hdigit := digit_lt hc
      have hpart : IsInt64 ((c.toNat - '0'.toNat : ℕ) : ℤ) := by
        unfold IsInt64 int64Min int64Max
        omega
      rw [if_pos hc]
      dsimp only
      rw [scanFraction_eq cs hpart (by decide), ← Nat.cast_ofNat (n := 10), ← Nat.cast_pow,
        ← Nat.cast_mul, ← Nat.cast_add, ← Nat.cast_mul, ← decimal_cons,
        ← List.takeWhile_cons_of_pos hc, mul_comm 10, ← pow_succ,
        ← @List.length_cons _ c (cs.takeWhile Char.isDigit),
        ← List.takeWhile_cons_of_pos hc]
      generalize (c :: cs).takeWhile Char.isDigit = ds at hk hlt hpow
      have hten : (10 : ℕ) ^ 18 = 1000000000000000000 := rfl
      have hvalue : IsInt64 ((decimal ds : ℕ) : ℤ) := by
        unfold IsInt64 int64Min int64Max
        omega
      have hmagnitude : IsInt64 ((10 ^ ds.length : ℕ) : ℤ) := by
        unfold IsInt64 int64Min int64Max
        omega
      have hpos : 0 < 10 ^ ds.length := pow_pos (by decide) _
      rw [wrap64_eq_self hvalue, wrap64_eq_self hmagnitude]
      dsimp only
      rw [Int.emod_eq_of_lt (by omega) (by omega), Int.toNat_natCast, if_neg hpos.ne',
        Int.emod_eq_of_lt (by omega) (by omega), Int.toNat_natCast, btsPricePrecision_div hk]
      have hle : decimal ds * 10 ^ (18 - ds.length) < 10 ^ 18 := by
        calc decimal ds * 10 ^ (18 - ds.length)
            < 10 ^ ds.length * 10 ^ (18 - ds.length) :=
              Nat.mul_lt_mul_of_pos_right hlt (pow_pos (by decide) _)
          _ = 10 ^ 18 := by rw [← pow_add, Nat.add_sub_cancel' hk]
      rw [Nat.mod_eq_of_lt (by omega)]
    · rw [if_neg hc, List.takeWhile_cons_of_neg hc]
      rfl

/-- **What `set_ratio_from_string` reads**, with up to eighteen digits after the point: the digits
before the point count modulo `2 ^ 64`. -/
theorem setRatioFromString_eq (hk : (fractionDigits cs).length ≤ 18) :
    setRatioFromString cs = some (decimal (wholeDigits cs) % 2 ^ 64 * btsPricePrecision +
      decimal (fractionDigits cs) * 10 ^ (18 - (fractionDigits cs).length)) := by
  have hwhole : decimal (wholeDigits cs) % 2 ^ 64 * btsPricePrecision < 2 ^ 64 * 10 ^ 18 := by
    exact Nat.mul_lt_mul_of_pos_right (Nat.mod_lt _ (by decide)) (by decide)
  have hfraction : decimal (fractionDigits cs) * 10 ^ (18 - (fractionDigits cs).length) < 10 ^ 18 := by
    calc decimal (fractionDigits cs) * 10 ^ (18 - (fractionDigits cs).length)
        < 10 ^ (fractionDigits cs).length * 10 ^ (18 - (fractionDigits cs).length) :=
          Nat.mul_lt_mul_of_pos_right (decimal_lt fun c hc => isDigit_fractionDigits hc)
            (pow_pos (by decide) _)
      _ = 10 ^ 18 := by rw [← pow_add, Nat.add_sub_cancel' hk]
  unfold setRatioFromString
  rw [scanInteger_eq cs (by decide), ← decimal, ← wholeDigits]
  dsimp only
  rw [Nat.mod_eq_of_lt (b := 2 ^ 128) (hwhole.trans (by decide))]
  split
  · next rest hrest =>
    rw [fractionDigits_of_point hrest] at hk hfraction ⊢
    rw [fractionRatio_eq hk, Option.map_some, Nat.mod_eq_of_lt]
    calc _ < 2 ^ 64 * 10 ^ 18 + 10 ^ 18 := Nat.add_lt_add hwhole hfraction
      _ < 2 ^ 128 := by decide
  · next hnone =>
    rw [fractionDigits_of_no_point hnone, decimal_nil, Nat.zero_mul, Nat.add_zero]

/-! ### Safety and exactness -/

/-- Reading the text does not divide by zero, looks no further than the terminator, and every number
it forms on the way is in the range of its type. -/
structure ReadsSafely (cs : List Char) : Prop where
  divides : setRatioFromString cs ≠ none
  inside : unreadText cs <:+ cs
  whole : ∀ ds, ds <+: wholeDigits cs → decimal ds < 2 ^ 64
  fraction : ∀ ds, ds <+: fractionDigits cs → decimal ds ≤ int64Max ∧ 10 ^ ds.length ≤ int64Max
  ratio : decimal (wholeDigits cs) * btsPricePrecision + decimal (fractionDigits cs) *
    (btsPricePrecision / 10 ^ (fractionDigits cs).length) < 2 ^ 128

/-- A text whose value fits sets the ratio to the value times the price precision, truncated. -/
def ReadsExactly (cs : List Char) : Prop :=
  textValue cs * btsPricePrecision < 2 ^ 128 →
    setRatioFromString cs = some ⌊textValue cs * btsPricePrecision⌋₊

theorem unreadText_suffix (cs : List Char) : unreadText cs <:+ cs := by
  have hrest := List.dropWhile_suffix (l := cs) Char.isDigit
  unfold unreadText
  split
  · next rest hpoint =>
    rw [hpoint] at hrest
    exact ((List.dropWhile_suffix _).trans (List.suffix_cons _ _)).trans hrest
  · exact hrest

/-- With up to eighteen digits after the point the value is a whole number of ratio units. -/
theorem textValue_mul (hk : (fractionDigits cs).length ≤ 18) :
    textValue cs * btsPricePrecision = ((decimal (wholeDigits cs) * btsPricePrecision +
      decimal (fractionDigits cs) * 10 ^ (18 - (fractionDigits cs).length) : ℕ) : ℚ) := by
  have hpow : (10 : ℚ) ^ (fractionDigits cs).length ≠ 0 := pow_ne_zero _ (by norm_num)
  unfold textValue
  rw [add_mul, Nat.cast_add, Nat.cast_mul]
  congr 1
  rw [btsPricePrecision_eq hk]
  push_cast
  field_simp

/-- **The reader is safe exactly on the texts whose whole part fits in 64 bits and that have at most
eighteen digits after the point.** -/
theorem readsSafely_iff : ReadsSafely cs ↔
    decimal (wholeDigits cs) < 2 ^ 64 ∧ (fractionDigits cs).length ≤ 18 := by
  constructor
  · intro h
    refine ⟨h.whole _ List.prefix_rfl, ?_⟩
    by_contra hlong
    have hpow := Nat.pow_le_pow_right (n := 10) (by decide) (Nat.lt_of_not_le hlong)
    have hmagnitude := (h.fraction _ List.prefix_rfl).2
    unfold int64Max at hmagnitude
    have hten : (10 : ℕ) ^ (18 + 1) = 10000000000000000000 := rfl
    rw [Nat.succ_eq_add_one, hten] at hpow
    zify at hpow
    omega
  · rintro ⟨hwhole, hk⟩
    have hfraction := decimal_lt fun _ => @isDigit_fractionDigits cs _
    have hten := Nat.pow_le_pow_right (n := 10) (by decide) hk
    have hlimit : ((10 ^ 18 : ℕ) : ℤ) ≤ int64Max := by decide
    refine ⟨by rw [setRatioFromString_eq hk]; exact Option.some_ne_none _, unreadText_suffix cs,
      fun ds hds => (decimal_mono hds).trans_lt hwhole, fun ds hds => ⟨?_, ?_⟩, ?_⟩
    · have hle := decimal_mono hds
      omega
    · have hle := Nat.pow_le_pow_right (n := 10) (by decide) (hds.length_le.trans hk)
      refine le_trans ?_ hlimit
      exact_mod_cast hle
    · rw [btsPricePrecision_div hk]
      calc _ < 2 ^ 64 * btsPricePrecision + 10 ^ (fractionDigits cs).length *
            10 ^ (18 - (fractionDigits cs).length) :=
              Nat.add_lt_add (Nat.mul_lt_mul_of_pos_right hwhole (by decide))
                (Nat.mul_lt_mul_of_pos_right hfraction (pow_pos (by decide) _))
        _ = 2 ^ 64 * btsPricePrecision + 10 ^ 18 := by rw [← pow_add, Nat.add_sub_cancel' hk]
        _ < 2 ^ 128 := by decide

/-- A text that is read safely is read exactly. -/
theorem ReadsSafely.readsExactly (h : ReadsSafely cs) : ReadsExactly cs := by
  intro _
  obtain ⟨hwhole, hk⟩ := readsSafely_iff.1 h
  rw [setRatioFromString_eq hk, textValue_mul hk, Nat.floor_natCast, Nat.mod_eq_of_lt hwhole]

/-! ### The writer -/

/-- `price::ratio_string`: the quotient by the precision, a point, and the remainder with its leading
zeros; zeros at the end are dropped. -/
def ratioString (r : ℕ) : List Char :=
  (Nat.toDigits 10 (r / btsPricePrecision) ++
    '.' :: (Nat.toDigits 10 (r % btsPricePrecision + btsPricePrecision)).tail).rdropWhile (· == '0')

/-- Dropping the zeros at the end stops at the point. -/
theorem rdropWhile_point (ds fs : List Char) : (ds ++ '.' :: fs).rdropWhile (· == '0') =
    ds ++ '.' :: fs.rdropWhile (· == '0') := by
  induction fs using List.reverseRecOn with
  | nil =>
    rw [List.rdropWhile_nil]
    exact List.rdropWhile_concat_neg _ _ _ (by decide)
  | append_singleton fs c ih =>
    rw [← List.cons_append, ← List.append_assoc]
    by_cases hc : c == '0'
    · rw [List.rdropWhile_concat_pos (· == '0') _ _ hc, List.rdropWhile_concat_pos (· == '0') _ _ hc,
        ih]
    · rw [List.rdropWhile_concat_neg (· == '0') _ _ hc, List.rdropWhile_concat_neg (· == '0') _ _ hc,
        List.append_assoc, List.cons_append]

theorem ratioString_eq (r : ℕ) : ratioString r = Nat.toDigits 10 (r / btsPricePrecision) ++
    '.' :: (padded 18 (r % btsPricePrecision)).rdropWhile (· == '0') := by
  have hprecision : btsPricePrecision = 10 ^ 18 := rfl
  unfold ratioString padded
  rw [rdropWhile_point, hprecision, Nat.add_comm (r % 10 ^ 18)]

/-- Parsing what `ratio_string` printed gives the quotient modulo `2 ^ 64`, and the remainder. -/
theorem setRatioFromString_ratioString (r : ℕ) : setRatioFromString (ratioString r) =
    some (r / btsPricePrecision % 2 ^ 64 * btsPricePrecision + r % btsPricePrecision) := by
  have hlt : r % btsPricePrecision < 10 ^ 18 := Nat.mod_lt r (by decide)
  have hdigits : ∀ c ∈ (padded 18 (r % btsPricePrecision)).rdropWhile (· == '0'), c.isDigit :=
    fun c hc => isDigit_padded ((List.rdropWhile_prefix _ _).subset hc)
  obtain ⟨hwhole, hfraction⟩ :=
    digits_point_digits (fun c hc => isDigit_toDigits (r / btsPricePrecision) hc) hdigits
  rw [← ratioString_eq] at hwhole hfraction
  have hvalue := decimal_rdropWhile (padded 18 (r % btsPricePrecision))
  rw [length_padded hlt, decimal_padded hlt] at hvalue
  have hk : ((padded 18 (r % btsPricePrecision)).rdropWhile (· == '0')).length ≤ 18 := by
    have hle := (List.rdropWhile_prefix (· == '0') (padded 18 (r % btsPricePrecision))).length_le
    rwa [length_padded hlt] at hle
  rw [setRatioFromString_eq (by rw [hfraction]; exact hk), hwhole, hfraction, decimal_toDigits,
    ← hvalue]

theorem setRatioFromString_ratioString_iff :
    setRatioFromString (ratioString r) = some r ↔ r < 2 ^ 64 * btsPricePrecision := by
  have hsplit := Nat.div_add_mod' r btsPricePrecision
  have hpos : 0 < btsPricePrecision := by decide
  rw [setRatioFromString_ratioString, Option.some.injEq, ← Nat.div_lt_iff_lt_mul hpos]
  constructor
  · intro h
    have hquotient : r / btsPricePrecision % 2 ^ 64 = r / btsPricePrecision :=
      Nat.eq_of_mul_eq_mul_right hpos (by omega)
    rw [← hquotient]
    exact Nat.mod_lt _ (by decide)
  · intro hlt
    rw [Nat.mod_eq_of_lt hlt, hsplit]

/-- **Price text is safe and exact where its parts fit.** A text is read safely and exactly if and
only if its whole part is below `2 ^ 64` and it has at most eighteen digits after the point; and a
ratio survives being printed and parsed if and only if its whole part is below `2 ^ 64`. -/
theorem setRatioFromString_exact_iff (cs : List Char) (r : ℕ) :
    (ReadsSafely cs ∧ ReadsExactly cs ↔
      decimal (wholeDigits cs) < 2 ^ 64 ∧ (fractionDigits cs).length ≤ 18) ∧
    (setRatioFromString (ratioString r) = some r ↔ r < 2 ^ 64 * btsPricePrecision) := by
  refine ⟨?_, setRatioFromString_ratioString_iff⟩
  rw [← readsSafely_iff]
  exact ⟨And.left, fun h => ⟨h, h.readsExactly⟩⟩

/-- A feed with sixty-four digits after the point divides by zero, one with nineteen loses them, and
a ratio with a whole part of `2 ^ 64` is read back as zero. -/
theorem setRatioFromString_exact_overflow :
    setRatioFromString ('0' :: '.' :: List.replicate 64 '1') = none ∧
    ¬ ReadsSafely ('0' :: '.' :: List.replicate 64 '1') ∧
    ¬ ReadsExactly ('0' :: '.' :: List.replicate 19 '1') ∧
    2 ^ 64 * btsPricePrecision < 2 ^ 128 ∧
    setRatioFromString (ratioString (2 ^ 64 * btsPricePrecision)) = some 0 := by
  have hlost : setRatioFromString ('0' :: '.' :: List.replicate 19 '1') = some 0 := by decide +kernel
  have hvalue : 1 ≤ textValue ('0' :: '.' :: List.replicate 19 '1') * btsPricePrecision ∧
      textValue ('0' :: '.' :: List.replicate 19 '1') * btsPricePrecision < 2 ^ 128 := by
    decide +kernel
  refine ⟨by decide +kernel, fun h => h.divides (by decide +kernel), fun h => ?_, by decide,
    by decide +kernel⟩
  have hexact := h hvalue.2
  rw [hlost, Option.some.injEq, eq_comm, Nat.floor_eq_zero] at hexact
  exact absurd hvalue.1 (not_le.2 hexact)

end LarkX
