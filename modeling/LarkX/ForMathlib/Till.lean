import LarkX.ForMathlib.Int64

/-!
# Tills that count in 64 bits

A *till* moves funds between accounts through a running balance. Its two totals, withdrawn and
deposited, are checked for overflow; the accounts and the running balance are updated with
plain 64-bit additions, which wrap. `Till.Step` lists the moves, `Till.Run` is a run of them.

The point of the library is `Till.Run.settle`: although nothing checks the accounts for
overflow, a run that ends with a non-negative running balance has conserved the funds, provided
the till started with non-negative accounts that fit together in 64 bits, also with the funds
the run creates. The reason is in
`Till.Reached`: at most one account can ever wrap, since a wrap uses up half of what may be
deposited at all; and a run in which one has wrapped ends with a negative running balance,
unless the wrapped account was emptied again.

A `Till` is what such an argument needs to know about its accounts: the sum of the positive
ones, the sum of the negative ones, and how many are negative.
-/

namespace LarkX

/-- The positive part of an amount. -/
def posPart (x : ℤ) : ℤ := if 0 ≤ x then x else 0

/-- The negative part of an amount. -/
def negPart (x : ℤ) : ℤ := if 0 ≤ x then 0 else -x

/-- `1` for a negative amount. -/
def negCount (x : ℤ) : ℤ := if 0 ≤ x then 0 else 1

/-- `1` for an amount that is not a 64-bit value. -/
def outCount (x : ℤ) : ℤ := if IsInt64 x then 0 else 1

theorem posPart_nonneg (x : ℤ) : 0 ≤ posPart x := by
  unfold posPart
  split <;> omega

theorem negPart_nonneg (x : ℤ) : 0 ≤ negPart x := by
  unfold negPart
  split <;> omega

theorem negCount_nonneg (x : ℤ) : 0 ≤ negCount x := by
  unfold negCount
  split <;> omega

theorem outCount_nonneg (x : ℤ) : 0 ≤ outCount x := by
  unfold outCount
  split <;> omega

theorem posPart_sub_negPart (x : ℤ) : posPart x - negPart x = x := by
  unfold posPart negPart
  split <;> omega

/-- The parts of an amount, by its sign. -/
theorem parts (x : ℤ) :
    (0 ≤ x ∧ posPart x = x ∧ negPart x = 0 ∧ negCount x = 0) ∨
      (x < 0 ∧ posPart x = 0 ∧ negPart x = -x ∧ negCount x = 1) := by
  unfold posPart negPart negCount
  by_cases h : 0 ≤ x
  · exact Or.inl ⟨h, if_pos h, if_pos h, if_pos h⟩
  · exact Or.inr ⟨not_le.1 h, if_neg h, if_neg h, if_neg h⟩

/-- The parts of a non-negative amount. -/
theorem parts_of_nonneg {x : ℤ} (h : 0 ≤ x) : posPart x = x ∧ negPart x = 0 ∧ negCount x = 0 :=
  ⟨if_pos h, if_pos h, if_pos h⟩

/-- The parts of a negative amount. -/
theorem parts_of_neg {x : ℤ} (h : x < 0) : posPart x = 0 ∧ negPart x = -x ∧ negCount x = 1 :=
  ⟨if_neg (by omega), if_neg (by omega), if_neg (by omega)⟩

theorem outCount_of_range {x : ℤ} (h : IsInt64 x) : outCount x = 0 :=
  if_pos h

/-- The sum of two 64-bit values, wrapped. -/
theorem wrap64_cases {x : ℤ} (hlo : int64Min ≤ x) (hhi : x < int64Max + 18446744073709551616) :
    (x ≤ int64Max ∧ wrap64 x = x) ∨
      (int64Max < x ∧ wrap64 x = x - 18446744073709551616) := by
  unfold int64Min int64Max at *
  unfold wrap64
  omega

/-- A till: its totals, the fund that yields are paid from, the amount issued, and its accounts
in summary. -/
structure Till where
  withdrawn : ℤ
  deposited : ℤ
  fund : ℤ
  issued : ℤ
  /-- The sum of the positive accounts. -/
  positive : ℤ
  /-- The sum of the negative accounts, without their signs. -/
  negative : ℤ
  /-- The number of negative accounts. -/
  overdrawn : ℤ
  /-- The number of accounts that are no 64-bit values. -/
  outside : ℤ

namespace Till

/-- One account goes from `old` to `new`. -/
structure Account (old new : ℤ) (t t' : Till) : Prop where
  positive : t'.positive = t.positive + posPart new - posPart old
  negative : t'.negative = t.negative + negPart new - negPart old
  overdrawn : t'.overdrawn = t.overdrawn + negCount new - negCount old
  outside : t'.outside = t.outside + outCount new - outCount old
  positive_le : posPart old ≤ t.positive
  negative_le : negPart old ≤ t.negative
  overdrawn_le : negCount old ≤ t.overdrawn
  alone : negCount old = t.overdrawn → negPart old = t.negative
  outside_le : outCount old ≤ t.outside

/-- The totals after a move, which are checked; the fund and the amount issued stay. -/
structure Totals (w d : ℤ) (t t' : Till) : Prop where
  withdrawn : t'.withdrawn = t.withdrawn + w
  deposited : t'.deposited = t.deposited + d
  withdrawn_range : IsInt64 t'.withdrawn
  deposited_range : IsInt64 t'.deposited

/-- One move of a till. The indices are what the move loses and what it creates. -/
inductive Step : ℤ → ℤ → Till → Till → Prop
  /-- A deposit into an account. -/
  | put {t t' : Till} (x old : ℤ) (hx : 0 < x) (account : Account old (wrap64 (old + x)) t t')
      (totals : Totals 0 x t t') (fund : t'.fund = t.fund) (issued : t'.issued = t.issued) :
      Step 0 0 t t'
  /-- A withdrawal from an account that has the amount. -/
  | take {t t' : Till} (x old : ℤ) (hx : 0 < x) (hle : x ≤ old)
      (account : Account old (wrap64 (old - x)) t t') (totals : Totals x 0 t t')
      (fund : t'.fund = t.fund) (issued : t'.issued = t.issued) : Step 0 0 t t'
  /-- A withdrawal after the fund has paid a yield into the account. -/
  | yield {t t' : Till} (x y old : ℤ) (hx : 0 < x) (hle : x ≤ old) (hy : 0 < y) (hyf : y < t.fund)
      (account : Account old (wrap64 (old + y - x)) t t') (totals : Totals x 0 t t')
      (fund : t'.fund = wrap64 (t.fund - y)) (issued : t'.issued = t.issued) : Step 0 0 t t'
  /-- The withdrawal of a whole account, whatever its sign. -/
  | empty {t t' : Till} (old : ℤ) (account : Account old 0 t t') (totals : Totals old 0 t t')
      (fund : t'.fund = t.fund) (issued : t'.issued = t.issued) : Step 0 0 t t'
  /-- A deposit that is taken out of circulation. -/
  | burn {t t' : Till} (x : ℤ) (hx : 0 ≤ x) (account : Account 0 0 t t')
      (totals : Totals 0 x t t') (fund : t'.fund = t.fund)
      (issued : t'.issued = wrap64 (t.issued - x)) : Step 0 0 t t'
  /-- The burn of a negative amount. -/
  | create {t t' : Till} (x : ℤ) (hx : 0 < x) (account : Account 0 0 t t')
      (totals : Totals 0 (-x) t t') (fund : t'.fund = t.fund)
      (issued : t'.issued = wrap64 (t.issued + x)) : Step 0 x t t'
  /-- An account is overwritten. -/
  | lose {t t' : Till} (old : ℤ) (account : Account old 0 t t') (totals : Totals 0 0 t t')
      (fund : t'.fund = t.fund) (issued : t'.issued = t.issued) : Step old 0 t t'

/-- A run from `t₀`, with the sums of what it lost and of what it created. -/
inductive Run (t₀ : Till) : ℤ → ℤ → Till → Prop
  | refl : Run t₀ 0 0 t₀
  | step {lost created d x : ℤ} {t t' : Till} (h : Run t₀ lost created t)
      (hstep : Step d x t t') : Run t₀ (lost + d) (created + x) t'

/-- A till at the start of a run that creates at most `c`: nothing moved yet, no account is
negative, and the accounts with what the fund and the run can add to them fit in 64 bits. -/
structure Sound (t : Till) (c : ℤ) : Prop where
  withdrawn : t.withdrawn = 0
  deposited : t.deposited = 0
  negative : t.negative = 0
  overdrawn : t.overdrawn = 0
  outside : t.outside = 0
  positive : 0 ≤ t.positive
  fits : t.positive + posPart t.fund + c ≤ int64Max
  fund : int64Min ≤ t.fund
  issued : 0 ≤ t.issued ∧ t.issued + c ≤ int64Max

theorem Sound.le {t : Till} {c : ℤ} (h : Sound t c) : c ≤ int64Max := by
  have hfits := h.fits
  have hpos := h.positive
  have hfund := posPart_nonneg t.fund
  omega

/-- What a run from `t₀` reaches; `n` is `1` once an account has wrapped. -/
structure Reached (t₀ t : Till) (n lost created : ℤ) : Prop where
  created_nonneg : 0 ≤ created
  wrapped : n = 0 ∨ n = 1
  /-- Funds are conserved up to the wrap. -/
  balanced : t.withdrawn - t.deposited + t.positive - t.negative + t.fund - t.issued + lost =
    t₀.positive + t₀.fund - t₀.issued - n * 18446744073709551616
  /-- A wrap costs the positive accounts half of the range. -/
  doomed : t.withdrawn - t.deposited + t.positive + t.fund - t.issued ≤
    t₀.positive + t₀.fund - t₀.issued - n * 9223372036854775808
  /-- What is in the accounts came from the start or was deposited. -/
  covered : t.positive + t.fund ≤
    t₀.positive + t₀.fund + (t.deposited + created) - n * 9223372036854775808
  positive : 0 ≤ t.positive
  negative : 0 ≤ t.negative
  overdrawn : 0 ≤ t.overdrawn ∧ t.overdrawn ≤ n
  outside : t.outside = 0
  none_negative : t.overdrawn = 0 → t.negative = 0
  unwrapped : n = 0 → 0 ≤ t.withdrawn
  /-- Only emptying the wrapped account makes the withdrawn total negative. -/
  emptied : 0 ≤ t.withdrawn ∨ t.overdrawn = 0
  lost_nonneg : 0 ≤ lost ∨ (0 ≤ t.withdrawn ∧ t.overdrawn = 0)
  fund : t.fund = t₀.fund ∨ (0 < t.fund ∧ t.fund ≤ t₀.fund)
  issued : t.issued ≤ t₀.issued + created ∧ t₀.issued - t.issued ≤ t.deposited
  withdrawn_range : IsInt64 t.withdrawn
  deposited_range : -created ≤ t.deposited ∧ t.deposited ≤ int64Max

theorem Reached.refl {t : Till} {c : ℤ} (h : Sound t c) : Reached t t 0 0 0 := by
  obtain ⟨hw, hd, hn, ho, hout, hp, -, -, -⟩ := h
  refine ⟨le_rfl, Or.inl rfl, ?_, ?_, ?_, hp, hn.ge, ⟨ho.ge, ho.le⟩, hout, fun _ => hn, fun _ => hw.ge,
    Or.inl hw.ge, Or.inl le_rfl, Or.inl rfl, ⟨(add_zero _).ge, ?_⟩, ?_, ?_⟩
  · omega
  · omega
  · omega
  · omega
  · rw [hw]
    decide
  · rw [hd]
    decide

/-- An account that is no outsider holds a 64-bit value. -/
theorem Account.range {old new : ℤ} {t t' : Till} (h : Account old new t t')
    (hout : t.outside = 0) : IsInt64 old := by
  by_contra hnot
  have hle := h.outside_le
  unfold outCount at hle
  rw [if_neg hnot] at hle
  omega

/-- An account that becomes a 64-bit value stays no outsider. -/
theorem Account.outside_eq {old new : ℤ} {t t' : Till} (h : Account old new t t')
    (hout : t.outside = 0) (hnew : IsInt64 new) : t'.outside = 0 := by
  have hold := h.range hout
  have := h.outside
  rw [outCount_of_range hold, outCount_of_range hnew] at this
  omega

variable {t₀ t t' : Till} {n lost created c : ℤ}

/-- A deposit wraps at most once in a run. -/
theorem Reached.put (h₀ : Sound t₀ c) (h : Reached t₀ t n lost created) (hcle : created ≤ c) {x old : ℤ} (hx : 0 < x)
    (account : Account old (wrap64 (old + x)) t t') (totals : Totals 0 x t t')
    (hf : t'.fund = t.fund) (hi : t'.issued = t.issued) : ∃ n', Reached t₀ t' n' lost created := by
  have hout := account.outside_eq h.outside (isInt64_wrap64 _)
  obtain ⟨hlo, hhi⟩ := account.range h.outside
  obtain ⟨hw, hd, hwr, -, hdhi⟩ := totals
  obtain ⟨hpos, hneg, hover, -, hple, hnle, hole, halone, -⟩ := account
  obtain ⟨hc, hn, hbal, hdoom, hcov, hp, hneg0, ⟨ho0, hon⟩, -, hnone, hunw, hemp, hlost, hfund, hburn,
    hwrange, hd0, hdmax⟩ := h
  have hdr : -created ≤ t'.deposited ∧ t'.deposited ≤ int64Max := ⟨by omega, hdhi⟩
  have hfits := h₀.fits
  have hpos₀ := h₀.positive
  have hcmax := h₀.le
  have hold := parts old
  have hnew := parts (wrap64 (old + x))
  have hfund₀ := parts t₀.fund
  unfold int64Min at hlo
  unfold int64Max at hhi hfits hcmax hdmax hdhi
  have hsum := wrap64_cases (x := old + x) (by unfold int64Min; omega) (by unfold int64Max; omega)
  unfold int64Max at hsum
  rcases hsum with ⟨hfit, hwrap⟩ | ⟨hgt, hwrap⟩
  · rw [hwrap] at hnew hpos hneg hover
    refine ⟨n, hc, hn, ?_, ?_, ?_, ?_, ?_, ?_, hout, ?_, ?_, ?_, ?_, ?_, ?_, hwr, hdr⟩
    all_goals omega
  · -- the account wraps: none had before, since twice the range cannot have been deposited
    rw [hwrap] at hnew hpos hneg hover
    refine ⟨1, hc, Or.inr rfl, ?_, ?_, ?_, ?_, ?_, ?_, hout, ?_, ?_, ?_, ?_, ?_, ?_, hwr, hdr⟩
    all_goals omega

/-- A withdrawal, with a yield of `y`. -/
theorem Reached.take (h₀ : Sound t₀ c) (h : Reached t₀ t n lost created) (hcle : created ≤ c) {x y old : ℤ} (hx : 0 < x)
    (hle : x ≤ old) (hy : y = 0 ∨ (0 < y ∧ y < t.fund))
    (account : Account old (wrap64 (old + y - x)) t t') (totals : Totals x 0 t t')
    (hf : t'.fund = t.fund - y) (hi : t'.issued = t.issued) : ∃ n', Reached t₀ t' n' lost created := by
  have hout := account.outside_eq h.outside (isInt64_wrap64 _)
  obtain ⟨hlo, hhi⟩ := account.range h.outside
  obtain ⟨hw, hd, hwr, -, hdhi⟩ := totals
  obtain ⟨hpos, hneg, hover, -, hple, -, -, -, -⟩ := account
  obtain ⟨hc, hn, hbal, hdoom, hcov, hp, hneg0, ⟨ho0, hon⟩, -, hnone, hunw, hemp, hlost, hfund, hburn,
    hwrange, hd0, hdmax⟩ := h
  have hdr : -created ≤ t'.deposited ∧ t'.deposited ≤ int64Max := ⟨by omega, hdhi⟩
  have hfits := h₀.fits
  have hpos₀ := h₀.positive
  have hcmax := h₀.le
  have hy0 : 0 ≤ y := by omega
  obtain ⟨hop, hon', hoc⟩ := parts_of_nonneg (show 0 ≤ old by omega)
  rw [hop] at hpos hple
  rw [hon'] at hneg
  rw [hoc] at hover
  have hburn' : t'.issued ≤ t₀.issued + created ∧ t₀.issued - t'.issued ≤ t'.deposited := by
    omega
  have hfund' : t'.fund = t₀.fund ∨ (0 < t'.fund ∧ t'.fund ≤ t₀.fund) := by omega
  -- a yield is less than the fund, which is no more than it was
  have hyle : y ≤ 0 ∨ (y < t.fund ∧ t.fund ≤ posPart t₀.fund) := by
    rcases hy with rfl | ⟨hy, hyf⟩
    · exact Or.inl le_rfl
    · rw [(parts_of_nonneg (show 0 ≤ t₀.fund by omega)).1]
      omega
  clear hy hfund hburn
  unfold int64Max at hhi hfits hcmax hdmax hdhi
  have hsum := wrap64_cases (x := old + y - x) (by unfold int64Min; omega)
    (by unfold int64Max; omega)
  unfold int64Max at hsum
  rcases hsum with ⟨hfit, hwrap⟩ | ⟨hgt, hwrap⟩
  · obtain ⟨hnp, hnn, hnc⟩ := parts_of_nonneg (show 0 ≤ old + y - x by omega)
    rw [hwrap] at hpos hneg hover
    rw [hnp] at hpos
    rw [hnn] at hneg
    rw [hnc] at hover
    clear hyle
    refine ⟨n, hc, hn, ?_, ?_, ?_, ?_, ?_, ?_, hout, ?_, ?_, ?_, ?_, hfund', hburn', hwr, hdr⟩
    all_goals omega
  · -- the yield wraps the account: none had before
    obtain ⟨hnp, hnn, hnc⟩ := parts_of_neg
      (show old + y - x - 18446744073709551616 < 0 by omega)
    rw [hwrap] at hpos hneg hover
    rw [hnp] at hpos
    rw [hnn] at hneg
    rw [hnc] at hover
    have hfund₀ := parts t₀.fund
    have hn0 : n = 0 := by omega
    subst hn0
    have ho : t.overdrawn = 0 := by omega
    have hng := hnone ho
    have hw0 := hunw rfl
    rw [ho] at hover
    rw [hng] at hneg hbal
    clear hemp hnone hunw hon hn
    refine ⟨1, hc, Or.inr rfl, ?_, ?_, ?_, ?_, ?_, ?_, hout, ?_, ?_, ?_, ?_, hfund', hburn', hwr, hdr⟩
    all_goals omega

/-- The withdrawal of a whole account. -/
theorem Reached.empty (h : Reached t₀ t n lost created) {old : ℤ} (account : Account old 0 t t')
    (totals : Totals old 0 t t') (hf : t'.fund = t.fund) (hi : t'.issued = t.issued) :
    Reached t₀ t' n lost created := by
  have hout := account.outside_eq h.outside (by decide)
  obtain ⟨hw, hd, hwr, -, hdhi⟩ := totals
  obtain ⟨hpos, hneg, hover, -, hple, hnle, hole, halone, -⟩ := account
  obtain ⟨hc, hn, hbal, hdoom, hcov, hp, hneg0, ⟨ho0, hon⟩, -, hnone, hunw, hemp, hlost, hfund, hburn,
    hwrange, hd0, hdmax⟩ := h
  have hdr : -created ≤ t'.deposited ∧ t'.deposited ≤ int64Max := ⟨by omega, hdhi⟩
  have hold := parts old
  have hnew := parts 0
  refine ⟨hc, hn, ?_, ?_, ?_, ?_, ?_, ?_, hout, ?_, ?_, ?_, ?_, ?_, ?_, hwr, hdr⟩
  all_goals omega

/-- A burn. -/
theorem Reached.burn (h : Reached t₀ t n lost created) {x : ℤ} (hx : 0 ≤ x)
    (account : Account 0 0 t t') (totals : Totals 0 x t t') (hf : t'.fund = t.fund)
    (hi : t'.issued = t.issued - x) : Reached t₀ t' n lost created := by
  have hout := account.outside_eq h.outside (by decide)
  obtain ⟨hw, hd, hwr, -, hdhi⟩ := totals
  obtain ⟨hpos, hneg, hover, -, hple, hnle, hole, halone, -⟩ := account
  obtain ⟨hc, hn, hbal, hdoom, hcov, hp, hneg0, ⟨ho0, hon⟩, -, hnone, hunw, hemp, hlost, hfund,
    hburn, hwrange, hd0, hdmax⟩ := h
  have hdr : -created ≤ t'.deposited ∧ t'.deposited ≤ int64Max := ⟨by omega, hdhi⟩
  have hnew := parts 0
  refine ⟨hc, hn, ?_, ?_, ?_, ?_, ?_, ?_, hout, ?_, ?_, ?_, ?_, ?_, ?_, hwr, hdr⟩
  all_goals omega

/-- A negative burn. -/
theorem Reached.create (h : Reached t₀ t n lost created) {x : ℤ} (hx : 0 < x)
    (account : Account 0 0 t t') (totals : Totals 0 (-x) t t') (hf : t'.fund = t.fund)
    (hi : t'.issued = t.issued + x) : Reached t₀ t' n lost (created + x) := by
  have hout := account.outside_eq h.outside (by decide)
  obtain ⟨hw, hd, hwr, -, hdhi⟩ := totals
  obtain ⟨hpos, hneg, hover, -, hple, hnle, hole, halone, -⟩ := account
  obtain ⟨hc, hn, hbal, hdoom, hcov, hp, hneg0, ⟨ho0, hon⟩, -, hnone, hunw, hemp, hlost, hfund,
    hburn, hwrange, hd0, hdmax⟩ := h
  have hdr : -(created + x) ≤ t'.deposited ∧ t'.deposited ≤ int64Max := ⟨by omega, hdhi⟩
  have hnew := parts 0
  refine ⟨by omega, hn, ?_, ?_, ?_, ?_, ?_, ?_, hout, ?_, ?_, ?_, ?_, ?_, ?_, hwr, hdr⟩
  all_goals omega

/-- An account that is overwritten: its amount is lost. -/
theorem Reached.lose (h : Reached t₀ t n lost created) {old : ℤ} (account : Account old 0 t t')
    (totals : Totals 0 0 t t') (hf : t'.fund = t.fund) (hi : t'.issued = t.issued) : Reached t₀ t' n (lost + old) created := by
  have hout := account.outside_eq h.outside (by decide)
  obtain ⟨hw, hd, hwr, -, hdhi⟩ := totals
  obtain ⟨hpos, hneg, hover, -, hple, hnle, hole, halone, -⟩ := account
  obtain ⟨hc, hn, hbal, hdoom, hcov, hp, hneg0, ⟨ho0, hon⟩, -, hnone, hunw, hemp, hlost, hfund, hburn,
    hwrange, hd0, hdmax⟩ := h
  have hdr : -created ≤ t'.deposited ∧ t'.deposited ≤ int64Max := ⟨by omega, hdhi⟩
  have hold := parts old
  have hnew := parts 0
  refine ⟨hc, hn, ?_, ?_, ?_, ?_, ?_, ?_, hout, ?_, ?_, ?_, ?_, ?_, ?_, hwr, hdr⟩
  all_goals omega

/-- The fund stays in range. -/
theorem Reached.fund_le (h₀ : Sound t₀ c) (h : Reached t₀ t n lost created) (hc : 0 ≤ c) :
    int64Min ≤ t.fund ∧ t.fund ≤ int64Max := by
  have hfund₀ := parts t₀.fund
  have hfits := h₀.fits
  have hpos₀ := h₀.positive
  have hlo := h₀.fund
  rcases h.fund with heq | ⟨hpos, hle⟩
  · omega
  · unfold int64Min at *
    omega

/-- **Step.** Every move keeps what a run reaches. -/
theorem Reached.step (h₀ : Sound t₀ c) (h : Reached t₀ t n lost created) {d x : ℤ}
    (hstep : Step d x t t') (hcle : created + x ≤ c) :
    ∃ n', Reached t₀ t' n' (lost + d) (created + x) := by
  have hc := h.created_nonneg
  cases hstep with
  | put x old hx account totals hf hi =>
    rw [add_zero] at hcle
    rw [add_zero, add_zero]
    exact h.put h₀ hcle hx account totals hf hi
  | take x old hx hle account totals hf hi =>
    rw [add_zero] at hcle
    rw [add_zero, add_zero]
    refine h.take (y := 0) h₀ hcle hx hle (Or.inl rfl) ?_ totals (by rw [hf, sub_zero]) hi
    rw [add_zero]
    exact account
  | yield x y old hx hle hy hyf account totals hf hi =>
    rw [add_zero] at hcle
    rw [add_zero, add_zero]
    obtain ⟨-, hmax⟩ := h.fund_le h₀ (hc.trans hcle)
    rw [wrap64_eq_self ⟨by unfold int64Min; omega, by omega⟩] at hf
    exact h.take h₀ hcle hx hle (Or.inr ⟨hy, hyf⟩) account totals hf hi
  | empty old account totals hf hi =>
    rw [add_zero, add_zero]
    exact ⟨n, h.empty account totals hf hi⟩
  | burn x hx account totals hf hi =>
    rw [add_zero] at hcle
    rw [add_zero, add_zero]
    have hd := totals.deposited_range.2
    have hrange : IsInt64 (t.issued - x) := by
      have hi₀ := h₀.issued
      have hit := h.issued
      rw [totals.deposited] at hd
      unfold IsInt64 int64Min int64Max at *
      omega
    rw [wrap64_eq_self hrange] at hi
    exact ⟨n, h.burn hx account totals hf hi⟩
  | create x hx account totals hf hi =>
    rw [add_zero]
    have hrange : IsInt64 (t.issued + x) := by
      have hi₀ := h₀.issued
      have hit := h.issued
      have hd := h.deposited_range.2
      unfold IsInt64 int64Min int64Max at *
      omega
    rw [wrap64_eq_self hrange] at hi
    exact ⟨n, h.create hx account totals hf hi⟩
  | lose old account totals hf hi =>
    rw [add_zero]
    exact ⟨n, h.lose account totals hf hi⟩

theorem Step.created_nonneg {d x : ℤ} (h : Step d x t t') : 0 ≤ x := by
  cases h with
  | create x hx => exact hx.le
  | _ => exact le_rfl

/-- **Run.** -/
theorem Run.reached (h₀ : Sound t₀ c) (h : Run t₀ lost created t) (hcle : created ≤ c) :
    ∃ n, Reached t₀ t n lost created := by
  induction h with
  | refl => exact ⟨0, Reached.refl h₀⟩
  | step _ hstep ih =>
    have hx := hstep.created_nonneg
    obtain ⟨n, hn⟩ := ih ((le_add_of_nonneg_right hx).trans hcle)
    exact hn.step h₀ hstep hcle

/-- What is known of a till whose running balance may be paid into the fund. -/
structure Settled (t₀ t : Till) (lost : ℤ) : Prop where
  /-- No account is negative. -/
  overdrawn : t.overdrawn = 0
  negative : t.negative = 0
  outside : t.outside = 0
  positive : 0 ≤ t.positive
  lost_nonneg : 0 ≤ lost
  /-- The funds are conserved. -/
  balanced : wrap64 (t.withdrawn - t.deposited) + t.positive + t.fund - t.issued + lost =
    t₀.positive + t₀.fund - t₀.issued
  /-- Paying the balance into the fund does not wrap. -/
  fund : IsInt64 (t.fund + wrap64 (t.withdrawn - t.deposited))

/-- **Settlement.** A run that ends with a non-negative running balance has conserved the
funds. -/
theorem Run.settle (h₀ : Sound t₀ c) (h : Run t₀ lost created t) (hcle : created ≤ c)
    (hbalance : 0 ≤ wrap64 (t.withdrawn - t.deposited)) : Settled t₀ t lost := by
  obtain ⟨n, hc, hn, hbal, hdoom, hcov, hp, hneg0, ⟨ho0, hon⟩, hout, hnone, hunw, hemp, hlost,
    hfund, hburn, ⟨hwlo, hwhi⟩, hd0, hdmax⟩ := h.reached h₀ hcle
  have hfits := h₀.fits
  have hpos₀ := h₀.positive
  have hflo := h₀.fund
  obtain ⟨hi0, hifit⟩ := h₀.issued
  have hcmax := h₀.le
  have hfund₀ := parts t₀.fund
  unfold int64Min at hflo hwlo
  unfold int64Max at hfits hcmax hdmax hwhi hifit
  -- a negative difference that wraps to a non-negative balance is below the range
  have hdiff : (0 ≤ t.withdrawn - t.deposited ∧
        wrap64 (t.withdrawn - t.deposited) = t.withdrawn - t.deposited) ∨
      (t.withdrawn < 0 ∧ wrap64 (t.withdrawn - t.deposited) =
          t.withdrawn - t.deposited + 18446744073709551616) := by
    unfold wrap64 at hbalance ⊢
    omega
  have hzero : t.overdrawn = 0 := by omega
  have hnegative := hnone hzero
  refine ⟨hzero, hnegative, hout, hp, ?_, ?_, ⟨?_, ?_⟩⟩
  · omega
  · omega
  · unfold int64Min
    omega
  · unfold int64Max
    omega

end Till

end LarkX
