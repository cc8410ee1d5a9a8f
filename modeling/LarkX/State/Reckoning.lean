import LarkX.State.Holdings

/-!
# Reckoning the books of a market

The chain checks its books with sums over whole tables: what is held of an asset
(`Tables.calculateSupply`), what is owed in it. A `Reckoning` is such a sum for one market: it
counts every amount of the base asset `base` times, every amount of the quote asset `quote` times,
every debt `debt` times, and the supply of the quote asset `supply` times. One write to the market
moves the sum by the amounts it writes (`Reckoning.weigh_bid` and its companions), so the effect of
a trade is computed once, for all sums.
-/

namespace LarkX

/-! ### The sums of the chain -/

namespace Tables

/-- What `chain_database::calculate_supply` counts of an asset: its fees, balances and asks, and
its bids; of the base asset of the chain all shorts, collateral and pay instead of the bids. -/
def calculateSupply (t : Tables) (a : ℤ) : ℤ :=
  t.collectedFees a + t.balances.sum (fun _ r => r.held a) +
    t.asks.sum (fun key r => r.askHeld a key) +
    if a = 0 then
      t.shorts.sum (fun _ r => r.balance) + t.collateral.sum (fun _ r => r.collateralBalance) +
        t.accounts.sum (fun _ r => r.payBalance)
    else t.bids.sum (fun key r => r.bidHeld a key)

/-- The balances, asks, shorts and collateral of an asset, and its fees. -/
def baseFunds (t : Tables) (a : ℤ) : ℤ :=
  t.collectedFees a + t.balances.sum (fun _ r => r.held a) +
    t.asks.sum (fun key r => r.askHeld a key) + t.shorts.sum (fun key r => r.askHeld a key) +
    t.collateral.sum (fun key r => r.held a key)

end Tables

/-! ### Reckonings -/

/-- A sum over the books of a market. Outside the market it may count as it likes; in the market
every amount of an asset counts the same, wherever it is held, and a unit of the quote asset that is
issued against a debt counts nothing. -/
structure Reckoning where
  pair : AssetPair
  base : ℤ
  quote : ℤ
  debt : ℤ
  supply : ℤ
  balanceOf : ℤ → ℤ
  bidOf : AssetPair → ℤ
  askOf : AssetPair → ℤ
  shortOf : AssetPair → ℤ
  collateralOf : AssetPair → ℤ
  debtOf : AssetPair → ℤ
  balance_base : balanceOf pair.base = base
  balance_quote : balanceOf pair.quote = quote
  bid_eq : bidOf pair = quote
  ask_eq : askOf pair = base
  short_eq : shortOf pair = base
  collateral_eq : collateralOf pair = base
  debt_eq : debtOf pair = debt
  even : quote + debt + supply = 0

namespace Reckoning

variable {crypto : Crypto} (r : Reckoning) {t : Tables} {key : MarketIndexKey}

/-- The sum over the tables, without fees and supply. -/
def weigh (t : Tables) : ℤ :=
  t.balances.sum (fun _ b => r.balanceOf b.assetId * b.balance) +
    t.bids.sum (fun key o => r.bidOf key.assetPair * o.balance) +
    t.asks.sum (fun key o => r.askOf key.assetPair * o.balance) +
    t.shorts.sum (fun key o => r.shortOf key.assetPair * o.balance) +
    t.collateral.sum (fun key p =>
      r.collateralOf key.assetPair * p.collateralBalance + r.debtOf key.assetPair * p.payoffBalance)

/-- The whole sum. -/
def total (t : Tables) : ℤ :=
  r.weigh t + r.base * t.collectedFees r.pair.base + r.quote * t.collectedFees r.pair.quote +
    r.supply * t.currentShareSupply r.pair.quote

/-! ### One write -/

private theorem elim_mul {α : Type} (x : ℤ) (f : α → ℤ) (o : Option α) :
    o.elim 0 (fun v => x * f v) = x * o.elim 0 f := by
  cases o with
  | none => exact (mul_zero x).symm
  | some v => rfl

theorem weigh_balance (t : Tables) (b : BalanceRecord) :
    r.weigh (t.write crypto (.balance b)) = r.weigh t + (r.balanceOf b.assetId * b.balance -
      (t.balances[crypto.conditionAddress b.condition]?).elim 0 fun b' =>
        r.balanceOf b'.assetId * b'.balance) := by
  simp only [weigh, Tables.write, Table.sum_insert]
  ring

theorem weigh_bid (hkey : key.assetPair = r.pair) (o : OrderRecord) :
    r.weigh (t.write crypto (.bid key o)) = r.weigh t +
      r.quote * (o.balance - (t.bids[key]?).elim 0 OrderRecord.balance) := by
  simp only [weigh, Tables.write, Table.sum_insert, hkey, r.bid_eq, elim_mul]
  ring

theorem weigh_ask (hkey : key.assetPair = r.pair) (o : OrderRecord) :
    r.weigh (t.write crypto (.ask key o)) = r.weigh t +
      r.base * (o.balance - (t.asks[key]?).elim 0 OrderRecord.balance) := by
  simp only [weigh, Tables.write, Table.sum_insert, hkey, r.ask_eq, elim_mul]
  ring

theorem weigh_short (hkey : key.assetPair = r.pair) (o : OrderRecord) :
    r.weigh (t.write crypto (.short key o)) = r.weigh t +
      r.base * (o.balance - (t.shorts[key]?).elim 0 OrderRecord.balance) := by
  simp only [weigh, Tables.write, Table.sum_insert, hkey, r.short_eq, elim_mul]
  ring

theorem weigh_collateral (hkey : key.assetPair = r.pair) (p : CollateralRecord) :
    r.weigh (t.write crypto (.collateral key p)) = r.weigh t +
      r.base * (p.collateralBalance -
        (t.collateral[key]?).elim 0 CollateralRecord.collateralBalance) +
      r.debt * (p.payoffBalance - (t.collateral[key]?).elim 0 CollateralRecord.payoffBalance) := by
  simp only [weigh, Tables.write, Table.sum_insert, hkey, r.collateral_eq, r.debt_eq]
  cases t.collateral[key]? with
  | none =>
    simp only [Option.elim_none]
    ring
  | some p' =>
    simp only [Option.elim_some]
    ring

/-! ### The sums of a market -/

section Sums

variable (pair : AssetPair) (hpair : pair.base < pair.quote)

/-- All amounts of the base asset. -/
def funds : Reckoning where
  pair := pair
  base := 1
  quote := 0
  debt := 0
  supply := 0
  balanceOf a := if a = pair.base then 1 else 0
  bidOf _ := 0
  askOf p := if p.base = pair.base then 1 else 0
  shortOf p := if p.base = pair.base then 1 else 0
  collateralOf p := if p.base = pair.base then 1 else 0
  debtOf _ := 0
  balance_base := if_pos rfl
  balance_quote := if_neg hpair.ne'
  bid_eq := rfl
  ask_eq := if_pos rfl
  short_eq := if_pos rfl
  collateral_eq := if_pos rfl
  debt_eq := rfl
  even := rfl

/-- All amounts of the quote asset, less the debt in it. -/
def backed : Reckoning where
  pair := pair
  base := 0
  quote := 1
  debt := -1
  supply := 0
  balanceOf a := if a = pair.quote then 1 else 0
  bidOf p := if p.quote = pair.quote then 1 else 0
  askOf p := if p.base = pair.quote then 1 else 0
  shortOf _ := 0
  collateralOf _ := 0
  debtOf p := if p.quote = pair.quote then -1 else 0
  balance_base := if_neg hpair.ne
  balance_quote := if_pos rfl
  bid_eq := if_pos rfl
  ask_eq := if_neg hpair.ne
  short_eq := rfl
  collateral_eq := rfl
  debt_eq := if_pos rfl
  even := rfl

/-- The supply of the quote asset, less the debt in it. -/
def issued : Reckoning where
  pair := pair
  base := 0
  quote := 0
  debt := -1
  supply := 1
  balanceOf _ := 0
  bidOf _ := 0
  askOf _ := 0
  shortOf _ := 0
  collateralOf _ := 0
  debtOf p := if p.quote = pair.quote then -1 else 0
  balance_base := rfl
  balance_quote := rfl
  bid_eq := rfl
  ask_eq := rfl
  short_eq := rfl
  collateral_eq := rfl
  debt_eq := if_pos rfl
  even := rfl

end Sums

end Reckoning

end LarkX
