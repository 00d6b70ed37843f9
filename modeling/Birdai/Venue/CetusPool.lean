import Birdai.Tick.TickIndex

/-!
# The Cetus pool

The pool object, its quote over a tick index and the single-range shortcut.
-/

namespace CetusPool

open WideArith Outcomes SwapExactIn TickMath TickIndex

/-- How many boundaries a single quote may cross. -/
def maxTickCrossings : ℕ := 64

structure CetusClmm where
  coinA : U64
  coinB : U64
  tickSpacing : U32
  feeRate : U64
  liquidity : U128
  sqrtPrice : U128
  tick : I32
  feeGrowthGlobalA : U128
  feeGrowthGlobalB : U128
  feeProtocolCoinA : U64
  feeProtocolCoinB : U64
  ticks : SkipListHead
  isPaused : Bool
  index : U64
  url : List (Fin 256)
  deriving DecidableEq

namespace CetusClmm

/-- True when the pool can be priced at all. -/
def isPriceable (pool : CetusClmm) : Bool :=
  !pool.isPaused && 0 < pool.liquidity && 0 < pool.sqrtPrice &&
    (minSqrtPrice ≤ pool.sqrtPrice && pool.sqrtPrice ≤ maxSqrtPrice) &&
    pool.feeRate < feeDenominator

def state (pool : CetusClmm) : PoolState :=
  { sqrtPrice := pool.sqrtPrice
    liquidity := pool.liquidity
    tick := pool.tick.val
    feeRate := pool.feeRate }

def quoteLimit : Direction → U128
  | .bToA => maxSqrtPrice
  | .aToB => minSqrtPrice

def quoteExactIn (pool : CetusClmm) (ticks : Ticks) (direction : Direction) (amountIn : U128) :
    Except AmmError SwapResult :=
  swapExactIn ticks.source direction pool.state amountIn (quoteLimit direction) maxTickCrossings

/-- True when the quote would end in the tick the pool is in right now. -/
def staysInsideCurrentRange (pool : CetusClmm) (direction : Direction) (amountIn : U128) :
    Except AmmError Bool :=
  if pool.liquidity = 0 then .ok false
  else do
    let (net, _) ← takeFee amountIn pool.feeRate
    let reached ← priceFromAmount direction pool.sqrtPrice pool.liquidity net
    let start ← tickAtSqrtPrice pool.sqrtPrice
    if start ≠ pool.tick.val then .ok false
    else do
      let stop ← tickAtSqrtPrice reached
      .ok (stop = start)

/-- The tick set of a quote that consults none. -/
def noTicks : Ticks := Ticks.empty none none false

end CetusClmm

end CetusPool
