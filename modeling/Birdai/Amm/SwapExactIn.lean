import Birdai.Amm.WideArith
import Birdai.Base.BoundedLoop

/-!
# Exact-input swaps

The pricing functions and the swap loop of `swap.rs`, in the source's order of
checks. The `u32` crossing counter is kept in `Nat`: it stays at or below
`maxCrossings + 1`, so it leaves `u32` only for the cap `u32::MAX` itself.
-/

namespace SwapExactIn

open WideArith CheckedWords Outcomes BoundedLoop

abbrev I128 := { z : ℤ // -2 ^ 127 ≤ z ∧ z < 2 ^ 127 }

def I128.unsignedAbs (z : I128) : U128 :=
  ⟨z.val.natAbs, by have := z.property; omega⟩

def I128.checkedNeg (z : I128) : Option I128 :=
  if h : z.val = -2 ^ 127 then none
  else some ⟨-z.val, by have := z.property; omega⟩

def feeDenominator : U64 := 1000000

/-- The net input and the fee, which is rounded down. -/
def takeFee (amountIn : U128) (feeRate : U64) : Except AmmError (U128 × U128) :=
  if feeDenominator ≤ feeRate then .error (.invalidFeeRate feeRate)
  else do
    let gross ← (CheckedU256.fromU128 amountIn).checkedMul (.fromU64 feeRate)
    let quotient ← gross.checkedDiv (.fromU64 feeDenominator)
    let fee ← quotient.toU128
    let net ← okOr (checkedSub amountIn fee) (.overflow "fee exceeds input")
    .ok (net, fee)

def ordered (a b : U128) : U128 × U128 := if a ≤ b then (a, b) else (b, a)

def divRounding (x y : CheckedU256) (roundUp : Bool) : Except AmmError CheckedU256 :=
  if roundUp then x.checkedDivCeil y else x.checkedDiv y

/-- The amount of token A held by `liquidity` between two prices. -/
def deltaA (sqrtA sqrtB liquidity : U128) (roundUp : Bool) : Except AmmError U128 :=
  let (low, high) := ordered sqrtA sqrtB
  if low = 0 then .error (.invalidSqrtPrice 0)
  else if liquidity = 0 ∨ low = high then .ok 0
  else do
    let shifted ← (CheckedU256.fromU128 liquidity).checkedShl 64
    let numerator ← shifted.checkedMul (.fromU128 (high - low))
    let step ← divRounding numerator (.fromU128 high) roundUp
    let result ← divRounding step (.fromU128 low) roundUp
    result.toU128

/-- The amount of token B held by `liquidity` between two prices. -/
def deltaB (sqrtA sqrtB liquidity : U128) (roundUp : Bool) : Except AmmError U128 :=
  let (low, high) := ordered sqrtA sqrtB
  if liquidity = 0 ∨ low = high then .ok 0
  else do
    let product ← (CheckedU256.fromU128 liquidity).checkedMul (.fromU128 (high - low))
    let scale ← CheckedU256.one.checkedShl 64
    let result ← divRounding product scale roundUp
    result.toU128

def nextSqrtPriceUp (sqrtPrice liquidity amountB : U128) : Except AmmError U128 :=
  if liquidity = 0 then .error .zeroLiquidity
  else do
    let shifted ← (CheckedU256.fromU128 amountB).checkedShl 64
    let quotient ← shifted.checkedDiv (.fromU128 liquidity)
    let increment ← quotient.toU128
    okOr (checkedAdd sqrtPrice increment) (.overflow "next_sqrt_price_up")

def nextSqrtPriceDown (sqrtPrice liquidity amountA : U128) : Except AmmError U128 :=
  if liquidity = 0 then .error .zeroLiquidity
  else do
    let numerator ← (CheckedU256.fromU128 liquidity).checkedShl 64
    let spread ← (CheckedU256.fromU128 amountA).checkedMul (.fromU128 sqrtPrice)
    let denominator ← numerator.checkedAdd spread
    let product ← numerator.checkedMul (.fromU128 sqrtPrice)
    let quotient ← product.checkedDivCeil denominator
    quotient.toU128

/-- An initialised tick, as the price meets it. -/
structure Boundary where
  tick : ℤ
  sqrtPrice : U128
  liquidityNet : I128
  deriving DecidableEq

/-- The nearest initialised tick strictly above, and strictly below, a tick. -/
structure TickSource where
  nextBoundaryUp : ℤ → Option Boundary
  nextBoundaryDown : ℤ → Option Boundary

inductive Direction where
  | aToB
  | bToA
  deriving DecidableEq, Repr

structure Step where
  amountIn : U128
  amountOut : U128
  sqrtPriceStart : U128
  sqrtPriceEnd : U128
  liquidity : U128
  crossed : Bool
  deriving DecidableEq, Repr

structure SwapResult where
  amountIn : U128
  fee : U128
  amountOut : U128
  sqrtPriceStart : U128
  sqrtPriceEnd : U128
  tickStart : ℤ
  tickEnd : ℤ
  liquidityStart : U128
  liquidityEnd : U128
  inputConsumed : Bool
  steps : List Step
  deriving DecidableEq, Repr

structure PoolState where
  sqrtPrice : U128
  liquidity : U128
  tick : ℤ
  feeRate : U64
  deriving DecidableEq, Repr

/-- The price the whole of `amountIn` would reach within one range. -/
def priceFromAmount (direction : Direction) (sqrtPrice liquidity amountIn : U128) :
    Except AmmError U128 :=
  match direction with
  | .bToA => nextSqrtPriceUp sqrtPrice liquidity amountIn
  | .aToB => nextSqrtPriceDown sqrtPrice liquidity amountIn

def nextPrice (direction : Direction) (sqrtPrice liquidity amountIn limit : U128) :
    Except AmmError (U128 × Bool) := do
  let priceFromAmount ← priceFromAmount direction sqrtPrice liquidity amountIn
  let crosses := match direction with
    | .bToA => decide (limit ≤ priceFromAmount)
    | .aToB => decide (priceFromAmount ≤ limit)
  .ok (if crosses then (limit, true) else (priceFromAmount, false))

def isAhead (direction : Direction) (boundaryPrice sqrtPrice : U128) : Bool :=
  match direction with
  | .bToA => sqrtPrice < boundaryPrice
  | .aToB => boundaryPrice < sqrtPrice

def applyLiquidityChange (liquidity : U128) (liquidityNet : I128) : Except AmmError U128 :=
  if 0 ≤ liquidityNet.val then
    okOr (checkedAdd liquidity (I128.unsignedAbs liquidityNet)) (.overflow "add liquidity net")
  else
    okOr (checkedSub liquidity (I128.unsignedAbs liquidityNet))
      (.overflow "subtract liquidity net")

def limitReachable (direction : Direction) (priceLimit sqrtPrice : U128) : Bool :=
  match direction with
  | .bToA => sqrtPrice ≤ priceLimit
  | .aToB => priceLimit ≤ sqrtPrice

/-- The arguments of a swap that its loop never changes. -/
structure Call where
  source : TickSource
  direction : Direction
  priceLimit : U128
  maxCrossings : ℕ

/-- The loop's variables. -/
structure Walk where
  sqrtPrice : U128
  liquidity : U128
  tick : ℤ
  remaining : U128
  amountOut : U128
  steps : List Step
  crossings : ℕ
  deriving DecidableEq, Repr

namespace Call
variable (c : Call)

/-- The next boundary in the direction of travel, unless it is not ahead of the price. -/
def nextBoundary (w : Walk) : Option Boundary :=
  let boundary := match c.direction with
    | .bToA => c.source.nextBoundaryUp w.tick
    | .aToB => c.source.nextBoundaryDown w.tick
  boundary.filter (fun b => isAhead c.direction b.sqrtPrice w.sqrtPrice)

/-- The boundary's price, clamped to the swap's price limit. -/
def stepLimit (boundary : Option Boundary) : U128 :=
  let rawLimit := boundary.elim c.priceLimit Boundary.sqrtPrice
  match c.direction with
  | .bToA => min rawLimit c.priceLimit
  | .aToB => max rawLimit c.priceLimit

/-- What a step owes the pool and what the pool pays out for it. -/
def owedAndOut (sqrtPrice next liquidity : U128) : Except AmmError (U128 × U128) :=
  match c.direction with
  | .bToA => do
    let owed ← deltaB sqrtPrice next liquidity true
    let out ← deltaA sqrtPrice next liquidity false
    .ok (owed, out)
  | .aToB => do
    let owed ← deltaA next sqrtPrice liquidity true
    let out ← deltaB next sqrtPrice liquidity false
    .ok (owed, out)

/-- One step inside a range, and whether it reached its target. -/
def advance (w : Walk) (boundary : Option Boundary) : Except AmmError (Walk × Bool) := do
  let (next, reachedLimit) ←
    nextPrice c.direction w.sqrtPrice w.liquidity w.remaining (c.stepLimit boundary)
  if next = w.sqrtPrice then .error (.noProgress w.remaining)
  else do
    let (owed, out) ← c.owedAndOut w.sqrtPrice next w.liquidity
    let consumed := if reachedLimit then min owed w.remaining else w.remaining
    let amountOut ← okOr (checkedAdd w.amountOut out) (.overflow "accumulate output")
    let remaining ← okOr (checkedSub w.remaining consumed) (.overflow "consume input")
    let step : Step :=
      { amountIn := consumed
        amountOut := out
        sqrtPriceStart := w.sqrtPrice
        sqrtPriceEnd := next
        liquidity := w.liquidity
        crossed := reachedLimit }
    .ok ({ w with sqrtPrice := next, remaining, amountOut, steps := w.steps ++ [step] },
      reachedLimit)

/-- A boundary's net is defined upwards: crossing downwards applies the negation. -/
def appliedNet (boundary : Boundary) : Except AmmError I128 :=
  match c.direction with
  | .bToA => .ok boundary.liquidityNet
  | .aToB => okOr (I128.checkedNeg boundary.liquidityNet) (.overflow "negate liquidity net")

def cross (w : Walk) (boundary : Boundary) : Except AmmError (Pass Walk) :=
  let crossings := w.crossings + 1
  if c.maxCrossings < crossings then .error (.tooManyCrossings c.maxCrossings)
  else do
    let net ← c.appliedNet boundary
    let liquidity ← applyLiquidityChange w.liquidity net
    let crossed := { w with liquidity, tick := boundary.tick, crossings }
    if crossed.remaining = 0 then .ok (.leave crossed) else .ok (.again crossed)

/-- One pass of the `while` loop. -/
def pass (w : Walk) : Except AmmError (Pass Walk) :=
  if w.remaining = 0 then .ok (.leave w)
  else if w.sqrtPrice = c.priceLimit then .ok (.leave w)
  else do
    let boundary := c.nextBoundary w
    let (moved, reachedLimit) ← c.advance w boundary
    if reachedLimit then
      -- Landing on the price limit is not crossing a tick.
      match boundary.filter (fun b => b.sqrtPrice = moved.sqrtPrice) with
      | none => .ok (.leave moved)
      | some b => c.cross moved b
    else .ok (.leave moved)

/-- A step goes to the next price and leaves the tick and the crossing count alone. -/
theorem advance_keeps {w moved : Walk} {boundary : Option Boundary} {reached : Bool}
    (h : c.advance w boundary = .ok (moved, reached)) :
    moved.tick = w.tick ∧ moved.crossings = w.crossings ∧
      nextPrice c.direction w.sqrtPrice w.liquidity w.remaining (c.stepLimit boundary) =
        .ok (moved.sqrtPrice, reached) := by
  obtain ⟨⟨next, reachedLimit⟩, hprice, h⟩ := bind_eq_ok_iff.mp h
  dsimp only at h
  split at h
  · cases h
  · obtain ⟨⟨owed, out⟩, _, h⟩ := bind_eq_ok_iff.mp h
    obtain ⟨amountOut, _, h⟩ := bind_eq_ok_iff.mp h
    obtain ⟨remaining, _, h⟩ := bind_eq_ok_iff.mp h
    cases h
    exact ⟨rfl, rfl, hprice⟩

theorem cross_ok {w : Walk} {b : Boundary} {p : Pass Walk} (h : c.cross w b = .ok p) :
    w.crossings + 1 ≤ c.maxCrossings ∧ ∃ net liquidity,
      c.appliedNet b = .ok net ∧ applyLiquidityChange w.liquidity net = .ok liquidity ∧
      p.state = { w with liquidity, tick := b.tick, crossings := w.crossings + 1 } ∧
      (p = .leave p.state ↔ w.remaining = 0) := by
  unfold cross at h
  dsimp only at h
  split at h
  · cases h
  · obtain ⟨net, hnet, h⟩ := bind_eq_ok_iff.mp h
    obtain ⟨liquidity, hliq, h⟩ := bind_eq_ok_iff.mp h
    refine ⟨by omega, net, liquidity, hnet, hliq, ?_⟩
    split at h
    · cases h
      exact ⟨rfl, iff_of_true rfl ‹_›⟩
    · cases h
      exact ⟨rfl, iff_of_false nofun ‹_›⟩

/-- Everything a successful pass can do. -/
theorem pass_cases {w : Walk} {p : Pass Walk} (h : c.pass w = .ok p) :
    ((w.remaining = 0 ∨ w.sqrtPrice = c.priceLimit) ∧ p = .leave w) ∨
    (w.remaining ≠ 0 ∧ w.sqrtPrice ≠ c.priceLimit ∧ ∃ moved reachedLimit,
      c.advance w (c.nextBoundary w) = .ok (moved, reachedLimit) ∧
      ((p = .leave moved ∧ (reachedLimit = true →
          ∀ b, c.nextBoundary w = some b → b.sqrtPrice ≠ moved.sqrtPrice)) ∨
        (reachedLimit = true ∧ ∃ b, c.nextBoundary w = some b ∧
          b.sqrtPrice = moved.sqrtPrice ∧ c.cross moved b = .ok p))) := by
  simp only [pass] at h
  split at h
  · cases h
    exact .inl ⟨.inl ‹_›, rfl⟩
  · split at h
    · cases h
      exact .inl ⟨.inr ‹_›, rfl⟩
    · refine .inr ⟨‹_›, ‹_›, ?_⟩
      obtain ⟨⟨moved, reachedLimit⟩, hadv, h⟩ := bind_eq_ok_iff.mp h
      refine ⟨moved, reachedLimit, hadv, ?_⟩
      dsimp only at h
      split at h
      · rename_i hreached
        split at h
        · rename_i hnone
          cases h
          refine .inl ⟨rfl, fun _ b hb => ?_⟩
          rw [hb, Option.filter_eq_none_iff] at hnone
          simpa using hnone b rfl
        · rename_i b hb
          obtain ⟨hb, hprice⟩ := Option.filter_eq_some_iff.mp hb
          exact .inr ⟨hreached, b, hb, by simpa using hprice, h⟩
      · rename_i hreached
        cases h
        exact .inl ⟨rfl, fun hr => absurd hr hreached⟩

end Call

/-- The walk's passes are bounded by the crossings it may still make. -/
def Call.loop (c : Call) : Loop AmmError Walk where
  body := c.pass
  measure w := c.maxCrossings - w.crossings
  decreases := by
    intro w t h
    rcases c.pass_cases h with ⟨_, hp⟩ | ⟨_, _, moved, reached, hadv, ⟨hp, _⟩ | ⟨_, b, _, _, hx⟩⟩
    · cases hp
    · cases hp
    · obtain ⟨hcap, net, liquidity, _, _, hstate, _⟩ := c.cross_ok hx
      have hkeep := (c.advance_keeps hadv).2.1
      have ht : t.crossings = moved.crossings + 1 := congrArg Walk.crossings hstate
      omega

def Walk.start (state : PoolState) (netInput : U128) : Walk :=
  { sqrtPrice := state.sqrtPrice
    liquidity := state.liquidity
    tick := state.tick
    remaining := netInput
    amountOut := 0
    steps := []
    crossings := 0 }

/-- The fee on the consumed input: the rest is refunded in proportion. -/
def feeCharged (fee remaining netInput : U128) : Except AmmError U128 :=
  if remaining = 0 ∨ netInput = 0 then .ok fee
  else do
    let product ← (CheckedU256.fromU128 fee).checkedMul (.fromU128 remaining)
    let quotient ← product.checkedDiv (.fromU128 netInput)
    let refundable ← quotient.toU128
    okOr (checkedSub fee refundable) (.overflow "fee refund")

def swapExactIn (source : TickSource) (direction : Direction) (state : PoolState)
    (amountIn priceLimit : U128) (maxCrossings : ℕ) : Except AmmError SwapResult :=
  if state.sqrtPrice = 0 then .error (.invalidSqrtPrice 0)
  else if state.liquidity = 0 then .error .zeroLiquidity
  else if limitReachable direction priceLimit state.sqrtPrice then do
    let (netInput, fee) ← takeFee amountIn state.feeRate
    let call : Call := { source, direction, priceLimit, maxCrossings }
    let final ← call.loop.run (Walk.start state netInput)
    let fee ← feeCharged fee final.remaining netInput
    .ok
      { amountIn
        fee
        amountOut := final.amountOut
        sqrtPriceStart := state.sqrtPrice
        sqrtPriceEnd := final.sqrtPrice
        tickStart := state.tick
        tickEnd := final.tick
        liquidityStart := state.liquidity
        liquidityEnd := final.liquidity
        inputConsumed := final.remaining = 0
        steps := final.steps }
  else .error (.unreachablePriceLimit state.sqrtPrice priceLimit)

end SwapExactIn
