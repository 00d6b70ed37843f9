import Birdai.Amm.RangeLadder
import Birdai.Venue.CetusPool

/-!
# Which pools are quoted

A quote refuses a pool without price or liquidity, with a rate that leaves no
input, or whose price is past the limit of the direction. Whether the pool is
paused, and whether its price is past the other end, it never looks at.
-/

namespace Priceable

open WideArith Outcomes BoundedLoop SwapExactIn PricingSpecs WalkShape RangeLadder TickMath
open TickIndex CetusPool CetusClmm

/-- What the guards of a quote reject. -/
def Refused (pool : CetusClmm) (direction : Direction) : Prop :=
  pool.sqrtPrice = 0 ∨ pool.liquidity = 0 ∨ feeDenominator ≤ pool.feeRate ∨
    limitReachable direction (quoteLimit direction) pool.sqrtPrice = false

/-- The end of the price range that lies behind a quote. -/
def withinFarEnd (direction : Direction) (sqrtPrice : U128) : Prop :=
  match direction with
  | .bToA => minSqrtPrice ≤ sqrtPrice
  | .aToB => sqrtPrice ≤ maxSqrtPrice

theorem isPriceable_iff (pool : CetusClmm) : pool.isPriceable = true ↔
    pool.isPaused = false ∧ 0 < pool.liquidity ∧ 0 < pool.sqrtPrice ∧
      minSqrtPrice ≤ pool.sqrtPrice ∧ pool.sqrtPrice ≤ maxSqrtPrice ∧
      pool.feeRate < feeDenominator := by
  simp only [isPriceable, Bool.and_eq_true, Bool.not_eq_true', decide_eq_true_eq]
  tauto

theorem isPriceable_of_not_refused {pool : CetusClmm} {direction : Direction}
    (h : ¬ Refused pool direction) : pool.isPriceable = true ↔
      pool.isPaused = false ∧ withinFarEnd direction pool.sqrtPrice := by
  simp only [Refused, not_or] at h
  obtain ⟨hprice, hliq, hrate, hlimit⟩ := h
  have hprice : 0 < pool.sqrtPrice := Fin.pos_iff_ne_zero.mpr hprice
  have hliq : 0 < pool.liquidity := Fin.pos_iff_ne_zero.mpr hliq
  have hlimit : limitReachable direction (quoteLimit direction) pool.sqrtPrice = true := by
    simpa using hlimit
  rw [isPriceable_iff]
  cases direction with
  | bToA =>
    have hmax : pool.sqrtPrice ≤ maxSqrtPrice := of_decide_eq_true hlimit
    constructor
    · rintro ⟨hpaused, _, _, hmin, _⟩
      exact ⟨hpaused, hmin⟩
    · rintro ⟨hpaused, hmin⟩
      exact ⟨hpaused, hliq, hprice, hmin, hmax, not_le.mp hrate⟩
  | aToB =>
    have hmin : minSqrtPrice ≤ pool.sqrtPrice := of_decide_eq_true hlimit
    constructor
    · rintro ⟨hpaused, _, _, _, hmax, _⟩
      exact ⟨hpaused, hmax⟩
    · rintro ⟨hpaused, hmax⟩
      exact ⟨hpaused, hliq, hprice, hmin, hmax, not_le.mp hrate⟩

theorem not_refused_of_quote {pool : CetusClmm} {ticks : Ticks} {direction : Direction}
    {amountIn : U128} {r : SwapResult} (h : pool.quoteExactIn ticks direction amountIn = .ok r) :
    ¬ Refused pool direction := by
  obtain ⟨netInput, fee, final, hfee, hlimit, hliq, _⟩ := swapExactIn_ok h
  have hrate := (takeFee_ok hfee).1
  have hprice : pool.sqrtPrice ≠ 0 := by
    intro hz
    have hzero : pool.state.sqrtPrice = 0 := hz
    rw [quoteExactIn, swapExactIn, if_pos hzero] at h
    cases h
  rintro (hz | hz | hz | hz)
  · exact hprice hz
  · exact hliq hz
  · exact absurd hrate (not_lt.mpr hz)
  · have hreach : limitReachable direction (quoteLimit direction) pool.sqrtPrice = true :=
      limitReachable_iff.mpr hlimit
    rw [hz] at hreach
    cases hreach

/-- A pool that passes the guards is quoted, for no input at least. -/
theorem quote_of_not_refused {pool : CetusClmm} {direction : Direction}
    (h : ¬ Refused pool direction) (ticks : Ticks) :
    ∃ r, pool.quoteExactIn ticks direction 0 = .ok r := by
  simp only [Refused, not_or] at h
  obtain ⟨hprice, hliq, hrate, hlimit⟩ := h
  have hlimit : limitReachable direction (quoteLimit direction) pool.sqrtPrice = true := by
    simpa using hlimit
  obtain ⟨net, fee, hfee⟩ := exists_takeFee 0 (not_le.mp hrate)
  have hnet : net = 0 := by
    have hsum := (takeFee_ok hfee).2.2
    rw [Fin.val_zero] at hsum
    exact Fin.ext (show net.val = 0 by omega)
  apply ((swap_of_walk hprice hliq (limitReachable_iff.mp hlimit) hfee).2).mpr
  exact ⟨_, Loop.run_of_leave _ (pass_of_stop (.inl hnet))⟩

/-- A quote comes from a priceable pool exactly when the pool is not paused and its
price is within the end of the range that the direction leaves behind. -/
theorem quoted_priceable_iff (pool : CetusClmm) (ticks : Ticks) (direction : Direction) :
    (∀ amountIn r, pool.quoteExactIn ticks direction amountIn = .ok r →
      (pool.isPriceable = true ↔
        pool.isPaused = false ∧ withinFarEnd direction pool.sqrtPrice)) ∧
    ((∀ amountIn r, pool.quoteExactIn ticks direction amountIn = .ok r →
        pool.isPriceable = true) ↔
      Refused pool direction ∨
        (pool.isPaused = false ∧ withinFarEnd direction pool.sqrtPrice)) := by
  refine ⟨fun amountIn r h => isPriceable_of_not_refused (not_refused_of_quote h), ?_⟩
  constructor
  · intro h
    by_cases hrefused : Refused pool direction
    · exact .inl hrefused
    · obtain ⟨r, hr⟩ := quote_of_not_refused hrefused ticks
      exact .inr ((isPriceable_of_not_refused hrefused).mp (h 0 r hr))
  · rintro (hrefused | hlive) amountIn r hr
    · exact absurd hrefused (not_refused_of_quote hr)
    · exact (isPriceable_of_not_refused (not_refused_of_quote hr)).mpr hlive

theorem tick_zero : -2 ^ 31 ≤ (0 : ℤ) ∧ (0 : ℤ) < 2 ^ 31 := by decide

def pausedPool : CetusClmm :=
  { coinA := 0
    coinB := 0
    tickSpacing := 10
    feeRate := 2500
    liquidity := 1000000
    sqrtPrice := 18446744073709551616
    tick := ⟨0, tick_zero⟩
    feeGrowthGlobalA := 0
    feeGrowthGlobalB := 0
    feeProtocolCoinA := 0
    feeProtocolCoinB := 0
    ticks :=
      { nodeUid := 0
        head := none
        tail := none
        level := 1
        maxLevel := 16
        size := 0
        seed := 0 }
    isPaused := true
    index := 0
    url := [] }

theorem paused_pool_is_quoted :
    ¬ ∀ (pool : CetusClmm) (ticks : Ticks) (direction : Direction) (amountIn : U128)
        (r : SwapResult), pool.quoteExactIn ticks direction amountIn = .ok r →
          pool.isPriceable = true := by
  intro h
  obtain ⟨r, hr⟩ := exists_ok
    (show (pausedPool.quoteExactIn noTicks .bToA 1000).isOk = true by decide +kernel)
  exact absurd (h _ _ _ _ r hr) (by decide +kernel)

end Priceable
