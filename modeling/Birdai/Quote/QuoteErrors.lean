import Birdai.Amm.RangeLadder
import Birdai.Amm.LargerSwap
import Birdai.Quote.BookTraversal

/-!
# When a swap fails

Which inputs make a swap run into an empty range, overflow, or stall on a
remainder that cannot move the price, read off the ranges it enters.
-/

namespace QuoteErrors

open WideArith CheckedWords Outcomes BoundedLoop SwapExactIn PricingSpecs StepRounding WalkShape
open StepOrder LargerSwap PricingDomain RangeLadder TickMath TickIndex TickBook

/-! ### Empty ranges -/

/-- A range without liquidity is entered with input left, short of the limit. -/
def EntersGap (c : Call) (state : PoolState) (amountIn : U128) : Prop :=
  state.sqrtPrice ≠ 0 ∧ reach c.direction state.sqrtPrice ≤ reach c.direction c.priceLimit ∧
    state.feeRate.val < 1000000 ∧
    ∃ e, Enters c (.start state amountIn) e ∧ e.liquidity = 0 ∧ 0 < e.remaining ∧
      e.sqrtPrice ≠ c.priceLimit

/-- A swap of a pool with liquidity runs dry exactly when it enters a gap. -/
theorem swap_dry_iff (source : TickSource) (direction : Direction) (state : PoolState)
    (hliq : state.liquidity ≠ 0) (amountIn priceLimit : U128) (maxCrossings : ℕ) :
    swapExactIn source direction state amountIn priceLimit maxCrossings ≠ .error .zeroLiquidity ↔
      ¬ EntersGap { source, direction, priceLimit, maxCrossings } state amountIn := by
  rw [not_iff_not]
  constructor
  · intro h
    have hpos : state.sqrtPrice ≠ 0 := by
      intro hz
      rw [swapExactIn, if_pos hz] at h
      cases h
    have hlimit : limitReachable direction priceLimit state.sqrtPrice = true := by
      by_contra hnot
      rw [swapExactIn, if_neg hpos, if_neg hliq, if_neg hnot] at h
      cases h
    cases hfee : takeFee amountIn state.feeRate with
    | error e =>
      have hfails := takeFee_fails amountIn state.feeRate e hfee
      simp only [swapExactIn, if_neg hpos, if_neg hliq, hlimit, ↓reduceIte, hfee, error_bind,
        Except.error.injEq] at h
      exact absurd h hfails.2
    | ok nets =>
      obtain ⟨net, fee⟩ := nets
      rw [limitReachable_iff] at hlimit
      obtain ⟨t, ht, hpass⟩ := (swap_eq_error_iff hpos hliq hlimit hfee).mp h
      obtain ⟨hdry, hrem, hat⟩ := (pass_dry_iff (comes_within ht hlimit)).mp hpass
      exact ⟨hpos, hlimit, (takeFee_ok hfee).1, .of t, (enters_start_iff hfee).mpr ⟨t, ht, rfl⟩,
        hdry, remaining_pos_iff.mpr hrem, hat⟩
  · rintro ⟨hpos, hlimit, hrate, e, henters, hdry, hleft, hat⟩
    obtain ⟨net, fee, hfee⟩ := exists_takeFee amountIn hrate
    obtain ⟨t, ht, rfl⟩ := (enters_start_iff hfee).mp henters
    refine (swap_eq_error_iff hpos hliq hlimit hfee).mpr ⟨t, ht, ?_⟩
    exact (pass_dry_iff (comes_within ht hlimit)).mpr ⟨hdry, remaining_pos_iff.mp hleft, hat⟩

theorem swap_dry_sample :
    ¬ EntersGap ⟨sampleSource, .aToB, 1, 3⟩ samplePool 1000 :=
  (swap_dry_iff sampleSource .aToB samplePool (by decide) 1000 1 3).mp (by decide +kernel)

/-- A position over `[-100, 0)` and one over `[100, 200)`, with nothing between them. -/
def gapTicks : List TickNode :=
  [nodeFrom (-100) 443536 18354745142194483563 1000000 [443636],
   nodeFrom 0 443636 18446744073709551616 (-1000000) [443736],
   nodeFrom 100 443736 18539204128674405812 1000000 [443836],
   nodeFrom 200 443836 18632127618364105992 (-1000000) []]

def gapIndex : Ticks :=
  { nodeUid := none
    nodes := gapTicks
    byTick := positions TickNode.index gapTicks
    byScore := positions TickNode.score gapTicks
    declaredSize := some 4
    strictSize := true
    priceDeviations := Finmap.singleton 0 4 }

/-- A pool inside the lower position, on its way up to the gap. -/
def gapPool : PoolState :=
  { sqrtPrice := 18400000000000000000, liquidity := 1000000, tick := -50, feeRate := 0 }

/-- Above the pool the liquidity in force is never negative, and zero only between the
two positions. One unit more than the way to the gap costs fails the whole swap. -/
theorem swap_dry_at_gap :
    gapIndex.Accepted ∧ gapPool.liquidity ≠ 0 ∧
    (∀ crossed ∈ ((gapIndex.nodes.map TickNode.boundary).filter fun b =>
        gapPool.tick < b.tick).inits,
      0 ≤ (gapPool.liquidity.val : ℤ) + BookTraversal.inflow .bToA crossed) ∧
    swapExactIn gapIndex.source .bToA gapPool 2536 maxSqrtPrice 64 = .error .zeroLiquidity :=
  ⟨.inl ⟨none, some 4, gapTicks, by decide +kernel⟩, by decide, by decide +kernel,
    by decide +kernel⟩

/-! ### Stalled remainders -/

/-- The input cannot pay for moving the price by one unit. -/
def Stalls (d : Direction) (liquidity sqrtPrice amountIn : ℕ) : Prop :=
  match d with
  | .bToA => amountIn * 2 ^ 64 < liquidity
  | .aToB => amountIn * sqrtPrice * (sqrtPrice - 1) < liquidity * 2 ^ 64

theorem stalls_iff {d : Direction} {sqrtPrice liquidity amountIn full : U128}
    (hfull : priceFromAmount d sqrtPrice liquidity amountIn = .ok full) :
    Stalls d liquidity.val sqrtPrice.val amountIn.val ↔ full = sqrtPrice := by
  cases d with
  | bToA =>
    obtain ⟨hliq, hfull⟩ := nextSqrtPriceUp_ok hfull
    rw [Fin.ext_iff, hfull, Nat.add_eq_left, Nat.div_eq_zero_iff_lt hliq]
    rfl
  | aToB =>
    obtain ⟨hliq, hval⟩ := nextSqrtPriceDown_ok hfull
    have hforward := priceFromAmount_forward hfull
    have hle : full.val ≤ sqrtPrice.val := le_of_reach_down hforward
    have hden : 0 < liquidity.val * 2 ^ 64 + amountIn.val * sqrtPrice.val := by positivity
    have hunit : full.val ≤ sqrtPrice.val - 1 ↔ sqrtPrice.val = 0 ∨
        liquidity.val * 2 ^ 64 ≤ amountIn.val * sqrtPrice.val * (sqrtPrice.val - 1) := by
      rw [hval, ceilDiv_le_iff_le_mul hden]
      rcases Nat.eq_zero_or_pos sqrtPrice.val with hzero | hpos
      · simp [hzero]
      · obtain ⟨n, hn⟩ := Nat.exists_eq_succ_of_ne_zero hpos.ne'
        simp only [hn, Nat.succ_eq_add_one, Nat.add_sub_cancel, Nat.succ_ne_zero, false_or]
        constructor
        · intro h
          linarith
        · intro h
          linarith
    rw [Fin.ext_iff]
    simp only [Stalls]
    rcases Nat.eq_zero_or_pos sqrtPrice.val with hzero | hpos
    · refine iff_of_true ?_ (by omega)
      rw [hzero, Nat.mul_zero]
      positivity
    · constructor
      · intro hstall
        by_contra hmoves
        rcases hunit.mp (by omega) with hzero | hpaid
        · omega
        · omega
      · intro hstays
        by_contra hpaid
        have hmoves := hunit.mpr (.inr (not_lt.mp hpaid))
        omega

/-- A pass that cannot move the price fails. -/
theorem pass_stalls {c : Call} {w : Walk} {full : U128}
    (hlimit : reach c.direction w.sqrtPrice ≤ reach c.direction c.priceLimit)
    (hrem : w.remaining ≠ 0) (hprice : w.sqrtPrice ≠ c.priceLimit)
    (hfull : priceFromAmount c.direction w.sqrtPrice w.liquidity w.remaining = .ok full)
    (hstall : Stalls c.direction w.liquidity.val w.sqrtPrice.val w.remaining.val) :
    c.pass w = .error (.noProgress w.remaining) := by
  obtain rfl := (stalls_iff hfull).mp hstall
  have htarget := (stepLimit_ahead hlimit).1
  have hnext : ∃ reached, nextPrice c.direction w.sqrtPrice w.liquidity w.remaining
      (c.stepLimit (c.nextBoundary w)) = .ok (w.sqrtPrice, reached) := by
    rw [nextPrice_of_full hfull]
    split
    · rename_i hle
      exact ⟨true, by rw [reach_inj.mp (le_antisymm hle htarget)]⟩
    · exact ⟨false, rfl⟩
  obtain ⟨reached, hnext⟩ := hnext
  simp only [Call.pass, if_neg hrem, if_neg hprice, Call.advance, hnext, ok_bind, ↓reduceIte,
    error_bind]

/-- Where the input moves the price at all, a step moves ahead. -/
theorem moves_of_not_stalled {c : Call} {w : Walk} {full next : U128} {reached : Bool}
    (hlimit : reach c.direction w.sqrtPrice ≤ reach c.direction c.priceLimit)
    (hprice : w.sqrtPrice ≠ c.priceLimit)
    (hfull : priceFromAmount c.direction w.sqrtPrice w.liquidity w.remaining = .ok full)
    (hpriced : nextPrice c.direction w.sqrtPrice w.liquidity w.remaining
      (c.stepLimit (c.nextBoundary w)) = .ok (next, reached))
    (hstall : ¬ Stalls c.direction w.liquidity.val w.sqrtPrice.val w.remaining.val) :
    reach c.direction w.sqrtPrice ≤ reach c.direction next ∧ next ≠ w.sqrtPrice := by
  have hreach := (nextPrice_reach hfull hpriced).1
  have hahead := target_ahead hlimit hprice
  constructor
  · rw [hreach]
    exact le_min hahead.le (priceFromAmount_forward hfull)
  · rintro rfl
    rcases min_choice (reach c.direction (c.stepLimit (c.nextBoundary w)))
      (reach c.direction full) with hmin | hmin
    · exact absurd (hreach.trans hmin) hahead.ne
    · exact hstall ((stalls_iff hfull).mpr (reach_inj.mp (hreach.trans hmin)).symm)

theorem cross_of_same {c : Call} {w w' : Walk} {b : Boundary} {p' : Pass Walk}
    (hliq : w'.liquidity = w.liquidity) (hcount : w'.crossings = w.crossings)
    (h : c.cross w' b = .ok p') : ∃ p, c.cross w b = .ok p := by
  obtain ⟨hcap, net, liquidity, hnet, happlied, _, _⟩ := c.cross_ok h
  rw [hliq] at happlied
  simp only [Call.cross, if_neg (show ¬ c.maxCrossings < w.crossings + 1 by omega), hnet, happlied,
    ok_bind]
  split
  · exact ⟨_, rfl⟩
  · exact ⟨_, rfl⟩

theorem positive_between {d : Direction} {start mid stop : U128}
    (hpos : 0 < start.val ∧ 0 < stop.val) (hmid : reach d start ≤ reach d mid)
    (hstop : reach d mid ≤ reach d stop) : 0 < mid.val := by
  cases d with
  | bToA => exact hpos.1.trans_le (le_of_reach_up hmid)
  | aToB => exact hpos.2.trans_le (le_of_reach_down hstop)

/-- Where a larger walk passes, a smaller one passes too unless it stalls. -/
theorem pass_of_larger {c : Call} {w w' : Walk} {p' : Pass Walk} (abreast : Abreast w w')
    (hlimit : reach c.direction w.sqrtPrice ≤ reach c.direction c.priceLimit)
    (hle : w.remaining ≤ w'.remaining) (hout : w.amountOut ≤ w'.amountOut)
    (hcount : w'.crossings = w.crossings) (hrem : w.remaining ≠ 0)
    (hprice : w.sqrtPrice ≠ c.priceLimit) (hp' : c.pass w' = .ok p') :
    ∃ full, priceFromAmount c.direction w.sqrtPrice w.liquidity w.remaining = .ok full ∧
      (¬ Stalls c.direction w.liquidity.val w.sqrtPrice.val w.remaining.val →
        ∃ p, c.pass w = .ok p) := by
  have hseen : c.nextBoundary w' = c.nextBoundary w := nextBoundary_abreast abreast
  rcases c.pass_cases hp' with ⟨hstop, _⟩ | ⟨hrem', hprice', moved', reached', hmoved', _⟩
  · rcases hstop with hzero | hat
    · exact absurd hzero (larger_ne_zero hle hrem)
    · exact absurd (abreast.sqrtPrice.symm.trans hat) hprice
  rw [hseen] at hmoved'
  obtain ⟨next', owed', out', amountOut', remaining', hpriced', _, howed', hout', _, hmoved'eq⟩ :=
    advance_eq_ok_iff.mp hmoved'
  rw [abreast.sqrtPrice, abreast.liquidity] at hpriced' howed'
  obtain ⟨full', hfull', _⟩ := nextPrice_ok hpriced'
  obtain ⟨hstocked, hfits⟩ := exists_price_iff.mp ⟨full', hfull'⟩
  obtain ⟨full, hfull⟩ := exists_price_iff.mpr ⟨hstocked, fits_mono hfits (Fin.le_def.mp hle)⟩
  refine ⟨full, hfull, fun hstall => ?_⟩
  have hmono := priceFromAmount_mono hfull hfull' hle
  obtain ⟨next, reached, hpriced⟩ : ∃ next reached, nextPrice c.direction w.sqrtPrice w.liquidity
      w.remaining (c.stepLimit (c.nextBoundary w)) = .ok (next, reached) :=
    ⟨_, _, nextPrice_of_full hfull _⟩
  obtain ⟨hreach, hcrossed⟩ := nextPrice_reach hfull hpriced
  obtain ⟨hreach', hcrossed'⟩ := nextPrice_reach hfull' hpriced'
  obtain ⟨hmid, hmoves⟩ := moves_of_not_stalled hlimit hprice hfull hpriced hstall
  have hfar : reach c.direction next ≤ reach c.direction next' := by
    rw [hreach, hreach']
    exact min_le_min_left _ hmono
  obtain ⟨hpos, hroom, _, hpayout⟩ := (owedAndOut_eq_ok_iff (hmid.trans hfar)).mp howed'
  have hposNext := positive_between hpos hmid hfar
  have hpays : payout c.direction w.liquidity.val w.sqrtPrice.val next.val ≤
      payout c.direction w.liquidity.val w.sqrtPrice.val next'.val :=
    payout_mono hmid hfar ⟨hpos.1, hposNext, hpos.2⟩
  have hpayable : w.amountOut.val +
      payout c.direction w.liquidity.val w.sqrtPrice.val next.val < 2 ^ 128 := by
    have hout : w.amountOut.val ≤ w'.amountOut.val := hout
    have := amountOut'.isLt
    omega
  obtain ⟨moved, hmoved, hat, hliq, hcrossings⟩ := exists_advance hpriced hmoves hmid
    ⟨hpos.1, hposNext⟩ (room_mono hmid hfar hroom) hpayable
  rcases pass_of_advance_cases hrem hprice hmoved with ⟨b, hb, hland, hreached, hpass⟩ | hpass
  · have htarget := (hcrossed.mp hreached)
    have hsame : next' = next := by
      apply reach_inj.mp
      rw [hreach, hreach', min_eq_left htarget, min_eq_left (htarget.trans hmono)]
    obtain rfl : reached' = true := hcrossed'.mpr (htarget.trans hmono)
    rw [hb] at hmoved'
    have hland' : b.sqrtPrice = moved'.sqrtPrice := by
      rw [hland, hat, hmoved'eq]
      exact hsame.symm
    rw [pass_of_landing hrem' hprice' (hseen.trans hb) hmoved' hland'] at hp'
    rw [hpass]
    refine cross_of_same ?_ ?_ hp'
    · rw [hliq, hmoved'eq]
      exact abreast.liquidity
    · rw [hcrossings, hmoved'eq]
      exact hcount
  · exact ⟨_, hpass⟩

/-- A range is entered with input left, short of the limit, that cannot move the price. -/
def EntersStall (c : Call) (state : PoolState) (amountIn : U128) : Prop :=
  ∃ e, Enters c (.start state amountIn) e ∧ 0 < e.remaining ∧ e.sqrtPrice ≠ c.priceLimit ∧
    Stalls c.direction e.liquidity.val e.sqrtPrice.val e.remaining

/-- Wherever the smaller of two walks comes to, it passes or stalls. -/
theorem comes_passes {c : Call} {state : PoolState} {net net' : U128} {f' t : Walk}
    (hlimit : reach c.direction state.sqrtPrice ≤ reach c.direction c.priceLimit)
    (hle : net ≤ net') (hrun' : c.loop.run (Walk.start state net') = .ok f')
    (ht : c.loop.Comes (Walk.start state net) t) (hrem : t.remaining ≠ 0)
    (hprice : t.sqrtPrice ≠ c.priceLimit) :
    ∃ full, priceFromAmount c.direction t.sqrtPrice t.liquidity t.remaining = .ok full ∧
      (¬ Stalls c.direction t.liquidity.val t.sqrtPrice.val t.remaining.val →
        ∃ p, c.pass t = .ok p) := by
  have abreast : Abreast (Walk.start state net) (Walk.start state net') := ⟨rfl, rfl, rfl⟩
  obtain ⟨t', hlock, hrest⟩ := comes_lockstep abreast hlimit hle hrun' ht
  obtain ⟨p', hp', _⟩ := c.loop.run_ok_cases hrest
  exact pass_of_larger hlock.toAbreast (comes_within ht hlimit) (hlock.more hle)
    (Fin.le_def.mpr hlock.earned.ge) hlock.counted hrem hprice hp'

/-- Below an input that succeeds, an input succeeds unless some range it enters stalls
what is left of it, and then the swap reports that remainder. -/
theorem smaller_swap (source : TickSource) (direction : Direction) (state : PoolState)
    (priceLimit : U128) (maxCrossings : ℕ) {x y : U128} (hle : y ≤ x) {r : SwapResult}
    (hx : swapExactIn source direction state x priceLimit maxCrossings = .ok r) :
    ((∃ r', swapExactIn source direction state y priceLimit maxCrossings = .ok r') ↔
      ¬ EntersStall { source, direction, priceLimit, maxCrossings } state y) ∧
    ∀ e, swapExactIn source direction state y priceLimit maxCrossings = .error e →
      ∃ remaining, e = .noProgress remaining := by
  have hpos : state.sqrtPrice ≠ 0 := by
    intro hz
    rw [swapExactIn, if_pos hz] at hx
    cases hx
  obtain ⟨net', fee', f', hfee', hlimit, hliq, hrun', _, _⟩ := swapExactIn_ok hx
  obtain ⟨net, fee, hfee⟩ := exists_takeFee y (takeFee_ok hfee').1
  have hnets := takeFee_mono hle hfee hfee'
  let c : Call := { source, direction, priceLimit, maxCrossings }
  have hfails : ∀ e, swapExactIn source direction state y priceLimit maxCrossings = .error e ↔
      ∃ t, c.loop.Comes (Walk.start state net) t ∧ c.pass t = .error e :=
    fun _ => swap_eq_error_iff hpos hliq hlimit hfee
  have hstalled : ∀ e, swapExactIn source direction state y priceLimit maxCrossings = .error e →
      EntersStall c state y ∧ ∃ remaining, e = .noProgress remaining := by
    intro e hy
    obtain ⟨t, ht, hpass⟩ := (hfails e).mp hy
    have hgoes : ¬ (t.remaining = 0 ∨ t.sqrtPrice = c.priceLimit) := by
      intro hstop
      rw [pass_of_stop hstop] at hpass
      cases hpass
    obtain ⟨hrem, hprice⟩ := not_or.mp hgoes
    obtain ⟨full, hfull, hpasses⟩ := comes_passes hlimit hnets hrun' ht hrem hprice
    by_cases hstall : Stalls direction t.liquidity.val t.sqrtPrice.val t.remaining.val
    · have henters := (enters_start_iff hfee).mpr ⟨t, ht, rfl⟩
      rw [pass_stalls (comes_within ht hlimit) hrem hprice hfull hstall] at hpass
      exact ⟨⟨.of t, henters, remaining_pos_iff.mpr hrem, hprice, hstall⟩, _,
        (Except.error.inj hpass).symm⟩
    · obtain ⟨p, hp⟩ := hpasses hstall
      rw [hp] at hpass
      cases hpass
  refine ⟨⟨?_, fun hnone => ?_⟩, fun e hy => (hstalled e hy).2⟩
  · rintro ⟨r', hy⟩ ⟨e, henters, hleft, hprice, hstall⟩
    obtain ⟨t, ht, rfl⟩ := (enters_start_iff hfee).mp henters
    have hrem : t.remaining ≠ 0 := remaining_pos_iff.mp hleft
    obtain ⟨full, hfull, _⟩ := comes_passes hlimit hnets hrun' ht hrem hprice
    have hpass := pass_stalls (comes_within ht hlimit) hrem hprice hfull hstall
    rw [(hfails _).mpr ⟨t, ht, hpass⟩] at hy
    cases hy
  · cases hy : swapExactIn source direction state y priceLimit maxCrossings with
    | ok r' => exact ⟨r', rfl⟩
    | error e => exact absurd (hstalled e hy).1 hnone

theorem smaller_swap_sample : ¬ EntersStall ⟨sampleSource, .aToB, 1, 3⟩ samplePool 500 :=
  (smaller_swap sampleSource .aToB samplePool 1 3 (show (500 : U128) ≤ 1000 by decide)
    (r := sampleResult) (by decide +kernel)).1.mp (exists_ok (by decide +kernel))

/-- A pool so cheap in A that selling a few units of it cannot move the price. -/
def lowPool : PoolState :=
  { sqrtPrice := 1099511627776, liquidity := 1000000000, tick := -332728, feeRate := 0 }

/-- The larger sale goes through, the smaller one is refused. -/
theorem smaller_swap_stalls :
    twoPositionsIndex.Accepted ∧
    (0 < lowPool.liquidity.val ∧ lowPool.liquidity.val < 2 ^ 64) ∧
    (minSqrtPrice ≤ lowPool.sqrtPrice ∧ lowPool.sqrtPrice ≤ maxSqrtPrice) ∧
    (∃ r, swapExactIn twoPositionsIndex.source .aToB lowPool 1000000000000000 minSqrtPrice 64 =
      .ok r) ∧
    swapExactIn twoPositionsIndex.source .aToB lowPool 15258 minSqrtPrice 64 =
      .error (.noProgress 15258) :=
  ⟨twoPositionsIndex_accepted, by decide, by decide, exists_ok (by decide +kernel),
    by decide +kernel⟩

end QuoteErrors
