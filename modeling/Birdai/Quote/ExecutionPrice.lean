import Birdai.Amm.LargerSwap
import Birdai.Amm.FeeRounding
import Birdai.Quote.Solvency

/-!
# What swaps pay

A run of swaps in one direction is paid at no better a price than the one it starts from
and, rounding aside, at no worse a price than its limits.
-/

namespace ExecutionPrice

open WideArith Outcomes BoundedLoop LabelledRuns SwapExactIn PricingSpecs StepRounding WalkShape
open TickIndex TickBook BookTraversal RoundTrip StepBands StepOrder LargerSwap FeeRounding
open SwapRuns Solvency

/-! ### Prices and costs -/

/-- What the token that swaps in a direction take is worth at a price in the other one. -/
def rate (d : Direction) (n : ℕ) : ℚ :=
  match d with
  | .bToA => 2 ^ 128 / n ^ 2
  | .aToB => n ^ 2 / 2 ^ 128

/-- What one unit of liquidity takes on its way from one price to another. On the way back
in the other direction it pays the same. -/
def cost (d : Direction) (start stop : ℕ) : ℚ :=
  match d with
  | .bToA => potential .bToA stop - potential .bToA start
  | .aToB => potential .aToB start - potential .aToB stop

/-- The next price in a direction. -/
def onward (d : Direction) (n : ℕ) : ℕ :=
  match d with
  | .bToA => n + 1
  | .aToB => n - 1

theorem cost_add (d : Direction) (start mid stop : ℕ) :
    cost d start mid + cost d mid stop = cost d start stop := by
  cases d with
  | bToA => simp only [cost]; ring
  | aToB => simp only [cost]; ring

theorem cost_bToA (start stop : ℕ) : cost .bToA start stop = ((stop : ℚ) - start) / 2 ^ 64 := by
  simp only [cost, potential]
  ring

theorem cost_aToB {start stop : ℕ} (hstart : 0 < start) (hstop : 0 < stop) :
    cost .aToB start stop = 2 ^ 64 * ((start : ℚ) - stop) / (start * stop) := by
  have hstart : (start : ℚ) ≠ 0 := Nat.cast_ne_zero.mpr hstart.ne'
  have hstop : (stop : ℚ) ≠ 0 := Nat.cast_ne_zero.mpr hstop.ne'
  simp only [cost, potential]
  field_simp
  ring

theorem rate_nonneg (d : Direction) (n : ℕ) : 0 ≤ rate d n := by
  cases d with
  | bToA => exact div_nonneg (by positivity) (by positivity)
  | aToB => exact div_nonneg (by positivity) (by positivity)

theorem rate_zero (d : Direction) : rate d 0 = 0 := by
  cases d with
  | bToA => norm_num [rate]
  | aToB => norm_num [rate]

/-- Going on, a price only gets worse. -/
theorem rate_anti {d : Direction} {near far : ℕ} (hnear : 0 < near)
    (h : along d near ≤ along d far) : rate d far ≤ rate d near := by
  cases d with
  | bToA =>
    have hle : (near : ℚ) ≤ far := Nat.cast_le.mpr (Int.ofNat_le.mp h)
    have hpos : (0 : ℚ) < near := Nat.cast_pos.mpr hnear
    exact div_le_div_of_nonneg_left (by positivity) (by positivity) (by gcongr)
  | aToB =>
    have hle : (far : ℚ) ≤ near := Nat.cast_le.mpr (Int.ofNat_le.mp (neg_le_neg_iff.mp h))
    exact div_le_div_of_nonneg_right (by gcongr) (by positivity)

theorem cost_nonneg {d : Direction} {start stop : ℕ} (hstart : 0 < start) (hstop : 0 < stop)
    (h : along d start ≤ along d stop) : 0 ≤ cost d start stop := by
  cases d with
  | bToA =>
    have hle : (start : ℚ) ≤ stop := Nat.cast_le.mpr (Int.ofNat_le.mp h)
    rw [cost_bToA]
    exact div_nonneg (sub_nonneg.mpr hle) (by positivity)
  | aToB =>
    have hle : (stop : ℚ) ≤ start := Nat.cast_le.mpr (Int.ofNat_le.mp (neg_le_neg_iff.mp h))
    rw [cost_aToB hstart hstop]
    exact div_nonneg (mul_nonneg (by positivity) (sub_nonneg.mpr hle)) (by positivity)

/-- What is paid for a movement is worth what it costs, at a price between its ends. -/
theorem rate_cost {d : Direction} {start stop : ℕ} (hstart : 0 < start) (hstop : 0 < stop)
    (h : along d start ≤ along d stop) :
    rate d stop * cost d start stop ≤ cost (opposite d) stop start ∧
      cost (opposite d) stop start ≤ rate d start * cost d start stop := by
  have hlow : (0 : ℚ) < start := Nat.cast_pos.mpr hstart
  have hhigh : (0 : ℚ) < stop := Nat.cast_pos.mpr hstop
  cases d with
  | bToA =>
    have hle : (start : ℚ) ≤ stop := Nat.cast_le.mpr (Int.ofNat_le.mp h)
    have hrise : 0 ≤ (stop : ℚ) - start := sub_nonneg.mpr hle
    have hpaid : cost (opposite .bToA) stop start =
        2 ^ 64 * ((stop : ℚ) - start) / (stop * start) := cost_aToB hstop hstart
    rw [hpaid, cost_bToA, rate, rate]
    constructor
    · rw [div_mul_div_comm, div_le_div_iff₀ (by positivity) (by positivity)]
      nlinarith [mul_nonneg (mul_nonneg hrise hhigh.le) hrise]
    · rw [div_mul_div_comm, div_le_div_iff₀ (by positivity) (by positivity)]
      nlinarith [mul_nonneg (mul_nonneg hrise hlow.le) hrise]
  | aToB =>
    have hle : (stop : ℚ) ≤ start := Nat.cast_le.mpr (Int.ofNat_le.mp (neg_le_neg_iff.mp h))
    have hfall : 0 ≤ (start : ℚ) - stop := sub_nonneg.mpr hle
    have hpaid : cost (opposite .aToB) stop start = ((start : ℚ) - stop) / 2 ^ 64 :=
      cost_bToA stop start
    rw [hpaid, cost_aToB hstart hstop, rate, rate]
    constructor
    · rw [div_mul_div_comm, div_le_div_iff₀ (by positivity) (by positivity)]
      nlinarith [mul_nonneg (mul_nonneg hfall hhigh.le) hfall]
    · rw [div_mul_div_comm, div_le_div_iff₀ (by positivity) (by positivity)]
      nlinarith [mul_nonneg (mul_nonneg hfall hlow.le) hfall]

/-! ### Steps priced as closely as whole units allow -/

section movement
variable {d : Direction} {liquidity start stop : U128} (hstart : 0 < start.val)
  (hstop : 0 < stop.val)
include hstart hstop

theorem covers_iff_cost {paid : ℤ} : Covers d liquidity start stop paid ↔
    (liquidity.val : ℚ) * cost d start.val stop.val ≤ paid := by
  cases d with
  | bToA =>
    rw [cost_bToA, mul_div_assoc', div_le_iff₀ (by positivity)]
    simp only [Covers]
    exact_mod_cast Iff.rfl
  | aToB =>
    have hprices : (0 : ℚ) < start.val * stop.val :=
      mul_pos (Nat.cast_pos.mpr hstart) (Nat.cast_pos.mpr hstop)
    rw [cost_aToB hstart hstop, mul_div_assoc', div_le_iff₀ hprices, ← mul_assoc, ← mul_assoc]
    simp only [Covers]
    exact_mod_cast Iff.rfl

theorem coveredBy_iff_cost {out : ℤ} : CoveredBy d liquidity start stop out ↔
    (out : ℚ) ≤ liquidity.val * cost (opposite d) stop.val start.val := by
  cases d with
  | bToA =>
    have hprices : (0 : ℚ) < stop.val * start.val :=
      mul_pos (Nat.cast_pos.mpr hstop) (Nat.cast_pos.mpr hstart)
    have hpaid : cost (opposite .bToA) stop.val start.val =
        2 ^ 64 * ((stop.val : ℚ) - start.val) / (stop.val * start.val) := cost_aToB hstop hstart
    rw [hpaid, mul_div_assoc', le_div_iff₀ hprices, mul_comm (stop.val : ℚ), ← mul_assoc,
      ← mul_assoc]
    simp only [CoveredBy]
    exact_mod_cast Iff.rfl
  | aToB =>
    have hpaid : cost (opposite .aToB) stop.val start.val =
        ((start.val : ℚ) - stop.val) / 2 ^ 64 := cost_bToA stop.val start.val
    rw [hpaid, mul_div_assoc', le_div_iff₀ (by positivity)]
    simp only [CoveredBy]
    exact_mod_cast Iff.rfl

end movement

/-- A step that took no more and paid no less than its movement asks, up to one unit of
either token; where the input ran out first, up to one unit of price. -/
structure Tight (d : Direction) (limit : U128) (s : Step) : Prop where
  positive : 0 < s.sqrtPriceStart.val ∧ 0 < s.sqrtPriceEnd.val
  forward : reach d s.sqrtPriceStart < reach d s.sqrtPriceEnd
  within : reach d s.sqrtPriceEnd ≤ reach d limit
  covers : Covers d s.liquidity s.sqrtPriceStart s.sqrtPriceEnd s.amountIn.val
  covered : CoveredBy d s.liquidity s.sqrtPriceStart s.sqrtPriceEnd s.amountOut.val
  least : s.crossed = true →
    ¬ Covers d s.liquidity s.sqrtPriceStart s.sqrtPriceEnd ((s.amountIn.val : ℤ) - 1)
  most : ¬ CoveredBy d s.liquidity s.sqrtPriceStart s.sqrtPriceEnd ((s.amountOut.val : ℤ) + 1)
  short : s.crossed = false → reach d s.sqrtPriceEnd < reach d limit ∧
    ∀ beyond, reach d s.sqrtPriceEnd < reach d beyond →
      ¬ Covers d s.liquidity s.sqrtPriceStart beyond s.amountIn.val

theorem taken_tight {c : Call} {w moved : Walk} {s : Step}
    (hlimit : reach c.direction w.sqrtPrice ≤ reach c.direction c.priceLimit)
    (h : Taken c w moved s) : Tight c.direction c.priceLimit s := by
  have hwithin := (stepLimit_ahead hlimit).2
  have hgreatest := h.greatest
  rw [← h.start, ← h.liquidity, ← h.price_eq] at hgreatest
  refine ⟨h.positive, h.start ▸ h.forward, h.within.trans hwithin, h.covers, h.covered, ?_, ?_, ?_⟩
  · intro hcrossed hless
    have hle : (s.amountIn.val : ℤ) ≤ s.amountIn.val - 1 := (h.least hcrossed).2 hless
    omega
  · intro hmore
    have hle : (s.amountOut.val : ℤ) + 1 ≤ s.amountOut.val := hgreatest.2 hmore
    omega
  · intro hshort
    obtain ⟨full, hfull, ⟨hcrossed, _⟩ | ⟨_, hprice, hlt⟩⟩ := h.full_cases
    · rw [hshort] at hcrossed
      cases hcrossed
    · rw [h.price_eq, hprice]
      refine ⟨hlt.trans_le hwithin, fun beyond hbeyond hcovers => ?_⟩
      rw [h.spent hshort, h.start, h.liquidity] at hcovers
      have hforward : reach c.direction w.sqrtPrice ≤ reach c.direction beyond := by
        rw [← hprice] at hbeyond
        exact h.moves.le.trans hbeyond.le
      exact absurd ((reach_full_iff hfull hforward).mpr hcovers) (not_le.mpr hbeyond)

/-- Every step of a walk is one. -/
theorem run_tight {c : Call} {first final : Walk} (hnone : first.steps = [])
    (hlimit : reach c.direction first.sqrtPrice ≤ reach c.direction c.priceLimit)
    (hrun : c.loop.run first = .ok final) :
    ∀ s ∈ final.steps, Tight c.direction c.priceLimit s := by
  have key := c.loop.run_invariant
    (I := fun w => reach c.direction w.sqrtPrice ≤ reach c.direction c.priceLimit ∧
      ∀ s ∈ w.steps, Tight c.direction c.priceLimit s) ?_ hrun ⟨hlimit, by simp [hnone]⟩
  · exact key.2
  rintro w p ⟨hw, htight⟩ hpass
  rcases pass_taken hw hpass with ⟨_, rfl⟩ | ⟨_, _, moved, s, htaken, hend⟩
  · exact ⟨hw, htight⟩
  have hmoved : ∀ t ∈ moved.steps, Tight c.direction c.priceLimit t := by
    rw [htaken.moved_eq]
    intro t ht
    rcases List.mem_append.mp ht with ht | ht
    · exact htight t ht
    · exact List.mem_singleton.mp ht ▸ taken_tight hw htaken
  have hprice := htaken.within_target.trans (stepLimit_ahead hw).2
  rcases hend with ⟨rfl, _⟩ | ⟨_, b, _, _, hcross⟩
  · exact ⟨hprice, hmoved⟩
  · obtain ⟨_, net, liquidity, _, _, hstate, _⟩ := c.cross_ok hcross
    rw [hstate]
    exact ⟨hprice, hmoved⟩

/-! ### What a step is paid -/

/-- What rounding may cost a step: a unit of the token it pays, and the worth of a unit of
the token it takes or, where the input ran out, of the next unit of price. -/
def slack (d : Direction) (limit : U128) (s : Step) : ℚ :=
  1 + if s.crossed then rate d limit.val
    else s.liquidity.val *
      cost (opposite d) (onward d s.sqrtPriceEnd.val) s.sqrtPriceEnd.val

theorem cost_onward_nonneg (d : Direction) {n : ℕ} (hn : 0 < n) :
    0 ≤ cost (opposite d) (onward d n) n := by
  cases d with
  | bToA =>
    refine cost_nonneg (d := .aToB) (Nat.succ_pos n) hn ?_
    simp only [onward, along]
    omega
  | aToB =>
    have hpaid : cost (opposite .aToB) (onward .aToB n) n = ((n : ℚ) - (n - 1 : ℕ)) / 2 ^ 64 :=
      cost_bToA (n - 1) n
    have hle : ((n - 1 : ℕ) : ℚ) ≤ n := Nat.cast_le.mpr (Nat.sub_le n 1)
    rw [hpaid]
    exact div_nonneg (sub_nonneg.mpr hle) (by positivity)

/-- Short of its limit a price has a next one. -/
theorem exists_onward {d : Direction} {e limit : U128} (hlimit : 0 < limit.val)
    (h : reach d e < reach d limit) : ∃ beyond : U128, beyond.val = onward d e.val ∧
      0 < beyond.val ∧ reach d e < reach d beyond ∧ reach d beyond ≤ reach d limit := by
  have hbound := limit.isLt
  cases d with
  | bToA =>
    have hlt : e.val < limit.val := Int.ofNat_lt.mp h
    refine ⟨⟨e.val + 1, by omega⟩, rfl, Nat.succ_pos _, ?_, ?_⟩
    · simp only [reach, along]
      omega
    · simp only [reach, along]
      omega
  | aToB =>
    have hlt : limit.val < e.val := Int.ofNat_lt.mp (neg_lt_neg_iff.mp h)
    refine ⟨⟨e.val - 1, by omega⟩, rfl, by simp only []; omega, ?_, ?_⟩
    · simp only [reach, along]
      omega
    · simp only [reach, along]
      omega

namespace Tight
variable {d : Direction} {limit : U128} {s : Step} (h : Tight d limit s)
include h

theorem slack_nonneg : 0 ≤ slack d limit s := by
  rw [slack]
  split
  · exact add_nonneg zero_le_one (rate_nonneg d _)
  · exact add_nonneg zero_le_one
      (mul_nonneg (Nat.cast_nonneg _) (cost_onward_nonneg d h.positive.2))

/-- A farther limit allows what a nearer one does. -/
theorem mono {limit' : U128} (hle : reach d limit ≤ reach d limit') : Tight d limit' s :=
  { h with
    within := h.within.trans hle
    short := fun hshort => ⟨(h.short hshort).1.trans_le hle, (h.short hshort).2⟩ }

/-- A step is paid no better than at the price it starts from. -/
theorem out_le : (s.amountOut.val : ℚ) ≤ rate d s.sqrtPriceStart.val * s.amountIn.val := by
  obtain ⟨hstart, hstop⟩ := h.positive
  have hcovered := (coveredBy_iff_cost hstart hstop).mp h.covered
  have hcovers := (covers_iff_cost hstart hstop).mp h.covers
  have hrate := (rate_cost hstart hstop h.forward.le).2
  have hliquidity : (0 : ℚ) ≤ s.liquidity.val := Nat.cast_nonneg _
  calc (s.amountOut.val : ℚ)
      ≤ s.liquidity.val * cost (opposite d) s.sqrtPriceEnd.val s.sqrtPriceStart.val := by
        exact_mod_cast hcovered
    _ ≤ s.liquidity.val * (rate d s.sqrtPriceStart.val *
          cost d s.sqrtPriceStart.val s.sqrtPriceEnd.val) :=
        mul_le_mul_of_nonneg_left hrate hliquidity
    _ = rate d s.sqrtPriceStart.val *
          (s.liquidity.val * cost d s.sqrtPriceStart.val s.sqrtPriceEnd.val) := by ring
    _ ≤ rate d s.sqrtPriceStart.val * s.amountIn.val :=
        mul_le_mul_of_nonneg_left (by exact_mod_cast hcovers) (rate_nonneg d _)

/-- One unit more than a step paid is worth more than its movement. -/
theorem lt_out_succ : (s.liquidity.val : ℚ) *
    cost (opposite d) s.sqrtPriceEnd.val s.sqrtPriceStart.val < s.amountOut.val + 1 := by
  obtain ⟨hstart, hstop⟩ := h.positive
  have hmost := h.most
  rw [coveredBy_iff_cost hstart hstop, not_le] at hmost
  exact_mod_cast hmost

/-- A movement up to a price within the limit is worth what it costs at the limit. -/
theorem rate_le {stop : U128} (hstop : 0 < stop.val)
    (honward : reach d s.sqrtPriceStart ≤ reach d stop) (hwithin : reach d stop ≤ reach d limit) :
    rate d limit.val * (s.liquidity.val * cost d s.sqrtPriceStart.val stop.val) ≤
      s.liquidity.val * cost (opposite d) stop.val s.sqrtPriceStart.val := by
  have hstart := h.positive.1
  have hliquidity : (0 : ℚ) ≤ s.liquidity.val := Nat.cast_nonneg _
  calc rate d limit.val * (s.liquidity.val * cost d s.sqrtPriceStart.val stop.val)
      ≤ rate d stop.val * (s.liquidity.val * cost d s.sqrtPriceStart.val stop.val) :=
        mul_le_mul_of_nonneg_right (rate_anti hstop hwithin)
          (mul_nonneg hliquidity (cost_nonneg hstart hstop honward))
    _ = s.liquidity.val * (rate d stop.val * cost d s.sqrtPriceStart.val stop.val) := by ring
    _ ≤ s.liquidity.val * cost (opposite d) stop.val s.sqrtPriceStart.val :=
        mul_le_mul_of_nonneg_left (rate_cost hstart hstop honward).1 hliquidity

/-- A step is paid no worse than at its limit, rounding aside. -/
theorem le_out : rate d limit.val * s.amountIn.val ≤ s.amountOut.val + slack d limit s := by
  obtain ⟨hstart, hstop⟩ := h.positive
  have hout := h.lt_out_succ
  rcases Nat.eq_zero_or_pos limit.val with hzero | hlimit
  · rw [hzero, rate_zero, zero_mul]
    exact add_nonneg (Nat.cast_nonneg _) h.slack_nonneg
  cases hcrossed : s.crossed with
  | true =>
    have hleast := h.least hcrossed
    rw [covers_iff_cost hstart hstop, not_le] at hleast
    push_cast at hleast
    have hworth := h.rate_le hstop h.forward.le h.within
    have hpriced := mul_le_mul_of_nonneg_left hleast.le (rate_nonneg d limit.val)
    rw [slack, hcrossed, if_pos rfl]
    linarith
  | false =>
    obtain ⟨hlt, hmore⟩ := h.short hcrossed
    obtain ⟨beyond, hbeyond, hpos, hahead, hwithin⟩ := exists_onward hlimit hlt
    have hmore := hmore beyond hahead
    rw [covers_iff_cost hstart hpos, not_le] at hmore
    have hworth := h.rate_le hpos (h.forward.le.trans hahead.le) hwithin
    have hpriced := mul_le_mul_of_nonneg_left hmore.le (rate_nonneg d limit.val)
    have hsplit := cost_add (opposite d) beyond.val s.sqrtPriceEnd.val s.sqrtPriceStart.val
    rw [← hsplit, mul_add] at hworth
    rw [slack, hcrossed, if_neg nofun, ← hbeyond]
    push_cast at hpriced
    linarith

end Tight

/-! ### What a run is paid -/

/-- What the swaps of a run took, fees aside, and what they paid. -/
def taken (fills : List Fill) : ℕ := (fills.map fun f => stepsInput f.result).sum

def paid (fills : List Fill) : ℕ := (fills.map fun f => f.result.amountOut.val).sum

/-- What rounding may cost a swap: the slack of all its steps. -/
def slackOf (limit : U128) (f : Fill) : ℚ := (f.result.steps.map (slack f.direction limit)).sum

section fill
variable {source : TickSource} {state next last : PoolState} {f : Fill}
  (h : Fills source state f next)
include h

theorem fill_tight : 0 < state.sqrtPrice.val ∧
    reach f.direction state.sqrtPrice ≤ reach f.direction next.sqrtPrice ∧
    (f.result.steps.map fun s => s.amountOut.val).sum = f.result.amountOut.val ∧
    ∀ s ∈ f.result.steps, Tight f.direction f.priceLimit s ∧
      reach f.direction state.sqrtPrice ≤ reach f.direction s.sqrtPriceStart := by
  have hsucceeds := h.succeeds
  obtain ⟨net, fee, final, _, hlimit, _, hrun, _, hr⟩ := swapExactIn_ok hsucceeds
  obtain ⟨hbal, _⟩ := run_balanced hlimit hrun
  obtain ⟨honward, hbetween⟩ := chained_between hbal.chained fun s hs => (hbal.forward s hs).1
  have htight := run_tight rfl hlimit hrun
  have hpositive : 0 < state.sqrtPrice.val := by
    rw [swapExactIn] at hsucceeds
    split at hsucceeds
    · cases hsucceeds
    · rename_i hne
      exact Nat.pos_of_ne_zero fun hzero => hne (Fin.ext hzero)
  have hnext : next.sqrtPrice = final.sqrtPrice := by
    rw [h.next_eq, hr]
    rfl
  rw [hr, hnext]
  exact ⟨hpositive, honward, hbal.outputs, fun s hs => ⟨htight s hs, (hbetween s hs).1⟩⟩

/-- A swap is paid no better than at the price it starts from. -/
theorem fill_out_le :
    (f.result.amountOut.val : ℚ) ≤ rate f.direction state.sqrtPrice.val * stepsInput f.result := by
  obtain ⟨hpositive, _, houtputs, htight⟩ := fill_tight h
  rw [← houtputs, stepsInput, Nat.cast_list_sum, Nat.cast_list_sum, List.map_map, List.map_map,
    ← List.sum_map_mul_left]
  refine List.sum_le_sum fun s hs => ?_
  obtain ⟨hstep, honward⟩ := htight s hs
  exact hstep.out_le.trans
    (mul_le_mul_of_nonneg_right (rate_anti hpositive honward) (Nat.cast_nonneg _))

/-- It is paid no worse than at its limit, rounding aside. -/
theorem fill_le_out {limit : U128}
    (hlimit : reach f.direction f.priceLimit ≤ reach f.direction limit) :
    rate f.direction limit.val * stepsInput f.result ≤
      f.result.amountOut.val + slackOf limit f := by
  obtain ⟨_, _, houtputs, htight⟩ := fill_tight h
  rw [← houtputs, stepsInput, slackOf, Nat.cast_list_sum, Nat.cast_list_sum, List.map_map,
    List.map_map, ← List.sum_map_mul_left, ← List.sum_map_add]
  exact List.sum_le_sum fun s hs => ((htight s hs).1.mono hlimit).le_out

end fill

/-- Over a run of swaps in one direction what was paid lies, per unit taken, between the
price at the start and the limits of the swaps, up to what rounding costs each step. -/
theorem run_between_spots (source : TickSource) (d : Direction) (limit : U128)
    (fills : List Fill) (state last : PoolState) (h : Run (Fills source) state fills last)
    (hd : ∀ f ∈ fills, f.direction = d ∧ reach d f.priceLimit ≤ reach d limit) :
    (paid fills : ℚ) ≤ rate d state.sqrtPrice.val * taken fills ∧
      rate d limit.val * taken fills ≤ paid fills + (fills.map (slackOf limit)).sum := by
  induction h with
  | nil s => simp [paid, taken]
  | @cons state next last f fills hfill hrest ih =>
    obtain ⟨rfl, hlimit⟩ := hd f List.mem_cons_self
    obtain ⟨hbest, hworst⟩ := ih fun g hg => hd g (List.mem_cons_of_mem _ hg)
    obtain ⟨hpositive, honward, _, _⟩ := fill_tight hfill
    have hfirst := fill_out_le hfill
    have hfirst' := fill_le_out hfill hlimit
    have htaken : (taken (f :: fills) : ℚ) = stepsInput f.result + taken fills := by
      simp [taken]
    have hpaid : (paid (f :: fills) : ℚ) = f.result.amountOut.val + paid fills := by
      simp [paid]
    have hlater : rate f.direction next.sqrtPrice.val * taken fills ≤
        rate f.direction state.sqrtPrice.val * taken fills :=
      mul_le_mul_of_nonneg_right (rate_anti hpositive honward) (Nat.cast_nonneg _)
    rw [htaken, hpaid, List.map_cons, List.sum_cons, mul_add, mul_add]
    constructor
    · linarith
    · linarith

/-- The second of two sales, down past the lower end of a position. -/
def secondSale : SwapResult :=
  { amountIn := 4000
    fee := 0
    amountOut := 3990
    sqrtPriceStart := 18474395679442560234
    sqrtPriceEnd := 18370110097751763842
    tickStart := 50
    tickEnd := 0
    liquidityStart := 1000000
    liquidityEnd := 600000
    inputConsumed := true
    steps :=
      [{ amountIn := 1497
         amountOut := 1498
         sqrtPriceStart := 18474395679442560234
         sqrtPriceEnd := 18446744073709551616
         liquidity := 1000000
         crossed := true },
       { amountIn := 2503
         amountOut := 2492
         sqrtPriceStart := 18446744073709551616
         sqrtPriceEnd := 18370110097751763842
         liquidity := 600000
         crossed := false }] }

def sales : List Fill :=
  [⟨upperPool, .aToB, 1000, 18370000000000000000, 64, smallSale⟩,
    ⟨afterSale, .aToB, 4000, 18370000000000000000, 64, secondSale⟩]

theorem sales_run :
    Run (Fills twoPositionsIndex.source) upperPool sales (resumed afterSale secondSale) :=
  .cons ⟨rfl, by decide +kernel, rfl⟩ (.cons ⟨rfl, by decide +kernel, rfl⟩ (.nil _))

theorem run_between_spots_sales :
    (paid sales : ℚ) ≤ rate .aToB upperPool.sqrtPrice.val * taken sales ∧
      rate .aToB (18370000000000000000 : U128).val * taken sales ≤
        paid sales + (sales.map (slackOf 18370000000000000000)).sum :=
  run_between_spots twoPositionsIndex.source .aToB 18370000000000000000 sales upperPool
    (resumed afterSale secondSale) sales_run (by simp [sales])

end ExecutionPrice
