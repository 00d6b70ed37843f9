import Birdai.Quote.RangeShortcut
import Birdai.Quote.Solvency
import Birdai.Venue.Classification

/-!
# The behavioural probe over swaps

A pool before and after any run of swaps. Where the run took one token and paid the other, the
price has moved the way the flow went, so the probe passes unless a price feed was an input.
-/

namespace EndogenousRuns

open WideArith LabelledRuns SwapExactIn PricingSpecs StepRounding WalkShape TickIndex TickBook
open BookTraversal RoundTrip StepBands BandSums SwapRuns Solvency CetusPool OracleNames Verdicts
open Classification
open Manager (Object)

/-! ### Prices a run came through -/

/-- A price between the two, whichever is higher. -/
def Between (p q : U128) (n : ℕ) : Prop := (p.val ≤ n ∧ n < q.val) ∨ (q.val ≤ n ∧ n < p.val)

theorem Between.split {p q r : U128} {n : ℕ} (h : Between p r n) :
    Between p q n ∨ Between q r n := by
  unfold Between at *
  omega

section covered
variable {t : Ticks} (ht : Indexed t) {state next last : PoolState} {f : Fill} {fills : List Fill}
  {n : ℕ}
include ht

/-- The depth at a price that a swap came through is the liquidity of a step. -/
theorem fill_covered (h : Fills t.source state f next) (hs : Settled ht.book f.direction state)
    (hn : Between state.sqrtPrice next.sqrtPrice n) : 0 < n ∧ 0 ≤ depth ht.book.boundaries n := by
  obtain ⟨net, fee, final, hfee, hlimit, hover, hrun, _, _, rfl⟩ := fill_walk ht h
  have htracked := run_tracked hover hlimit hs.ahead (swap_logged hfee hrun)
  obtain ⟨hbal, _⟩ := run_balanced hlimit hrun
  obtain ⟨_, hbetween⟩ := chained_between hbal.chained fun s hs => (hbal.forward s hs).1
  obtain ⟨start, direction, amountIn, priceLimit, maxCrossings, r⟩ := f
  dsimp only at *
  have hinside : min state.sqrtPrice.val final.sqrtPrice.val ≤ n ∧
      n < max state.sqrtPrice.val final.sqrtPrice.val := by
    unfold Between at hn
    omega
  obtain ⟨s, hmem, hlow, hhigh⟩ := exists_step_at hbal.chained
    (fun s hs => (hbal.forward s hs).1) hinside.1 hinside.2
  obtain ⟨hstart, hend⟩ := hbal.positive s hmem
  have hdepth := step_depth hs htracked hbetween hmem hlow hhigh
  refine ⟨lt_of_lt_of_le ?_ hlow, hdepth ▸ Int.natCast_nonneg _⟩
  cases direction with
  | bToA => exact hstart
  | aToB => exact hend

theorem run_covered (h : Run (Fills t.source) state fills last)
    (hs : SettledFor ht.book state fills) (hturns : TurnsFreely t fills)
    (hn : Between state.sqrtPrice last.sqrtPrice n) : 0 < n ∧ 0 ≤ depth ht.book.boundaries n := by
  induction h with
  | nil state =>
    unfold Between at hn
    omega
  | cons hfill _ ih =>
    rcases hn.split with hfirst | hrest
    · exact fill_covered ht hfill hs hfirst
    · obtain ⟨hs', hturns'⟩ := settledFor_next ht hs hturns hfill
      exact ih hs' hturns' hrest

end covered

theorem potential_le (d : Direction) {n : ℕ} (hn : 0 < n) :
    potential d n ≤ potential d (n + 1) := by
  obtain ⟨hB, hA⟩ := potential_step n hn
  refine sub_nonneg.mp ?_
  cases d with
  | bToA =>
    rw [hB]
    positivity
  | aToB =>
    rw [hA]
    positivity

/-- Positions hold no less between two prices where there is no negative depth. -/
theorem heldBetween_nonneg {boundaries : List Boundary} {d : Direction} {low high : ℕ}
    (h : ∀ n, low ≤ n → n < high → 0 < n ∧ 0 ≤ depth boundaries n) :
    0 ≤ heldBetween boundaries d low high := by
  refine Finset.sum_nonneg fun n hn => ?_
  obtain ⟨hlow, hhigh⟩ := Finset.mem_Ico.mp hn
  obtain ⟨hpos, hdepth⟩ := h n hlow hhigh
  exact mul_nonneg (Int.cast_nonneg hdepth) (sub_nonneg.mpr (potential_le d hpos))

/-! ### What a run takes and pays -/

/-- What a swap brings the pool of a token, the fee included. -/
def taken (d : Direction) (f : Fill) : ℤ :=
  if f.direction = d then
    ((f.result.steps.map fun s => s.amountIn.val).sum : ℕ) + (f.result.fee.val : ℤ)
  else -(f.result.amountOut.val : ℤ)

theorem received_le_taken (d : Direction) (f : Fill) : received d f ≤ (taken d f : ℚ) := by
  unfold received taken
  split
  · have hfee : (0 : ℚ) ≤ f.result.fee.val := Nat.cast_nonneg _
    rw [Int.cast_add, Int.cast_natCast, Int.cast_natCast]
    exact le_add_of_nonneg_right hfee
  · rw [Int.cast_neg, Int.cast_natCast]

section flow
variable {t : Ticks} (ht : Indexed t) {state last : PoolState} {fills : List Fill}
  (h : Run (Fills t.source) state fills last) (hs : SettledFor ht.book state fills)
  (hturns : TurnsFreely t fills)
include ht h hs hturns

/-- A run that pays out more of a token than it takes leaves its positions holding less. -/
theorem held_falls (d : Direction) (hpaid : (fills.map (taken d)).sum < 0) :
    held ht.book.boundaries d last.sqrtPrice < held ht.book.boundaries d state.sqrtPrice := by
  have hheld := run_held ht h hs hturns d
  have hsum : (fills.map (received d)).sum ≤ ((fills.map (taken d)).sum : ℤ) := by
    rw [Int.cast_list_sum, List.map_map]
    exact List.sum_le_sum fun f _ => received_le_taken d f
  have hneg : (((fills.map (taken d)).sum : ℤ) : ℚ) < 0 := Int.cast_lt_zero.mpr hpaid
  linarith

/-- A run that pays out token A raises the price. -/
theorem price_rises (hpaid : (fills.map (taken .aToB)).sum < 0) :
    state.sqrtPrice < last.sqrtPrice := by
  have hfalls := held_falls ht h hs hturns .aToB hpaid
  by_contra hprice
  have hle : last.sqrtPrice ≤ state.sqrtPrice := not_lt.mp hprice
  have hcovered := heldBetween_nonneg (d := .aToB) fun n hlow hhigh =>
    run_covered ht h hs hturns (.inr ⟨hlow, hhigh⟩)
  rw [(held_rise ht.book.boundaries hle).2] at hfalls
  linarith

/-- A run that pays out token B lowers it. -/
theorem price_falls (hpaid : (fills.map (taken .bToA)).sum < 0) :
    last.sqrtPrice < state.sqrtPrice := by
  have hfalls := held_falls ht h hs hturns .bToA hpaid
  by_contra hprice
  have hle : state.sqrtPrice ≤ last.sqrtPrice := not_lt.mp hprice
  have hcovered := heldBetween_nonneg (d := .bToA) fun n hlow hhigh =>
    run_covered ht h hs hturns (.inl ⟨hlow, hhigh⟩)
  rw [(held_rise ht.book.boundaries hle).1] at hfalls
  linarith

end flow

/-- The pool object around a run: its state is the run's, and its reserves moved by what the swaps
took and paid. -/
structure Around (t : Ticks) (fills : List Fill) (before after : CetusClmm) : Prop where
  run : Run (Fills t.source) before.state fills after.state
  coinA : (after.coinA.val : ℤ) - before.coinA.val = (fills.map (taken .aToB)).sum
  coinB : (after.coinB.val : ℤ) - before.coinB.val = (fills.map (taken .bToA)).sum

/-- The probe passes every run of swaps that takes one token and pays the other. Whatever the
directions, the sizes and the fees of its swaps, as long as it starts from a settled pool and turns
back on bare ticks only, the price has moved the way the flow went: what fails the probe is a price
feed among the inputs and nothing else. -/
theorem run_endogenous (t : Ticks) (ht : t.Accepted) (fills : List Fill) (before after : CetusClmm)
    (inputs : List Object) (deny : OracleDenySet) (h : Around t fills before after)
    (hs : SettledFor (accepted_indexed ht).book before.state fills)
    (hturns : TurnsFreely t fills)
    (hflow : (after.coinA < before.coinA ∧ before.coinB < after.coinB) ∨
      (before.coinA < after.coinA ∧ after.coinB < before.coinB)) :
    (priceStateChange before after inputs deny).isEndogenous = true ↔
      ¬TakesFeed deny inputs := by
  rw [priceStateChange_isEndogenous]
  refine and_iff_left ?_
  have hindexed := accepted_indexed ht
  rcases hflow with ⟨hA, hB⟩ | ⟨hA, hB⟩
  · have hpaid : (after.coinA.val : ℤ) - before.coinA.val < 0 :=
      sub_neg.mpr (Int.ofNat_lt.mpr hA)
    exact .inl ⟨hA.le, hB, price_rises hindexed h.run hs hturns (h.coinA ▸ hpaid)⟩
  · have hpaid : (after.coinB.val : ℤ) - before.coinB.val < 0 :=
      sub_neg.mpr (Int.ofNat_lt.mpr hB)
    exact .inr ⟨hA, hB.le, price_falls hindexed h.run hs hturns (h.coinB ▸ hpaid)⟩

/-- The pool of the three swaps, with these reserves. -/
def poolAround (state : PoolState) (coinA coinB : U64) : CetusClmm :=
  { RangeShortcut.poolBelowTen state.sqrtPrice with
    coinA
    coinB
    feeRate := 0
    liquidity := state.liquidity
    tick := if state.tick = 50 then ⟨50, by decide⟩ else 0 }

theorem run_endogenous_zigzag :
    (priceStateChange (poolAround upperPool 10000 10000) (poolAround afterLargeSale 14502 5501) []
      .defaultMainnet).isEndogenous = true := by
  have haround : Around twoPositionsIndex zigzag (poolAround upperPool 10000 10000)
      (poolAround afterLargeSale 14502 5501) :=
    ⟨zigzag_run, by decide +kernel, by decide +kernel⟩
  have hfree : TurnsFreely twoPositionsIndex zigzag := by
    refine .cons_cons (.inr (by decide +kernel)) (.cons_cons (.inr (by decide +kernel)) ?_)
    exact .singleton _
  have hpasses := run_endogenous twoPositionsIndex twoPositionsIndex_accepted zigzag _ _ []
    .defaultMainnet haround upperPool_settled hfree (.inr (by decide))
  exact hpasses.mpr fun ⟨_, hobject, _⟩ => absurd hobject List.not_mem_nil

end EndogenousRuns
