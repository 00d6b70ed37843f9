import Birdai.Quote.SwapRuns

/-!
# What a pool holds

The depth a book accounts for at each price, what positions of that depth hold of each
token, and a pool that swaps in a state its book accounts for: over any run of swaps it
is paid at least what its positions come to hold.
-/

namespace Solvency

open WideArith Outcomes BoundedLoop LabelledRuns SwapExactIn PricingSpecs StepRounding WalkShape
open TickMath TickIndex TickBook BookTraversal RoundTrip StepBands BandSums SwapRuns

/-! ### Depth and holdings -/

/-- The liquidity of the positions around a price. -/
def depth (boundaries : List Boundary) (n : ℕ) : ℤ :=
  ((boundaries.filter fun b => b.sqrtPrice.val ≤ n).map fun b => b.liquidityNet.val).sum

theorem depth_eq (boundaries : List Boundary) (n : ℕ) : depth boundaries n =
    (boundaries.map fun b => if b.sqrtPrice.val ≤ n then b.liquidityNet.val else 0).sum := by
  refine (inflow_filter .bToA boundaries fun b => b.sqrtPrice.val ≤ n).trans ?_
  simp only [decide_eq_true_eq, along]

/-- What positions of this depth hold between two prices of the token that swaps in a
direction take. -/
def heldBetween (boundaries : List Boundary) (d : Direction) (low high : ℕ) : ℚ :=
  ∑ n ∈ Finset.Ico low high, (depth boundaries n : ℚ) * (potential d (n + 1) - potential d n)

/-- What they hold of it in all: of token B below the price, of token A above. -/
def held (boundaries : List Boundary) (d : Direction) (sqrtPrice : U128) : ℚ :=
  match d with
  | .bToA => heldBetween boundaries .bToA 0 sqrtPrice.val
  | .aToB => heldBetween boundaries .aToB sqrtPrice.val (2 ^ 128)

/-- What a swap brings the pool of that token, fees aside. -/
def received (d : Direction) (f : Fill) : ℚ :=
  if f.direction = d then ((f.result.steps.map fun s => s.amountIn.val).sum : ℕ)
  else -(f.result.amountOut.val : ℚ)

theorem heldBetween_add (boundaries : List Boundary) (d : Direction) {low mid high : ℕ}
    (hlow : low ≤ mid) (hhigh : mid ≤ high) : heldBetween boundaries d low mid +
      heldBetween boundaries d mid high = heldBetween boundaries d low high :=
  Finset.sum_Ico_consecutive _ hlow hhigh

/-- A rising price takes holdings from below it to above. -/
theorem held_rise (boundaries : List Boundary) {low high : U128} (h : low ≤ high) :
    held boundaries .bToA high = held boundaries .bToA low +
        heldBetween boundaries .bToA low.val high.val ∧
      held boundaries .aToB low = held boundaries .aToB high +
        heldBetween boundaries .aToB low.val high.val := by
  have hle : low.val ≤ high.val := h
  constructor
  · exact (heldBetween_add boundaries .bToA (Nat.zero_le _) hle).symm
  · rw [add_comm]
    exact (heldBetween_add boundaries .aToB hle high.isLt.le).symm

/-! ### Pools their book accounts for -/

/-- The price and the liquidity of a pool that may move in this direction are what its
book says of its tick. -/
structure Settled (book : Book) (d : Direction) (state : PoolState) : Prop where
  ahead : ClearAhead book d state.tick state.sqrtPrice
  passed : ∀ b ∈ book.boundaries, along d b.tick < along d state.tick →
    reach d b.sqrtPrice < reach d state.sqrtPrice
  here : ∀ b ∈ book.boundaries, b.tick = state.tick →
    b.liquidityNet.val = 0 ∨ reach d b.sqrtPrice ≤ reach d state.sqrtPrice
  liquidity : (state.liquidity.val : ℤ) = standing book.boundaries d state.tick

namespace Settled
variable {book : Book} {d : Direction} {state : PoolState}

/-- A pool may turn back on a tick that carries no net. -/
theorem turn (h : Settled book d state)
    (hnone : ∀ b ∈ book.boundaries, b.tick = state.tick → b.liquidityNet.val = 0) :
    Settled book (opposite d) state where
  ahead b hb hlt := by
    rw [along_opposite, along_opposite, neg_lt_neg_iff] at hlt
    rw [reach_opposite, reach_opposite, neg_lt_neg_iff]
    exact h.passed b hb hlt
  passed b hb hlt := by
    rw [along_opposite, along_opposite, neg_lt_neg_iff] at hlt
    rw [reach_opposite, reach_opposite, neg_lt_neg_iff]
    exact h.ahead b hb hlt
  here b hb htick := .inl (hnone b hb htick)
  liquidity := by
    rw [h.liquidity, standing_eq, standing_eq]
    congr 1
    refine List.map_congr_left fun b hb => ?_
    have hzero := hnone b hb
    cases d with
    | bToA =>
      simp only [behind, opposite, decide_eq_true_eq]
      split_ifs <;> omega
    | aToB =>
      simp only [behind, opposite, decide_eq_true_eq]
      split_ifs <;> omega

end Settled

section walk
variable {book : Book} {d : Direction} {state : PoolState} {net : U128} {final : Walk}
  {log : List Boundary}

/-- Where a walk from a settled pool stops, the pool is settled. -/
theorem settled_end (hs : Settled book d state)
    (h : Tracked book d (Walk.start state net) final log)
    (honward : reach d state.sqrtPrice ≤ reach d final.sqrtPrice) :
    Settled book d { state with
      sqrtPrice := final.sqrtPrice, liquidity := final.liquidity, tick := final.tick } := by
  refine ⟨h.ahead, fun b hb hlt => ?_, fun b hb htick => ?_, ?_⟩
  · have hlt : along d b.tick < along d final.tick := hlt
    rcases h.landed with hsame | ⟨a, ha, hat⟩
    · rw [hsame] at hlt
      exact (hs.passed b hb hlt).trans_le honward
    · have hbefore : along d b.tick < along d a.tick := hat ▸ hlt
      exact (book.reach_lt_reach hb ((h.mem a).mp ha).1 hbefore).trans_le (h.behind a ha)
  · rcases h.landed with hsame | ⟨a, ha, hat⟩
    · exact (hs.here b hb (htick.trans hsame)).imp_right fun hle => hle.trans honward
    · obtain rfl := book.eq_of_tick_eq ((h.mem a).mp ha).1 hb (hat.trans htick.symm)
      exact .inr (h.behind a ha)
  · have hmoves := profile_standing (profile_of_tracked h)
    have hstart : ((Walk.start state net).liquidity.val : ℤ) =
        standing book.boundaries d (Walk.start state net).tick := hs.liquidity
    rw [hstart] at hmoves
    rw [hmoves]
    ring

/-- Its steps are priced with the depth the book has there. -/
theorem step_depth (hs : Settled book d state)
    (h : Tracked book d (Walk.start state net) final log)
    (honward : ∀ s ∈ final.steps, reach d state.sqrtPrice ≤ reach d s.sqrtPriceStart ∧
      reach d s.sqrtPriceEnd ≤ reach d final.sqrtPrice)
    {s : Step} (hmem : s ∈ final.steps) {n : ℕ} (hlow : (band d s).low ≤ n)
    (hhigh : n < (band d s).high) : (s.liquidity.val : ℤ) = depth book.boundaries n := by
  have hprofile := profile_of_tracked h
  obtain ⟨hfirst, hlast⟩ := honward s hmem
  have hstart : ((Walk.start state net).liquidity.val : ℤ) =
      standing book.boundaries d state.tick := hs.liquidity
  rw [hprofile.depth s hmem n hlow hhigh, hstart, hprofile.crossed_eq, List.filter_filter,
    inflow_travel_filter, standing_eq, depth_eq, ← List.sum_map_add]
  congr 1
  refine List.map_congr_left fun b hb => ?_
  have hahead := hs.ahead b hb
  have hpassed := hs.passed b hb
  have hhere := hs.here b hb
  have hbeyond := h.ahead b hb
  have htick : (Walk.start state net).tick = state.tick := rfl
  have hforward := h.onward
  rw [htick] at hforward ⊢
  cases d with
  | bToA =>
    simp only [behind, passed, band, reach, along] at *
    grind
  | aToB =>
    simp only [behind, passed, band, reach, along] at *
    grind

end walk

/-- Bands at the book's own depth weigh what positions hold over their range. -/
theorem weigh_eq_heldBetween {boundaries : List Boundary} {d d' : Direction} {steps : List Step}
    {low high : ℕ} (hstacked : Stacked low (bands d steps) high)
    (hdepth : ∀ s ∈ steps, ∀ n, (band d s).low ≤ n → n < (band d s).high →
      (s.liquidity.val : ℤ) = depth boundaries n) :
    weigh (potential d') (bands d steps) = heldBetween boundaries d' low high := by
  rw [weigh_eq_sum _ hstacked]
  refine Finset.sum_congr rfl fun n hn => ?_
  obtain ⟨hlow, hhigh⟩ := Finset.mem_Ico.mp hn
  obtain ⟨_, hb, hfrom, hto, hat⟩ := exists_band hstacked hlow hhigh
  obtain ⟨s, hs, rfl⟩ := mem_bands.mp hb
  have hsame := hdepth s hs n hfrom hto
  rw [hat, band_depth]
  congr 1
  exact_mod_cast hsame

section swap
variable {t : Ticks} (ht : Indexed t) {state next : PoolState} {f : Fill}
include ht

/-- A swap of a settled pool leaves it settled, and pays for what its positions come to
hold of either token. -/
theorem fill_settled (h : Fills t.source state f next)
    (hs : Settled ht.book f.direction state) :
    Settled ht.book f.direction next ∧ ∀ d,
      held ht.book.boundaries d next.sqrtPrice ≤
        held ht.book.boundaries d state.sqrtPrice + received d f := by
  obtain ⟨net, fee, final, hfee, hlimit, hover, hrun, hout, hsteps, rfl⟩ := fill_walk ht h
  have htracked := run_tracked hover hlimit hs.ahead (swap_logged hfee hrun)
  obtain ⟨hbal, _⟩ := run_balanced hlimit hrun
  obtain ⟨honward, hbetween⟩ := chained_between hbal.chained fun s hs => (hbal.forward s hs).1
  have hdepth : ∀ s ∈ final.steps, ∀ n, (band f.direction s).low ≤ n →
      n < (band f.direction s).high → (s.liquidity.val : ℤ) = depth ht.book.boundaries n :=
    fun s hmem n => step_depth hs htracked hbetween hmem
  have hin := weigh_le_inputs hbal
  have hpay := outputs_le_weigh hbal
  refine ⟨settled_end hs htracked honward, fun d => ?_⟩
  obtain ⟨start, direction, amountIn, priceLimit, maxCrossings, r⟩ := f
  dsimp only at *
  cases direction with
  | bToA =>
    have hrise : state.sqrtPrice ≤ final.sqrtPrice := Int.ofNat_le.mp honward
    have hstacked := stacked_upwards hbal.chained fun s hs => (hbal.forward s hs).1
    obtain ⟨hheldB, hheldA⟩ := held_rise ht.book.boundaries hrise
    rw [weigh_eq_heldBetween hstacked hdepth] at hin hpay
    cases d with
    | bToA =>
      rw [hheldB, received, if_pos rfl, hsteps]
      exact add_le_add_right hin _
    | aToB =>
      rw [hheldA, received, if_neg nofun, hout]
      have hpay : (final.amountOut.val : ℚ) ≤ heldBetween ht.book.boundaries .aToB
        state.sqrtPrice.val final.sqrtPrice.val := hpay
      linarith
  | aToB =>
    have hfall : final.sqrtPrice ≤ state.sqrtPrice := Int.ofNat_le.mp (neg_le_neg_iff.mp honward)
    have hstacked := stacked_downwards hbal.chained fun s hs => (hbal.forward s hs).1
    obtain ⟨hheldB, hheldA⟩ := held_rise ht.book.boundaries hfall
    rw [weigh_eq_heldBetween hstacked hdepth] at hin hpay
    cases d with
    | aToB =>
      rw [hheldA, received, if_pos rfl, hsteps]
      exact add_le_add_right hin _
    | bToA =>
      rw [hheldB, received, if_neg nofun, hout]
      have hpay : (final.amountOut.val : ℚ) ≤ heldBetween ht.book.boundaries .bToA
        final.sqrtPrice.val state.sqrtPrice.val := hpay
      linarith

end swap

/-- No swap of the run turns back on a tick that carries a net. -/
def TurnsFreely (t : Ticks) (fills : List Fill) : Prop :=
  fills.IsChain fun f g => f.direction = g.direction ∨ netAt t f.result.tickEnd = 0

/-- Settled for the swap that comes next. -/
def SettledFor (book : Book) (state : PoolState) : List Fill → Prop
  | [] => True
  | f :: _ => Settled book f.direction state

section runs
variable {t : Ticks} {state last : PoolState} {fills : List Fill}

theorem settledFor_next (ht : Indexed t) {f : Fill} (hs : SettledFor ht.book state (f :: fills))
    (hturns : TurnsFreely t (f :: fills)) (h : Fills t.source state f last) :
    SettledFor ht.book last fills ∧ TurnsFreely t fills := by
  obtain ⟨hnext, _⟩ := fill_settled ht h hs
  cases fills with
  | nil => exact ⟨trivial, .nil⟩
  | cons g fills =>
    obtain ⟨hturn, hrest⟩ := List.isChain_cons_cons.mp hturns
    refine ⟨?_, hrest⟩
    by_cases hsame : f.direction = g.direction
    · rw [SettledFor, ← hsame]
      exact hnext
    · have hopposite : g.direction = opposite f.direction := opposite_of_ne hsame
      rw [SettledFor, hopposite]
      refine hnext.turn fun b hb htick => ?_
      obtain ⟨n, hn, rfl⟩ := List.mem_map.mp hb
      have hbare := hturn.resolve_left hsame
      have htick : n.index = f.result.tickEnd := by rw [h.next_eq] at htick; exact htick
      rwa [← htick, netAt_of_mem ht hn] at hbare

theorem run_held (ht : Indexed t) (h : Run (Fills t.source) state fills last)
    (hs : SettledFor ht.book state fills) (hturns : TurnsFreely t fills) (d : Direction) :
    held ht.book.boundaries d last.sqrtPrice ≤
      held ht.book.boundaries d state.sqrtPrice + (fills.map (received d)).sum := by
  refine Run.value_le (I := fun s fs => SettledFor ht.book s fs ∧ TurnsFreely t fs)
    (fun s => held ht.book.boundaries d s.sqrtPrice) (received d) h ?_ ?_ ⟨hs, hturns⟩
  · rintro s f fs s' ⟨hsettled, hfree⟩ hfill
    exact settledFor_next ht hsettled hfree hfill
  · rintro s f fs s' ⟨hsettled, _⟩ hfill
    exact (fill_settled ht hfill hsettled).2 d

end runs

/-- Over any run of swaps from a settled pool that turns back on bare ticks only, what the
pool is paid of either token, fees aside, covers what its positions come to hold of it. -/
theorem run_solvent (t : Ticks) (ht : t.Accepted) (fills : List Fill) (state last : PoolState)
    (h : Run (Fills t.source) state fills last) (hturns : TurnsFreely t fills)
    (hs : SettledFor (accepted_indexed ht).book state fills) (d : Direction) :
    held (t.nodes.map TickNode.boundary) d last.sqrtPrice ≤
      held (t.nodes.map TickNode.boundary) d state.sqrtPrice + (fills.map (received d)).sum :=
  run_held (accepted_indexed ht) h hs hturns d

/-- Down inside both positions, half the way back, and down out of one of them. -/
def smallSale : SwapResult :=
  { amountIn := 1000
    fee := 0
    amountOut := 1004
    sqrtPriceStart := 18492916316576902928
    sqrtPriceEnd := 18474395679442560234
    tickStart := 50
    tickEnd := 50
    liquidityStart := 1000000
    liquidityEnd := 1000000
    inputConsumed := true
    steps :=
      [{ amountIn := 1000
         amountOut := 1004
         sqrtPriceStart := 18492916316576902928
         sqrtPriceEnd := 18474395679442560234
         liquidity := 1000000
         crossed := false }] }

def smallPurchase : SwapResult :=
  { amountIn := 500
    fee := 0
    amountOut := 498
    sqrtPriceStart := 18474395679442560234
    sqrtPriceEnd := 18483619051479415009
    tickStart := 50
    tickEnd := 50
    liquidityStart := 1000000
    liquidityEnd := 1000000
    inputConsumed := true
    steps :=
      [{ amountIn := 500
         amountOut := 498
         sqrtPriceStart := 18474395679442560234
         sqrtPriceEnd := 18483619051479415009
         liquidity := 1000000
         crossed := false }] }

def largeSale : SwapResult :=
  { amountIn := 4000
    fee := 0
    amountOut := 3995
    sqrtPriceStart := 18483619051479415009
    sqrtPriceEnd := 18385337047969334041
    tickStart := 50
    tickEnd := 0
    liquidityStart := 1000000
    liquidityEnd := 600000
    inputConsumed := true
    steps :=
      [{ amountIn := 1996
         amountOut := 1998
         sqrtPriceStart := 18483619051479415009
         sqrtPriceEnd := 18446744073709551616
         liquidity := 1000000
         crossed := true },
       { amountIn := 2004
         amountOut := 1997
         sqrtPriceStart := 18446744073709551616
         sqrtPriceEnd := 18385337047969334041
         liquidity := 600000
         crossed := false }] }

def afterSale : PoolState := resumed upperPool smallSale

def afterPurchase : PoolState := resumed afterSale smallPurchase

def afterLargeSale : PoolState := resumed afterPurchase largeSale

def zigzag : List Fill :=
  [⟨upperPool, .aToB, 1000, minSqrtPrice, 64, smallSale⟩,
    ⟨afterSale, .bToA, 500, maxSqrtPrice, 64, smallPurchase⟩,
    ⟨afterPurchase, .aToB, 4000, minSqrtPrice, 64, largeSale⟩]

theorem zigzag_run : Run (Fills twoPositionsIndex.source) upperPool zigzag afterLargeSale :=
  .cons ⟨rfl, by decide +kernel, rfl⟩ (.cons ⟨rfl, by decide +kernel, rfl⟩
    (.cons ⟨rfl, by decide +kernel, rfl⟩ (.nil _)))

theorem upperPool_settled :
    Settled (accepted_indexed twoPositionsIndex_accepted).book .aToB upperPool := by
  have hahead : ∀ b ∈ twoPositionsIndex.nodes.map TickNode.boundary,
      along .aToB upperPool.tick < along .aToB b.tick →
        reach .aToB upperPool.sqrtPrice < reach .aToB b.sqrtPrice := by decide +kernel
  have hpassed : ∀ b ∈ twoPositionsIndex.nodes.map TickNode.boundary,
      along .aToB b.tick < along .aToB upperPool.tick →
        reach .aToB b.sqrtPrice < reach .aToB upperPool.sqrtPrice := by decide +kernel
  have hhere : ∀ b ∈ twoPositionsIndex.nodes.map TickNode.boundary, b.tick = upperPool.tick →
      b.liquidityNet.val = 0 ∨ reach .aToB b.sqrtPrice ≤ reach .aToB upperPool.sqrtPrice := by
    decide +kernel
  exact ⟨hahead, hpassed, hhere, by decide +kernel⟩

theorem run_solvent_zigzag :
    held (twoPositionsIndex.nodes.map TickNode.boundary) .aToB afterLargeSale.sqrtPrice ≤
        held (twoPositionsIndex.nodes.map TickNode.boundary) .aToB upperPool.sqrtPrice +
          (zigzag.map (received .aToB)).sum ∧
      held (twoPositionsIndex.nodes.map TickNode.boundary) .bToA afterLargeSale.sqrtPrice ≤
        held (twoPositionsIndex.nodes.map TickNode.boundary) .bToA upperPool.sqrtPrice +
          (zigzag.map (received .bToA)).sum := by
  have hfree : TurnsFreely twoPositionsIndex zigzag := by
    refine .cons_cons (.inr (by decide +kernel)) (.cons_cons (.inr (by decide +kernel)) ?_)
    exact .singleton _
  exact ⟨run_solvent twoPositionsIndex twoPositionsIndex_accepted zigzag upperPool afterLargeSale
      zigzag_run hfree upperPool_settled .aToB,
    run_solvent twoPositionsIndex twoPositionsIndex_accepted zigzag upperPool afterLargeSale
      zigzag_run hfree upperPool_settled .bToA⟩

end Solvency
