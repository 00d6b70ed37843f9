import Birdai.Quote.RangeShortcut
import Birdai.Tick.NodeDecoders

/-!
# Ticks on the grid

Every tick of an index checked against the pool's spacing lies on a grid, so the first
tick above the price is known without the index. A purchase that stops below the grid
tick is quoted right with no ticks at all.
-/

namespace GridTicks

open WideArith Outcomes SwapExactIn PricingSpecs TickMath TickIndex TickBook NodeDecoders
open BookTraversal HiddenBook RangeShortcut CetusPool CetusClmm

/-- `i32` addition and multiplication stop at the ends of the type. -/
def saturatingI32 (n : ℤ) : ℤ := max (-2 ^ 31) (min n (2 ^ 31 - 1))

/-- The next spacing multiple strictly above the pool's tick. -/
def nextGridTick (pool : CetusClmm) : ℤ :=
  let spacing := (i32FromBits pool.tickSpacing).val
  if spacing ≤ 0 then pool.tick.val
  else
    -- the remainder of the division is not negative, so it rounds down
    let floor := pool.tick.val / spacing
    saturatingI32 (saturatingI32 (floor + 1) * spacing)

theorem saturatingI32_le {n m : ℤ} (hmin : -2 ^ 31 ≤ m) (h : n ≤ m) : saturatingI32 n ≤ m :=
  max_le hmin ((min_le_left _ _).trans h)

theorem saturatingI32_le_self {n : ℤ} (h : -2 ^ 31 ≤ n) : saturatingI32 n ≤ n :=
  saturatingI32_le h le_rfl

/-- A spacing the cast keeps is the spacing itself. -/
theorem i32FromBits_of_pos {bits : U32} (h : 0 < (i32FromBits bits).val) :
    (i32FromBits bits).val = bits.val := by
  have hlt := bits.isLt
  simp only [i32FromBits] at h ⊢
  split at h
  · rename_i hsmall
    rw [if_pos hsmall]
  · omega

theorem onGrid {t : Ticks} {spacing : U32} (hspacing : spacing ≠ 0)
    (h : t.validateSpacing spacing = .ok ()) {n : TickNode} (hn : n ∈ t.nodes) :
    (spacing.val : ℤ) ∣ n.index := by
  rw [Ticks.validateSpacing, if_neg hspacing] at h
  split at h
  · cases h
  · rename_i hnone
    have hzero := List.find?_eq_none.mp hnone n hn
    simp only [ne_eq, decide_not, Bool.not_eq_true', decide_eq_false_iff_not, not_not] at hzero
    exact Int.dvd_of_emod_eq_zero hzero

/-- The multiple after the one a tick stands on, or under, is the least above it. -/
theorem nextMultiple_le {tick index spacing : ℤ} (hspacing : 0 < spacing)
    (hgrid : spacing ∣ index) (hlt : tick < index) : (tick / spacing + 1) * spacing ≤ index := by
  obtain ⟨k, rfl⟩ := hgrid
  have hfloor : tick / spacing < k := by
    apply Int.ediv_lt_of_lt_mul hspacing
    rwa [mul_comm]
  calc (tick / spacing + 1) * spacing ≤ k * spacing :=
        mul_le_mul_of_nonneg_right (by omega) hspacing.le
    _ = spacing * k := mul_comm _ _

/-- No node of the index lies between the pool's tick and the grid tick. -/
theorem nextGridTick_le {t : Ticks} {pool : CetusClmm}
    (hgrid : t.validateSpacing pool.tickSpacing = .ok ()) {n : TickNode} (hn : n ∈ t.nodes)
    (hlt : pool.tick.val < n.index) : nextGridTick pool ≤ n.index := by
  have htick := pool.tick.property.1
  have hindex := n.tick.index.property.1
  rw [nextGridTick]
  split
  · exact hlt.le
  rename_i hpos
  have hpos : 0 < (i32FromBits pool.tickSpacing).val := not_le.mp hpos
  have hsame := i32FromBits_of_pos hpos
  have hspacing : pool.tickSpacing ≠ 0 := by
    intro hzero
    rw [hzero] at hpos
    exact absurd hpos (by decide)
  have hdvd := hsame ▸ onGrid hspacing hgrid hn
  have hfloor : -2 ^ 31 ≤ pool.tick.val / (i32FromBits pool.tickSpacing).val := by
    apply (Int.le_ediv_iff_mul_le hpos).mpr
    nlinarith
  apply saturatingI32_le hindex
  calc saturatingI32 (pool.tick.val / (i32FromBits pool.tickSpacing).val + 1) *
        (i32FromBits pool.tickSpacing).val
      ≤ (pool.tick.val / (i32FromBits pool.tickSpacing).val + 1) *
        (i32FromBits pool.tickSpacing).val :=
        mul_le_mul_of_nonneg_right (saturatingI32_le_self (by omega)) hpos.le
    _ ≤ n.index := nextMultiple_le hpos hdvd hlt

/-- Where a purchase that consults no ticks would stop is more than one tick below the grid. -/
def StopsBelowGrid (pool : CetusClmm) (amountIn : U128) : Prop :=
  ∀ net fee reached, takeFee amountIn pool.feeRate = .ok (net, fee) →
    nextSqrtPriceUp pool.sqrtPrice pool.liquidity net = .ok reached →
      ∃ stop, tickAtSqrtPrice reached = .ok stop ∧ stop + 1 < nextGridTick pool

theorem stopsBelowGrid_of_stays {pool : CetusClmm} {amountIn : U128}
    (hstays : pool.staysInsideCurrentRange .bToA amountIn = .ok true)
    (hbelow : pool.tick.val + 1 < nextGridTick pool) : StopsBelowGrid pool amountIn := by
  intro net fee reached hfee hreached
  obtain ⟨net', fee', reached', hfee', hreached', _, hstop⟩ := stays_ok hstays
  obtain ⟨rfl, rfl⟩ := Prod.mk.inj (Except.ok.inj (hfee'.symm.trans hfee))
  obtain rfl := Except.ok.inj (hreached'.symm.trans hreached)
  exact ⟨_, hstop, hbelow⟩

theorem quote_of_stopsBelowGrid {t : Ticks} (ht : Indexed t) {pool : CetusClmm}
    (hgrid : t.validateSpacing pool.tickSpacing = .ok ()) {amountIn : U128}
    (hstops : StopsBelowGrid pool amountIn) :
    pool.quoteExactIn t .bToA amountIn = pool.quoteExactIn noTicks .bToA amountIn := by
  refine quote_of_outOfReach ht fun b hb _ => .inr fun net fee full hfee hfull => ?_
  obtain ⟨stop, hstop, hbelow⟩ := hstops net fee full hfee hfull
  obtain ⟨n, hn, rfl⟩ := Option.map_eq_some_iff.mp ((ht.nextAbove_boundary _).trans hb)
  obtain ⟨hmem, hlt, _⟩ := ht.nextAbove_eq_some_iff.mp hn
  have hboundary : n.boundary ∈ ht.book.boundaries := List.mem_map.mpr ⟨n, hmem, rfl⟩
  have hfar : stop + 1 < n.index := hbelow.trans_le (nextGridTick_le hgrid hmem hlt)
  have hrange : n.index ≤ maxTick := (ht.book.inRange _ hboundary).2
  obtain ⟨tick, htick, hmin, _, _, habove⟩ := tickAtSqrtPrice_ok (ne_zero_of_tickAt hstop)
  obtain rfl := Except.ok.inj (htick.symm.trans hstop)
  have hreached : full.val < priceAt (tick + 1) :=
    habove.resolve_left fun hend => absurd hfar (by omega)
  -- a tick never stores less than the computed price of the tick under it
  have hstored := ht.book.priceAt_lt_price hboundary hmin hfar
  exact Int.ofNat_lt.mpr (hreached.trans hstored)

/-- Whatever an index on the pool's grid holds, nothing lies between the pool and its grid
tick, a purchase that would stop more than one tick below the grid needs no index, and the
shortcut of the current tick is right where the grid tick is further than the next. -/
theorem grid_quote_exact (t : Ticks) (ht : t.Accepted) (pool : CetusClmm)
    (hgrid : t.validateSpacing pool.tickSpacing = .ok ()) :
    (∀ n, t.nextAbove pool.tick.val = some n → nextGridTick pool ≤ n.index) ∧
    (∀ amountIn, StopsBelowGrid pool amountIn →
      pool.quoteExactIn t .bToA amountIn = pool.quoteExactIn noTicks .bToA amountIn) ∧
    ∀ amountIn, pool.staysInsideCurrentRange .bToA amountIn = .ok true →
      pool.tick.val + 1 < nextGridTick pool →
        pool.quoteExactIn t .bToA amountIn = pool.quoteExactIn noTicks .bToA amountIn := by
  have hindexed := accepted_indexed ht
  refine ⟨fun n hn => ?_, fun amountIn => quote_of_stopsBelowGrid hindexed hgrid, ?_⟩
  · obtain ⟨hmem, hlt, _⟩ := hindexed.nextAbove_eq_some_iff.mp hn
    exact nextGridTick_le hgrid hmem hlt
  · intro amountIn hstays hbelow
    exact quote_of_stopsBelowGrid hindexed hgrid (stopsBelowGrid_of_stays hstays hbelow)

/-- A pool at the price of tick 0, ten ticks below the tick stored too low. -/
def poolAtZero : CetusClmm := { poolBelowTen 18446744073709551616 with tick := 0 }

theorem grid_quote_exact_low_stored :
    poolAtZero.quoteExactIn lowStoredIndex .bToA 1000 =
      poolAtZero.quoteExactIn noTicks .bToA 1000 :=
  (grid_quote_exact lowStoredIndex lowStoredIndex_accepted poolAtZero
    (by decide +kernel)).2.2 1000 (by decide +kernel) (by decide +kernel)

end GridTicks
