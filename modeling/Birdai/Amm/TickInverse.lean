import Birdai.Amm.TickMath

/-!
# Ticks and prices are inverse

The conversion rises strictly between its end values, and the bounded search finds
the last tick at or below a price.
-/

namespace TickInverse

open WideArith Outcomes TickMath

/-! ### The conversion -/

theorem sqrtPriceAtTick_lt {low high : ℤ} {below above : U128} (hlt : low < high)
    (hbelow : sqrtPriceAtTick low = .ok below) (habove : sqrtPriceAtTick high = .ok above) :
    below < above := by
  obtain ⟨hmin, _, hlow⟩ := sqrtPriceAtTick_eq_ok hbelow
  obtain ⟨_, hmax, hhigh⟩ := sqrtPriceAtTick_eq_ok habove
  have hrise := priceAt_strictMono hmin hlt hmax
  apply Fin.lt_def.mpr
  omega

theorem sqrtPriceAtTick_minTick : sqrtPriceAtTick minTick = .ok minSqrtPrice := by
  obtain ⟨price, hprice, hval⟩ := sqrtPriceAtTick_ok le_rfl (show minTick ≤ maxTick by decide)
  rw [hprice, Fin.ext (hval.trans priceAt_minTick)]

theorem sqrtPriceAtTick_maxTick : sqrtPriceAtTick maxTick = .ok maxSqrtPrice := by
  obtain ⟨price, hprice, hval⟩ := sqrtPriceAtTick_ok (show minTick ≤ maxTick by decide) le_rfl
  rw [hprice, Fin.ext (hval.trans priceAt_maxTick)]

/-! ### The search -/

/-- The search loop, with both ends it leaves off at. -/
def searchEnds (sqrtPrice : U128) : ℕ → ℤ → ℤ → Except AmmError (ℤ × ℤ)
  | 0, low, high => .ok (low, high)
  | steps + 1, low, high =>
    if high - low ≤ 1 then .ok (low, high)
    else do
      let middle := low + (high - low) / 2
      let price ← sqrtPriceAtTick middle
      if price ≤ sqrtPrice then searchEnds sqrtPrice steps middle high
      else searchEnds sqrtPrice steps low middle

theorem search_eq_searchEnds (sqrtPrice : U128) (steps : ℕ) (low high : ℤ) :
    search sqrtPrice steps low high = (searchEnds sqrtPrice steps low high).map Prod.fst := by
  induction steps generalizing low high with
  | zero => rfl
  | succ steps ih =>
    rw [search, searchEnds]
    by_cases hclose : high - low ≤ 1
    · rw [if_pos hclose, if_pos hclose]
      rfl
    · rw [if_neg hclose, if_neg hclose]
      dsimp only
      cases sqrtPriceAtTick (low + (high - low) / 2) with
      | error e => rfl
      | ok price =>
        rw [ok_bind, ok_bind]
        split
        · exact ih _ _
        · exact ih _ _

/-- Every step halves the gap, so enough steps close it. -/
theorem searchEnds_close (sqrtPrice : U128) (steps : ℕ) {low high : ℤ} (hmin : minTick ≤ low)
    (hmax : high ≤ maxTick) (hsteps : high - low ≤ 2 ^ steps) :
    ∃ tick next, searchEnds sqrtPrice steps low high = .ok (tick, next) ∧ next - tick ≤ 1 := by
  induction steps generalizing low high with
  | zero =>
    rw [pow_zero] at hsteps
    exact ⟨low, high, rfl, hsteps⟩
  | succ steps ih =>
    rw [searchEnds]
    by_cases hclose : high - low ≤ 1
    · rw [if_pos hclose]
      exact ⟨low, high, rfl, hclose⟩
    · rw [if_neg hclose]
      rw [Int.pow_succ] at hsteps
      obtain ⟨price, hprice, _⟩ := sqrtPriceAtTick_ok
        (show minTick ≤ low + (high - low) / 2 by omega)
        (show low + (high - low) / 2 ≤ maxTick by omega)
      dsimp only
      rw [hprice, ok_bind]
      split
      · exact ih (by omega) hmax (by omega)
      · exact ih hmin (by omega) (by omega)

/-- Between its guards the conversion is the search, which stops at neighbouring ends. -/
theorem tickAtSqrtPrice_search {sqrtPrice : U128} (hmin : minSqrtPrice ≤ sqrtPrice)
    (hmax : sqrtPrice < maxSqrtPrice) : ∃ tick next,
      searchEnds sqrtPrice maxSearchSteps minTick maxTick = .ok (tick, next) ∧
        next - tick ≤ 1 ∧ tickAtSqrtPrice sqrtPrice = .ok tick := by
  obtain ⟨tick, next, hends, hclose⟩ :=
    searchEnds_close sqrtPrice maxSearchSteps le_rfl le_rfl (by decide)
  have hpos : sqrtPrice ≠ 0 := by
    rintro rfl
    exact absurd hmin (by decide)
  refine ⟨tick, next, hends, hclose, ?_⟩
  rw [tickAtSqrtPrice, if_neg hpos, if_neg (not_lt.mpr hmin), if_neg (not_le.mpr hmax),
    search_eq_searchEnds, hends]
  rfl

/-! ### The inverse -/

/-- At or above the least price the tick found is the last one that does not exceed it. -/
theorem tickAtSqrtPrice_floor {sqrtPrice : U128} (hmin : minSqrtPrice ≤ sqrtPrice) :
    ∃ tick price, tickAtSqrtPrice sqrtPrice = .ok tick ∧ sqrtPriceAtTick tick = .ok price ∧
      price ≤ sqrtPrice ∧ (tick = maxTick ∨
        ∃ above, sqrtPriceAtTick (tick + 1) = .ok above ∧ sqrtPrice < above) := by
  have hpos : sqrtPrice ≠ 0 := by
    rintro rfl
    exact absurd hmin (by decide)
  obtain ⟨tick, htick, hlow, hhigh, hfloor, hnext⟩ := tickAtSqrtPrice_ok hpos
  obtain ⟨price, hprice, hval⟩ := sqrtPriceAtTick_ok hlow hhigh
  refine ⟨tick, price, htick, hprice, ?_, ?_⟩
  · apply Fin.le_def.mpr
    rcases hfloor with rfl | hle
    · rw [hval, priceAt_minTick]
      exact hmin
    · exact hval.trans_le hle
  · rcases hnext with hmax | hlt
    · exact .inl hmax
    · by_cases hmax : tick = maxTick
      · exact .inl hmax
      · obtain ⟨above, habove, hval'⟩ := sqrtPriceAtTick_ok
          (show minTick ≤ tick + 1 by omega) (show tick + 1 ≤ maxTick by omega)
        refine .inr ⟨above, habove, Fin.lt_def.mpr ?_⟩
        omega

theorem tickAtSqrtPrice_sqrtPriceAtTick {tick : ℤ} {price : U128}
    (h : sqrtPriceAtTick tick = .ok price) : tickAtSqrtPrice price = .ok tick := by
  obtain ⟨hlow, hhigh, hval⟩ := sqrtPriceAtTick_eq_ok h
  have hmin : minSqrtPrice ≤ price := by
    rcases hlow.eq_or_lt with rfl | hlt
    · rw [sqrtPriceAtTick_minTick] at h
      exact (Except.ok.inj h).le
    · exact (sqrtPriceAtTick_lt hlt sqrtPriceAtTick_minTick h).le
  obtain ⟨found, below, hfound, hbelow, hle, hnext⟩ := tickAtSqrtPrice_floor hmin
  have hnotAbove : ¬ tick < found := fun hlt =>
    absurd (sqrtPriceAtTick_lt hlt h hbelow) (not_lt.mpr hle)
  have hnotBelow : ¬ found < tick := by
    intro hlt
    rcases hnext with rfl | ⟨above, habove, hprice⟩
    · omega
    · rcases (Int.add_one_le_of_lt hlt).eq_or_lt with rfl | hfar
      · rw [h] at habove
        exact absurd hprice (Except.ok.inj habove ▸ lt_irrefl _)
      · exact absurd (sqrtPriceAtTick_lt hfar habove h) hprice.not_gt
  have heq : found = tick := by omega
  exact heq ▸ hfound

theorem tickAtSqrtPrice_mono {low high : U128} (hpos : low ≠ 0) (hle : low ≤ high) :
    ∃ tick tick', tickAtSqrtPrice low = .ok tick ∧ tickAtSqrtPrice high = .ok tick' ∧
      tick ≤ tick' := by
  have hpos' : high ≠ 0 := by
    rintro rfl
    exact hpos (le_antisymm hle (Fin.zero_le _))
  obtain ⟨tick, htick, hmin, hmax, hfloor, _⟩ := tickAtSqrtPrice_ok hpos
  obtain ⟨tick', htick', hmin', hmax', _, hnext⟩ := tickAtSqrtPrice_ok hpos'
  refine ⟨tick, tick', htick, htick', not_lt.mp fun hlt => ?_⟩
  have hle : low.val ≤ high.val := hle
  rcases hfloor with rfl | hfloor
  · omega
  rcases hnext with rfl | hnext
  · omega
  rcases (Int.add_one_le_of_lt hlt).eq_or_lt with heq | hfar
  · rw [heq] at hnext
    omega
  · have hrise := priceAt_strictMono (show minTick ≤ tick' + 1 by omega) hfar hmax
    omega

/-- `tick_at_sqrt_price` is the exact inverse of `sqrt_price_at_tick`. -/
theorem tick_price_inverse :
    (∀ tick, minTick ≤ tick → tick ≤ maxTick → ∃ price, sqrtPriceAtTick tick = .ok price) ∧
    (∀ low high below above, low < high → sqrtPriceAtTick low = .ok below →
      sqrtPriceAtTick high = .ok above → below < above) ∧
    sqrtPriceAtTick minTick = .ok minSqrtPrice ∧
    sqrtPriceAtTick maxTick = .ok maxSqrtPrice ∧
    (∀ sqrtPrice, minSqrtPrice ≤ sqrtPrice → ∃ tick price,
      tickAtSqrtPrice sqrtPrice = .ok tick ∧ sqrtPriceAtTick tick = .ok price ∧
        price ≤ sqrtPrice ∧ (tick = maxTick ∨
          ∃ above, sqrtPriceAtTick (tick + 1) = .ok above ∧ sqrtPrice < above)) ∧
    (∀ tick price, sqrtPriceAtTick tick = .ok price → tickAtSqrtPrice price = .ok tick) ∧
    (∀ low high, low ≠ 0 → low ≤ high → ∃ tick tick',
      tickAtSqrtPrice low = .ok tick ∧ tickAtSqrtPrice high = .ok tick' ∧ tick ≤ tick') ∧
    (∀ sqrtPrice, minSqrtPrice ≤ sqrtPrice → sqrtPrice < maxSqrtPrice → ∃ tick next,
      searchEnds sqrtPrice maxSearchSteps minTick maxTick = .ok (tick, next) ∧
        next - tick ≤ 1 ∧ tickAtSqrtPrice sqrtPrice = .ok tick) := by
  refine ⟨fun tick hlow hhigh => ?_, fun _ _ _ _ => sqrtPriceAtTick_lt, sqrtPriceAtTick_minTick,
    sqrtPriceAtTick_maxTick, fun _ => tickAtSqrtPrice_floor,
    fun _ _ => tickAtSqrtPrice_sqrtPriceAtTick, fun _ _ => tickAtSqrtPrice_mono,
    fun _ => tickAtSqrtPrice_search⟩
  obtain ⟨price, hprice, _⟩ := sqrtPriceAtTick_ok hlow hhigh
  exact ⟨price, hprice⟩

/-- The price of tick one leads back to tick one. -/
theorem tick_price_inverse_one : tickAtSqrtPrice 18447666387855959850 = .ok 1 := by
  obtain ⟨_, _, _, _, _, hinverse, _⟩ := tick_price_inverse
  apply hinverse
  obtain ⟨price, hprice, hval⟩ := sqrtPriceAtTick_ok (show minTick ≤ 1 by decide) (by decide)
  have heq : price = 18447666387855959850 := Fin.ext (hval.trans priceAt_one)
  rw [hprice, heq]

end TickInverse
