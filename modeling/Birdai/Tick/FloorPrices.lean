import Birdai.Amm.TickAccuracy
import Birdai.Tick.TickBook

/-!
# Exact prices pass validation

The tolerance validation grants around a computed price covers the error of the
computation, so a node that stores the exact price rounded down is accepted.
-/

namespace FloorPrices

open WideArith Outcomes TickMath TickIndex TickAccuracy TickBook

/-- The exact root of the price at a tick, rounded down. -/
def FloorPrice (tick : ℤ) (price : U128) : Prop :=
  (price.val : ℚ) ^ 2 ≤ (10001 / 10000) ^ tick * 2 ^ 128 ∧
    (10001 / 10000 : ℚ) ^ tick * 2 ^ 128 < (price.val + 1) ^ 2

theorem FloorPrice.close {tick : ℤ} {price : U128} (h : FloorPrice tick price)
    (hmin : minTick ≤ tick) (hmax : tick ≤ maxTick) :
    price.val ≤ priceAt tick + toleranceAt (priceAt tick) ∧
      priceAt tick ≤ price.val + toleranceAt (priceAt tick) := by
  obtain ⟨hlow, hhigh⟩ := priceAt_accurate hmin hmax
  have hle := toleranceAt_priceAt_le hmin hmax
  obtain ⟨hfloor, hnext⟩ := h
  constructor
  · have hsq := hfloor.trans hhigh
    have hsq : price.val ^ 2 ≤ (priceAt tick + toleranceAt (priceAt tick)) ^ 2 := by
      exact_mod_cast hsq
    exact (Nat.pow_le_pow_iff_left two_ne_zero).mp hsq
  · have hsq := hlow.trans_lt hnext
    rw [← Nat.cast_sub hle] at hsq
    have hsq : (priceAt tick - toleranceAt (priceAt tick)) ^ 2 < (price.val + 1) ^ 2 := by
      exact_mod_cast hsq
    have hlt := (Nat.pow_lt_pow_iff_left two_ne_zero).mp hsq
    omega

theorem saturatingI128_natAbs_le (n : ℕ) : (saturatingI128 n).natAbs ≤ n := by
  unfold saturatingI128
  split <;> omega

theorem priceDeviation_natAbs_le {stored computed : U128} {tolerance : ℕ}
    (hup : stored.val ≤ computed.val + tolerance)
    (hdown : computed.val ≤ stored.val + tolerance) :
    (priceDeviation stored computed).natAbs ≤ tolerance := by
  unfold priceDeviation
  split
  · have := saturatingI128_natAbs_le (stored.val - computed.val)
    omega
  · have := saturatingI128_natAbs_le (computed.val - stored.val)
    omega

theorem checkPrice_of_floorPrice {node : TickNode} (hmin : minTick ≤ node.index)
    (hmax : node.index ≤ maxTick) (h : FloorPrice node.index node.tick.sqrtPrice) :
    ∃ deviation, Ticks.checkPrice node = .ok deviation := by
  obtain ⟨computed, hcomputed, hval⟩ := sqrtPriceAtTick_ok hmin hmax
  obtain ⟨hup, hdown⟩ := h.close hmin hmax
  have hclose : (priceDeviation node.tick.sqrtPrice computed).natAbs ≤
      (tickPriceTolerance computed).val := by
    rw [tickPriceTolerance_val, hval]
    exact priceDeviation_natAbs_le (hval ▸ hup) (hval ▸ hdown)
  refine ⟨priceDeviation node.tick.sqrtPrice computed, ?_⟩
  rw [Ticks.checkPrice, hcomputed]
  exact if_neg (not_lt.mpr hclose)

/-! ### Validation -/

/-- The complaint is about the tick or the price of a node with this tick and price. -/
def OfPrice (tick : ℤ) (stored : U128) : TickError → Prop
  | .tickOutOfRange i => i = tick
  | .priceMismatch i s _ _ _ => i = tick ∧ s = stored
  | _ => False

/-- Complaints that no tick in range with its exact price gives rise to. -/
def SparesFloorPrices (e : TickError) : Prop :=
  ∀ tick stored, minTick ≤ tick → tick ≤ maxTick → FloorPrice tick stored →
    ¬ OfPrice tick stored e

theorem checkPrice_spares (node : TickNode) :
    FailsOnly SparesFloorPrices (Ticks.checkPrice node) := by
  intro e h tick stored hmin hmax hfloor hprice
  unfold Ticks.checkPrice at h
  split at h
  · rename_i hcomputed
    cases h
    obtain rfl : node.index = tick := hprice
    obtain ⟨_, hok, _⟩ := sqrtPriceAtTick_ok hmin hmax
    rw [hok] at hcomputed
    cases hcomputed
  · rename_i computed hcomputed
    dsimp only at h
    split at h
    · rename_i hfar
      cases h
      obtain ⟨rfl, rfl⟩ := hprice
      obtain ⟨deviation, hok⟩ := checkPrice_of_floorPrice hmin hmax hfloor
      rw [Ticks.checkPrice, hcomputed] at hok
      dsimp only at hok
      rw [if_pos hfar] at hok
      cases hok
    · cases h

theorem validate_spares (t : Ticks) : FailsOnly SparesFloorPrices t.validate.1 := by
  refine validate_failsOnly ?_ ?_ ?_ checkPrice_spares t
  · exact fun _ _ _ _ _ _ _ => id
  · exact fun _ _ _ _ _ => id
  · exact fun _ _ _ _ _ _ _ => id

/-- The exact price is within the tolerance of the computed one, so a node that
stores it rounded down is not what validation complains about. -/
theorem tick_price_within_tolerance (tick : ℤ) (hmin : minTick ≤ tick) (hmax : tick ≤ maxTick) :
    (∃ price, sqrtPriceAtTick tick = .ok price ∧
      ((price.val : ℚ) - (tickPriceTolerance price).val) ^ 2 ≤
        (10001 / 10000) ^ tick * 2 ^ 128 ∧
      (10001 / 10000 : ℚ) ^ tick * 2 ^ 128 ≤
        ((price.val : ℚ) + (tickPriceTolerance price).val) ^ 2) ∧
    (∀ node : TickNode, node.index = tick → FloorPrice tick node.tick.sqrtPrice →
      ∃ deviation, Ticks.checkPrice node = .ok deviation) ∧
    (∀ stored, FloorPrice tick stored → ∀ (t : Ticks) (e : TickError),
      t.validate.1 = .error e → ¬ OfPrice tick stored e) := by
  refine ⟨?_, ?_, ?_⟩
  · obtain ⟨price, hprice, hval⟩ := sqrtPriceAtTick_ok hmin hmax
    refine ⟨price, hprice, ?_⟩
    rw [tickPriceTolerance_val, hval]
    exact priceAt_accurate hmin hmax
  · rintro node rfl hfloor
    exact checkPrice_of_floorPrice hmin hmax hfloor
  · intro stored hfloor t e he
    exact validate_spares t e he tick stored hmin hmax hfloor

theorem lowest_price_within_tolerance :
    ∃ price, sqrtPriceAtTick minTick = .ok price ∧
      ((price.val : ℚ) - (tickPriceTolerance price).val) ^ 2 ≤
        (10001 / 10000) ^ minTick * 2 ^ 128 ∧
      (10001 / 10000 : ℚ) ^ minTick * 2 ^ 128 ≤
        ((price.val : ℚ) + (tickPriceTolerance price).val) ^ 2 :=
  (tick_price_within_tolerance minTick le_rfl (by decide)).1

end FloorPrices
