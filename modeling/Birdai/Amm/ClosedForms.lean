import Birdai.Amm.PricingDomain
import Mathlib.Algebra.Order.Floor.Semifield
import Mathlib.Data.Rat.Floor
import Mathlib.Tactic.FieldSimp

/-!
# Amounts between two prices, in closed form

What liquidity holds between two prices, as a rational number. Each delta function
returns that amount rounded once, and fails only where the scaled movement leaves
256 bits or the rounded amount leaves 128.
-/

namespace ClosedForms

open WideArith SwapExactIn PricingSpecs PricingDomain

/-- An amount rounded the way the caller asks. -/
def rounded (roundUp : Bool) (x : ℚ) : ℕ := if roundUp then ⌈x⌉₊ else ⌊x⌋₊

/-- The square-root price a fixed-point word stands for. -/
def priceOf (sqrtPrice : U128) : ℚ := sqrtPrice.val / 2 ^ 64

/-- The liquidity times the distance of the prices, scaled as the source scales it. -/
def scaledGap (low high liquidity : U128) : ℕ := liquidity.val * 2 ^ 64 * (high.val - low.val)

def exactDeltaA (low high liquidity : U128) : ℚ :=
  scaledGap low high liquidity / (high.val * low.val : ℕ)

def exactDeltaB (low high liquidity : U128) : ℚ :=
  (liquidity.val * (high.val - low.val) : ℕ) / (2 ^ 64 : ℕ)

theorem cast_gap {low high : U128} (hle : low ≤ high) :
    ((high.val - low.val : ℕ) : ℚ) = high.val - low.val := Nat.cast_sub hle

theorem exactDeltaA_eq {low high : U128} (liquidity : U128) (hle : low ≤ high)
    (hlow : 0 < low.val) :
    exactDeltaA low high liquidity = liquidity.val * (1 / priceOf low - 1 / priceOf high) := by
  have hlow' : (low.val : ℚ) ≠ 0 := by exact_mod_cast hlow.ne'
  have hhigh' : (high.val : ℚ) ≠ 0 := by exact_mod_cast (hlow.trans_le hle).ne'
  rw [exactDeltaA, scaledGap, Nat.cast_mul, cast_gap hle, priceOf, priceOf]
  push_cast
  field_simp
  ring

theorem exactDeltaB_eq {low high : U128} (liquidity : U128) (hle : low ≤ high) :
    exactDeltaB low high liquidity = liquidity.val * (priceOf high - priceOf low) := by
  rw [exactDeltaB, Nat.cast_mul, cast_gap hle, priceOf, priceOf]
  push_cast
  ring

/-- Rounding a ratio of naturals is dividing them. -/
theorem rounded_ratio (roundUp : Bool) (x : ℕ) {y : ℕ} (hy : 0 < y) :
    rounded roundUp (x / y) = if roundUp then x ⌈/⌉ y else x / y := by
  cases roundUp with
  | false => exact Nat.floor_div_eq_div x y
  | true =>
    have hpos : (0 : ℚ) < y := by exact_mod_cast hy
    refine eq_of_forall_ge_iff fun z => ?_
    simp only [rounded, ↓reduceIte]
    rw [Nat.ceil_le, div_le_iff₀ hpos, ceilDiv_le_iff_le_mul hy, mul_comm (z : ℚ)]
    exact_mod_cast Iff.rfl

theorem ordered_comm (a b : U128) : ordered a b = ordered b a := by
  unfold ordered
  rcases lt_trichotomy a b with h | rfl | h
  · rw [if_pos h.le, if_neg (not_le.mpr h)]
  · rfl
  · rw [if_neg (not_le.mpr h), if_pos h.le]

theorem deltaA_comm (sqrtA sqrtB liquidity : U128) (roundUp : Bool) :
    deltaA sqrtA sqrtB liquidity roundUp = deltaA sqrtB sqrtA liquidity roundUp := by
  rw [deltaA, deltaA, ordered_comm]

theorem deltaB_comm (sqrtA sqrtB liquidity : U128) (roundUp : Bool) :
    deltaB sqrtA sqrtB liquidity roundUp = deltaB sqrtB sqrtA liquidity roundUp := by
  rw [deltaB, deltaB, ordered_comm]

section
variable {sqrtA sqrtB liquidity v : U128} {roundUp : Bool}

/-- A call with its prices in either order is the call with them in rising order. -/
theorem deltaA_sorted : deltaA sqrtA sqrtB liquidity roundUp =
    deltaA (min sqrtA sqrtB) (max sqrtA sqrtB) liquidity roundUp := by
  rcases le_total sqrtA sqrtB with h | h
  · rw [min_eq_left h, max_eq_right h]
  · rw [min_eq_right h, max_eq_left h, deltaA_comm]

theorem deltaB_sorted : deltaB sqrtA sqrtB liquidity roundUp =
    deltaB (min sqrtA sqrtB) (max sqrtA sqrtB) liquidity roundUp := by
  rcases le_total sqrtA sqrtB with h | h
  · rw [min_eq_left h, max_eq_right h]
  · rw [min_eq_right h, max_eq_left h, deltaB_comm]

theorem deltaA_iff : deltaA sqrtA sqrtB liquidity roundUp = .ok v ↔
    0 < (min sqrtA sqrtB).val ∧
    scaledGap (min sqrtA sqrtB) (max sqrtA sqrtB) liquidity < 2 ^ 256 ∧
    v.val = rounded roundUp (exactDeltaA (min sqrtA sqrtB) (max sqrtA sqrtB) liquidity) := by
  have hle : min sqrtA sqrtB ≤ max sqrtA sqrtB := min_le_max
  rw [deltaA_sorted, deltaA_eq_ok_iff hle]
  refine and_congr_right fun hlow => ?_
  rw [exactDeltaA, rounded_ratio roundUp _ (Nat.mul_pos (hlow.trans_le hle) hlow)]
  exact Iff.rfl

theorem deltaB_iff : deltaB sqrtA sqrtB liquidity roundUp = .ok v ↔
    v.val = rounded roundUp (exactDeltaB (min sqrtA sqrtB) (max sqrtA sqrtB) liquidity) := by
  rw [deltaB_sorted, deltaB_eq_ok_iff min_le_max, exactDeltaB,
    rounded_ratio roundUp _ (by positivity)]

end

/-- A word with a given value exists exactly when the value fits. -/
theorem exists_word_iff {n : ℕ} : (∃ v : U128, v.val = n) ↔ n < 2 ^ 128 :=
  ⟨fun ⟨v, hv⟩ => hv ▸ v.isLt, fun h => ⟨⟨n, h⟩, rfl⟩⟩

/-- The delta functions return the exact amount between the two prices, rounded once: token A
when the scaled movement fits 256 bits and the amount fits 128, token B when the amount does. The
order of the prices does not matter. -/
theorem deltas_closed_form (sqrtA sqrtB liquidity : U128) (roundUp : Bool)
    (hlow : 0 < (min sqrtA sqrtB).val) :
    let low := min sqrtA sqrtB
    let high := max sqrtA sqrtB
    ((∃ v, deltaA sqrtA sqrtB liquidity roundUp = .ok v) ↔
      liquidity.val * 2 ^ 64 * (high.val - low.val) < 2 ^ 256 ∧
        rounded roundUp (exactDeltaA low high liquidity) < 2 ^ 128) ∧
    (∀ v, deltaA sqrtA sqrtB liquidity roundUp = .ok v →
      v.val = rounded roundUp (exactDeltaA low high liquidity)) ∧
    ((∃ v, deltaB sqrtA sqrtB liquidity roundUp = .ok v) ↔
      rounded roundUp (exactDeltaB low high liquidity) < 2 ^ 128) ∧
    (∀ v, deltaB sqrtA sqrtB liquidity roundUp = .ok v →
      v.val = rounded roundUp (exactDeltaB low high liquidity)) ∧
    deltaA sqrtA sqrtB liquidity roundUp = deltaA sqrtB sqrtA liquidity roundUp ∧
    deltaB sqrtA sqrtB liquidity roundUp = deltaB sqrtB sqrtA liquidity roundUp := by
  intro low high
  refine ⟨?_, fun v hv => (deltaA_iff.mp hv).2.2, ?_, fun v hv => deltaB_iff.mp hv,
    deltaA_comm _ _ _ _, deltaB_comm _ _ _ _⟩
  · simp only [deltaA_iff, exists_and_left, exists_word_iff]
    exact ⟨fun h => h.2, fun h => ⟨hlow, h⟩⟩
  · simp only [deltaB_iff, exists_word_iff]
    exact Iff.rfl

/-- From price one to price two, `2 ^ 64` of liquidity holds half of itself in token A. -/
theorem deltas_closed_form_one_two :
    ∃ v, deltaA 36893488147419103232 18446744073709551616 18446744073709551616 true = .ok v ∧
      v.val = 2 ^ 63 := by
  have hlow : 0 < (min 36893488147419103232 18446744073709551616 : U128).val := by decide
  obtain ⟨hdom, hval, -⟩ := deltas_closed_form 36893488147419103232 18446744073709551616
    18446744073709551616 true hlow
  have hhalf : rounded true (exactDeltaA (min 36893488147419103232 18446744073709551616)
      (max 36893488147419103232 18446744073709551616) 18446744073709551616) = 2 ^ 63 := by
    rw [exactDeltaA, rounded_ratio true _ (by decide)]
    decide
  obtain ⟨v, hv⟩ := hdom.mpr ⟨by decide, hhalf.trans_lt (by decide)⟩
  exact ⟨v, hv, (hval v hv).trans hhalf⟩

end ClosedForms
