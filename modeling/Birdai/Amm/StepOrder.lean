import Birdai.Amm.WalkShape

/-!
# Steps from one price, compared

What covers two movements in a row covers both at once, and a longer movement
covers more output. The price an amount reaches is the farthest it covers, and
what a step pays out is the most its movement covers.
-/

namespace StepOrder

open WideArith CheckedWords Outcomes BoundedLoop SwapExactIn PricingSpecs StepRounding WalkShape

/-- The boundary the source names for a tick, before its price is looked at. -/
def offered (c : Call) (tick : ℤ) : Option Boundary :=
  match c.direction with
  | .bToA => c.source.nextBoundaryUp tick
  | .aToB => c.source.nextBoundaryDown tick

theorem nextBoundary_eq_filter (c : Call) (w : Walk) : c.nextBoundary w =
    (offered c w.tick).filter fun b => isAhead c.direction b.sqrtPrice w.sqrtPrice := rfl

/-- Two bounds that meet at a middle price make one over the whole way. -/
theorem chain_le {K a b c x y : ℤ} (ha : 0 ≤ a) (hb : 0 < b) (hc : 0 ≤ c)
    (hab : K * (a - b) ≤ x * a * b) (hbc : K * (b - c) ≤ y * b * c) :
    K * (a - c) ≤ (x + y) * a * c := by
  have hab := mul_le_mul_of_nonneg_right hab hc
  have hbc := mul_le_mul_of_nonneg_right hbc ha
  refine le_of_mul_le_mul_right ?_ hb
  linarith

variable {d : Direction} {liquidity start mid stop : U128}

theorem covers_mono {paid paid' : ℤ} (h : Covers d liquidity start stop paid)
    (hle : paid ≤ paid') : Covers d liquidity start stop paid' := by
  cases d with
  | bToA => exact le_trans h (mul_le_mul_of_nonneg_right hle (by positivity))
  | aToB =>
    simp only [Covers, mul_assoc] at h ⊢
    exact le_trans h (mul_le_mul_of_nonneg_right hle (by positivity))

theorem covers_trans {paid paid' : ℤ} (hmid : 0 < mid.val)
    (h : Covers d liquidity start mid paid) (h' : Covers d liquidity mid stop paid') :
    Covers d liquidity start stop (paid + paid') := by
  cases d with
  | bToA =>
    simp only [Covers] at h h' ⊢
    linarith
  | aToB => exact chain_le (by positivity) (Nat.cast_pos.mpr hmid) (by positivity) h h'

theorem coveredBy_trans {out out' : ℤ} (hmid : 0 < mid.val)
    (h : CoveredBy d liquidity start mid out) (h' : CoveredBy d liquidity mid stop out') :
    CoveredBy d liquidity start stop (out + out') := by
  cases d with
  | bToA =>
    simp only [CoveredBy] at h h' ⊢
    have hchain := chain_le (K := (liquidity.val : ℤ) * 2 ^ 64) (a := start.val) (b := mid.val)
      (c := stop.val) (x := -out) (y := -out') (by positivity) (Nat.cast_pos.mpr hmid)
      (by positivity) (by linarith) (by linarith)
    linarith
  | aToB =>
    simp only [CoveredBy] at h h' ⊢
    linarith

/-- A movement on its own covers nothing, and nothing is what it needs to cover. -/
theorem coveredBy_zero (h : reach d start ≤ reach d stop) :
    CoveredBy d liquidity start stop 0 := by
  cases d with
  | bToA =>
    simp only [reach, along] at h
    simp only [CoveredBy, zero_mul]
    exact mul_nonneg (by positivity) (by omega)
  | aToB =>
    simp only [reach, along] at h
    simp only [CoveredBy, zero_mul]
    exact mul_nonneg (by positivity) (by omega)

/-- Moving farther covers no less. -/
theorem coveredBy_farther {out : ℤ} (hmid : 0 < mid.val)
    (h : CoveredBy d liquidity start mid out) (hle : reach d mid ≤ reach d stop) :
    CoveredBy d liquidity start stop out := by
  have hsum := coveredBy_trans hmid h (coveredBy_zero hle)
  rwa [add_zero] at hsum

/-- The price an amount reaches is the farthest its payment covers. -/
theorem reach_full_iff {amountIn full : U128}
    (hfull : priceFromAmount d start liquidity amountIn = .ok full)
    (hstop : reach d start ≤ reach d stop) :
    reach d stop ≤ reach d full ↔ Covers d liquidity start stop amountIn.val := by
  refine ⟨amount_covers hfull hstop, fun h => ?_⟩
  cases d with
  | bToA =>
    obtain ⟨hliq, hfull⟩ := nextSqrtPriceUp_ok hfull
    have hle : start.val ≤ stop.val := Int.ofNat_le.mp hstop
    rw [covers_bToA_iff hle] at h
    have hcost : liquidity.val * (stop.val - start.val) ≤ amountIn.val * 2 ^ 64 := by
      exact_mod_cast h
    have hstep : stop.val - start.val ≤ amountIn.val * 2 ^ 64 / liquidity.val :=
      (Nat.le_div_iff_mul_le hliq).mpr (Nat.mul_comm _ _ ▸ hcost)
    simp only [reach, along, hfull]
    omega
  | aToB =>
    obtain ⟨hliq, hfull⟩ := nextSqrtPriceDown_ok hfull
    have hle : stop.val ≤ start.val := by simp only [reach, along] at hstop; omega
    rw [covers_aToB_iff hle] at h
    have hcost : liquidity.val * 2 ^ 64 * (start.val - stop.val) ≤
        amountIn.val * (start.val * stop.val) := by
      exact_mod_cast h
    have hden : 0 < liquidity.val * 2 ^ 64 + amountIn.val * start.val := by positivity
    have hreach : full.val ≤ stop.val := by
      rw [hfull, ceilDiv_le_iff_le_mul hden]
      obtain ⟨gap, hgap⟩ := Nat.exists_eq_add_of_le hle
      rw [hgap] at hcost ⊢
      rw [Nat.add_sub_cancel_left] at hcost
      linarith
    simp only [reach, along]
    omega

/-- A larger amount reaches at least as far. -/
theorem priceFromAmount_mono {amountIn amountIn' full full' : U128}
    (hfull : priceFromAmount d start liquidity amountIn = .ok full)
    (hfull' : priceFromAmount d start liquidity amountIn' = .ok full')
    (hle : amountIn ≤ amountIn') : reach d full ≤ reach d full' := by
  have hforward := priceFromAmount_forward hfull
  have hcovers := (reach_full_iff hfull hforward).mp le_rfl
  exact (reach_full_iff hfull' hforward).mpr
    (covers_mono hcovers (Int.ofNat_le.mpr (Fin.le_def.mp hle)))

/-- A step pays out the most that its movement covers. -/
theorem owedAndOut_greatest {c : Call} {owed out : U128}
    (hstop : reach c.direction start ≤ reach c.direction stop)
    (h : c.owedAndOut start stop liquidity = .ok (owed, out)) :
    IsGreatest {paid | CoveredBy c.direction liquidity start stop paid} out.val := by
  refine ⟨(owedAndOut_ok hstop h).2.2, ?_⟩
  simp only [Call.owedAndOut] at h
  generalize c.direction = d at h hstop ⊢
  cases d with
  | bToA =>
    have hle : start ≤ stop := Int.ofNat_le.mp hstop
    obtain ⟨owed', _, h⟩ := bind_eq_ok_iff.mp h
    obtain ⟨out', hout, h⟩ := bind_eq_ok_iff.mp h
    cases h
    obtain ⟨hpos, hout⟩ := deltaA_ok hle hout
    have hle' : start.val ≤ stop.val := hle
    have hprices : 0 < stop.val * start.val := Nat.mul_pos (by omega) hpos
    intro paid hpaid
    have hpaid : paid * (stop.val * start.val : ℕ) ≤
        (liquidity.val * 2 ^ 64 * (stop.val - start.val) : ℕ) := by
      have hpaid : paid * start.val * stop.val ≤
        (liquidity.val : ℤ) * 2 ^ 64 * (stop.val - start.val) := hpaid
      push_cast [hle']
      linarith
    simp only [Bool.false_eq_true, ↓reduceIte] at hout
    rw [hout, Int.natCast_div]
    exact (Int.le_ediv_iff_mul_le (by exact_mod_cast hprices)).mpr hpaid
  | aToB =>
    have hle : stop ≤ start := by
      simp only [reach, along] at hstop
      exact Int.ofNat_le.mp (by omega)
    obtain ⟨owed', _, h⟩ := bind_eq_ok_iff.mp h
    obtain ⟨out', hout, h⟩ := bind_eq_ok_iff.mp h
    cases h
    have hout := deltaB_ok hle hout
    have hle' : stop.val ≤ start.val := hle
    intro paid hpaid
    have hpaid : paid * (2 ^ 64 : ℕ) ≤ (liquidity.val * (start.val - stop.val) : ℕ) := by
      have hpaid : paid * 2 ^ 64 ≤ (liquidity.val : ℤ) * (start.val - stop.val) := hpaid
      push_cast [hle']
      exact hpaid
    simp only [Bool.false_eq_true, ↓reduceIte] at hout
    rw [hout, Int.natCast_div]
    exact (Int.le_ediv_iff_mul_le (by positivity)).mpr hpaid

/-- So does the step a walk took. -/
theorem advanced_greatest {c : Call} {w moved : Walk} {boundary : Option Boundary} {s : Step}
    {reached : Bool} (hadv : Advanced c w boundary moved s)
    (h : c.advance w boundary = .ok (moved, reached)) :
    IsGreatest {paid | CoveredBy c.direction w.liquidity w.sqrtPrice moved.sqrtPrice paid}
      s.amountOut.val := by
  have hforward : reach c.direction w.sqrtPrice ≤ reach c.direction moved.sqrtPrice := by
    rw [hadv.moved_eq]
    exact hadv.forward.le
  obtain ⟨⟨next, reachedLimit⟩, _, h⟩ := bind_eq_ok_iff.mp h
  dsimp only at h
  split at h
  · cases h
  · obtain ⟨⟨owed, out⟩, howed, h⟩ := bind_eq_ok_iff.mp h
    obtain ⟨amountOut, hout, h⟩ := bind_eq_ok_iff.mp h
    obtain ⟨remaining, _, h⟩ := bind_eq_ok_iff.mp h
    rw [okOr_eq_ok_iff, checkedAdd_eq_some_iff] at hout
    cases h
    have hsame : out.val = s.amountOut.val := by
      have htotal := hadv.output
      have hout : w.amountOut.val + out.val = amountOut.val := hout
      have htotal : amountOut.val = w.amountOut.val + s.amountOut.val := htotal
      omega
    rw [← hsame]
    exact owedAndOut_greatest hforward howed

end StepOrder
