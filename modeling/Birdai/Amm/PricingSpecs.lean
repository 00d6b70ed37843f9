import Birdai.Amm.SwapExactIn
import Mathlib.Tactic.Ring

/-!
# What the pricing functions compute

Closed forms over `Nat` for every successful pricing call, and the direction of
travel as a sign, so that one statement covers selling A and selling B.
-/

namespace PricingSpecs

open WideArith CheckedWords Outcomes BoundedLoop SwapExactIn

theorem takeFee_ok {amountIn : U128} {feeRate : U64} {net fee : U128}
    (h : takeFee amountIn feeRate = .ok (net, fee)) :
    feeRate.val < 1000000 ∧ amountIn.val * feeRate.val / 1000000 = fee.val ∧
      net.val + fee.val = amountIn.val := by
  unfold takeFee at h
  split at h
  · cases h
  · rename_i hrate
    obtain ⟨gross, hgross, h⟩ := bind_eq_ok_iff.mp h
    obtain ⟨quotient, hquotient, h⟩ := bind_eq_ok_iff.mp h
    obtain ⟨fee', hfee, h⟩ := bind_eq_ok_iff.mp h
    obtain ⟨net', hnet, h⟩ := bind_eq_ok_iff.mp h
    cases h
    rw [CheckedU256.checkedMul_eq_ok_iff] at hgross
    rw [CheckedU256.checkedDiv_eq_ok_iff] at hquotient
    rw [CheckedU256.toU128_eq_ok_iff] at hfee
    rw [okOr_eq_ok_iff, checkedSub_eq_some_iff] at hnet
    refine ⟨not_le.mp hrate, ?_, hnet⟩
    rw [← hfee, ← hquotient.2, ← hgross]
    rfl

theorem divRounding_ok {x y z : CheckedU256} {roundUp : Bool}
    (h : divRounding x y roundUp = .ok z) :
    y.val ≠ 0 ∧ z.val = if roundUp then x.val ⌈/⌉ y.val else x.val / y.val := by
  unfold divRounding at h
  cases roundUp with
  | false =>
    obtain ⟨hy, hz⟩ := CheckedU256.checkedDiv_eq_ok_iff.mp h
    exact ⟨hy, hz.symm⟩
  | true =>
    obtain ⟨hy, hz⟩ := CheckedU256.checkedDivCeil_eq_ok_iff.mp h
    exact ⟨hy, hz.symm⟩

theorem ordered_of_le {a b : U128} (h : a ≤ b) : ordered a b = (a, b) := if_pos h

theorem sub_val_of_le {a b : U128} (h : a ≤ b) : (b - a).val = b.val - a.val :=
  Fin.sub_val_of_le h

/-- Dividing by both prices in turn is dividing by their product, in both roundings. -/
theorem deltaA_ok {low high liquidity amount : U128} {roundUp : Bool} (hle : low ≤ high)
    (h : deltaA low high liquidity roundUp = .ok amount) :
    0 < low.val ∧ amount.val =
      if roundUp then (liquidity.val * 2 ^ 64 * (high.val - low.val)) ⌈/⌉ (high.val * low.val)
      else liquidity.val * 2 ^ 64 * (high.val - low.val) / (high.val * low.val) := by
  unfold deltaA at h
  rw [ordered_of_le hle] at h
  dsimp only at h
  split at h
  · cases h
  · rename_i hlow
    have hpos : 0 < low.val := Nat.pos_of_ne_zero fun hz => hlow (Fin.ext hz)
    refine ⟨hpos, ?_⟩
    split at h
    · rename_i hflat
      cases h
      rcases hflat with rfl | rfl
      · simp
      · simp
    · obtain ⟨shifted, hshift, h⟩ := bind_eq_ok_iff.mp h
      obtain ⟨numerator, hnum, h⟩ := bind_eq_ok_iff.mp h
      obtain ⟨step, hstep, h⟩ := bind_eq_ok_iff.mp h
      obtain ⟨result, hres, h⟩ := bind_eq_ok_iff.mp h
      rw [CheckedU256.checkedShl_fromU128_eq_ok_iff] at hshift
      rw [CheckedU256.checkedMul_eq_ok_iff, CheckedU256.val_fromU128, sub_val_of_le hle,
        ← hshift] at hnum
      obtain ⟨hhigh, hstep⟩ := divRounding_ok hstep
      obtain ⟨_, hres⟩ := divRounding_ok hres
      rw [CheckedU256.val_fromU128] at hhigh hstep hres
      rw [CheckedU256.toU128_eq_ok_iff] at h
      rw [← h, hres, hstep, ← hnum]
      cases roundUp with
      | false => exact floor_floor _ _ _
      | true => exact ceil_ceil _ (Nat.pos_of_ne_zero hhigh) hpos

theorem deltaB_ok {low high liquidity amount : U128} {roundUp : Bool} (hle : low ≤ high)
    (h : deltaB low high liquidity roundUp = .ok amount) :
    amount.val =
      if roundUp then (liquidity.val * (high.val - low.val)) ⌈/⌉ 2 ^ 64
      else liquidity.val * (high.val - low.val) / 2 ^ 64 := by
  unfold deltaB at h
  rw [ordered_of_le hle] at h
  dsimp only at h
  split at h
  · rename_i hflat
    cases h
    rcases hflat with rfl | rfl
    · simp
    · simp
  · obtain ⟨product, hprod, h⟩ := bind_eq_ok_iff.mp h
    obtain ⟨scale, hscale, h⟩ := bind_eq_ok_iff.mp h
    obtain ⟨result, hres, h⟩ := bind_eq_ok_iff.mp h
    rw [CheckedU256.checkedMul_eq_ok_iff, CheckedU256.val_fromU128, CheckedU256.val_fromU128,
      sub_val_of_le hle] at hprod
    rw [CheckedU256.checkedShl_eq_ok_iff (by decide), CheckedU256.val_one] at hscale
    obtain ⟨_, hres⟩ := divRounding_ok hres
    rw [CheckedU256.toU128_eq_ok_iff] at h
    have hscale : scale.val = 2 ^ 64 := hscale.symm
    rw [← h, hres, ← hprod, hscale]

theorem nextSqrtPriceUp_ok {sqrtPrice liquidity amountB next : U128}
    (h : nextSqrtPriceUp sqrtPrice liquidity amountB = .ok next) :
    0 < liquidity.val ∧
      next.val = sqrtPrice.val + amountB.val * 2 ^ 64 / liquidity.val := by
  unfold nextSqrtPriceUp at h
  split at h
  · cases h
  · rename_i hliq
    obtain ⟨shifted, hshift, h⟩ := bind_eq_ok_iff.mp h
    obtain ⟨quotient, hquot, h⟩ := bind_eq_ok_iff.mp h
    obtain ⟨increment, hinc, h⟩ := bind_eq_ok_iff.mp h
    rw [CheckedU256.checkedShl_fromU128_eq_ok_iff] at hshift
    rw [CheckedU256.checkedDiv_eq_ok_iff, CheckedU256.val_fromU128, ← hshift] at hquot
    rw [CheckedU256.toU128_eq_ok_iff] at hinc
    rw [okOr_eq_ok_iff, checkedAdd_eq_some_iff, ← hinc, ← hquot.2] at h
    exact ⟨Nat.pos_of_ne_zero hquot.1, h.symm⟩

/-- What a price that moved down is, and the intermediates that fit on the way to it. -/
theorem nextSqrtPriceDown_fits {sqrtPrice liquidity amountA next : U128}
    (h : nextSqrtPriceDown sqrtPrice liquidity amountA = .ok next) :
    0 < liquidity.val ∧
      liquidity.val * 2 ^ 64 + amountA.val * sqrtPrice.val < 2 ^ 256 ∧
      liquidity.val * 2 ^ 64 * sqrtPrice.val < 2 ^ 256 ∧
      next.val = (liquidity.val * 2 ^ 64 * sqrtPrice.val) ⌈/⌉
        (liquidity.val * 2 ^ 64 + amountA.val * sqrtPrice.val) := by
  unfold nextSqrtPriceDown at h
  split at h
  · cases h
  · rename_i hliq
    obtain ⟨numerator, hnum, h⟩ := bind_eq_ok_iff.mp h
    obtain ⟨spread, hspread, h⟩ := bind_eq_ok_iff.mp h
    obtain ⟨denominator, hden, h⟩ := bind_eq_ok_iff.mp h
    obtain ⟨product, hprod, h⟩ := bind_eq_ok_iff.mp h
    obtain ⟨quotient, hquot, h⟩ := bind_eq_ok_iff.mp h
    rw [CheckedU256.checkedShl_fromU128_eq_ok_iff] at hnum
    rw [CheckedU256.checkedMul_eq_ok_iff, CheckedU256.val_fromU128,
      CheckedU256.val_fromU128] at hspread
    rw [CheckedU256.checkedAdd_eq_ok_iff, ← hnum, ← hspread] at hden
    rw [CheckedU256.checkedMul_eq_ok_iff, CheckedU256.val_fromU128, ← hnum] at hprod
    rw [CheckedU256.checkedDivCeil_eq_ok_iff, ← hprod, ← hden] at hquot
    rw [CheckedU256.toU128_eq_ok_iff] at h
    exact ⟨Nat.pos_of_ne_zero fun hz => hliq (Fin.ext hz), hden ▸ denominator.val_lt,
      hprod ▸ product.val_lt, h ▸ hquot.2.symm⟩

theorem nextSqrtPriceDown_ok {sqrtPrice liquidity amountA next : U128}
    (h : nextSqrtPriceDown sqrtPrice liquidity amountA = .ok next) :
    0 < liquidity.val ∧
      next.val = (liquidity.val * 2 ^ 64 * sqrtPrice.val) ⌈/⌉
        (liquidity.val * 2 ^ 64 + amountA.val * sqrtPrice.val) := by
  obtain ⟨hliq, _, _, hnext⟩ := nextSqrtPriceDown_fits h
  exact ⟨hliq, hnext⟩

/-- The direction of travel as a sign: `d.along` grows as the swap moves on. -/
def along : Direction → ℤ → ℤ
  | .bToA, x => x
  | .aToB, x => -x

theorem along_inj {d : Direction} {x y : ℤ} : along d x = along d y ↔ x = y := by
  cases d <;> simp [along]

/-- How far along a price lies. -/
abbrev reach (d : Direction) (p : U128) : ℤ := along d p.val

theorem reach_inj {d : Direction} {p q : U128} : reach d p = reach d q ↔ p = q := by
  rw [reach, reach, along_inj, Nat.cast_inj, Fin.val_inj]

theorem isAhead_iff {d : Direction} {b p : U128} :
    isAhead d b p = true ↔ reach d p < reach d b := by
  cases d <;> simp [isAhead, reach, along]

theorem limitReachable_iff {d : Direction} {limit p : U128} :
    limitReachable d limit p = true ↔ reach d p ≤ reach d limit := by
  cases d <;> simp [limitReachable, reach, along]

/-- A partial step's price never moves back. -/
theorem priceFromAmount_forward {d : Direction} {sqrtPrice liquidity amountIn next : U128}
    (h : priceFromAmount d sqrtPrice liquidity amountIn = .ok next) :
    reach d sqrtPrice ≤ reach d next := by
  cases d with
  | bToA =>
    obtain ⟨_, hnext⟩ := nextSqrtPriceUp_ok h
    have hle : sqrtPrice.val ≤ next.val := hnext ▸ Nat.le_add_right _ _
    exact Int.ofNat_le.mpr hle
  | aToB =>
    obtain ⟨hliq, hnext⟩ := nextSqrtPriceDown_ok h
    have hden : 0 < liquidity.val * 2 ^ 64 + amountIn.val * sqrtPrice.val := by positivity
    have hle : next.val ≤ sqrtPrice.val := by
      rw [hnext, ceilDiv_le_iff_le_mul hden]
      exact Nat.mul_le_mul_right _ (Nat.le_add_right _ _)
    simp only [reach, along]
    omega

/-- No input moves the price nowhere. -/
theorem priceFromAmount_zero {d : Direction} {sqrtPrice liquidity next : U128}
    (h : priceFromAmount d sqrtPrice liquidity 0 = .ok next) : next = sqrtPrice := by
  cases d with
  | bToA =>
    obtain ⟨_, hnext⟩ := nextSqrtPriceUp_ok h
    rw [Fin.val_zero, Nat.zero_mul, Nat.zero_div, Nat.add_zero] at hnext
    exact Fin.ext hnext
  | aToB =>
    obtain ⟨hliq, hnext⟩ := nextSqrtPriceDown_ok h
    rw [Fin.val_zero, Nat.zero_mul, Nat.add_zero] at hnext
    have hpos : 0 < liquidity.val * 2 ^ 64 := by positivity
    refine Fin.ext (hnext.trans ?_)
    exact smul_ceilDiv hpos sqrtPrice.val

/-- A step goes as far as its input reaches, and no further than its target. -/
theorem nextPrice_of_full {d : Direction} {sqrtPrice liquidity amountIn full : U128}
    (hfull : priceFromAmount d sqrtPrice liquidity amountIn = .ok full) (limit : U128) :
    nextPrice d sqrtPrice liquidity amountIn limit =
      .ok (if reach d limit ≤ reach d full then (limit, true) else (full, false)) := by
  rw [nextPrice, hfull, ok_bind]
  cases d <;> simp [reach, along]

theorem nextPrice_ok {d : Direction} {sqrtPrice liquidity amountIn limit next : U128}
    {reached : Bool} (h : nextPrice d sqrtPrice liquidity amountIn limit = .ok (next, reached)) :
    ∃ full, priceFromAmount d sqrtPrice liquidity amountIn = .ok full ∧
      ((reached = true ∧ next = limit ∧ reach d limit ≤ reach d full) ∨
        (reached = false ∧ next = full ∧ reach d full < reach d limit)) := by
  obtain ⟨full, hfull, _⟩ := bind_eq_ok_iff.mp h
  rw [nextPrice_of_full hfull, Except.ok.injEq] at h
  refine ⟨full, hfull, ?_⟩
  split at h
  · rename_i hle
    cases h
    exact .inl ⟨rfl, rfl, hle⟩
  · rename_i hlt
    cases h
    exact .inr ⟨rfl, rfl, not_le.mp hlt⟩

end PricingSpecs
