import Birdai.Amm.StepOrder

/-!
# Where the pricing functions succeed

Each pricing function returns its closed form exactly when its intermediates fit
their words. What a step costs and what it pays are functions of its two prices.
-/

namespace PricingDomain

open WideArith CheckedWords Outcomes BoundedLoop SwapExactIn PricingSpecs StepRounding StepOrder

/-- An increment that fits its word leaves one addition that can still fail. -/
theorem nextSqrtPriceUp_of_increment {sqrtPrice liquidity amountB increment : U128}
    (hliq : 0 < liquidity.val) (hinc : increment.val = amountB.val * 2 ^ 64 / liquidity.val) :
    nextSqrtPriceUp sqrtPrice liquidity amountB =
      okOr (checkedAdd sqrtPrice increment) (.overflow "next_sqrt_price_up") := by
  have hne : liquidity ≠ 0 := fun hz => by rw [hz] at hliq; exact lt_irrefl _ hliq
  have hshift : amountB.val * 2 ^ 64 < 2 ^ 256 := by
    have := amountB.isLt
    omega
  have hquot : amountB.val * 2 ^ 64 / liquidity.val < 2 ^ 256 :=
    (Nat.div_le_self _ _).trans_lt hshift
  have hshifted : (CheckedU256.fromU128 amountB).checkedShl 64 = .ok (.ofNat _ hshift) :=
    CheckedU256.checkedShl_fromU128_eq_ok_iff.mpr rfl
  have hdivided : (CheckedU256.ofNat _ hshift).checkedDiv (.fromU128 liquidity) =
      .ok (.ofNat _ hquot) := CheckedU256.checkedDiv_eq_ok_iff.mpr ⟨hliq.ne', rfl⟩
  have hnarrowed : (CheckedU256.ofNat _ hquot).toU128 = .ok increment :=
    CheckedU256.toU128_eq_ok_iff.mpr hinc.symm
  rw [nextSqrtPriceUp, if_neg hne, hshifted, ok_bind, hdivided, ok_bind, hnarrowed, ok_bind]

theorem nextSqrtPriceUp_eq_ok_iff {sqrtPrice liquidity amountB next : U128} :
    nextSqrtPriceUp sqrtPrice liquidity amountB = .ok next ↔
      0 < liquidity.val ∧ next.val = sqrtPrice.val + amountB.val * 2 ^ 64 / liquidity.val := by
  refine ⟨nextSqrtPriceUp_ok, fun ⟨hliq, hnext⟩ => ?_⟩
  have hinc : amountB.val * 2 ^ 64 / liquidity.val < 2 ^ 128 := by
    have := next.isLt
    omega
  have hincrement : (⟨_, hinc⟩ : U128).val = amountB.val * 2 ^ 64 / liquidity.val := rfl
  rw [nextSqrtPriceUp_of_increment hliq hincrement, okOr_eq_ok_iff, checkedAdd_eq_some_iff]
  exact hnext.symm

/-- An increment that fits its word can still carry the price out of it. -/
theorem nextSqrtPriceUp_overflow {sqrtPrice liquidity amountB : U128} (hliq : 0 < liquidity.val)
    (hinc : amountB.val * 2 ^ 64 / liquidity.val < 2 ^ 128)
    (hsum : 2 ^ 128 ≤ sqrtPrice.val + amountB.val * 2 ^ 64 / liquidity.val) :
    nextSqrtPriceUp sqrtPrice liquidity amountB = .error (.overflow "next_sqrt_price_up") := by
  have hincrement : (⟨_, hinc⟩ : U128).val = amountB.val * 2 ^ 64 / liquidity.val := rfl
  rw [nextSqrtPriceUp_of_increment hliq hincrement, okOr_eq_error_iff]
  exact ⟨checkedAdd_eq_none_iff.mpr hsum, rfl⟩

theorem nextSqrtPriceDown_eq_ok_iff {sqrtPrice liquidity amountA next : U128} :
    nextSqrtPriceDown sqrtPrice liquidity amountA = .ok next ↔
      0 < liquidity.val ∧
      liquidity.val * 2 ^ 64 + amountA.val * sqrtPrice.val < 2 ^ 256 ∧
      liquidity.val * 2 ^ 64 * sqrtPrice.val < 2 ^ 256 ∧
      next.val = (liquidity.val * 2 ^ 64 * sqrtPrice.val) ⌈/⌉
        (liquidity.val * 2 ^ 64 + amountA.val * sqrtPrice.val) := by
  have hshift : liquidity.val * 2 ^ 64 < 2 ^ 256 := by
    have := liquidity.isLt
    omega
  refine ⟨nextSqrtPriceDown_fits, fun ⟨hliq, hden, hprod, hnext⟩ => ?_⟩
  have hne : liquidity ≠ 0 := fun hz => by rw [hz] at hliq; exact lt_irrefl _ hliq
  have hspread : amountA.val * sqrtPrice.val < 2 ^ 256 := by omega
  have hpos : 0 < liquidity.val * 2 ^ 64 + amountA.val * sqrtPrice.val := by omega
  have hquot : next.val < 2 ^ 256 := next.isLt.trans (by norm_num)
  rw [nextSqrtPriceDown, if_neg hne]
  refine bind_eq_ok_iff.mpr ⟨.ofNat _ hshift, ?_, bind_eq_ok_iff.mpr ⟨.ofNat _ hspread, ?_,
    bind_eq_ok_iff.mpr ⟨.ofNat _ hden, ?_, bind_eq_ok_iff.mpr ⟨.ofNat _ hprod, ?_,
      bind_eq_ok_iff.mpr ⟨.ofNat _ hquot, ?_, ?_⟩⟩⟩⟩⟩
  · exact CheckedU256.checkedShl_fromU128_eq_ok_iff.mpr rfl
  · exact CheckedU256.checkedMul_eq_ok_iff.mpr rfl
  · exact CheckedU256.checkedAdd_eq_ok_iff.mpr rfl
  · exact CheckedU256.checkedMul_eq_ok_iff.mpr rfl
  · exact CheckedU256.checkedDivCeil_eq_ok_iff.mpr ⟨hpos.ne', hnext.symm⟩
  · exact CheckedU256.toU128_eq_ok_iff.mpr rfl

/-- The intermediates of a price move fit their words. -/
def Fits (d : Direction) (liquidity sqrtPrice amountIn : ℕ) : Prop :=
  match d with
  | .bToA => sqrtPrice + amountIn * 2 ^ 64 / liquidity < 2 ^ 128
  | .aToB => liquidity * 2 ^ 64 + amountIn * sqrtPrice < 2 ^ 256 ∧
      liquidity * 2 ^ 64 * sqrtPrice < 2 ^ 256

theorem fits_mono {d : Direction} {liquidity sqrtPrice amountIn amountIn' : ℕ}
    (h : Fits d liquidity sqrtPrice amountIn') (hle : amountIn ≤ amountIn') :
    Fits d liquidity sqrtPrice amountIn := by
  cases d with
  | bToA =>
    have hless : amountIn * 2 ^ 64 / liquidity ≤ amountIn' * 2 ^ 64 / liquidity :=
      Nat.div_le_div_right (Nat.mul_le_mul_right _ hle)
    exact (Nat.add_le_add_left hless _).trans_lt h
  | aToB =>
    have hless : amountIn * sqrtPrice ≤ amountIn' * sqrtPrice := Nat.mul_le_mul_right _ hle
    exact ⟨(Nat.add_le_add_left hless _).trans_lt h.1, h.2⟩

/-- The price an amount reaches exists exactly when there is liquidity and it fits. -/
theorem exists_price_iff {d : Direction} {sqrtPrice liquidity amountIn : U128} :
    (∃ full, priceFromAmount d sqrtPrice liquidity amountIn = .ok full) ↔
      0 < liquidity.val ∧ Fits d liquidity.val sqrtPrice.val amountIn.val := by
  cases d with
  | bToA =>
    simp only [priceFromAmount, nextSqrtPriceUp_eq_ok_iff, Fits]
    constructor
    · rintro ⟨full, hliq, hfull⟩
      exact ⟨hliq, hfull ▸ full.isLt⟩
    · rintro ⟨hliq, hfits⟩
      exact ⟨⟨_, hfits⟩, hliq, rfl⟩
  | aToB =>
    simp only [priceFromAmount, nextSqrtPriceDown_eq_ok_iff, Fits]
    constructor
    · rintro ⟨full, hliq, hden, hprod, _⟩
      exact ⟨hliq, hden, hprod⟩
    · rintro ⟨hliq, hden, hprod⟩
      have hpos : 0 < liquidity.val * 2 ^ 64 + amountIn.val * sqrtPrice.val := by omega
      have hle : (liquidity.val * 2 ^ 64 * sqrtPrice.val) ⌈/⌉
          (liquidity.val * 2 ^ 64 + amountIn.val * sqrtPrice.val) ≤ sqrtPrice.val := by
        rw [ceilDiv_le_iff_le_mul hpos]
        exact Nat.mul_le_mul_right _ (Nat.le_add_right _ _)
      exact ⟨⟨_, hle.trans_lt sqrtPrice.isLt⟩, hliq, hden, hprod, rfl⟩

/-! ### What a step costs and pays -/

theorem divRounding_eq_ok_iff {x y z : CheckedU256} {roundUp : Bool} :
    divRounding x y roundUp = .ok z ↔
      y.val ≠ 0 ∧ z.val = if roundUp then x.val ⌈/⌉ y.val else x.val / y.val := by
  refine ⟨divRounding_ok, fun ⟨hy, hz⟩ => ?_⟩
  cases roundUp with
  | false => exact CheckedU256.checkedDiv_eq_ok_iff.mpr ⟨hy, hz.symm⟩
  | true => exact CheckedU256.checkedDivCeil_eq_ok_iff.mpr ⟨hy, hz.symm⟩

/-- Neither rounding of a quotient exceeds the dividend. -/
theorem rounded_le (x : ℕ) {y : ℕ} (hy : 0 < y) (roundUp : Bool) :
    (if roundUp then x ⌈/⌉ y else x / y) ≤ x := by
  cases roundUp with
  | false => exact Nat.div_le_self _ _
  | true => exact (ceilDiv_le_iff_le_mul hy).mpr (Nat.le_mul_of_pos_left _ hy)

theorem exists_rounded (x : CheckedU256) {y : CheckedU256} (hy : 0 < y.val) (roundUp : Bool) :
    ∃ z, divRounding x y roundUp = .ok z ∧
      z.val = if roundUp then x.val ⌈/⌉ y.val else x.val / y.val :=
  ⟨.ofNat _ ((rounded_le x.val hy roundUp).trans_lt x.val_lt),
    divRounding_eq_ok_iff.mpr ⟨hy.ne', rfl⟩, rfl⟩

theorem deltaA_eq_ok_iff {low high liquidity amount : U128} {roundUp : Bool} (hle : low ≤ high) :
    deltaA low high liquidity roundUp = .ok amount ↔
      0 < low.val ∧ liquidity.val * 2 ^ 64 * (high.val - low.val) < 2 ^ 256 ∧ amount.val =
        if roundUp then (liquidity.val * 2 ^ 64 * (high.val - low.val)) ⌈/⌉ (high.val * low.val)
        else liquidity.val * 2 ^ 64 * (high.val - low.val) / (high.val * low.val) := by
  have hshift : liquidity.val * 2 ^ 64 < 2 ^ 256 := by
    have := liquidity.isLt
    omega
  constructor
  · intro h
    obtain ⟨hlow, hamount⟩ := deltaA_ok hle h
    refine ⟨hlow, ?_, hamount⟩
    have hne : low ≠ 0 := fun hz => by rw [hz] at hlow; exact lt_irrefl _ hlow
    simp only [deltaA, ordered_of_le hle, if_neg hne] at h
    split at h
    · rename_i hflat
      rcases hflat with rfl | rfl
      · simp
      · simp
    · obtain ⟨shifted, hshifted, h⟩ := bind_eq_ok_iff.mp h
      obtain ⟨numerator, hnum, h⟩ := bind_eq_ok_iff.mp h
      rw [CheckedU256.checkedShl_fromU128_eq_ok_iff] at hshifted
      rw [CheckedU256.checkedMul_eq_ok_iff, CheckedU256.val_fromU128, sub_val_of_le hle,
        ← hshifted] at hnum
      exact hnum ▸ numerator.val_lt
  · rintro ⟨hlow, hroom, hamount⟩
    have hne : low ≠ 0 := fun hz => by rw [hz] at hlow; exact lt_irrefl _ hlow
    have hhigh : 0 < high.val := hlow.trans_le hle
    simp only [deltaA, ordered_of_le hle, if_neg hne]
    split
    · rename_i hflat
      have hzero : amount.val = 0 := by
        rw [hamount]
        rcases hflat with rfl | rfl
        · simp
        · simp
      exact congrArg _ (Fin.ext hzero).symm
    · obtain ⟨step, hstep, hstepVal⟩ := exists_rounded
        (.ofNat _ hroom) (y := .fromU128 high) hhigh roundUp
      obtain ⟨result, hres, hresVal⟩ := exists_rounded step (y := .fromU128 low) hlow roundUp
      rw [CheckedU256.val_fromU128, CheckedU256.val_ofNat] at hstepVal
      rw [CheckedU256.val_fromU128, hstepVal] at hresVal
      refine bind_eq_ok_iff.mpr ⟨.ofNat _ hshift, ?_, bind_eq_ok_iff.mpr ⟨.ofNat _ hroom, ?_,
        bind_eq_ok_iff.mpr ⟨step, hstep, bind_eq_ok_iff.mpr ⟨result, hres, ?_⟩⟩⟩⟩
      · exact CheckedU256.checkedShl_fromU128_eq_ok_iff.mpr rfl
      · rw [CheckedU256.checkedMul_eq_ok_iff, CheckedU256.val_fromU128, sub_val_of_le hle]
        rfl
      · rw [CheckedU256.toU128_eq_ok_iff, hresVal, hamount]
        cases roundUp with
        | false => exact floor_floor _ _ _
        | true => exact ceil_ceil _ hhigh hlow

theorem deltaB_eq_ok_iff {low high liquidity amount : U128} {roundUp : Bool} (hle : low ≤ high) :
    deltaB low high liquidity roundUp = .ok amount ↔ amount.val =
      if roundUp then (liquidity.val * (high.val - low.val)) ⌈/⌉ 2 ^ 64
      else liquidity.val * (high.val - low.val) / 2 ^ 64 := by
  refine ⟨deltaB_ok hle, fun hamount => ?_⟩
  have hroom : liquidity.val * (high.val - low.val) < 2 ^ 256 := by
    have hgap : high.val - low.val < 2 ^ 128 := (Nat.sub_le _ _).trans_lt high.isLt
    calc liquidity.val * (high.val - low.val)
        < 2 ^ 128 * 2 ^ 128 := Nat.mul_lt_mul'' liquidity.isLt hgap
      _ = 2 ^ 256 := by norm_num
  simp only [deltaB, ordered_of_le hle]
  split
  · rename_i hflat
    have hzero : amount.val = 0 := by
      rw [hamount]
      rcases hflat with rfl | rfl
      · simp
      · simp
    exact congrArg _ (Fin.ext hzero).symm
  · obtain ⟨scale, hscale⟩ : ∃ scale, CheckedU256.one.checkedShl 64 = .ok scale := ⟨_, rfl⟩
    have hscaleVal : scale.val = 2 ^ 64 := by
      rw [CheckedU256.checkedShl_eq_ok_iff (by decide), CheckedU256.val_one] at hscale
      exact hscale.symm
    obtain ⟨result, hres, hresVal⟩ := exists_rounded (.ofNat _ hroom) (y := scale)
      (hscaleVal ▸ by positivity) roundUp
    refine bind_eq_ok_iff.mpr ⟨.ofNat _ hroom, ?_, bind_eq_ok_iff.mpr ⟨scale, hscale,
      bind_eq_ok_iff.mpr ⟨result, hres, ?_⟩⟩⟩
    · rw [CheckedU256.checkedMul_eq_ok_iff, CheckedU256.val_fromU128, CheckedU256.val_fromU128,
        sub_val_of_le hle]
      rfl
    · rw [CheckedU256.toU128_eq_ok_iff, hresVal, hamount, hscaleVal]
      rfl

/-- How far apart two prices lie, in the direction of travel. -/
def gap (d : Direction) (start stop : ℕ) : ℕ :=
  match d with
  | .bToA => stop - start
  | .aToB => start - stop

/-- The input it takes to move `liquidity` from `start` to `stop`, rounded up. -/
def cost (d : Direction) (liquidity start stop : ℕ) : ℕ :=
  match d with
  | .bToA => (liquidity * gap d start stop) ⌈/⌉ 2 ^ 64
  | .aToB => (liquidity * 2 ^ 64 * gap d start stop) ⌈/⌉ (start * stop)

/-- The output of moving `liquidity` from `start` to `stop`, rounded down. -/
def payout (d : Direction) (liquidity start stop : ℕ) : ℕ :=
  match d with
  | .bToA => liquidity * 2 ^ 64 * gap d start stop / (stop * start)
  | .aToB => liquidity * gap d start stop / 2 ^ 64

/-- The scaled movement fits its word. -/
def Room (d : Direction) (liquidity start stop : ℕ) : Prop :=
  liquidity * 2 ^ 64 * gap d start stop < 2 ^ 256

variable {d : Direction} {liquidity start stop : U128}

theorem le_of_reach_up (h : reach .bToA start ≤ reach .bToA stop) : start ≤ stop :=
  Int.ofNat_le.mp h

theorem le_of_reach_down (h : reach .aToB start ≤ reach .aToB stop) : stop ≤ start := by
  simp only [reach, along] at h
  exact Int.ofNat_le.mp (by omega)

theorem owedAndOut_eq_ok_iff {c : Call} {owed out : U128}
    (hstop : reach c.direction start ≤ reach c.direction stop) :
    c.owedAndOut start stop liquidity = .ok (owed, out) ↔
      (0 < start.val ∧ 0 < stop.val) ∧
      Room c.direction liquidity.val start.val stop.val ∧
      owed.val = cost c.direction liquidity.val start.val stop.val ∧
      out.val = payout c.direction liquidity.val start.val stop.val := by
  simp only [Call.owedAndOut]
  generalize c.direction = d at hstop ⊢
  cases d with
  | bToA =>
    have hle := le_of_reach_up hstop
    simp only [bind_eq_ok_iff, deltaB_eq_ok_iff hle, deltaA_eq_ok_iff hle, cost, payout, Room, gap,
      Except.ok.injEq, Prod.mk.injEq, ↓reduceIte, Bool.false_eq_true]
    constructor
    · rintro ⟨_, howed, _, ⟨hpos, hroom, hout⟩, rfl, rfl⟩
      exact ⟨⟨hpos, hpos.trans_le hle⟩, hroom, howed, hout⟩
    · rintro ⟨⟨hpos, _⟩, hroom, howed, hout⟩
      exact ⟨owed, howed, out, ⟨hpos, hroom, hout⟩, rfl, rfl⟩
  | aToB =>
    have hle := le_of_reach_down hstop
    simp only [bind_eq_ok_iff, deltaB_eq_ok_iff hle, deltaA_eq_ok_iff hle, cost, payout, Room, gap,
      Except.ok.injEq, Prod.mk.injEq, ↓reduceIte, Bool.false_eq_true]
    constructor
    · rintro ⟨_, ⟨hpos, hroom, howed⟩, _, hout, rfl, rfl⟩
      exact ⟨⟨hpos.trans_le hle, hpos⟩, hroom, howed, hout⟩
    · rintro ⟨⟨_, hpos⟩, hroom, howed, hout⟩
      exact ⟨owed, ⟨hpos, hroom, howed⟩, out, hout, rfl, rfl⟩

/-- An input covers a movement exactly when it is worth its cost. -/
theorem cost_le_iff (hpos : 0 < start.val ∧ 0 < stop.val)
    (hstop : reach d start ≤ reach d stop) {paid : ℕ} :
    cost d liquidity.val start.val stop.val ≤ paid ↔ Covers d liquidity start stop paid := by
  cases d with
  | bToA =>
    rw [covers_bToA_iff (le_of_reach_up hstop)]
    simp only [cost, gap, ceilDiv_le_iff_le_mul (by positivity : 0 < 2 ^ 64)]
    rw [Nat.mul_comm (2 ^ 64) paid]
    exact_mod_cast Iff.rfl
  | aToB =>
    rw [covers_aToB_iff (le_of_reach_down hstop)]
    simp only [cost, gap, ceilDiv_le_iff_le_mul (Nat.mul_pos hpos.1 hpos.2)]
    rw [Nat.mul_comm (start.val * stop.val) paid]
    exact_mod_cast Iff.rfl

/-- A movement is not for nothing. -/
theorem not_covers_zero (hliq : 0 < liquidity.val) (hahead : reach d start < reach d stop) :
    ¬ Covers d liquidity start stop 0 := by
  have hliq : (0 : ℤ) < liquidity.val := Int.ofNat_lt.mpr hliq
  cases d with
  | bToA =>
    have hgap : (0 : ℤ) < stop.val - start.val := sub_pos.mpr hahead
    rw [Covers, zero_mul, not_le]
    exact mul_pos hliq hgap
  | aToB =>
    have hgap : (0 : ℤ) < start.val - stop.val := sub_pos.mpr (neg_lt_neg_iff.mp hahead)
    rw [Covers, zero_mul, zero_mul, not_le]
    exact mul_pos (mul_pos hliq (by positivity)) hgap

/-- The output of a movement is the most it covers. -/
theorem le_payout_iff (hpos : 0 < start.val ∧ 0 < stop.val)
    (hstop : reach d start ≤ reach d stop) {out : ℕ} :
    out ≤ payout d liquidity.val start.val stop.val ↔ CoveredBy d liquidity start stop out := by
  cases d with
  | bToA =>
    have hle : start.val ≤ stop.val := le_of_reach_up hstop
    simp only [payout, gap, CoveredBy, Nat.le_div_iff_mul_le (Nat.mul_pos hpos.2 hpos.1)]
    zify [hle]
    rw [mul_comm (stop.val : ℤ), ← mul_assoc]
  | aToB =>
    have hle : stop.val ≤ start.val := le_of_reach_down hstop
    simp only [payout, gap, CoveredBy, Nat.le_div_iff_mul_le (by positivity : 0 < 2 ^ 64)]
    zify [hle]

section farther
variable {mid : U128} (hmid : reach d start ≤ reach d mid) (hstop : reach d mid ≤ reach d stop)
include hmid hstop

theorem gap_mono : gap d start.val mid.val ≤ gap d start.val stop.val := by
  cases d with
  | bToA =>
    have hle : mid.val ≤ stop.val := le_of_reach_up hstop
    simp only [gap]
    omega
  | aToB =>
    have hle : stop.val ≤ mid.val := le_of_reach_down hstop
    simp only [gap]
    omega

theorem room_mono (h : Room d liquidity.val start.val stop.val) :
    Room d liquidity.val start.val mid.val :=
  (Nat.mul_le_mul_left _ (gap_mono hmid hstop)).trans_lt h

theorem payout_mono (hpos : 0 < start.val ∧ 0 < mid.val ∧ 0 < stop.val) :
    payout d liquidity.val start.val mid.val ≤ payout d liquidity.val start.val stop.val := by
  have hmost : CoveredBy d liquidity start mid (payout d liquidity.val start.val mid.val : ℕ) :=
    (le_payout_iff ⟨hpos.1, hpos.2.1⟩ hmid).mp le_rfl
  exact (le_payout_iff ⟨hpos.1, hpos.2.2⟩ (hmid.trans hstop)).mpr
    (coveredBy_farther hpos.2.1 hmost hstop)

end farther

end PricingDomain
