import Birdai.Amm.TickMath
import Birdai.Base.PowerFloors
import Mathlib.Tactic.IntervalCases

/-!
# How far the conversion is from the exact price

The exact root of the price at a tick is a power of one irrational base. The
factor table holds floors of its powers, so a ratio is at most forty units of
`2 ^ -128` below the exact one. Where the tolerance is a single unit that is not
enough by itself: there a walk over all the ticks concerned shows that no exact
root comes as close to an integer as that.
-/

namespace TickAccuracy

open TickMath BinaryProducts PowerFloors

/-- What one tick down multiplies the root of the price by. -/
noncomputable def halfStep : ℝ := Real.sqrt (10000 / 10001)

theorem halfStep_sq : halfStep ^ 2 = 10000 / 10001 := Real.sq_sqrt (by norm_num)

theorem halfStep_pos : 0 < halfStep := Real.sqrt_pos.mpr (by norm_num)

theorem halfStep_le_one : halfStep ≤ 1 := Real.sqrt_le_one.mpr (by norm_num)

/-- The exact root of the price at a tick, in the units the pool stores. -/
noncomputable def rootAt (tick : ℤ) : ℝ := 2 ^ 64 * halfStep ^ (-tick)

theorem rootAt_pos (tick : ℤ) : 0 < rootAt tick :=
  mul_pos (by positivity) (zpow_pos halfStep_pos _)

theorem rootAt_sq (tick : ℤ) : rootAt tick ^ 2 = (10001 / 10000 : ℝ) ^ tick * 2 ^ 128 := by
  have hpower : (halfStep ^ (-tick)) ^ 2 = (10001 / 10000 : ℝ) ^ tick := by
    rw [← zpow_natCast, ← zpow_mul, mul_comm, zpow_mul, zpow_natCast, halfStep_sq, zpow_neg,
      ← inv_zpow, inv_div]
  rw [rootAt, mul_pow, hpower]
  ring

/-! ### The ratio -/

def halfStepFactor : ℕ := 0xfffcb933bd6fad37aa2d162d1a594001

theorem factors_squareFloors : SquareFloors (2 ^ 128) 10000 10001 factors := by decide +kernel

theorem factors_floors : Floors (2 ^ 128) halfStep factors :=
  .of_squareFloors (by decide) halfStep_pos.le (by rw [halfStep_sq]; norm_num)
    factors_squareFloors

/-- The exact ratio at a magnitude, in the units of the table. -/
noncomputable def exactRatio (magnitude : ℕ) : ℝ := 2 ^ 128 * halfStep ^ magnitude

theorem exactRatio_le (magnitude : ℕ) : exactRatio magnitude ≤ 2 ^ 128 :=
  mul_le_of_le_one_right (by positivity) (pow_le_one₀ halfStep_pos.le halfStep_le_one)

theorem ratioAt_near {magnitude : ℕ} (h : magnitude < 2 ^ 20) :
    (ratioAt magnitude : ℝ) ≤ exactRatio magnitude ∧
      exactRatio magnitude ≤ ratioAt magnitude + 40 := by
  have hlen : factors.length = 20 := by decide
  obtain ⟨hbelow, habove⟩ := exact_bounds (by decide) halfStep_pos.le halfStep_le_one
    factors_floors (hlen ▸ h)
  obtain ⟨hlow, hhigh⟩ := ratioAt_bounds magnitude
  have hlow : (powerAt magnitude : ℝ) * 2 ^ 128 - 20 ≤ ratioAt magnitude := by exact_mod_cast hlow
  have hhigh : (ratioAt magnitude : ℝ) ≤ powerAt magnitude * 2 ^ 128 := by exact_mod_cast hhigh
  have hunits : ((factors.length : ℕ) : ℝ) / ((2 ^ 128 : ℕ) : ℝ) = 20 / 2 ^ 128 := by
    rw [hlen]
    norm_num
  rw [hunits] at habove
  have hscale : (2 : ℝ) ^ 128 * (20 / 2 ^ 128) = 20 := by norm_num
  have hlifted := mul_le_mul_of_nonneg_left habove (show (0 : ℝ) ≤ 2 ^ 128 by positivity)
  rw [mul_add, hscale] at hlifted
  rw [exactRatio]
  constructor
  · linarith
  · linarith

/-- From the first tick with a tolerance of one unit down past the last tick, in eight stretches
that each start afresh. -/
theorem walk_clear {stretch : ℕ} (h : stretch < 8) :
    clearOf (2 ^ 128) halfStepFactor (2 ^ 64) (2 ^ 20) 29461
      (ratioAt (207955 + 29461 * stretch)) = true := by
  interval_cases stretch
  -- one computation for each stretch: over all the ticks at once it takes gigabytes
  all_goals decide +kernel

/-- Where a stretch of the walk passes, the exact ratio rounds down the way the computed one
does. -/
theorem exactRatio_le_of_clear {start steps i : ℕ}
    (hclear : clearOf (2 ^ 128) halfStepFactor (2 ^ 64) (2 ^ 20) steps (ratioAt start) = true)
    (hstart : start < 2 ^ 19) (hsteps : steps < 2 ^ 18) (hi : i < steps) :
    exactRatio (start + i) ≤ (ratioAt (start + i) / 2 ^ 64 + 1 : ℕ) * 2 ^ 64 := by
  obtain ⟨hfloor, hceil, _⟩ := factors_floors
  have hclear := clearOf_spec hclear hi
  obtain ⟨hbelow, habove⟩ := ratioAt_near (show start < 2 ^ 20 by omega)
  obtain ⟨hdown, hup⟩ := descend_bounds (f := halfStepFactor) (by decide) halfStep_le_one hfloor
    hceil (by exact_mod_cast exactRatio_le start) (by norm_num) hbelow habove i
  obtain ⟨_, hnear⟩ := ratioAt_near (show start + i < 2 ^ 20 by omega)
  have hsplit : exactRatio start * halfStep ^ i = exactRatio (start + i) := by
    rw [exactRatio, exactRatio, pow_add]
    ring
  rw [hsplit] at hdown hup
  generalize (descend (2 ^ 128) halfStepFactor)^[i] (ratioAt start) = y at hclear hdown hup
  have hclose : y ≤ ratioAt (start + i) + 40 := by exact_mod_cast hdown.trans hnear
  have hroom : y + 2 ^ 20 ≤ (ratioAt (start + i) / 2 ^ 64 + 1) * 2 ^ 64 := by omega
  have hi : (i : ℝ) ≤ 2 ^ 18 := by exact_mod_cast hi.le.trans hsteps.le
  calc exactRatio (start + i) ≤ y + (40 + 2 * i) := hup
    _ ≤ y + 2 ^ 20 := by linarith
    _ ≤ (ratioAt (start + i) / 2 ^ 64 + 1 : ℕ) * 2 ^ 64 := by exact_mod_cast hroom

theorem exactRatio_le_next {magnitude : ℕ} (hlow : 207955 ≤ magnitude)
    (hhigh : magnitude ≤ 443636) :
    exactRatio magnitude ≤ (ratioAt magnitude / 2 ^ 64 + 1 : ℕ) * 2 ^ 64 := by
  have hstretch : (magnitude - 207955) / 29461 < 8 := by omega
  have hi : (magnitude - 207955) % 29461 < 29461 := Nat.mod_lt _ (by decide)
  have hle := exactRatio_le_of_clear (walk_clear hstretch) (by omega) (by decide) hi
  have hsame : 207955 + 29461 * ((magnitude - 207955) / 29461) + (magnitude - 207955) % 29461 =
      magnitude := by omega
  rwa [hsame] at hle

/-! ### The band -/

theorem one_le_toleranceAt (price : ℕ) : 1 ≤ toleranceAt price := by
  simp only [toleranceAt]
  split
  · exact le_rfl
  · omega

theorem div_le_toleranceAt (price : ℕ) : price / 2 ^ 48 ≤ toleranceAt price := by
  simp only [toleranceAt]
  split <;> omega

theorem ratioAt_207954 : ratioAt 207954 / 2 ^ 64 = 562965467828053 := by decide +kernel

/-- Above the range of the walk the tolerance is at least two units. -/
theorem two_le_toleranceAt {magnitude : ℕ} (h : magnitude ≤ 207954) :
    2 ≤ toleranceAt (ratioAt magnitude / 2 ^ 64) := by
  have hmono := powerAt_antitone h (by decide)
  have hlow := (ratioAt_bounds magnitude).1
  have hhigh := (ratioAt_bounds 207954).2
  have hq : (ratioAt 207954 : ℚ) ≤ ratioAt magnitude + 20 := by linarith
  have hq : ratioAt 207954 ≤ ratioAt magnitude + 20 := by exact_mod_cast hq
  have hlast := ratioAt_207954
  have htol := div_le_toleranceAt (ratioAt magnitude / 2 ^ 64)
  omega

/-- Down from one the computed price is at most the tolerance below the exact root. -/
theorem priceAt_neg_band {magnitude : ℕ} (h : magnitude ≤ 443636) :
    (priceAt (-magnitude) : ℝ) ≤ rootAt (-magnitude) ∧
      rootAt (-magnitude) ≤ priceAt (-magnitude) + toleranceAt (priceAt (-magnitude)) := by
  have hroot : rootAt (-magnitude) * 2 ^ 64 = exactRatio magnitude := by
    rw [rootAt, exactRatio, neg_neg, zpow_natCast]
    ring
  obtain ⟨hbelow, habove⟩ := ratioAt_near (show magnitude < 2 ^ 20 by omega)
  rw [priceAt_neg]
  constructor
  · apply le_of_mul_le_mul_right _ (show (0 : ℝ) < 2 ^ 64 by positivity)
    rw [hroot]
    have hdown : (ratioAt magnitude / 2 ^ 64) * 2 ^ 64 ≤ ratioAt magnitude :=
      Nat.div_mul_le_self _ _
    have hdown : ((ratioAt magnitude / 2 ^ 64 : ℕ) : ℝ) * 2 ^ 64 ≤ ratioAt magnitude := by
      exact_mod_cast hdown
    exact hdown.trans hbelow
  · apply le_of_mul_le_mul_right _ (show (0 : ℝ) < 2 ^ 64 by positivity)
    rw [hroot]
    rcases Nat.lt_or_ge magnitude 207955 with hbig | hsmall
    · have htwo := two_le_toleranceAt (show magnitude ≤ 207954 by omega)
      have hroom : ratioAt magnitude + 40 ≤ (ratioAt magnitude / 2 ^ 64 +
          toleranceAt (ratioAt magnitude / 2 ^ 64)) * 2 ^ 64 := by omega
      exact habove.trans (by exact_mod_cast hroom)
    · have hone := one_le_toleranceAt (ratioAt magnitude / 2 ^ 64)
      have hroom : (ratioAt magnitude / 2 ^ 64 + 1) * 2 ^ 64 ≤ (ratioAt magnitude / 2 ^ 64 +
          toleranceAt (ratioAt magnitude / 2 ^ 64)) * 2 ^ 64 :=
        Nat.mul_le_mul_right _ (by omega)
      exact (exactRatio_le_next hsmall h).trans (by exact_mod_cast hroom)

/-- Above one the price is a quotient, and its tolerance covers both roundings. -/
theorem priceAt_pos_band {magnitude : ℕ} (hpos : 0 < magnitude) (h : magnitude ≤ 443636) :
    (priceAt magnitude : ℝ) - toleranceAt (priceAt magnitude) ≤ rootAt magnitude ∧
      rootAt magnitude ≤ priceAt magnitude + toleranceAt (priceAt magnitude) := by
  have hratio := le_ratioAt h
  have hunit := ratioAt_le magnitude
  obtain ⟨hbelow, habove⟩ := ratioAt_near (show magnitude < 2 ^ 20 by omega)
  have hroot : rootAt magnitude * exactRatio magnitude = 2 ^ 192 := by
    have hne : halfStep ^ magnitude ≠ 0 := (pow_pos halfStep_pos _).ne'
    rw [rootAt, exactRatio, zpow_neg, zpow_natCast]
    field_simp
  have hexact : (2 : ℝ) ^ 95 ≤ exactRatio magnitude :=
    le_trans (by exact_mod_cast hratio) hbelow
  have hexactPos : 0 < exactRatio magnitude := lt_of_lt_of_le (by positivity) hexact
  rw [priceAt_pos hpos]
  have hlow := Nat.div_mul_le_self (2 ^ 256 - 1) (ratioAt magnitude)
  have hhigh : 2 ^ 256 - 1 < ((2 ^ 256 - 1) / ratioAt magnitude + 1) * ratioAt magnitude :=
    Nat.lt_mul_of_div_lt (Nat.lt_succ_self _) (by omega)
  have hfloor : 2 ^ 128 - 1 ≤ (2 ^ 256 - 1) / ratioAt magnitude :=
    (by decide : 2 ^ 128 - 1 ≤ (2 ^ 256 - 1) / 2 ^ 128).trans
      (Nat.div_le_div_left hunit (by omega))
  generalize (2 ^ 256 - 1) / ratioAt magnitude = quotient at hlow hhigh hfloor ⊢
  have htol := div_le_toleranceAt (quotient / 2 ^ 64)
  generalize toleranceAt (quotient / 2 ^ 64) = tolerance at htol ⊢
  generalize hprice : quotient / 2 ^ 64 = price at htol ⊢
  have htolPrice : price ≤ 2 ^ 49 * tolerance := by omega
  constructor
  · apply le_of_mul_le_mul_right _ hexactPos
    rw [hroot]
    have hprod : price * ratioAt magnitude ≤ 2 ^ 192 := by
      have hscaled := Nat.mul_le_mul_right (ratioAt magnitude)
        (show price * 2 ^ 64 ≤ quotient by omega)
      have hswap : price * 2 ^ 64 * ratioAt magnitude = price * ratioAt magnitude * 2 ^ 64 := by
        ring
      omega
    have hprod : (price * ratioAt magnitude : ℝ) ≤ 2 ^ 192 := by exact_mod_cast hprod
    have htolPrice : (price : ℝ) ≤ 2 ^ 49 * tolerance := by exact_mod_cast htolPrice
    have hp : (0 : ℝ) ≤ price := Nat.cast_nonneg _
    have ht : (0 : ℝ) ≤ tolerance := Nat.cast_nonneg _
    have hspare : (40 * price : ℝ) ≤ tolerance * exactRatio magnitude := by
      calc (40 * price : ℝ) ≤ 40 * (2 ^ 49 * tolerance) := by linarith
        _ ≤ tolerance * 2 ^ 95 := by linarith
        _ ≤ tolerance * exactRatio magnitude := mul_le_mul_of_nonneg_left hexact ht
    have hexcess := mul_le_mul_of_nonneg_left habove hp
    linarith
  · apply le_of_mul_le_mul_right _ hexactPos
    rw [hroot]
    have hone : 1 ≤ tolerance := by omega
    have hprod : 2 ^ 192 ≤ (price + 1) * ratioAt magnitude := by
      have hscaled := Nat.mul_le_mul_right (ratioAt magnitude)
        (show quotient + 1 ≤ (price + 1) * 2 ^ 64 by omega)
      have hswap : (price + 1) * 2 ^ 64 * ratioAt magnitude =
          (price + 1) * ratioAt magnitude * 2 ^ 64 := by ring
      omega
    have hprod : (2 ^ 192 : ℝ) ≤ (price + 1) * ratioAt magnitude := by exact_mod_cast hprod
    have hone : (1 : ℝ) ≤ tolerance := by exact_mod_cast hone
    calc (2 ^ 192 : ℝ) ≤ (price + 1) * ratioAt magnitude := hprod
      _ ≤ (price + tolerance) * exactRatio magnitude :=
        mul_le_mul (by linarith) hbelow (Nat.cast_nonneg _) (by positivity)

theorem priceAt_band {tick : ℤ} (hlow : minTick ≤ tick) (hhigh : tick ≤ maxTick) :
    (priceAt tick : ℝ) - toleranceAt (priceAt tick) ≤ rootAt tick ∧
      rootAt tick ≤ priceAt tick + toleranceAt (priceAt tick) := by
  simp only [minTick, maxTick] at hlow hhigh
  rcases Int.lt_or_le 0 tick with hup | hdown
  · obtain ⟨magnitude, rfl⟩ := Int.eq_ofNat_of_zero_le hup.le
    exact priceAt_pos_band (by omega) (by omega)
  · obtain ⟨magnitude, hm⟩ := Int.eq_ofNat_of_zero_le (Int.neg_nonneg.mpr hdown)
    obtain rfl : tick = -(magnitude : ℤ) := by omega
    obtain ⟨hbelow, habove⟩ := priceAt_neg_band (show magnitude ≤ 443636 by omega)
    have ht : (0 : ℝ) ≤ toleranceAt (priceAt (-magnitude)) := Nat.cast_nonneg _
    exact ⟨by linarith, habove⟩

theorem toleranceAt_priceAt_le {tick : ℤ} (hlow : minTick ≤ tick) (hhigh : tick ≤ maxTick) :
    toleranceAt (priceAt tick) ≤ priceAt tick := by
  have hpos : 1 ≤ priceAt tick := by
    rcases eq_or_lt_of_le hlow with rfl | hlt
    · rw [priceAt_minTick]
      decide
    · have := priceAt_strictMono le_rfl hlt hhigh
      omega
  have := toleranceAt_le (priceAt tick)
  by_cases hsmall : priceAt tick / 2 ^ 48 = 0
  · rw [toleranceAt, if_pos hsmall]
    exact hpos
  · rw [toleranceAt, if_neg hsmall]
    exact Nat.div_le_self _ _

/-- The exact price is in the band the tolerance grants around the computed root. -/
theorem priceAt_accurate {tick : ℤ} (hlow : minTick ≤ tick) (hhigh : tick ≤ maxTick) :
    ((priceAt tick : ℚ) - toleranceAt (priceAt tick)) ^ 2 ≤ (10001 / 10000) ^ tick * 2 ^ 128 ∧
      (10001 / 10000 : ℚ) ^ tick * 2 ^ 128 ≤
        ((priceAt tick : ℚ) + toleranceAt (priceAt tick)) ^ 2 := by
  obtain ⟨hbelow, habove⟩ := priceAt_band hlow hhigh
  have hle : (toleranceAt (priceAt tick) : ℝ) ≤ priceAt tick := by
    exact_mod_cast toleranceAt_priceAt_le hlow hhigh
  have hsq := rootAt_sq tick
  have hlower := pow_le_pow_left₀ (sub_nonneg.mpr hle) hbelow 2
  have hupper := pow_le_pow_left₀ (rootAt_pos tick).le habove 2
  rw [hsq] at hlower hupper
  constructor
  · rw [← Rat.cast_le (K := ℝ)]
    push_cast
    exact hlower
  · rw [← Rat.cast_le (K := ℝ)]
    push_cast
    exact hupper

end TickAccuracy
