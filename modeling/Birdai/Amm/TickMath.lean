import Birdai.Amm.WideArith
import Birdai.Base.BinaryProducts

/-!
# Ticks and square-root prices

The conversion by binary decomposition over the factor table, and the bounded
binary search that inverts it.
-/

namespace TickMath

open WideArith CheckedWords Outcomes BinaryProducts

def minTick : ℤ := -443636

def maxTick : ℤ := 443636

/-- `floor(1.0001^(-2^(k-1)) * 2^128)`. -/
def tickFactors : List U128 :=
  [0xfffcb933bd6fad37aa2d162d1a594001,
   0xfff97272373d413259a46990580e2139,
   0xfff2e50f5f656932ef12357cf3c7fdcb,
   0xffe5caca7e10e4e61c3624eaa0941ccf,
   0xffcb9843d60f6159c9db58835c926643,
   0xff973b41fa98c081472e6896dfb254bf,
   0xff2ea16466c96a3843ec78b326b52860,
   0xfe5dee046a99a2a811c461f1969c3052,
   0xfcbe86c7900a88aedcffc83b479aa3a3,
   0xf987a7253ac413176f2b074cf7815e53,
   0xf3392b0822b70005940c7a398e4b70f2,
   0xe7159475a2c29b7443b29c7fa6e889d8,
   0xd097f3bdfd2022b8845ad8f792aa5825,
   0xa9f746462d870fdf8a65dc1f90e061e4,
   0x70d869a156d2a1b890bb3df62baf32f6,
   0x31be135f97d08fd981231505542fcfa5,
   0x09aa508b5b7a84e1c677de54f3e99bc8,
   0x005d6af8dedb81196699c329225ee604,
   0x00002216e584f5fa1ea926041bedfe97,
   0x00000000048a170391f7dc42444e8fa2]

def tickPriceToleranceBits : ℕ := 48

def tickPriceTolerance (computed : U128) : U128 :=
  let scaled : U128 :=
    ⟨computed.val / 2 ^ tickPriceToleranceBits, (Nat.div_le_self _ _).trans_lt computed.isLt⟩
  if scaled = 0 then 1 else scaled

/-- One turn of the decomposition: the factor counts when its bit is set. -/
def applyFactor (magnitude : ℕ) (ratio : CheckedU256) (entry : U128 × ℕ) :
    Except AmmError CheckedU256 :=
  if magnitude.testBit entry.2 then do
    let product ← ratio.checkedMul (.fromU128 entry.1)
    product.checkedShr 128
  else .ok ratio

def sqrtPriceAtTick (tick : ℤ) : Except AmmError U128 :=
  if minTick ≤ tick ∧ tick ≤ maxTick then do
    let one ← CheckedU256.one.checkedShl 128
    let ratio ← tickFactors.zipIdx.foldlM (applyFactor tick.natAbs) one
    let ratio ← if 0 < tick then CheckedU256.maxValue.checkedDiv ratio else .ok ratio
    let narrowed ← ratio.checkedShr 64
    narrowed.toU128
  else .error (.invalidTick tick minTick maxTick)

def minSqrtPrice : U128 := 4295048016

def maxSqrtPrice : U128 := 79226673515401279992447579061

def maxSearchSteps : ℕ := 24

/-- The search loop, with the steps it still may take. -/
def search (sqrtPrice : U128) : ℕ → ℤ → ℤ → Except AmmError ℤ
  | 0, low, _ => .ok low
  | steps + 1, low, high =>
    if high - low ≤ 1 then .ok low
    else do
      let middle := low + (high - low) / 2
      let price ← sqrtPriceAtTick middle
      if price ≤ sqrtPrice then search sqrtPrice steps middle high
      else search sqrtPrice steps low middle

def tickAtSqrtPrice (sqrtPrice : U128) : Except AmmError ℤ :=
  if sqrtPrice = 0 then .error (.invalidSqrtPrice 0)
  else if sqrtPrice < minSqrtPrice then .ok minTick
  else if maxSqrtPrice ≤ sqrtPrice then .ok maxTick
  else search sqrtPrice maxSearchSteps minTick maxTick

/-! ### The closed form -/

def factors : List ℕ := tickFactors.map Fin.val

/-- The decomposition of a magnitude, in units of `2 ^ 128`. -/
def ratioAt (magnitude : ℕ) : ℕ := truncated (2 ^ 128) factors magnitude (2 ^ 128)

def priceAt (tick : ℤ) : ℕ :=
  if 0 < tick then (2 ^ 256 - 1) / ratioAt tick.natAbs / 2 ^ 64 else ratioAt tick.natAbs / 2 ^ 64

theorem factors_le : ∀ f ∈ factors, f ≤ 2 ^ 128 := by
  intro f hf
  obtain ⟨g, _, rfl⟩ := List.mem_map.mp hf
  exact g.isLt.le

theorem factors_nearSquares : NearSquares (2 ^ 128) (2 ^ 30) factors := by decide +kernel

/-- The fold over the indexed table is the truncated product of the magnitude's digits. -/
theorem foldlM_applyFactor (fs : List U128) (magnitude k : ℕ) {ratio : CheckedU256}
    (hratio : ratio.val ≤ 2 ^ 128) :
    ∃ result, (fs.zipIdx k).foldlM (applyFactor magnitude) ratio = .ok result ∧
      result.val = truncated (2 ^ 128) (fs.map Fin.val) (magnitude / 2 ^ k) ratio.val := by
  induction fs generalizing k ratio with
  | nil => exact ⟨ratio, rfl, rfl⟩
  | cons f fs ih =>
    have hhalf : magnitude / 2 ^ k / 2 = magnitude / 2 ^ (k + 1) := by
      rw [Nat.div_div_eq_div_mul, Nat.pow_succ]
    rw [List.zipIdx_cons, List.foldlM_cons, List.map_cons, truncated, hhalf]
    have hbit : magnitude.testBit k = decide (magnitude / 2 ^ k % 2 = 1) :=
      Nat.testBit_eq_decide_div_mod_eq
    by_cases hodd : magnitude / 2 ^ k % 2 = 1
    · have hlt : ratio.val * f.val < 2 ^ 256 := by
        have := Nat.mul_le_mul_right f.val hratio
        have := f.isLt
        omega
      have hle : ratio.val * f.val / 2 ^ 128 ≤ 2 ^ 128 := by
        have := Nat.mul_le_mul_right f.val hratio
        have := f.isLt
        omega
      let shifted := CheckedU256.ofNat (ratio.val * f.val / 2 ^ 128)
        ((Nat.div_le_self _ _).trans_lt hlt)
      have hstep : applyFactor magnitude ratio (f, k) = .ok shifted := by
        rw [applyFactor, hbit, if_pos (decide_eq_true hodd)]
        refine bind_eq_ok_iff.mpr ⟨.ofNat _ hlt, CheckedU256.checkedMul_eq_ok_iff.mpr ?_, ?_⟩
        · rw [CheckedU256.val_ofNat, CheckedU256.val_fromU128]
        · rw [CheckedU256.checkedShr_eq_ok_iff (by decide), CheckedU256.val_ofNat,
            CheckedU256.val_ofNat]
      rw [hstep, ok_bind, if_pos hodd]
      have hval : shifted.val = ratio.val * f.val / 2 ^ 128 := CheckedU256.val_ofNat _ _
      rw [← hval]
      exact ih _ (hval ▸ hle)
    · have hstep : applyFactor magnitude ratio (f, k) = .ok ratio := by
        rw [applyFactor, hbit, if_neg (by simpa using hodd)]
      rw [hstep, ok_bind, if_neg hodd]
      exact ih _ hratio

/-- The exact product the table stands for. -/
abbrev powerAt (magnitude : ℕ) : ℚ := exact (2 ^ 128) factors magnitude

theorem ratioAt_bounds (magnitude : ℕ) :
    powerAt magnitude * 2 ^ 128 - 20 ≤ ratioAt magnitude ∧
      (ratioAt magnitude : ℚ) ≤ powerAt magnitude * 2 ^ 128 := by
  have h := truncated_bounds (by decide) factors_le magnitude (2 ^ 128)
  have hlen : (factors.length : ℚ) = 20 := by norm_num [factors, tickFactors]
  rw [hlen] at h
  exact_mod_cast h

theorem powerAt_succ_le {magnitude : ℕ} (h : magnitude < 2 ^ 20 - 1) :
    powerAt (magnitude + 1) ≤ 999951 / 1000000 * powerAt magnitude := by
  refine (exact_succ_le (by decide) (by decide) factors_nearSquares (by
    simp only [List.length_map, List.length_cons, List.length_nil]; omega)).trans ?_
  apply mul_le_mul_of_nonneg_right _ (exact_nonneg _ _)
  norm_num

theorem powerAt_antitone {small large : ℕ} (h : small ≤ large) (hlarge : large < 2 ^ 20) :
    powerAt large ≤ powerAt small := by
  induction large, h using Nat.le_induction with
  | base => exact le_rfl
  | succ n hn ih =>
    have hstep := powerAt_succ_le (show n < 2 ^ 20 - 1 by omega)
    have hnn : 0 ≤ powerAt n := exact_nonneg factors n
    linarith [ih (by omega)]

/-- Neighbouring ratios differ by nearly the first factor. -/
theorem ratioAt_succ_le {magnitude : ℕ} (h : magnitude < 2 ^ 20 - 1) :
    ratioAt (magnitude + 1) * 1000000 ≤ 999951 * (ratioAt magnitude + 20) := by
  have hstep := powerAt_succ_le h
  have hhigh := (ratioAt_bounds (magnitude + 1)).2
  have hlow := (ratioAt_bounds magnitude).1
  have hq : (ratioAt (magnitude + 1) : ℚ) * 1000000 ≤ 999951 * (ratioAt magnitude + 20) := by
    linarith
  exact_mod_cast hq

theorem ratioAt_maxTick : ratioAt 443636 / 2 ^ 64 = 4295048016 := by decide +kernel

theorem le_ratioAt {magnitude : ℕ} (h : magnitude ≤ 443636) : 2 ^ 95 ≤ ratioAt magnitude := by
  have hmono := powerAt_antitone h (by decide)
  have hlow := (ratioAt_bounds magnitude).1
  have hhigh := (ratioAt_bounds 443636).2
  have hlast : 4295048016 * 2 ^ 64 ≤ ratioAt 443636 := by
    have := ratioAt_maxTick
    omega
  have hlast : (4295048016 * 2 ^ 64 : ℚ) ≤ ratioAt 443636 := by exact_mod_cast hlast
  have hq : (2 ^ 95 : ℚ) ≤ ratioAt magnitude := by linarith
  exact_mod_cast hq

theorem ratioAt_le (magnitude : ℕ) : ratioAt magnitude ≤ 2 ^ 128 := by
  have hhigh := (ratioAt_bounds magnitude).2
  have hone := exact_le_one (by decide) factors_le magnitude
  have hq : (ratioAt magnitude : ℚ) ≤ 2 ^ 128 := by linarith
  exact_mod_cast hq

/-- Inside the tick range the conversion is total, and is its closed form. -/
theorem sqrtPriceAtTick_ok {tick : ℤ} (hlow : minTick ≤ tick) (hhigh : tick ≤ maxTick) :
    ∃ price, sqrtPriceAtTick tick = .ok price ∧ price.val = priceAt tick := by
  have hmag : tick.natAbs ≤ 443636 := by
    simp only [minTick, maxTick] at hlow hhigh
    omega
  have hpos := le_ratioAt hmag
  have hle := ratioAt_le tick.natAbs
  have hone : CheckedU256.one.checkedShl 128 = .ok (.ofNat (2 ^ 128) (by decide)) := by
    rw [CheckedU256.checkedShl_eq_ok_iff (by decide), CheckedU256.val_one,
      CheckedU256.val_ofNat, one_mul, Nat.mod_eq_of_lt (by decide)]
  have hunit : (CheckedU256.ofNat (2 ^ 128) (by decide)).val ≤ 2 ^ 128 := by
    rw [CheckedU256.val_ofNat]
  obtain ⟨ratio, hratio, hval⟩ := foldlM_applyFactor tickFactors tick.natAbs 0 hunit
  rw [pow_zero, Nat.div_one, CheckedU256.val_ofNat] at hval
  have hval : ratio.val = ratioAt tick.natAbs := hval
  rw [sqrtPriceAtTick, if_pos ⟨hlow, hhigh⟩, hone, ok_bind, hratio, ok_bind]
  simp only [priceAt]
  by_cases hup : 0 < tick
  · have hlt : (2 ^ 256 - 1) / ratioAt tick.natAbs < 2 ^ 256 :=
      (Nat.div_le_self _ _).trans_lt (by decide)
    have hdiv : CheckedU256.maxValue.checkedDiv ratio =
        .ok (.ofNat ((2 ^ 256 - 1) / ratioAt tick.natAbs) hlt) := by
      rw [CheckedU256.checkedDiv_eq_ok_iff, CheckedU256.val_maxValue, hval,
        CheckedU256.val_ofNat]
      exact ⟨by omega, rfl⟩
    have hfit : (2 ^ 256 - 1) / ratioAt tick.natAbs / 2 ^ 64 < 2 ^ 128 := by
      have hquot : (2 ^ 256 - 1) / ratioAt tick.natAbs ≤ (2 ^ 256 - 1) / 2 ^ 95 :=
        Nat.div_le_div_left hpos (by decide)
      omega
    rw [if_pos hup, if_pos hup, hdiv, ok_bind]
    refine ⟨⟨_, hfit⟩, bind_eq_ok_iff.mpr ⟨.ofNat _ (hfit.trans (by decide)), ?_, ?_⟩, rfl⟩
    · rw [CheckedU256.checkedShr_eq_ok_iff (by decide), CheckedU256.val_ofNat,
        CheckedU256.val_ofNat]
    · rw [CheckedU256.toU128_eq_ok_iff, CheckedU256.val_ofNat]
  · have hfit : ratioAt tick.natAbs / 2 ^ 64 < 2 ^ 128 := by omega
    rw [if_neg hup, if_neg hup, ok_bind]
    refine ⟨⟨_, hfit⟩, bind_eq_ok_iff.mpr ⟨.ofNat _ (hfit.trans (by decide)), ?_, ?_⟩, rfl⟩
    · rw [CheckedU256.checkedShr_eq_ok_iff (by decide), hval, CheckedU256.val_ofNat]
    · rw [CheckedU256.toU128_eq_ok_iff, CheckedU256.val_ofNat]

theorem sqrtPriceAtTick_eq_ok {tick : ℤ} {price : U128} (h : sqrtPriceAtTick tick = .ok price) :
    minTick ≤ tick ∧ tick ≤ maxTick ∧ price.val = priceAt tick := by
  by_cases hrange : minTick ≤ tick ∧ tick ≤ maxTick
  · obtain ⟨p, hp, hval⟩ := sqrtPriceAtTick_ok hrange.1 hrange.2
    rw [hp] at h
    cases h
    exact ⟨hrange.1, hrange.2, hval⟩
  · rw [sqrtPriceAtTick, if_neg hrange] at h
    cases h

/-! ### Neighbouring ticks -/

def toleranceAt (price : ℕ) : ℕ := if price / 2 ^ 48 = 0 then 1 else price / 2 ^ 48

theorem tickPriceTolerance_val (computed : U128) :
    (tickPriceTolerance computed).val = toleranceAt computed.val := by
  unfold tickPriceTolerance toleranceAt
  dsimp only
  split
  · rename_i hz
    have hz : computed.val / 2 ^ 48 = 0 := congrArg Fin.val hz
    rw [if_pos hz]
    rfl
  · rename_i hz
    have hz : computed.val / 2 ^ 48 ≠ 0 := fun he => hz (Fin.ext he)
    rw [if_neg hz]
    rfl

theorem toleranceAt_le (price : ℕ) : toleranceAt price ≤ price / 2 ^ 48 + 1 := by
  simp only [toleranceAt]
  split <;> omega

theorem priceAt_neg (magnitude : ℕ) : priceAt (-magnitude) = ratioAt magnitude / 2 ^ 64 := by
  rw [priceAt, if_neg (by omega), Int.natAbs_neg, Int.natAbs_natCast]

theorem priceAt_pos {magnitude : ℕ} (h : 0 < magnitude) :
    priceAt magnitude = (2 ^ 256 - 1) / ratioAt magnitude / 2 ^ 64 := by
  rw [priceAt, if_pos (by omega), Int.natAbs_natCast]

/-- Inverting turns the fall of the ratio into a rise of the quotient. -/
theorem quotient_rises {magnitude : ℕ} (h : magnitude + 1 ≤ 443636) :
    1000048 * ((2 ^ 256 - 1) / ratioAt magnitude) ≤
      1000000 * ((2 ^ 256 - 1) / ratioAt (magnitude + 1) + 1) := by
  have hpos := le_ratioAt h
  have hpos' := le_ratioAt (show magnitude ≤ 443636 by omega)
  have hfall := ratioAt_succ_le (show magnitude < 2 ^ 20 - 1 by omega)
  have hlow := Nat.div_mul_le_self (2 ^ 256 - 1) (ratioAt magnitude)
  have hhigh : 2 ^ 256 - 1 < ((2 ^ 256 - 1) / ratioAt (magnitude + 1) + 1) *
      ratioAt (magnitude + 1) :=
    Nat.lt_mul_of_div_lt (Nat.lt_succ_self _) (by omega)
  generalize (2 ^ 256 - 1) / ratioAt magnitude = q at hlow ⊢
  generalize (2 ^ 256 - 1) / ratioAt (magnitude + 1) + 1 = q' at hhigh ⊢
  generalize ratioAt magnitude = r at hlow hfall hpos'
  generalize ratioAt (magnitude + 1) = r' at hhigh hfall hpos
  by_contra hlt
  have hlt : q' * 1000000 < q * 1000048 := by omega
  have hcross : q * r < q' * r' := hlow.trans_lt hhigh
  have hcost : q * r * 1000000 ≤ q' * (999951 * (r + 20)) := by
    calc q * r * 1000000 ≤ q' * r' * 1000000 := Nat.mul_le_mul_right _ hcross.le
      _ = q' * (r' * 1000000) := by ring
      _ ≤ q' * (999951 * (r + 20)) := Nat.mul_le_mul_left _ hfall
  have hscaled : q * r * 1000000 * 1000000 ≤ q * 1000048 * (999951 * (r + 20)) := by
    calc q * r * 1000000 * 1000000 ≤ q' * (999951 * (r + 20)) * 1000000 :=
          Nat.mul_le_mul_right _ hcost
      _ = q' * 1000000 * (999951 * (r + 20)) := by ring
      _ ≤ q * 1000048 * (999951 * (r + 20)) := Nat.mul_le_mul_right _ hlt.le
  have hq : 0 < q := by omega
  have hcancel : q * (r * 1000000000000) ≤ q * (999998997648 * (r + 20)) := by linarith
  have hbound := Nat.le_of_mul_le_mul_left hcancel hq
  omega

theorem priceAt_one : priceAt 1 = 18447666387855959850 := by decide +kernel

theorem priceAt_zero : priceAt 0 = 2 ^ 64 := by decide +kernel

/-- Between neighbouring ticks there is room for both tolerances. -/
theorem priceAt_gap {tick : ℤ} (hlow : minTick ≤ tick) (hhigh : tick < maxTick) :
    priceAt tick + toleranceAt (priceAt tick) + toleranceAt (priceAt (tick + 1)) <
      priceAt (tick + 1) := by
  have hbelow := toleranceAt_le (priceAt tick)
  have habove := toleranceAt_le (priceAt (tick + 1))
  simp only [minTick, maxTick] at hlow hhigh
  rcases lt_trichotomy tick 0 with hneg | rfl | hpos
  · obtain ⟨magnitude, hm⟩ : ∃ magnitude : ℕ, tick = -((magnitude + 1 : ℕ) : ℤ) :=
      ⟨(-tick - 1).toNat, by omega⟩
    have hnext : tick + 1 = -(magnitude : ℤ) := by omega
    have hfall := ratioAt_succ_le (show magnitude < 2 ^ 20 - 1 by omega)
    have hfloor : 4295048015 ≤ ratioAt magnitude / 2 ^ 64 := by
      have hmono := powerAt_antitone (show magnitude ≤ 443636 by omega) (by decide)
      have h1 := (ratioAt_bounds magnitude).1
      have h2 := (ratioAt_bounds 443636).2
      have h3 : (ratioAt 443636 : ℚ) ≤ ratioAt magnitude + 20 := by linarith
      have h3 : ratioAt 443636 ≤ ratioAt magnitude + 20 := by exact_mod_cast h3
      have h4 := ratioAt_maxTick
      omega
    rw [hnext, priceAt_neg] at habove ⊢
    rw [hm, priceAt_neg] at hbelow ⊢
    generalize toleranceAt (ratioAt magnitude / 2 ^ 64) = t at habove ⊢
    generalize toleranceAt (ratioAt (magnitude + 1) / 2 ^ 64) = t' at hbelow ⊢
    generalize ratioAt magnitude = r at hfall hfloor habove ⊢
    generalize ratioAt (magnitude + 1) = r' at hfall hbelow ⊢
    omega
  · rw [zero_add, priceAt_one] at habove ⊢
    rw [priceAt_zero] at hbelow ⊢
    omega
  · obtain ⟨magnitude, rfl⟩ := Int.eq_ofNat_of_zero_le hpos.le
    have hrise := quotient_rises (show magnitude + 1 ≤ 443636 by omega)
    have hfloor : 2 ^ 128 - 1 ≤ (2 ^ 256 - 1) / ratioAt magnitude :=
      (by decide : 2 ^ 128 - 1 ≤ (2 ^ 256 - 1) / 2 ^ 128).trans
        (Nat.div_le_div_left (ratioAt_le magnitude)
          (by have := le_ratioAt (show magnitude ≤ 443636 by omega); omega))
    have hnext : (magnitude + 1 : ℤ) = ((magnitude + 1 : ℕ) : ℤ) := rfl
    rw [hnext, priceAt_pos (by omega)] at habove ⊢
    rw [priceAt_pos (by omega)] at hbelow ⊢
    generalize toleranceAt _ = t at habove ⊢
    generalize toleranceAt _ = t' at hbelow ⊢
    generalize (2 ^ 256 - 1) / ratioAt magnitude = q at *
    generalize (2 ^ 256 - 1) / ratioAt (magnitude + 1) = q' at *
    omega

theorem priceAt_strictMono {low high : ℤ} (hmin : minTick ≤ low) (hlt : low < high)
    (hmax : high ≤ maxTick) : priceAt low + toleranceAt (priceAt low) < priceAt high := by
  induction high, Int.add_one_le_of_lt hlt using Int.leInduction with
  | base => exact (Nat.le_add_right _ _).trans_lt (priceAt_gap hmin (by omega))
  | succ high hle ih =>
    have hstep := priceAt_gap (show minTick ≤ high by omega) (show high < maxTick by omega)
    have hbefore := ih (by omega) (by omega)
    omega

/-! ### The inverse -/

/-- The search keeps the price between its ends, and its steps halve the gap. -/
theorem search_ok {sqrtPrice : U128} (steps : ℕ) {low high : ℤ} (hmin : minTick ≤ low)
    (hlt : low < high) (hmax : high ≤ maxTick) (hsteps : high - low ≤ 2 ^ steps)
    (hlow : priceAt low ≤ sqrtPrice.val) (hhigh : sqrtPrice.val < priceAt high) :
    ∃ tick, search sqrtPrice steps low high = .ok tick ∧ minTick ≤ tick ∧ tick < maxTick ∧
      priceAt tick ≤ sqrtPrice.val ∧ sqrtPrice.val < priceAt (tick + 1) := by
  induction steps generalizing low high with
  | zero =>
    have hnext : high = low + 1 := by
      rw [pow_zero] at hsteps
      omega
    exact ⟨low, rfl, hmin, by omega, hlow, hnext ▸ hhigh⟩
  | succ steps ih =>
    rw [search]
    by_cases hclose : high - low ≤ 1
    · have hnext : high = low + 1 := by omega
      rw [if_pos hclose]
      exact ⟨low, rfl, hmin, by omega, hlow, hnext ▸ hhigh⟩
    · rw [if_neg hclose]
      rw [Int.pow_succ] at hsteps
      obtain ⟨price, hprice, hval⟩ := sqrtPriceAtTick_ok
        (show minTick ≤ low + (high - low) / 2 by omega)
        (show low + (high - low) / 2 ≤ maxTick by omega)
      dsimp only
      rw [hprice, ok_bind]
      by_cases hle : price ≤ sqrtPrice
      · rw [if_pos hle]
        exact ih (by omega) (by omega) hmax (by omega) (hval ▸ hle) hhigh
      · rw [if_neg hle]
        exact ih hmin (by omega) (by omega) (by omega) hlow (hval ▸ not_le.mp hle)

theorem priceAt_minTick : priceAt minTick = minSqrtPrice.val := by decide +kernel

theorem priceAt_maxTick : priceAt maxTick = maxSqrtPrice.val := by decide +kernel

/-- The tick of a price brackets it, up to the ends of the range. -/
theorem tickAtSqrtPrice_ok {sqrtPrice : U128} (hpos : sqrtPrice ≠ 0) :
    ∃ tick, tickAtSqrtPrice sqrtPrice = .ok tick ∧ minTick ≤ tick ∧ tick ≤ maxTick ∧
      (tick = minTick ∨ priceAt tick ≤ sqrtPrice.val) ∧
      (tick = maxTick ∨ sqrtPrice.val < priceAt (tick + 1)) := by
  rw [tickAtSqrtPrice, if_neg hpos]
  by_cases hmin : sqrtPrice < minSqrtPrice
  · rw [if_pos hmin]
    have hlt : sqrtPrice.val < priceAt minTick := priceAt_minTick ▸ hmin
    have hrise := priceAt_gap (le_refl minTick) (by decide)
    exact ⟨minTick, rfl, le_rfl, by decide, .inl rfl, .inr (by omega)⟩
  · rw [if_neg hmin]
    by_cases hmax : maxSqrtPrice ≤ sqrtPrice
    · rw [if_pos hmax]
      exact ⟨maxTick, rfl, by decide, le_rfl, .inr (priceAt_maxTick ▸ hmax), .inl rfl⟩
    · rw [if_neg hmax]
      have hmin : minSqrtPrice.val ≤ sqrtPrice.val := not_lt.mp hmin
      have hmax : sqrtPrice.val < maxSqrtPrice.val := not_le.mp hmax
      obtain ⟨tick, htick, hlow, hhigh, hle, hlt⟩ := search_ok maxSearchSteps
        le_rfl (by decide) le_rfl (by decide) (priceAt_minTick ▸ hmin)
        (priceAt_maxTick ▸ hmax)
      exact ⟨tick, htick, hlow, hhigh.le, .inr hle, .inr hlt⟩

end TickMath
