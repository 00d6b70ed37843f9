import Birdai.Amm.PricingSpecs
import Mathlib.Order.Bounds.Defs

/-!
# Every step favours the pool

What a step collects covers its price movement and what it pays out is covered
by it, over exact integers. The price a step reaches is rounded so that the cost
recomputed from it never exceeds the input that reached it.
-/

namespace StepRounding

open WideArith CheckedWords Outcomes BoundedLoop SwapExactIn PricingSpecs

/-- `paid` input covers moving `liquidity` from `start` to `stop`. -/
def Covers (d : Direction) (liquidity start stop : U128) (paid : ℤ) : Prop :=
  match d with
  | .bToA => (liquidity.val : ℤ) * (stop.val - start.val) ≤ paid * 2 ^ 64
  | .aToB => (liquidity.val : ℤ) * 2 ^ 64 * (start.val - stop.val) ≤ paid * start.val * stop.val

/-- Moving `liquidity` from `start` to `stop` covers an output of `out`. -/
def CoveredBy (d : Direction) (liquidity start stop : U128) (out : ℤ) : Prop :=
  match d with
  | .bToA => out * start.val * stop.val ≤ (liquidity.val : ℤ) * 2 ^ 64 * (stop.val - start.val)
  | .aToB => out * 2 ^ 64 ≤ (liquidity.val : ℤ) * (start.val - stop.val)

variable {d : Direction} {liquidity start stop : U128}

theorem covers_bToA_iff {paid : ℤ} (h : start ≤ stop) :
    Covers .bToA liquidity start stop paid ↔
      ((liquidity.val * (stop.val - start.val) : ℕ) : ℤ) ≤ paid * (2 ^ 64 : ℕ) := by
  have hle : start.val ≤ stop.val := h
  simp only [Covers, Nat.cast_mul, Nat.cast_sub hle, Nat.cast_pow, Nat.cast_ofNat]

theorem covers_aToB_iff {paid : ℤ} (h : stop ≤ start) :
    Covers .aToB liquidity start stop paid ↔
      ((liquidity.val * 2 ^ 64 * (start.val - stop.val) : ℕ) : ℤ) ≤
        paid * (start.val * stop.val : ℕ) := by
  have hle : stop.val ≤ start.val := h
  simp only [Covers, Nat.cast_mul, Nat.cast_sub hle, Nat.cast_pow, Nat.cast_ofNat, mul_assoc]

/-- The input that could reach `full` covers every stop on the way. -/
theorem amount_covers {amountIn full : U128}
    (hfull : priceFromAmount d start liquidity amountIn = .ok full)
    (hstop : reach d start ≤ reach d stop) (hreach : reach d stop ≤ reach d full) :
    Covers d liquidity start stop amountIn.val := by
  cases d with
  | bToA =>
    obtain ⟨_, hfull⟩ := nextSqrtPriceUp_ok hfull
    have hle : start.val ≤ stop.val := Int.ofNat_le.mp hstop
    have hle' : stop.val ≤ full.val := Int.ofNat_le.mp hreach
    rw [covers_bToA_iff hle]
    have hstep : stop.val - start.val ≤ amountIn.val * 2 ^ 64 / liquidity.val :=
      Nat.sub_le_iff_le_add'.mpr (hfull ▸ hle')
    have hcost := calc
      liquidity.val * (stop.val - start.val)
        ≤ liquidity.val * (amountIn.val * 2 ^ 64 / liquidity.val) := Nat.mul_le_mul_left _ hstep
      _ ≤ amountIn.val * 2 ^ 64 := Nat.mul_div_le _ _
    exact_mod_cast hcost
  | aToB =>
    obtain ⟨hliq, hfull⟩ := nextSqrtPriceDown_ok hfull
    have hle : stop.val ≤ start.val := by simp only [reach, along] at hstop; omega
    have hle' : full.val ≤ stop.val := by simp only [reach, along] at hreach; omega
    rw [covers_aToB_iff hle]
    have hden : 0 < liquidity.val * 2 ^ 64 + amountIn.val * start.val := by positivity
    rw [hfull, ceilDiv_le_iff_le_mul hden] at hle'
    have hcost : liquidity.val * 2 ^ 64 * (start.val - stop.val) ≤
        amountIn.val * (start.val * stop.val) := by
      obtain ⟨gap, hgap⟩ := Nat.exists_eq_add_of_le hle
      rw [hgap] at hle' ⊢
      rw [Nat.add_sub_cancel_left]
      linarith
    exact_mod_cast hcost

/-- The owed amount is the least that covers the movement, and the output is covered. -/
theorem owedAndOut_ok {c : Call} {owed out : U128}
    (hstop : reach c.direction start ≤ reach c.direction stop)
    (h : c.owedAndOut start stop liquidity = .ok (owed, out)) :
    (0 < start.val ∧ 0 < stop.val) ∧
      IsLeast {paid | Covers c.direction liquidity start stop paid} owed.val ∧
      CoveredBy c.direction liquidity start stop out.val := by
  unfold Call.owedAndOut at h
  generalize c.direction = d at h hstop ⊢
  cases d with
  | bToA =>
    have hle : start ≤ stop := Int.ofNat_le.mp hstop
    obtain ⟨owed', howed, h⟩ := bind_eq_ok_iff.mp h
    obtain ⟨out', hout, h⟩ := bind_eq_ok_iff.mp h
    cases h
    have howed := deltaB_ok hle howed
    obtain ⟨hpos, hout⟩ := deltaA_ok hle hout
    simp only [↓reduceIte, Bool.false_eq_true] at howed hout
    have hle' : start.val ≤ stop.val := hle
    refine ⟨⟨hpos, hpos.trans_le hle'⟩, ?_, ?_⟩
    · simp only [covers_bToA_iff hle, howed]
      exact ceilDiv_isLeast _ (by positivity)
    · have hcovered : out.val * (stop.val * start.val) ≤
          liquidity.val * 2 ^ 64 * (stop.val - start.val) := hout ▸ Nat.div_mul_le_self _ _
      zify [show start.val ≤ stop.val from hle] at hcovered
      simp only [CoveredBy]
      linarith
  | aToB =>
    have hle : stop ≤ start := by
      simp only [reach, along] at hstop
      exact Int.ofNat_le.mp (by omega)
    obtain ⟨owed', howed, h⟩ := bind_eq_ok_iff.mp h
    obtain ⟨out', hout, h⟩ := bind_eq_ok_iff.mp h
    cases h
    obtain ⟨hpos, howed⟩ := deltaA_ok hle howed
    have hout := deltaB_ok hle hout
    simp only [↓reduceIte, Bool.false_eq_true] at howed hout
    have hle' : stop.val ≤ start.val := hle
    refine ⟨⟨hpos.trans_le hle', hpos⟩, ?_, ?_⟩
    · simp only [covers_aToB_iff hle, howed]
      exact ceilDiv_isLeast _ (Nat.mul_pos (by omega) hpos)
    · have hcovered : out.val * 2 ^ 64 ≤ liquidity.val * (start.val - stop.val) :=
        hout ▸ Nat.div_mul_le_self _ _
      zify [show stop.val ≤ start.val from hle] at hcovered
      exact hcovered

/-- A step aims at the nearer of its boundary and the price limit. -/
theorem reach_stepLimit (c : Call) (boundary : Option Boundary) :
    reach c.direction (c.stepLimit boundary) =
      min (reach c.direction (boundary.elim c.priceLimit Boundary.sqrtPrice))
        (reach c.direction c.priceLimit) := by
  unfold Call.stepLimit
  generalize c.direction = d
  cases d with
  | bToA =>
    simp only [reach, along, Fin.coe_min]
    omega
  | aToB =>
    simp only [reach, along, Fin.coe_max]
    omega

/-- A step's target lies ahead as long as the price limit does. -/
theorem stepLimit_ahead {c : Call} {w : Walk}
    (hlimit : reach c.direction w.sqrtPrice ≤ reach c.direction c.priceLimit) :
    reach c.direction w.sqrtPrice ≤ reach c.direction (c.stepLimit (c.nextBoundary w)) ∧
      reach c.direction (c.stepLimit (c.nextBoundary w)) ≤ reach c.direction c.priceLimit := by
  rw [reach_stepLimit]
  refine ⟨le_min ?_ hlimit, min_le_right _ _⟩
  cases hb : c.nextBoundary w with
  | none => exact hlimit
  | some b => exact (isAhead_iff.mp (Option.filter_eq_some_iff.mp hb).2).le

/-- Everything a successful step does to the walk. -/
structure Advanced (c : Call) (w : Walk) (boundary : Option Boundary) (moved : Walk)
    (s : Step) : Prop where
  moved_eq : moved = { w with
    sqrtPrice := s.sqrtPriceEnd
    remaining := moved.remaining
    amountOut := moved.amountOut
    steps := w.steps ++ [s] }
  start : s.sqrtPriceStart = w.sqrtPrice
  positive : 0 < s.sqrtPriceStart.val ∧ 0 < s.sqrtPriceEnd.val
  liquidity : s.liquidity = w.liquidity
  priced : nextPrice c.direction w.sqrtPrice w.liquidity w.remaining (c.stepLimit boundary) =
    .ok (s.sqrtPriceEnd, s.crossed)
  forward : reach c.direction w.sqrtPrice < reach c.direction s.sqrtPriceEnd
  within : reach c.direction s.sqrtPriceEnd ≤ reach c.direction (c.stepLimit boundary)
  input : moved.remaining.val + s.amountIn.val = w.remaining.val
  output : moved.amountOut.val = w.amountOut.val + s.amountOut.val
  spent : s.crossed = false → s.amountIn = w.remaining
  least : s.crossed = true →
    IsLeast {paid | Covers c.direction s.liquidity s.sqrtPriceStart s.sqrtPriceEnd paid}
      s.amountIn.val
  covers : Covers c.direction s.liquidity s.sqrtPriceStart s.sqrtPriceEnd s.amountIn.val
  covered : CoveredBy c.direction s.liquidity s.sqrtPriceStart s.sqrtPriceEnd s.amountOut.val

/-- Taking the smaller of the two amounts never shortens what a step owes. -/
theorem min_owed {c : Call} {w : Walk} {limit next owed out : U128} {reached : Bool}
    (hahead : reach c.direction w.sqrtPrice ≤ reach c.direction limit)
    (hprice : nextPrice c.direction w.sqrtPrice w.liquidity w.remaining limit =
      .ok (next, reached))
    (howed : c.owedAndOut w.sqrtPrice next w.liquidity = .ok (owed, out)) :
    owed ≤ w.remaining := by
  obtain ⟨full, hfull, hend⟩ := nextPrice_ok hprice
  have hforward := priceFromAmount_forward hfull
  have hnext : reach c.direction w.sqrtPrice ≤ reach c.direction next ∧
      reach c.direction next ≤ reach c.direction full := by
    rcases hend with ⟨_, rfl, hle⟩ | ⟨_, rfl, _⟩
    · exact ⟨hahead, hle⟩
    · exact ⟨hforward, le_rfl⟩
  have hleast := (owedAndOut_ok hnext.1 howed).2.1
  exact Int.ofNat_le.mp (hleast.2 (amount_covers hfull hnext.1 hnext.2))

/-- What a step reads and checks on its way, and the walk it leaves. -/
theorem advance_inv {c : Call} {w moved : Walk} {boundary : Option Boundary} {reached : Bool}
    (h : c.advance w boundary = .ok (moved, reached)) :
    ∃ next owed out amountOut remaining : U128,
      nextPrice c.direction w.sqrtPrice w.liquidity w.remaining (c.stepLimit boundary) =
        .ok (next, reached) ∧
      next ≠ w.sqrtPrice ∧ c.owedAndOut w.sqrtPrice next w.liquidity = .ok (owed, out) ∧
      w.amountOut.val + out.val = amountOut.val ∧
      remaining.val + (if reached then min owed w.remaining else w.remaining).val =
        w.remaining.val ∧
      moved = { w with sqrtPrice := next, remaining, amountOut, steps := w.steps ++
        [{ amountIn := if reached then min owed w.remaining else w.remaining
           amountOut := out
           sqrtPriceStart := w.sqrtPrice
           sqrtPriceEnd := next
           liquidity := w.liquidity
           crossed := reached }] } := by
  unfold Call.advance at h
  obtain ⟨⟨next, reachedLimit⟩, hprice, h⟩ := bind_eq_ok_iff.mp h
  dsimp only at h
  split at h
  · cases h
  · rename_i hmoves
    obtain ⟨⟨owed, out⟩, howed, h⟩ := bind_eq_ok_iff.mp h
    obtain ⟨amountOut, hout, h⟩ := bind_eq_ok_iff.mp h
    obtain ⟨remaining, hin, h⟩ := bind_eq_ok_iff.mp h
    rw [okOr_eq_ok_iff, checkedAdd_eq_some_iff] at hout
    rw [okOr_eq_ok_iff, checkedSub_eq_some_iff] at hin
    cases h
    exact ⟨next, owed, out, amountOut, remaining, hprice, hmoves, howed, hout, hin, rfl⟩

theorem advance_ok {c : Call} {w moved : Walk} {boundary : Option Boundary} {reached : Bool}
    (hahead : reach c.direction w.sqrtPrice ≤ reach c.direction (c.stepLimit boundary))
    (h : c.advance w boundary = .ok (moved, reached)) :
    ∃ s, s.crossed = reached ∧ Advanced c w boundary moved s := by
  obtain ⟨next, owed, out, amountOut, remaining, hprice, hmoves, howed, hout, hin, rfl⟩ :=
    advance_inv h
  have hbound := min_owed hahead hprice howed
  obtain ⟨full, hfull, hend⟩ := nextPrice_ok hprice
  have hforward : reach c.direction w.sqrtPrice ≤ reach c.direction next ∧
      reach c.direction next ≤ reach c.direction full ∧
      reach c.direction next ≤ reach c.direction (c.stepLimit boundary) := by
    rcases hend with ⟨_, rfl, hle⟩ | ⟨_, rfl, hlt⟩
    · exact ⟨hahead, hle, le_rfl⟩
    · exact ⟨priceFromAmount_forward hfull, le_rfl, hlt.le⟩
  obtain ⟨hpositive, hleast, hcovered⟩ := owedAndOut_ok hforward.1 howed
  let taken : Step :=
    { amountIn := if reached = true then min owed w.remaining else w.remaining
      amountOut := out
      sqrtPriceStart := w.sqrtPrice
      sqrtPriceEnd := next
      liquidity := w.liquidity
      crossed := reached }
  have hin : remaining.val + taken.amountIn.val = w.remaining.val := hin
  have hspent : reached = false → taken.amountIn = w.remaining := by
    rintro rfl
    rfl
  have howes : reached = true → taken.amountIn = owed := by
    rintro rfl
    exact min_eq_left hbound
  refine ⟨taken, rfl, rfl, rfl, hpositive, rfl, hprice, ?_, hforward.2.2, hin, hout.symm, hspent,
    ?_, ?_, hcovered⟩
  · exact lt_of_le_of_ne hforward.1 fun he => hmoves (reach_inj.mp he).symm
  · intro htrue
    rw [howes htrue]
    exact hleast
  · cases hr : reached with
    | true =>
      rw [howes hr]
      exact hleast.1
    | false =>
      rw [hspent hr]
      exact amount_covers hfull hforward.1 hforward.2.1

/-! ### The input always suffices -/

/-- The failure of taking a step's input from what remains. -/
def starved : AmmError := .overflow "consume input"

/-- The failures of arithmetic and of the walk's guards: neither a step short of input
nor a range without liquidity. -/
abbrev Ordinary (e : AmmError) : Prop := e ≠ starved ∧ e ≠ .zeroLiquidity

theorem checkedAdd_fails (x y : CheckedU256) : FailsOnly Ordinary (x.checkedAdd y) :=
  .okOr (by decide)

theorem checkedMul_fails (x y : CheckedU256) : FailsOnly Ordinary (x.checkedMul y) :=
  .okOr (by decide)

theorem checkedDiv_fails (x y : CheckedU256) : FailsOnly Ordinary (x.checkedDiv y) := by
  unfold CheckedU256.checkedDiv
  split
  · exact .error (by decide)
  · exact .okOr (by decide)

theorem checkedDivCeil_fails (x y : CheckedU256) : FailsOnly Ordinary (x.checkedDivCeil y) := by
  refine .bind ?_ fun qr _ => ?_
  · unfold CheckedU256.checkedDivRem
    split
    · exact .error (by decide)
    · exact .bind (.okOr (by decide)) fun _ _ => .bind (.okOr (by decide)) fun _ _ => .ok _
  · dsimp only
    split
    · exact .ok _
    · exact checkedAdd_fails _ _

theorem checkedShl_fails (x : CheckedU256) (bits : ℕ) : FailsOnly Ordinary (x.checkedShl bits) := by
  unfold CheckedU256.checkedShl
  split
  · exact .ok _
  · exact .error (by decide)

theorem toU128_fails (x : CheckedU256) : FailsOnly Ordinary x.toU128 := by
  unfold CheckedU256.toU128
  split
  · exact .ok _
  · exact .error (by decide)

theorem divRounding_fails (x y : CheckedU256) (roundUp : Bool) :
    FailsOnly Ordinary (divRounding x y roundUp) := by
  unfold divRounding
  split
  · exact checkedDivCeil_fails x y
  · exact checkedDiv_fails x y

theorem deltaA_fails (sqrtA sqrtB liquidity : U128) (roundUp : Bool) :
    FailsOnly Ordinary (deltaA sqrtA sqrtB liquidity roundUp) := by
  unfold deltaA
  dsimp only
  split
  · exact .error ⟨nofun, nofun⟩
  · split
    · exact .ok _
    · refine .bind (checkedShl_fails _ _) fun _ _ => .bind (checkedMul_fails _ _) fun _ _ => ?_
      exact .bind (divRounding_fails _ _ _) fun _ _ =>
        .bind (divRounding_fails _ _ _) fun _ _ => toU128_fails _

theorem deltaB_fails (sqrtA sqrtB liquidity : U128) (roundUp : Bool) :
    FailsOnly Ordinary (deltaB sqrtA sqrtB liquidity roundUp) := by
  unfold deltaB
  dsimp only
  split
  · exact .ok _
  · refine .bind (checkedMul_fails _ _) fun _ _ => .bind (checkedShl_fails _ _) fun _ _ => ?_
    exact .bind (divRounding_fails _ _ _) fun _ _ => toU128_fails _

theorem priceFromAmount_fails (d : Direction) {sqrtPrice liquidity amountIn : U128}
    (hliq : liquidity ≠ 0) :
    FailsOnly Ordinary (priceFromAmount d sqrtPrice liquidity amountIn) := by
  cases d with
  | bToA =>
    simp only [priceFromAmount, nextSqrtPriceUp]
    split
    · exact absurd ‹_› hliq
    · refine .bind (checkedShl_fails _ _) fun _ _ => .bind (checkedDiv_fails _ _) fun _ _ => ?_
      exact .bind (toU128_fails _) fun _ _ => .okOr (by decide)
  | aToB =>
    simp only [priceFromAmount, nextSqrtPriceDown]
    split
    · exact absurd ‹_› hliq
    · refine .bind (checkedShl_fails _ _) fun _ _ => .bind (checkedMul_fails _ _) fun _ _ => ?_
      refine .bind (checkedAdd_fails _ _) fun _ _ => .bind (checkedMul_fails _ _) fun _ _ => ?_
      exact .bind (checkedDivCeil_fails _ _) fun _ _ => toU128_fails _

theorem owedAndOut_fails (c : Call) (sqrtPrice next liquidity : U128) :
    FailsOnly Ordinary (c.owedAndOut sqrtPrice next liquidity) := by
  unfold Call.owedAndOut
  split
  · exact .bind (deltaB_fails _ _ _ _) fun _ _ => .bind (deltaA_fails _ _ _ _) fun _ _ => .ok _
  · exact .bind (deltaA_fails _ _ _ _) fun _ _ => .bind (deltaB_fails _ _ _ _) fun _ _ => .ok _

/-- A step never asks for more input than remains. -/
theorem advance_fails {c : Call} {w : Walk} {boundary : Option Boundary}
    (hahead : reach c.direction w.sqrtPrice ≤ reach c.direction (c.stepLimit boundary))
    (hliq : w.liquidity ≠ 0) : FailsOnly Ordinary (c.advance w boundary) := by
  refine .bind ?_ ?_
  · exact .bind (priceFromAmount_fails _ hliq) fun _ _ => .ok _
  · rintro ⟨next, reachedLimit⟩ hprice
    dsimp only
    split
    · exact .error ⟨nofun, nofun⟩
    · refine .bind (owedAndOut_fails _ _ _ _) ?_
      rintro ⟨owed, out⟩ howed
      refine .bind (.okOr (by decide)) fun _ _ => .bind ?_ fun _ _ => .ok _
      have hbound : owed.val ≤ w.remaining.val := min_owed hahead hprice howed
      intro e hfail
      obtain ⟨hnone, _⟩ := okOr_eq_error_iff.mp hfail
      rw [checkedSub_eq_none_iff] at hnone
      split at hnone
      · rw [Fin.coe_min] at hnone
        omega
      · omega

/-- An empty range cannot be stepped from. -/
theorem advance_dry {c : Call} {w : Walk} {boundary : Option Boundary} (hliq : w.liquidity = 0) :
    c.advance w boundary = .error .zeroLiquidity := by
  have hprice : priceFromAmount c.direction w.sqrtPrice w.liquidity w.remaining =
      .error .zeroLiquidity := by
    cases c.direction with
    | bToA => exact if_pos hliq
    | aToB => exact if_pos hliq
  simp only [Call.advance, nextPrice, hprice, error_bind]

end StepRounding
