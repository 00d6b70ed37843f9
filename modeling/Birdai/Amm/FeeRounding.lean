import Birdai.Amm.RangeLadder

/-!
# The fee on what was consumed

A swap consumes its net input, or what the ranges up to its limit take of it. On
truncation the fee is what is left after a floored refund, so it is the share of
the consumed part rounded up.
-/

namespace FeeRounding

open WideArith CheckedWords Outcomes BoundedLoop SwapExactIn PricingSpecs StepRounding WalkShape
open StepOrder PricingDomain RangeLadder

/-! ### What the ranges up to the limit take -/

/-- The cost of a whole step. No input reaches a price of zero. -/
def legCost (d : Direction) (liquidity start stop : U128) : ℕ :=
  if stop = 0 then 2 ^ 128 else cost d liquidity.val start.val stop.val

def boundaryAhead (c : Call) (sqrtPrice : U128) (tick : ℤ) : Option Boundary :=
  (offered c tick).filter fun b => isAhead c.direction b.sqrtPrice sqrtPrice

/-- The liquidity behind a boundary. -/
def liquidityBeyond (c : Call) (liquidity : U128) (b : Boundary) : Except AmmError U128 := do
  let net ← c.appliedNet b
  applyLiquidityChange liquidity net

/-- What the ranges from a price to the limit take, with the crossings still allowed. -/
def capacity (c : Call) : ℕ → U128 → U128 → ℤ → ℕ
  | 0, sqrtPrice, liquidity, tick =>
    if sqrtPrice = c.priceLimit then 0
    else legCost c.direction liquidity sqrtPrice (c.stepLimit (boundaryAhead c sqrtPrice tick))
  | allowed + 1, sqrtPrice, liquidity, tick =>
    if sqrtPrice = c.priceLimit then 0
    else
      let boundary := boundaryAhead c sqrtPrice tick
      let target := c.stepLimit boundary
      legCost c.direction liquidity sqrtPrice target +
        match boundary.filter (fun b => b.sqrtPrice = target) with
        | none => 0
        | some b =>
          match liquidityBeyond c liquidity b with
          | .error _ => 0
          | .ok beyond => capacity c allowed target beyond b.tick

/-- What is left for a walk to take before it comes to the limit. -/
abbrev limitRoom (c : Call) (w : Walk) : ℕ :=
  capacity c (c.maxCrossings - w.crossings) w.sqrtPrice w.liquidity w.tick

section capacity
variable {c : Call} {allowed : ℕ} {sqrtPrice liquidity : U128} {tick : ℤ}

theorem capacity_at_limit (h : sqrtPrice = c.priceLimit) :
    capacity c allowed sqrtPrice liquidity tick = 0 := by
  cases allowed with
  | zero => rw [capacity, if_pos h]
  | succ allowed => rw [capacity, if_pos h]

theorem legCost_le_capacity (h : sqrtPrice ≠ c.priceLimit) :
    legCost c.direction liquidity sqrtPrice (c.stepLimit (boundaryAhead c sqrtPrice tick)) ≤
      capacity c allowed sqrtPrice liquidity tick := by
  cases allowed with
  | zero => rw [capacity, if_neg h]
  | succ allowed =>
    rw [capacity, if_neg h]
    exact Nat.le_add_right _ _

/-- A step that lands on no boundary is the last one. -/
theorem capacity_of_last (h : sqrtPrice ≠ c.priceLimit)
    (hlast : ∀ b, boundaryAhead c sqrtPrice tick = some b →
      b.sqrtPrice ≠ c.stepLimit (boundaryAhead c sqrtPrice tick)) :
    capacity c allowed sqrtPrice liquidity tick =
      legCost c.direction liquidity sqrtPrice (c.stepLimit (boundaryAhead c sqrtPrice tick)) := by
  cases allowed with
  | zero => rw [capacity, if_neg h]
  | succ allowed =>
    have hnone : (boundaryAhead c sqrtPrice tick).filter
        (fun b => b.sqrtPrice = c.stepLimit (boundaryAhead c sqrtPrice tick)) = none := by
      rw [Option.filter_eq_none_iff]
      intro b hb
      simpa using hlast b hb
    rw [capacity, if_neg h]
    dsimp only
    rw [hnone]
    rfl

theorem capacity_of_landing {b : Boundary} {beyond : U128} (h : sqrtPrice ≠ c.priceLimit)
    (hb : boundaryAhead c sqrtPrice tick = some b)
    (hland : b.sqrtPrice = c.stepLimit (boundaryAhead c sqrtPrice tick))
    (hliq : liquidityBeyond c liquidity b = .ok beyond) :
    capacity c (allowed + 1) sqrtPrice liquidity tick =
      legCost c.direction liquidity sqrtPrice (c.stepLimit (boundaryAhead c sqrtPrice tick)) +
        capacity c allowed b.sqrtPrice beyond b.tick := by
  have hsome : (boundaryAhead c sqrtPrice tick).filter
      (fun b => b.sqrtPrice = c.stepLimit (boundaryAhead c sqrtPrice tick)) = some b := by
    rw [Option.filter_eq_some_iff]
    exact ⟨hb, by simpa using hland⟩
  rw [capacity, if_neg h]
  dsimp only
  rw [hsome]
  dsimp only
  rw [hliq, hland]

end capacity

/-- A step to its target consumes the cost of the leg; a shorter one, all that is left. -/
theorem advance_consumes {c : Call} {w moved : Walk} {reached : Bool}
    (hlimit : reach c.direction w.sqrtPrice ≤ reach c.direction c.priceLimit)
    (h : c.advance w (c.nextBoundary w) = .ok (moved, reached)) :
    (reached = true ∧ moved.sqrtPrice = c.stepLimit (c.nextBoundary w) ∧
        moved.liquidity = w.liquidity ∧
        moved.remaining.val + legCost c.direction w.liquidity w.sqrtPrice moved.sqrtPrice =
          w.remaining.val) ∨
      (reached = false ∧ moved.remaining.val = 0 ∧
        w.remaining.val ≤ legCost c.direction w.liquidity w.sqrtPrice
          (c.stepLimit (c.nextBoundary w))) := by
  obtain ⟨s, rfl, hadv⟩ := advance_ok (stepLimit_ahead hlimit).1 h
  have hprice : moved.sqrtPrice = s.sqrtPriceEnd := by rw [hadv.moved_eq]
  have hliq : moved.liquidity = w.liquidity := by rw [hadv.moved_eq]
  obtain ⟨hstart, hend⟩ := hadv.positive
  rw [hadv.start] at hstart
  obtain ⟨full, hfull, ⟨hreached, htarget, _⟩ | ⟨hshort, _, hfar⟩⟩ := nextPrice_ok hadv.priced
  · refine .inl ⟨hreached, hprice.trans htarget, hliq, ?_⟩
    have hleast := hadv.least hreached
    rw [hadv.liquidity, hadv.start] at hleast
    have hcost : cost c.direction w.liquidity.val w.sqrtPrice.val s.sqrtPriceEnd.val =
        s.amountIn.val := by
      apply Nat.le_antisymm
      · exact (cost_le_iff ⟨hstart, hend⟩ hadv.forward.le).mpr hleast.1
      · exact Int.ofNat_le.mp (hleast.2
          ((cost_le_iff ⟨hstart, hend⟩ hadv.forward.le).mp le_rfl))
    have hne : s.sqrtPriceEnd ≠ 0 := fun hz => by
      rw [hz] at hend
      exact absurd hend (by decide)
    rw [hprice, legCost, if_neg hne, hcost]
    exact hadv.input
  · refine .inr ⟨hshort, ?_, ?_⟩
    · have hspent := congrArg Fin.val (hadv.spent hshort)
      have hinput := hadv.input
      omega
    · rw [legCost]
      split
      · exact w.remaining.isLt.le
      · rename_i hne
        have hpos : 0 < (c.stepLimit (c.nextBoundary w)).val :=
          Nat.pos_of_ne_zero fun hz => hne (Fin.ext hz)
        have hahead := (stepLimit_ahead hlimit).1
        by_contra hlt
        have hcovers := (cost_le_iff ⟨hstart, hpos⟩ hahead).mp (not_le.mp hlt).le
        exact absurd ((reach_full_iff hfull hahead).mpr hcovers) (not_le.mpr hfar)

/-- Ending in `f`, a walk has consumed its input, or what the ranges up to the limit take
of it. -/
def Consumes (c : Call) (w f : Walk) : Prop :=
  f.remaining.val + min w.remaining.val (limitRoom c w) = w.remaining.val

theorem leave_consumes {c : Call} {w f : Walk}
    (hlimit : reach c.direction w.sqrtPrice ≤ reach c.direction c.priceLimit)
    (hpass : c.pass w = .ok (.leave f)) : Consumes c w f := by
  rw [Consumes]
  rcases c.pass_cases hpass with ⟨hstop, hp⟩ | ⟨_, hprice, moved, reached, hadv, hend⟩
  · cases hp
    rcases hstop with hzero | hprice
    · rw [hzero, Fin.val_zero, Nat.zero_min]
    · rw [limitRoom, capacity_at_limit hprice, Nat.min_zero, Nat.add_zero]
  · have hleg : legCost c.direction w.liquidity w.sqrtPrice
        (c.stepLimit (c.nextBoundary w)) ≤ limitRoom c w := legCost_le_capacity hprice
    rcases advance_consumes hlimit hadv with ⟨rfl, htarget, _, hspent⟩ | ⟨rfl, hempty, hshort⟩
    · rw [htarget] at hspent
      rcases hend with ⟨hp, hlast⟩ | ⟨_, b, _, _, hcross⟩
      · cases hp
        have hall : limitRoom c w = legCost c.direction w.liquidity w.sqrtPrice
            (c.stepLimit (c.nextBoundary w)) :=
          capacity_of_last hprice fun b hb => htarget ▸ hlast rfl b hb
        omega
      · -- The input ran out on the boundary.
        obtain ⟨_, net, liquidity, _, _, hstate, hleave⟩ := c.cross_ok hcross
        have hempty := congrArg Fin.val (hleave.mp rfl)
        have hkept := congrArg Walk.remaining hstate
        simp only [Pass.state] at hkept
        rw [Fin.val_zero] at hempty
        rw [hkept]
        omega
    · rcases hend with ⟨hp, _⟩ | ⟨hreached, _⟩
      · cases hp
        omega
      · cases hreached

/-- A pass that goes on consumes its leg, and leaves the rest of the ranges to take. -/
theorem again_consumes {c : Call} {w t : Walk}
    (hlimit : reach c.direction w.sqrtPrice ≤ reach c.direction c.priceLimit)
    (hpass : c.pass w = .ok (.again t)) :
    reach c.direction t.sqrtPrice ≤ reach c.direction c.priceLimit ∧
      ∀ f, Consumes c t f → Consumes c w f := by
  rcases c.pass_cases hpass with
    ⟨_, hp⟩ | ⟨_, hprice, moved, reached, hadv, ⟨hp, _⟩ | ⟨rfl, b, hb, hat, hcross⟩⟩
  · cases hp
  · cases hp
  · obtain ⟨hcounted, _, net, liquidity, hnet, hliq, rfl⟩ := cross_eq_again_iff.mp hcross
    rcases advance_consumes hlimit hadv with ⟨_, htarget, hkept, hspent⟩ | ⟨hreached, _⟩
    · have hcount : moved.crossings = w.crossings := (c.advance_keeps hadv).2.1
      have hbeyond : liquidityBeyond c w.liquidity b = .ok liquidity :=
        bind_eq_ok_iff.mpr ⟨net, hnet, hkept ▸ hliq⟩
      have hallowed : c.maxCrossings - w.crossings =
          c.maxCrossings - (moved.crossings + 1) + 1 := by omega
      have hall : limitRoom c w = legCost c.direction w.liquidity w.sqrtPrice
          (c.stepLimit (c.nextBoundary w)) +
          capacity c (c.maxCrossings - (moved.crossings + 1)) b.sqrtPrice liquidity b.tick := by
        rw [limitRoom, hallowed]
        exact capacity_of_landing hprice hb (hat.trans htarget) hbeyond
      rw [hat] at hall
      rw [htarget] at hspent hall
      refine ⟨htarget ▸ (stepLimit_ahead hlimit).2, fun f hrest => ?_⟩
      rw [Consumes, limitRoom] at hrest
      dsimp only at hrest
      rw [htarget] at hrest
      rw [Consumes]
      omega
    · cases hreached

/-- A walk consumes its input, or what the ranges up to the limit take of it. -/
theorem run_consumes (c : Call) {w f : Walk}
    (hlimit : reach c.direction w.sqrtPrice ≤ reach c.direction c.priceLimit)
    (hrun : c.loop.run w = .ok f) :
    f.remaining.val + min w.remaining.val (limitRoom c w) = w.remaining.val := by
  have key : reach c.direction w.sqrtPrice ≤ reach c.direction c.priceLimit →
      ∀ f, c.loop.run w = .ok f → Consumes c w f := by
    refine c.loop.run_induct
      (P := fun w r => reach c.direction w.sqrtPrice ≤ reach c.direction c.priceLimit →
        ∀ f, r = .ok f → Consumes c w f)
      ?_ ?_ ?_ w
    · intro w e _ _ f h
      cases h
    · intro w t hpass hlimit f h
      cases h
      exact leave_consumes hlimit hpass
    · intro w t hpass ih hlimit f hrun
      obtain ⟨hwithin, hmore⟩ := again_consumes hlimit hpass
      exact hmore f (ih hwithin f hrun)
  exact key hlimit f hrun

/-! ### The share of the fee -/

/-- The fee kept after refunding the unused part is its share of the used part, rounded up. -/
theorem feeCharged_val {fee remaining netInput charged : U128}
    (h : feeCharged fee remaining netInput = .ok charged) (hle : remaining.val ≤ netInput.val)
    (hnet : 0 < netInput.val) (k : ℕ) :
    charged.val ≤ k ↔ fee.val * (netInput.val - remaining.val) ≤ k * netInput.val := by
  have hsplit : fee.val * (netInput.val - remaining.val) + fee.val * remaining.val =
      fee.val * netInput.val := by
    rw [← Nat.mul_add, Nat.sub_add_cancel hle]
  unfold feeCharged at h
  split at h
  · rename_i hdone
    cases h
    have hzero : remaining.val = 0 := by
      rcases hdone with hz | hz
      · rw [hz]
        rfl
      · rw [hz] at hnet
        exact absurd hnet (by decide)
    rw [hzero, Nat.sub_zero]
    exact (Nat.mul_le_mul_right_iff hnet).symm
  · obtain ⟨product, hproduct, h⟩ := bind_eq_ok_iff.mp h
    obtain ⟨quotient, hquotient, h⟩ := bind_eq_ok_iff.mp h
    obtain ⟨refundable, hrefundable, h⟩ := bind_eq_ok_iff.mp h
    rw [CheckedU256.checkedMul_eq_ok_iff, CheckedU256.val_fromU128, CheckedU256.val_fromU128]
      at hproduct
    rw [CheckedU256.checkedDiv_eq_ok_iff, CheckedU256.val_fromU128] at hquotient
    rw [CheckedU256.toU128_eq_ok_iff] at hrefundable
    rw [okOr_eq_ok_iff, checkedSub_eq_some_iff] at h
    have hrefund : refundable.val = fee.val * remaining.val / netInput.val := by
      rw [← hrefundable, ← hquotient.2, ← hproduct]
    have hkeep : charged.val ≤ k ↔ fee.val ≤ k + refundable.val := by omega
    have hdown := Nat.div_mul_le_self (fee.val * remaining.val) netInput.val
    have hup : fee.val * remaining.val < (refundable.val + 1) * netInput.val :=
      Nat.lt_mul_of_div_lt (hrefund ▸ Nat.lt_succ_self _) hnet
    rw [← hrefund] at hdown
    rw [hkeep]
    constructor
    · intro hfee
      have hscaled := Nat.mul_le_mul_right netInput.val hfee
      rw [Nat.add_mul] at hscaled
      omega
    · intro hshare
      by_contra hlt
      have hscaled := Nat.mul_le_mul_right netInput.val
        (show k + (refundable.val + 1) ≤ fee.val by omega)
      rw [Nat.add_mul] at hscaled
      omega

/-- In these terms a kept fee is within the rate: what the floor of the whole fee
dropped must cover what the rate on the used part does not divide evenly. -/
theorem share_within_rate_iff {rate gross fee net consumed charged : ℕ} (hrate : rate < 1000000)
    (hfee : gross * rate / 1000000 = fee) (hgross : net + fee = gross)
    (hcharged : ∀ k, charged ≤ k ↔ fee * consumed ≤ k * net) :
    charged * 1000000 ≤ rate * (consumed + charged) ↔
      rate * consumed % (1000000 - rate) * net ≤ gross * rate % 1000000 * consumed := by
  have hrest : 0 < 1000000 - rate := by omega
  have hfloor := Nat.div_add_mod (gross * rate) 1000000
  rw [hfee] at hfloor
  have hround := Nat.div_add_mod (rate * consumed) (1000000 - rate)
  have hbound := hcharged (rate * consumed / (1000000 - rate))
  have hwithin : charged * 1000000 ≤ rate * (consumed + charged) ↔
      charged ≤ rate * consumed / (1000000 - rate) := by
    rw [Nat.le_div_iff_mul_le hrest, Nat.mul_add, Nat.mul_sub, Nat.mul_comm rate charged]
    have := Nat.mul_le_mul_left charged hrate.le
    omega
  rw [hwithin, hbound]
  generalize rate * consumed / (1000000 - rate) = quotient at hround
  generalize rate * consumed % (1000000 - rate) = uneven at hround ⊢
  generalize gross * rate % 1000000 = dropped at hfloor ⊢
  obtain ⟨rest, hsum⟩ : ∃ rest, rate + rest = 1000000 := ⟨1000000 - rate, by omega⟩
  have hrestEq : 1000000 - rate = rest := by omega
  rw [hrestEq] at hround hrest
  have hwhole : fee * rest + dropped = rate * net := by
    have hscaled : fee * 1000000 = fee * rate + fee * rest := by rw [← hsum, Nat.mul_add]
    have hgrossRate : gross * rate = rate * net + fee * rate := by
      rw [← hgross, Nat.add_mul, Nat.mul_comm net rate]
    omega
  have hleft : fee * consumed * rest + dropped * consumed = rate * net * consumed := by
    rw [← hwhole]
    ring
  have hright : quotient * net * rest + uneven * net = rate * net * consumed := by
    have hswap : rate * net * consumed = rate * consumed * net := Nat.mul_right_comm _ _ _
    rw [hswap, ← hround]
    ring
  constructor
  · intro hle
    have hscaled := Nat.mul_le_mul_right rest hle
    omega
  · intro hle
    apply Nat.le_of_mul_le_mul_right _ hrest
    omega

/-- An input used up pays the floor of the rate on it. -/
theorem whole_within_rate {rate gross fee net : ℕ}
    (hfee : gross * rate / 1000000 = fee) (hgross : net + fee = gross) :
    fee * 1000000 ≤ rate * (net + fee) := by
  rw [hgross, ← hfee, Nat.mul_comm rate gross]
  exact Nat.div_mul_le_self _ _

/-- What a swap takes of its input, the fee apart. -/
def netInputOf (amountIn : U128) (feeRate : U64) : ℕ :=
  amountIn.val - amountIn.val * feeRate.val / 1000000

/-- What the ranges between the pool's price and the limit of a swap take. -/
def swapRoom (source : TickSource) (direction : Direction) (state : PoolState)
    (priceLimit : U128) (maxCrossings : ℕ) : ℕ :=
  capacity { source, direction, priceLimit, maxCrossings } maxCrossings state.sqrtPrice
    state.liquidity state.tick

def stepsInput (r : SwapResult) : ℕ := (r.steps.map fun s => s.amountIn.val).sum

/-- The fee is within the rate on the gross amount taken exactly when the input is
consumed in full, or the floor of the whole fee dropped enough. -/
theorem fee_within_rate_iff (source : TickSource) (direction : Direction) (state : PoolState)
    (amountIn priceLimit : U128) (maxCrossings : ℕ) (r : SwapResult)
    (h : swapExactIn source direction state amountIn priceLimit maxCrossings = .ok r) :
    r.fee.val * 1000000 ≤ state.feeRate.val * (stepsInput r + r.fee.val) ↔
      netInputOf amountIn state.feeRate ≤
          swapRoom source direction state priceLimit maxCrossings ∨
        state.feeRate.val * swapRoom source direction state priceLimit maxCrossings %
            (1000000 - state.feeRate.val) * netInputOf amountIn state.feeRate ≤
          amountIn.val * state.feeRate.val % 1000000 *
            swapRoom source direction state priceLimit maxCrossings := by
  obtain ⟨netInput, fee, final, hfee, hlimit, _, hrun, hcharged, hr⟩ := swapExactIn_ok h
  obtain ⟨hrate, hfloor, hgross⟩ := takeFee_ok hfee
  have hbal := (run_balanced hlimit hrun).1.inputs
  have hspent := run_consumes { source, direction, priceLimit, maxCrossings } hlimit hrun
  have hnet : (Walk.start state netInput).remaining = netInput := rfl
  have hroom : limitRoom { source, direction, priceLimit, maxCrossings } (Walk.start state netInput)
      = swapRoom source direction state priceLimit maxCrossings := rfl
  rw [hnet] at hbal hspent
  rw [hroom] at hspent
  have hsteps : stepsInput r = (final.steps.map fun s => s.amountIn.val).sum := by
    rw [stepsInput, hr]
  rw [← hsteps] at hbal
  have hnetOf : netInputOf amountIn state.feeRate = netInput.val := by
    rw [netInputOf]
    omega
  rw [hnetOf]
  generalize swapRoom source direction state priceLimit maxCrossings = room at hspent ⊢
  rcases le_or_gt netInput.val room with hfull | hcut
  · have hempty : final.remaining = 0 := Fin.ext (show final.remaining.val = 0 by omega)
    have hwhole : r.fee = fee := by
      rw [feeCharged, if_pos (.inl hempty)] at hcharged
      exact (Except.ok.inj hcharged).symm
    have hconsumed : stepsInput r = netInput.val := by omega
    rw [hwhole, hconsumed]
    exact iff_of_true (whole_within_rate hfloor hgross) (.inl hfull)
  · have hconsumed : stepsInput r = room := by omega
    have hused : netInput.val - final.remaining.val = room := by omega
    rw [hconsumed, share_within_rate_iff hrate hfloor hgross fun k =>
      hused ▸ feeCharged_val hcharged (by omega) (by omega) k]
    exact (or_iff_right (not_le.mpr hcut)).symm

/-- A pool with no tick ahead. -/
def flatSource : TickSource := ⟨fun _ => none, fun _ => none⟩

def flatPool : PoolState :=
  { sqrtPrice := 18446744073709551616, liquidity := 1000000, tick := 0, feeRate := 2500 }

theorem fee_within_rate_whole :
    ∃ r, swapExactIn flatSource .bToA flatPool 1000 79226673515401279992447579061 3 = .ok r ∧
      r.fee.val * 1000000 ≤ flatPool.feeRate.val * (stepsInput r + r.fee.val) := by
  obtain ⟨r, hr⟩ := exists_ok (show (swapExactIn flatSource .bToA flatPool 1000
    79226673515401279992447579061 3).isOk = true by decide +kernel)
  exact ⟨r, hr, (fee_within_rate_iff _ _ _ _ _ _ r hr).mpr (.inl (by decide +kernel))⟩

/-- One unit is consumed, and one unit of fee is kept for it. -/
theorem truncated_fee_above_rate :
    ¬ ∀ (source : TickSource) (direction : Direction) (state : PoolState)
        (amountIn priceLimit : U128) (maxCrossings : ℕ) (r : SwapResult),
        swapExactIn source direction state amountIn priceLimit maxCrossings = .ok r →
          r.fee.val * 1000000 ≤ state.feeRate.val * (stepsInput r + r.fee.val) := by
  intro h
  obtain ⟨r, hr⟩ := exists_ok (show (swapExactIn flatSource .bToA flatPool 1000
    18446744073709551617 3).isOk = true by decide +kernel)
  have hfee : (swapExactIn flatSource .bToA flatPool 1000 18446744073709551617 3).map
      (fun r => (r.fee.val, stepsInput r)) = .ok (1, 1) := by decide +kernel
  rw [hr] at hfee
  have hvals := Except.ok.inj hfee
  have hbound := h _ _ _ _ _ _ r hr
  rw [(Prod.mk.inj hvals).1, (Prod.mk.inj hvals).2] at hbound
  exact absurd hbound (by decide)

end FeeRounding
