import Birdai.Amm.StepRounding

/-!
# The shape of every walk

Nothing is assumed of the tick source. The walk stops, its steps chain in the
direction of travel without passing the limit, and the books balance.
-/

namespace WalkShape

open WideArith CheckedWords Outcomes BoundedLoop SwapExactIn PricingSpecs StepRounding

/-- The steps lead from one price to another, each starting where the last ended. -/
def Chained : U128 → List Step → U128 → Prop
  | start, [], stop => start = stop
  | start, s :: rest, stop => s.sqrtPriceStart = start ∧ Chained s.sqrtPriceEnd rest stop

theorem chained_append {start mid stop : U128} {steps rest : List Step} :
    Chained start steps mid → Chained mid rest stop → Chained start (steps ++ rest) stop := by
  induction steps generalizing start with
  | nil =>
    rintro rfl hrest
    exact hrest
  | cons s steps ih => exact fun h hrest => ⟨h.1, ih h.2 hrest⟩

/-- What every walk keeps, whatever its source answers. -/
structure Balanced (c : Call) (first w : Walk) : Prop where
  chained : Chained first.sqrtPrice w.steps w.sqrtPrice
  forward : ∀ s ∈ w.steps,
    reach c.direction s.sqrtPriceStart < reach c.direction s.sqrtPriceEnd ∧
      reach c.direction s.sqrtPriceEnd ≤ reach c.direction c.priceLimit
  within : reach c.direction w.sqrtPrice ≤ reach c.direction c.priceLimit
  inputs : (w.steps.map fun s => s.amountIn.val).sum + w.remaining.val = first.remaining.val
  outputs : (w.steps.map fun s => s.amountOut.val).sum = w.amountOut.val
  crossings : w.crossings ≤ c.maxCrossings
  positive : ∀ s ∈ w.steps, 0 < s.sqrtPriceStart.val ∧ 0 < s.sqrtPriceEnd.val
  covers : ∀ s ∈ w.steps,
    Covers c.direction s.liquidity s.sqrtPriceStart s.sqrtPriceEnd s.amountIn.val
  covered : ∀ s ∈ w.steps,
    CoveredBy c.direction s.liquidity s.sqrtPriceStart s.sqrtPriceEnd s.amountOut.val
  least : ∀ s ∈ w.steps, s.crossed = true →
    IsLeast {paid | Covers c.direction s.liquidity s.sqrtPriceStart s.sqrtPriceEnd paid}
      s.amountIn.val

theorem balanced_start {c : Call} {w : Walk} (hsteps : w.steps = []) (hout : w.amountOut = 0)
    (hzero : w.crossings = 0)
    (hlimit : reach c.direction w.sqrtPrice ≤ reach c.direction c.priceLimit) :
    Balanced c w w where
  chained := by rw [hsteps]; rfl
  forward := by simp [hsteps]
  within := hlimit
  inputs := by simp [hsteps]
  outputs := by simp [hsteps, hout]
  crossings := by omega
  positive := by simp [hsteps]
  covers := by simp [hsteps]
  covered := by simp [hsteps]
  least := by simp [hsteps]

theorem Balanced.advance {c : Call} {first w moved : Walk} {s : Step} (h : Balanced c first w)
    (hadv : Advanced c w (c.nextBoundary w) moved s) : Balanced c first moved := by
  have hsteps : moved.steps = w.steps ++ [s] := by rw [hadv.moved_eq]
  have hprice : moved.sqrtPrice = s.sqrtPriceEnd := by rw [hadv.moved_eq]
  have hcross : moved.crossings = w.crossings := by rw [hadv.moved_eq]
  have hlimit := hadv.within.trans (stepLimit_ahead h.within).2
  refine ⟨?_, ?_, hprice ▸ hlimit, ?_, ?_, hcross ▸ h.crossings, ?_, ?_, ?_, ?_⟩
  · rw [hsteps, hprice]
    exact chained_append h.chained ⟨hadv.start, rfl⟩
  · simp only [hsteps, List.mem_append, List.mem_singleton]
    rintro t (ht | rfl)
    · exact h.forward t ht
    · exact ⟨hadv.start ▸ hadv.forward, hlimit⟩
  · simp only [hsteps, List.map_append, List.sum_append, List.map_singleton, List.sum_singleton]
    have hin := h.inputs
    have hspent := hadv.input
    omega
  · simp only [hsteps, List.map_append, List.sum_append, List.map_singleton, List.sum_singleton,
      hadv.output, h.outputs]
  · simp only [hsteps, List.mem_append, List.mem_singleton]
    rintro t (ht | rfl)
    · exact h.positive t ht
    · exact hadv.positive
  · simp only [hsteps, List.mem_append, List.mem_singleton]
    rintro t (ht | rfl)
    · exact h.covers t ht
    · exact hadv.covers
  · simp only [hsteps, List.mem_append, List.mem_singleton]
    rintro t (ht | rfl)
    · exact h.covered t ht
    · exact hadv.covered
  · simp only [hsteps, List.mem_append, List.mem_singleton]
    rintro t (ht | rfl)
    · exact h.least t ht
    · exact hadv.least

theorem Balanced.cross {c : Call} {first w : Walk} {b : Boundary} {p : Pass Walk}
    (h : Balanced c first w) (hcross : c.cross w b = .ok p) : Balanced c first p.state := by
  obtain ⟨hcap, net, liquidity, _, _, hstate, _⟩ := c.cross_ok hcross
  rw [hstate]
  exact ⟨h.chained, h.forward, h.within, h.inputs, h.outputs, hcap, h.positive, h.covers,
    h.covered, h.least⟩

/-- One pass, read through the facts of its step. -/
theorem pass_advanced {c : Call} {w : Walk} {p : Pass Walk}
    (hlimit : reach c.direction w.sqrtPrice ≤ reach c.direction c.priceLimit)
    (h : c.pass w = .ok p) :
    ((w.remaining = 0 ∨ w.sqrtPrice = c.priceLimit) ∧ p = .leave w) ∨
    (w.remaining ≠ 0 ∧ w.sqrtPrice ≠ c.priceLimit ∧ ∃ moved s,
      Advanced c w (c.nextBoundary w) moved s ∧
      ((p = .leave moved ∧ (s.crossed = true →
          ∀ b, c.nextBoundary w = some b → b.sqrtPrice ≠ moved.sqrtPrice)) ∨
        (s.crossed = true ∧ ∃ b, c.nextBoundary w = some b ∧
          b.sqrtPrice = moved.sqrtPrice ∧ c.cross moved b = .ok p))) := by
  rcases c.pass_cases h with hstop | ⟨hrem, hprice, moved, reached, hadv, hend⟩
  · exact .inl hstop
  · obtain ⟨s, rfl, hstep⟩ := advance_ok (stepLimit_ahead hlimit).1 hadv
    exact .inr ⟨hrem, hprice, moved, s, hstep, hend⟩

theorem Balanced.pass {c : Call} {first w : Walk} {p : Pass Walk} (h : Balanced c first w)
    (hpass : c.pass w = .ok p) : Balanced c first p.state := by
  rcases pass_advanced h.within hpass with
    ⟨_, rfl⟩ | ⟨_, _, moved, s, hadv, ⟨rfl, _⟩ | ⟨_, b, _, _, hcross⟩⟩
  · exact h
  · exact h.advance hadv
  · exact (h.advance hadv).cross hcross

/-- Crossing changes neither the price nor the amounts. -/
theorem cross_keeps {c : Call} {w : Walk} {b : Boundary} {p : Pass Walk}
    (h : c.cross w b = .ok p) : p.state.sqrtPrice = w.sqrtPrice ∧
      p.state.remaining = w.remaining ∧ p.state.amountOut = w.amountOut := by
  obtain ⟨_, net, liquidity, _, _, hstate, _⟩ := c.cross_ok h
  rw [hstate]
  exact ⟨rfl, rfl, rfl⟩

/-- However a pass ends, it ends at the price its step has reached. -/
theorem pass_reaches {c : Call} {w : Walk} {p : Pass Walk}
    (hlimit : reach c.direction w.sqrtPrice ≤ reach c.direction c.priceLimit)
    (h : c.pass w = .ok p) :
    ((w.remaining = 0 ∨ w.sqrtPrice = c.priceLimit) ∧ p = .leave w) ∨
    ∃ moved s, Advanced c w (c.nextBoundary w) moved s ∧ p.state.sqrtPrice = s.sqrtPriceEnd := by
  rcases pass_advanced hlimit h with hstop | ⟨_, _, moved, s, hadv, hend⟩
  · exact .inl hstop
  · have hmoved : moved.sqrtPrice = s.sqrtPriceEnd := by rw [hadv.moved_eq]
    refine .inr ⟨moved, s, hadv, ?_⟩
    rcases hend with ⟨rfl, _⟩ | ⟨_, b, _, _, hcross⟩
    · exact hmoved
    · exact (cross_keeps hcross).1.trans hmoved

/-- A pass never moves the price back, nor past the limit. -/
theorem pass_onward {c : Call} {w : Walk} {p : Pass Walk}
    (hlimit : reach c.direction w.sqrtPrice ≤ reach c.direction c.priceLimit)
    (hpass : c.pass w = .ok p) :
    reach c.direction w.sqrtPrice ≤ reach c.direction p.state.sqrtPrice ∧
      reach c.direction p.state.sqrtPrice ≤ reach c.direction c.priceLimit := by
  rcases pass_reaches hlimit hpass with ⟨_, rfl⟩ | ⟨moved, s, hadv, hend⟩
  · exact ⟨le_rfl, hlimit⟩
  · rw [hend]
    exact ⟨hadv.forward.le, hadv.within.trans (stepLimit_ahead hlimit).2⟩

/-- Between passes the price stays within the limit. -/
theorem comes_within {c : Call} {w t : Walk} (h : c.loop.Comes w t)
    (hlimit : reach c.direction w.sqrtPrice ≤ reach c.direction c.priceLimit) :
    reach c.direction t.sqrtPrice ≤ reach c.direction c.priceLimit := by
  induction h with
  | start => exact hlimit
  | again _ hb ih => exact (pass_onward ih hb).2

theorem run_onward {c : Call} {w final : Walk}
    (hlimit : reach c.direction w.sqrtPrice ≤ reach c.direction c.priceLimit)
    (hrun : c.loop.run w = .ok final) :
    reach c.direction w.sqrtPrice ≤ reach c.direction final.sqrtPrice :=
  (c.loop.run_invariant
    (I := fun u => reach c.direction w.sqrtPrice ≤ reach c.direction u.sqrtPrice ∧
      reach c.direction u.sqrtPrice ≤ reach c.direction c.priceLimit)
    (fun _ _ hu hp => ⟨hu.1.trans (pass_onward hu.2 hp).1, (pass_onward hu.2 hp).2⟩) hrun
    ⟨le_rfl, hlimit⟩).1

/-- A pass that crosses takes one step and counts one crossing. -/
theorem counts_of_crossing {c : Call} {w moved : Walk} {boundary : Option Boundary} {s : Step}
    {b : Boundary} {p : Pass Walk} (hadv : Advanced c w boundary moved s)
    (hcross : c.cross moved b = .ok p) :
    p.state.steps.length = w.steps.length + 1 ∧ p.state.crossings = w.crossings + 1 := by
  obtain ⟨_, net, liquidity, _, _, hstate, _⟩ := c.cross_ok hcross
  rw [hstate, hadv.moved_eq]
  exact ⟨List.length_append, rfl⟩

/-- Between passes, every step taken has crossed. -/
theorem steps_eq_crossings {c : Call} {first w t : Walk}
    (h : Balanced c first w ∧ w.steps.length = w.crossings)
    (hpass : c.pass w = .ok (.again t)) : t.steps.length = t.crossings := by
  rcases pass_advanced h.1.within hpass with
    ⟨_, hp⟩ | ⟨_, _, moved, s, hadv, ⟨hp, _⟩ | ⟨_, b, _, _, hcross⟩⟩
  · cases hp
  · cases hp
  · obtain ⟨hsteps, hcrossings⟩ := counts_of_crossing hadv hcross
    rw [Pass.state] at hsteps hcrossings
    rw [hsteps, hcrossings, h.2]

theorem steps_le_of_last_pass {c : Call} {first w t : Walk}
    (h : Balanced c first w ∧ w.steps.length = w.crossings)
    (hpass : c.pass w = .ok (.leave t)) : t.steps.length ≤ c.maxCrossings + 1 := by
  have hcap := h.1.crossings
  have hw := h.2
  rcases pass_advanced h.1.within hpass with
    ⟨_, hp⟩ | ⟨_, _, moved, s, hadv, ⟨hp, _⟩ | ⟨_, b, _, _, hcross⟩⟩
  · cases hp
    omega
  · cases hp
    rw [hadv.moved_eq]
    simp only [List.length_append, List.length_singleton]
    omega
  · obtain ⟨hsteps, _⟩ := counts_of_crossing hadv hcross
    rw [Pass.state] at hsteps
    omega

/-- The call of a swap, and what the swap reports once its walk is over. -/
theorem swapExactIn_ok {source : TickSource} {direction : Direction} {state : PoolState}
    {amountIn priceLimit : U128} {maxCrossings : ℕ} {r : SwapResult}
    (h : swapExactIn source direction state amountIn priceLimit maxCrossings = .ok r) :
    ∃ netInput fee final, takeFee amountIn state.feeRate = .ok (netInput, fee) ∧
      reach direction state.sqrtPrice ≤ reach direction priceLimit ∧
      state.liquidity ≠ 0 ∧
      (Call.loop { source, direction, priceLimit, maxCrossings }).run
        (Walk.start state netInput) = .ok final ∧
      feeCharged fee final.remaining netInput = .ok r.fee ∧
      r =
        { amountIn
          fee := r.fee
          amountOut := final.amountOut
          sqrtPriceStart := state.sqrtPrice
          sqrtPriceEnd := final.sqrtPrice
          tickStart := state.tick
          tickEnd := final.tick
          liquidityStart := state.liquidity
          liquidityEnd := final.liquidity
          inputConsumed := final.remaining = 0
          steps := final.steps } := by
  unfold swapExactIn at h
  split at h
  · cases h
  · split at h
    · cases h
    · rename_i hliq
      split at h
      · rename_i hlimit
        obtain ⟨⟨netInput, fee⟩, hfee, h⟩ := bind_eq_ok_iff.mp h
        obtain ⟨final, hrun, h⟩ := bind_eq_ok_iff.mp h
        obtain ⟨charged, hcharged, h⟩ := bind_eq_ok_iff.mp h
        cases h
        exact ⟨netInput, fee, final, hfee, limitReachable_iff.mp hlimit, hliq, hrun, hcharged, rfl⟩
      · cases h

/-- A refund only lowers the fee. -/
theorem feeCharged_le {fee remaining netInput charged : U128}
    (h : feeCharged fee remaining netInput = .ok charged) : charged ≤ fee := by
  unfold feeCharged at h
  split at h
  · cases h
    exact le_rfl
  · obtain ⟨product, _, h⟩ := bind_eq_ok_iff.mp h
    obtain ⟨quotient, _, h⟩ := bind_eq_ok_iff.mp h
    obtain ⟨refundable, _, h⟩ := bind_eq_ok_iff.mp h
    rw [okOr_eq_ok_iff, checkedSub_eq_some_iff] at h
    exact Fin.le_def.mpr (by omega)

/-- What a caller may rely on in every result. -/
structure WellBehaved (direction : Direction) (state : PoolState) (amountIn priceLimit : U128)
    (maxCrossings : ℕ) (r : SwapResult) : Prop where
  stepCount : r.steps.length ≤ maxCrossings + 1
  started : r.sqrtPriceStart = state.sqrtPrice
  chained : Chained r.sqrtPriceStart r.steps r.sqrtPriceEnd
  forward : ∀ s ∈ r.steps, reach direction s.sqrtPriceStart < reach direction s.sqrtPriceEnd
  withinLimit : reach direction r.sqrtPriceEnd ≤ reach direction priceLimit ∧
    ∀ s ∈ r.steps, reach direction s.sqrtPriceEnd ≤ reach direction priceLimit
  outputs : (r.steps.map fun s => s.amountOut.val).sum = r.amountOut.val
  inputs : ∃ netInput fee, takeFee amountIn state.feeRate = .ok (netInput, fee) ∧
    (r.steps.map fun s => s.amountIn.val).sum ≤ netInput.val ∧
    ((r.steps.map fun s => s.amountIn.val).sum = netInput.val ↔ r.inputConsumed = true) ∧
    r.fee ≤ fee

/-- Every successful walk balances and stays within one step of its crossing cap. -/
theorem run_balanced {c : Call} {state : PoolState} {netInput : U128} {final : Walk}
    (hlimit : reach c.direction state.sqrtPrice ≤ reach c.direction c.priceLimit)
    (hrun : c.loop.run (Walk.start state netInput) = .ok final) :
    Balanced c (Walk.start state netInput) final ∧ final.steps.length ≤ c.maxCrossings + 1 := by
  obtain ⟨last, hlast, hpass⟩ := c.loop.run_last_pass
    (I := fun w => Balanced c (Walk.start state netInput) w ∧ w.steps.length = w.crossings)
    (fun w t hw hpass => ⟨hw.1.pass hpass, steps_eq_crossings hw hpass⟩) hrun
    ⟨balanced_start rfl rfl rfl hlimit, rfl⟩
  exact ⟨hlast.1.pass hpass, steps_le_of_last_pass hlast hpass⟩

/-- A single tick, just below a pool that sells through it. -/
def sampleSource : TickSource where
  nextBoundaryUp _ := none
  nextBoundaryDown tick :=
    if 0 < tick then some ⟨0, 18446644073709551616, ⟨500, by decide⟩⟩ else none

def samplePool : PoolState :=
  { sqrtPrice := 18446744073709551616, liquidity := 1000000, tick := 5, feeRate := 2500 }

def sampleResult : SwapResult :=
  { amountIn := 1000
    fee := 2
    amountOut := 996
    sqrtPriceStart := 18446744073709551616
    sqrtPriceEnd := 18428354100556328421
    tickStart := 5
    tickEnd := 0
    liquidityStart := 1000000
    liquidityEnd := 999500
    inputConsumed := true
    steps :=
      [{ amountIn := 6
         amountOut := 5
         sqrtPriceStart := 18446744073709551616
         sqrtPriceEnd := 18446644073709551616
         liquidity := 1000000
         crossed := true },
       { amountIn := 992
         amountOut := 991
         sqrtPriceStart := 18446644073709551616
         sqrtPriceEnd := 18428354100556328421
         liquidity := 999500
         crossed := false }] }

/-- For any source, the walk stops within one pass more than its cap, and a
successful swap is well behaved. -/
theorem swap_well_behaved (source : TickSource) (direction : Direction) (state : PoolState)
    (amountIn priceLimit : U128) (maxCrossings : ℕ) :
    (∀ netInput, ∃ passes outcome, passes ≤ maxCrossings + 1 ∧
      Loop.Settles (Call.pass { source, direction, priceLimit, maxCrossings }) passes
        (Walk.start state netInput) outcome) ∧
    ∀ r, swapExactIn source direction state amountIn priceLimit maxCrossings = .ok r →
      WellBehaved direction state amountIn priceLimit maxCrossings r := by
  constructor
  · intro netInput
    obtain ⟨passes, hpasses, hsettles⟩ :=
      (Call.loop { source, direction, priceLimit, maxCrossings }).run_settles
        (Walk.start state netInput)
    exact ⟨passes, _, hpasses, hsettles⟩
  · intro r h
    obtain ⟨netInput, fee, final, hfee, hlimit, _, hrun, hcharged, hr⟩ := swapExactIn_ok h
    obtain ⟨hbal, hcount⟩ := run_balanced hlimit hrun
    have hsum := hbal.inputs
    have hnet : (Walk.start state netInput).remaining = netInput := rfl
    rw [hnet] at hsum
    rw [hr]
    refine ⟨hcount, rfl, hbal.chained, fun s hs => (hbal.forward s hs).1,
      ⟨hbal.within, fun s hs => (hbal.forward s hs).2⟩, hbal.outputs,
      netInput, fee, hfee, ?_, ?_, feeCharged_le hcharged⟩
    · dsimp only
      omega
    · simp only [decide_eq_true_iff, Fin.ext_iff]
      constructor
      · intro he
        exact (by omega : final.remaining.val = 0)
      · intro he
        have he : final.remaining.val = 0 := he
        omega

theorem swap_well_behaved_sample :
    WellBehaved .aToB samplePool 1000 1 3 sampleResult :=
  (swap_well_behaved sampleSource .aToB samplePool 1000 1 3).2 sampleResult (by decide +kernel)

/-- With no input left, or at the limit, the walk is over. -/
theorem pass_of_stop {c : Call} {w : Walk} (h : w.remaining = 0 ∨ w.sqrtPrice = c.priceLimit) :
    c.pass w = .ok (.leave w) := by
  by_cases hrem : w.remaining = 0
  · exact if_pos hrem
  · exact (if_neg hrem).trans (if_pos (h.resolve_left hrem))

/-- A pass that steps and does not land on its boundary leaves the loop. -/
theorem pass_of_advance {c : Call} {w moved : Walk} {reached : Bool} (hrem : w.remaining ≠ 0)
    (hprice : w.sqrtPrice ≠ c.priceLimit)
    (hmoved : c.advance w (c.nextBoundary w) = .ok (moved, reached))
    (hmissed : ∀ b, c.nextBoundary w = some b → b.sqrtPrice ≠ moved.sqrtPrice) :
    c.pass w = .ok (.leave moved) := by
  have hnone : (c.nextBoundary w).filter (fun b => b.sqrtPrice = moved.sqrtPrice) = none := by
    rw [Option.filter_eq_none_iff]
    intro b hb
    simpa using hmissed b hb
  simp only [Call.pass, if_neg hrem, if_neg hprice, hmoved, ok_bind, hnone]
  cases reached <;> rfl

/-- A step that lands on its boundary goes on to cross it. -/
theorem pass_of_landing {c : Call} {w moved : Walk} {b : Boundary} (hrem : w.remaining ≠ 0)
    (hprice : w.sqrtPrice ≠ c.priceLimit) (hb : c.nextBoundary w = some b)
    (hmoved : c.advance w (some b) = .ok (moved, true)) (hat : b.sqrtPrice = moved.sqrtPrice) :
    c.pass w = c.cross moved b := by
  have hkept : (some b).filter (fun b => b.sqrtPrice = moved.sqrtPrice) = some b :=
    Option.filter_eq_some_iff.mpr ⟨rfl, decide_eq_true hat⟩
  simp only [Call.pass, if_neg hrem, if_neg hprice, hb, hmoved, ok_bind, ↓reduceIte, hkept]

/-- The net of a boundary applies as it is upwards, and negated downwards if it can be. -/
theorem appliedNet_eq_ok_iff {c : Call} {b : Boundary} {net : I128} :
    c.appliedNet b = .ok net ↔ along c.direction b.liquidityNet.val < 2 ^ 127 ∧
      net.val = along c.direction b.liquidityNet.val := by
  have hrange := b.liquidityNet.property
  simp only [Call.appliedNet]
  generalize c.direction = d
  cases d with
  | bToA =>
    simp only [Except.ok.injEq, along]
    constructor
    · rintro rfl
      exact ⟨hrange.2, rfl⟩
    · rintro ⟨_, h⟩
      exact Subtype.ext h.symm
  | aToB =>
    simp only [okOr_eq_ok_iff, I128.checkedNeg, along]
    split
    · rename_i hmin
      simp only [reduceCtorEq, false_iff]
      omega
    · rename_i hmin
      simp only [Option.some.injEq]
      constructor
      · rintro rfl
        exact ⟨by omega, rfl⟩
      · rintro ⟨_, h⟩
        exact Subtype.ext h.symm

theorem applyLiquidityChange_eq_ok_iff {liquidity liquidity' : U128} {net : I128} :
    applyLiquidityChange liquidity net = .ok liquidity' ↔
      (liquidity'.val : ℤ) = liquidity.val + net.val := by
  simp only [applyLiquidityChange, I128.unsignedAbs]
  split
  · rw [okOr_eq_ok_iff, checkedAdd_eq_some_iff]
    dsimp only
    omega
  · rw [okOr_eq_ok_iff, checkedSub_eq_some_iff]
    dsimp only
    omega

/-- The liquidity behind a boundary, when the code can compute it. -/
theorem applied_eq_ok_iff {c : Call} {b : Boundary} {liquidity liquidity' : U128} :
    (∃ net, c.appliedNet b = .ok net ∧ applyLiquidityChange liquidity net = .ok liquidity') ↔
      along c.direction b.liquidityNet.val < 2 ^ 127 ∧
      (liquidity'.val : ℤ) = liquidity.val + along c.direction b.liquidityNet.val := by
  simp only [appliedNet_eq_ok_iff, applyLiquidityChange_eq_ok_iff]
  constructor
  · rintro ⟨net, ⟨hsigned, hval⟩, happlied⟩
    exact ⟨hsigned, hval ▸ happlied⟩
  · rintro ⟨hsigned, happlied⟩
    have hrange := b.liquidityNet.property
    have hlow : -2 ^ 127 ≤ along c.direction b.liquidityNet.val := by
      cases c.direction with
      | bToA => exact hrange.1
      | aToB =>
        simp only [along]
        omega
    exact ⟨⟨_, hlow, hsigned⟩, ⟨hsigned, rfl⟩, happlied⟩

theorem cross_fails (c : Call) (w : Walk) (b : Boundary) :
    FailsOnly Ordinary (c.cross w b) := by
  simp only [Call.cross]
  split
  · exact .error ⟨nofun, nofun⟩
  · refine .bind ?_ fun net _ => .bind ?_ fun _ _ => ?_
    · simp only [Call.appliedNet]
      split
      · exact .ok _
      · exact .okOr (by decide)
    · simp only [applyLiquidityChange]
      split
      · exact .okOr (by decide)
      · exact .okOr (by decide)
    · split
      · exact .ok _
      · exact .ok _

/-- A pass through a range with liquidity fails in ordinary ways only. -/
theorem pass_fails {c : Call} {w : Walk}
    (hlimit : reach c.direction w.sqrtPrice ≤ reach c.direction c.priceLimit)
    (hliq : w.liquidity ≠ 0) : FailsOnly Ordinary (c.pass w) := by
  simp only [Call.pass]
  split
  · exact .ok _
  · split
    · exact .ok _
    · refine .bind (advance_fails (stepLimit_ahead hlimit).1 hliq) ?_
      rintro ⟨moved, reachedLimit⟩ _
      dsimp only
      split
      · split
        · exact .ok _
        · exact cross_fails _ _ _
      · exact .ok _

/-- A pass runs dry exactly where input is left in a range without liquidity, short of
the limit. -/
theorem pass_dry_iff {c : Call} {w : Walk}
    (hlimit : reach c.direction w.sqrtPrice ≤ reach c.direction c.priceLimit) :
    c.pass w = .error .zeroLiquidity ↔
      w.liquidity = 0 ∧ w.remaining ≠ 0 ∧ w.sqrtPrice ≠ c.priceLimit := by
  constructor
  · intro h
    refine ⟨by_contra fun hliq => (pass_fails hlimit hliq _ h).2 rfl, fun hrem => ?_, fun hat => ?_⟩
    · rw [pass_of_stop (.inl hrem)] at h
      cases h
    · rw [pass_of_stop (.inr hat)] at h
      cases h
  · rintro ⟨hliq, hrem, hat⟩
    rw [Call.pass, if_neg hrem, if_neg hat]
    simp only [advance_dry hliq, error_bind]

theorem pass_avoids {c : Call} {w : Walk}
    (hlimit : reach c.direction w.sqrtPrice ≤ reach c.direction c.priceLimit) :
    Avoids starved (c.pass w) := by
  by_cases hliq : w.liquidity = 0
  · by_cases hstop : w.remaining = 0 ∨ w.sqrtPrice = c.priceLimit
    · rw [pass_of_stop hstop]
      exact .ok _
    · rw [(pass_dry_iff hlimit).mpr ⟨hliq, not_or.mp hstop⟩]
      exact .error nofun
  · exact (pass_fails hlimit hliq).avoids fun h => h.1 rfl

theorem takeFee_fails (amountIn : U128) (feeRate : U64) :
    FailsOnly Ordinary (takeFee amountIn feeRate) := by
  simp only [takeFee]
  split
  · exact .error ⟨nofun, nofun⟩
  · refine .bind (checkedMul_fails _ _) fun _ _ => ?_
    refine .bind (checkedDiv_fails _ _) fun _ _ => .bind (toU128_fails _) fun _ _ => ?_
    exact .bind (.okOr (by decide)) fun _ _ => .ok _

theorem feeCharged_fails (fee remaining netInput : U128) :
    FailsOnly Ordinary (feeCharged fee remaining netInput) := by
  simp only [feeCharged]
  split
  · exact .ok _
  · refine .bind (checkedMul_fails _ _) fun _ _ => ?_
    refine .bind (checkedDiv_fails _ _) fun _ _ => ?_
    exact .bind (toU128_fails _) fun _ _ => .okOr (by decide)

theorem swap_avoids (source : TickSource) (direction : Direction) (state : PoolState)
    (amountIn priceLimit : U128) (maxCrossings : ℕ) :
    Avoids starved (swapExactIn source direction state amountIn priceLimit maxCrossings) := by
  simp only [swapExactIn]
  split
  · exact .error nofun
  · split
    · exact .error nofun
    · split
      · rename_i hlimit
        refine .bind ((takeFee_fails _ _).avoids fun h => h.1 rfl) ?_
        rintro ⟨netInput, fee⟩ _
        refine .bind ?_ fun final _ => .bind ?_ fun _ _ => .ok _
        · intro hfail
          -- Only a pass can fail, and between passes the limit stays ahead.
          obtain ⟨w, hw, hpass⟩ := Loop.run_failing_pass _
            (I := Balanced { source, direction, priceLimit, maxCrossings }
              (Walk.start state netInput))
            (fun w t hw hpass => hw.pass (p := .again t) hpass) hfail
            (balanced_start rfl rfl rfl (limitReachable_iff.mp hlimit))
          exact pass_avoids hw.within hpass
        · exact (feeCharged_fails _ _ _).avoids fun h => h.1 rfl
      · exact .error nofun

/-- Every step of every successful swap favours the pool, and a step that
reached its target took the least input that covers it. No swap fails because a
step asked for more than remains. -/
theorem swap_favours_pool (source : TickSource) (direction : Direction) (state : PoolState)
    (amountIn priceLimit : U128) (maxCrossings : ℕ) :
    swapExactIn source direction state amountIn priceLimit maxCrossings ≠
      .error (.overflow "consume input") ∧
    ∀ r, swapExactIn source direction state amountIn priceLimit maxCrossings = .ok r →
      ∀ s ∈ r.steps,
        Covers direction s.liquidity s.sqrtPriceStart s.sqrtPriceEnd s.amountIn.val ∧
        CoveredBy direction s.liquidity s.sqrtPriceStart s.sqrtPriceEnd s.amountOut.val ∧
        (s.crossed = true →
          IsLeast {paid | Covers direction s.liquidity s.sqrtPriceStart s.sqrtPriceEnd paid}
            s.amountIn.val) := by
  refine ⟨swap_avoids source direction state amountIn priceLimit maxCrossings, ?_⟩
  intro r h
  obtain ⟨netInput, fee, final, _, hlimit, _, hrun, _, hr⟩ := swapExactIn_ok h
  obtain ⟨hbal, _⟩ := run_balanced hlimit hrun
  rw [hr]
  exact fun s hs => ⟨hbal.covers s hs, hbal.covered s hs, hbal.least s hs⟩

theorem swap_favours_pool_sample :
    IsLeast {paid | Covers .aToB 1000000 18446744073709551616 18446644073709551616 paid} 6 :=
  ((swap_favours_pool sampleSource .aToB samplePool 1000 1 3).2 sampleResult
    (by decide +kernel) _ List.mem_cons_self).2.2 rfl

end WalkShape
