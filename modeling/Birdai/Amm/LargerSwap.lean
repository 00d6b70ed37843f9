import Birdai.Amm.StepOrder

/-!
# Swaps of different size

Walks that start abreast stay abreast until the smaller one runs out, so the
larger one goes at least as far and pays at least as much. A walk that stops and
is taken up again pays no more than the walk that never stopped.
-/

namespace LargerSwap

open WideArith CheckedWords Outcomes BoundedLoop SwapExactIn PricingSpecs StepRounding WalkShape
open StepOrder

/-- The same call under another crossing cap. -/
abbrev withCap (c : Call) (cap : ℕ) : Call := { c with maxCrossings := cap }

/-- Walks at one place, whatever each of them has left and has earned. -/
structure Abreast (w w' : Walk) : Prop where
  sqrtPrice : w'.sqrtPrice = w.sqrtPrice
  liquidity : w'.liquidity = w.liquidity
  tick : w'.tick = w.tick

/-- A step of a walk, with what it paid out as the most it could. -/
structure Taken (c : Call) (w moved : Walk) (s : Step) : Prop extends
    Advanced c w (c.nextBoundary w) moved s where
  greatest : IsGreatest
    {paid | CoveredBy c.direction w.liquidity w.sqrtPrice moved.sqrtPrice paid} s.amountOut.val

namespace Taken
variable {c : Call} {w moved : Walk} {s : Step} (h : Taken c w moved s)
include h

theorem price_eq : s.sqrtPriceEnd = moved.sqrtPrice := by
  rw [h.moved_eq]

theorem moved_liquidity : moved.liquidity = w.liquidity := by
  rw [h.moved_eq]

theorem moved_tick : moved.tick = w.tick := by
  rw [h.moved_eq]

theorem moved_crossings : moved.crossings = w.crossings := by
  rw [h.moved_eq]

theorem moves : reach c.direction w.sqrtPrice < reach c.direction moved.sqrtPrice :=
  h.price_eq ▸ h.forward

theorem paid : IsLeast
    {paid | Covers c.direction w.liquidity w.sqrtPrice moved.sqrtPrice paid} s.amountIn.val ∨
      s.crossed = false := by
  cases hcrossed : s.crossed with
  | true =>
    have hleast := h.least hcrossed
    rw [h.start, h.liquidity, h.price_eq] at hleast
    exact .inl hleast
  | false => exact .inr rfl

theorem covers_moved :
    Covers c.direction w.liquidity w.sqrtPrice moved.sqrtPrice s.amountIn.val := by
  have hcovers := h.covers
  rwa [h.start, h.liquidity, h.price_eq] at hcovers

/-- What was left covers the movement. -/
theorem covers_remaining :
    Covers c.direction w.liquidity w.sqrtPrice moved.sqrtPrice w.remaining.val := by
  have hinput := h.input
  exact covers_mono h.covers_moved (by omega)

theorem positive_end : 0 < moved.sqrtPrice.val := h.price_eq ▸ h.positive.2

theorem within_target :
    reach c.direction moved.sqrtPrice ≤ reach c.direction (c.stepLimit (c.nextBoundary w)) :=
  h.price_eq ▸ h.within

/-- The price of a step is its whole input's, cut short at the target. -/
theorem full_cases : ∃ full,
    priceFromAmount c.direction w.sqrtPrice w.liquidity w.remaining = .ok full ∧
      ((s.crossed = true ∧ moved.sqrtPrice = c.stepLimit (c.nextBoundary w) ∧
          reach c.direction moved.sqrtPrice ≤ reach c.direction full) ∨
        (s.crossed = false ∧ moved.sqrtPrice = full ∧
          reach c.direction full < reach c.direction (c.stepLimit (c.nextBoundary w)))) := by
  obtain ⟨full, hfull, hend⟩ := nextPrice_ok h.priced
  rw [h.price_eq] at hend
  refine ⟨full, hfull, hend.imp_left ?_⟩
  rintro ⟨hcrossed, hprice, hle⟩
  exact ⟨hcrossed, hprice, hprice ▸ hle⟩

theorem target_of_crossed (hcrossed : s.crossed = true) :
    moved.sqrtPrice = c.stepLimit (c.nextBoundary w) := by
  obtain ⟨full, _, ⟨_, hprice, _⟩ | ⟨hshort, _⟩⟩ := h.full_cases
  · exact hprice
  · rw [hcrossed] at hshort
    cases hshort

theorem short_of_target (hshort : s.crossed = false) :
    reach c.direction moved.sqrtPrice < reach c.direction (c.stepLimit (c.nextBoundary w)) := by
  obtain ⟨full, _, ⟨hcrossed, _⟩ | ⟨_, hprice, hlt⟩⟩ := h.full_cases
  · rw [hshort] at hcrossed
    cases hcrossed
  · exact hprice ▸ hlt

end Taken

/-- One pass, read through the step it took. -/
theorem pass_taken {c : Call} {w : Walk} {p : Pass Walk}
    (hlimit : reach c.direction w.sqrtPrice ≤ reach c.direction c.priceLimit)
    (h : c.pass w = .ok p) :
    ((w.remaining = 0 ∨ w.sqrtPrice = c.priceLimit) ∧ p = .leave w) ∨
    (w.remaining ≠ 0 ∧ w.sqrtPrice ≠ c.priceLimit ∧ ∃ moved s, Taken c w moved s ∧
      ((p = .leave moved ∧ (s.crossed = true →
          ∀ b, c.nextBoundary w = some b → b.sqrtPrice ≠ moved.sqrtPrice)) ∨
        (s.crossed = true ∧ ∃ b, c.nextBoundary w = some b ∧
          b.sqrtPrice = moved.sqrtPrice ∧ c.cross moved b = .ok p))) := by
  rcases c.pass_cases h with hstop | ⟨hrem, hprice, moved, reached, hmoved, hend⟩
  · exact .inl hstop
  · obtain ⟨s, rfl, hadv⟩ := advance_ok (stepLimit_ahead hlimit).1 hmoved
    exact .inr ⟨hrem, hprice, moved, s, ⟨hadv, advanced_greatest hadv hmoved⟩, hend⟩

theorem cross_counts {c : Call} {w : Walk} {b : Boundary} {p : Pass Walk}
    (h : c.cross w b = .ok p) : p.state.crossings = w.crossings + 1 := by
  obtain ⟨_, net, liquidity, _, _, hstate, _⟩ := c.cross_ok h
  rw [hstate]

theorem cross_abreast {c : Call} {cap : ℕ} {w w' : Walk} {b : Boundary} {p p' : Pass Walk}
    (abreast : Abreast w w') (h : c.cross w b = .ok p) (h' : (withCap c cap).cross w' b = .ok p') :
    Abreast p.state p'.state := by
  obtain ⟨_, net, liquidity, hnet, hliq, hstate, _⟩ := c.cross_ok h
  obtain ⟨_, net', liquidity', hnet', hliq', hstate', _⟩ := (withCap c cap).cross_ok h'
  obtain rfl := Except.ok.inj (hnet.symm.trans hnet')
  rw [abreast.liquidity] at hliq'
  obtain rfl := Except.ok.inj (hliq.symm.trans hliq')
  rw [hstate, hstate']
  exact ⟨abreast.sqrtPrice, rfl, rfl⟩

/-- A pass with input left and short of the limit takes a step, and its end keeps the
price and the amounts of that step. -/
theorem pass_steps {c : Call} {w : Walk} {p : Pass Walk}
    (hlimit : reach c.direction w.sqrtPrice ≤ reach c.direction c.priceLimit)
    (hrem : w.remaining ≠ 0) (hprice : w.sqrtPrice ≠ c.priceLimit) (h : c.pass w = .ok p) :
    ∃ moved s, Taken c w moved s ∧ p.state.sqrtPrice = moved.sqrtPrice ∧
      p.state.remaining = moved.remaining ∧ p.state.amountOut = moved.amountOut := by
  rcases pass_taken hlimit h with ⟨hzero | hdone, _⟩ | ⟨_, _, moved, s, hstep, hend⟩
  · exact absurd hzero hrem
  · exact absurd hdone hprice
  · refine ⟨moved, s, hstep, ?_⟩
    rcases hend with ⟨rfl, _⟩ | ⟨_, b, _, _, hcross⟩
    · exact ⟨rfl, rfl, rfl⟩
    · exact cross_keeps hcross

/-- A step that lands on the boundary it aimed at crosses it. -/
theorem pass_crosses {c : Call} {w : Walk} {p : Pass Walk} {b : Boundary}
    (hlimit : reach c.direction w.sqrtPrice ≤ reach c.direction c.priceLimit)
    (hrem : w.remaining ≠ 0) (hprice : w.sqrtPrice ≠ c.priceLimit)
    (hb : c.nextBoundary w = some b) (h : c.pass w = .ok p) :
    ∃ moved s, Taken c w moved s ∧
      (s.crossed = true → b.sqrtPrice = moved.sqrtPrice → c.cross moved b = .ok p) := by
  rcases pass_taken hlimit h with ⟨hzero | hdone, _⟩ | ⟨_, _, moved, s, hstep, hend⟩
  · exact absurd hzero hrem
  · exact absurd hdone hprice
  · refine ⟨moved, s, hstep, fun hcrossed hat => ?_⟩
    rcases hend with ⟨_, hmissed⟩ | ⟨_, a, ha, _, hcross⟩
    · exact absurd hat (hmissed hcrossed b hb)
    · obtain rfl := Option.some.inj (hb.symm.trans ha)
      exact hcross

/-- A pass never takes output back. -/
theorem pass_earns {c : Call} {w : Walk} {p : Pass Walk}
    (hlimit : reach c.direction w.sqrtPrice ≤ reach c.direction c.priceLimit)
    (h : c.pass w = .ok p) : w.amountOut.val ≤ p.state.amountOut.val := by
  rcases pass_taken hlimit h with ⟨_, rfl⟩ | ⟨hrem, hprice, _⟩
  · exact le_rfl
  · obtain ⟨moved, s, hstep, _, _, hearned⟩ := pass_steps hlimit hrem hprice h
    have hout := hstep.output
    rw [hearned]
    omega

theorem run_earns {c : Call} {w f : Walk}
    (hlimit : reach c.direction w.sqrtPrice ≤ reach c.direction c.priceLimit)
    (hrun : c.loop.run w = .ok f) : w.amountOut.val ≤ f.amountOut.val :=
  (c.loop.run_invariant
    (I := fun u => reach c.direction u.sqrtPrice ≤ reach c.direction c.priceLimit ∧
      w.amountOut.val ≤ u.amountOut.val)
    (fun _ _ hu hp => ⟨(pass_onward hu.1 hp).2, hu.2.trans (pass_earns hu.1 hp)⟩) hrun
    ⟨hlimit, le_rfl⟩).2

/-- What a successful run reaches lies past the state its first pass left behind. -/
theorem run_past_first {c : Call} {w f : Walk} {p : Pass Walk}
    (hlimit : reach c.direction w.sqrtPrice ≤ reach c.direction c.priceLimit)
    (hp : c.pass w = .ok p) (hrun : p = .leave f ∨ ∃ t, p = .again t ∧ c.loop.run t = .ok f) :
    reach c.direction p.state.sqrtPrice ≤ reach c.direction f.sqrtPrice ∧
      p.state.amountOut.val ≤ f.amountOut.val := by
  rcases hrun with rfl | ⟨t, rfl, hrun⟩
  · exact ⟨le_rfl, le_rfl⟩
  · have hwithin := (pass_onward hlimit hp).2
    exact ⟨run_onward hwithin hrun, run_earns hwithin hrun⟩

/-! ### One pass of each -/

theorem larger_ne_zero {x y : U128} (hle : x ≤ y) (hx : x ≠ 0) : y ≠ 0 := by
  rintro rfl
  have hle : x.val ≤ 0 := hle
  exact hx (Fin.ext (by rw [Fin.val_zero]; omega))

section abreast
variable {c : Call} {cap : ℕ} {w w' moved moved' : Walk} {s s' : Step}
  (abreast : Abreast w w')
include abreast

theorem nextBoundary_abreast : c.nextBoundary w' = c.nextBoundary w := by
  simp only [Call.nextBoundary, abreast.sqrtPrice, abreast.tick]

variable (hstep : Taken c w moved s) (hstep' : Taken (withCap c cap) w' moved' s')
  (hle : w.remaining ≤ w'.remaining)
include hstep hstep'

theorem moved_abreast (hsame : moved'.sqrtPrice = moved.sqrtPrice) : Abreast moved moved' where
  sqrtPrice := hsame
  liquidity := by rw [hstep.moved_liquidity, hstep'.moved_liquidity, abreast.liquidity]
  tick := by rw [hstep.moved_tick, hstep'.moved_tick, abreast.tick]

include hle

/-- The larger step goes at least as far, and crosses what the smaller one crosses. -/
theorem step_reach : reach c.direction moved.sqrtPrice ≤ reach c.direction moved'.sqrtPrice ∧
    (s.crossed = true → s'.crossed = true ∧ moved'.sqrtPrice = moved.sqrtPrice) := by
  obtain ⟨full, hfull, hend⟩ := hstep.full_cases
  obtain ⟨full', hfull', hend'⟩ := hstep'.full_cases
  rw [abreast.sqrtPrice, abreast.liquidity] at hfull'
  have hmono := priceFromAmount_mono hfull hfull' hle
  have htarget : (withCap c cap).stepLimit ((withCap c cap).nextBoundary w') =
      c.stepLimit (c.nextBoundary w) := congrArg _ (nextBoundary_abreast abreast)
  rw [htarget] at hend'
  rcases hend with ⟨hcrossed, hprice, hreach⟩ | ⟨hshort, hprice, hlt⟩
  · rcases hend' with ⟨hcrossed', hprice', _⟩ | ⟨_, _, hlt'⟩
    · rw [hprice, hprice']
      exact ⟨le_rfl, fun _ => ⟨hcrossed', rfl⟩⟩
    · rw [hprice] at hreach
      exact absurd (hreach.trans hmono) (not_le.mpr hlt')
  · refine ⟨?_, fun hcrossed => absurd hcrossed (by rw [hshort]; decide)⟩
    rw [hprice]
    rcases hend' with ⟨_, hprice', _⟩ | ⟨_, hprice', _⟩
    · exact hprice' ▸ hlt.le
    · exact hprice' ▸ hmono

theorem step_out : s.amountOut.val ≤ s'.amountOut.val := by
  have hgreatest := hstep'.greatest
  rw [abreast.sqrtPrice, abreast.liquidity] at hgreatest
  have hcovered := coveredBy_farther hstep.positive_end hstep.greatest.1
    (step_reach abreast hstep hstep' hle).1
  exact Int.ofNat_le.mp (hgreatest.2 hcovered)

/-- Where both cross, they pay and earn the same. -/
theorem step_same (hcrossed : s.crossed = true) :
    s'.amountIn.val = s.amountIn.val ∧ s'.amountOut.val = s.amountOut.val := by
  obtain ⟨hcrossed', hprice⟩ := (step_reach abreast hstep hstep' hle).2 hcrossed
  have hleast := hstep.paid.resolve_right (by rw [hcrossed]; decide)
  have hleast' := hstep'.paid.resolve_right (by rw [hcrossed']; decide)
  have hgreatest' := hstep'.greatest
  rw [abreast.sqrtPrice, abreast.liquidity, hprice] at hleast' hgreatest'
  exact ⟨Int.ofNat_inj.mp (hleast'.unique hleast),
    Int.ofNat_inj.mp (hgreatest'.unique hstep.greatest)⟩

end abreast

/-- What two walks spent and earned on the way to where they are abreast again. -/
structure Lockstep (w w' t t' : Walk) : Prop extends Abreast t t' where
  left : t'.remaining.val + w.remaining.val = t.remaining.val + w'.remaining.val
  earned : t'.amountOut.val + w.amountOut.val = t.amountOut.val + w'.amountOut.val
  counted : t'.crossings + w.crossings = t.crossings + w'.crossings

theorem Lockstep.cross {c : Call} {cap : ℕ} {w w' t t' : Walk} {b : Boundary} {p p' : Pass Walk}
    (h : Lockstep w w' t t') (hcross : c.cross t b = .ok p)
    (hcross' : (withCap c cap).cross t' b = .ok p') : Lockstep w w' p.state p'.state := by
  obtain ⟨_, hkeep, hkeepOut⟩ := cross_keeps hcross
  obtain ⟨_, hkeep', hkeepOut'⟩ := cross_keeps hcross'
  have hcount := cross_counts hcross
  have hcount' := cross_counts hcross'
  have hcounted := h.counted
  refine ⟨cross_abreast h.toAbreast hcross hcross', ?_, ?_, by omega⟩
  · rw [hkeep, hkeep']
    exact h.left
  · rw [hkeepOut, hkeepOut']
    exact h.earned

theorem Lockstep.more {w w' t t' : Walk} (h : Lockstep w w' t t')
    (hle : w.remaining ≤ w'.remaining) : t.remaining ≤ t'.remaining := by
  have hleft := h.left
  have hle : w.remaining.val ≤ w'.remaining.val := hle
  exact Fin.le_def.mpr (by omega)

/-- A boundary the smaller walk crosses, the larger one crosses with it. -/
theorem pass_lockstep {c : Call} {cap : ℕ} {w w' moved : Walk} {s : Step} {b : Boundary}
    {p' : Pass Walk} (abreast : Abreast w w')
    (hlimit : reach c.direction w.sqrtPrice ≤ reach c.direction c.priceLimit)
    (hle : w.remaining ≤ w'.remaining) (hrem : w.remaining ≠ 0)
    (hprice : w.sqrtPrice ≠ c.priceLimit) (hstep : Taken c w moved s)
    (hcrossed : s.crossed = true) (hb : c.nextBoundary w = some b)
    (hat : b.sqrtPrice = moved.sqrtPrice) (hp' : (withCap c cap).pass w' = .ok p') :
    ∃ moved', Lockstep w w' moved moved' ∧ (withCap c cap).cross moved' b = .ok p' := by
  have hlimit' : reach c.direction w'.sqrtPrice ≤ reach c.direction c.priceLimit :=
    abreast.sqrtPrice ▸ hlimit
  have hseen : (withCap c cap).nextBoundary w' = some b :=
    (nextBoundary_abreast (c := c) abreast).trans hb
  obtain ⟨moved', s', hstep', hcross'⟩ := pass_crosses (c := withCap c cap) hlimit'
    (larger_ne_zero hle hrem) (abreast.sqrtPrice ▸ hprice) hseen hp'
  obtain ⟨hcrossed', hsame⟩ := (step_reach abreast hstep hstep' hle).2 hcrossed
  obtain ⟨hin, hout⟩ := step_same abreast hstep hstep' hle hcrossed
  have hleft := hstep.input
  have hleft' := hstep'.input
  have hearned := hstep.output
  have hearned' := hstep'.output
  have hcount := hstep.moved_crossings
  have hcount' := hstep'.moved_crossings
  refine ⟨moved', ⟨moved_abreast abreast hstep hstep' hsame, ?_, ?_, ?_⟩,
    hcross' hcrossed' (hat.trans hsame.symm)⟩
  · omega
  · omega
  · omega

/-- A walk that goes on from a crossing takes along every walk with more left. -/
theorem goes_on {c : Call} {cap : ℕ} {w w' t f' : Walk} {b : Boundary} {p' : Pass Walk}
    (hcross : c.cross w b = .ok (.again t)) (hcross' : (withCap c cap).cross w' b = .ok p')
    (hle : w.remaining ≤ w'.remaining)
    (hrest : p' = .leave f' ∨ ∃ t', p' = .again t' ∧ (withCap c cap).loop.run t' = .ok f') :
    (withCap c cap).loop.run p'.state = .ok f' := by
  obtain ⟨_, _, _, _, _, _, hleave⟩ := c.cross_ok hcross
  obtain ⟨_, _, _, _, _, _, hleave'⟩ := (withCap c cap).cross_ok hcross'
  have hgoes : w.remaining ≠ 0 := fun hz => nomatch hleave.mpr hz
  rcases hrest with rfl | ⟨t', rfl, hrest⟩
  · exact absurd (hleave'.mp rfl) (larger_ne_zero hle hgoes)
  · exact hrest

/-- When the smaller walk goes on from a crossing, so does the larger one. -/
theorem run_lockstep {c : Call} {cap : ℕ} {w w' t f' : Walk} (abreast : Abreast w w')
    (hlimit : reach c.direction w.sqrtPrice ≤ reach c.direction c.priceLimit)
    (hle : w.remaining ≤ w'.remaining) (hp : c.pass w = .ok (.again t))
    (hrun' : (withCap c cap).loop.run w' = .ok f') :
    ∃ t', Lockstep w w' t t' ∧ (withCap c cap).loop.run t' = .ok f' := by
  obtain ⟨p', hp', hrest⟩ := (withCap c cap).loop.run_ok_cases hrun'
  rcases pass_taken hlimit hp with
    ⟨_, hstay⟩ | ⟨hrem, hprice, moved, s, hstep, ⟨hleave, _⟩ | ⟨hcrossed, b, hb, hat, hcross⟩⟩
  · cases hstay
  · cases hleave
  · obtain ⟨moved', hlock, hcross'⟩ :=
      pass_lockstep abreast hlimit hle hrem hprice hstep hcrossed hb hat hp'
    exact ⟨p'.state, hlock.cross hcross hcross', goes_on hcross hcross' (hlock.more hle) hrest⟩

theorem Lockstep.trans {w w' t t' u u' : Walk} (h : Lockstep w w' t t')
    (h' : Lockstep t t' u u') : Lockstep w w' u u' := by
  have hleft := h.left
  have hleft' := h'.left
  have hearned := h.earned
  have hearned' := h'.earned
  have hcounted := h.counted
  have hcounted' := h'.counted
  exact ⟨h'.toAbreast, by omega, by omega, by omega⟩

/-- Wherever the smaller walk comes to, the larger one comes along. -/
theorem comes_lockstep {c : Call} {cap : ℕ} {w w' t f' : Walk} (abreast : Abreast w w')
    (hlimit : reach c.direction w.sqrtPrice ≤ reach c.direction c.priceLimit)
    (hle : w.remaining ≤ w'.remaining) (hrun' : (withCap c cap).loop.run w' = .ok f')
    (h : c.loop.Comes w t) : ∃ t', Lockstep w w' t t' ∧ (withCap c cap).loop.run t' = .ok f' := by
  induction h with
  | start =>
    exact ⟨w', ⟨abreast, Nat.add_comm _ _, Nat.add_comm _ _, Nat.add_comm _ _⟩, hrun'⟩
  | again ht hb ih =>
    obtain ⟨t', hlock, hrest⟩ := ih
    obtain ⟨u', hnext, hrest⟩ :=
      run_lockstep hlock.toAbreast (comes_within ht hlimit) (hlock.more hle) hb hrest
    exact ⟨u', hlock.trans hnext, hrest⟩

/-- In its last pass the smaller walk goes no farther than the larger one will. -/
theorem last_larger {c : Call} {cap : ℕ} {w w' f f' : Walk} (abreast : Abreast w w')
    (hlimit : reach c.direction w.sqrtPrice ≤ reach c.direction c.priceLimit)
    (hle : w.remaining ≤ w'.remaining) (hlast : c.pass w = .ok (.leave f))
    (hrun' : (withCap c cap).loop.run w' = .ok f') :
    reach c.direction f.sqrtPrice ≤ reach c.direction f'.sqrtPrice ∧
      f.amountOut.val + w'.amountOut.val ≤ f'.amountOut.val + w.amountOut.val := by
  have hlimit' : reach c.direction w'.sqrtPrice ≤ reach c.direction c.priceLimit :=
    abreast.sqrtPrice ▸ hlimit
  rcases pass_taken hlimit hlast with ⟨_, hstay⟩ | ⟨hrem, hprice, _⟩
  · cases hstay
    have honward := run_onward (c := withCap c cap) hlimit' hrun'
    have hearned := run_earns (c := withCap c cap) hlimit' hrun'
    exact ⟨abreast.sqrtPrice ▸ honward, by omega⟩
  · obtain ⟨p', hp', hrest⟩ := (withCap c cap).loop.run_ok_cases hrun'
    obtain ⟨moved, s, hstep, hat, _, hearned⟩ := pass_steps hlimit hrem hprice hlast
    obtain ⟨moved', s', hstep', hat', _, hearned'⟩ := pass_steps (c := withCap c cap) hlimit'
      (larger_ne_zero hle hrem) (abreast.sqrtPrice ▸ hprice) hp'
    have hpast := run_past_first (c := withCap c cap) hlimit' hp' hrest
    have hreach := (step_reach abreast hstep hstep' hle).1
    have hout := step_out abreast hstep hstep' hle
    have htotal := hstep.output
    have htotal' := hstep'.output
    simp only [Pass.state] at hat hearned
    rw [hat', hearned'] at hpast
    rw [hat, hearned]
    exact ⟨hreach.trans hpast.1, by omega⟩

/-- The larger of two walks from one place goes at least as far and earns at least as much. -/
theorem run_larger {c : Call} {cap : ℕ} {w w' f f' : Walk} (abreast : Abreast w w')
    (hlimit : reach c.direction w.sqrtPrice ≤ reach c.direction c.priceLimit)
    (hle : w.remaining ≤ w'.remaining) (hrun : c.loop.run w = .ok f)
    (hrun' : (withCap c cap).loop.run w' = .ok f') :
    reach c.direction f.sqrtPrice ≤ reach c.direction f'.sqrtPrice ∧
      f.amountOut.val + w'.amountOut.val ≤ f'.amountOut.val + w.amountOut.val := by
  obtain ⟨t, ht, hlast⟩ := c.loop.run_eq_ok_iff.mp hrun
  obtain ⟨t', hlock, hrest⟩ := comes_lockstep abreast hlimit hle hrun' ht
  obtain ⟨hreach, hout⟩ :=
    last_larger hlock.toAbreast (comes_within ht hlimit) (hlock.more hle) hlast hrest
  have hearned := hlock.earned
  exact ⟨hreach, by omega⟩

/-! ### A walk taken up again -/

/-- A fresh walk from where another one ended. -/
def resume (f : Walk) (amountIn : U128) : Walk :=
  { f with remaining := amountIn, amountOut := 0, steps := [], crossings := 0 }

theorem abreast_resume (f w' : Walk) (amountIn : U128) (abreast : Abreast f w') :
    Abreast (resume f amountIn) w' :=
  ⟨abreast.sqrtPrice, abreast.liquidity, abreast.tick⟩

/-- With nothing to spend or nowhere to go, the resumed walk earns nothing. -/
theorem resume_idle {c : Call} {f g : Walk} {y : U128}
    (hidle : y = 0 ∨ f.sqrtPrice = c.priceLimit) (hrun : c.loop.run (resume f y) = .ok g) :
    g.amountOut.val = 0 := by
  rw [c.loop.run_of_leave (pass_of_stop hidle)] at hrun
  cases hrun
  rfl

/-- A target that is not the boundary's price is the price limit. -/
theorem stepLimit_missed {c : Call} {boundary : Option Boundary} {p : U128}
    (hmissed : ∀ b, boundary = some b → b.sqrtPrice ≠ p) (hat : p = c.stepLimit boundary) :
    c.stepLimit boundary = c.priceLimit := by
  have htarget := reach_stepLimit c boundary
  cases boundary with
  | none => exact reach_inj.mp (htarget.trans (min_self _))
  | some b =>
    rcases min_choice (reach c.direction b.sqrtPrice) (reach c.direction c.priceLimit) with hb | hb
    · exact absurd (reach_inj.mp (htarget.trans hb)).symm (hat ▸ hmissed b rfl)
    · exact reach_inj.mp (htarget.trans hb)

/-- Short of its target, a walk that is taken up again sees the same boundary. -/
theorem nextBoundary_resume {c : Call} {w f : Walk} (y : U128) (htick : f.tick = w.tick)
    (hpast : reach c.direction w.sqrtPrice ≤ reach c.direction f.sqrtPrice)
    (hshort : reach c.direction f.sqrtPrice <
      reach c.direction (c.stepLimit (c.nextBoundary w))) :
    c.nextBoundary (resume f y) = c.nextBoundary w := by
  have hoffered : offered c (resume f y).tick = offered c w.tick := congrArg _ htick
  rw [reach_stepLimit, nextBoundary_eq_filter] at hshort
  rw [nextBoundary_eq_filter, nextBoundary_eq_filter, hoffered]
  cases hb : offered c w.tick with
  | none => rfl
  | some b =>
    rw [hb] at hshort
    rw [Option.filter_some] at hshort ⊢
    rw [Option.filter_some]
    by_cases hahead : isAhead c.direction b.sqrtPrice w.sqrtPrice = true
    · rw [if_pos hahead] at hshort ⊢
      exact if_pos (isAhead_iff.mpr (hshort.trans_le (min_le_left _ _)))
    · rw [if_neg hahead]
      apply if_neg
      rw [isAhead_iff, not_lt] at hahead ⊢
      exact hahead.trans hpast

section resumed
variable {c : Call} {cap cap' : ℕ} {w w' f moved moved' : Walk} {s s₂ s' : Step} {y : U128}
  (abreast : Abreast w w') (hsum : w'.remaining.val = w.remaining.val + y.val)
  (hstep : Taken c w f s) (hshort : s.crossed = false)
  (hstep₂ : Taken (withCap c cap') (resume f y) moved s₂)
  (hstep' : Taken (withCap c cap) w' moved' s')
include abreast hsum hstep hshort hstep₂ hstep'

/-- In the range where the first walk stopped, the whole order still goes at least as
far as the resumed one, and reaches a boundary with it. -/
theorem resumed_reach : reach c.direction moved.sqrtPrice ≤ reach c.direction moved'.sqrtPrice ∧
    (s₂.crossed = true → s'.crossed = true ∧ moved'.sqrtPrice = moved.sqrtPrice) := by
  have hliq : (resume f y).liquidity = w.liquidity := hstep.moved_liquidity
  have hseen : (withCap c cap').nextBoundary (resume f y) = c.nextBoundary w :=
    nextBoundary_resume (c := c) y hstep.moved_tick hstep.moves.le (hstep.short_of_target hshort)
  have hseen' : (withCap c cap).nextBoundary w' = c.nextBoundary w :=
    nextBoundary_abreast (c := c) abreast
  have hmoves : reach c.direction f.sqrtPrice ≤ reach c.direction moved.sqrtPrice :=
    hstep₂.moves.le
  have htarget := hstep₂.within_target
  have hsecond := hstep₂.covers_remaining
  rw [hseen] at htarget
  rw [hliq] at hsecond
  -- What both parts had left covers the way of both, so it reaches as far in one piece.
  have hboth := covers_trans hstep.positive_end hstep.covers_remaining hsecond
  obtain ⟨full', hfull', hend'⟩ := hstep'.full_cases
  rw [hseen'] at hend'
  rw [abreast.sqrtPrice, abreast.liquidity] at hfull'
  have hreach' : reach c.direction moved.sqrtPrice ≤ reach c.direction full' := by
    rw [reach_full_iff hfull' (hstep.moves.le.trans hmoves), hsum, Nat.cast_add]
    exact hboth
  rcases hend' with ⟨hcrossed', hprice', _⟩ | ⟨_, hprice', hlt'⟩
  · refine ⟨hprice' ▸ htarget, fun hcrossed₂ => ⟨hcrossed', ?_⟩⟩
    have hat := hstep₂.target_of_crossed hcrossed₂
    rw [hseen] at hat
    exact hprice'.trans hat.symm
  · refine ⟨hprice' ▸ hreach', fun hcrossed₂ => ?_⟩
    have hat := hstep₂.target_of_crossed hcrossed₂
    rw [hseen] at hat
    rw [hat] at hreach'
    exact absurd hreach' (not_le.mpr hlt')

theorem resumed_out : s.amountOut.val + s₂.amountOut.val ≤ s'.amountOut.val := by
  have hgreatest := hstep'.greatest
  rw [abreast.sqrtPrice, abreast.liquidity] at hgreatest
  have hliq : (resume f y).liquidity = w.liquidity := hstep.moved_liquidity
  have hsecond := hstep₂.greatest.1
  rw [Set.mem_ofPred, hliq] at hsecond
  have hboth := coveredBy_trans hstep.positive_end hstep.greatest.1 hsecond
  have hcovered := coveredBy_farther hstep₂.positive_end hboth
    (resumed_reach abreast hsum hstep hshort hstep₂ hstep').1
  exact_mod_cast hgreatest.2 hcovered

/-- Reaching the boundary in two parts costs at least what it costs in one. -/
theorem resumed_in (hcrossed : s₂.crossed = true) :
    s'.amountIn.val ≤ w.remaining.val + s₂.amountIn.val := by
  obtain ⟨hcrossed', hprice⟩ :=
    (resumed_reach abreast hsum hstep hshort hstep₂ hstep').2 hcrossed
  have hleast := hstep'.paid.resolve_right (by rw [hcrossed']; decide)
  rw [abreast.sqrtPrice, abreast.liquidity, hprice] at hleast
  have hliq : (resume f y).liquidity = w.liquidity := hstep.moved_liquidity
  have hsecond := hstep₂.covers_moved
  rw [hliq] at hsecond
  exact_mod_cast hleast.2 (covers_trans hstep.positive_end hstep.covers_remaining hsecond)

/-- At that boundary the whole order is abreast of the resumed one, with no less left. -/
theorem resumed_abreast (hcrossed : s₂.crossed = true) :
    Abreast moved moved' ∧ moved.remaining ≤ moved'.remaining := by
  obtain ⟨_, hsame⟩ := (resumed_reach abreast hsum hstep hshort hstep₂ hstep').2 hcrossed
  have hcost := resumed_in abreast hsum hstep hshort hstep₂ hstep' hcrossed
  have hleft₂ : moved.remaining.val + s₂.amountIn.val = y.val := hstep₂.input
  have hleft' := hstep'.input
  refine ⟨⟨hsame, ?_, ?_⟩, Fin.le_def.mpr (by omega)⟩
  · rw [hstep'.moved_liquidity, abreast.liquidity, hstep₂.moved_liquidity]
    exact hstep.moved_liquidity.symm
  · rw [hstep'.moved_tick, abreast.tick, hstep₂.moved_tick]
    exact hstep.moved_tick.symm

/-- So far the two parts have earned no more than the whole order. -/
theorem resumed_earned : f.amountOut.val + moved.amountOut.val + w'.amountOut.val ≤
    moved'.amountOut.val + w.amountOut.val := by
  have hout := resumed_out abreast hsum hstep hshort hstep₂ hstep'
  have hfirst := hstep.output
  have hsecond : moved.amountOut.val = 0 + s₂.amountOut.val := hstep₂.output
  have hwhole := hstep'.output
  omega

end resumed

theorem add_ne_zero {x y z : U128} (hx : x ≠ 0) (hsum : z.val = x.val + y.val) : z ≠ 0 :=
  larger_ne_zero (Fin.le_def.mpr (by omega)) hx

/-- A walk that stopped inside a range and was taken up there. -/
theorem split_midway {c : Call} {cap cap' : ℕ} {w w' f f' g : Walk} {s : Step} {y : U128}
    (abreast : Abreast w w')
    (hlimit : reach c.direction w.sqrtPrice ≤ reach c.direction c.priceLimit)
    (hsum : w'.remaining.val = w.remaining.val + y.val) (hrem : w.remaining ≠ 0)
    (hprice : w.sqrtPrice ≠ c.priceLimit) (hy : y ≠ 0) (hstep : Taken c w f s)
    (hshort : s.crossed = false) (hrun' : (withCap c cap).loop.run w' = .ok f')
    (hresume : (withCap c cap').loop.run (resume f y) = .ok g) :
    f.amountOut.val + g.amountOut.val + w'.amountOut.val ≤
      f'.amountOut.val + w.amountOut.val := by
  have hlimit' : reach c.direction w'.sqrtPrice ≤ reach c.direction c.priceLimit :=
    abreast.sqrtPrice ▸ hlimit
  have hbefore := hstep.short_of_target hshort
  have hahead : reach c.direction (resume f y).sqrtPrice < reach c.direction c.priceLimit :=
    hbefore.trans_le (stepLimit_ahead hlimit).2
  have hprice₂ : (resume f y).sqrtPrice ≠ c.priceLimit := fun he => hahead.ne (he ▸ rfl)
  have hrem' : w'.remaining ≠ 0 := add_ne_zero hrem hsum
  have hprice' : w'.sqrtPrice ≠ c.priceLimit := abreast.sqrtPrice ▸ hprice
  obtain ⟨q, hq, hrest₂⟩ := (withCap c cap').loop.run_ok_cases hresume
  obtain ⟨p', hp', hrest'⟩ := (withCap c cap).loop.run_ok_cases hrun'
  have hpast := (run_past_first (c := withCap c cap) hlimit' hp' hrest').2
  rcases pass_taken (c := withCap c cap') hahead.le hq with ⟨hidle, _⟩ |
    ⟨_, _, moved, s₂, hstep₂, ⟨rfl, _⟩ | ⟨hcrossed₂, b, hb, hat, hcross⟩⟩
  · exact absurd hidle (not_or.mpr ⟨hy, hprice₂⟩)
  · obtain ⟨moved', s', hstep', _, _, hkeepOut'⟩ :=
      pass_steps (c := withCap c cap) hlimit' hrem' hprice' hp'
    have hearned := resumed_earned abreast hsum hstep hshort hstep₂ hstep'
    rw [hkeepOut'] at hpast
    rcases hrest₂ with hg | ⟨_, hg, _⟩
    · cases hg
      omega
    · cases hg
  · have hseen : (withCap c cap).nextBoundary w' = some b := by
      refine (nextBoundary_abreast (c := c) abreast).trans (Eq.trans ?_ hb)
      exact (nextBoundary_resume (c := c) y hstep.moved_tick hstep.moves.le hbefore).symm
    obtain ⟨moved', s', hstep', hcross'⟩ :=
      pass_crosses (c := withCap c cap) hlimit' hrem' hprice' hseen hp'
    obtain ⟨hcrossed', hsame⟩ :=
      (resumed_reach abreast hsum hstep hshort hstep₂ hstep').2 hcrossed₂
    have hcross' := hcross' hcrossed' (hat.trans hsame.symm)
    obtain ⟨hmoved, hmore⟩ := resumed_abreast abreast hsum hstep hshort hstep₂ hstep' hcrossed₂
    have hearned := resumed_earned abreast hsum hstep hshort hstep₂ hstep'
    obtain ⟨_, hkeep, hkeepOut⟩ := cross_keeps hcross
    obtain ⟨_, hkeep', hkeepOut'⟩ := cross_keeps hcross'
    rcases hrest₂ with rfl | ⟨t, rfl, hrest₂⟩
    · rw [hkeepOut'] at hpast
      have hg : g.amountOut = moved.amountOut := hkeepOut
      rw [hg]
      omega
    · have hon := goes_on (c := withCap c cap') hcross hcross' hmore hrest'
      have hwithin := (pass_onward (c := withCap c cap') hahead.le hq).2
      rw [← hkeep', ← hkeep] at hmore
      have hlarger := (run_larger (c := withCap c cap') (cross_abreast hmoved hcross hcross')
        hwithin hmore hrest₂ hon).2
      rw [hkeepOut', hkeepOut] at hlarger
      omega

/-- A walk whose last pass consumed its input, taken up short of the limit. -/
theorem split_last {c : Call} {cap cap' : ℕ} {w w' f f' g : Walk} {y : U128}
    (abreast : Abreast w w')
    (hlimit : reach c.direction w.sqrtPrice ≤ reach c.direction c.priceLimit)
    (hsum : w'.remaining.val = w.remaining.val + y.val) (hlast : c.pass w = .ok (.leave f))
    (hconsumed : f.remaining = 0) (hy : y ≠ 0) (hprice : f.sqrtPrice ≠ c.priceLimit)
    (hrun' : (withCap c cap).loop.run w' = .ok f')
    (hresume : (withCap c cap').loop.run (resume f y) = .ok g) :
    f.amountOut.val + g.amountOut.val + w'.amountOut.val ≤
      f'.amountOut.val + w.amountOut.val := by
  have hzero : f.remaining.val = 0 := congrArg Fin.val hconsumed
  have hresumed : (resume f y).remaining.val = y.val := rfl
  have hfresh : (resume f y).amountOut.val = 0 := rfl
  rcases pass_taken hlimit hlast with
    ⟨_, hstay⟩ | ⟨hrem, hmid, moved, s, hstep, ⟨hleave, hmissed⟩ | ⟨hcrossed, b, hb, hat, hcross⟩⟩
  · cases hstay
    have hlarger := (run_larger (c := withCap c cap') (abreast_resume w w' y abreast) hlimit
      (Fin.le_def.mpr (by omega)) hresume hrun').2
    omega
  · cases hleave
    cases hcrossed : s.crossed with
    | false =>
      exact split_midway abreast hlimit hsum hrem hmid hy hstep hcrossed hrun' hresume
    | true =>
      have hat := hstep.target_of_crossed hcrossed
      exact absurd (hat.trans (stepLimit_missed (hmissed hcrossed) hat)) hprice
  · obtain ⟨p', hp', hrest⟩ := (withCap c cap).loop.run_ok_cases hrun'
    obtain ⟨moved', hlock, hcross'⟩ := pass_lockstep abreast hlimit
      (Fin.le_def.mpr (by omega)) hrem hmid hstep hcrossed hb hat hp'
    have hlock' : Lockstep w w' f p'.state := hlock.cross hcross hcross'
    have hleft := hlock'.left
    have hearned := hlock'.earned
    obtain ⟨_, _, _, _, _, _, hleave'⟩ := (withCap c cap).cross_ok hcross'
    obtain ⟨_, hkeep', _⟩ := cross_keeps hcross'
    rcases hrest with rfl | ⟨t', rfl, hrest⟩
    · have hspent : moved'.remaining = 0 := hleave'.mp rfl
      rw [hkeep', hspent, Fin.val_zero] at hleft
      exact absurd (Fin.ext (by rw [Fin.val_zero]; omega)) hy
    · have hwithin := (pass_onward hlimit hlast).2
      have hlarger := (run_larger (c := withCap c cap')
        (abreast_resume f t' y hlock'.toAbreast) hwithin
        (Fin.le_def.mpr (show y.val ≤ t'.remaining.val by
          have hleft : t'.remaining.val + w.remaining.val =
            f.remaining.val + w'.remaining.val := hleft
          omega)) hresume hrest).2
      have hearned : t'.amountOut.val + w.amountOut.val =
        f.amountOut.val + w'.amountOut.val := hearned
      omega

/-- A walk cut in two earns no more than the walk in one piece. -/
theorem run_split {c : Call} {cap cap' : ℕ} {w w' f f' g : Walk} {y : U128}
    (abreast : Abreast w w')
    (hlimit : reach c.direction w.sqrtPrice ≤ reach c.direction c.priceLimit)
    (hsum : w'.remaining.val = w.remaining.val + y.val) (hrun : c.loop.run w = .ok f)
    (hconsumed : f.remaining = 0) (hrun' : (withCap c cap).loop.run w' = .ok f')
    (hresume : (withCap c cap').loop.run (resume f y) = .ok g) :
    f.amountOut.val + g.amountOut.val + w'.amountOut.val ≤
      f'.amountOut.val + w.amountOut.val := by
  have hle : w.remaining ≤ w'.remaining := Fin.le_def.mpr (by omega)
  by_cases hidle : y = 0 ∨ f.sqrtPrice = c.priceLimit
  · have hlarger := (run_larger abreast hlimit hle hrun hrun').2
    have hnothing := resume_idle (c := withCap c cap') hidle hresume
    omega
  · obtain ⟨hy, hprice⟩ := not_or.mp hidle
    obtain ⟨t, ht, hlast⟩ := c.loop.run_eq_ok_iff.mp hrun
    obtain ⟨t', hlock, hrest⟩ := comes_lockstep abreast hlimit hle hrun' ht
    have hleft := hlock.left
    have hearned := hlock.earned
    have hsplit := split_last hlock.toAbreast (comes_within ht hlimit) (by omega) hlast hconsumed
      hy hprice hrest hresume
    omega

/-! ### Swaps -/

/-- The fee grows by at most one unit for each unit of input. -/
theorem takeFee_mono {x y : U128} {feeRate : U64} {net fee net' fee' : U128} (hle : x ≤ y)
    (hx : takeFee x feeRate = .ok (net, fee)) (hy : takeFee y feeRate = .ok (net', fee')) :
    net ≤ net' := by
  obtain ⟨hrate, hfee, hnet⟩ := takeFee_ok hx
  obtain ⟨_, hfee', hnet'⟩ := takeFee_ok hy
  obtain ⟨gap, hgap⟩ := Nat.exists_eq_add_of_le (Fin.le_def.mp hle)
  have hgrowth : fee'.val ≤ fee.val + gap := by
    rw [← hfee, ← hfee', ← Nat.add_mul_div_right _ _ (by norm_num : 0 < 1000000), hgap]
    refine Nat.div_le_div_right ?_
    rw [Nat.add_mul]
    exact Nat.add_le_add_left (Nat.mul_le_mul_left _ hrate.le) _
  exact Fin.le_def.mpr (by omega)

/-- Of two swaps that succeed, the one with more input pays at least as much and
ends at least as far. -/
theorem larger_swap (source : TickSource) (direction : Direction) (state : PoolState)
    (priceLimit : U128) (maxCrossings : ℕ) {x y : U128} (hle : x ≤ y) {r r' : SwapResult}
    (hx : swapExactIn source direction state x priceLimit maxCrossings = .ok r)
    (hy : swapExactIn source direction state y priceLimit maxCrossings = .ok r') :
    r.amountOut ≤ r'.amountOut ∧
      reach direction r.sqrtPriceEnd ≤ reach direction r'.sqrtPriceEnd := by
  obtain ⟨net, fee, f, hfee, hlimit, _, hrun, _, hr⟩ := swapExactIn_ok hx
  obtain ⟨net', fee', f', hfee', _, _, hrun', _, hr'⟩ := swapExactIn_ok hy
  have abreast : Abreast (Walk.start state net) (Walk.start state net') := ⟨rfl, rfl, rfl⟩
  obtain ⟨hreach, hout⟩ := run_larger abreast hlimit
    (takeFee_mono hle hfee hfee') hrun hrun'
  rw [hr, hr']
  exact ⟨Fin.le_def.mpr hout, hreach⟩

theorem larger_swap_sample : ∃ r r',
    swapExactIn sampleSource .aToB samplePool 1000 1 3 = .ok r ∧
    swapExactIn sampleSource .aToB samplePool 2000 1 3 = .ok r' ∧
    r.amountOut ≤ r'.amountOut ∧ reach .aToB r.sqrtPriceEnd ≤ reach .aToB r'.sqrtPriceEnd := by
  obtain ⟨r, hr⟩ := exists_ok (x := swapExactIn sampleSource .aToB samplePool 1000 1 3)
    (by decide +kernel)
  obtain ⟨r', hr'⟩ := exists_ok (x := swapExactIn sampleSource .aToB samplePool 2000 1 3)
    (by decide +kernel)
  exact ⟨r, r', hr, hr', larger_swap sampleSource .aToB samplePool 1 3 (by decide) hr hr'⟩

/-- Without a fee the whole input is swapped. -/
theorem takeFee_free {x net fee : U128} (h : takeFee x 0 = .ok (net, fee)) : net = x := by
  obtain ⟨_, hfee, hnet⟩ := takeFee_ok h
  rw [Fin.val_zero, Nat.mul_zero, Nat.zero_div] at hfee
  exact Fin.ext (by omega)

/-- Cutting an order in two never pays: the parts earn at most what the whole earns. -/
theorem split_swap (source : TickSource) (direction : Direction) (state : PoolState)
    (hfree : state.feeRate = 0) (priceLimit : U128) (cap cap₂ cap₁₂ : ℕ) {x y xy : U128}
    (hsum : xy.val = x.val + y.val) {r r₂ r₁₂ : SwapResult}
    (hx : swapExactIn source direction state x priceLimit cap = .ok r)
    (hconsumed : r.inputConsumed = true)
    (hy : swapExactIn source direction
      { state with sqrtPrice := r.sqrtPriceEnd, liquidity := r.liquidityEnd, tick := r.tickEnd }
      y priceLimit cap₂ = .ok r₂)
    (hxy : swapExactIn source direction state xy priceLimit cap₁₂ = .ok r₁₂) :
    r.amountOut.val + r₂.amountOut.val ≤ r₁₂.amountOut.val := by
  obtain ⟨net, fee, f, hfee, hlimit, _, hrun, _, hr⟩ := swapExactIn_ok hx
  obtain ⟨net₂, fee₂, g, hfee₂, _, _, hresume, _, hr₂⟩ := swapExactIn_ok hy
  obtain ⟨net', fee', f', hfee', _, _, hrun', _, hr'⟩ := swapExactIn_ok hxy
  rw [hfree] at hfee hfee₂ hfee'
  obtain rfl := takeFee_free hfee
  obtain rfl := takeFee_free hfee₂
  obtain rfl := takeFee_free hfee'
  have abreast : Abreast (Walk.start state net) (Walk.start state net') := ⟨rfl, rfl, rfl⟩
  rw [hr] at hconsumed hresume
  have hsplit := run_split abreast hlimit hsum hrun
    (of_decide_eq_true hconsumed) hrun' hresume
  rw [hr, hr₂, hr']
  exact hsplit

def freePool : PoolState := { samplePool with feeRate := 0 }

/-- Four units sold inside the first range of the free pool. -/
def firstPart : SwapResult :=
  { amountIn := 4
    fee := 0
    amountOut := 3
    sqrtPriceStart := 18446744073709551616
    sqrtPriceEnd := 18446670287028403503
    tickStart := 5
    tickEnd := 5
    liquidityStart := 1000000
    liquidityEnd := 1000000
    inputConsumed := true
    steps :=
      [{ amountIn := 4
         amountOut := 3
         sqrtPriceStart := 18446744073709551616
         sqrtPriceEnd := 18446670287028403503
         liquidity := 1000000
         crossed := false }] }

/-- The pool the first part leaves. -/
def halfway : PoolState :=
  { freePool with sqrtPrice := firstPart.sqrtPriceEnd, liquidity := 1000000, tick := 5 }

/-- Taken up again, the order crosses the tick at 0 like the whole of it. -/
theorem split_swap_sample : ∃ r₂ r₁₂ : SwapResult,
    swapExactIn sampleSource .aToB freePool 4 1 3 = .ok firstPart ∧
    swapExactIn sampleSource .aToB halfway 400 1 3 = .ok r₂ ∧
    swapExactIn sampleSource .aToB freePool 404 1 3 = .ok r₁₂ ∧
    firstPart.amountOut.val + r₂.amountOut.val ≤ r₁₂.amountOut.val := by
  have hr : swapExactIn sampleSource .aToB freePool 4 1 3 = .ok firstPart := by decide +kernel
  obtain ⟨r₂, hr₂⟩ := exists_ok (x := swapExactIn sampleSource .aToB halfway 400 1 3)
    (by decide +kernel)
  obtain ⟨r₁₂, hr₁₂⟩ := exists_ok (x := swapExactIn sampleSource .aToB freePool 404 1 3)
    (by decide +kernel)
  refine ⟨r₂, r₁₂, hr, hr₂, hr₁₂, ?_⟩
  exact split_swap sampleSource .aToB freePool rfl 1 3 3 3 (by decide) hr rfl hr₂ hr₁₂

end LargerSwap
