import Birdai.Quote.HiddenBook
import Birdai.Amm.LargerSwap

/-!
# Ticks beyond the end price

A swap depends on its index only through the ticks its price reached. Two
indices that agree on those, past the starting tick, carry the same swap.
-/

namespace TickLocality

open WideArith CheckedWords Outcomes BoundedLoop SwapExactIn PricingSpecs StepRounding WalkShape
open StepOrder TickMath TickIndex TickBook BookTraversal HiddenBook

/-- Past a tick and up to a price, both books hold the same boundaries. -/
def SameUpTo (book book' : Book) (d : Direction) (tick : ℤ) (stop : U128) : Prop :=
  ∀ b, along d tick < along d b.tick → reach d b.sqrtPrice ≤ reach d stop →
    (b ∈ book'.boundaries ↔ b ∈ book.boundaries)

/-- A boundary strictly beyond a price, if there is one at all. -/
def Beyond (d : Direction) (stop : U128) (boundary : Option Boundary) : Prop :=
  ∀ b, boundary = some b → reach d stop < reach d b.sqrtPrice

/-- A nearest boundary within the price is nearest in both books. -/
theorem next_within {book book' : Book} {d : Direction} {tick : ℤ} {stop : U128} {b : Boundary}
    (hsame : SameUpTo book book' d tick stop) (hb : book.next d tick = some b)
    (hwithin : reach d b.sqrtPrice ≤ reach d stop) : book'.next d tick = some b := by
  obtain ⟨hmem, hlt, hleast⟩ := book.next_eq_some_iff.mp hb
  have hmem' := (hsame b hlt hwithin).mpr hmem
  refine book'.next_eq_some_iff.mpr ⟨hmem', hlt, fun a ha hpast => ?_⟩
  by_contra hbefore
  have hprice := book'.reach_lt_reach ha hmem' (not_le.mp hbefore)
  have hshared := (hsame a hpast (hprice.le.trans hwithin)).mp ha
  exact hbefore (hleast a hshared hpast)

/-- The two nearest boundaries are the same, or both lie beyond the price. -/
theorem next_same_or_beyond {book book' : Book} {d : Direction} {tick : ℤ} {stop : U128}
    (hsame : SameUpTo book book' d tick stop) :
    book'.next d tick = book.next d tick ∨
      (Beyond d stop (book.next d tick) ∧ Beyond d stop (book'.next d tick)) := by
  by_cases hnear : Beyond d stop (book.next d tick)
  · by_cases hnear' : Beyond d stop (book'.next d tick)
    · exact .inr ⟨hnear, hnear'⟩
    · simp only [Beyond, not_forall, not_lt] at hnear'
      obtain ⟨b, hb, hwithin⟩ := hnear'
      have hsymm : SameUpTo book' book d tick stop := fun a hlt hle => (hsame a hlt hle).symm
      exact .inl (hb.trans (next_within hsymm hb hwithin).symm)
  · simp only [Beyond, not_forall, not_lt] at hnear
    obtain ⟨b, hb, hwithin⟩ := hnear
    exact .inl ((next_within hsame hb hwithin).trans hb.symm)

/-- A target beyond where the step ended might as well be another. -/
theorem nextPrice_beyond {c c' : Call} (twins : Twins c c') {w : Walk} {b b' : Option Boundary}
    {next : U128} {reached : Bool} (hfar : Beyond c.direction next b)
    (hfar' : Beyond c.direction next b')
    (h : nextPrice c.direction w.sqrtPrice w.liquidity w.remaining (c.stepLimit b) =
      .ok (next, reached)) :
    nextPrice c.direction w.sqrtPrice w.liquidity w.remaining (c'.stepLimit b') =
      .ok (next, reached) := by
  have htarget' : reach c.direction (c'.stepLimit b') =
      min (reach c.direction (b'.elim c.priceLimit Boundary.sqrtPrice))
        (reach c.direction c.priceLimit) := by
    have htarget' := reach_stepLimit c' b'
    rwa [twins.direction, twins.priceLimit] at htarget'
  obtain ⟨full, hfull, ⟨rfl, hnext, hle⟩ | ⟨rfl, rfl, hlt⟩⟩ := nextPrice_ok h
  · have hmissed : c.stepLimit b = c.priceLimit :=
      LargerSwap.stepLimit_missed
        (fun a ha he => absurd (hfar a ha) (by rw [he]; exact lt_irrefl _)) hnext
    rw [hmissed] at hnext hle
    have hsame : c'.stepLimit b' = c.priceLimit := by
      apply reach_inj.mp (htarget'.trans ?_)
      apply min_eq_right
      cases b' with
      | none => exact le_rfl
      | some a => exact (hnext ▸ hfar' a rfl).le
    rw [nextPrice_of_full hfull, hsame, if_pos hle, hnext]
  · rw [reach_stepLimit] at hlt
    have hlimit := hlt.trans_le (min_le_right _ _)
    have hbefore : reach c.direction next < reach c.direction (c'.stepLimit b') := by
      rw [htarget']
      cases b' with
      | none => exact lt_min hlimit hlimit
      | some a => exact lt_min (hfar' a rfl) hlimit
    rw [nextPrice_of_full hfull, if_neg (not_le.mpr hbefore)]

/-- Boundaries a pass does not come up to might as well be others. -/
theorem pass_beyond {c c' : Call} (twins : Twins c c') {w : Walk} {p : Pass Walk}
    (hfar : Beyond c.direction p.state.sqrtPrice (c.nextBoundary w))
    (hfar' : Beyond c.direction p.state.sqrtPrice (c'.nextBoundary w))
    (hp : c.pass w = .ok p) : c'.pass w = .ok p := by
  rcases c.pass_cases hp with
    ⟨hstop, rfl⟩ | ⟨hrem, hprice, moved, reached, hmoved, ⟨rfl, _⟩ | ⟨_, b, hb, hat, hcross⟩⟩
  · rw [← twins.priceLimit] at hstop
    exact pass_of_stop hstop
  · have hpriced := (c.advance_keeps hmoved).2.2
    have hpriced' := nextPrice_beyond twins hfar hfar' hpriced
    have hmoved' : c'.advance w (c'.nextBoundary w) = .ok (moved, reached) :=
      (advance_congr twins (hpriced'.trans hpriced.symm)).trans hmoved
    refine pass_of_advance hrem (twins.priceLimit ▸ hprice) hmoved' fun b hb he => ?_
    exact absurd (hfar' b hb) (by rw [he]; exact lt_irrefl _)
  · have hfar := hfar b hb
    rw [(WalkShape.cross_keeps hcross).1, hat] at hfar
    exact absurd hfar (lt_irrefl _)

theorem nextBoundary_beyond {c : Call} {book : Book} (hc : OverBook c book) {w : Walk} {stop : U128}
    (hfar : Beyond c.direction stop (book.next c.direction w.tick)) :
    Beyond c.direction stop (c.nextBoundary w) := by
  intro b hb
  rw [nextBoundary_eq hc] at hb
  exact hfar b (Option.filter_eq_some_iff.mp hb).1

/-- Books that agree up to the price a run ends at carry the same run. -/
theorem run_local {c c' : Call} (twins : Twins c c') {book book' : Book} (hc : OverBook c book)
    (hc' : OverBook c' book') {w f : Walk}
    (hlimit : reach c.direction w.sqrtPrice ≤ reach c.direction c.priceLimit)
    (hsame : SameUpTo book book' c.direction w.tick f.sqrtPrice)
    (hrun : c.loop.run w = .ok f) : c'.loop.run w = .ok f := by
  have hpass : ∀ w p, reach c.direction w.sqrtPrice ≤ reach c.direction c.priceLimit →
      SameUpTo book book' c.direction w.tick f.sqrtPrice →
      reach c.direction p.state.sqrtPrice ≤ reach c.direction f.sqrtPrice →
      c.pass w = .ok p → c'.pass w = .ok p := by
    intro w p hlimit hsame hend hp
    rcases next_same_or_beyond hsame with heq | ⟨hfar, hfar'⟩
    · rw [← hp]
      apply pass_congr twins
      rw [nextBoundary_eq hc, nextBoundary_eq hc', twins.direction, heq]
    · refine pass_beyond twins (fun b hb => ?_) (fun b hb => ?_) hp
      · exact hend.trans_lt (nextBoundary_beyond hc hfar b hb)
      · rw [← twins.direction] at hfar'
        exact hend.trans_lt (twins.direction ▸ nextBoundary_beyond hc' hfar' b hb)
  have key : reach c.direction w.sqrtPrice ≤ reach c.direction c.priceLimit →
      SameUpTo book book' c.direction w.tick f.sqrtPrice →
      c.loop.run w = .ok f → c'.loop.run w = .ok f := by
    refine c.loop.run_induct (P := fun w r =>
      reach c.direction w.sqrtPrice ≤ reach c.direction c.priceLimit →
      SameUpTo book book' c.direction w.tick f.sqrtPrice →
      r = .ok f → c'.loop.run w = .ok f) ?_ ?_ ?_ w
    · intro w e _ _ _ h
      cases h
    · intro w t hp hlimit hsame h
      cases h
      exact c'.loop.run_of_leave (hpass w _ hlimit hsame le_rfl hp)
    · intro w t hp ih hlimit hsame h
      have hwithin := (WalkShape.pass_onward hlimit hp).2
      have hend := WalkShape.run_onward hwithin h
      rw [c'.loop.run_of_again (hpass w _ hlimit hsame hend hp)]
      refine ih hwithin (fun b hlt hle => hsame b ?_ hle) h
      exact (HiddenBook.pass_onward hc hp).trans_lt hlt
  exact key hlimit hsame hrun

/-- Ticks the price does not come up to cannot influence a swap: an index that offers
the same boundaries past the starting tick and up to the end price carries the same one. -/
theorem swap_local (t t' : Ticks) (ht : t.Accepted) (ht' : t'.Accepted) (d : Direction)
    (state : PoolState) (amountIn priceLimit : U128) (maxCrossings : ℕ) {r : SwapResult}
    (h : swapExactIn t.source d state amountIn priceLimit maxCrossings = .ok r)
    (hsame : ∀ b : Boundary, along d state.tick < along d b.tick →
      reach d b.sqrtPrice ≤ reach d r.sqrtPriceEnd →
      (b ∈ t'.nodes.map TickNode.boundary ↔ b ∈ t.nodes.map TickNode.boundary)) :
    swapExactIn t'.source d state amountIn priceLimit maxCrossings = .ok r := by
  have ht := accepted_indexed ht
  have ht' := accepted_indexed ht'
  obtain ⟨net, fee, f, hfee, hlimit, _, hrun, _, hr⟩ := swapExactIn_ok h
  have hbooks : SameUpTo ht.book ht'.book d state.tick f.sqrtPrice := by
    rw [hr] at hsame
    exact hsame
  have twins : Twins (callOver t d priceLimit maxCrossings)
      (callOver t' d priceLimit maxCrossings) := ⟨rfl, rfl, rfl⟩
  have hrun' := run_local twins ht.source_eq ht'.source_eq hlimit hbooks hrun
  rw [← h]
  refine swap_congr fun _ _ net₁ fee₁ hfee₁ => ?_
  obtain ⟨rfl, rfl⟩ := Prod.mk.inj (Except.ok.inj (hfee.symm.trans hfee₁))
  exact hrun'.trans hrun.symm

/-- The sample book without its highest tick, which an index read too early may lack. -/
def lowerTicks : List TickNode :=
  [nodeFrom (-100) 443536 18354745142194483563 600000 [443636],
   nodeFrom 0 443636 18446744073709551616 400000 []]

def lowerTicksIndex : Ticks :=
  { nodeUid := none
    nodes := lowerTicks
    byTick := positions TickNode.index lowerTicks
    byScore := positions TickNode.score lowerTicks
    declaredSize := some 2
    strictSize := true
    priceDeviations := Finmap.singleton 0 2 }

theorem lowerTicksIndex_accepted : lowerTicksIndex.Accepted :=
  .inl ⟨none, some 2, lowerTicks, by decide +kernel⟩

/-- A pool on its way up to the tick at 0. -/
def risingPool : PoolState :=
  { sqrtPrice := 18400000000000000000, liquidity := 600000, tick := -50, feeRate := 0 }

def risingPurchase : SwapResult :=
  { amountIn := 3000
    fee := 0
    amountOut := 3000
    sqrtPriceStart := 18400000000000000000
    sqrtPriceEnd := 18474026808194568042
    tickStart := -50
    tickEnd := 0
    liquidityStart := 600000
    liquidityEnd := 1000000
    inputConsumed := true
    steps :=
      [{ amountIn := 1521
         amountOut := 1524
         sqrtPriceStart := 18400000000000000000
         sqrtPriceEnd := 18446744073709551616
         liquidity := 600000
         crossed := true },
       { amountIn := 1479
         amountOut := 1476
         sqrtPriceStart := 18446744073709551616
         sqrtPriceEnd := 18474026808194568042
         liquidity := 1000000
         crossed := false }] }

theorem swap_local_rising :
    swapExactIn lowerTicksIndex.source .bToA risingPool 3000 maxSqrtPrice 64 =
      .ok risingPurchase := by
  refine swap_local twoPositionsIndex lowerTicksIndex twoPositionsIndex_accepted
    lowerTicksIndex_accepted .bToA risingPool 3000 maxSqrtPrice 64 (by decide +kernel) ?_
  intro b _ hle
  have hbooks : twoPositionsIndex.nodes.map TickNode.boundary =
      lowerTicksIndex.nodes.map TickNode.boundary ++
        [⟨100, 18539204128674405812, ⟨-1000000, by decide⟩⟩] := by decide
  rw [hbooks, List.mem_append, List.mem_singleton]
  refine ⟨.inl, fun h => h.resolve_right ?_⟩
  rintro rfl
  exact absurd hle (by decide)

end TickLocality
