import Birdai.Amm.RangeLadder
import Birdai.Amm.StepBands
import Birdai.Quote.HiddenBook

/-!
# There and back

A swap and the swap back that sells what it paid out. What only one of them crosses
decides whether the way back is anywhere deeper than the way out; where it is
nowhere deeper, nothing is gained.
-/

namespace RoundTrip

open WideArith CheckedWords Outcomes BoundedLoop SwapExactIn PricingSpecs StepRounding WalkShape
open RangeLadder TickMath TickIndex TickBook BookTraversal HiddenBook BandSums StepBands

/-! ### The liquidity of every cell -/

/-- Whether a boundary lies behind a walk that moves through a cell. -/
def passed (d : Direction) (n : ℕ) (b : Boundary) : Bool :=
  match d with
  | .bToA => b.sqrtPrice.val ≤ n
  | .aToB => n < b.sqrtPrice.val

theorem passed_opposite (d : Direction) (n : ℕ) (b : Boundary) :
    passed (opposite d) n b = !passed d n b := by
  cases d with
  | bToA => simp only [passed, opposite, ← decide_not, not_le]
  | aToB => simp only [passed, opposite, ← decide_not, not_lt]

theorem not_passed_beyond {d : Direction} {n : ℕ} {a b : Boundary}
    (hle : reach d a.sqrtPrice ≤ reach d b.sqrtPrice) (h : passed d n a = false) :
    passed d n b = false := by
  cases d with
  | bToA =>
    simp only [passed, reach, along, decide_eq_false_iff_not] at *
    omega
  | aToB =>
    simp only [passed, reach, along, decide_eq_false_iff_not] at *
    omega

/-- Inside a cell of a step, being behind its start is being behind the cell. -/
theorem passed_iff {d : Direction} {s : Step} {n : ℕ} {b : Boundary} (hlow : (band d s).low ≤ n)
    (hhigh : n < (band d s).high)
    (hapart : reach d b.sqrtPrice ≤ reach d s.sqrtPriceStart ∨
      reach d s.sqrtPriceEnd ≤ reach d b.sqrtPrice) :
    passed d n b = true ↔ reach d b.sqrtPrice ≤ reach d s.sqrtPriceStart := by
  cases d with
  | bToA =>
    simp only [band, passed, reach, along, decide_eq_true_iff] at *
    omega
  | aToB =>
    simp only [band, passed, reach, along, decide_eq_true_iff] at *
    omega

theorem lt_of_passed {d : Direction} {s : Step} {n : ℕ} {b : Boundary} (hlow : (band d s).low ≤ n)
    (hhigh : n < (band d s).high) (h : passed d n b = true) :
    reach d b.sqrtPrice < reach d s.sqrtPriceEnd := by
  cases d with
  | bToA =>
    simp only [band, passed, reach, along, decide_eq_true_iff] at *
    omega
  | aToB =>
    simp only [band, passed, reach, along, decide_eq_true_iff] at *
    omega

theorem lt_of_not_passed {d : Direction} {s : Step} {n : ℕ} {b : Boundary}
    (hlow : (band d s).low ≤ n) (hhigh : n < (band d s).high) (h : passed d n b = false) :
    reach d s.sqrtPriceStart < reach d b.sqrtPrice := by
  cases d with
  | bToA =>
    simp only [band, passed, reach, along, decide_eq_false_iff_not] at *
    omega
  | aToB =>
    simp only [band, passed, reach, along, decide_eq_false_iff_not] at *
    omega

/-- The last cell before a price. -/
def cellBefore (d : Direction) (sqrtPrice : U128) : ℕ :=
  match d with
  | .bToA => sqrtPrice.val - 1
  | .aToB => sqrtPrice.val

theorem passed_cellBefore {d : Direction} {start sqrtPrice : U128} {b : Boundary}
    (hpast : reach d start < reach d sqrtPrice) :
    passed d (cellBefore d sqrtPrice) b = false ↔ reach d sqrtPrice ≤ reach d b.sqrtPrice := by
  cases d with
  | bToA =>
    refine decide_eq_false_iff_not.trans ?_
    simp only [cellBefore, reach, along] at *
    omega
  | aToB =>
    refine decide_eq_false_iff_not.trans ?_
    simp only [cellBefore, reach, along] at *
    omega

/-- A walk that comes up to a price has moved through the cell before it. -/
theorem exists_step_before {d : Direction} {start stop sqrtPrice : U128} {steps : List Step}
    (h : Chained start steps stop)
    (hforward : ∀ s ∈ steps, reach d s.sqrtPriceStart < reach d s.sqrtPriceEnd)
    (hstart : reach d start < reach d sqrtPrice) (hstop : reach d sqrtPrice ≤ reach d stop) :
    ∃ s ∈ steps, (band d s).low ≤ cellBefore d sqrtPrice ∧
      cellBefore d sqrtPrice < (band d s).high := by
  refine exists_step_at h hforward ?_ ?_
  · cases d <;> simp only [cellBefore, reach, along] at * <;> omega
  · cases d <;> simp only [cellBefore, reach, along] at * <;> omega

/-- So has one that comes back past the price. -/
theorem exists_step_behind {d : Direction} {start stop sqrtPrice : U128} {steps : List Step}
    (h : Chained start steps stop)
    (hforward : ∀ s ∈ steps,
      reach (opposite d) s.sqrtPriceStart < reach (opposite d) s.sqrtPriceEnd)
    (hstart : reach d sqrtPrice ≤ reach d start) (hstop : reach d stop < reach d sqrtPrice) :
    ∃ s ∈ steps, (band (opposite d) s).low ≤ cellBefore d sqrtPrice ∧
      cellBefore d sqrtPrice < (band (opposite d) s).high := by
  refine exists_step_at h hforward ?_ ?_
  · cases d <;> simp only [cellBefore, reach, along] at * <;> omega
  · cases d <;> simp only [cellBefore, reach, along] at * <;> omega

/-- A walk over a book, seen from its end: what it crossed, and at which liquidity
it moved through each cell. -/
structure Profile (book : Book) (d : Direction) (first w : Walk) (crossed : List Boundary) :
    Prop where
  ordered : crossed.Pairwise (Book.Before d)
  mem : ∀ b, b ∈ crossed ↔ b ∈ book.boundaries ∧ along d first.tick < along d b.tick ∧
    along d b.tick ≤ along d w.tick
  behind : ∀ b ∈ crossed, reach d b.sqrtPrice ≤ reach d w.sqrtPrice
  onward : along d first.tick ≤ along d w.tick
  landed : w.tick = first.tick ∨ ∃ b ∈ crossed, b.tick = w.tick
  liquidity : (w.liquidity.val : ℤ) = first.liquidity.val + inflow d crossed
  depth : ∀ s ∈ w.steps, ∀ n, (band d s).low ≤ n → n < (band d s).high →
    (s.liquidity.val : ℤ) = first.liquidity.val + inflow d (crossed.filter (passed d n))

theorem profile_of_tracked {book : Book} {d : Direction} {first w : Walk} {log : List Boundary}
    (h : Tracked book d first w log) : Profile book d first w log := by
  refine ⟨h.ordered, h.mem, h.behind, h.onward, h.landed, h.liquidity, ?_⟩
  intro s hs n hlow hhigh
  rw [(h.ranges s hs).2]
  congr 2
  refine List.filter_congr fun b hb => ?_
  rw [Bool.eq_iff_iff, decide_eq_true_iff]
  exact (passed_iff hlow hhigh ((h.apart s hs).2 b hb)).symm

/-- A boundary behind the price hides the rest of its book. -/
theorem nextBoundary_of_unclear {c : Call} {book : Book} (hc : OverBook c book) {w : Walk}
    (hunclear : ¬ ClearAhead book c.direction w.tick w.sqrtPrice) : c.nextBoundary w = none := by
  simp only [ClearAhead, not_forall, not_lt] at hunclear
  obtain ⟨b, hb, hlt, hbehind⟩ := hunclear
  rw [nextBoundary_eq hc]
  refine Option.filter_eq_none_iff.mpr fun a ha => ?_
  obtain ⟨hmem, _, hleast⟩ := book.next_eq_some_iff.mp ha
  rw [isAhead_iff, not_lt]
  rcases lt_or_eq_of_le (hleast b hb hlt) with hbefore | hsame
  · exact (book.reach_lt_reach hmem hb hbefore).le.trans hbehind
  · exact book.eq_of_tick_eq hmem hb (along_inj.mp hsame) ▸ hbehind

/-- A walk that sees no boundary keeps its liquidity throughout. -/
theorem profile_of_hidden {c : Call} {book : Book} {first final : Walk}
    (hempty : first.steps = [])
    (hlimit : reach c.direction first.sqrtPrice ≤ reach c.direction c.priceLimit)
    (hnone : c.nextBoundary first = none) (hrun : c.loop.run first = .ok final) :
    Profile book c.direction first final [] := by
  have htick := run_none_tick hnone hrun
  have hpass : final.liquidity = first.liquidity ∧
      ∀ s ∈ final.steps, s.liquidity = first.liquidity := by
    by_cases hsteps : final.steps = []
    · rw [hsteps]
      obtain ⟨last, rfl, hpass⟩ := c.loop.run_last_pass (I := fun w => w = first)
        (fun w t hw hpass => absurd (hw ▸ hpass) (pass_none_last hnone t)) hrun rfl
      rcases pass_advanced hlimit hpass with
        ⟨_, hp⟩ | ⟨_, _, moved, s, hadv, ⟨hp, _⟩ | ⟨_, b, hb, _⟩⟩
      · cases hp
        exact ⟨rfl, fun _ hs => absurd hs List.not_mem_nil⟩
      · cases hp
        rw [hadv.moved_eq] at hsteps
        exact absurd hsteps (by simp)
      · rw [hnone] at hb
        cases hb
    · obtain ⟨_, s, hadv⟩ := run_of_no_boundary hempty hlimit hnone hrun hsteps
      rw [hadv.moved_eq]
      refine ⟨rfl, fun t ht => ?_⟩
      rw [hempty, List.nil_append, List.mem_singleton] at ht
      rw [ht, hadv.liquidity]
  refine ⟨.nil, ?_, by simp, htick ▸ le_rfl, .inl htick, ?_, ?_⟩
  · intro b
    simp only [List.not_mem_nil, false_iff, not_and, not_le, htick]
    exact fun _ h => h
  · simp [inflow, hpass.1]
  · intro s hs n _ _
    simp [inflow, hpass.2 s hs]

/-- Every walk over a book has a profile. It crosses what it owes unless the book is hidden. -/
theorem run_profile {c : Call} {book : Book} (hc : OverBook c book) {state : PoolState}
    {netInput : U128} {final : Walk}
    (hlimit : reach c.direction state.sqrtPrice ≤ reach c.direction c.priceLimit)
    (hrun : c.loop.run (Walk.start state netInput) = .ok final) :
    ∃ crossed, Profile book c.direction (Walk.start state netInput) final crossed ∧
      (ClearAhead book c.direction state.tick state.sqrtPrice →
        crossed = strictDue c.direction book state.tick final.sqrtPrice) ∧
      (¬ ClearAhead book c.direction state.tick state.sqrtPrice → crossed = []) := by
  by_cases hclear : ClearAhead book c.direction state.tick state.sqrtPrice
  · have hlogged := Loop.logged_run c.loop (crossedIn c) (Walk.start state netInput) []
    rw [hrun] at hlogged
    match hboth : (c.loop.logged (crossedIn c)).run (Walk.start state netInput, []) with
    | .error e =>
      rw [hboth] at hlogged
      cases hlogged
    | .ok (walk, log) =>
      rw [hboth] at hlogged
      cases hlogged
      have htracked := run_tracked hc hlimit hclear hboth
      exact ⟨log, profile_of_tracked htracked, fun _ => htracked.log_eq, fun h => absurd hclear h⟩
  · have hnone : c.nextBoundary (Walk.start state netInput) = none :=
      nextBoundary_of_unclear hc hclear
    exact ⟨[], profile_of_hidden rfl hlimit hnone hrun, fun h => absurd h hclear, fun _ => rfl⟩

/-! ### Inflows, boundary by boundary -/

theorem sum_map_filter (f : Boundary → ℤ) (bs : List Boundary) (p : Boundary → Bool) :
    ((bs.filter p).map f).sum = (bs.map fun b => if p b = true then f b else 0).sum := by
  induction bs with
  | nil => rfl
  | cons b rest ih =>
    rw [List.map_cons, List.sum_cons, ← ih]
    by_cases hb : p b = true
    · rw [List.filter_cons_of_pos hb, if_pos hb, List.map_cons, List.sum_cons]
    · rw [List.filter_cons_of_neg hb, if_neg hb, zero_add]

theorem inflow_filter (d : Direction) (bs : List Boundary) (p : Boundary → Bool) :
    inflow d (bs.filter p) =
      (bs.map fun b => if p b = true then along d b.liquidityNet.val else 0).sum :=
  sum_map_filter _ bs p

/-- A share of the book may be summed in any order of travel. -/
theorem inflow_travel_filter (book : Book) (d d' : Direction) (p : Boundary → Bool) :
    inflow d ((book.travel d').filter p) =
      (book.boundaries.map fun b => if p b = true then along d b.liquidityNet.val else 0).sum := by
  rw [inflow_filter]
  cases d' with
  | bToA => rfl
  | aToB => exact ((List.reverse_perm _).map _).sum_eq

theorem Profile.crossed_eq {book : Book} {d : Direction} {first w : Walk}
    {crossed : List Boundary} (h : Profile book d first w crossed) :
    crossed = (book.travel d).filter fun b =>
      along d first.tick < along d b.tick ∧ along d b.tick ≤ along d w.tick := by
  refine h.ordered.eq_of_mem_iff ((book.travel_ordered d).filter _) fun b => ?_
  rw [h.mem, List.mem_filter, book.mem_travel, decide_eq_true_iff]

/-! ### The way back -/

/-- The state a swap leaves for the next one. -/
def resumed (state : PoolState) (r : SwapResult) : PoolState :=
  { sqrtPrice := r.sqrtPriceEnd
    liquidity := r.liquidityEnd
    tick := r.tickEnd
    feeRate := state.feeRate }

/-- What the way back has in force past a boundary that the way out did not have there.
The boundary a swap turns on was crossed outwards and is never crossed backwards; one
filed at or behind the start, but priced past it, is crossed backwards only. -/
def surplus (d : Direction) (start turn : ℤ) (b : Boundary) : ℤ :=
  if b.tick = turn then if turn = start then 0 else along d b.liquidityNet.val
  else if along d b.tick ≤ along d start then -along d b.liquidityNet.val else 0

/-- A way back that starts with a boundary on the wrong side of its price sees none. -/
def Hidden (d : Direction) (boundaries : List Boundary) (back : PoolState) : Prop :=
  ∃ b ∈ boundaries, along d b.tick < along d back.tick ∧
    reach d back.sqrtPrice ≤ reach d b.sqrtPrice

/-- At every boundary between its two ends that the way back goes past, what only one of
the swaps has crossed from the turn to there has not added up to more liquidity. -/
def Resumable (t : Ticks) (d : Direction) (state back : PoolState) (amountIn priceLimit : U128)
    (maxCrossings : ℕ) : Prop :=
  Hidden d (t.nodes.map TickNode.boundary) back ∨
  ∀ b ∈ t.nodes.map TickNode.boundary, reach d state.sqrtPrice < reach d b.sqrtPrice →
    reach d b.sqrtPrice ≤ reach d back.sqrtPrice →
    GoesPast (callOver t (opposite d) priceLimit maxCrossings) (.start back amountIn) b.sqrtPrice →
    (((t.nodes.map TickNode.boundary).filter fun a =>
      reach d b.sqrtPrice ≤ reach d a.sqrtPrice).map (surplus d state.tick back.tick)).sum ≤ 0

/-- In every cell both swaps moved through, the way back was priced with no more liquidity. -/
def NowhereDeeper (d : Direction) (out back : SwapResult) : Prop :=
  ∀ s ∈ out.steps, ∀ u ∈ back.steps, ∀ n, (band d s).low ≤ n → n < (band d s).high →
    (band (opposite d) u).low ≤ n → n < (band (opposite d) u).high → u.liquidity ≤ s.liquidity

/-- The surplus is what was crossed outwards, less what will be crossed backwards. -/
theorem surplus_eq {d : Direction} {start turn : ℤ} {b : Boundary}
    (honward : along d start ≤ along d turn) : surplus d start turn b =
      (if along d start < along d b.tick ∧ along d b.tick ≤ along d turn then
        along d b.liquidityNet.val else 0) -
      if along d b.tick < along d turn then along d b.liquidityNet.val else 0 := by
  rcases lt_trichotomy (along d b.tick) (along d turn) with hlt | heq | hgt
  · have hne : b.tick ≠ turn := fun he => absurd hlt (he ▸ lt_irrefl _)
    rw [surplus, if_neg hne, if_pos hlt]
    by_cases hstart : along d b.tick ≤ along d start
    · rw [if_pos hstart, if_neg fun h => absurd h.1 (not_lt.mpr hstart), zero_sub]
    · rw [if_neg hstart, if_pos ⟨not_le.mp hstart, hlt.le⟩, sub_self]
  · obtain rfl := along_inj.mp heq
    rw [surplus, if_pos rfl, if_neg (lt_irrefl _), sub_zero]
    by_cases hstayed : b.tick = start
    · rw [if_pos hstayed, if_neg fun h => absurd h.1 (hstayed ▸ lt_irrefl _)]
    · have hmoved := lt_of_le_of_ne honward fun he => hstayed (along_inj.mp he).symm
      rw [if_neg hstayed, if_pos ⟨hmoved, le_rfl⟩]
  · have hne : b.tick ≠ turn := fun he => absurd hgt (he ▸ lt_irrefl _)
    rw [surplus, if_neg hne, if_neg (not_le.mpr (honward.trans_lt hgt)),
      if_neg fun h => absurd h.2 (not_le.mpr hgt), if_neg (not_lt.mpr hgt.le), sub_zero]

section profile
variable {book : Book} {d : Direction} {first last back final : Walk}
  {crossed : List Boundary}

/-- What was crossed on the way out leaves a clear view back. -/
theorem Profile.clear_back (h : Profile book d first last crossed)
    (hmoved : last.tick ≠ first.tick) :
    ClearAhead book (opposite d) last.tick last.sqrtPrice := by
  rcases h.landed with hsame | ⟨a, ha, hat⟩
  · exact absurd hsame hmoved
  · intro b hb hlt
    rw [along_opposite, along_opposite, neg_lt_neg_iff, ← hat] at hlt
    rw [reach_opposite, reach_opposite, neg_lt_neg_iff]
    exact (book.reach_lt_reach hb ((h.mem a).mp ha).1 hlt).trans_le (h.behind a ha)

/-- Nothing beyond the turn makes a difference. -/
theorem Profile.surplus_ahead (h : Profile book d first last crossed)
    (hclear : ClearAhead book (opposite d) last.tick last.sqrtPrice) {b : Boundary}
    (hb : b ∈ book.boundaries) (hahead : reach d last.sqrtPrice < reach d b.sqrtPrice) :
    surplus d first.tick last.tick b = 0 := by
  have hpast : along d last.tick ≤ along d b.tick := by
    by_contra hlt
    have hback := hclear b hb (by
      rw [along_opposite, along_opposite, neg_lt_neg_iff]
      exact not_le.mp hlt)
    rw [reach_opposite, reach_opposite, neg_lt_neg_iff] at hback
    exact lt_asymm hahead hback
  by_cases hturn : b.tick = last.tick
  · rw [surplus, if_pos hturn]
    refine if_pos (Classical.byContradiction fun hmoved => ?_)
    have honward := lt_of_le_of_ne h.onward fun he => hmoved (along_inj.mp he).symm
    exact not_lt.mpr (h.behind b ((h.mem b).mpr ⟨hb, hturn ▸ honward, hturn ▸ le_rfl⟩)) hahead
  · have hne : along d last.tick ≠ along d b.tick := fun he => hturn (along_inj.mp he).symm
    have hlt := lt_of_le_of_ne hpast hne
    rw [surplus, if_neg hturn, if_neg (not_le.mpr (h.onward.trans_lt hlt))]

/-- What lies past a cell is what lies from its first boundary on. -/
theorem unpassed_cases (book : Book) (d : Direction) (n : ℕ) :
    (book.boundaries.filter fun b => !passed d n b) = [] ∨
      ∃ a ∈ book.boundaries, passed d n a = false ∧
        (book.boundaries.filter fun b => !passed d n b) =
          book.boundaries.filter fun b => reach d a.sqrtPrice ≤ reach d b.sqrtPrice := by
  match hahead : (book.travel d).filter fun b => !passed d n b with
  | [] =>
    left
    rw [List.filter_eq_nil_iff] at hahead ⊢
    exact fun b hb => hahead b (book.mem_travel.mpr hb)
  | a :: rest =>
    have hordered := (book.travel_ordered d).filter fun b => !passed d n b
    rw [hahead, List.pairwise_cons] at hordered
    have hmem : ∀ b, b ∈ a :: rest ↔ b ∈ book.boundaries ∧ passed d n b = false := by
      intro b
      rw [← hahead, List.mem_filter, book.mem_travel, Bool.not_eq_true']
    obtain ⟨ha, hunpassed⟩ := (hmem a).mp List.mem_cons_self
    refine .inr ⟨a, ha, hunpassed, List.filter_congr fun b hb => ?_⟩
    rw [Bool.eq_iff_iff, Bool.not_eq_true', decide_eq_true_iff]
    refine ⟨fun hpassed => ?_, fun hle => not_passed_beyond hle hunpassed⟩
    rcases List.mem_cons.mp ((hmem b).mpr ⟨hb, hpassed⟩) with rfl | hrest
    · exact le_rfl
    · exact (book.reach_lt_reach ha hb (hordered.1 b hrest)).le

/-- Behind a cell, what makes a difference is counted at the first boundary there. -/
theorem Profile.unpassed_surplus (h : Profile book d first last crossed)
    (hclear : ClearAhead book (opposite d) last.tick last.sqrtPrice) {n : ℕ}
    (hcounted : ∀ b ∈ book.boundaries, passed d n b = false →
      reach d b.sqrtPrice ≤ reach d last.sqrtPrice →
        ((book.boundaries.filter fun a => reach d b.sqrtPrice ≤ reach d a.sqrtPrice).map
          (surplus d first.tick last.tick)).sum ≤ 0) :
    ((book.boundaries.filter fun b => !passed d n b).map
      (surplus d first.tick last.tick)).sum ≤ 0 := by
  rcases unpassed_cases book d n with hnone | ⟨a, ha, hunpassed, hsame⟩
  · rw [hnone]
    exact le_rfl
  · rw [hsame]
    by_cases hturn : reach d a.sqrtPrice ≤ reach d last.sqrtPrice
    · exact hcounted a ha hunpassed hturn
    · refine (List.sum_eq_zero fun x hx => ?_).le
      obtain ⟨b, hb, rfl⟩ := List.mem_map.mp hx
      obtain ⟨hb, hle⟩ := List.mem_filter.mp hb
      exact h.surplus_ahead hclear hb ((not_le.mp hturn).trans_le (of_decide_eq_true hle))

/-- A walk that never left its tick crossed nothing. -/
theorem Profile.crossed_nil (h : Profile book d first last crossed)
    (hstayed : last.tick = first.tick) : crossed = [] := by
  refine List.eq_nil_iff_forall_not_mem.mpr fun b hb => ?_
  obtain ⟨_, hlt, hle⟩ := (h.mem b).mp hb
  rw [hstayed] at hle
  exact absurd hlt (not_lt.mpr hle)

/-- A hidden way back starts where nothing was crossed on the way out. -/
theorem Profile.depth_of_hidden (hout : Profile book d first last crossed)
    (hback : Profile book (opposite d) back final [])
    (hunclear : ¬ ClearAhead book (opposite d) last.tick last.sqrtPrice)
    (hliquidity : back.liquidity = last.liquidity) {s t : Step} {n : ℕ} (hs : s ∈ last.steps)
    (hlow : (band d s).low ≤ n) (hhigh : n < (band d s).high) (ht : t ∈ final.steps)
    (hlow' : (band (opposite d) t).low ≤ n) (hhigh' : n < (band (opposite d) t).high) :
    t.liquidity ≤ s.liquidity := by
  have hstayed : last.tick = first.tick :=
    Classical.byContradiction fun hmoved => hunclear (hout.clear_back hmoved)
  have hmine := hout.depth s hs n hlow hhigh
  have htheirs := hback.depth t ht n hlow' hhigh'
  have hend := hout.liquidity
  rw [hout.crossed_nil hstayed] at hmine hend
  rw [hliquidity] at htheirs
  simp only [inflow, List.filter_nil, List.map_nil, List.sum_nil, add_zero] at hmine hend htheirs
  rw [Fin.le_def]
  omega

/-- A boundary hides the way back exactly when its view is not clear. -/
theorem hidden_iff {state : PoolState} : Hidden d book.boundaries state ↔
    ¬ ClearAhead book (opposite d) state.tick state.sqrtPrice := by
  simp only [Hidden, ClearAhead, along_opposite, neg_lt_neg_iff, not_forall, not_lt,
    exists_prop]

end profile

/-- A walk over a book, and one back from the state it left, with the book in clear view. -/
structure Trip (book : Book) (d : Direction) (first last back final : Walk)
    (crossed recrossed : List Boundary) : Prop where
  out : Profile book d first last crossed
  home : Profile book (opposite d) back final recrossed
  clear : ClearAhead book (opposite d) last.tick last.sqrtPrice
  recrossed_eq : recrossed = strictDue (opposite d) book last.tick final.sqrtPrice
  liquidity : back.liquidity = last.liquidity
  tick : back.tick = last.tick
  chained : Chained first.sqrtPrice last.steps last.sqrtPrice
  forward : ∀ s ∈ last.steps, reach d s.sqrtPriceStart < reach d s.sqrtPriceEnd
  chainedBack : Chained last.sqrtPrice final.steps final.sqrtPrice
  forwardBack : ∀ s ∈ final.steps,
    reach (opposite d) s.sqrtPriceStart < reach (opposite d) s.sqrtPriceEnd

namespace Trip
variable {book : Book} {d : Direction} {first last back final : Walk}
  {crossed recrossed : List Boundary} (h : Trip book d first last back final crossed recrossed)
include h

/-- What lies past a cell of the way out lies past its start. -/
theorem beyond_start {s : Step} {n : ℕ} {b : Boundary} (hs : s ∈ last.steps)
    (hlow : (band d s).low ≤ n) (hhigh : n < (band d s).high) (hpassed : passed d n b = false) :
    reach d first.sqrtPrice < reach d b.sqrtPrice :=
  ((chained_between h.chained h.forward).2 s hs).1.trans_lt (lt_of_not_passed hlow hhigh hpassed)

/-- The way back ends behind what lies past one of its cells. -/
theorem end_behind {u : Step} {n : ℕ} {b : Boundary} (hu : u ∈ final.steps)
    (hlow : (band (opposite d) u).low ≤ n) (hhigh : n < (band (opposite d) u).high)
    (hpassed : passed d n b = false) : reach d final.sqrtPrice < reach d b.sqrtPrice := by
  have hpassed : passed (opposite d) n b = true := by rw [passed_opposite, hpassed]; rfl
  have hend := ((chained_between h.chainedBack h.forwardBack).2 u hu).2
  have hfar := (lt_of_passed hlow hhigh hpassed).trans_le hend
  rwa [reach_opposite, reach_opposite, neg_lt_neg_iff] at hfar

theorem mem_recrossed_iff {u : Step} {n : ℕ} {b : Boundary} (hu : u ∈ final.steps)
    (hlow : (band (opposite d) u).low ≤ n) (hhigh : n < (band (opposite d) u).high)
    (hb : b ∈ book.boundaries) (hpassed : passed d n b = false) :
    b ∈ recrossed ↔ along d b.tick < along d last.tick := by
  rw [h.recrossed_eq, strictDue, List.mem_filter, book.mem_travel, decide_eq_true_iff,
    along_opposite, along_opposite, neg_lt_neg_iff, reach_opposite, reach_opposite,
    neg_le_neg_iff]
  exact ⟨fun hmem => hmem.2.1, fun hlt => ⟨hb, hlt, (h.end_behind hu hlow hhigh hpassed).le⟩⟩

/-- In a cell both walks moved through, the difference in depth is the surplus of what
lies between the cell and the turn. -/
theorem depth_eq {s u : Step} {n : ℕ} (hs : s ∈ last.steps) (hlow : (band d s).low ≤ n)
    (hhigh : n < (band d s).high) (hu : u ∈ final.steps) (hlow' : (band (opposite d) u).low ≤ n)
    (hhigh' : n < (band (opposite d) u).high) :
    (u.liquidity.val : ℤ) = s.liquidity.val + ((book.boundaries.filter fun b =>
      !passed d n b).map (surplus d first.tick last.tick)).sum := by
  have hmine := h.out.depth s hs n hlow hhigh
  have htheirs := h.home.depth u hu n hlow' hhigh'
  rw [h.liquidity, h.out.liquidity] at htheirs
  have hsum : inflow d crossed + inflow (opposite d) (recrossed.filter (passed (opposite d) n)) =
      inflow d (crossed.filter (passed d n)) + ((book.boundaries.filter fun b =>
        !passed d n b).map (surplus d first.tick last.tick)).sum := by
    rw [h.out.crossed_eq, h.home.crossed_eq, List.filter_filter, List.filter_filter,
      inflow_travel_filter, inflow_travel_filter, inflow_travel_filter, sum_map_filter,
      ← List.sum_map_add, ← List.sum_map_add]
    refine congrArg List.sum (List.map_congr_left fun b hb => ?_)
    have hmem := h.home.mem b
    simp only [hb, true_and, h.tick, along_opposite, neg_lt_neg_iff] at hmem ⊢
    cases hpassed : passed d n b with
    | true => simp [passed_opposite, hpassed]
    | false =>
      have hagain := h.mem_recrossed_iff hu hlow' hhigh' hb hpassed
      simp only [passed_opposite, hpassed, Bool.not_false, Bool.true_and, Bool.false_and,
        Bool.false_eq_true, ↓reduceIte, decide_eq_true_iff, ← hmem, hagain, zero_add]
      rw [surplus_eq h.out.onward]
      split_ifs <;> ring
  omega

/-- The way back is nowhere deeper if no boundary it goes past has a surplus behind it. -/
theorem shallow (hcounted : ∀ b ∈ book.boundaries, reach d first.sqrtPrice < reach d b.sqrtPrice →
      reach d b.sqrtPrice ≤ reach d last.sqrtPrice →
      reach d final.sqrtPrice < reach d b.sqrtPrice →
        ((book.boundaries.filter fun a => reach d b.sqrtPrice ≤ reach d a.sqrtPrice).map
          (surplus d first.tick last.tick)).sum ≤ 0)
    {s u : Step} {n : ℕ} (hs : s ∈ last.steps) (hlow : (band d s).low ≤ n)
    (hhigh : n < (band d s).high) (hu : u ∈ final.steps) (hlow' : (band (opposite d) u).low ≤ n)
    (hhigh' : n < (band (opposite d) u).high) : u.liquidity ≤ s.liquidity := by
  have hsum := h.out.unpassed_surplus h.clear fun b hb hpassed hturn =>
    hcounted b hb (h.beyond_start hs hlow hhigh hpassed) hturn
      (h.end_behind hu hlow' hhigh' hpassed)
  have hmore := h.depth_eq hs hlow hhigh hu hlow' hhigh'
  rw [Fin.le_def]
  omega

/-- A surplus behind a boundary that the way back goes past shows in the cell before it. -/
theorem counted (hshallow : ∀ s ∈ last.steps, ∀ u ∈ final.steps, ∀ n, (band d s).low ≤ n →
      n < (band d s).high → (band (opposite d) u).low ≤ n → n < (band (opposite d) u).high →
        u.liquidity ≤ s.liquidity)
    {b : Boundary} (hstart : reach d first.sqrtPrice < reach d b.sqrtPrice)
    (hturn : reach d b.sqrtPrice ≤ reach d last.sqrtPrice)
    (hfar : reach d final.sqrtPrice < reach d b.sqrtPrice) :
    ((book.boundaries.filter fun a => reach d b.sqrtPrice ≤ reach d a.sqrtPrice).map
      (surplus d first.tick last.tick)).sum ≤ 0 := by
  obtain ⟨s, hs, hlow, hhigh⟩ := exists_step_before h.chained h.forward hstart hturn
  obtain ⟨u, hu, hlow', hhigh'⟩ := exists_step_behind h.chainedBack h.forwardBack hturn hfar
  have hmore := h.depth_eq hs hlow hhigh hu hlow' hhigh'
  have hless := Fin.le_def.mp (hshallow s hs u hu _ hlow hhigh hlow' hhigh')
  have hsame : (book.boundaries.filter fun a => !passed d (cellBefore d b.sqrtPrice) a) =
      book.boundaries.filter fun a => reach d b.sqrtPrice ≤ reach d a.sqrtPrice := by
    refine List.filter_congr fun a _ => ?_
    rw [Bool.eq_iff_iff, Bool.not_eq_true', decide_eq_true_iff]
    exact passed_cellBefore hstart
  rw [hsame] at hmore
  omega

end Trip

section swap
variable {t : Ticks} {d : Direction} {state : PoolState} {amountIn priceLimit priceLimit' : U128}
  {maxCrossings maxCrossings' : ℕ} {r₁ r₂ : SwapResult}

/-- The way back is nowhere deeper exactly when the state it starts from is resumable. -/
theorem resumable_iff (ht : Indexed t)
    (hout : swapExactIn t.source d state amountIn priceLimit maxCrossings = .ok r₁)
    (hback : swapExactIn t.source (opposite d) (resumed state r₁) r₁.amountOut priceLimit'
      maxCrossings' = .ok r₂) :
    Resumable t d state (resumed state r₁) r₁.amountOut priceLimit' maxCrossings' ↔
      NowhereDeeper d r₁ r₂ := by
  obtain ⟨net, fee, last, hfee, hlimit, _, hrun, _, hr₁⟩ := swapExactIn_ok hout
  obtain ⟨net', fee', final, hfee', hlimit', _, hrun', _, hr₂⟩ := swapExactIn_ok hback
  have hover : OverBook (callOver t d priceLimit maxCrossings) ht.book := ht.source_eq
  have hover' : OverBook (callOver t (opposite d) priceLimit' maxCrossings') ht.book :=
    ht.source_eq
  obtain ⟨crossed, hprofile, _⟩ := run_profile hover hlimit hrun
  obtain ⟨recrossed, hprofile', hdue, hnone⟩ := run_profile hover' hlimit' hrun'
  obtain ⟨hbal, _⟩ := run_balanced hlimit hrun
  obtain ⟨hbal', _⟩ := run_balanced hlimit' hrun'
  have hliquidity : (resumed state r₁).liquidity = last.liquidity := by rw [hr₁]; rfl
  have htick : (resumed state r₁).tick = last.tick := by rw [hr₁]; rfl
  have hprice : (resumed state r₁).sqrtPrice = last.sqrtPrice := by rw [hr₁]; rfl
  have hsteps : r₁.steps = last.steps := by rw [hr₁]
  have hsteps' : r₂.steps = final.steps := by rw [hr₂]
  have hgoes : ∀ p, reach d p ≤ reach d last.sqrtPrice →
      (GoesPast (callOver t (opposite d) priceLimit' maxCrossings')
        (.start (resumed state r₁) r₁.amountOut) p ↔ reach d final.sqrtPrice < reach d p) := by
    intro p hp
    have hbehind : reach (opposite d) (Walk.start (resumed state r₁) net').sqrtPrice ≤
        reach (opposite d) p := by
      rw [reach_opposite, reach_opposite, neg_le_neg_iff]
      exact hp.trans_eq (congrArg (reach d) hprice.symm)
    rw [← start_eq hfee', ← neg_lt_neg_iff, ← reach_opposite, ← reach_opposite]
    exact goesPast_iff hlimit' hrun' hbehind
  simp only [NowhereDeeper, hsteps, hsteps']
  by_cases hclear : ClearAhead ht.book (opposite d) (resumed state r₁).tick
    (resumed state r₁).sqrtPrice
  · have trip : Trip ht.book d (Walk.start state net) last (Walk.start (resumed state r₁) net')
        final crossed recrossed :=
      { out := hprofile
        home := hprofile'
        clear := htick ▸ hprice ▸ hclear
        recrossed_eq := htick ▸ hdue hclear
        liquidity := hliquidity
        tick := htick
        chained := hbal.chained
        forward := fun s hs => (hbal.forward s hs).1
        chainedBack := hprice ▸ hbal'.chained
        forwardBack := fun s hs => (hbal'.forward s hs).1 }
    constructor
    · rintro (hhidden | hcounted)
      · exact absurd hclear (hidden_iff.mp hhidden)
      · intro s hs u hu n hlow hhigh hlow' hhigh'
        refine trip.shallow (fun b hb hstart hturn hfar => ?_) hs hlow hhigh hu hlow' hhigh'
        exact htick ▸ hcounted b hb hstart (hprice ▸ hturn) ((hgoes _ hturn).mpr hfar)
    · intro hshallow
      refine .inr fun b hb hstart hturn hpast => ?_
      rw [hprice] at hturn
      exact htick ▸ trip.counted hshallow hstart hturn ((hgoes _ hturn).mp hpast)
  · constructor
    · intro _ s hs u hu n hlow hhigh hlow' hhigh'
      exact hprofile.depth_of_hidden (hnone hclear ▸ hprofile') (htick ▸ hprice ▸ hclear)
        hliquidity hs hlow hhigh hu hlow' hhigh'
    · exact fun _ => .inl (hidden_iff.mpr hclear)

/-- A way back that is nowhere deeper than the way out returns no more than the swap took. -/
theorem no_profit_of_nowhereDeeper
    (hout : swapExactIn t.source d state amountIn priceLimit maxCrossings = .ok r₁)
    (hback : swapExactIn t.source (opposite d) (resumed state r₁) r₁.amountOut priceLimit'
      maxCrossings' = .ok r₂)
    (hdepth : NowhereDeeper d r₁ r₂) :
    r₂.amountOut.val ≤ (r₁.steps.map fun s => s.amountIn.val).sum + r₁.fee.val := by
  have hstate : 0 < state.sqrtPrice.val := by
    refine Nat.pos_of_ne_zero fun hz => ?_
    rw [swapExactIn, if_pos (Fin.ext hz)] at hout
    cases hout
  obtain ⟨net, fee, last, hfee, hlimit, _, hrun, _, hr₁⟩ := swapExactIn_ok hout
  obtain ⟨net', fee', final, hfee', hlimit', _, hrun', _, hr₂⟩ := swapExactIn_ok hback
  obtain ⟨hbal, _⟩ := run_balanced hlimit hrun
  obtain ⟨hbal', _⟩ := run_balanced hlimit' hrun'
  have hprice : (resumed state r₁).sqrtPrice = last.sqrtPrice := by rw [hr₁]; rfl
  have hpaid : r₁.amountOut = last.amountOut := by rw [hr₁]
  have htop := positive_end hbal hstate
  have hturn : (Walk.start (resumed state r₁) net').sqrtPrice = last.sqrtPrice := hprice
  have hstop := positive_end hbal' (hturn ▸ htop)
  have hchained := hbal'.chained
  rw [hturn] at hchained
  have hsold : weigh (potential (opposite d)) (bands (opposite d) final.steps) ≤
      weigh (potential (opposite d)) (bands d last.steps) := by
    have hin := weigh_le_inputs hbal'
    have hpay := outputs_le_weigh hbal
    refine hin.trans (le_trans (Nat.cast_le.mpr ?_) hpay)
    have hsum := hbal'.inputs
    have hnet := (takeFee_ok hfee').2.2
    have hstart : (Walk.start (resumed state r₁) net').remaining = net' := rfl
    rw [hstart] at hsum
    rw [hpaid] at hnet
    omega
  have hbought := weigh_back_le hstate htop hstop hbal.chained (fun s hs => (hbal.forward s hs).1)
    hchained (fun s hs => (hbal'.forward s hs).1) ?_ hsold
  · have hin := weigh_le_inputs hbal
    have hpay := outputs_le_weigh hbal'
    rw [opposite_opposite] at hpay
    have htotal : final.amountOut.val ≤ (last.steps.map fun s => s.amountIn.val).sum :=
      Nat.cast_le.mp (hpay.trans (hbought.trans hin))
    rw [hr₁, hr₂]
    dsimp only
    omega
  · intro n s hs hlow hhigh u hu hlow' hhigh'
    rw [hr₁, hr₂] at hdepth
    exact hdepth s hs u hu n hlow hhigh hlow' hhigh'

/-- Selling back what a swap paid out never returns more than the swap took, if the state
it left is resumable; if it is not, the way back is somewhere priced too deep. -/
theorem round_trip_no_profit (t : Ticks) (ht : t.Accepted) (d : Direction) (state : PoolState)
    (amountIn priceLimit priceLimit' : U128) (maxCrossings maxCrossings' : ℕ) (r₁ r₂ : SwapResult)
    (hout : swapExactIn t.source d state amountIn priceLimit maxCrossings = .ok r₁)
    (hback : swapExactIn t.source (opposite d) (resumed state r₁) r₁.amountOut priceLimit'
      maxCrossings' = .ok r₂) :
    (Resumable t d state (resumed state r₁) r₁.amountOut priceLimit' maxCrossings' →
      r₂.amountOut.val ≤ (r₁.steps.map fun s => s.amountIn.val).sum + r₁.fee.val) ∧
    (Resumable t d state (resumed state r₁) r₁.amountOut priceLimit' maxCrossings' ↔
      NowhereDeeper d r₁ r₂) := by
  have hiff := resumable_iff (accepted_indexed ht) hout hback
  exact ⟨fun hres => no_profit_of_nowhereDeeper hout hback (hiff.mp hres), hiff⟩

end swap

/-- A pool inside both positions, whose sale crosses the lower end of one. -/
def upperPool : PoolState :=
  { sqrtPrice := 18492916316576902928, liquidity := 1000000, tick := 50, feeRate := 0 }

def outwardSale : SwapResult :=
  { amountIn := 4000
    fee := 0
    amountOut := 4002
    sqrtPriceStart := 18492916316576902928
    sqrtPriceEnd := 18400650444346463725
    tickStart := 50
    tickEnd := 0
    liquidityStart := 1000000
    liquidityEnd := 600000
    inputConsumed := true
    steps :=
      [{ amountIn := 2497
         amountOut := 2503
         sqrtPriceStart := 18492916316576902928
         sqrtPriceEnd := 18446744073709551616
         liquidity := 1000000
         crossed := true },
       { amountIn := 1503
         amountOut := 1499
         sqrtPriceStart := 18446744073709551616
         sqrtPriceEnd := 18400650444346463725
         liquidity := 600000
         crossed := false }] }

def returnPurchase : SwapResult :=
  { amountIn := 4002
    fee := 0
    amountOut := 3995
    sqrtPriceStart := 18400650444346463725
    sqrtPriceEnd := 18523690227318106434
    tickStart := 0
    tickEnd := 0
    liquidityStart := 600000
    liquidityEnd := 600000
    inputConsumed := true
    steps :=
      [{ amountIn := 4002
         amountOut := 3995
         sqrtPriceStart := 18400650444346463725
         sqrtPriceEnd := 18523690227318106434
         liquidity := 600000
         crossed := false }] }

/-- The tick it turns on took liquidity out, so the way back is shallower. -/
theorem round_trip_no_profit_sale :
    returnPurchase.amountOut.val ≤
        (outwardSale.steps.map fun s => s.amountIn.val).sum + outwardSale.fee.val ∧
      NowhereDeeper .aToB outwardSale returnPurchase := by
  obtain ⟨hprofit, hdeeper⟩ := round_trip_no_profit twoPositionsIndex twoPositionsIndex_accepted
    .aToB upperPool 4000 minSqrtPrice maxSqrtPrice 64 64 outwardSale returnPurchase
    (by decide +kernel) (by decide +kernel)
  have hres : Resumable twoPositionsIndex .aToB upperPool (resumed upperPool outwardSale)
      outwardSale.amountOut maxSqrtPrice 64 := by
    refine .inr fun b hb hstart hturn _ => ?_
    simp only [twoPositionsIndex, twoPositions, List.map_cons, List.map_nil, List.mem_cons,
      List.not_mem_nil, or_false] at hb
    rcases hb with rfl | rfl | rfl
    · exact absurd hturn (by decide)
    · decide
    · exact absurd hstart (by decide)
  exact ⟨hprofit hres, hdeeper.mp hres⟩

/-- A pool below the position that starts at tick 0. -/
def lowerPool : PoolState :=
  { sqrtPrice := 18355662856509308959, liquidity := 600000, tick := -99, feeRate := 0 }

def outwardPurchase : SwapResult :=
  { amountIn := 4000
    fee := 0
    amountOut := 4012
    sqrtPriceStart := 18355662856509308959
    sqrtPriceEnd := 18465873347313988421
    tickStart := -99
    tickEnd := 0
    liquidityStart := 600000
    liquidityEnd := 1000000
    inputConsumed := true
    steps :=
      [{ amountIn := 2963
         amountOut := 2977
         sqrtPriceStart := 18355662856509308959
         sqrtPriceEnd := 18446744073709551616
         liquidity := 600000
         crossed := true },
       { amountIn := 1037
         amountOut := 1035
         sqrtPriceStart := 18446744073709551616
         sqrtPriceEnd := 18465873347313988421
         liquidity := 1000000
         crossed := false }] }

def returnSale : SwapResult :=
  { amountIn := 4012
    fee := 0
    amountOut := 4004
    sqrtPriceStart := 18465873347313988421
    sqrtPriceEnd := 18392008091929453435
    tickStart := 0
    tickEnd := 0
    liquidityStart := 1000000
    liquidityEnd := 1000000
    inputConsumed := true
    steps :=
      [{ amountIn := 4012
         amountOut := 4004
         sqrtPriceStart := 18465873347313988421
         sqrtPriceEnd := 18392008091929453435
         liquidity := 1000000
         crossed := false }] }

/-- Buying up through tick 0 and selling everything back earns four units of B. -/
theorem round_trip_profits_from_below :
    twoPositionsIndex.Accepted ∧
    tickAtSqrtPrice lowerPool.sqrtPrice = .ok lowerPool.tick ∧
    swapExactIn twoPositionsIndex.source .bToA lowerPool 4000 maxSqrtPrice 64 =
      .ok outwardPurchase ∧
    swapExactIn twoPositionsIndex.source .aToB (resumed lowerPool outwardPurchase)
      outwardPurchase.amountOut minSqrtPrice 64 = .ok returnSale ∧
    ¬ returnSale.amountOut.val ≤
      (outwardPurchase.steps.map fun s => s.amountIn.val).sum + outwardPurchase.fee.val :=
  ⟨twoPositionsIndex_accepted, by decide +kernel, by decide +kernel, by decide +kernel,
    by decide +kernel⟩

end RoundTrip
