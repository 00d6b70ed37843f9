import Birdai.Amm.WalkShape
import Birdai.Tick.TickBook

/-!
# What a swap does to its book

The boundaries a walk crosses, watched by a log, against the boundaries the book
says are due. A walk that starts with no boundary behind its back crosses exactly
those strictly past its starting tick, once each and in order.
-/

namespace BookTraversal

open WideArith CheckedWords Outcomes BoundedLoop SwapExactIn PricingSpecs StepRounding WalkShape
open TickMath TickIndex TickBook

/-- The boundary a pass crossed, if it crossed one. -/
def crossedIn (c : Call) (w : Walk) (p : Pass Walk) : List Boundary :=
  if p.state.crossings = w.crossings then [] else (c.nextBoundary w).toList

/-- The boundaries a swap crosses, in the order it crosses them. -/
def crossedBoundaries (source : TickSource) (direction : Direction) (state : PoolState)
    (amountIn priceLimit : U128) (maxCrossings : ℕ) : List Boundary :=
  let c : Call := { source, direction, priceLimit, maxCrossings }
  match takeFee amountIn state.feeRate with
  | .error _ => []
  | .ok (netInput, _) =>
    match (c.loop.logged (crossedIn c)).run (Walk.start state netInput, []) with
    | .error _ => []
    | .ok (_, log) => log

/-- What crossing these boundaries adds to the liquidity in force. -/
def inflow (d : Direction) (bs : List Boundary) : ℤ :=
  (bs.map fun b => along d b.liquidityNet.val).sum

theorem inflow_append {d : Direction} {as bs : List Boundary} :
    inflow d (as ++ bs) = inflow d as + inflow d bs := by
  simp [inflow]

/-- Crossing applies the net upwards as it is, and downwards negated. -/
theorem cross_liquidity {c : Call} {w : Walk} {b : Boundary} {p : Pass Walk}
    (h : c.cross w b = .ok p) :
    p.state.tick = b.tick ∧ p.state.sqrtPrice = w.sqrtPrice ∧ p.state.steps = w.steps ∧
      p.state.crossings = w.crossings + 1 ∧
      (p.state.liquidity.val : ℤ) = w.liquidity.val + along c.direction b.liquidityNet.val := by
  obtain ⟨_, net, liquidity, hnet, hliq, hstate, _⟩ := c.cross_ok h
  rw [hstate]
  refine ⟨rfl, rfl, rfl, rfl, ?_⟩
  exact (applied_eq_ok_iff.mp ⟨net, hnet, hliq⟩).2

theorem crossedIn_cross {c : Call} {w moved : Walk} {b : Boundary} {p : Pass Walk}
    (hkeep : moved.crossings = w.crossings) (hb : c.nextBoundary w = some b)
    (h : c.cross moved b = .ok p) : crossedIn c w p = [b] := by
  have hcount := (cross_liquidity h).2.2.2.1
  rw [crossedIn, if_neg (by omega), hb]
  rfl

theorem crossedIn_stay {c : Call} {w moved : Walk} {p : Pass Walk}
    (hp : p = .leave moved) (hkeep : moved.crossings = w.crossings) : crossedIn c w p = [] := by
  subst hp
  exact if_pos hkeep

/-- The walk, its log and the book agree: the log holds what lies between the
first tick and the current one, and the rest of the book is still ahead. -/
structure Tracked (book : Book) (d : Direction) (first w : Walk) (log : List Boundary) :
    Prop where
  ordered : log.Pairwise (Book.Before d)
  mem : ∀ b, b ∈ log ↔ b ∈ book.boundaries ∧ along d first.tick < along d b.tick ∧
    along d b.tick ≤ along d w.tick
  behind : ∀ b ∈ log, reach d b.sqrtPrice ≤ reach d w.sqrtPrice
  ahead : ∀ b ∈ book.boundaries, along d w.tick < along d b.tick →
    reach d w.sqrtPrice < reach d b.sqrtPrice
  onward : along d first.tick ≤ along d w.tick
  landed : w.tick = first.tick ∨ ∃ b ∈ log, b.tick = w.tick
  liquidity : (w.liquidity.val : ℤ) = first.liquidity.val + inflow d log
  ranges : ∀ s ∈ w.steps, reach d s.sqrtPriceStart < reach d w.sqrtPrice ∧
    (s.liquidity.val : ℤ) = first.liquidity.val +
      inflow d (log.filter fun b => reach d b.sqrtPrice ≤ reach d s.sqrtPriceStart)
  apart : ∀ s ∈ w.steps, reach d s.sqrtPriceEnd ≤ reach d w.sqrtPrice ∧
    ∀ b ∈ log, reach d b.sqrtPrice ≤ reach d s.sqrtPriceStart ∨
      reach d s.sqrtPriceEnd ≤ reach d b.sqrtPrice

/-- No boundary strictly past the tick lies at or behind the price. -/
def ClearAhead (book : Book) (d : Direction) (tick : ℤ) (sqrtPrice : U128) : Prop :=
  ∀ b ∈ book.boundaries, along d tick < along d b.tick → reach d sqrtPrice < reach d b.sqrtPrice

theorem tracked_start {book : Book} {d : Direction} {w : Walk} (hsteps : w.steps = [])
    (hclear : ClearAhead book d w.tick w.sqrtPrice) : Tracked book d w w [] where
  ordered := .nil
  mem b := by
    simp only [List.not_mem_nil, false_iff, not_and, not_le]
    exact fun _ h => h
  behind := by simp
  ahead := hclear
  onward := le_rfl
  landed := .inl rfl
  liquidity := by simp [inflow]
  ranges := by simp [hsteps]
  apart := by simp [hsteps]

/-- A call whose source is a book. -/
def OverBook (c : Call) (book : Book) : Prop := c.source = book.source

theorem nextBoundary_eq {c : Call} {book : Book} (hc : OverBook c book) (w : Walk) :
    c.nextBoundary w = (book.next c.direction w.tick).filter
      fun b => isAhead c.direction b.sqrtPrice w.sqrtPrice := by
  simp only [Call.nextBoundary]
  rw [hc]
  cases c.direction <;> rfl

/-- With a clear view the filter never hides the next boundary. -/
theorem nextBoundary_of_clear {c : Call} {book : Book} (hc : OverBook c book) {w : Walk}
    (hclear : ClearAhead book c.direction w.tick w.sqrtPrice) :
    c.nextBoundary w = book.next c.direction w.tick := by
  rw [nextBoundary_eq hc]
  cases hb : book.next c.direction w.tick with
  | none => rfl
  | some b =>
    obtain ⟨hmem, hlt, _⟩ := book.next_eq_some_iff.mp hb
    exact Option.filter_eq_some_iff.mpr ⟨rfl, isAhead_iff.mpr (hclear b hmem hlt)⟩

theorem stepLimit_le_boundary (c : Call) (b : Boundary) :
    reach c.direction (c.stepLimit (some b)) ≤ reach c.direction b.sqrtPrice := by
  rw [reach_stepLimit]
  exact min_le_left _ _

/-- A step that did not land on the boundary it was offered stops short of it. -/
theorem stop_short {c : Call} {w moved : Walk} {s : Step} {a : Boundary}
    (hnext : c.nextBoundary w = some a) (hadv : Advanced c w (c.nextBoundary w) moved s)
    (hland : s.crossed = true → a.sqrtPrice ≠ s.sqrtPriceEnd) :
    reach c.direction s.sqrtPriceEnd < reach c.direction a.sqrtPrice := by
  have htarget := stepLimit_le_boundary c a
  have hpriced := hadv.priced
  have hwithin := hadv.within
  rw [hnext] at hpriced hwithin
  cases hcrossed : s.crossed with
  | true =>
    refine lt_of_le_of_ne (hwithin.trans htarget) fun he => ?_
    exact hland hcrossed (reach_inj.mp he).symm
  | false =>
    rw [hcrossed] at hpriced
    obtain ⟨full, _, hend⟩ := nextPrice_ok hpriced
    rcases hend with ⟨htrue, _⟩ | ⟨_, hend, hlt⟩
    · cases htrue
    · rw [hend]
      exact hlt.trans_le htarget

/-- A filter by price ignores a boundary that lies ahead of the price. -/
theorem filter_concat_ahead {d : Direction} {log : List Boundary} {b : Boundary} {p : U128}
    (h : reach d p < reach d b.sqrtPrice) :
    ((log ++ [b]).filter fun a => reach d a.sqrtPrice ≤ reach d p) =
      log.filter fun a => reach d a.sqrtPrice ≤ reach d p := by
  rw [List.filter_append, List.filter_cons_of_neg (by simpa using h), List.filter_nil,
    List.append_nil]

theorem filter_behind {d : Direction} {log : List Boundary} {p : U128}
    (h : ∀ a ∈ log, reach d a.sqrtPrice ≤ reach d p) :
    (log.filter fun a => reach d a.sqrtPrice ≤ reach d p) = log :=
  List.filter_eq_self.mpr fun a ha => by simpa using h a ha

theorem Tracked.advance {c : Call} {book : Book} (hc : OverBook c book) {first w moved : Walk}
    {log : List Boundary} {s : Step} (h : Tracked book c.direction first w log)
    (hadv : Advanced c w (c.nextBoundary w) moved s)
    (hland : s.crossed = true → ∀ b, c.nextBoundary w = some b → b.sqrtPrice ≠ moved.sqrtPrice) :
    Tracked book c.direction first moved log := by
  have hforward := hadv.forward
  have hnext := nextBoundary_of_clear hc h.ahead
  have hprice : moved.sqrtPrice = s.sqrtPriceEnd := by rw [hadv.moved_eq]
  rw [hprice] at hland
  rw [hadv.moved_eq]
  refine ⟨h.ordered, h.mem, ?_, ?_, h.onward, h.landed, h.liquidity, ?_, ?_⟩
  · intro b hb
    exact (h.behind b hb).trans hforward.le
  · intro b hb hlt
    cases hn : book.next c.direction w.tick with
    | none => exact absurd hlt (book.next_eq_none_iff.mp hn b hb)
    | some a =>
      obtain ⟨ha, _, hleast⟩ := book.next_eq_some_iff.mp hn
      have hshort := stop_short (hnext.trans hn) hadv fun hs => hland hs a (hnext.trans hn)
      rcases lt_or_eq_of_le (hleast b hb hlt) with hbefore | hsame
      · exact hshort.trans (book.reach_lt_reach ha hb hbefore)
      · exact book.eq_of_tick_eq ha hb (along_inj.mp hsame) ▸ hshort
  · simp only [List.mem_append, List.mem_singleton]
    rintro t (ht | rfl)
    · exact ⟨(h.ranges t ht).1.trans hforward, (h.ranges t ht).2⟩
    · rw [hadv.start, hadv.liquidity, filter_behind h.behind]
      exact ⟨hforward, h.liquidity⟩
  · simp only [List.mem_append, List.mem_singleton]
    rintro t (ht | rfl)
    · exact ⟨(h.apart t ht).1.trans hforward.le, (h.apart t ht).2⟩
    · rw [hadv.start]
      exact ⟨le_rfl, fun b hb => .inl (h.behind b hb)⟩

theorem Tracked.cross {c : Call} {book : Book} (hc : OverBook c book) {first w moved : Walk}
    {log : List Boundary} {s : Step} {b : Boundary} {p : Pass Walk}
    (h : Tracked book c.direction first w log)
    (hadv : Advanced c w (c.nextBoundary w) moved s) (hb : c.nextBoundary w = some b)
    (hland : b.sqrtPrice = moved.sqrtPrice) (hcross : c.cross moved b = .ok p) :
    Tracked book c.direction first p.state (log ++ [b]) := by
  have hforward := hadv.forward
  have hprice : moved.sqrtPrice = s.sqrtPriceEnd := by rw [hadv.moved_eq]
  have hliquidity : moved.liquidity = w.liquidity := by rw [hadv.moved_eq]
  have hsteps : moved.steps = w.steps ++ [s] := by rw [hadv.moved_eq]
  obtain ⟨htick, hsqrt, hkept, _, hnet⟩ := cross_liquidity hcross
  rw [nextBoundary_of_clear hc h.ahead] at hb
  obtain ⟨hmem, hpast, hleast⟩ := book.next_eq_some_iff.mp hb
  rw [hliquidity] at hnet
  rw [hsteps] at hkept
  rw [hprice] at hsqrt hland
  refine ⟨?_, ?_, ?_, ?_, ?_, .inr ⟨b, ?_, htick.symm⟩, ?_, ?_, ?_⟩
  · rw [List.pairwise_append]
    refine ⟨h.ordered, List.pairwise_singleton _ _, ?_⟩
    intro a ha b' hb'
    rw [List.mem_singleton.mp hb']
    exact ((h.mem a).mp ha).2.2.trans_lt hpast
  · intro a
    rw [List.mem_append, List.mem_singleton, h.mem, htick]
    constructor
    · rintro (⟨ha, hfirst, hle⟩ | rfl)
      · exact ⟨ha, hfirst, hle.trans hpast.le⟩
      · exact ⟨hmem, h.onward.trans_lt hpast, le_rfl⟩
    · rintro ⟨ha, hfirst, hle⟩
      rcases le_or_gt (along c.direction a.tick) (along c.direction w.tick) with hpassed | hahead
      · exact .inl ⟨ha, hfirst, hpassed⟩
      · have hsame := le_antisymm hle (hleast a ha hahead)
        exact .inr (book.eq_of_tick_eq ha hmem (along_inj.mp hsame))
  · simp only [List.mem_append, List.mem_singleton, hsqrt]
    rintro a (ha | rfl)
    · exact (h.behind a ha).trans hforward.le
    · exact hland ▸ le_rfl
  · intro a ha hlt
    rw [htick] at hlt
    rw [hsqrt, ← hland]
    exact book.reach_lt_reach hmem ha hlt
  · rw [htick]
    exact h.onward.trans hpast.le
  · exact List.mem_append_right _ List.mem_cons_self
  · rw [hnet, h.liquidity, inflow_append]
    simp only [inflow, List.map_singleton, List.sum_singleton]
    ring
  · simp only [hkept, hsqrt, List.mem_append, List.mem_singleton]
    rintro t (ht | rfl)
    · have hstart := (h.ranges t ht).1
      rw [filter_concat_ahead (hland ▸ hstart.trans hforward)]
      exact ⟨hstart.trans hforward, (h.ranges t ht).2⟩
    · rw [hadv.start, hadv.liquidity, filter_concat_ahead (hland ▸ hforward),
        filter_behind h.behind]
      exact ⟨hforward, h.liquidity⟩
  · simp only [hkept, hsqrt, List.mem_append, List.mem_singleton]
    rintro t (ht | rfl)
    · have hbefore := (h.apart t ht).1.trans hforward.le
      refine ⟨hbefore, ?_⟩
      rintro a (ha | rfl)
      · exact (h.apart t ht).2 a ha
      · exact .inr (hland ▸ hbefore)
    · rw [hadv.start]
      refine ⟨le_rfl, ?_⟩
      rintro a (ha | rfl)
      · exact .inl (h.behind a ha)
      · exact .inr (hland ▸ le_rfl)

/-- One pass keeps the walk, its log and the book in agreement. -/
theorem Tracked.pass {c : Call} {book : Book} (hc : OverBook c book) {first w : Walk}
    {log : List Boundary} {p : Pass Walk} (h : Tracked book c.direction first w log)
    (hlimit : reach c.direction w.sqrtPrice ≤ reach c.direction c.priceLimit)
    (hpass : c.pass w = .ok p) :
    Tracked book c.direction first p.state (log ++ crossedIn c w p) := by
  rcases pass_advanced hlimit hpass with
    ⟨_, hp⟩ | ⟨_, _, moved, s, hadv, ⟨hp, hland⟩ | ⟨_, b, hb, hland, hcross⟩⟩
  · rw [crossedIn_stay hp rfl, List.append_nil, hp]
    exact h
  · have hkeep : moved.crossings = w.crossings := by rw [hadv.moved_eq]
    rw [crossedIn_stay hp hkeep, List.append_nil, hp]
    exact h.advance hc hadv hland
  · have hkeep : moved.crossings = w.crossings := by rw [hadv.moved_eq]
    rw [crossedIn_cross hkeep hb hcross]
    exact h.cross hc hadv hb hland hcross

theorem swap_logged {source : TickSource} {direction : Direction} {state : PoolState}
    {amountIn priceLimit : U128} {maxCrossings : ℕ} {netInput fee : U128} {final : Walk}
    (hfee : takeFee amountIn state.feeRate = .ok (netInput, fee))
    (hrun : (Call.loop { source, direction, priceLimit, maxCrossings }).run
      (Walk.start state netInput) = .ok final) :
    (Loop.logged (Call.loop { source, direction, priceLimit, maxCrossings })
      (crossedIn { source, direction, priceLimit, maxCrossings })).run
        (Walk.start state netInput, []) =
      .ok (final, crossedBoundaries source direction state amountIn priceLimit maxCrossings) := by
  have hlogged := Loop.logged_run (Call.loop { source, direction, priceLimit, maxCrossings })
    (crossedIn { source, direction, priceLimit, maxCrossings }) (Walk.start state netInput) []
  rw [hrun] at hlogged
  simp only [crossedBoundaries]
  rw [hfee]
  dsimp only
  generalize Loop.run _ (Walk.start state netInput, []) = outcome at hlogged ⊢
  cases outcome with
  | error e => cases hlogged
  | ok result =>
    obtain ⟨walk, log⟩ := result
    cases hlogged
    rfl

/-- A whole walk that starts with a clear view stays in agreement with its book. -/
theorem run_tracked {c : Call} {book : Book} (hc : OverBook c book) {state : PoolState}
    {netInput : U128} {final : Walk} {log : List Boundary}
    (hlimit : reach c.direction state.sqrtPrice ≤ reach c.direction c.priceLimit)
    (hclear : ClearAhead book c.direction state.tick state.sqrtPrice)
    (hrun : (c.loop.logged (crossedIn c)).run (Walk.start state netInput, []) =
      .ok (final, log)) :
    Tracked book c.direction (Walk.start state netInput) final log := by
  have hboth := c.loop.logged_invariant
    (I := fun w l => Balanced c (Walk.start state netInput) w ∧
      Tracked book c.direction (Walk.start state netInput) w l)
    (fun w l p hw hpass => ⟨hw.1.pass hpass, hw.2.pass hc hw.1.within hpass⟩) hrun
    ⟨balanced_start rfl rfl rfl hlimit, tracked_start rfl hclear⟩
  exact hboth.2

/-! ### The first step -/

/-- A walk that took a step took it in its first pass. -/
theorem first_step {c : Call} {first final : Walk} (hempty : first.steps = [])
    (hlimit : reach c.direction first.sqrtPrice ≤ reach c.direction c.priceLimit)
    (hrun : c.loop.run first = .ok final) (hsteps : final.steps ≠ []) :
    ∃ p moved s, c.pass first = .ok p ∧ Advanced c first (c.nextBoundary first) moved s ∧
      ((p = .leave moved ∧ (s.crossed = true →
          ∀ b, c.nextBoundary first = some b → b.sqrtPrice ≠ moved.sqrtPrice)) ∨
        (s.crossed = true ∧ ∃ b, c.nextBoundary first = some b ∧
          b.sqrtPrice = moved.sqrtPrice ∧ c.cross moved b = .ok p)) := by
  match hb : c.pass first with
  | .error e =>
    rw [c.loop.run_of_error hb] at hrun
    cases hrun
  | .ok p =>
    rcases pass_advanced hlimit hb with ⟨_, hp⟩ | ⟨_, _, moved, s, hadv, hend⟩
    · rw [c.loop.run_of_leave (hp ▸ hb)] at hrun
      cases hrun
      exact absurd hempty hsteps
    · exact ⟨p, moved, s, rfl, hadv, hend⟩

/-- What the first step has reached, the walk never gives back. -/
theorem final_beyond {c : Call} {first final : Walk} {x : U128}
    (hlimit : reach c.direction first.sqrtPrice ≤ reach c.direction c.priceLimit)
    (hfirst : ∀ p, c.pass first = .ok p → reach c.direction x ≤ reach c.direction p.state.sqrtPrice)
    (hrun : c.loop.run first = .ok final) :
    reach c.direction x ≤ reach c.direction final.sqrtPrice := by
  obtain ⟨p, hpass, rfl | ⟨u, rfl, hrun⟩⟩ := c.loop.run_ok_cases hrun
  · exact hfirst _ hpass
  · exact (hfirst _ hpass).trans (run_onward (pass_onward hlimit hpass).2 hrun)

/-- With no boundary in sight the walk is a single step that crosses nothing. -/
theorem run_of_no_boundary {c : Call} {first final : Walk} (hempty : first.steps = [])
    (hlimit : reach c.direction first.sqrtPrice ≤ reach c.direction c.priceLimit)
    (hnone : c.nextBoundary first = none)
    (hrun : c.loop.run first = .ok final) (hsteps : final.steps ≠ []) :
    (c.loop.logged (crossedIn c)).run (first, []) = .ok (final, []) ∧
      ∃ s, Advanced c first none final s := by
  obtain ⟨p, moved, s, hpass, hadv, ⟨rfl, _⟩ | ⟨_, b, hb, _⟩⟩ :=
    first_step hempty hlimit hrun hsteps
  · rw [c.loop.run_of_leave hpass] at hrun
    cases hrun
    rw [hnone] at hadv
    refine ⟨?_, s, hadv⟩
    have hkeep : final.crossings = first.crossings := by rw [hadv.moved_eq]
    apply Loop.run_of_leave
    simp only [Loop.logged, Call.loop, hpass, Pass.map, crossedIn_stay rfl hkeep, List.append_nil]
  · rw [hnone] at hb
    cases hb

theorem le_stepLimit {c : Call} {boundary : Option Boundary} {x : U128}
    (hboundary : ∀ b, boundary = some b → reach c.direction x ≤ reach c.direction b.sqrtPrice)
    (hlimit : reach c.direction x ≤ reach c.direction c.priceLimit) :
    reach c.direction x ≤ reach c.direction (c.stepLimit boundary) := by
  rw [reach_stepLimit]
  refine le_min ?_ hlimit
  cases boundary with
  | none => exact hlimit
  | some b => exact hboundary b rfl

/-- Whether a walk stops before the boundary its own starting tick holds is decided
by the limit and the price the whole input would reach. -/
theorem stops_before_iff {c : Call} {book : Book} (hc : OverBook c book) {first final : Walk}
    {a : Boundary} (ha : a ∈ book.boundaries) (htick : a.tick = first.tick)
    (hempty : first.steps = []) (hbal : Balanced c first final)
    (hlimit : reach c.direction first.sqrtPrice ≤ reach c.direction c.priceLimit)
    (hrun : c.loop.run first = .ok final) (hsteps : final.steps ≠ []) :
    reach c.direction final.sqrtPrice < reach c.direction a.sqrtPrice ↔
      reach c.direction c.priceLimit < reach c.direction a.sqrtPrice ∨
      ∀ full, priceFromAmount c.direction first.sqrtPrice first.liquidity first.remaining =
        .ok full → reach c.direction full < reach c.direction a.sqrtPrice := by
  obtain ⟨p, moved, s, hpass, hadv, hend⟩ := first_step hempty hlimit hrun hsteps
  obtain ⟨full, hfull, hpriced⟩ := nextPrice_ok hadv.priced
  have hprice : moved.sqrtPrice = s.sqrtPriceEnd := by rw [hadv.moved_eq]
  have hpast : ∀ b, c.nextBoundary first = some b →
      reach c.direction a.sqrtPrice < reach c.direction b.sqrtPrice := by
    intro b hb
    rw [nextBoundary_eq hc] at hb
    obtain ⟨hmem, hlt, _⟩ := book.next_eq_some_iff.mp (Option.filter_eq_some_iff.mp hb).1
    rw [← htick] at hlt
    exact book.reach_lt_reach ha hmem hlt
  constructor
  · intro hstop
    by_contra hfar
    rw [not_or, not_lt, not_forall] at hfar
    obtain ⟨hlim, full', hfar⟩ := hfar
    rw [Classical.not_imp, hfull, Except.ok.injEq, not_lt] at hfar
    obtain ⟨rfl, hfar⟩ := hfar
    refine absurd hstop (not_lt.mpr (final_beyond hlimit ?_ hrun))
    intro q hq
    obtain rfl := Except.ok.inj (hpass.symm.trans hq)
    have hreached : reach c.direction a.sqrtPrice ≤ reach c.direction s.sqrtPriceEnd := by
      rcases hpriced with ⟨_, hat, _⟩ | ⟨_, hat, _⟩
      · rw [hat]
        exact le_stepLimit (fun b hb => (hpast b hb).le) hlim
      · rw [hat]
        exact hfar
    rcases hend with ⟨rfl, _⟩ | ⟨_, b, _, _, hcross⟩
    · exact hprice ▸ hreached
    · rw [(cross_liquidity hcross).2.1, hprice]
      exact hreached
  · rintro (hlim | hfar)
    · exact hbal.within.trans_lt hlim
    · have hshort : reach c.direction s.sqrtPriceEnd < reach c.direction a.sqrtPrice := by
        rcases hpriced with ⟨_, hat, hle⟩ | ⟨_, hat, _⟩
        · rw [hat]
          exact hle.trans_lt (hfar full hfull)
        · rw [hat]
          exact hfar full hfull
      rcases hend with ⟨rfl, _⟩ | ⟨_, b, hb, hland, _⟩
      · rw [c.loop.run_of_leave hpass] at hrun
        cases hrun
        exact hprice ▸ hshort
      · -- Landing on a boundary would carry the walk past `a`.
        rw [hprice] at hland
        exact absurd (hpast b hb) (not_lt.mpr (hland ▸ hshort.le))

/-! ### Boundaries that are due -/

/-- The initialised ticks a swap that started at `tick` and stopped at `stop` owes
a crossing. A tick owns the range above it, so the starting tick itself is due
only downwards. -/
def due (d : Direction) (boundaries : List Boundary) (tick : ℤ) (stop : U128) : List Boundary :=
  match d with
  | .bToA => boundaries.filter fun b => tick < b.tick ∧ b.sqrtPrice ≤ stop
  | .aToB => boundaries.reverse.filter fun b => b.tick ≤ tick ∧ stop ≤ b.sqrtPrice

/-- The same without the starting tick, in either direction. -/
def strictDue (d : Direction) (book : Book) (tick : ℤ) (stop : U128) : List Boundary :=
  (book.travel d).filter fun b =>
    along d tick < along d b.tick ∧ reach d b.sqrtPrice ≤ reach d stop

theorem due_eq_strictDue {d : Direction} (book : Book) {tick : ℤ} {stop : U128}
    (hstart : d = .aToB → ∀ b ∈ book.boundaries, b.tick = tick → b.sqrtPrice < stop) :
    due d book.boundaries tick stop = strictDue d book tick stop := by
  cases d with
  | bToA =>
    refine List.filter_congr fun b _ => ?_
    simp [reach, along]
  | aToB =>
    refine List.filter_congr fun b hb => ?_
    have hstart := hstart rfl b (List.mem_reverse.mp hb)
    simp only [reach, along, decide_eq_decide, neg_lt_neg_iff, neg_le_neg_iff, Nat.cast_le,
      Fin.val_fin_le]
    constructor
    · rintro ⟨hle, hprice⟩
      refine ⟨lt_of_le_of_ne hle fun he => ?_, hprice⟩
      exact absurd hprice (not_le.mpr (hstart he))
    · rintro ⟨hlt, hprice⟩
      exact ⟨hlt.le, hprice⟩

theorem Tracked.log_eq {book : Book} {d : Direction} {first w : Walk} {log : List Boundary}
    (h : Tracked book d first w log) : log = strictDue d book first.tick w.sqrtPrice := by
  refine h.ordered.eq_of_mem_iff ((book.travel_ordered d).filter _) fun b => ?_
  rw [h.mem, strictDue, List.mem_filter, book.mem_travel, decide_eq_true_iff]
  constructor
  · rintro ⟨hb, hfirst, hle⟩
    exact ⟨hb, hfirst, h.behind b ((h.mem b).mpr ⟨hb, hfirst, hle⟩)⟩
  · rintro ⟨hb, hfirst, hprice⟩
    refine ⟨hb, hfirst, not_lt.mp fun hlt => ?_⟩
    exact absurd hprice (not_le.mpr (h.ahead b hb hlt))

theorem strictDue_filter {book : Book} {d : Direction} {tick : ℤ} {near far : U128}
    (h : reach d near ≤ reach d far) :
    ((strictDue d book tick far).filter fun b => reach d b.sqrtPrice ≤ reach d near) =
      strictDue d book tick near := by
  rw [strictDue, strictDue, List.filter_filter]
  refine List.filter_congr fun b _ => ?_
  rw [← Bool.decide_and, decide_eq_decide]
  constructor
  · rintro ⟨hnear, htick, _⟩
    exact ⟨htick, hnear⟩
  · rintro ⟨htick, hnear⟩
    exact ⟨hnear, htick, hnear.trans h⟩

/-- The swap crossed what was due, once each and in order, ends with the book's
liquidity and priced every step with the liquidity of the range it moved through. -/
structure ExactTraversal (d : Direction) (boundaries : List Boundary) (state : PoolState)
    (r : SwapResult) (crossed : List Boundary) : Prop where
  crossed : crossed = due d boundaries state.tick r.sqrtPriceEnd
  liquidityEnd : (r.liquidityEnd.val : ℤ) =
    state.liquidity.val + inflow d (due d boundaries state.tick r.sqrtPriceEnd)
  ranges : ∀ s ∈ r.steps, (s.liquidity.val : ℤ) =
    state.liquidity.val + inflow d (due d boundaries state.tick s.sqrtPriceStart)

/-- Below the tick of a price, every stored price is below the price. -/
theorem clear_downwards {book : Book} {sqrtPrice : U128} {tick : ℤ} (hpos : sqrtPrice ≠ 0)
    (htick : tickAtSqrtPrice sqrtPrice = .ok tick) :
    ∀ b ∈ book.boundaries, b.tick < tick → b.sqrtPrice < sqrtPrice := by
  intro b hb hlt
  obtain ⟨found, hfound, _, hmax, hle, _⟩ := tickAtSqrtPrice_ok hpos
  obtain rfl := Except.ok.inj (hfound.symm.trans htick)
  have hmin := (book.inRange b hb).1
  have hbelow := book.price_lt_priceAt hb hlt hmax
  rcases hle with hend | hle
  · omega
  · exact Fin.lt_def.mpr (hbelow.trans_le hle)

/-- The next tick upwards is not at or behind the price, or the downward swap stops
above the node its own starting tick holds. -/
def InSight (d : Direction) (t : Ticks) (state : PoolState) (amountIn priceLimit : U128) : Prop :=
  match d with
  | .bToA => ∀ n, t.nextAbove state.tick = some n → state.sqrtPrice < n.tick.sqrtPrice
  | .aToB => ∀ n ∈ t.nodes, n.index = state.tick →
    n.tick.sqrtPrice < priceLimit ∨
      ∀ net fee full, takeFee amountIn state.feeRate = .ok (net, fee) →
        nextSqrtPriceDown state.sqrtPrice state.liquidity net = .ok full → n.tick.sqrtPrice < full

section swap
variable {t : Ticks} {d : Direction} {state : PoolState} {amountIn priceLimit : U128}
  {maxCrossings : ℕ} {r : SwapResult}

/-- Agreement of the walk with the book is an exact traversal, up to the starting tick. -/
theorem exact_of_clear (ht : Indexed t)
    (hclear : ClearAhead ht.book d state.tick state.sqrtPrice)
    (hstart : d = .aToB → ∀ b ∈ ht.book.boundaries, b.tick = state.tick →
      b.sqrtPrice < r.sqrtPriceEnd)
    (hok : swapExactIn t.source d state amountIn priceLimit maxCrossings = .ok r) :
    ExactTraversal d (t.nodes.map TickNode.boundary) state r
      (crossedBoundaries t.source d state amountIn priceLimit maxCrossings) := by
  obtain ⟨netInput, fee, final, hfee, hlimit, _, hrun, _, hr⟩ := swapExactIn_ok hok
  have hover : OverBook { source := t.source, direction := d, priceLimit, maxCrossings } ht.book :=
    ht.source_eq
  have htracked := run_tracked hover hlimit hclear (swap_logged hfee hrun)
  have hlog := htracked.log_eq
  have hend : r.sqrtPriceEnd = final.sqrtPrice := by rw [hr]
  have hdue : ∀ stop, reach d stop ≤ reach d final.sqrtPrice →
      due d (t.nodes.map TickNode.boundary) state.tick stop =
        strictDue d ht.book state.tick stop := by
    intro stop hstop
    apply due_eq_strictDue ht.book
    rintro rfl b hb hb'
    have hlt := hstart rfl b hb hb'
    rw [hend] at hlt
    refine hlt.trans_le (Fin.le_def.mpr ?_)
    simp only [reach, along] at hstop
    omega
  have hliq := htracked.liquidity
  rw [hlog] at hliq
  rw [hr]
  refine ⟨?_, ?_, ?_⟩
  · rw [hdue _ le_rfl]
    exact hlog
  · rw [hdue _ le_rfl]
    exact hliq
  · intro s hs
    obtain ⟨hbefore, hrange⟩ := htracked.ranges s hs
    rw [hlog, strictDue_filter hbefore.le] at hrange
    rw [hdue _ hbefore.le]
    exact hrange

/-- Upwards, a next tick at or behind the price hides the book. -/
theorem hidden_upwards (ht : Indexed t) {n : TickNode} (hnext : t.nextAbove state.tick = some n)
    (hbehind : n.tick.sqrtPrice ≤ state.sqrtPrice)
    (hok : swapExactIn t.source .bToA state amountIn priceLimit maxCrossings = .ok r)
    (hsteps : r.steps ≠ []) :
    crossedBoundaries t.source .bToA state amountIn priceLimit maxCrossings = [] ∧
      n.boundary ∈ due .bToA (t.nodes.map TickNode.boundary) state.tick r.sqrtPriceEnd := by
  obtain ⟨netInput, fee, final, hfee, hlimit, _, hrun, _, hr⟩ := swapExactIn_ok hok
  have hnone : (Call.mk t.source .bToA priceLimit maxCrossings).nextBoundary
      (Walk.start state netInput) = none := by
    refine Option.filter_eq_none_iff.mpr fun b hb => ?_
    have hb : (t.nextAbove state.tick).map TickNode.boundary = some b := hb
    rw [hnext] at hb
    cases hb
    rw [isAhead_iff, not_lt]
    exact Int.ofNat_le.mpr hbehind
  rw [hr] at hsteps
  obtain ⟨hleave, s, hadv⟩ := run_of_no_boundary rfl hlimit hnone hrun hsteps
  obtain ⟨hn, hlt, _⟩ := ht.nextAbove_eq_some_iff.mp hnext
  constructor
  · have hlogged := (swap_logged hfee hrun).symm.trans hleave
    exact (Prod.mk.inj (Except.ok.inj hlogged)).2
  · have hprice : r.sqrtPriceEnd = s.sqrtPriceEnd := by
      rw [hr, hadv.moved_eq]
    have hup : state.sqrtPrice < s.sqrtPriceEnd := Int.ofNat_lt.mp hadv.forward
    refine List.mem_filter.mpr ⟨List.mem_map.mpr ⟨n, hn, rfl⟩, ?_⟩
    rw [decide_eq_true_iff, hprice]
    exact ⟨hlt, hbehind.trans hup.le⟩

/-- The book is clear ahead when its next tick is. -/
theorem clear_of_next (ht : Indexed t) {n : TickNode} (hn : t.next d state.tick = some n)
    (hahead : isAhead d n.tick.sqrtPrice state.sqrtPrice = true) :
    ClearAhead ht.book d state.tick state.sqrtPrice := by
  intro b hb hlt
  have hnext : ht.book.next d state.tick = some n.boundary :=
    (ht.next_boundary d state.tick).symm.trans (congrArg _ hn)
  obtain ⟨hmem, _, hleast⟩ := ht.book.next_eq_some_iff.mp hnext
  have hfirst : reach d state.sqrtPrice < reach d n.boundary.sqrtPrice := isAhead_iff.mp hahead
  rcases lt_or_eq_of_le (hleast b hb hlt) with hbefore | hsame
  · exact hfirst.trans (ht.book.reach_lt_reach hmem hb hbefore)
  · exact ht.book.eq_of_tick_eq hmem hb (along_inj.mp hsame) ▸ hfirst

theorem clear_of_end (ht : Indexed t) (hn : t.next d state.tick = none) :
    ClearAhead ht.book d state.tick state.sqrtPrice := by
  have hnext : ht.book.next d state.tick = none :=
    (ht.next_boundary d state.tick).symm.trans (congrArg _ hn)
  exact fun b hb hlt => absurd hlt (ht.book.next_eq_none_iff.mp hnext b hb)

theorem clearAhead_upwards (ht : Indexed t)
    (hsight : ∀ n, t.nextAbove state.tick = some n → state.sqrtPrice < n.tick.sqrtPrice) :
    ClearAhead ht.book .bToA state.tick state.sqrtPrice := by
  cases hn : t.next .bToA state.tick with
  | none => exact clear_of_end ht hn
  | some n =>
    refine clear_of_next ht hn (isAhead_iff.mpr ?_)
    exact Int.ofNat_lt.mpr (hsight n hn)

/-- Downwards, the book is always clear ahead. -/
theorem clearAhead_downwards {book : Book} {sqrtPrice : U128} {tick : ℤ} (hpos : sqrtPrice ≠ 0)
    (htick : tickAtSqrtPrice sqrtPrice = .ok tick) : ClearAhead book .aToB tick sqrtPrice := by
  intro b hb hlt
  have hbelow := Fin.lt_def.mp (clear_downwards hpos htick b hb (by simpa [along] using hlt))
  simp only [reach, along]
  omega

/-- Where a downward swap stops against the node of its starting tick. -/
theorem stops_before_node_iff (ht : Indexed t)
    (hok : swapExactIn t.source .aToB state amountIn priceLimit maxCrossings = .ok r)
    (hsteps : r.steps ≠ []) {n : TickNode} (hn : n ∈ t.nodes) (hindex : n.index = state.tick) :
    n.tick.sqrtPrice < r.sqrtPriceEnd ↔
      n.tick.sqrtPrice < priceLimit ∨
      ∀ net fee full, takeFee amountIn state.feeRate = .ok (net, fee) →
        nextSqrtPriceDown state.sqrtPrice state.liquidity net = .ok full →
          n.tick.sqrtPrice < full := by
  obtain ⟨netInput, fee, final, hfee, hlimit, _, hrun, _, hr⟩ := swapExactIn_ok hok
  have hend : r.sqrtPriceEnd = final.sqrtPrice := by rw [hr]
  have hover : OverBook (Call.mk t.source .aToB priceLimit maxCrossings) ht.book := ht.source_eq
  rw [hr] at hsteps
  have hstart : n.boundary.tick = (Walk.start state netInput).tick := hindex
  have hiff := stops_before_iff hover (List.mem_map.mpr ⟨n, hn, rfl⟩) hstart rfl
    (run_balanced hlimit hrun).1 hlimit hrun hsteps
  have hreach : ∀ p : U128, reach .aToB p < reach .aToB n.boundary.sqrtPrice ↔
      n.tick.sqrtPrice < p := fun p => by simp [reach, along, TickNode.boundary]
  simp only [hreach] at hiff
  rw [hend, hiff]
  apply or_congr_right
  constructor
  · intro hfull net fee' full hnet hdown
    rw [hfee] at hnet
    cases hnet
    exact hfull full hdown
  · intro hfull full hdown
    exact hfull netInput fee full hfee hdown

/-- A downward swap crosses nothing at its starting tick. -/
theorem start_not_crossed (ht : Indexed t)
    (hclear : ClearAhead ht.book .aToB state.tick state.sqrtPrice)
    (hok : swapExactIn t.source .aToB state amountIn priceLimit maxCrossings = .ok r)
    {n : TickNode} (hindex : n.index = state.tick) :
    n.boundary ∉ crossedBoundaries t.source .aToB state amountIn priceLimit maxCrossings := by
  intro hcrossed
  obtain ⟨netInput, fee, final, hfee, hlimit, _, hrun, _, _⟩ := swapExactIn_ok hok
  have hover : OverBook (Call.mk t.source .aToB priceLimit maxCrossings) ht.book := ht.source_eq
  have htracked := run_tracked hover hlimit hclear (swap_logged hfee hrun)
  have hpast := ((htracked.mem _).mp hcrossed).2.1
  have hsame : n.boundary.tick = state.tick := hindex
  rw [hsame] at hpast
  exact lt_irrefl _ hpast

/-- A swap that took a step traverses its book exactly when the book was in sight. -/
theorem traversal_exact_iff (ht : t.Accepted)
    (htick : tickAtSqrtPrice state.sqrtPrice = .ok state.tick)
    (hok : swapExactIn t.source d state amountIn priceLimit maxCrossings = .ok r)
    (hsteps : r.steps ≠ []) :
    ExactTraversal d (t.nodes.map TickNode.boundary) state r
      (crossedBoundaries t.source d state amountIn priceLimit maxCrossings) ↔
      InSight d t state amountIn priceLimit := by
  have ht := accepted_indexed ht
  cases d with
  | bToA =>
    constructor
    · intro hexact n hn
      by_contra hbehind
      obtain ⟨hnone, hdue⟩ := hidden_upwards ht hn (not_lt.mp hbehind) hok hsteps
      rw [← hexact.crossed, hnone] at hdue
      cases hdue
    · intro hsight
      exact exact_of_clear ht (clearAhead_upwards ht hsight) (fun h => by cases h) hok
  | aToB =>
    have hpos : state.sqrtPrice ≠ 0 := by
      intro hz
      rw [swapExactIn, if_pos hz] at hok
      cases hok
    have hclear : ClearAhead ht.book .aToB state.tick state.sqrtPrice :=
      clearAhead_downwards hpos htick
    constructor
    · intro hexact n hn hindex
      rw [← stops_before_node_iff ht hok hsteps hn hindex]
      by_contra hfar
      have hdue : n.boundary ∈ due .aToB (t.nodes.map TickNode.boundary) state.tick
          r.sqrtPriceEnd := by
        refine List.mem_filter.mpr ⟨List.mem_reverse.mpr (List.mem_map.mpr ⟨n, hn, rfl⟩), ?_⟩
        rw [decide_eq_true_iff]
        exact ⟨hindex.le, not_lt.mp hfar⟩
      rw [← hexact.crossed] at hdue
      exact start_not_crossed ht hclear hok hindex hdue
    · intro hsight
      refine exact_of_clear ht hclear ?_ hok
      intro _ b hb hindex
      obtain ⟨n, hn, rfl⟩ := List.mem_map.mp hb
      exact (stops_before_node_iff ht hok hsteps hn hindex).mpr (hsight n hn hindex)

end swap

/-- A pool parked exactly on its middle tick. -/
def parkedPool : PoolState :=
  { sqrtPrice := 18446744073709551616, liquidity := 1000000, tick := 0, feeRate := 0 }

def parkedSale : SwapResult :=
  { amountIn := 1000
    fee := 0
    amountOut := 999
    sqrtPriceStart := 18446744073709551616
    sqrtPriceEnd := 18428315757951600016
    tickStart := 0
    tickEnd := 0
    liquidityStart := 1000000
    liquidityEnd := 1000000
    inputConsumed := true
    steps :=
      [{ amountIn := 1000
         amountOut := 999
         sqrtPriceStart := 18446744073709551616
         sqrtPriceEnd := 18428315757951600016
         liquidity := 1000000
         crossed := false }] }

/-- Selling A from a parked pool never leaves the upper position's liquidity. -/
theorem traversal_inexact_parked :
    twoPositionsIndex.Accepted ∧
    tickAtSqrtPrice parkedPool.sqrtPrice = .ok parkedPool.tick ∧
    swapExactIn twoPositionsIndex.source .aToB parkedPool 1000 minSqrtPrice 64 = .ok parkedSale ∧
    parkedSale.steps ≠ [] ∧
    ¬ ExactTraversal .aToB (twoPositionsIndex.nodes.map TickNode.boundary) parkedPool parkedSale
      (crossedBoundaries twoPositionsIndex.source .aToB parkedPool 1000 minSqrtPrice 64) := by
  refine ⟨twoPositionsIndex_accepted, by decide +kernel, by decide +kernel, by decide, ?_⟩
  intro hexact
  have hnone : crossedBoundaries twoPositionsIndex.source .aToB parkedPool 1000 minSqrtPrice 64 =
      [] := by decide +kernel
  have hcrossed := hexact.crossed
  rw [hnone] at hcrossed
  exact absurd hcrossed (by decide +kernel)

/-- Between the lower ticks, where only the longer position provides. -/
def lowerPool : PoolState :=
  { sqrtPrice := 18400000000000000000, liquidity := 600000, tick := -51, feeRate := 0 }

def risingPurchase : SwapResult :=
  { amountIn := 5000
    fee := 0
    amountOut := 4990
    sqrtPriceStart := 18400000000000000000
    sqrtPriceEnd := 18510920296341987146
    tickStart := -51
    tickEnd := 0
    liquidityStart := 600000
    liquidityEnd := 1000000
    inputConsumed := true
    steps :=
      [{ amountIn := 1521
         amountOut := 1524
         sqrtPriceStart := 18400000000000000000
         sqrtPriceEnd := 18446744073709551616
         liquidity := 600000
         crossed := true },
       { amountIn := 3479
         amountOut := 3466
         sqrtPriceStart := 18446744073709551616
         sqrtPriceEnd := 18510920296341987146
         liquidity := 1000000
         crossed := false }] }

/-- A purchase across tick 0 takes up the shorter position on the way. -/
theorem traversal_exact_purchase :
    ExactTraversal .bToA (twoPositionsIndex.nodes.map TickNode.boundary) lowerPool risingPurchase
      (crossedBoundaries twoPositionsIndex.source .bToA lowerPool 5000 maxSqrtPrice 64) := by
  refine (traversal_exact_iff (r := risingPurchase) twoPositionsIndex_accepted (by decide +kernel)
    (by decide +kernel) (by decide)).mpr ?_
  have hnext : twoPositionsIndex.nextAbove lowerPool.tick =
      some (plainNode 0 443636 18446744073709551616 ⟨400000, by decide⟩ [443736]) := by
    decide +kernel
  intro n hn
  rw [hnext] at hn
  cases hn
  decide

end BookTraversal
