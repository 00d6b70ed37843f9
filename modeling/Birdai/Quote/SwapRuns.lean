import Birdai.Base.LabelledRuns
import Birdai.Quote.RoundTrip

/-!
# Swaps one after the other

Runs of swaps over one index, each from the state the one before reports, in any mix of
directions. The liquidity in force follows the book, except that a tick the price turns
back on is counted on the way out and not on the way back.
-/

namespace SwapRuns

open WideArith Outcomes BoundedLoop LabelledRuns SwapExactIn PricingSpecs StepRounding WalkShape
open TickMath TickIndex TickBook BookTraversal RoundTrip StepBands

/-- A swap that was made: from which state, what it was asked for and what it reported. -/
structure Fill where
  state : PoolState
  direction : Direction
  amountIn : U128
  priceLimit : U128
  maxCrossings : ℕ
  result : SwapResult

/-- The swap succeeds from this state and leaves the one it reports. -/
structure Fills (source : TickSource) (state : PoolState) (f : Fill) (next : PoolState) :
    Prop where
  start : f.state = state
  succeeds : swapExactIn source f.direction state f.amountIn f.priceLimit f.maxCrossings =
    .ok f.result
  next_eq : next = resumed state f.result

/-- The boundaries a swap crossed, in the order it crossed them. -/
def Fill.crossed (source : TickSource) (f : Fill) : List Boundary :=
  crossedBoundaries source f.direction f.state f.amountIn f.priceLimit f.maxCrossings

theorem opposite_of_ne {d d' : Direction} (h : ¬ d = d') : d' = opposite d := by
  cases d with
  | aToB => cases d' with
    | aToB => exact absurd rfl h
    | bToA => rfl
  | bToA => cases d' with
    | aToB => rfl
    | bToA => exact absurd rfl h

/-! ### The liquidity a book accounts for -/

/-- The ticks that are behind a pool travelling in a direction. Upwards a tick owns the
range above it, downwards it was left once it was reached. -/
def behind (d : Direction) (tick : ℤ) (b : Boundary) : Bool :=
  match d with
  | .bToA => b.tick ≤ tick
  | .aToB => b.tick < tick

/-- The nets of all boundaries a pool has below it. -/
def standing (boundaries : List Boundary) (d : Direction) (tick : ℤ) : ℤ :=
  ((boundaries.filter (behind d tick)).map fun b => b.liquidityNet.val).sum

/-- The net of a tick, zero where none is initialised. -/
def netAt (t : Ticks) (tick : ℤ) : ℤ := ((t.liquidityNetAt tick).map Subtype.val).getD 0

/-- What turning back between two swaps leaves in force. -/
def turnedBack (t : Ticks) (f g : Fill) : ℤ :=
  if f.direction = g.direction then 0 else along f.direction (netAt t f.result.tickEnd)

theorem standing_eq (boundaries : List Boundary) (d : Direction) (tick : ℤ) :
    standing boundaries d tick =
      (boundaries.map fun b => if behind d tick b = true then b.liquidityNet.val else 0).sum :=
  inflow_filter .bToA _ _

/-- A walk moves the liquidity by what lies between its two ticks. -/
theorem profile_standing {book : Book} {d : Direction} {first w : Walk} {crossed : List Boundary}
    (h : Profile book d first w crossed) : (w.liquidity.val : ℤ) = first.liquidity.val +
      (standing book.boundaries d w.tick - standing book.boundaries d first.tick) := by
  have honward := h.onward
  rw [h.liquidity, h.crossed_eq, inflow_travel_filter]
  congr 1
  rw [eq_sub_iff_add_eq, standing_eq, standing_eq, ← List.sum_map_add]
  congr 1
  refine List.map_congr_left fun b _ => ?_
  cases d with
  | bToA =>
    simp only [behind, along] at *
    grind
  | aToB =>
    simp only [behind, along] at *
    grind

section index
variable {t : Ticks} (ht : Indexed t)
include ht

theorem get_eq_some_iff {tick : ℤ} {n : TickNode} :
    t.get tick = some n ↔ n ∈ t.nodes ∧ n.index = tick := by
  have hfound : t.nodeAt (some tick) = some n ↔ n ∈ t.nodes ∧ some tick = some n.index :=
    ht.located.nodeAt_eq_some_iff
  rw [Option.some.injEq, eq_comm (a := tick)] at hfound
  exact hfound

theorem netAt_of_mem {n : TickNode} (hn : n ∈ t.nodes) :
    netAt t n.index = n.tick.liquidityNet.val := by
  have hget : t.get n.index = some n := (get_eq_some_iff ht).mpr ⟨hn, rfl⟩
  rw [netAt, Ticks.liquidityNetAt, hget]
  rfl

/-- The boundaries at one tick are the one the index finds there. -/
theorem filter_tick (tick : ℤ) : (t.nodes.map TickNode.boundary).filter (·.tick = tick) =
    ((t.get tick).map TickNode.boundary).toList := by
  have hordered : (t.nodes.map TickNode.boundary).Pairwise (Book.Before .bToA) := ht.book.ordered
  refine (hordered.filter _).eq_of_mem_iff ?_ fun b => ?_
  · cases t.get tick with
    | none => exact .nil
    | some n => exact List.pairwise_singleton _ _
  · rw [List.mem_filter, List.mem_map, decide_eq_true_iff, Option.mem_toList,
      Option.map_eq_some_iff]
    simp only [get_eq_some_iff ht]
    constructor
    · rintro ⟨⟨n, hn, rfl⟩, htick⟩
      exact ⟨n, ⟨hn, htick⟩, rfl⟩
    · rintro ⟨n, ⟨hn, htick⟩, rfl⟩
      exact ⟨⟨n, hn, rfl⟩, htick⟩

theorem netAt_eq (tick : ℤ) : netAt t tick = ((t.nodes.map TickNode.boundary).map fun b =>
    if b.tick = tick then b.liquidityNet.val else 0).sum := by
  have hsum := inflow_filter .bToA (t.nodes.map TickNode.boundary) (·.tick = tick)
  simp only [decide_eq_true_eq] at hsum
  rw [filter_tick ht] at hsum
  refine Eq.trans ?_ hsum
  rw [netAt, Ticks.liquidityNetAt]
  cases t.get tick with
  | none => rfl
  | some n => simp [inflow, TickNode.boundary, along]

/-- A pool that turns back keeps the net of the tick it stands on. -/
theorem standing_opposite (d : Direction) (tick : ℤ) :
    standing (t.nodes.map TickNode.boundary) d tick =
      standing (t.nodes.map TickNode.boundary) (opposite d) tick + along d (netAt t tick) := by
  have hup : standing (t.nodes.map TickNode.boundary) .bToA tick =
      standing (t.nodes.map TickNode.boundary) .aToB tick + netAt t tick := by
    rw [standing_eq, standing_eq, netAt_eq ht, ← List.sum_map_add]
    congr 1
    refine List.map_congr_left fun b _ => ?_
    simp only [behind, decide_eq_true_eq]
    split_ifs <;> omega
  cases d with
  | bToA => exact hup
  | aToB =>
    simp only [opposite, along]
    omega

/-- What a swap of a run was, seen from its walk. -/
theorem fill_walk {state next : PoolState} {f : Fill} (h : Fills t.source state f next) :
    ∃ net fee final, takeFee f.amountIn state.feeRate = .ok (net, fee) ∧
      reach f.direction state.sqrtPrice ≤ reach f.direction f.priceLimit ∧
      OverBook (Call.mk t.source f.direction f.priceLimit f.maxCrossings) ht.book ∧
      (Call.mk t.source f.direction f.priceLimit f.maxCrossings).loop.run
        (Walk.start state net) = .ok final ∧
      f.result.amountOut = final.amountOut ∧ f.result.steps = final.steps ∧
      next = { state with
        sqrtPrice := final.sqrtPrice, liquidity := final.liquidity, tick := final.tick } := by
  obtain ⟨net, fee, final, hfee, hlimit, _, hrun, _, hr⟩ := swapExactIn_ok h.succeeds
  refine ⟨net, fee, final, hfee, hlimit, ht.source_eq, hrun, ?_, ?_, ?_⟩
  · rw [hr]
  · rw [hr]
  · rw [h.next_eq, hr]
    rfl

theorem fill_standing {state next : PoolState} {f : Fill} (h : Fills t.source state f next) :
    (next.liquidity.val : ℤ) = state.liquidity.val +
      (standing (t.nodes.map TickNode.boundary) f.direction next.tick -
        standing (t.nodes.map TickNode.boundary) f.direction state.tick) := by
  obtain ⟨net, fee, final, _, hlimit, hover, hrun, _, _, rfl⟩ := fill_walk ht h
  obtain ⟨crossed, hprofile, _⟩ := run_profile hover hlimit hrun
  exact profile_standing hprofile

end index

/-- Over any run of swaps, in any mix of directions, the liquidity follows the book from
the first tick to the last, up to the ticks the price turned back on: each of them adds
its net where the price turned back downwards and takes it where it turned upwards. -/
theorem liquidity_over_run (t : Ticks) (ht : t.Accepted) (f : Fill) (rest : List Fill)
    (state last : PoolState) (h : Run (Fills t.source) state (f :: rest) last) :
    (last.liquidity.val : ℤ) = state.liquidity.val +
      (standing (t.nodes.map TickNode.boundary)
          ((f :: rest).getLast (List.cons_ne_nil f rest)).direction last.tick -
        standing (t.nodes.map TickNode.boundary) f.direction state.tick) +
      turns (turnedBack t) (f :: rest) := by
  have ht := accepted_indexed ht
  refine Run.value_eq (fun s => (s.liquidity.val : ℤ)) Fill.direction
    (fun d s => standing (t.nodes.map TickNode.boundary) d s.tick) (turnedBack t) h
    (fun hfill => fill_standing ht hfill) ?_
  rintro s e s' g ⟨_, _, rfl⟩
  rw [turnedBack]
  split
  · rename_i hsame
    rw [hsame, add_zero]
  · rename_i hturn
    rw [opposite_of_ne hturn]
    exact standing_opposite ht _ _

def saleFill : Fill := ⟨upperPool, .aToB, 4000, minSqrtPrice, 64, outwardSale⟩

def purchaseFill : Fill :=
  ⟨resumed upperPool outwardSale, .bToA, 4002, maxSqrtPrice, 64, returnPurchase⟩

theorem saleFill_fills :
    Fills twoPositionsIndex.source upperPool saleFill (resumed upperPool outwardSale) :=
  ⟨rfl, by decide +kernel, rfl⟩

theorem purchaseFill_fills : Fills twoPositionsIndex.source (resumed upperPool outwardSale)
    purchaseFill (resumed (resumed upperPool outwardSale) returnPurchase) :=
  ⟨rfl, by decide +kernel, rfl⟩

/-- A sale that crosses the lower end of a position, and a purchase that turns back on it:
the position's 400000 are lost to the pool for good. -/
theorem liquidity_over_run_sale :
    ((resumed (resumed upperPool outwardSale) returnPurchase).liquidity.val : ℤ) =
      upperPool.liquidity.val +
        (standing (twoPositionsIndex.nodes.map TickNode.boundary) .bToA 0 -
          standing (twoPositionsIndex.nodes.map TickNode.boundary) .aToB 50) +
        turns (turnedBack twoPositionsIndex) [saleFill, purchaseFill] :=
  liquidity_over_run twoPositionsIndex twoPositionsIndex_accepted saleFill [purchaseFill] upperPool
    (resumed (resumed upperPool outwardSale) returnPurchase)
    (.cons saleFill_fills (.cons purchaseFill_fills (.nil _)))

example : turns (turnedBack twoPositionsIndex) [saleFill, purchaseFill] = -400000 := by
  decide +kernel

/-! ### Resuming in the same direction -/

/-- A walk that sees no boundary crosses none. -/
theorem log_of_hidden {c : Call} {first final : Walk} {log : List Boundary}
    (hnone : c.nextBoundary first = none)
    (hrun : (c.loop.logged (crossedIn c)).run (first, []) = .ok (final, log)) : log = [] := by
  obtain ⟨q, hbody, hend⟩ := (c.loop.logged (crossedIn c)).run_ok_cases hrun
  simp only [Loop.logged] at hbody
  split at hbody
  · cases hbody
  · rename_i p hp
    cases hbody
    cases p with
    | again moved => exact absurd hp (HiddenBook.pass_none_last hnone moved)
    | leave moved =>
      obtain ⟨_, hlog⟩ : moved = final ∧ crossedIn c first (.leave moved) = log := by
        simpa [Pass.map] using hend
      rw [← hlog, crossedIn, hnone]
      exact ite_self _

/-- What is due on a trip is due on its first part, then on the rest of it. -/
theorem strictDue_append {book : Book} {d : Direction} {first w : Walk} {log : List Boundary}
    (h : Tracked book d first w log) {stop : U128} (hstop : reach d w.sqrtPrice ≤ reach d stop) :
    strictDue d book first.tick stop = log ++ strictDue d book w.tick stop := by
  refine ((book.travel_ordered d).filter _).eq_of_mem_iff ?_ fun b => ?_
  · rw [List.pairwise_append]
    refine ⟨h.ordered, (book.travel_ordered d).filter _, fun a ha b hb => ?_⟩
    have hpast := (of_decide_eq_true (List.mem_filter.mp hb).2).1
    exact ((h.mem a).mp ha).2.2.trans_lt hpast
  · rw [List.mem_append, h.mem, strictDue, List.mem_filter, List.mem_filter, book.mem_travel,
      decide_eq_true_iff, decide_eq_true_iff]
    constructor
    · rintro ⟨hb, hfirst, hprice⟩
      rcases le_or_gt (along d b.tick) (along d w.tick) with hpassed | hahead
      · exact .inl ⟨hb, hfirst, hpassed⟩
      · exact .inr ⟨hb, hahead, hprice⟩
    · rintro (⟨hb, hfirst, hpassed⟩ | ⟨hb, hahead, hprice⟩)
      · have hbehind := h.behind b ((h.mem b).mpr ⟨hb, hfirst, hpassed⟩)
        exact ⟨hb, hfirst, hbehind.trans hstop⟩
      · exact ⟨hb, h.onward.trans_lt hahead, hprice⟩

/-- The tick a walk that crossed these boundaries stands on. -/
def landing (tick : ℤ) (crossed : List Boundary) : ℤ :=
  (crossed.getLast?.map Boundary.tick).getD tick

theorem landing_append (tick : ℤ) (crossed more : List Boundary) :
    landing tick (crossed ++ more) = landing (landing tick crossed) more := by
  rw [landing, List.getLast?_append]
  cases hmore : more.getLast? with
  | none => rw [landing, landing, hmore]; rfl
  | some b => rw [landing, hmore]; rfl

theorem tracked_landing {book : Book} {d : Direction} {first w : Walk} {log : List Boundary}
    (h : Tracked book d first w log) : w.tick = landing first.tick log := by
  rcases List.eq_nil_or_concat log with rfl | ⟨init, b, rfl⟩
  · rcases h.landed with hsame | ⟨b, hb, _⟩
    · exact hsame
    · cases hb
  · rw [List.concat_eq_append] at h ⊢
    have hlast : landing first.tick (init ++ [b]) = b.tick := by simp [landing]
    have hmem := (h.mem b).mp (List.mem_append_right _ List.mem_cons_self)
    rw [hlast]
    rcases h.landed with hsame | ⟨a, ha, hat⟩
    · rw [hsame] at hmem
      exact absurd hmem.2.1 (not_lt.mpr hmem.2.2)
    · rcases List.mem_append.mp ha with hinit | hb
      · have hbefore := (List.pairwise_append.mp h.ordered).2.2 a hinit b List.mem_cons_self
        rw [← hat] at hmem
        exact absurd hbefore (not_lt.mpr hmem.2.2)
      · rw [← hat, List.mem_singleton.mp hb]

/-- A pool left by crossing these boundaries, whatever its price. -/
structure LeftBy (d : Direction) (state next : PoolState) (crossed : List Boundary) : Prop where
  tick : next.tick = landing state.tick crossed
  liquidity : (next.liquidity.val : ℤ) = state.liquidity.val + inflow d crossed
  feeRate : next.feeRate = state.feeRate

namespace LeftBy
variable {d : Direction} {state next last last' : PoolState} {crossed more : List Boundary}

theorem refl (d : Direction) (state : PoolState) : LeftBy d state state [] :=
  ⟨rfl, by simp [inflow], rfl⟩

theorem trans (h : LeftBy d state next crossed) (h' : LeftBy d next last more) :
    LeftBy d state last (crossed ++ more) := by
  refine ⟨?_, ?_, h'.feeRate.trans h.feeRate⟩
  · rw [landing_append, ← h.tick, h'.tick]
  · rw [inflow_append, h'.liquidity, h.liquidity, add_assoc]

/-- What was crossed and the price tell the pool. -/
theorem unique (h : LeftBy d state last crossed) (h' : LeftBy d state last' crossed)
    (hprice : last.sqrtPrice = last'.sqrtPrice) : last = last' := by
  have htick := h.tick.trans h'.tick.symm
  have hfee := h.feeRate.trans h'.feeRate.symm
  have hliquidity : last.liquidity = last'.liquidity :=
    Fin.ext (Int.ofNat_inj.mp (h.liquidity.trans h'.liquidity.symm))
  obtain ⟨_, _, _, _⟩ := last
  obtain ⟨_, _, _, _⟩ := last'
  exact PoolState.mk.injEq .. ▸ ⟨hprice, hliquidity, htick, hfee⟩

end LeftBy

section resume
variable {t : Ticks} (ht : Indexed t) {state next : PoolState} {f : Fill}
include ht

/-- A swap with a clear view crosses what it owes and leaves a clear view. -/
theorem fill_clear (h : Fills t.source state f next)
    (hclear : ClearAhead ht.book f.direction state.tick state.sqrtPrice) :
    ClearAhead ht.book f.direction next.tick next.sqrtPrice ∧
      reach f.direction state.sqrtPrice ≤ reach f.direction next.sqrtPrice ∧
      (∀ stop, reach f.direction next.sqrtPrice ≤ reach f.direction stop →
        strictDue f.direction ht.book state.tick stop =
          f.crossed t.source ++ strictDue f.direction ht.book next.tick stop) ∧
      LeftBy f.direction state next (f.crossed t.source) := by
  obtain ⟨net, fee, final, hfee, hlimit, hover, hrun, _, _, rfl⟩ := fill_walk ht h
  have htracked := run_tracked hover hlimit hclear (swap_logged hfee hrun)
  obtain ⟨hbal, _⟩ := run_balanced hlimit hrun
  have honward := (chained_between hbal.chained fun s hs => (hbal.forward s hs).1).1
  rw [Fill.crossed, h.start]
  refine ⟨htracked.ahead, honward, fun stop hstop => strictDue_append htracked hstop, ?_⟩
  exact ⟨tracked_landing htracked, htracked.liquidity, rfl⟩

/-- A swap without one crosses nothing and leaves none. -/
theorem fill_hidden (h : Fills t.source state f next)
    (hunclear : ¬ ClearAhead ht.book f.direction state.tick state.sqrtPrice) :
    ¬ ClearAhead ht.book f.direction next.tick next.sqrtPrice ∧ f.crossed t.source = [] ∧
      LeftBy f.direction state next (f.crossed t.source) := by
  obtain ⟨net, fee, final, hfee, hlimit, hover, hrun, _, _, rfl⟩ := fill_walk ht h
  have hnone := nextBoundary_of_unclear (w := Walk.start state net) hover hunclear
  have htick : final.tick = state.tick := HiddenBook.run_none_tick hnone hrun
  obtain ⟨hbal, _⟩ := run_balanced hlimit hrun
  have honward := (chained_between hbal.chained fun s hs => (hbal.forward s hs).1).1
  have hcrossed : f.crossed t.source = [] := by
    rw [Fill.crossed, h.start]
    exact log_of_hidden hnone (swap_logged hfee hrun)
  have hprofile : Profile ht.book f.direction (Walk.start state net) final [] :=
    profile_of_hidden rfl hlimit hnone hrun
  rw [hcrossed]
  refine ⟨fun hclear => hunclear fun b hb hlt => ?_, rfl, htick, hprofile.liquidity, rfl⟩
  exact honward.trans_lt (hclear b hb (by rwa [htick]))

end resume

section resumed
variable {t : Ticks} (ht : Indexed t) {state last : PoolState} {d : Direction} {fills : List Fill}
include ht

/-- A run with a clear view at its start crosses what a trip to its last price owes. -/
theorem run_clear (h : Run (Fills t.source) state fills last) (hd : ∀ f ∈ fills, f.direction = d)
    (hclear : ClearAhead ht.book d state.tick state.sqrtPrice) :
    reach d state.sqrtPrice ≤ reach d last.sqrtPrice ∧
      fills.flatMap (Fill.crossed t.source) = strictDue d ht.book state.tick last.sqrtPrice := by
  induction h with
  | nil s =>
    refine ⟨le_rfl, (List.filter_eq_nil_iff.mpr fun b hb => ?_).symm⟩
    rw [decide_eq_true_iff, not_and, not_le]
    exact hclear b (ht.book.mem_travel.mp hb)
  | @cons state next last f fills hfill hrest ih =>
    obtain rfl := hd f List.mem_cons_self
    obtain ⟨hnext, honward, hsplit, _⟩ := fill_clear ht hfill hclear
    obtain ⟨hbeyond, hcrossed⟩ := ih (fun g hg => hd g (List.mem_cons_of_mem _ hg)) hnext
    refine ⟨honward.trans hbeyond, ?_⟩
    rw [List.flatMap_cons, hcrossed, hsplit _ hbeyond]

theorem run_hidden (h : Run (Fills t.source) state fills last) (hd : ∀ f ∈ fills, f.direction = d)
    (hunclear : ¬ ClearAhead ht.book d state.tick state.sqrtPrice) :
    fills.flatMap (Fill.crossed t.source) = [] := by
  induction h with
  | nil s => rfl
  | @cons state next last f fills hfill hrest ih =>
    obtain rfl := hd f List.mem_cons_self
    obtain ⟨hnext, hcrossed, _⟩ := fill_hidden ht hfill hunclear
    rw [List.flatMap_cons, hcrossed, List.nil_append]
    exact ih (fun g hg => hd g (List.mem_cons_of_mem _ hg)) hnext

/-- Whatever it sees, a run is left where its crossings took it. -/
theorem run_leftBy (h : Run (Fills t.source) state fills last) (hd : ∀ f ∈ fills, f.direction = d) :
    LeftBy d state last (fills.flatMap (Fill.crossed t.source)) := by
  induction h with
  | nil s => exact .refl d s
  | @cons state next last f fills hfill hrest ih =>
    obtain rfl := hd f List.mem_cons_self
    have hfirst : LeftBy f.direction state next (f.crossed t.source) := by
      by_cases hclear : ClearAhead ht.book f.direction state.tick state.sqrtPrice
      · exact (fill_clear ht hfill hclear).2.2.2
      · exact (fill_hidden ht hfill hclear).2.2
    rw [List.flatMap_cons]
    exact hfirst.trans (ih fun g hg => hd g (List.mem_cons_of_mem _ hg))

end resumed

/-- However a trip in one direction is cut into swaps, two runs from one state that come to
the same price crossed the same boundaries and leave the same pool. -/
theorem resumed_runs_agree (t : Ticks) (ht : t.Accepted) (d : Direction)
    (state last last' : PoolState) (fills fills' : List Fill)
    (h : Run (Fills t.source) state fills last)
    (h' : Run (Fills t.source) state fills' last') (hd : ∀ f ∈ fills, f.direction = d)
    (hd' : ∀ f ∈ fills', f.direction = d) (hprice : last.sqrtPrice = last'.sqrtPrice) :
    fills.flatMap (Fill.crossed t.source) = fills'.flatMap (Fill.crossed t.source) ∧
      last = last' := by
  have ht := accepted_indexed ht
  have hcrossed : fills.flatMap (Fill.crossed t.source) =
      fills'.flatMap (Fill.crossed t.source) := by
    by_cases hclear : ClearAhead ht.book d state.tick state.sqrtPrice
    · rw [(run_clear ht h hd hclear).2, (run_clear ht h' hd' hclear).2, hprice]
    · rw [run_hidden ht h hd hclear, run_hidden ht h' hd' hclear]
  have hleft := run_leftBy ht h hd
  rw [hcrossed] at hleft
  exact ⟨hcrossed, hleft.unique (run_leftBy ht h' hd') hprice⟩

/-- The sale up to the end of the position, and what was left of it. -/
def firstPart : SwapResult :=
  { outwardSale with
    amountIn := 2497
    amountOut := 2503
    sqrtPriceEnd := 18446744073709551616
    steps := outwardSale.steps.take 1 }

def firstFill : Fill := ⟨upperPool, .aToB, 2497, minSqrtPrice, 64, firstPart⟩

def secondPart : SwapResult :=
  { outwardSale with
    amountIn := 1503
    amountOut := 1499
    sqrtPriceStart := 18446744073709551616
    tickStart := 0
    liquidityStart := 600000
    steps := outwardSale.steps.drop 1 }

def secondFill : Fill :=
  ⟨resumed upperPool firstPart, .aToB, 1503, minSqrtPrice, 64, secondPart⟩

theorem resumed_runs_agree_sale :
    [firstFill, secondFill].flatMap (Fill.crossed twoPositionsIndex.source) =
      [saleFill].flatMap (Fill.crossed twoPositionsIndex.source) ∧
    resumed (resumed upperPool firstPart) secondPart = resumed upperPool outwardSale := by
  have hfirst : Fills twoPositionsIndex.source upperPool firstFill (resumed upperPool firstPart) :=
    ⟨rfl, by decide +kernel, rfl⟩
  have hsecond : Fills twoPositionsIndex.source (resumed upperPool firstPart) secondFill
      (resumed (resumed upperPool firstPart) secondPart) := ⟨rfl, by decide +kernel, rfl⟩
  exact resumed_runs_agree twoPositionsIndex twoPositionsIndex_accepted .aToB upperPool _ _ _ _
    (.cons hfirst (.cons hsecond (.nil _))) (.cons saleFill_fills (.nil _))
    (by simp [firstFill, secondFill]) (by simp [saleFill]) rfl

end SwapRuns
