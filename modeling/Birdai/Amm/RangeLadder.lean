import Birdai.Amm.PricingDomain

/-!
# The ranges a swap enters

A swap climbs from range to range, paying the cost of each. Which ranges it
enters, and with how much input left, is arithmetic over the boundaries ahead;
the walk comes to exactly these.
-/

namespace RangeLadder

open WideArith CheckedWords Outcomes BoundedLoop SwapExactIn PricingSpecs StepRounding WalkShape
open StepOrder PricingDomain

/-- The start of a range, the input left there and what was earned on the way. -/
structure Entry where
  sqrtPrice : U128
  liquidity : U128
  tick : ℤ
  remaining : ℕ
  output : ℕ
  crossings : ℕ

def Entry.of (w : Walk) : Entry :=
  { sqrtPrice := w.sqrtPrice
    liquidity := w.liquidity
    tick := w.tick
    remaining := w.remaining.val
    output := w.amountOut.val
    crossings := w.crossings }

/-- The range behind a boundary, once the way there is paid for. -/
def Entry.beyond (e : Entry) (d : Direction) (b : Boundary) (liquidity : U128) : Entry :=
  { sqrtPrice := b.sqrtPrice
    liquidity
    tick := b.tick
    remaining := e.remaining - cost d e.liquidity.val e.sqrtPrice.val b.sqrtPrice.val
    output := e.output + payout d e.liquidity.val e.sqrtPrice.val b.sqrtPrice.val
    crossings := e.crossings + 1 }

/-- The input left in a range takes the swap past the boundary ahead, with some left. -/
structure Crosses (c : Call) (e : Entry) (b : Boundary) (liquidity : U128) : Prop where
  ahead : offered c e.tick = some b ∧ reach c.direction e.sqrtPrice < reach c.direction b.sqrtPrice
  within : reach c.direction b.sqrtPrice ≤ reach c.direction c.priceLimit
  positive : 0 < e.sqrtPrice.val ∧ 0 < b.sqrtPrice.val
  stocked : 0 < e.liquidity.val
  fits : Fits c.direction e.liquidity.val e.sqrtPrice.val e.remaining
  room : Room c.direction e.liquidity.val e.sqrtPrice.val b.sqrtPrice.val
  afforded : cost c.direction e.liquidity.val e.sqrtPrice.val b.sqrtPrice.val < e.remaining
  payable : e.output + payout c.direction e.liquidity.val e.sqrtPrice.val b.sqrtPrice.val < 2 ^ 128
  counted : e.crossings < c.maxCrossings
  signed : along c.direction b.liquidityNet.val < 2 ^ 127
  applied : (liquidity.val : ℤ) = e.liquidity.val + along c.direction b.liquidityNet.val

/-- The ranges entered from the first one on. -/
inductive Enters (c : Call) (first : Entry) : Entry → Prop where
  | first : Enters c first first
  | beyond {e : Entry} {b : Boundary} {liquidity : U128} :
      Enters c first e → Crosses c e b liquidity →
      Enters c first (e.beyond c.direction b liquidity)

/-! ### One pass -/

theorem nextBoundary_eq_some_iff {c : Call} {w : Walk} {b : Boundary} :
    c.nextBoundary w = some b ↔ offered c w.tick = some b ∧
      reach c.direction w.sqrtPrice < reach c.direction b.sqrtPrice := by
  rw [nextBoundary_eq_filter, Option.filter_eq_some_iff]
  simp only [isAhead_iff]

/-- The step that a priced movement makes. -/
def taken (w : Walk) (next out consumed : U128) (reached : Bool) : Step :=
  { amountIn := consumed
    amountOut := out
    sqrtPriceStart := w.sqrtPrice
    sqrtPriceEnd := next
    liquidity := w.liquidity
    crossed := reached }

/-- Everything a step needs to succeed, and what it does then. -/
theorem advance_eq_ok_iff {c : Call} {w moved : Walk} {boundary : Option Boundary}
    {reached : Bool} : c.advance w boundary = .ok (moved, reached) ↔
      ∃ next owed out amountOut remaining : U128,
        nextPrice c.direction w.sqrtPrice w.liquidity w.remaining (c.stepLimit boundary) =
          .ok (next, reached) ∧
        next ≠ w.sqrtPrice ∧ c.owedAndOut w.sqrtPrice next w.liquidity = .ok (owed, out) ∧
        w.amountOut.val + out.val = amountOut.val ∧
        remaining.val + (if reached then min owed w.remaining else w.remaining).val =
          w.remaining.val ∧
        moved = { w with sqrtPrice := next, remaining, amountOut, steps := w.steps ++
          [taken w next out (if reached then min owed w.remaining else w.remaining) reached] } := by
  constructor
  · exact advance_inv
  · rintro ⟨next, owed, out, amountOut, remaining, hprice, hmoves, howed, hout, hin, rfl⟩
    refine bind_eq_ok_iff.mpr ⟨_, hprice, ?_⟩
    dsimp only
    rw [if_neg hmoves]
    refine bind_eq_ok_iff.mpr ⟨_, howed, bind_eq_ok_iff.mpr ⟨amountOut, ?_,
      bind_eq_ok_iff.mpr ⟨remaining, ?_, rfl⟩⟩⟩
    · exact okOr_eq_ok_iff.mpr (checkedAdd_eq_some_iff.mpr hout)
    · exact okOr_eq_ok_iff.mpr (checkedSub_eq_some_iff.mpr hin)

theorem cross_eq_again_iff {c : Call} {w t : Walk} {b : Boundary} :
    c.cross w b = .ok (.again t) ↔ w.crossings < c.maxCrossings ∧ w.remaining ≠ 0 ∧
      ∃ net liquidity, c.appliedNet b = .ok net ∧
        applyLiquidityChange w.liquidity net = .ok liquidity ∧
        t = { w with liquidity, tick := b.tick, crossings := w.crossings + 1 } := by
  constructor
  · intro h
    obtain ⟨hcap, net, liquidity, hnet, hliq, hstate, hleave⟩ := c.cross_ok h
    exact ⟨by omega, (fun hz => nomatch hleave.mpr hz), net, liquidity, hnet, hliq, hstate⟩
  · rintro ⟨hcap, hrem, net, liquidity, hnet, hliq, rfl⟩
    refine (if_neg (by omega)).trans (bind_eq_ok_iff.mpr ⟨net, hnet,
      bind_eq_ok_iff.mpr ⟨liquidity, hliq, ?_⟩⟩)
    exact if_neg hrem

/-- A boundary within the limit is the step's target. -/
theorem stepLimit_of_within {c : Call} {b : Boundary}
    (hwithin : reach c.direction b.sqrtPrice ≤ reach c.direction c.priceLimit) :
    c.stepLimit (some b) = b.sqrtPrice :=
  reach_inj.mp ((reach_stepLimit c (some b)).trans (min_eq_left hwithin))

/-- The price a step ends at is the nearer of its target and the price its input reaches. -/
theorem nextPrice_reach {d : Direction} {sqrtPrice liquidity amountIn limit next full : U128}
    {reached : Bool} (hfull : priceFromAmount d sqrtPrice liquidity amountIn = .ok full)
    (h : nextPrice d sqrtPrice liquidity amountIn limit = .ok (next, reached)) :
    reach d next = min (reach d limit) (reach d full) ∧
      (reached = true ↔ reach d limit ≤ reach d full) := by
  obtain ⟨full', hfull', hend⟩ := nextPrice_ok h
  obtain rfl := Except.ok.inj (hfull.symm.trans hfull')
  rcases hend with ⟨rfl, rfl, hle⟩ | ⟨rfl, rfl, hlt⟩
  · exact ⟨(min_eq_left hle).symm, iff_of_true rfl hle⟩
  · exact ⟨(min_eq_right hlt.le).symm, iff_of_false nofun (not_le.mpr hlt)⟩

theorem target_ahead {c : Call} {w : Walk}
    (hlimit : reach c.direction w.sqrtPrice ≤ reach c.direction c.priceLimit)
    (hprice : w.sqrtPrice ≠ c.priceLimit) :
    reach c.direction w.sqrtPrice < reach c.direction (c.stepLimit (c.nextBoundary w)) := by
  have hshort := lt_of_le_of_ne hlimit fun he => hprice (reach_inj.mp he)
  rw [reach_stepLimit]
  apply lt_min ?_ hshort
  cases hb : c.nextBoundary w with
  | none => exact hshort
  | some b => exact (nextBoundary_eq_some_iff.mp hb).2

/-- A priced movement with room for its amounts is a step. -/
theorem exists_advance {c : Call} {w : Walk} {boundary : Option Boundary} {next : U128}
    {reached : Bool}
    (hpriced : nextPrice c.direction w.sqrtPrice w.liquidity w.remaining (c.stepLimit boundary) =
      .ok (next, reached)) (hmoves : next ≠ w.sqrtPrice)
    (hmid : reach c.direction w.sqrtPrice ≤ reach c.direction next)
    (hpos : 0 < w.sqrtPrice.val ∧ 0 < next.val)
    (hroom : Room c.direction w.liquidity.val w.sqrtPrice.val next.val)
    (hpayable : w.amountOut.val +
      payout c.direction w.liquidity.val w.sqrtPrice.val next.val < 2 ^ 128) :
    ∃ moved, c.advance w boundary = .ok (moved, reached) ∧ moved.sqrtPrice = next ∧
      moved.liquidity = w.liquidity ∧ moved.crossings = w.crossings := by
  obtain ⟨full, hfull, _⟩ := nextPrice_ok hpriced
  have hreach : reach c.direction next ≤ reach c.direction full :=
    (nextPrice_reach hfull hpriced).1 ▸ min_le_right _ _
  have hcost := (cost_le_iff hpos hmid).mpr (amount_covers hfull hmid hreach)
  let owed : U128 := ⟨_, hcost.trans_lt w.remaining.isLt⟩
  let out : U128 := ⟨_, (Nat.le_add_left _ _).trans_lt hpayable⟩
  let amountOut : U128 := ⟨_, hpayable⟩
  let consumed : U128 := if reached then min owed w.remaining else w.remaining
  have hconsumed : consumed.val ≤ w.remaining.val := by
    simp only [consumed]
    split
    · exact Fin.le_def.mp (min_le_right _ _)
    · exact le_rfl
  let remaining : U128 := ⟨w.remaining.val - consumed.val,
    (Nat.sub_le _ _).trans_lt w.remaining.isLt⟩
  refine ⟨_, advance_eq_ok_iff.mpr ⟨next, owed, out, amountOut, remaining, hpriced, hmoves,
    (owedAndOut_eq_ok_iff hmid).mpr ⟨hpos, hroom, rfl, rfl⟩, rfl, Nat.sub_add_cancel hconsumed,
    rfl⟩, rfl, rfl, rfl⟩

/-- After its step a pass crosses the boundary it landed on, or leaves. -/
theorem pass_of_advance_cases {c : Call} {w moved : Walk} {reached : Bool}
    (hrem : w.remaining ≠ 0) (hprice : w.sqrtPrice ≠ c.priceLimit)
    (hmoved : c.advance w (c.nextBoundary w) = .ok (moved, reached)) :
    (∃ b, c.nextBoundary w = some b ∧ b.sqrtPrice = moved.sqrtPrice ∧ reached = true ∧
      c.pass w = c.cross moved b) ∨ c.pass w = .ok (.leave moved) := by
  by_cases hland : ∃ b, c.nextBoundary w = some b ∧ b.sqrtPrice = moved.sqrtPrice
  · obtain ⟨b, hb, hat⟩ := hland
    have hpriced := (c.advance_keeps hmoved).2.2
    obtain ⟨full, hfull, _⟩ := nextPrice_ok hpriced
    obtain ⟨hreach, hcrossed⟩ := nextPrice_reach hfull hpriced
    have htarget : reach c.direction (c.stepLimit (c.nextBoundary w)) ≤
        reach c.direction b.sqrtPrice := by
      rw [hb, reach_stepLimit]
      exact min_le_left _ _
    have hreached : reached = true := hcrossed.mpr ((htarget.trans (hat ▸ hreach.le)).trans
      (min_le_right _ _))
    subst hreached
    rw [hb] at hmoved
    exact .inl ⟨b, hb, hat, rfl, pass_of_landing hrem hprice hb hmoved hat⟩
  · exact .inr (pass_of_advance hrem hprice hmoved fun b hb hat => hland ⟨b, hb, hat⟩)

/-- A pass that goes round again has crossed into the next range of the ladder. -/
theorem crosses_of_again {c : Call} {w t : Walk} (h : c.pass w = .ok (.again t)) :
    ∃ b, Crosses c (.of w) b t.liquidity ∧
      Entry.of t = (Entry.of w).beyond c.direction b t.liquidity := by
  rcases c.pass_cases h with
    ⟨_, hp⟩ | ⟨_, _, moved, reached, hmoved, ⟨hp, _⟩ | ⟨rfl, b, hb, hat, hcross⟩⟩
  · cases hp
  · cases hp
  · obtain ⟨next, owed, out, amountOut, remaining, hpriced, _, howed, hout, hin, rfl⟩ :=
      advance_eq_ok_iff.mp hmoved
    obtain ⟨hcounted, hrem, net, liquidity, hnet, hliq, rfl⟩ := cross_eq_again_iff.mp hcross
    obtain rfl : b.sqrtPrice = next := hat
    obtain ⟨hoffered, hahead⟩ := nextBoundary_eq_some_iff.mp hb
    obtain ⟨full, hfull, ⟨_, htarget, _⟩ | ⟨hshort, _⟩⟩ := nextPrice_ok hpriced
    · have hwithin : reach c.direction b.sqrtPrice ≤ reach c.direction c.priceLimit := by
        rw [htarget, reach_stepLimit]
        exact min_le_right _ _
      obtain ⟨hpositive, hroom, hcost, hpayout⟩ := (owedAndOut_eq_ok_iff hahead.le).mp howed
      obtain ⟨hstocked, hfits⟩ := exists_price_iff.mp ⟨full, hfull⟩
      obtain ⟨hsigned, happlied⟩ := applied_eq_ok_iff.mp ⟨net, hnet, hliq⟩
      have hleft : remaining.val ≠ 0 := fun hz => hrem (Fin.ext hz)
      have hspent : remaining.val + min owed.val w.remaining.val = w.remaining.val := by
        rw [if_pos rfl, Fin.coe_min] at hin
        exact hin
      refine ⟨b, ⟨⟨hoffered, hahead⟩, hwithin, hpositive, hstocked, hfits, hroom, ?_, ?_, hcounted,
        hsigned, happlied⟩, ?_⟩
      · simp only [Entry.of]
        omega
      · simp only [Entry.of]
        have := amountOut.isLt
        omega
      · simp only [Entry.of, Entry.beyond, Entry.mk.injEq, true_and, and_true]
        omega
    · cases hshort

/-- The walk crosses into every next range of the ladder. -/
theorem again_of_crosses {c : Call} {w : Walk} {b : Boundary} {liquidity : U128}
    (h : Crosses c (.of w) b liquidity) :
    ∃ t, c.pass w = .ok (.again t) ∧
      Entry.of t = (Entry.of w).beyond c.direction b liquidity := by
  have hwithin := h.within
  have hahead : reach c.direction w.sqrtPrice < reach c.direction b.sqrtPrice := h.ahead.2
  have hafforded : cost c.direction w.liquidity.val w.sqrtPrice.val b.sqrtPrice.val <
    w.remaining.val := h.afforded
  have hpayable : w.amountOut.val +
    payout c.direction w.liquidity.val w.sqrtPrice.val b.sqrtPrice.val < 2 ^ 128 := h.payable
  have hb : c.nextBoundary w = some b := nextBoundary_eq_some_iff.mpr h.ahead
  have hrem : w.remaining ≠ 0 := by
    intro hz
    rw [hz, Fin.val_zero] at hafforded
    omega
  have hprice : w.sqrtPrice ≠ c.priceLimit := by
    rintro hz
    rw [hz] at hahead
    exact absurd hwithin (not_le.mpr hahead)
  obtain ⟨full, hfull⟩ :
      ∃ full, priceFromAmount c.direction w.sqrtPrice w.liquidity w.remaining = .ok full :=
    exists_price_iff.mpr ⟨h.stocked, h.fits⟩
  have hreach : reach c.direction b.sqrtPrice ≤ reach c.direction full :=
    (reach_full_iff hfull hahead.le).mpr ((cost_le_iff h.positive hahead.le).mp hafforded.le)
  have hpriced : nextPrice c.direction w.sqrtPrice w.liquidity w.remaining
      (c.stepLimit (some b)) = .ok (b.sqrtPrice, true) := by
    rw [stepLimit_of_within hwithin, nextPrice_of_full hfull, if_pos hreach]
  let owed : U128 := ⟨_, hafforded.trans w.remaining.isLt⟩
  let out : U128 := ⟨_, (Nat.le_add_left _ _).trans_lt hpayable⟩
  let amountOut : U128 := ⟨_, hpayable⟩
  let remaining : U128 := ⟨w.remaining.val - owed.val, (Nat.sub_le _ _).trans_lt w.remaining.isLt⟩
  have howed : c.owedAndOut w.sqrtPrice b.sqrtPrice w.liquidity = .ok (owed, out) :=
    (owedAndOut_eq_ok_iff hahead.le).mpr ⟨h.positive, h.room, rfl, rfl⟩
  have hmin : min owed w.remaining = owed := min_eq_left (Fin.le_def.mpr hafforded.le)
  have hmoved := advance_eq_ok_iff.mpr ⟨b.sqrtPrice, owed, out, amountOut, remaining, hpriced,
    fun he => absurd hahead (by rw [he]; exact lt_irrefl _), howed, rfl, by
      rw [if_pos rfl, hmin]
      exact Nat.sub_add_cancel hafforded.le, rfl⟩
  obtain ⟨net, hnet, hliq⟩ := applied_eq_ok_iff.mpr ⟨h.signed, h.applied⟩
  have hleft : remaining ≠ 0 := fun hz => by
    have hz : w.remaining.val - owed.val = 0 := congrArg Fin.val hz
    have : owed.val < w.remaining.val := hafforded
    omega
  refine ⟨_, (pass_of_landing hrem hprice hb hmoved rfl).trans
    (cross_eq_again_iff.mpr ⟨h.counted, hleft, net, liquidity, hnet, hliq, rfl⟩), rfl⟩

/-- The walk comes to the start of exactly the ranges the ladder enters. -/
theorem enters_iff_comes {c : Call} {w : Walk} {e : Entry} :
    Enters c (.of w) e ↔ ∃ t, c.loop.Comes w t ∧ Entry.of t = e := by
  constructor
  · intro h
    induction h with
    | first => exact ⟨w, .start, rfl⟩
    | beyond _ hcross ih =>
      obtain ⟨t, ht, rfl⟩ := ih
      obtain ⟨u, hu, he⟩ := again_of_crosses hcross
      exact ⟨u, .again ht hu, he⟩
  · rintro ⟨t, ht, rfl⟩
    induction ht with
    | start => exact .first
    | again _ hb ih =>
      obtain ⟨b, hcross, he⟩ := crosses_of_again hb
      exact he ▸ .beyond ih hcross

/-! ### How far the ladder leads -/

/-- The input left in a range takes the swap on to a price, within the limit and no farther
than the boundary ahead. -/
structure Affords (c : Call) (e : Entry) (next : U128) : Prop where
  onward : reach c.direction e.sqrtPrice < reach c.direction next
  within : reach c.direction next ≤ reach c.direction c.priceLimit
  short : ∀ b, offered c e.tick = some b →
    reach c.direction e.sqrtPrice < reach c.direction b.sqrtPrice →
      reach c.direction next ≤ reach c.direction b.sqrtPrice
  positive : 0 < e.sqrtPrice.val ∧ 0 < next.val
  stocked : 0 < e.liquidity.val
  afforded : cost c.direction e.liquidity.val e.sqrtPrice.val next.val ≤ e.remaining

/-- In some range it enters, a swap can afford a price past the given one. -/
def GoesPast (c : Call) (first : Entry) (sqrtPrice : U128) : Prop :=
  ∃ e next, Enters c first e ∧ Affords c e next ∧
    reach c.direction sqrtPrice < reach c.direction next

theorem Crosses.affords {c : Call} {e : Entry} {b : Boundary} {liquidity : U128}
    (h : Crosses c e b liquidity) : Affords c e b.sqrtPrice where
  onward := h.ahead.2
  within := h.within
  short a ha _ := by
    obtain rfl := Option.some.inj (h.ahead.1.symm.trans ha)
    exact le_rfl
  positive := h.positive
  stocked := h.stocked
  afforded := h.afforded.le

/-- A step goes no farther than its input affords. -/
theorem affords_of_advanced {c : Call} {w moved : Walk} {s : Step}
    (hlimit : reach c.direction w.sqrtPrice ≤ reach c.direction c.priceLimit)
    (h : Advanced c w (c.nextBoundary w) moved s) : Affords c (.of w) s.sqrtPriceEnd := by
  obtain ⟨full, hfull, _⟩ := nextPrice_ok h.priced
  have hpositive := h.start ▸ h.positive
  have hreach : reach c.direction s.sqrtPriceEnd ≤ reach c.direction full :=
    (nextPrice_reach hfull h.priced).1 ▸ min_le_right _ _
  refine ⟨h.forward, h.within.trans (stepLimit_ahead hlimit).2, ?_, hpositive,
    (exists_price_iff.mp ⟨full, hfull⟩).1, ?_⟩
  · intro b hb hahead
    have hwithin := h.within
    rw [nextBoundary_eq_some_iff.mpr ⟨hb, hahead⟩, reach_stepLimit] at hwithin
    exact hwithin.trans (min_le_left _ _)
  · exact (cost_le_iff hpositive h.forward.le).mpr (amount_covers hfull h.forward.le hreach)

/-- And no less far. -/
theorem pass_of_affords {c : Call} {w : Walk} {p : Pass Walk} {next : U128}
    (hlimit : reach c.direction w.sqrtPrice ≤ reach c.direction c.priceLimit)
    (h : Affords c (.of w) next) (hpass : c.pass w = .ok p) :
    reach c.direction next ≤ reach c.direction p.state.sqrtPrice := by
  have honward : reach c.direction w.sqrtPrice < reach c.direction next := h.onward
  have hcovers : Covers c.direction w.liquidity w.sqrtPrice next w.remaining.val :=
    (cost_le_iff h.positive honward.le).mp h.afforded
  rcases pass_reaches hlimit hpass with ⟨hzero | hat, _⟩ | ⟨moved, s, hadv, hend⟩
  · rw [hzero, Fin.val_zero, Nat.cast_zero] at hcovers
    exact absurd hcovers (not_covers_zero h.stocked honward)
  · rw [hat] at honward
    exact absurd h.within (not_le.mpr honward)
  · obtain ⟨full, hfull, _⟩ := nextPrice_ok hadv.priced
    rw [hend, (nextPrice_reach hfull hadv.priced).1, reach_stepLimit]
    refine le_min (le_min ?_ h.within) ((reach_full_iff hfull honward.le).mpr hcovers)
    cases hb : c.nextBoundary w with
    | none => exact h.within
    | some b =>
      obtain ⟨hoffered, hahead⟩ := nextBoundary_eq_some_iff.mp hb
      exact h.short b hoffered hahead

/-- A walk has come past a price only through a range that affords it. -/
theorem goesPast_of_comes {c : Call} {first t : Walk} {sqrtPrice : U128}
    (h : c.loop.Comes first t)
    (hbehind : reach c.direction first.sqrtPrice ≤ reach c.direction sqrtPrice)
    (hpast : reach c.direction sqrtPrice < reach c.direction t.sqrtPrice) :
    GoesPast c (.of first) sqrtPrice := by
  induction h with
  | start => exact absurd hbehind (not_le.mpr hpast)
  | @again u t hu hb ih =>
    obtain ⟨b, hcross, hentry⟩ := crosses_of_again hb
    have hprice : t.sqrtPrice = b.sqrtPrice := congrArg Entry.sqrtPrice hentry
    exact ⟨.of u, b.sqrtPrice, enters_iff_comes.mpr ⟨u, hu, rfl⟩, hcross.affords, hprice ▸ hpast⟩

/-- A walk ends past a price exactly where its ladder can afford to. -/
theorem goesPast_iff {c : Call} {first final : Walk} {sqrtPrice : U128}
    (hlimit : reach c.direction first.sqrtPrice ≤ reach c.direction c.priceLimit)
    (hrun : c.loop.run first = .ok final)
    (hbehind : reach c.direction first.sqrtPrice ≤ reach c.direction sqrtPrice) :
    GoesPast c (.of first) sqrtPrice ↔
      reach c.direction sqrtPrice < reach c.direction final.sqrtPrice := by
  constructor
  · rintro ⟨_, next, hentered, hafford, hpast⟩
    obtain ⟨t, ht, rfl⟩ := enters_iff_comes.mp hentered
    have hwithin := comes_within ht hlimit
    obtain ⟨p, hpass, hrest⟩ := c.loop.run_ok_cases ((c.loop.run_of_comes ht).symm.trans hrun)
    have hnext := hpast.trans_le (pass_of_affords hwithin hafford hpass)
    rcases hrest with rfl | ⟨u, rfl, hrun⟩
    · exact hnext
    · exact hnext.trans_le (run_onward (pass_onward hwithin hpass).2 hrun)
  · intro hpast
    obtain ⟨t, ht, hpass⟩ := c.loop.run_eq_ok_iff.mp hrun
    by_cases hearly : reach c.direction sqrtPrice < reach c.direction t.sqrtPrice
    · exact goesPast_of_comes ht hbehind hearly
    · have hwithin := comes_within ht hlimit
      rcases pass_reaches hwithin hpass with ⟨_, hp⟩ | ⟨moved, s, hadv, hend⟩
      · cases hp
        exact absurd hpast hearly
      · have hprice : final.sqrtPrice = s.sqrtPriceEnd := hend
        exact ⟨.of t, s.sqrtPriceEnd, enters_iff_comes.mpr ⟨t, ht, rfl⟩,
          affords_of_advanced hwithin hadv, hprice ▸ hpast⟩

/-! ### From the walk to the swap -/

/-- The range a swap starts in, with the input that its fee leaves. -/
def Entry.start (state : PoolState) (amountIn : U128) : Entry :=
  { sqrtPrice := state.sqrtPrice
    liquidity := state.liquidity
    tick := state.tick
    remaining := amountIn.val - amountIn.val * state.feeRate.val / 1000000
    output := 0
    crossings := 0 }

theorem start_eq {state : PoolState} {amountIn net fee : U128}
    (h : takeFee amountIn state.feeRate = .ok (net, fee)) :
    Entry.of (Walk.start state net) = .start state amountIn := by
  obtain ⟨_, hfee, hnet⟩ := takeFee_ok h
  simp only [Entry.of, Walk.start, Entry.start, Entry.mk.injEq, true_and, Fin.val_zero, and_true]
  omega

/-- The walk of a swap comes to the ranges that the swap enters. -/
theorem enters_start_iff {c : Call} {state : PoolState} {amountIn net fee : U128}
    (h : takeFee amountIn state.feeRate = .ok (net, fee)) {e : Entry} :
    Enters c (.start state amountIn) e ↔
      ∃ t, c.loop.Comes (Walk.start state net) t ∧ Entry.of t = e := by
  rw [← start_eq h]
  exact enters_iff_comes

theorem remaining_pos_iff {w : Walk} : 0 < (Entry.of w).remaining ↔ w.remaining ≠ 0 := by
  rw [Nat.pos_iff_ne_zero, Entry.of, ne_eq, ne_eq, Fin.ext_iff, Fin.val_zero]

/-- Every rate below the denominator leaves a net input. -/
theorem exists_takeFee (amountIn : U128) {feeRate : U64} (hrate : feeRate.val < 1000000) :
    ∃ net fee, takeFee amountIn feeRate = .ok (net, fee) := by
  have hgross : amountIn.val * feeRate.val < 2 ^ 256 := by
    calc amountIn.val * feeRate.val
        < 2 ^ 128 * 2 ^ 64 := Nat.mul_lt_mul'' amountIn.isLt feeRate.isLt
      _ ≤ 2 ^ 256 := by norm_num
  have hle : amountIn.val * feeRate.val / 1000000 ≤ amountIn.val :=
    Nat.div_le_of_le_mul (by
      rw [Nat.mul_comm]
      exact Nat.mul_le_mul_right _ hrate.le)
  let fee : U128 := ⟨_, hle.trans_lt amountIn.isLt⟩
  let net : U128 := ⟨amountIn.val - fee.val, (Nat.sub_le _ _).trans_lt amountIn.isLt⟩
  refine ⟨net, fee, ?_⟩
  have hnot : ¬ feeDenominator ≤ feeRate := not_le.mpr hrate
  rw [takeFee, if_neg hnot]
  refine bind_eq_ok_iff.mpr ⟨.ofNat _ hgross, CheckedU256.checkedMul_eq_ok_iff.mpr rfl,
    bind_eq_ok_iff.mpr ⟨.ofNat _ ((Nat.div_le_self _ _).trans_lt hgross), ?_,
      bind_eq_ok_iff.mpr ⟨fee, CheckedU256.toU128_eq_ok_iff.mpr rfl,
        bind_eq_ok_iff.mpr ⟨net, ?_, rfl⟩⟩⟩⟩
  · exact CheckedU256.checkedDiv_eq_ok_iff.mpr ⟨by decide, rfl⟩
  · exact okOr_eq_ok_iff.mpr (checkedSub_eq_some_iff.mpr (Nat.sub_add_cancel hle))

/-- What is left of the input never exceeds it, so its share of the fee can be refunded. -/
theorem exists_feeCharged (fee : U128) {remaining netInput : U128} (hle : remaining ≤ netInput) :
    ∃ charged, feeCharged fee remaining netInput = .ok charged := by
  by_cases hdone : remaining = 0 ∨ netInput = 0
  · exact ⟨fee, if_pos hdone⟩
  · have hnet : netInput.val ≠ 0 := fun hz => hdone (.inr (Fin.ext hz))
    have hproduct : fee.val * remaining.val < 2 ^ 256 := by
      calc fee.val * remaining.val
          < 2 ^ 128 * 2 ^ 128 := Nat.mul_lt_mul'' fee.isLt remaining.isLt
        _ = 2 ^ 256 := by norm_num
    have hrefund : fee.val * remaining.val / netInput.val ≤ fee.val :=
      Nat.div_le_of_le_mul (by
        rw [Nat.mul_comm]
        exact Nat.mul_le_mul_right _ (Fin.le_def.mp hle))
    let refundable : U128 := ⟨_, hrefund.trans_lt fee.isLt⟩
    let charged : U128 := ⟨fee.val - refundable.val, (Nat.sub_le _ _).trans_lt fee.isLt⟩
    refine ⟨charged, ?_⟩
    rw [feeCharged, if_neg hdone]
    refine bind_eq_ok_iff.mpr ⟨.ofNat _ hproduct, CheckedU256.checkedMul_eq_ok_iff.mpr rfl,
      bind_eq_ok_iff.mpr ⟨.ofNat _ ((Nat.div_le_self _ _).trans_lt hproduct), ?_,
        bind_eq_ok_iff.mpr ⟨refundable, CheckedU256.toU128_eq_ok_iff.mpr rfl, ?_⟩⟩⟩
    · exact CheckedU256.checkedDiv_eq_ok_iff.mpr ⟨hnet, rfl⟩
    · exact okOr_eq_ok_iff.mpr (checkedSub_eq_some_iff.mpr (Nat.sub_add_cancel hrefund))

section swap
variable {source : TickSource} {direction : Direction} {state : PoolState}
  {amountIn priceLimit : U128} {maxCrossings : ℕ}
  (hpos : state.sqrtPrice ≠ 0) (hliq : state.liquidity ≠ 0)
  (hlimit : reach direction state.sqrtPrice ≤ reach direction priceLimit)
include hpos hliq hlimit

/-- A swap that passes its guards succeeds or fails with its walk. -/
theorem swap_of_walk {net fee : U128} (hfee : takeFee amountIn state.feeRate = .ok (net, fee)) :
    (∀ e, swapExactIn source direction state amountIn priceLimit maxCrossings = .error e ↔
      (Call.loop { source, direction, priceLimit, maxCrossings }).run (Walk.start state net) =
        .error e) ∧
    ((∃ r, swapExactIn source direction state amountIn priceLimit maxCrossings = .ok r) ↔
      ∃ f, (Call.loop { source, direction, priceLimit, maxCrossings }).run (Walk.start state net) =
        .ok f) := by
  simp only [swapExactIn, if_neg hpos, if_neg hliq, limitReachable_iff.mpr hlimit, ↓reduceIte,
    hfee, ok_bind]
  cases hrun : (Call.loop { source, direction, priceLimit, maxCrossings }).run
      (Walk.start state net) with
  | error e => simp [error_bind]
  | ok f =>
    have hspent := (run_balanced hlimit hrun).1.inputs
    have hle : f.remaining ≤ net := by
      have hnet : (Walk.start state net).remaining = net := rfl
      rw [hnet] at hspent
      exact Fin.le_def.mpr (by omega)
    obtain ⟨charged, hcharged⟩ := exists_feeCharged fee hle
    simp [hcharged]

/-- A swap that passes its guards fails exactly where the walk comes to a failing pass. -/
theorem swap_eq_error_iff {net fee : U128}
    (hfee : takeFee amountIn state.feeRate = .ok (net, fee)) {e : AmmError} :
    swapExactIn source direction state amountIn priceLimit maxCrossings = .error e ↔
      ∃ t, (Call.loop { source, direction, priceLimit, maxCrossings }).Comes
          (Walk.start state net) t ∧
        Call.pass { source, direction, priceLimit, maxCrossings } t = .error e :=
  ((swap_of_walk hpos hliq hlimit hfee).1 e).trans (Loop.run_eq_error_iff _)

end swap

end RangeLadder
