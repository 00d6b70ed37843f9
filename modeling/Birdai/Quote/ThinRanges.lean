import Birdai.Quote.QuoteErrors

/-!
# When a swap overflows

For a well-formed pool every intermediate fits its word, with one exception: the
price that the whole remaining input would reach is computed before it is
clamped, and with a single unit of liquidity it can leave 128 bits.
-/

namespace ThinRanges

open WideArith CheckedWords Outcomes BoundedLoop SwapExactIn PricingSpecs StepRounding WalkShape
open StepOrder LargerSwap PricingDomain RangeLadder TickMath QuoteErrors

/-- The liquidity in force at the start and behind every boundary ahead, up to the limit. -/
inductive Running (c : Call) (state : PoolState) : U128 → ℤ → ℤ → Prop where
  | start : Running c state state.sqrtPrice state.tick state.liquidity.val
  | cross {sqrtPrice : U128} {tick liquidity : ℤ} {b : Boundary} :
      Running c state sqrtPrice tick liquidity → offered c tick = some b →
      reach c.direction sqrtPrice < reach c.direction b.sqrtPrice →
      reach c.direction b.sqrtPrice ≤ reach c.direction c.priceLimit →
      Running c state b.sqrtPrice b.tick (liquidity + along c.direction b.liquidityNet.val)

def InRange (sqrtPrice : U128) : Prop := minSqrtPrice ≤ sqrtPrice ∧ sqrtPrice ≤ maxSqrtPrice

instance (sqrtPrice : U128) : Decidable (InRange sqrtPrice) :=
  inferInstanceAs (Decidable (_ ∧ _))

/-- The pools, inputs and sources the arithmetic is meant for. -/
structure WellFormed (c : Call) (state : PoolState) (amountIn : U128) : Prop where
  price : InRange state.sqrtPrice
  limit : InRange c.priceLimit ∧ reach c.direction state.sqrtPrice ≤ reach c.direction c.priceLimit
  rate : state.feeRate.val < 1000000
  amount : amountIn.val < 2 ^ 64
  boundaries : ∀ tick b, offered c tick = some b → InRange b.sqrtPrice
  running : ∀ {sqrtPrice tick liquidity}, Running c state sqrtPrice tick liquidity →
    0 < liquidity ∧ liquidity < 2 ^ 64

/-- A range with a single unit of liquidity is entered upwards with so much input that
the price it would reach does not fit, however near the limit is. -/
def EntersThin (c : Call) (state : PoolState) (amountIn : U128) : Prop :=
  c.direction = .bToA ∧ ∃ e, Enters c (.start state amountIn) e ∧ e.liquidity.val = 1 ∧
    0 < e.remaining ∧ e.sqrtPrice ≠ c.priceLimit ∧
    2 ^ 128 ≤ e.sqrtPrice.val + e.remaining * 2 ^ 64

/-- The failures a well-formed pool may report. -/
def Reported : AmmError → Prop
  | .noProgress _ => True
  | .tooManyCrossings _ => True
  | _ => False

/-! ### Bounds on what is entered -/

theorem InRange.pos {p : U128} (h : InRange p) : 0 < p.val :=
  lt_of_lt_of_le (by decide : 0 < minSqrtPrice.val) (Fin.le_def.mp h.1)

theorem InRange.lt {p : U128} (h : InRange p) : p.val < 2 ^ 97 :=
  lt_of_le_of_lt (Fin.le_def.mp h.2) (by decide : maxSqrtPrice.val < 2 ^ 97)

theorem inRange_between {d : Direction} {start mid stop : U128} (hstart : InRange start)
    (hstop : InRange stop) (hmid : reach d start ≤ reach d mid)
    (hle : reach d mid ≤ reach d stop) : InRange mid := by
  cases d with
  | bToA => exact ⟨hstart.1.trans (le_of_reach_up hmid), (le_of_reach_up hle).trans hstop.2⟩
  | aToB => exact ⟨hstop.1.trans (le_of_reach_down hle), (le_of_reach_down hmid).trans hstart.2⟩

/-- The most liquidity a well-formed pool has in force. -/
def maxLiquidity : U128 := 18446744073709551615

/-- More liquidity covers no less. -/
theorem coveredBy_deeper {d : Direction} {liquidity liquidity' start stop : U128} {out : ℤ}
    (hstop : reach d start ≤ reach d stop) (hle : liquidity ≤ liquidity')
    (h : CoveredBy d liquidity start stop out) : CoveredBy d liquidity' start stop out := by
  have hle : (liquidity.val : ℤ) ≤ liquidity'.val := Int.ofNat_le.mpr hle
  cases d with
  | bToA =>
    have hgap : (0 : ℤ) ≤ stop.val - start.val :=
      sub_nonneg.mpr (Int.ofNat_le.mpr (le_of_reach_up hstop))
    have hmore := mul_le_mul_of_nonneg_right
      (mul_le_mul_of_nonneg_right hle (by positivity : (0 : ℤ) ≤ 2 ^ 64)) hgap
    exact le_trans h hmore
  | aToB =>
    have hgap : (0 : ℤ) ≤ start.val - stop.val :=
      sub_nonneg.mpr (Int.ofNat_le.mpr (le_of_reach_down hstop))
    exact le_trans h (mul_le_mul_of_nonneg_right hle hgap)

/-- What so much liquidity pays out between prices in range fits its word. -/
theorem output_fits {d : Direction} {start stop : U128} {out : ℕ} (hstart : InRange start)
    (hstop : InRange stop) (h : CoveredBy d maxLiquidity start stop out) : out < 2 ^ 128 := by
  have hpos := hstart.pos
  have hposStop := hstop.pos
  cases d with
  | bToA =>
    have h : (out : ℤ) * start.val * stop.val ≤
        (maxLiquidity.val : ℤ) * 2 ^ 64 * (stop.val - start.val) := h
    by_contra hbig
    have hbig : (2 : ℤ) ^ 128 ≤ out := by exact_mod_cast not_lt.mp hbig
    have hmax : (maxLiquidity.val : ℤ) = 2 ^ 64 - 1 := rfl
    rw [hmax] at h
    have hstart : (1 : ℤ) ≤ start.val := by exact_mod_cast hpos
    have hstop : (1 : ℤ) ≤ stop.val := by exact_mod_cast hposStop
    have hleast : (2 : ℤ) ^ 128 * stop.val ≤ out * start.val * stop.val := by
      have hfirst : (2 : ℤ) ^ 128 ≤ out * start.val := by nlinarith
      exact mul_le_mul_of_nonneg_right hfirst (by omega)
    omega
  | aToB =>
    have h : (out : ℤ) * 2 ^ 64 ≤ (maxLiquidity.val : ℤ) * (start.val - stop.val) := h
    have hmax : (maxLiquidity.val : ℤ) = 2 ^ 64 - 1 := rfl
    rw [hmax] at h
    have hlt := hstart.lt
    omega

/-- What holds at the start of every range a well-formed swap enters. -/
structure Bounded (c : Call) (state : PoolState) (e : Entry) : Prop where
  price : InRange e.sqrtPrice
  onward : reach c.direction state.sqrtPrice ≤ reach c.direction e.sqrtPrice
  running : Running c state e.sqrtPrice e.tick e.liquidity.val
  remaining : e.remaining < 2 ^ 64
  output : CoveredBy c.direction maxLiquidity state.sqrtPrice e.sqrtPrice e.output

section entered
variable {c : Call} {state : PoolState} {amountIn : U128} (h : WellFormed c state amountIn)
include h

theorem liquidity_bounds {e : Entry} (he : Bounded c state e) :
    0 < e.liquidity.val ∧ e.liquidity.val < 2 ^ 64 := by
  have hbounds := h.running he.running
  omega

/-- The payout of a movement inside a range adds up with what was earned before it. -/
theorem output_beyond {e : Entry} (he : Bounded c state e) {next : U128} (hnext : InRange next)
    (hmid : reach c.direction e.sqrtPrice ≤ reach c.direction next) :
    CoveredBy c.direction maxLiquidity state.sqrtPrice next
      (e.output + payout c.direction e.liquidity.val e.sqrtPrice.val next.val : ℕ) := by
  have hmost : CoveredBy c.direction e.liquidity e.sqrtPrice next
      (payout c.direction e.liquidity.val e.sqrtPrice.val next.val : ℕ) :=
    (le_payout_iff ⟨he.price.pos, hnext.pos⟩ hmid).mp le_rfl
  have hdeep : e.liquidity ≤ maxLiquidity :=
    Fin.le_def.mpr (Nat.le_of_lt_succ (liquidity_bounds h he).2)
  rw [Nat.cast_add]
  exact coveredBy_trans he.price.pos he.output (coveredBy_deeper hmid hdeep hmost)

theorem entered_bounded {e : Entry} (hentered : Enters c (.start state amountIn) e) :
    Bounded c state e := by
  induction hentered with
  | first =>
    exact ⟨h.price, le_rfl, .start, (Nat.sub_le _ _).trans_lt h.amount, coveredBy_zero le_rfl⟩
  | beyond _ hcross ih =>
    rename_i e b liquidity _
    have hahead := hcross.ahead
    have hprice := h.boundaries _ _ hahead.1
    refine ⟨hprice, ih.onward.trans hahead.2.le, ?_, (Nat.sub_le _ _).trans_lt ih.remaining, ?_⟩
    · have hrunning := Running.cross ih.running hahead.1 hahead.2 hcross.within
      rw [← hcross.applied] at hrunning
      exact hrunning
    · exact output_beyond h ih hprice hahead.2.le

/-- Outside thin ranges the price move fits. -/
theorem bounded_fits {e : Entry} (he : Bounded c state e)
    (hthick : c.direction = .bToA → e.liquidity.val = 1 →
      e.sqrtPrice.val + e.remaining * 2 ^ 64 < 2 ^ 128) :
    Fits c.direction e.liquidity.val e.sqrtPrice.val e.remaining := by
  obtain ⟨hstocked, hless⟩ := liquidity_bounds h he
  have hprice := he.price.lt
  have hrem := he.remaining
  cases hd : c.direction with
  | bToA =>
    rcases Nat.lt_or_ge e.liquidity.val 2 with hone | htwo
    · have hone : e.liquidity.val = 1 := by omega
      simp only [Fits, hone, Nat.div_one]
      exact hthick hd hone
    · have hhalf : e.remaining * 2 ^ 64 / e.liquidity.val ≤ e.remaining * 2 ^ 64 / 2 :=
        Nat.div_le_div_left htwo (by decide)
      have hsum : e.sqrtPrice.val + e.remaining * 2 ^ 64 / 2 < 2 ^ 128 := by omega
      exact (Nat.add_le_add_left hhalf _).trans_lt hsum
  | aToB =>
    have hspread : e.remaining * e.sqrtPrice.val < 2 ^ 64 * 2 ^ 97 :=
      Nat.mul_lt_mul'' hrem hprice
    have hproduct : e.liquidity.val * 2 ^ 64 * e.sqrtPrice.val < 2 ^ 64 * 2 ^ 64 * 2 ^ 97 :=
      Nat.mul_lt_mul'' (by omega) hprice
    exact ⟨by omega, by omega⟩

theorem bounded_room {e : Entry} (he : Bounded c state e) {next : U128} (hnext : InRange next) :
    Room c.direction e.liquidity.val e.sqrtPrice.val next.val := by
  have hless := (liquidity_bounds h he).2
  have hgap : gap c.direction e.sqrtPrice.val next.val < 2 ^ 97 := by
    have hprice := he.price.lt
    have hnext := hnext.lt
    cases c.direction with
    | bToA => exact (Nat.sub_le _ _).trans_lt hnext
    | aToB => exact (Nat.sub_le _ _).trans_lt hprice
  calc e.liquidity.val * 2 ^ 64 * gap c.direction e.sqrtPrice.val next.val
      < 2 ^ 64 * 2 ^ 64 * 2 ^ 97 := Nat.mul_lt_mul'' (by omega) hgap
    _ < 2 ^ 256 := by norm_num

/-- Crossing a boundary ahead succeeds up to the cap. -/
theorem bounded_cross {w moved : Walk} {b : Boundary} (hw : Bounded c state (.of w))
    (hb : c.nextBoundary w = some b)
    (hwithin : reach c.direction b.sqrtPrice ≤ reach c.direction c.priceLimit)
    (hliq : moved.liquidity = w.liquidity) :
    (∃ p, c.cross moved b = .ok p) ∨
      c.cross moved b = .error (.tooManyCrossings c.maxCrossings) := by
  obtain ⟨hoffered, hahead⟩ := nextBoundary_eq_some_iff.mp hb
  have hbounds := h.running (.cross hw.running hoffered hahead hwithin)
  simp only [Entry.of] at hbounds
  have hless := (liquidity_bounds h hw).2
  simp only [Entry.of] at hless
  obtain ⟨behind, hbehind⟩ : ∃ behind : ℕ,
      (behind : ℤ) = w.liquidity.val + along c.direction b.liquidityNet.val :=
    ⟨_, Int.toNat_of_nonneg hbounds.1.le⟩
  rw [← hbehind] at hbounds
  let liquidity : U128 := ⟨behind, by omega⟩
  obtain ⟨net, hnet, happlied⟩ : ∃ net, c.appliedNet b = .ok net ∧
      applyLiquidityChange w.liquidity net = .ok liquidity :=
    applied_eq_ok_iff.mpr ⟨by omega, hbehind⟩
  simp only [Call.cross]
  split
  · exact .inr rfl
  · rw [hliq, hnet, ok_bind, happlied, ok_bind]
    split
    · exact .inl ⟨_, rfl⟩
    · exact .inl ⟨_, rfl⟩

/-- Outside thin ranges a pass fails only where the input cannot move the price or the
crossings are used up. -/
theorem pass_of_bounded {w : Walk} (hw : Bounded c state (.of w))
    (hlimit : reach c.direction w.sqrtPrice ≤ reach c.direction c.priceLimit)
    (hthick : w.remaining ≠ 0 → w.sqrtPrice ≠ c.priceLimit → c.direction = .bToA →
      w.liquidity.val = 1 → w.sqrtPrice.val + w.remaining.val * 2 ^ 64 < 2 ^ 128) :
    FailsOnly Reported (c.pass w) := by
  by_cases hstop : w.remaining = 0 ∨ w.sqrtPrice = c.priceLimit
  · rw [pass_of_stop hstop]
    exact .ok _
  · obtain ⟨hrem, hprice⟩ := not_or.mp hstop
    obtain ⟨full, hfull⟩ := exists_price_iff.mpr
      ⟨(liquidity_bounds h hw).1, bounded_fits h hw (hthick hrem hprice)⟩
    by_cases hstall : Stalls c.direction w.liquidity.val w.sqrtPrice.val w.remaining.val
    · rw [pass_stalls hlimit hrem hprice hfull hstall]
      exact .error trivial
    · obtain ⟨next, reached, hpriced⟩ : ∃ next reached, nextPrice c.direction w.sqrtPrice
          w.liquidity w.remaining (c.stepLimit (c.nextBoundary w)) = .ok (next, reached) :=
        ⟨_, _, nextPrice_of_full hfull _⟩
      obtain ⟨hmid, hmoves⟩ := moves_of_not_stalled hlimit hprice hfull hpriced hstall
      have hwithin : reach c.direction next ≤ reach c.direction c.priceLimit := by
        rw [(nextPrice_reach hfull hpriced).1]
        exact (min_le_left _ _).trans (stepLimit_ahead hlimit).2
      have hnext := inRange_between hw.price h.limit.1 hmid hwithin
      have hpayable := output_fits h.price hnext (output_beyond h hw hnext hmid)
      obtain ⟨moved, hmoved, hat, hliq, _⟩ := exists_advance hpriced hmoves hmid
        ⟨hw.price.pos, hnext.pos⟩ (bounded_room h hw hnext) hpayable
      rcases pass_of_advance_cases hrem hprice hmoved with ⟨b, hb, hland, _, hpass⟩ | hpass
      · rw [hpass]
        rw [← hat, ← hland] at hwithin
        rcases bounded_cross h hw hb hwithin hliq with ⟨p, hp⟩ | hcap
        · rw [hp]
          exact .ok _
        · rw [hcap]
          exact .error trivial
      · rw [hpass]
        exact .ok _

end entered

/-- One unit of liquidity and too much input: the price the input would reach overflows. -/
theorem pass_thin {c : Call} {w : Walk} (hrem : w.remaining ≠ 0)
    (hprice : w.sqrtPrice ≠ c.priceLimit) (hup : c.direction = .bToA)
    (hthin : w.liquidity.val = 1) (hless : w.remaining.val < 2 ^ 64)
    (hbig : 2 ^ 128 ≤ w.sqrtPrice.val + w.remaining.val * 2 ^ 64) :
    c.pass w = .error (.overflow "next_sqrt_price_up") := by
  have hquot : w.remaining.val * 2 ^ 64 / w.liquidity.val = w.remaining.val * 2 ^ 64 := by
    rw [hthin, Nat.div_one]
  have hfull : priceFromAmount c.direction w.sqrtPrice w.liquidity w.remaining =
      .error (.overflow "next_sqrt_price_up") := by
    rw [hup]
    apply nextSqrtPriceUp_overflow
    · omega
    · omega
    · omega
  simp only [Call.pass, if_neg hrem, if_neg hprice, Call.advance, nextPrice, hfull, error_bind]

/-- For a well-formed pool no arithmetic of a swap overflows or divides by zero, exactly
unless it enters a range with one unit of liquidity and too much input. -/
theorem swap_overflows_iff (source : TickSource) (direction : Direction) (state : PoolState)
    (amountIn priceLimit : U128) (maxCrossings : ℕ)
    (h : WellFormed { source, direction, priceLimit, maxCrossings } state amountIn) :
    (∀ op, swapExactIn source direction state amountIn priceLimit maxCrossings ≠
        .error (.overflow op) ∧
      swapExactIn source direction state amountIn priceLimit maxCrossings ≠
        .error (.divByZero op)) ↔
      ¬ EntersThin { source, direction, priceLimit, maxCrossings } state amountIn := by
  let c : Call := { source, direction, priceLimit, maxCrossings }
  have hpos : state.sqrtPrice ≠ 0 := fun hz => h.price.pos.ne' (congrArg Fin.val hz)
  have hliq : state.liquidity ≠ 0 := by
    have hstocked := (h.running .start).1
    intro hz
    rw [hz] at hstocked
    exact lt_irrefl _ hstocked
  obtain ⟨net, fee, hfee⟩ := exists_takeFee amountIn h.rate
  have hfails : ∀ e, swapExactIn source direction state amountIn priceLimit maxCrossings =
      .error e ↔ ∃ t, c.loop.Comes (Walk.start state net) t ∧ c.pass t = .error e :=
    fun _ => swap_eq_error_iff hpos hliq h.limit.2 hfee
  constructor
  · rintro hnever ⟨hup, e, henters, hthin, hleft, hprice, hbig⟩
    have hbounded := entered_bounded h henters
    obtain ⟨t, ht, rfl⟩ := (enters_start_iff hfee).mp henters
    have hpass : c.pass t = .error (.overflow "next_sqrt_price_up") :=
      pass_thin (remaining_pos_iff.mp hleft) hprice hup hthin hbounded.remaining hbig
    exact (hnever "next_sqrt_price_up").1 ((hfails _).mpr ⟨t, ht, hpass⟩)
  · intro hnone op
    have hreported : ∀ e, swapExactIn source direction state amountIn priceLimit maxCrossings =
        .error e → Reported e := by
      intro e hfail
      obtain ⟨t, ht, hpass⟩ := (hfails e).mp hfail
      have henters := (enters_start_iff hfee).mpr ⟨t, ht, rfl⟩
      refine pass_of_bounded h (entered_bounded h henters) (comes_within ht h.limit.2) ?_ e hpass
      intro hrem hprice hup hthin
      by_contra hbig
      exact hnone ⟨hup, _, henters, hthin, remaining_pos_iff.mpr hrem, hprice, not_lt.mp hbig⟩
    exact ⟨hreported _, hreported _⟩

/-- The upper end of a position that provides all but one unit of the liquidity. -/
def lastTick : Boundary :=
  { tick := 100, sqrtPrice := 18539204128674405812, liquidityNet := ⟨-999999, by decide⟩ }

def lastTickSource : TickSource where
  nextBoundaryUp tick := if tick < 100 then some lastTick else none
  nextBoundaryDown _ := none

def narrowPool : PoolState :=
  { sqrtPrice := 18446744073709551616, liquidity := 1000000, tick := 0, feeRate := 0 }

theorem offered_lastTick {tick : ℤ} {b : Boundary}
    (h : offered ⟨lastTickSource, .bToA, maxSqrtPrice, 64⟩ tick = some b) :
    tick < 100 ∧ b = lastTick := by
  have h : (if tick < 100 then some lastTick else none) = some b := h
  split at h
  · exact ⟨‹_›, (Option.some.inj h).symm⟩
  · cases h

theorem narrowPool_wellFormed {amountIn : U128} (hamount : amountIn.val < 2 ^ 64) :
    WellFormed ⟨lastTickSource, .bToA, maxSqrtPrice, 64⟩ narrowPool amountIn where
  price := by decide
  limit := by decide
  rate := by decide
  amount := hamount
  boundaries _ _ h := by
    rw [(offered_lastTick h).2]
    decide
  running h := by
    cases h with
    | start => decide
    | cross hbefore hoffered =>
      obtain ⟨hlt, rfl⟩ := offered_lastTick hoffered
      cases hbefore with
      | start => decide
      | cross _ hfirst =>
        -- beyond its only tick the source has none to offer
        obtain ⟨_, rfl⟩ := offered_lastTick hfirst
        exact absurd hlt (by decide)

/-- Past the tick a single unit is left, and what is left of the input is little enough for it. -/
theorem swap_overflows_sample :
    ¬ EntersThin ⟨lastTickSource, .bToA, maxSqrtPrice, 64⟩ narrowPool 10000 := by
  refine (swap_overflows_iff lastTickSource .bToA narrowPool 10000 maxSqrtPrice 64
    (narrowPool_wellFormed (by decide))).mp fun op => ?_
  obtain ⟨r, hr⟩ : ∃ r, swapExactIn lastTickSource .bToA narrowPool 10000 maxSqrtPrice 64 =
      .ok r := exists_ok (by decide +kernel)
  rw [hr]
  exact ⟨nofun, nofun⟩

/-- A pool with no boundary ahead of it. -/
def emptySource : TickSource where
  nextBoundaryUp _ := none
  nextBoundaryDown _ := none

/-- The least liquidity a pool can have in force. -/
def thinPool : PoolState :=
  { sqrtPrice := 18446744073709551616, liquidity := 1, tick := 0, feeRate := 0 }

theorem thinPool_wellFormed {amountIn : U128} (hamount : amountIn.val < 2 ^ 64) :
    WellFormed ⟨emptySource, .bToA, maxSqrtPrice, 64⟩ thinPool amountIn where
  price := by decide
  limit := by decide
  rate := by decide
  amount := hamount
  boundaries _ _ h := nomatch h
  running h := by
    cases h with
    | start => decide
    | cross _ h => cases h

/-- The limit would stop the swap long before, but the price its whole input would reach
is computed first. -/
theorem swap_overflows_thin :
    WellFormed ⟨emptySource, .bToA, maxSqrtPrice, 64⟩ thinPool 18446744073709551615 ∧
    swapExactIn emptySource .bToA thinPool 18446744073709551615 maxSqrtPrice 64 =
      .error (.overflow "next_sqrt_price_up") :=
  ⟨thinPool_wellFormed (by decide), by decide +kernel⟩

end ThinRanges
