import Birdai.Quote.BookTraversal

/-!
# Ticks behind the price

A boundary at or behind the price answers the lookup and is then filtered away,
so it stands for the end of the book. The swap over the whole index is compared
with the swap over the index that keeps only the ticks ahead of the price.
-/

namespace HiddenBook

open WideArith CheckedWords Outcomes BoundedLoop SwapExactIn PricingSpecs StepRounding WalkShape
open TickMath TickIndex TickBook BookTraversal

/-- The index without the ticks that are not strictly ahead of the price. -/
def onlyAhead (t : Ticks) (d : Direction) (sqrtPrice : U128) : Ticks :=
  t.keeping fun n => isAhead d n.tick.sqrtPrice sqrtPrice

theorem indexed_keeping {t : Ticks} (h : Indexed t) (p : TickNode → Bool) :
    Indexed (t.keeping p) where
  ordered := h.ordered.filter _
  byTick := rfl
  priced n hn := h.priced n (List.mem_filter.mp hn).1

theorem mem_book_keeping {t : Ticks} (h : Indexed t) {p : TickNode → Bool} {b : Boundary} :
    b ∈ (indexed_keeping h p).book.boundaries ↔ ∃ n ∈ t.nodes, p n = true ∧ n.boundary = b := by
  constructor
  · intro hb
    obtain ⟨n, hn, rfl⟩ := List.mem_map.mp hb
    obtain ⟨hn, hp⟩ := List.mem_filter.mp hn
    exact ⟨n, hn, hp, rfl⟩
  · rintro ⟨n, hn, hp, rfl⟩
    exact List.mem_map.mpr ⟨n, List.mem_filter.mpr ⟨hn, hp⟩, rfl⟩

/-- The smaller book holds the boundaries ahead of the price. -/
theorem mem_onlyAhead {t : Ticks} (h : Indexed t) {d : Direction} {sqrtPrice : U128}
    {b : Boundary} :
    b ∈ (indexed_keeping h fun n => isAhead d n.tick.sqrtPrice sqrtPrice).book.boundaries ↔
      b ∈ h.book.boundaries ∧ reach d sqrtPrice < reach d b.sqrtPrice := by
  rw [mem_book_keeping h]
  constructor
  · rintro ⟨n, hn, hp, rfl⟩
    exact ⟨List.mem_map.mpr ⟨n, hn, rfl⟩, isAhead_iff.mp hp⟩
  · rintro ⟨hb, hp⟩
    obtain ⟨n, hn, rfl⟩ := List.mem_map.mp hb
    exact ⟨n, hn, isAhead_iff.mpr hp, rfl⟩

/-! ### Two calls over two books -/

/-- Two calls that differ in their source only. -/
structure Twins (c c' : Call) : Prop where
  direction : c'.direction = c.direction
  priceLimit : c'.priceLimit = c.priceLimit
  maxCrossings : c'.maxCrossings = c.maxCrossings

/-- A step looks at its boundary through the next price only. -/
theorem advance_congr {c c' : Call} (twins : Twins c c') {w : Walk} {b b' : Option Boundary}
    (hprice : nextPrice c.direction w.sqrtPrice w.liquidity w.remaining (c'.stepLimit b') =
      nextPrice c.direction w.sqrtPrice w.liquidity w.remaining (c.stepLimit b)) :
    c'.advance w b' = c.advance w b := by
  simp only [Call.advance, Call.owedAndOut, twins.direction, hprice]

theorem pass_congr {c c' : Call} (twins : Twins c c') {w : Walk}
    (hnext : c'.nextBoundary w = c.nextBoundary w) : c'.pass w = c.pass w := by
  have hlimit : c'.stepLimit (c.nextBoundary w) = c.stepLimit (c.nextBoundary w) := by
    simp only [Call.stepLimit, twins.direction, twins.priceLimit]
  have hadv : c'.advance w (c.nextBoundary w) = c.advance w (c.nextBoundary w) :=
    advance_congr twins (by rw [hlimit])
  have hcross : ∀ w b, c'.cross w b = c.cross w b := fun w b => by
    simp only [Call.cross, Call.appliedNet, twins.direction, twins.maxCrossings]
  simp only [Call.pass, hnext, hadv, hcross, twins.priceLimit]

/-- Past the tick of a walk, both books hold the same boundaries. -/
def SamePast (book book' : Book) (d : Direction) (tick : ℤ) : Prop :=
  ∀ b, along d tick < along d b.tick → (b ∈ book'.boundaries ↔ b ∈ book.boundaries)

theorem next_congr {book book' : Book} {d : Direction} {tick : ℤ}
    (hsame : SamePast book book' d tick) : book'.next d tick = book.next d tick := by
  ext b
  rw [book.next_eq_some_iff, book'.next_eq_some_iff]
  constructor
  · rintro ⟨hb, hlt, hleast⟩
    exact ⟨(hsame b hlt).mp hb, hlt, fun a ha hlt => hleast a ((hsame a hlt).mpr ha) hlt⟩
  · rintro ⟨hb, hlt, hleast⟩
    exact ⟨(hsame b hlt).mpr hb, hlt, fun a ha hlt => hleast a ((hsame a hlt).mp ha) hlt⟩

/-- Each pass keeps the tick or carries it to the boundary it crossed. -/
theorem pass_tick {c : Call} {w : Walk} {p : Pass Walk} (h : c.pass w = .ok p) :
    p.state.tick = w.tick ∨ ∃ b, c.nextBoundary w = some b ∧ p.state.tick = b.tick := by
  rcases c.pass_cases h with
    ⟨_, rfl⟩ | ⟨_, _, moved, reached, hadv, ⟨rfl, _⟩ | ⟨_, b, hb, _, hcross⟩⟩
  · exact .inl rfl
  · exact .inl (c.advance_keeps hadv).1
  · exact .inr ⟨b, hb, (cross_liquidity hcross).1⟩

/-- Over a book, a pass never moves the tick back. -/
theorem pass_onward {c : Call} {book : Book} (hc : OverBook c book) {w : Walk} {p : Pass Walk}
    (h : c.pass w = .ok p) : along c.direction w.tick ≤ along c.direction p.state.tick := by
  rcases pass_tick h with heq | ⟨b, hb, heq⟩
  · rw [heq]
  · rw [nextBoundary_eq hc] at hb
    obtain ⟨_, hlt, _⟩ := book.next_eq_some_iff.mp (Option.filter_eq_some_iff.mp hb).1
    exact heq ▸ hlt.le

/-- Books that agree past the tick carry the same run. -/
theorem run_congr {c c' : Call} (twins : Twins c c') {book book' : Book} (hc : OverBook c book)
    (hc' : OverBook c' book') {w : Walk} (hsame : SamePast book book' c.direction w.tick) :
    c'.loop.run w = c.loop.run w := by
  have hrel : OutcomeRel (fun u u' => u = u' ∧ SamePast book book' c.direction u.tick)
      (c.loop.run w) (c'.loop.run w) := by
    apply run_simulates c.loop c'.loop ?_ ⟨rfl, hsame⟩
    rintro u _ ⟨rfl, hsame⟩
    have hpass : c'.pass u = c.pass u := by
      apply pass_congr twins
      rw [nextBoundary_eq hc, nextBoundary_eq hc', twins.direction, next_congr hsame]
    have hkeep : ∀ p, c.pass u = .ok p → SamePast book book' c.direction p.state.tick :=
      fun p hp b hlt => hsame b ((pass_onward hc hp).trans_lt hlt)
    simp only [Call.loop, hpass]
    cases hp : c.pass u with
    | error e => exact .error e
    | ok p => cases p with
      | leave v => exact .ok (.leave ⟨rfl, hkeep _ hp⟩)
      | again v => exact .ok (.again ⟨rfl, hkeep _ hp⟩)
  generalize c.loop.run w = x at hrel
  generalize c'.loop.run w = y at hrel
  cases hrel with
  | error => rfl
  | ok h => exact congrArg Except.ok h.1.symm

/-- A first pass that does not go round again settles the run. -/
theorem run_of_last {c c' : Call} {w : Walk} (hpass : c'.pass w = c.pass w)
    (hlast : ∀ t, c.pass w ≠ .ok (.again t)) : c'.loop.run w = c.loop.run w := by
  match hp : c.pass w with
  | .error e => rw [c.loop.run_of_error hp, c'.loop.run_of_error (hpass.trans hp)]
  | .ok (.leave t) => rw [c.loop.run_of_leave hp, c'.loop.run_of_leave (hpass.trans hp)]
  | .ok (.again t) => exact absurd hp (hlast t)

/-- Without a boundary a pass never goes round again. -/
theorem pass_none_last {c : Call} {w : Walk} (hnone : c.nextBoundary w = none) (t : Walk) :
    c.pass w ≠ .ok (.again t) := by
  intro h
  rcases c.pass_cases h with ⟨_, hp⟩ | ⟨_, _, moved, reached, _, ⟨hp, _⟩ | ⟨_, b, hb, _⟩⟩
  · cases hp
  · cases hp
  · rw [hnone] at hb
    cases hb

/-- A walk that starts without a boundary reports its starting tick. -/
theorem run_none_tick {c : Call} {first final : Walk} (hnone : c.nextBoundary first = none)
    (hrun : c.loop.run first = .ok final) : final.tick = first.tick := by
  obtain ⟨last, rfl, hpass⟩ := c.loop.run_last_pass (I := fun w => w = first)
    (fun w t hw hpass => absurd (hw ▸ hpass) (pass_none_last hnone t)) hrun rfl
  rcases pass_tick hpass with htick | ⟨b, hb, _⟩
  · exact htick
  · rw [hnone] at hb
    cases hb

theorem stepLimit_none (c : Call) : c.stepLimit none = c.priceLimit := by
  rw [← reach_inj (d := c.direction), reach_stepLimit]
  exact min_self _

/-- A target that the step cannot reach prices it like the limit. -/
theorem nextPrice_blind {c c' : Call} (twins : Twins c c') {w : Walk} {b : Boundary}
    (hfar : reach c.direction c.priceLimit < reach c.direction b.sqrtPrice ∨
      ∀ full, priceFromAmount c.direction w.sqrtPrice w.liquidity w.remaining = .ok full →
        reach c.direction full < reach c.direction b.sqrtPrice) :
    nextPrice c.direction w.sqrtPrice w.liquidity w.remaining (c'.stepLimit (some b)) =
      nextPrice c.direction w.sqrtPrice w.liquidity w.remaining c.priceLimit := by
  have htarget : reach c.direction (c'.stepLimit (some b)) =
      min (reach c.direction b.sqrtPrice) (reach c.direction c.priceLimit) := by
    have h := reach_stepLimit c' (some b)
    rw [twins.direction, twins.priceLimit] at h
    exact h
  cases hfull : priceFromAmount c.direction w.sqrtPrice w.liquidity w.remaining with
  | error e =>
    rw [nextPrice, nextPrice, hfull]
    rfl
  | ok full =>
    rw [nextPrice_of_full hfull, nextPrice_of_full hfull]
    rcases hfar with hlimit | hshort
    · have hsame : c'.stepLimit (some b) = c.priceLimit := by
        rw [← reach_inj (d := c.direction), htarget, min_eq_right hlimit.le]
      rw [hsame]
    · have hshort := hshort full hfull
      by_cases hle : reach c.direction c.priceLimit ≤ reach c.direction full
      · have hsame : c'.stepLimit (some b) = c.priceLimit := by
          rw [← reach_inj (d := c.direction), htarget, min_eq_right (hle.trans hshort.le)]
        rw [hsame]
      · have hbefore : ¬ reach c.direction (c'.stepLimit (some b)) ≤ reach c.direction full := by
          rw [htarget, not_le, lt_min_iff]
          exact ⟨hshort, not_le.mp hle⟩
        rw [if_neg hle, if_neg hbefore]

/-- Nor does a step to the limit land on it. -/
theorem not_landing {c : Call} {w moved : Walk} {b : Boundary}
    (hfar : reach c.direction c.priceLimit < reach c.direction b.sqrtPrice ∨
      ∀ full, priceFromAmount c.direction w.sqrtPrice w.liquidity w.remaining = .ok full →
        reach c.direction full < reach c.direction b.sqrtPrice)
    (hmoved : c.advance w none = .ok (moved, true)) : b.sqrtPrice ≠ moved.sqrtPrice := by
  intro he
  obtain ⟨full, hfull, ⟨_, hend, hle⟩ | ⟨hfalse, _⟩⟩ := nextPrice_ok (c.advance_keeps hmoved).2.2
  · rw [stepLimit_none] at hend hle
    have he : b.sqrtPrice = c.priceLimit := he.trans hend
    rcases hfar with hlimit | hshort
    · exact lt_irrefl _ (he ▸ hlimit)
    · exact absurd (hshort full hfull) (not_lt.mpr (he ▸ hle))
  · cases hfalse

/-- A boundary that the step cannot reach is as good as none. -/
theorem pass_blind {c c' : Call} (twins : Twins c c') {w : Walk} {b : Boundary}
    (hnone : c.nextBoundary w = none) (hb : c'.nextBoundary w = some b)
    (hfar : reach c.direction c.priceLimit < reach c.direction b.sqrtPrice ∨
      ∀ full, priceFromAmount c.direction w.sqrtPrice w.liquidity w.remaining = .ok full →
        reach c.direction full < reach c.direction b.sqrtPrice) :
    c'.pass w = c.pass w := by
  have hprice := nextPrice_blind twins hfar
  rw [← stepLimit_none c] at hprice
  have hadv := advance_congr twins hprice
  simp only [Call.pass, hnone, hb, hadv, twins.priceLimit]
  split
  · rfl
  · split
    · rfl
    · cases hmoved : c.advance w none with
      | error e => rfl
      | ok result =>
        obtain ⟨moved, reached⟩ := result
        cases reached with
        | false => rfl
        | true =>
          have hpass : (some b).filter (fun b => b.sqrtPrice = moved.sqrtPrice) = none := by
            refine Option.filter_eq_none_iff.mpr fun a ha => ?_
            obtain rfl := Option.some.inj ha
            simpa using not_landing hfar hmoved
          simp only [ok_bind, ↓reduceIte, hpass, Option.filter_none]

/-- A boundary the walk sees first and can reach is crossed. -/
theorem crosses_first {c : Call} {book : Book} (hc : OverBook c book) {first final : Walk}
    {b : Boundary} (hfirst : c.nextBoundary first = some b)
    (hlimit : reach c.direction first.sqrtPrice ≤ reach c.direction c.priceLimit)
    (hwithin : reach c.direction b.sqrtPrice ≤ reach c.direction c.priceLimit) {full : U128}
    (hfull : priceFromAmount c.direction first.sqrtPrice first.liquidity first.remaining = .ok full)
    (hreach : reach c.direction b.sqrtPrice ≤ reach c.direction full)
    (hrun : c.loop.run first = .ok final) :
    along c.direction first.tick < along c.direction final.tick := by
  have hseen := hfirst
  rw [nextBoundary_eq hc] at hseen
  obtain ⟨hnext, hahead⟩ := Option.filter_eq_some_iff.mp hseen
  have hahead := isAhead_iff.mp hahead
  apply (book.next_eq_some_iff.mp hnext).2.1.trans_le
  refine c.loop.run_invariant_of_first
    (I := fun w => along c.direction b.tick ≤ along c.direction w.tick) ?_
    (fun w p hw hp => hw.trans (pass_onward hc hp)) hrun
  intro p hp
  have htarget : c.stepLimit (some b) = b.sqrtPrice :=
    reach_inj.mp ((reach_stepLimit c (some b)).trans (min_eq_left hwithin))
  rcases pass_advanced hlimit hp with
    ⟨hzero | hat, _⟩ | ⟨_, _, moved, s, hadv, ⟨_, hland⟩ | ⟨_, a, ha, _, hcross⟩⟩
  · rw [hzero] at hfull
    rw [priceFromAmount_zero hfull] at hreach
    exact absurd hahead (not_lt.mpr hreach)
  · rw [hat] at hahead
    exact absurd hahead (not_lt.mpr hwithin)
  · have hpriced := hadv.priced
    rw [hfirst, htarget] at hpriced
    have hpriced := (nextPrice_of_full hfull _).symm.trans hpriced
    rw [if_pos hreach, Except.ok.injEq, Prod.mk.injEq] at hpriced
    have hprice : moved.sqrtPrice = s.sqrtPriceEnd := by rw [hadv.moved_eq]
    exact absurd (hpriced.1.trans hprice.symm) (hland hpriced.2.symm _ hfirst)
  · rw [hfirst] at ha
    cases ha
    exact (cross_liquidity hcross).1 ▸ le_rfl

/-- Out of the swap's reach: past the limit, or past the price the whole net input
would take the swap to. -/
def OutOfReach (d : Direction) (state : PoolState) (amountIn priceLimit : U128)
    (target : U128) : Prop :=
  reach d priceLimit < reach d target ∨
    ∀ net fee full, takeFee amountIn state.feeRate = .ok (net, fee) →
      priceFromAmount d state.sqrtPrice state.liquidity net = .ok full →
        reach d full < reach d target

/-- The boundary the whole index offers is ahead, or the one it hides does not matter. -/
def Unhidden (t : Ticks) (d : Direction) (state : PoolState) (amountIn priceLimit : U128) :
    Prop :=
  state.sqrtPrice = 0 ∨
  (∀ n, t.next d state.tick = some n → isAhead d n.tick.sqrtPrice state.sqrtPrice = true) ∨
  ∀ n, (onlyAhead t d state.sqrtPrice).next d state.tick = some n →
    OutOfReach d state amountIn priceLimit n.tick.sqrtPrice

/-- A swap fails before its walk, or is its walk and the fee on what was consumed. -/
theorem swap_congr {source source' : TickSource} {d : Direction} {state : PoolState}
    {amountIn priceLimit : U128} {maxCrossings : ℕ}
    (hrun : state.sqrtPrice ≠ 0 → reach d state.sqrtPrice ≤ reach d priceLimit →
      ∀ net fee, takeFee amountIn state.feeRate = .ok (net, fee) →
        (Call.mk source' d priceLimit maxCrossings).loop.run (Walk.start state net) =
          (Call.mk source d priceLimit maxCrossings).loop.run (Walk.start state net)) :
    swapExactIn source' d state amountIn priceLimit maxCrossings =
      swapExactIn source d state amountIn priceLimit maxCrossings := by
  simp only [swapExactIn]
  by_cases hpos : state.sqrtPrice = 0
  · rw [if_pos hpos, if_pos hpos]
  · rw [if_neg hpos, if_neg hpos]
    by_cases hlimit : limitReachable d priceLimit state.sqrtPrice = true
    · rw [if_pos hlimit, if_pos hlimit]
      congr 1
      cases hfee : takeFee amountIn state.feeRate with
      | error e => rfl
      | ok result =>
        obtain ⟨net, fee⟩ := result
        simp only [ok_bind, hrun hpos (limitReachable_iff.mp hlimit) net fee hfee]
    · rw [if_neg hlimit, if_neg hlimit]

/-- The call of a swap over an index. -/
abbrev callOver (t : Ticks) (d : Direction) (priceLimit : U128) (maxCrossings : ℕ) : Call :=
  { source := t.source, direction := d, priceLimit, maxCrossings }

theorem callOver_twins (t t' : Ticks) (d : Direction) (priceLimit : U128) (maxCrossings : ℕ) :
    Twins (callOver t d priceLimit maxCrossings) (callOver t' d priceLimit maxCrossings) :=
  ⟨rfl, rfl, rfl⟩

section swap
variable {t : Ticks} (ht : Indexed t) {d : Direction} {state : PoolState}
  {amountIn priceLimit : U128} {maxCrossings : ℕ}
include ht

/-- The books of an index and of its part ahead of the price agree past a tick
beyond which the whole book is ahead. -/
theorem samePast_onlyAhead (hclear : ClearAhead ht.book d state.tick state.sqrtPrice) :
    SamePast ht.book (indexed_keeping ht fun n => isAhead d n.tick.sqrtPrice state.sqrtPrice).book
      d state.tick := by
  intro b hlt
  rw [mem_onlyAhead ht]
  exact ⟨fun h => h.1, fun h => ⟨h, hclear b h hlt⟩⟩

/-- A next tick that is behind the price is no boundary to the walk. -/
theorem nextBoundary_hidden {n : TickNode} (hn : t.next d state.tick = some n)
    (hbehind : isAhead d n.tick.sqrtPrice state.sqrtPrice = false) (net : U128) :
    (callOver t d priceLimit maxCrossings).nextBoundary (Walk.start state net) = none := by
  have hover : OverBook (callOver t d priceLimit maxCrossings) ht.book := ht.source_eq
  have hnext : ht.book.next d state.tick = some n.boundary :=
    (ht.next_boundary d state.tick).symm.trans (congrArg _ hn)
  rw [nextBoundary_eq hover]
  refine Option.filter_eq_none_iff.mpr fun b hb => ?_
  obtain rfl := Option.some.inj (hnext.symm.trans hb)
  exact Bool.eq_false_iff.mp hbehind

/-- The walks over the two books agree where the whole book is clear ahead. -/
theorem run_of_clear (hclear : ClearAhead ht.book d state.tick state.sqrtPrice) (net : U128) :
    (callOver (onlyAhead t d state.sqrtPrice) d priceLimit maxCrossings).loop.run
        (Walk.start state net) =
      (callOver t d priceLimit maxCrossings).loop.run (Walk.start state net) := by
  have ht' := indexed_keeping ht fun n => isAhead d n.tick.sqrtPrice state.sqrtPrice
  have hover : OverBook (callOver t d priceLimit maxCrossings) ht.book := ht.source_eq
  have hover' : OverBook (callOver (onlyAhead t d state.sqrtPrice) d priceLimit maxCrossings)
      ht'.book := ht'.source_eq
  exact run_congr (callOver_twins _ _ d priceLimit maxCrossings) hover hover'
    (samePast_onlyAhead ht hclear)

/-- They agree too where the first boundary ahead is out of the swap's reach. -/
theorem run_of_outOfReach
    (hfar : ∀ n, (onlyAhead t d state.sqrtPrice).next d state.tick = some n →
      OutOfReach d state amountIn priceLimit n.tick.sqrtPrice) {net fee : U128}
    (hfee : takeFee amountIn state.feeRate = .ok (net, fee)) :
    (callOver (onlyAhead t d state.sqrtPrice) d priceLimit maxCrossings).loop.run
        (Walk.start state net) =
      (callOver t d priceLimit maxCrossings).loop.run (Walk.start state net) := by
  cases hn : t.next d state.tick with
  | none => exact run_of_clear ht (clear_of_end ht hn) net
  | some n =>
    cases hahead : isAhead d n.tick.sqrtPrice state.sqrtPrice with
    | true => exact run_of_clear ht (clear_of_next ht hn hahead) net
    | false =>
      have ht' := indexed_keeping ht fun n => isAhead d n.tick.sqrtPrice state.sqrtPrice
      have hover' : OverBook (callOver (onlyAhead t d state.sqrtPrice) d priceLimit maxCrossings)
          ht'.book := ht'.source_eq
      have twins := callOver_twins t (onlyAhead t d state.sqrtPrice) d priceLimit maxCrossings
      have hblind : (callOver t d priceLimit maxCrossings).nextBoundary
          (Walk.start state net) = none := nextBoundary_hidden ht hn hahead net
      refine run_of_last ?_ (pass_none_last hblind)
      cases hb : (callOver (onlyAhead t d state.sqrtPrice) d priceLimit
          maxCrossings).nextBoundary (Walk.start state net) with
      | none => exact pass_congr twins (hb.trans hblind.symm)
      | some b =>
        have hkept := hb
        rw [nextBoundary_eq hover'] at hkept
        have hkept := (ht'.next_boundary d state.tick).trans (Option.filter_eq_some_iff.mp hkept).1
        obtain ⟨m, hm, rfl⟩ := Option.map_eq_some_iff.mp hkept
        refine pass_blind twins hblind hb ((hfar m hm).imp_right fun h full hfull => ?_)
        exact h net fee full hfee hfull

theorem crosses_hidden {n : TickNode}
    (hn : (onlyAhead t d state.sqrtPrice).next d state.tick = some n)
    (hlimit : reach d state.sqrtPrice ≤ reach d priceLimit)
    (hwithin : reach d n.tick.sqrtPrice ≤ reach d priceLimit) {net full : U128}
    (hfull : priceFromAmount d state.sqrtPrice state.liquidity net = .ok full)
    (hreach : reach d n.tick.sqrtPrice ≤ reach d full) {final : Walk}
    (hrun : (callOver (onlyAhead t d state.sqrtPrice) d priceLimit maxCrossings).loop.run
      (Walk.start state net) = .ok final) :
    along d state.tick < along d final.tick := by
  have ht' := indexed_keeping ht fun n => isAhead d n.tick.sqrtPrice state.sqrtPrice
  have hover : OverBook (callOver (onlyAhead t d state.sqrtPrice) d priceLimit maxCrossings)
      ht'.book := ht'.source_eq
  have hnext : ht'.book.next d state.tick = some n.boundary :=
    (ht'.next_boundary d state.tick).symm.trans (congrArg _ hn)
  have hahead : reach d state.sqrtPrice < reach d n.boundary.sqrtPrice :=
    ((mem_onlyAhead ht).mp (ht'.book.next_eq_some_iff.mp hnext).1).2
  have hfirst : (callOver (onlyAhead t d state.sqrtPrice) d priceLimit maxCrossings).nextBoundary
      (Walk.start state net) = some n.boundary := by
    rw [nextBoundary_eq hover]
    exact Option.filter_eq_some_iff.mpr ⟨hnext, isAhead_iff.mpr hahead⟩
  exact crosses_first hover hfirst hlimit hwithin hfull hreach hrun

end swap

/-- Deleting the ticks at or behind the price changes nothing when the book was not
hidden; when it was, the two swaps never return the same result. -/
theorem onlyAhead_same (t : Ticks) (ht : t.Accepted) (d : Direction) (state : PoolState)
    (amountIn priceLimit : U128) (maxCrossings : ℕ) :
    (Unhidden t d state amountIn priceLimit →
      swapExactIn (onlyAhead t d state.sqrtPrice).source d state amountIn priceLimit maxCrossings =
        swapExactIn t.source d state amountIn priceLimit maxCrossings) ∧
    (¬ Unhidden t d state amountIn priceLimit → ∀ r,
      swapExactIn t.source d state amountIn priceLimit maxCrossings = .ok r →
      swapExactIn (onlyAhead t d state.sqrtPrice).source d state amountIn priceLimit maxCrossings ≠
        .ok r) := by
  have ht := accepted_indexed ht
  constructor
  · rintro (hzero | hahead | hfar)
    · simp only [swapExactIn]
      rw [if_pos hzero, if_pos hzero]
    · refine swap_congr fun _ _ net _ _ => run_of_clear ht ?_ net
      cases hn : t.next d state.tick with
      | none => exact clear_of_end ht hn
      | some n => exact clear_of_next ht hn (hahead n hn)
    · exact swap_congr fun _ _ net fee hfee => run_of_outOfReach ht hfar hfee
  · intro hhidden r hr hr'
    simp only [Unhidden, OutOfReach, not_or, not_forall, not_lt] at hhidden
    obtain ⟨_, ⟨n, hn, hbehind⟩, m, hm, hwithin, net, fee, full, hfee, hfull, hreach⟩ := hhidden
    obtain ⟨net₁, fee₁, final, hfee₁, hlimit, _, hrun, _, hrval⟩ := swapExactIn_ok hr
    obtain ⟨net₂, fee₂, final', hfee₂, _, _, hrun', _, hrval'⟩ := swapExactIn_ok hr'
    obtain ⟨rfl, rfl⟩ := Prod.mk.inj (Except.ok.inj (hfee₁.symm.trans hfee))
    obtain ⟨rfl, rfl⟩ := Prod.mk.inj (Except.ok.inj (hfee₂.symm.trans hfee₁))
    have hmoves := crosses_hidden ht hm hlimit hwithin hfull hreach hrun'
    have hstays : final.tick = state.tick :=
      run_none_tick (nextBoundary_hidden ht hn (Bool.eq_false_iff.mpr hbehind) net₂) hrun
    have hsame : final'.tick = final.tick := by
      have h := hrval'.symm.trans hrval
      exact congrArg SwapResult.tickEnd h
    rw [hsame, hstays] at hmoves
    exact lt_irrefl _ hmoves

theorem onlyAhead_same_purchase :
    swapExactIn (onlyAhead twoPositionsIndex .bToA parkedPool.sqrtPrice).source .bToA parkedPool
        1000 maxSqrtPrice 64 =
      swapExactIn twoPositionsIndex.source .bToA parkedPool 1000 maxSqrtPrice 64 := by
  refine (onlyAhead_same twoPositionsIndex twoPositionsIndex_accepted .bToA parkedPool 1000
    maxSqrtPrice 64).1 (.inr (.inl ?_))
  have hnext : twoPositionsIndex.next .bToA parkedPool.tick =
      some (plainNode ⟨100, by decide⟩ 443736 18539204128674405812 ⟨-1000000, by decide⟩ []) := by
    decide +kernel
  intro n hn
  rw [hnext] at hn
  cases hn
  decide

/-- A pool that came down to its middle tick and stopped on it. -/
def restingPool : PoolState :=
  { sqrtPrice := 18446744073709551616, liquidity := 1000000, tick := -1, feeRate := 0 }

/-- Bought up to the price of tick 100, the resting pool never meets it: the tick at
the price hides it. Without that tick the same swap crosses it. -/
theorem onlyAhead_differs_resting :
    twoPositionsIndex.Accepted ∧
    swapExactIn (onlyAhead twoPositionsIndex .bToA restingPool.sqrtPrice).source .bToA restingPool
        10000 18539204128674405812 64 ≠
      swapExactIn twoPositionsIndex.source .bToA restingPool 10000 18539204128674405812 64 :=
  ⟨twoPositionsIndex_accepted, by decide +kernel⟩

end HiddenBook
