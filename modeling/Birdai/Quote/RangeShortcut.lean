import Birdai.Quote.HiddenBook
import Birdai.Venue.CetusPool

/-!
# The single-range shortcut

When a quote is said to stay inside the current tick, the quote over the tick
index is compared with the quote over no ticks at all. The shortcut reasons with
computed prices, the swap with stored ones.
-/

namespace RangeShortcut

open WideArith CheckedWords Outcomes BoundedLoop SwapExactIn PricingSpecs StepRounding WalkShape
open TickMath TickIndex TickBook BookTraversal HiddenBook CetusPool CetusClmm

/-- What a positive answer of the shortcut has established. -/
theorem stays_ok {pool : CetusClmm} {d : Direction} {amountIn : U128}
    (h : pool.staysInsideCurrentRange d amountIn = .ok true) :
    ∃ net fee reached, takeFee amountIn pool.feeRate = .ok (net, fee) ∧
      priceFromAmount d pool.sqrtPrice pool.liquidity net = .ok reached ∧
      tickAtSqrtPrice pool.sqrtPrice = .ok pool.tick.val ∧
      tickAtSqrtPrice reached = .ok pool.tick.val := by
  simp only [staysInsideCurrentRange] at h
  split at h
  · cases h
  · obtain ⟨⟨net, fee⟩, hfee, h⟩ := bind_eq_ok_iff.mp h
    obtain ⟨reached, hreached, h⟩ := bind_eq_ok_iff.mp h
    obtain ⟨start, hstart, h⟩ := bind_eq_ok_iff.mp h
    split at h
    · cases h
    · rename_i hsame
      rw [not_not] at hsame
      subst hsame
      obtain ⟨stop, hstop, h⟩ := bind_eq_ok_iff.mp h
      simp only [Except.ok.injEq, decide_eq_true_iff] at h
      exact ⟨net, fee, reached, hfee, hreached, hstart, h ▸ hstop⟩

theorem indexed_noTicks : Indexed noTicks where
  ordered := List.Pairwise.nil
  byTick := rfl
  priced _ hn := absurd hn List.not_mem_nil

/-- With no ticks there is never a boundary. -/
theorem nextBoundary_noTicks (d : Direction) (priceLimit : U128) (maxCrossings : ℕ) (w : Walk) :
    (callOver noTicks d priceLimit maxCrossings).nextBoundary w = none := by
  have hover : OverBook (callOver noTicks d priceLimit maxCrossings) indexed_noTicks.book :=
    indexed_noTicks.source_eq
  rw [nextBoundary_eq hover]
  have hnext : indexed_noTicks.book.next d w.tick = none :=
    indexed_noTicks.book.next_eq_none_iff.mpr fun b hb => absurd hb List.not_mem_nil
  rw [hnext]
  rfl

/-- The next tick above stores a price between the pool's and the one reached. -/
def StoredInBetween (t : Ticks) (d : Direction) (pool : CetusClmm) (amountIn : U128) : Prop :=
  d = .bToA ∧ ∃ n net fee reached, t.nextAbove pool.tick.val = some n ∧
    takeFee amountIn pool.feeRate = .ok (net, fee) ∧
    nextSqrtPriceUp pool.sqrtPrice pool.liquidity net = .ok reached ∧
    pool.sqrtPrice < n.tick.sqrtPrice ∧ n.tick.sqrtPrice ≤ reached

/-- An index whose first boundary is out of reach quotes as no ticks do. -/
theorem quote_of_outOfReach {t : Ticks} (ht : Indexed t) {d : Direction} {pool : CetusClmm}
    {amountIn : U128}
    (hfar : ∀ b, ht.book.next d pool.tick.val = some b →
      reach d pool.sqrtPrice < reach d b.sqrtPrice →
      OutOfReach d pool.state amountIn (quoteLimit d) b.sqrtPrice) :
    pool.quoteExactIn t d amountIn = pool.quoteExactIn noTicks d amountIn := by
  refine swap_congr fun _ _ net fee hfee => ?_
  have hover : OverBook (callOver t d (quoteLimit d) maxTickCrossings) ht.book := ht.source_eq
  have twins : Twins (callOver noTicks d (quoteLimit d) maxTickCrossings)
      (callOver t d (quoteLimit d) maxTickCrossings) := ⟨rfl, rfl, rfl⟩
  have hnone := nextBoundary_noTicks d (quoteLimit d) maxTickCrossings
    (Walk.start pool.state net)
  refine run_of_last ?_ (pass_none_last hnone)
  cases hb : (callOver t d (quoteLimit d) maxTickCrossings).nextBoundary
      (Walk.start pool.state net) with
  | none => exact pass_congr twins (hb.trans hnone.symm)
  | some b =>
    have hseen := hb
    rw [nextBoundary_eq hover] at hseen
    obtain ⟨hnext, hahead⟩ := Option.filter_eq_some_iff.mp hseen
    refine pass_blind twins hnone hb ((hfar b hnext (isAhead_iff.mp hahead)).imp_right ?_)
    exact fun h full hfull => h net fee full hfee hfull

theorem ne_zero_of_tickAt {sqrtPrice : U128} {tick : ℤ} (h : tickAtSqrtPrice sqrtPrice = .ok tick) :
    sqrtPrice ≠ 0 := by
  rintro rfl
  cases h

theorem tickAt_of_max {sqrtPrice : U128} {tick : ℤ} (h : tickAtSqrtPrice sqrtPrice = .ok tick)
    (hmax : maxSqrtPrice ≤ sqrtPrice) : tick = maxTick := by
  have hmin : ¬ sqrtPrice < minSqrtPrice :=
    not_lt.mpr ((by decide : minSqrtPrice ≤ maxSqrtPrice).trans hmax)
  rw [tickAtSqrtPrice, if_neg (ne_zero_of_tickAt h), if_neg hmin, if_pos hmax] at h
  exact (Except.ok.inj h).symm

/-- The hidden boundary can only be the very next tick, stored below its computed price. -/
theorem storedInBetween_adjacent {t : Ticks} (ht : Indexed t) {pool : CetusClmm} {n : TickNode}
    {reached : U128} (hn : t.nextAbove pool.tick.val = some n)
    (hstop : tickAtSqrtPrice reached = .ok pool.tick.val) (hle : n.tick.sqrtPrice ≤ reached) :
    n.index = pool.tick.val + 1 ∧ n.tick.sqrtPrice.val < priceAt n.index := by
  obtain ⟨hmem, hlt, _⟩ := ht.nextAbove_eq_some_iff.mp hn
  have hb : n.boundary ∈ ht.book.boundaries := List.mem_map.mpr ⟨n, hmem, rfl⟩
  have hrange : n.index ≤ maxTick := (ht.book.inRange _ hb).2
  obtain ⟨tick, htick, hmin, _, _, hbelow⟩ := tickAtSqrtPrice_ok (ne_zero_of_tickAt hstop)
  obtain rfl := Except.ok.inj (htick.symm.trans hstop)
  have hbelow : reached.val < priceAt (pool.tick.val + 1) :=
    hbelow.resolve_left fun he => absurd hlt (by omega)
  have hle : n.tick.sqrtPrice.val ≤ reached.val := hle
  have hadjacent : n.index = pool.tick.val + 1 := by
    by_contra hne
    have hfar := ht.book.priceAt_lt_price hb hmin (show pool.tick.val + 1 < n.index by omega)
    have hfar : priceAt (pool.tick.val + 1) < n.tick.sqrtPrice.val := hfar
    omega
  exact ⟨hadjacent, hadjacent ▸ hle.trans_lt hbelow⟩

/-- A quote that stays inside its range needs no ticks, unless the next tick's stored
price lies on the way; then the two quotes never return the same result. -/
theorem shortcut_exact (t : Ticks) (ht : t.Accepted) (pool : CetusClmm) (d : Direction)
    (amountIn : U128) (hstays : pool.staysInsideCurrentRange d amountIn = .ok true) :
    (¬ StoredInBetween t d pool amountIn →
      pool.quoteExactIn t d amountIn = pool.quoteExactIn noTicks d amountIn) ∧
    (StoredInBetween t d pool amountIn → ∀ r, pool.quoteExactIn t d amountIn = .ok r →
      pool.quoteExactIn noTicks d amountIn ≠ .ok r) := by
  have ht := accepted_indexed ht
  obtain ⟨net, fee, reached, hfee, hreached, hstart, hstop⟩ := stays_ok hstays
  have hfull : ∀ net' fee' full, takeFee amountIn pool.feeRate = .ok (net', fee') →
      priceFromAmount d pool.sqrtPrice pool.liquidity net' = .ok full → full = reached := by
    intro net' fee' full hfee' hfull
    obtain ⟨rfl, rfl⟩ := Prod.mk.inj (Except.ok.inj (hfee'.symm.trans hfee))
    exact Except.ok.inj (hfull.symm.trans hreached)
  constructor
  · intro hclear
    refine quote_of_outOfReach ht fun b hb hahead => .inr fun net' fee' full hfee' hfull' => ?_
    rw [hfull net' fee' full hfee' hfull']
    cases d with
    | aToB =>
      obtain ⟨hmem, hlt, _⟩ := ht.book.next_eq_some_iff.mp hb
      have hbelow := clear_downwards (ne_zero_of_tickAt hstop) hstop b hmem
        (by simpa [along] using hlt)
      have hbelow : b.sqrtPrice.val < reached.val := hbelow
      simp only [reach, along]
      omega
    | bToA =>
      obtain ⟨n, hn, rfl⟩ := Option.map_eq_some_iff.mp ((ht.nextAbove_boundary _).trans hb)
      by_contra hfar
      refine hclear ⟨rfl, n, net, fee, reached, hn, hfee, hreached, ?_, ?_⟩
      · exact Int.ofNat_lt.mp hahead
      · exact Int.ofNat_le.mp (not_lt.mp hfar)
  · rintro ⟨rfl, n, net', fee', reached', hn, hfee', hreached', hlow, hhigh⟩ r hr hr'
    obtain rfl := hfull net' fee' reached' hfee' hreached'
    obtain ⟨net₁, fee₁, final, hfee₁, hlimit, _, hrun, _, hrval⟩ := swapExactIn_ok hr
    obtain ⟨net₂, fee₂, final', _, _, _, hrun', _, hrval'⟩ := swapExactIn_ok hr'
    obtain ⟨rfl, rfl⟩ := Prod.mk.inj (Except.ok.inj (hfee₁.symm.trans hfee'))
    obtain ⟨hmem, hlt, _⟩ := ht.nextAbove_eq_some_iff.mp hn
    have hover : OverBook (callOver t .bToA (quoteLimit .bToA) maxTickCrossings) ht.book :=
      ht.source_eq
    have hnext : ht.book.next .bToA pool.tick.val = some n.boundary :=
      (ht.nextAbove_boundary _).symm.trans (congrArg _ hn)
    have hfirst : (callOver t .bToA (quoteLimit .bToA) maxTickCrossings).nextBoundary
        (Walk.start pool.state net₁) = some n.boundary := by
      rw [nextBoundary_eq hover]
      refine Option.filter_eq_some_iff.mpr ⟨hnext, isAhead_iff.mpr ?_⟩
      exact Int.ofNat_lt.mpr hlow
    have hmax : reached' < maxSqrtPrice := by
      by_contra hbeyond
      have hend := tickAt_of_max hstop (not_lt.mp hbeyond)
      have hrange := (ht.book.inRange n.boundary (List.mem_map.mpr ⟨n, hmem, rfl⟩)).2
      have hrange : n.index ≤ maxTick := hrange
      omega
    have hmoves := crosses_first hover hfirst hlimit
      (Int.ofNat_le.mpr (hhigh.trans hmax.le)) hreached' (Int.ofNat_le.mpr hhigh) hrun
    have hstays : final'.tick = pool.tick.val :=
      run_none_tick (nextBoundary_noTicks _ _ _ _) hrun'
    have hsame : final.tick = final'.tick :=
      congrArg SwapResult.tickEnd (hrval.symm.trans hrval')
    rw [hsame, hstays] at hmoves
    exact lt_irrefl _ hmoves

/-- One tick, stored a little below its computed price. -/
def lowStored : List TickNode :=
  [plainNode ⟨10, by decide⟩ 443646 18455969290605230427 ⟨-500000000000000000, by decide⟩ []]

def lowStoredIndex : Ticks :=
  { nodeUid := none
    nodes := lowStored
    byTick := positions TickNode.index lowStored
    byScore := positions TickNode.score lowStored
    declaredSize := some 1
    strictSize := false
    priceDeviations := Finmap.singleton (-60000) 1 }

/-- A pool in tick 9 with the given price. -/
def poolBelowTen (sqrtPrice : U128) : CetusClmm :=
  { coinA := 0
    coinB := 0
    tickSpacing := 10
    feeRate := 0
    liquidity := 1000000000000000000
    sqrtPrice
    tick := ⟨9, by decide⟩
    feeGrowthGlobalA := 0
    feeGrowthGlobalB := 0
    feeProtocolCoinA := 0
    feeProtocolCoinB := 0
    ticks :=
      { nodeUid := 0
        head := some 443646
        tail := some 443646
        level := 1
        maxLevel := 16
        size := 1
        seed := 0 }
    isPaused := false
    index := 0
    url := [] }

theorem lowStoredIndex_accepted : lowStoredIndex.Accepted :=
  .inr ⟨none, 1, lowStored, none, by decide +kernel⟩

/-- The move stays in tick 9 by computed prices and crosses tick 10 by its stored one. -/
theorem shortcut_unsound_low_stored :
    Ticks.fromChildren none 1 lowStored = .ok (lowStoredIndex, none) ∧
    lowStoredIndex.validateSpacing (poolBelowTen 18455969290605225427).tickSpacing = .ok () ∧
    (poolBelowTen 18455969290605225427).staysInsideCurrentRange .bToA 1000 = .ok true ∧
    (poolBelowTen 18455969290605225427).quoteExactIn lowStoredIndex .bToA 1000 ≠
      (poolBelowTen 18455969290605225427).quoteExactIn noTicks .bToA 1000 :=
  ⟨by decide +kernel, by decide +kernel, by decide +kernel, by decide +kernel⟩

/-- A smaller purchase ends below the stored price as well. -/
theorem shortcut_exact_short :
    (poolBelowTen 18455969290605225427).quoteExactIn lowStoredIndex .bToA 200 =
      (poolBelowTen 18455969290605225427).quoteExactIn noTicks .bToA 200 := by
  refine (shortcut_exact lowStoredIndex lowStoredIndex_accepted _ .bToA 200
    (by decide +kernel)).1 ?_
  rintro ⟨_, n, net, fee, reached, hn, hfee, hreached, _, hhigh⟩
  have hnext : lowStoredIndex.nextAbove 9 = lowStored.head? := by decide +kernel
  have hnet : takeFee 200 0 = .ok (200, 0) := by decide +kernel
  have hnear : nextSqrtPriceUp 18455969290605225427 1000000000000000000 200 =
      .ok 18455969290605229116 := by decide +kernel
  obtain rfl := Option.some.inj (hnext.symm.trans hn)
  obtain ⟨rfl, rfl⟩ := Prod.mk.inj (Except.ok.inj (hnet.symm.trans hfee))
  obtain rfl := Except.ok.inj (hnear.symm.trans hreached)
  exact absurd hhigh (by decide)

end RangeShortcut
