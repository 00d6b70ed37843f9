import Birdai.Base.BandSums
import Birdai.Amm.WalkShape
import Mathlib.Tactic.FieldSimp

/-!
# Steps as bands of liquidity

Every step is a band of the price range. What it collects and pays is bounded by
the rise of a potential over the band, one potential for each token, so that a
swap and a swap back can be compared cell by cell.
-/

namespace StepBands

open WideArith SwapExactIn PricingSpecs StepRounding WalkShape BandSums

def opposite : Direction → Direction
  | .aToB => .bToA
  | .bToA => .aToB

theorem along_opposite (d : Direction) (x : ℤ) : along (opposite d) x = -along d x := by
  cases d with
  | aToB => exact (neg_neg x).symm
  | bToA => rfl

theorem reach_opposite (d : Direction) (p : U128) : reach (opposite d) p = -reach d p :=
  along_opposite d _

theorem opposite_opposite (d : Direction) : opposite (opposite d) = d := by
  cases d <;> rfl

/-- The token a swap in this direction takes, held by one unit of liquidity at a price. -/
def potential (d : Direction) (n : ℕ) : ℚ :=
  match d with
  | .bToA => n / 2 ^ 64
  | .aToB => -(2 ^ 64 / n)

/-- The range a step moved through, at the liquidity it was priced with. -/
def band (d : Direction) (s : Step) : Band :=
  match d with
  | .bToA => { low := s.sqrtPriceStart.val, high := s.sqrtPriceEnd.val, depth := s.liquidity.val }
  | .aToB => { low := s.sqrtPriceEnd.val, high := s.sqrtPriceStart.val, depth := s.liquidity.val }

/-- The bands of a walk, upwards. -/
def bands (d : Direction) (steps : List Step) : List Band :=
  match d with
  | .bToA => steps.map (band d)
  | .aToB => (steps.map (band d)).reverse

theorem band_depth (d : Direction) (s : Step) : (band d s).depth = s.liquidity.val := by
  cases d <;> rfl

theorem mem_bands {d : Direction} {steps : List Step} {b : Band} :
    b ∈ bands d steps ↔ ∃ s ∈ steps, band d s = b := by
  cases d with
  | bToA => exact List.mem_map
  | aToB => exact List.mem_reverse.trans List.mem_map

theorem weigh_bands (F : ℕ → ℚ) (d : Direction) (steps : List Step) :
    weigh F (bands d steps) = (steps.map fun s =>
      (s.liquidity.val : ℚ) * (F (band d s).high - F (band d s).low)).sum := by
  have hmap : weigh F (bands d steps) = weigh F (steps.map (band d)) := by
    cases d with
    | bToA => rfl
    | aToB => exact ((List.reverse_perm _).map _).sum_eq
  rw [hmap, weigh, List.map_map]
  simp only [Function.comp_def, band_depth]

theorem stacked_upwards {start stop : U128} {steps : List Step} (h : Chained start steps stop)
    (hforward : ∀ s ∈ steps, reach .bToA s.sqrtPriceStart < reach .bToA s.sqrtPriceEnd) :
    Stacked start.val (bands .bToA steps) stop.val := by
  induction steps generalizing start with
  | nil => exact congrArg _ h
  | cons s rest ih =>
    have hfirst := hforward s List.mem_cons_self
    refine ⟨congrArg Fin.val h.1, (Int.ofNat_lt.mp hfirst).le, ih h.2 fun t ht => ?_⟩
    exact hforward t (List.mem_cons_of_mem _ ht)

theorem stacked_downwards {start stop : U128} {steps : List Step} (h : Chained start steps stop)
    (hforward : ∀ s ∈ steps, reach .aToB s.sqrtPriceStart < reach .aToB s.sqrtPriceEnd) :
    Stacked stop.val (bands .aToB steps) start.val := by
  induction steps generalizing start with
  | nil => exact congrArg _ h.symm
  | cons s rest ih =>
    have hfirst := neg_lt_neg_iff.mp (hforward s List.mem_cons_self)
    rw [bands, List.map_cons, List.reverse_cons]
    refine stacked_append (ih h.2 fun t ht => hforward t (List.mem_cons_of_mem _ ht)) ?_
    exact ⟨rfl, (Int.ofNat_lt.mp hfirst).le, congrArg Fin.val h.1⟩

theorem chained_positive {start stop : U128} {steps : List Step} (h : Chained start steps stop)
    (hpos : ∀ s ∈ steps, 0 < s.sqrtPriceEnd.val) (hstart : 0 < start.val) : 0 < stop.val := by
  induction steps generalizing start with
  | nil => exact (h : start = stop) ▸ hstart
  | cons s rest ih =>
    exact ih h.2 (fun t ht => hpos t (List.mem_cons_of_mem _ ht)) (hpos s List.mem_cons_self)

/-- Every step of a forward chain lies between its two ends. -/
theorem chained_between {d : Direction} {start stop : U128} {steps : List Step}
    (h : Chained start steps stop)
    (hforward : ∀ s ∈ steps, reach d s.sqrtPriceStart < reach d s.sqrtPriceEnd) :
    reach d start ≤ reach d stop ∧ ∀ s ∈ steps,
      reach d start ≤ reach d s.sqrtPriceStart ∧ reach d s.sqrtPriceEnd ≤ reach d stop := by
  induction steps generalizing start with
  | nil =>
    obtain rfl : start = stop := h
    exact ⟨le_rfl, fun _ hs => absurd hs List.not_mem_nil⟩
  | cons s rest ih =>
    obtain ⟨rfl, hrest⟩ := h
    have hfirst := hforward s List.mem_cons_self
    obtain ⟨hle, hall⟩ := ih hrest fun t ht => hforward t (List.mem_cons_of_mem _ ht)
    refine ⟨hfirst.le.trans hle, fun t ht => ?_⟩
    rcases List.mem_cons.mp ht with rfl | ht
    · exact ⟨le_rfl, hle⟩
    · exact ⟨hfirst.le.trans (hall t ht).1, (hall t ht).2⟩

/-- A forward chain leaves no cell between its two ends uncovered. -/
theorem exists_step_at {d : Direction} {start stop : U128} {steps : List Step} {n : ℕ}
    (h : Chained start steps stop)
    (hforward : ∀ s ∈ steps, reach d s.sqrtPriceStart < reach d s.sqrtPriceEnd)
    (hlow : min start.val stop.val ≤ n) (hhigh : n < max start.val stop.val) :
    ∃ s ∈ steps, (band d s).low ≤ n ∧ n < (band d s).high := by
  have hle := (chained_between h hforward).1
  have hcovered : ∃ b ∈ bands d steps, b.low ≤ n ∧ n < b.high ∧
      depthAt (bands d steps) n = b.depth := by
    cases d with
    | bToA =>
      have hle : start.val ≤ stop.val := Int.ofNat_le.mp hle
      rw [min_eq_left hle] at hlow
      rw [max_eq_right hle] at hhigh
      exact exists_band (stacked_upwards h hforward) hlow hhigh
    | aToB =>
      have hle : stop.val ≤ start.val := Int.ofNat_le.mp (neg_le_neg_iff.mp hle)
      rw [min_eq_right hle] at hlow
      rw [max_eq_left hle] at hhigh
      exact exists_band (stacked_downwards h hforward) hlow hhigh
  obtain ⟨b, hb, hlow, hhigh, _⟩ := hcovered
  obtain ⟨s, hs, rfl⟩ := mem_bands.mp hb
  exact ⟨s, hs, hlow, hhigh⟩

/-! ### Amounts and potentials -/

section step
variable {d : Direction} {s : Step}
  (hpos : 0 < s.sqrtPriceStart.val ∧ 0 < s.sqrtPriceEnd.val)
include hpos

theorem potential_rise_aToB :
    potential .aToB s.sqrtPriceStart.val - potential .aToB s.sqrtPriceEnd.val =
      2 ^ 64 * ((s.sqrtPriceStart.val : ℚ) - s.sqrtPriceEnd.val) /
        (s.sqrtPriceStart.val * s.sqrtPriceEnd.val) := by
  have hstart : (s.sqrtPriceStart.val : ℚ) ≠ 0 := Nat.cast_ne_zero.mpr hpos.1.ne'
  have hend : (s.sqrtPriceEnd.val : ℚ) ≠ 0 := Nat.cast_ne_zero.mpr hpos.2.ne'
  simp only [potential]
  field_simp
  ring

theorem covers_potential
    (h : Covers d s.liquidity s.sqrtPriceStart s.sqrtPriceEnd s.amountIn.val) :
    (s.liquidity.val : ℚ) * (potential d (band d s).high - potential d (band d s).low) ≤
      s.amountIn.val := by
  cases d with
  | bToA =>
    have hcovers : (s.liquidity.val : ℚ) * (s.sqrtPriceEnd.val - s.sqrtPriceStart.val) ≤
        s.amountIn.val * 2 ^ 64 := by
      simp only [Covers] at h
      exact_mod_cast h
    simp only [band, potential]
    rw [← sub_div, mul_div_assoc', div_le_iff₀ (by positivity)]
    exact hcovers
  | aToB =>
    have hcovers : (s.liquidity.val : ℚ) * 2 ^ 64 * (s.sqrtPriceStart.val - s.sqrtPriceEnd.val) ≤
        s.amountIn.val * s.sqrtPriceStart.val * s.sqrtPriceEnd.val := by
      simp only [Covers] at h
      exact_mod_cast h
    have hprices : (0 : ℚ) < s.sqrtPriceStart.val * s.sqrtPriceEnd.val :=
      mul_pos (Nat.cast_pos.mpr hpos.1) (Nat.cast_pos.mpr hpos.2)
    simp only [band]
    rw [potential_rise_aToB hpos, mul_div_assoc', div_le_iff₀ hprices]
    linarith

theorem coveredBy_potential
    (h : CoveredBy d s.liquidity s.sqrtPriceStart s.sqrtPriceEnd s.amountOut.val) :
    (s.amountOut.val : ℚ) ≤ s.liquidity.val *
      (potential (opposite d) (band d s).high - potential (opposite d) (band d s).low) := by
  cases d with
  | bToA =>
    have hcovered : (s.amountOut.val : ℚ) * s.sqrtPriceStart.val * s.sqrtPriceEnd.val ≤
        s.liquidity.val * 2 ^ 64 * (s.sqrtPriceEnd.val - s.sqrtPriceStart.val) := by
      simp only [CoveredBy] at h
      exact_mod_cast h
    have hprices : (0 : ℚ) < s.sqrtPriceStart.val * s.sqrtPriceEnd.val :=
      mul_pos (Nat.cast_pos.mpr hpos.1) (Nat.cast_pos.mpr hpos.2)
    simp only [band, opposite]
    rw [← neg_sub, potential_rise_aToB hpos, ← neg_div, mul_div_assoc', le_div_iff₀ hprices]
    linarith
  | aToB =>
    have hcovered : (s.amountOut.val : ℚ) * 2 ^ 64 ≤
        s.liquidity.val * (s.sqrtPriceStart.val - s.sqrtPriceEnd.val) := by
      simp only [CoveredBy] at h
      exact_mod_cast h
    simp only [band, opposite, potential]
    rw [← sub_div, mul_div_assoc', le_div_iff₀ (by positivity)]
    exact hcovered

end step

section walk
variable {c : Call} {first w : Walk} (h : Balanced c first w)
include h

/-- The steps of a walk take at least the rise of their token's potential. -/
theorem weigh_le_inputs : weigh (potential c.direction) (bands c.direction w.steps) ≤
    ((w.steps.map fun s => s.amountIn.val).sum : ℕ) := by
  rw [weigh_bands, Nat.cast_list_sum, List.map_map]
  exact List.sum_le_sum fun s hs => covers_potential (h.positive s hs) (h.covers s hs)

/-- They pay out at most the rise of the other token's. -/
theorem outputs_le_weigh : (w.amountOut.val : ℚ) ≤
    weigh (potential (opposite c.direction)) (bands c.direction w.steps) := by
  rw [← h.outputs, weigh_bands, Nat.cast_list_sum, List.map_map]
  exact List.sum_le_sum fun s hs => coveredBy_potential (h.positive s hs) (h.covered s hs)

theorem positive_end (hfirst : 0 < first.sqrtPrice.val) : 0 < w.sqrtPrice.val :=
  chained_positive h.chained (fun s hs => (h.positive s hs).2) hfirst

end walk

/-! ### There and back -/

/-- The price between the two tokens' potentials, cell by cell. -/
theorem potential_step (n : ℕ) (hn : 0 < n) :
    potential .bToA (n + 1) - potential .bToA n = 1 / 2 ^ 64 ∧
      potential .aToB (n + 1) - potential .aToB n = 2 ^ 64 / (n * (n + 1)) := by
  have hn : (n : ℚ) ≠ 0 := Nat.cast_ne_zero.mpr hn.ne'
  have hsucc : (n : ℚ) + 1 ≠ 0 := Nat.cast_add_one_ne_zero n
  constructor
  · simp only [potential]
    push_cast
    ring
  · simp only [potential]
    push_cast
    field_simp
    ring

/-- What the one token's potential rises by for a rise of the other's across a cell. -/
def exchangeRate (m : ℕ) : ℚ := m * (m + 1) / 2 ^ 128

theorem exchangeRate_pos {m : ℕ} (hm : 0 < m) : 0 < exchangeRate m :=
  div_pos (by positivity) (by positivity)

theorem exchangeRate_cell {n : ℕ} (hn : 0 < n) :
    potential .bToA (n + 1) - potential .bToA n =
      exchangeRate n * (potential .aToB (n + 1) - potential .aToB n) := by
  obtain ⟨hB, hA⟩ := potential_step n hn
  rw [hA, hB, exchangeRate]
  field_simp

theorem exchangeRate_mono {n m : ℕ} (h : n ≤ m) : exchangeRate n ≤ exchangeRate m := by
  have h : (n : ℚ) ≤ m := Nat.cast_le.mpr h
  rw [exchangeRate, exchangeRate]
  gcongr

theorem potential_rises {n : ℕ} (hn : 0 < n) :
    0 ≤ potential .aToB (n + 1) - potential .aToB n := by
  rw [(potential_step n hn).2]
  exact div_nonneg (by positivity) (by positivity)

/-- A walk that comes back through cells nowhere deeper, on no more than the first
walk paid out, pays out no more than the first walk took. -/
theorem weigh_back_le {d : Direction} {start top stop : U128} {out back : List Step}
    (hstart : 0 < start.val) (htop : 0 < top.val) (hstop : 0 < stop.val)
    (hout : Chained start out top)
    (houtward : ∀ s ∈ out, reach d s.sqrtPriceStart < reach d s.sqrtPriceEnd)
    (hback : Chained top back stop)
    (hbackward : ∀ s ∈ back,
      reach (opposite d) s.sqrtPriceStart < reach (opposite d) s.sqrtPriceEnd)
    (hdepth : ∀ n, ∀ s ∈ out, (band d s).low ≤ n → n < (band d s).high →
      ∀ t ∈ back, (band (opposite d) t).low ≤ n → n < (band (opposite d) t).high →
        t.liquidity ≤ s.liquidity)
    (h : weigh (potential (opposite d)) (bands (opposite d) back) ≤
      weigh (potential (opposite d)) (bands d out)) :
    weigh (potential d) (bands (opposite d) back) ≤ weigh (potential d) (bands d out) := by
  have hcells : ∀ {a b x y : ℕ}, Stacked a (bands d out) b →
      Stacked x (bands (opposite d) back) y → ∀ n, a ≤ n → n < b → x ≤ n → n < y →
        depthAt (bands (opposite d) back) n ≤ depthAt (bands d out) n := by
    intro a b x y hstack hstack' n ha hb hx hy
    obtain ⟨u, hu, hlow, hhigh, hat⟩ := exists_band hstack ha hb
    obtain ⟨v, hv, hlow', hhigh', hat'⟩ := exists_band hstack' hx hy
    obtain ⟨s, hs, rfl⟩ := mem_bands.mp hu
    obtain ⟨t, ht, rfl⟩ := mem_bands.mp hv
    rw [hat, hat', band_depth, band_depth]
    exact Nat.cast_le.mpr (hdepth n s hs hlow hhigh t ht hlow' hhigh')
  have hpos := exchangeRate_pos hstart
  -- The rate of exchange is the one of the cell where the way out started.
  cases d with
  | bToA =>
    have hup := stacked_upwards hout houtward
    have hdown := stacked_downwards hback hbackward
    refine weigh_le_of_shared_top (V := potential .aToB) hup hdown
      (fun n ha hx hb => hcells hup hdown n ha hb hx hb) hpos.le ?_ ?_ h
    · intro n hx ha
      have hn : 0 < n := by omega
      rw [exchangeRate_cell hn]
      exact mul_le_mul_of_nonneg_right (exchangeRate_mono ha.le) (potential_rises hn)
    · intro n ha
      have hn : 0 < n := by omega
      rw [exchangeRate_cell hn]
      exact mul_le_mul_of_nonneg_right (exchangeRate_mono ha) (potential_rises hn)
  | aToB =>
    have hdown := stacked_downwards hout houtward
    have hup := stacked_upwards hback hbackward
    refine weigh_le_of_shared_bottom (V := potential .bToA) hdown hup
      (fun n ha hb hy => hcells hdown hup n ha hb ha hy) (inv_pos.mpr hpos).le ?_ ?_ h
    · intro n ha
      have hn : 0 < n := by omega
      rw [le_inv_mul_iff₀ hpos, exchangeRate_cell hn]
      exact mul_le_mul_of_nonneg_right (exchangeRate_mono ha) (potential_rises hn)
    · intro n hbottom ha
      have hn : 0 < n := by omega
      rw [inv_mul_le_iff₀ hpos, exchangeRate_cell hn]
      exact mul_le_mul_of_nonneg_right (exchangeRate_mono ha.le) (potential_rises hn)

end StepBands
