import Mathlib.Algebra.BigOperators.Intervals
import Mathlib.Algebra.Order.BigOperators.Group.Finset
import Mathlib.Algebra.BigOperators.Ring.Finset
import Mathlib.Algebra.Order.Field.Rat
import Mathlib.Tactic.Linarith
import Mathlib.Tactic.Ring

/-!
# Depth over a range of cells

A stack of bands covers a range of naturals cell by cell, each band at one depth.
Weighing the bands by a potential is summing over the cells. When one stack is
nowhere deeper than another on the cells they share, having weighed less by one
potential carries over to another.
-/

namespace BandSums

open Finset

structure Band where
  low : ℕ
  high : ℕ
  depth : ℕ

/-- Bands that follow each other upwards from one end to the other. -/
def Stacked : ℕ → List Band → ℕ → Prop
  | low, [], high => low = high
  | low, b :: rest, high => b.low = low ∧ b.low ≤ b.high ∧ Stacked b.high rest high

/-- The depth of the band that covers a cell, and zero outside. -/
def depthAt : List Band → ℕ → ℚ
  | [], _ => 0
  | b :: rest, n => if b.low ≤ n ∧ n < b.high then b.depth else depthAt rest n

/-- What the bands hold, valued by the rise of a potential. -/
def weigh (F : ℕ → ℚ) (bands : List Band) : ℚ :=
  (bands.map fun b => b.depth * (F b.high - F b.low)).sum

variable {low high : ℕ} {bands : List Band}

theorem Stacked.le (h : Stacked low bands high) : low ≤ high := by
  induction bands generalizing low with
  | nil => exact h.le
  | cons b rest ih => exact h.1 ▸ h.2.1.trans (ih h.2.2)

theorem stacked_append {mid : ℕ} {rest : List Band} (h : Stacked low bands mid)
    (hrest : Stacked mid rest high) : Stacked low (bands ++ rest) high := by
  induction bands generalizing low with
  | nil =>
    cases h
    exact hrest
  | cons b bands ih => exact ⟨h.1, h.2.1, ih h.2.2⟩

theorem depthAt_nonneg (bands : List Band) (n : ℕ) : 0 ≤ depthAt bands n := by
  induction bands with
  | nil => exact le_rfl
  | cons b rest ih =>
    rw [depthAt]
    split
    · exact Nat.cast_nonneg _
    · exact ih

theorem depthAt_below (h : Stacked low bands high) {n : ℕ} (hn : n < low) :
    depthAt bands n = 0 := by
  induction bands generalizing low with
  | nil => rfl
  | cons b rest ih =>
    rw [depthAt, if_neg (by have := h.1; omega)]
    exact ih h.2.2 (by have := h.1; have := h.2.1; omega)

theorem depthAt_above (h : Stacked low bands high) {n : ℕ} (hn : high ≤ n) :
    depthAt bands n = 0 := by
  induction bands generalizing low with
  | nil => rfl
  | cons b rest ih =>
    have hle := Stacked.le h.2.2
    rw [depthAt, if_neg (by omega)]
    exact ih h.2.2

/-- Inside its range a stack covers every cell. -/
theorem exists_band (h : Stacked low bands high) {n : ℕ} (hlow : low ≤ n) (hhigh : n < high) :
    ∃ b ∈ bands, b.low ≤ n ∧ n < b.high ∧ depthAt bands n = b.depth := by
  induction bands generalizing low with
  | nil =>
    cases h
    omega
  | cons b rest ih =>
    by_cases hn : n < b.high
    · have hb : b.low ≤ n ∧ n < b.high := ⟨h.1 ▸ hlow, hn⟩
      exact ⟨b, List.mem_cons_self, hb.1, hb.2, if_pos hb⟩
    · obtain ⟨a, ha, hlow, hhigh, hdepth⟩ := ih h.2.2 (not_lt.mp hn)
      refine ⟨a, List.mem_cons_of_mem _ ha, hlow, hhigh, ?_⟩
      rw [depthAt, if_neg (by omega)]
      exact hdepth

/-- Weighing the bands is summing over the cells. -/
theorem weigh_eq_sum (F : ℕ → ℚ) (h : Stacked low bands high) :
    weigh F bands = ∑ n ∈ Ico low high, depthAt bands n * (F (n + 1) - F n) := by
  induction bands generalizing low with
  | nil =>
    cases h
    simp [weigh]
  | cons b rest ih =>
    obtain ⟨rfl, hle, hrest⟩ := h
    have hle' := Stacked.le hrest
    rw [← Finset.sum_Ico_consecutive _ hle hle']
    have hfirst : ∑ n ∈ Ico b.low b.high, depthAt (b :: rest) n * (F (n + 1) - F n) =
        b.depth * (F b.high - F b.low) := by
      rw [← Finset.sum_Ico_sub F hle, Finset.mul_sum]
      refine Finset.sum_congr rfl fun n hn => ?_
      rw [depthAt, if_pos (Finset.mem_Ico.mp hn)]
    have hsecond : ∑ n ∈ Ico b.high high, depthAt (b :: rest) n * (F (n + 1) - F n) =
        weigh F rest := by
      rw [ih hrest]
      refine Finset.sum_congr rfl fun n hn => ?_
      rw [depthAt, if_neg (by have := (Finset.mem_Ico.mp hn).1; omega)]
    rw [hfirst, hsecond]
    rfl

/-- A stack may be summed over any range that contains its own. -/
theorem weigh_eq_sum_of_subset (F : ℕ → ℚ) (h : Stacked low bands high) {a b : ℕ} (ha : a ≤ low)
    (hb : high ≤ b) :
    weigh F bands = ∑ n ∈ Ico a b, depthAt bands n * (F (n + 1) - F n) := by
  rw [weigh_eq_sum F h]
  refine Finset.sum_subset (Finset.Ico_subset_Ico ha hb) fun n _ hn => ?_
  rw [Finset.mem_Ico, not_and_or, not_le, not_lt] at hn
  rcases hn with hn | hn
  · rw [depthAt_below h hn, zero_mul]
  · rw [depthAt_above h hn, zero_mul]

/-- Trading one measure for another whose rate is better exactly where the
difference is gained. -/
theorem sum_exchange {s : Finset ℕ} {f g v w : ℕ → ℚ} {rate : ℚ} (hrate : 0 ≤ rate)
    (hcross : ∀ n ∈ s, (f n - g n) * (rate * v n - w n) ≤ 0)
    (h : ∑ n ∈ s, g n * v n ≤ ∑ n ∈ s, f n * v n) :
    ∑ n ∈ s, g n * w n ≤ ∑ n ∈ s, f n * w n := by
  have hsum := Finset.sum_nonpos hcross
  have hsplit : ∑ n ∈ s, (f n - g n) * (rate * v n - w n) =
      rate * (∑ n ∈ s, f n * v n - ∑ n ∈ s, g n * v n) -
        (∑ n ∈ s, f n * w n - ∑ n ∈ s, g n * w n) := by
    rw [mul_sub, Finset.mul_sum, Finset.mul_sum, ← Finset.sum_sub_distrib,
      ← Finset.sum_sub_distrib, ← Finset.sum_sub_distrib]
    exact Finset.sum_congr rfl fun n _ => by ring
  have hgain := mul_nonneg hrate (sub_nonneg.mpr h)
  linarith

/-- Two stacks with one top: the way back starts where the way out ended. -/
theorem weigh_le_of_shared_top {V W : ℕ → ℚ} {out back : List Band} {start stop top : ℕ}
    (hout : Stacked start out top) (hback : Stacked stop back top)
    (hdepth : ∀ n, start ≤ n → stop ≤ n → n < top → depthAt back n ≤ depthAt out n)
    {rate : ℚ} (hrate : 0 ≤ rate)
    (hpast : ∀ n, stop ≤ n → n < start → W (n + 1) - W n ≤ rate * (V (n + 1) - V n))
    (hshared : ∀ n, start ≤ n → rate * (V (n + 1) - V n) ≤ W (n + 1) - W n)
    (h : weigh V back ≤ weigh V out) : weigh W back ≤ weigh W out := by
  rw [weigh_eq_sum_of_subset _ hback (min_le_right start stop) le_rfl,
    weigh_eq_sum_of_subset _ hout (min_le_left start stop) le_rfl] at h ⊢
  refine sum_exchange hrate (fun n hn => ?_) h
  obtain ⟨hlow, hhigh⟩ := Finset.mem_Ico.mp hn
  rcases lt_or_ge n start with hbefore | hafter
  · rw [depthAt_below hout hbefore, zero_sub]
    apply mul_nonpos_of_nonpos_of_nonneg (neg_nonpos.mpr (depthAt_nonneg _ _))
    exact sub_nonneg.mpr (hpast n (by omega) hbefore)
  · refine mul_nonpos_of_nonneg_of_nonpos ?_ (sub_nonpos.mpr (hshared n hafter))
    rcases lt_or_ge n stop with hshort | hlong
    · rw [depthAt_below hback hshort, sub_zero]
      exact depthAt_nonneg _ _
    · exact sub_nonneg.mpr (hdepth n hafter hlong hhigh)

/-- Two stacks with one bottom. -/
theorem weigh_le_of_shared_bottom {V W : ℕ → ℚ} {out back : List Band} {start stop bottom : ℕ}
    (hout : Stacked bottom out start) (hback : Stacked bottom back stop)
    (hdepth : ∀ n, bottom ≤ n → n < start → n < stop → depthAt back n ≤ depthAt out n)
    {rate : ℚ} (hrate : 0 ≤ rate)
    (hpast : ∀ n, start ≤ n → W (n + 1) - W n ≤ rate * (V (n + 1) - V n))
    (hshared : ∀ n, bottom ≤ n → n < start → rate * (V (n + 1) - V n) ≤ W (n + 1) - W n)
    (h : weigh V back ≤ weigh V out) : weigh W back ≤ weigh W out := by
  rw [weigh_eq_sum_of_subset _ hback le_rfl (le_max_right start stop),
    weigh_eq_sum_of_subset _ hout le_rfl (le_max_left start stop)] at h ⊢
  refine sum_exchange hrate (fun n hn => ?_) h
  obtain ⟨hlow, hhigh⟩ := Finset.mem_Ico.mp hn
  rcases lt_or_ge n start with hbefore | hafter
  · refine mul_nonpos_of_nonneg_of_nonpos ?_ (sub_nonpos.mpr (hshared n hlow hbefore))
    rcases lt_or_ge n stop with hshort | hlong
    · exact sub_nonneg.mpr (hdepth n hlow hbefore hshort)
    · rw [depthAt_above hback hlong, sub_zero]
      exact depthAt_nonneg _ _
  · rw [depthAt_above hout hafter, zero_sub]
    apply mul_nonpos_of_nonpos_of_nonneg (neg_nonpos.mpr (depthAt_nonneg _ _))
    exact sub_nonneg.mpr (hpast n hafter)

end BandSums
