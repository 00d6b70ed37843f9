import Birdai.Base.BinaryProducts
import Mathlib.Analysis.Real.Sqrt

/-!
# Tables of floors

When every entry of a factor table is the floor of the power it stands for, the
product of a number's entries is within one unit per entry of the power itself.
A walk that multiplies by the first entry again and again drifts by at most two
units a step, so one run of it places every power of a range between integers.
-/

namespace PowerFloors

open BinaryProducts

variable {one : ℕ} {fs : List ℕ}

/-- Each entry is the floor of the base squared once more. -/
def Floors (one : ℕ) : ℝ → List ℕ → Prop
  | _, [] => True
  | x, f :: fs => f ≤ one * x ∧ one * x ≤ f + 1 ∧ Floors one (x ^ 2) fs

/-- The same on integers, for a base whose square is `num / den`. -/
def SquareFloors (one : ℕ) : ℕ → ℕ → List ℕ → Prop
  | _, _, [] => True
  | num, den, f :: fs =>
    f ^ 2 * den ≤ one ^ 2 * num ∧ one ^ 2 * num ≤ (f + 1) ^ 2 * den ∧
      SquareFloors one (num ^ 2) (den ^ 2) fs

instance decidableSquareFloors (one : ℕ) :
    ∀ num den fs, Decidable (SquareFloors one num den fs)
  | _, _, [] => inferInstanceAs (Decidable True)
  | num, den, _ :: fs =>
    have : Decidable (SquareFloors one (num ^ 2) (den ^ 2) fs) :=
      decidableSquareFloors one (num ^ 2) (den ^ 2) fs
    inferInstanceAs (Decidable (_ ∧ _ ∧ SquareFloors one (num ^ 2) (den ^ 2) fs))

theorem Floors.of_squareFloors {num den : ℕ} {x : ℝ} (hden : 0 < den) (hx : 0 ≤ x)
    (hsq : x ^ 2 * den = num) (h : SquareFloors one num den fs) : Floors one x fs := by
  induction fs generalizing num den x with
  | nil => exact trivial
  | cons f fs ih =>
    obtain ⟨hlow, hhigh, hrest⟩ := h
    have hpos : (0 : ℝ) < den := by exact_mod_cast hden
    have hlow : (f ^ 2 * den : ℝ) ≤ one ^ 2 * num := by exact_mod_cast hlow
    have hhigh : (one ^ 2 * num : ℝ) ≤ (f + 1) ^ 2 * den := by exact_mod_cast hhigh
    have hscaled : (one ^ 2 * num : ℝ) = (one * x) ^ 2 * den := by
      rw [← hsq]
      ring
    rw [hscaled] at hlow hhigh
    refine ⟨?_, ?_, ih (pow_pos hden 2) (sq_nonneg x) ?_ hrest⟩
    · exact pow_le_pow_iff_left₀ (by positivity) (by positivity) two_ne_zero |>.mp
        (le_of_mul_le_mul_right hlow hpos)
    · exact pow_le_pow_iff_left₀ (by positivity) (by positivity) two_ne_zero |>.mp
        (le_of_mul_le_mul_right hhigh hpos)
    · push_cast
      rw [← hsq]
      ring

/-- The product of the digits' entries is below the power, by at most a unit an entry. -/
theorem exact_bounds {x : ℝ} (hone : 0 < one) (h0 : 0 ≤ x) (h1 : x ≤ 1) (h : Floors one x fs)
    {n : ℕ} (hn : n < 2 ^ fs.length) :
    (exact one fs n : ℝ) ≤ x ^ n ∧ x ^ n ≤ exact one fs n + fs.length / one := by
  have hpos : (0 : ℝ) < one := by exact_mod_cast hone
  induction fs generalizing x n with
  | nil =>
    have hz : n = 0 := by simpa using hn
    subst hz
    simp [exact]
  | cons f fs ih =>
    obtain ⟨hlow, hhigh, hrest⟩ := h
    have hhalf : n / 2 < 2 ^ fs.length := by
      rw [List.length_cons, Nat.pow_succ] at hn
      omega
    have hsq : x ^ 2 ≤ 1 := pow_le_one₀ h0 h1
    obtain ⟨hlo, hhi⟩ := ih (sq_nonneg x) hsq hrest hhalf
    have hnn : (0 : ℝ) ≤ exact one fs (n / 2) := by exact_mod_cast exact_nonneg fs (n / 2)
    have hle : (x ^ 2) ^ (n / 2) ≤ 1 := pow_le_one₀ (sq_nonneg x) hsq
    have hsplit : x ^ n = x ^ (n % 2) * (x ^ 2) ^ (n / 2) := by
      rw [← pow_mul, ← pow_add]
      congr 1
      omega
    have hlen : (((f :: fs).length : ℕ) : ℝ) / one = fs.length / one + 1 / one := by
      rw [List.length_cons, Nat.cast_add, Nat.cast_one, add_div]
    have hunit : (0 : ℝ) < 1 / one := by positivity
    rw [hsplit, hlen]
    generalize (x ^ 2) ^ (n / 2) = y at hlo hhi hle
    by_cases hodd : n % 2 = 1
    · have hcons : (exact one (f :: fs) n : ℝ) = f / one * exact one fs (n / 2) := by
        simp only [exact, if_pos hodd]
        push_cast
        rfl
      have hf : f / one ≤ x := by
        rw [div_le_iff₀ hpos, mul_comm]
        exact hlow
      have hx : x ≤ f / one + 1 / one := by
        rw [← add_div, le_div_iff₀ hpos, mul_comm]
        exact hhigh
      have hfn : (0 : ℝ) ≤ f / one := by positivity
      rw [hcons, hodd, pow_one]
      generalize (exact one fs (n / 2) : ℝ) = e at *
      constructor
      · exact mul_le_mul hf hlo hnn h0
      · have hy : 0 ≤ y := hnn.trans hlo
        calc x * y ≤ (f / one + 1 / one) * y := mul_le_mul_of_nonneg_right hx hy
          _ = f / one * y + 1 / one * y := add_mul _ _ _
          _ ≤ f / one * (e + fs.length / one) + 1 / one * 1 :=
            add_le_add (mul_le_mul_of_nonneg_left hhi hfn) (mul_le_mul_of_nonneg_left hle hunit.le)
          _ = f / one * e + f / one * (fs.length / one) + 1 / one := by ring
          _ ≤ f / one * e + 1 * (fs.length / one) + 1 / one := by
            have hl : (0 : ℝ) ≤ fs.length / one := by positivity
            have hm := mul_le_mul_of_nonneg_right (hf.trans h1) hl
            linarith
          _ = f / one * e + (fs.length / one + 1 / one) := by ring
    · have heven : n % 2 = 0 := by omega
      have hcons : exact one (f :: fs) n = exact one fs (n / 2) := by
        simp only [exact, if_neg hodd, one_mul]
      rw [hcons, heven, pow_zero, one_mul]
      constructor
      · exact hlo
      · linarith

/-! ### The walk -/

/-- The next power, rounded down. -/
def descend (one f y : ℕ) : ℕ := y * f / one

/-- No value met in so many steps is within `margin` of a multiple of `grid`. -/
def clearOf (one f grid margin : ℕ) (steps : ℕ) : ℕ → Bool :=
  -- Taking the value apart makes the kernel compute it before the next step.
  Nat.rec (fun _ => true) (fun _ next y => Nat.rec false (fun k _ =>
    Nat.ble (margin + margin) ((k + 1 + margin) % grid) && next ((k + 1) * f / one)) y) steps

theorem clearOf_succ {f grid margin steps y : ℕ} (hy : y ≠ 0) :
    clearOf one f grid margin (steps + 1) y =
      (Nat.ble (margin + margin) ((y + margin) % grid) &&
        clearOf one f grid margin steps (descend one f y)) := by
  obtain ⟨k, rfl⟩ := Nat.exists_eq_succ_of_ne_zero hy
  rfl

theorem clearOf_spec {f grid margin steps y : ℕ} (h : clearOf one f grid margin steps y = true)
    {i : ℕ} (hi : i < steps) :
    margin + margin ≤ ((descend one f)^[i] y + margin) % grid := by
  induction steps generalizing i y with
  | zero => omega
  | succ steps ih =>
    have hy : y ≠ 0 := by
      rintro rfl
      exact Bool.false_ne_true h
    rw [clearOf_succ hy, Bool.and_eq_true] at h
    cases i with
    | zero => exact Nat.le_of_ble_eq_true h.1
    | succ i =>
      rw [Function.iterate_succ_apply]
      exact ih h.2 (by omega)

/-- The walk stays below the power it follows, two units further with every step. -/
theorem descend_bounds {f : ℕ} {x v e : ℝ} (hone : 0 < one) (h1 : x ≤ 1)
    (hlow : f ≤ one * x) (hhigh : one * x ≤ f + 1) (hv1 : v ≤ one) (he : 0 ≤ e) {y : ℕ}
    (hyv : (y : ℝ) ≤ v) (hvy : v ≤ y + e) (i : ℕ) :
    ((descend one f)^[i] y : ℝ) ≤ v * x ^ i ∧
      v * x ^ i ≤ (descend one f)^[i] y + (e + 2 * i) := by
  have hpos : (0 : ℝ) < one := by exact_mod_cast hone
  have hx : 0 ≤ x := by
    have hf : (0 : ℝ) ≤ one * x := (Nat.cast_nonneg f).trans hlow
    exact nonneg_of_mul_nonneg_right hf hpos
  have hv : 0 ≤ v := (Nat.cast_nonneg y).trans hyv
  induction i with
  | zero => simpa using ⟨hyv, hvy⟩
  | succ i ih =>
    obtain ⟨hlo, hhi⟩ := ih
    rw [Function.iterate_succ_apply']
    have hpower : v * x ^ i ≤ one :=
      (mul_le_of_le_one_right hv (pow_le_one₀ hx h1)).trans hv1
    have hstep : v * x ^ (i + 1) = v * x ^ i * x := by ring
    rw [hstep]
    generalize v * x ^ i = w at hlo hhi hpower
    have hw : 0 ≤ w := (Nat.cast_nonneg _).trans hlo
    generalize (descend one f)^[i] y = z at hlo hhi
    have hdown : (descend one f z : ℝ) * one ≤ z * f := by
      exact_mod_cast Nat.div_mul_le_self (z * f) one
    have hup : (z * f : ℝ) < (descend one f z + 1) * one := by
      exact_mod_cast Nat.lt_mul_of_div_lt (Nat.lt_succ_self (z * f / one)) hone
    constructor
    · apply le_of_mul_le_mul_right _ hpos
      calc (descend one f z : ℝ) * one ≤ z * f := hdown
        _ ≤ w * (one * x) := mul_le_mul hlo hlow (Nat.cast_nonneg f) hw
        _ = w * x * one := by ring
    · apply le_of_mul_le_mul_right _ hpos
      have hi : (0 : ℝ) ≤ i := Nat.cast_nonneg i
      have herr : (e + 2 * i) * x ≤ e + 2 * i := mul_le_of_le_one_right (by positivity) h1
      have hz : (z : ℝ) ≤ one := hlo.trans hpower
      calc w * x * one ≤ (z + (e + 2 * i)) * x * one := by gcongr
        _ = z * (one * x) + (e + 2 * i) * x * one := by ring
        _ ≤ z * (f + 1) + (e + 2 * i) * one := by gcongr
        _ = z * f + z + (e + 2 * i) * one := by ring
        _ ≤ (descend one f z + 1) * one + one + (e + 2 * i) * one := by linarith
        _ = (descend one f z + (e + 2 * (i + 1 : ℕ))) * one := by
          push_cast
          ring

end PowerFloors
