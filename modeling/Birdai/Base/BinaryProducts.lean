import Mathlib.Algebra.Order.Field.Rat
import Mathlib.Tactic.Linarith
import Mathlib.Tactic.Ring
import Mathlib.Tactic.Positivity

/-!
# Powers by binary decomposition

A table holds, for a ratio below one, approximations of its powers at the powers
of two. The product of the entries a number's binary digits select approximates
the power at that number; a truncated product rounds down at every factor. When
each entry's square is close to the next entry, successive products fall by
nearly the first entry.
-/

namespace BinaryProducts

variable (one : ℕ)

def exact : List ℕ → ℕ → ℚ
  | [], _ => 1
  | f :: fs, n => (if n % 2 = 1 then (f : ℚ) / one else 1) * exact fs (n / 2)

def truncated : List ℕ → ℕ → ℕ → ℕ
  | [], _, r => r
  | f :: fs, n, r => truncated fs (n / 2) (if n % 2 = 1 then r * f / one else r)

variable {one} {fs : List ℕ}

theorem exact_nonneg (fs : List ℕ) (n : ℕ) : 0 ≤ exact one fs n := by
  induction fs generalizing n with
  | nil => exact zero_le_one
  | cons f fs ih =>
    apply mul_nonneg _ (ih _)
    split
    · positivity
    · exact zero_le_one

theorem exact_le_one (hone : 0 < one) (hfs : ∀ f ∈ fs, f ≤ one) (n : ℕ) :
    exact one fs n ≤ 1 := by
  induction fs generalizing n with
  | nil => exact le_rfl
  | cons f fs ih =>
    have hpos : (0 : ℚ) < one := by exact_mod_cast hone
    have hf : (f : ℚ) ≤ one := by exact_mod_cast hfs f List.mem_cons_self
    refine mul_le_one₀ ?_ (exact_nonneg _ _) (ih (fun g hg => hfs g (List.mem_cons_of_mem _ hg)) _)
    split
    · exact (div_le_one hpos).mpr hf
    · exact le_rfl

/-- Truncation stays within one unit per table entry below the exact product. -/
theorem truncated_bounds (hone : 0 < one) (hfs : ∀ f ∈ fs, f ≤ one) (n r : ℕ) :
    exact one fs n * r - fs.length ≤ truncated one fs n r ∧
      (truncated one fs n r : ℚ) ≤ exact one fs n * r := by
  induction fs generalizing n r with
  | nil => simp [exact, truncated]
  | cons f fs ih =>
    have hpos : (0 : ℚ) < one := by exact_mod_cast hone
    have hrest : ∀ g ∈ fs, g ≤ one := fun g hg => hfs g (List.mem_cons_of_mem _ hg)
    have hnn : 0 ≤ exact one fs (n / 2) := exact_nonneg fs (n / 2)
    simp only [exact, truncated, List.length_cons, Nat.cast_add, Nat.cast_one]
    by_cases hodd : n % 2 = 1
    · simp only [if_pos hodd]
      obtain ⟨hlow, hhigh⟩ := ih hrest (n / 2) (r * f / one)
      have hle := exact_le_one hone hrest (n / 2)
      have hdown : ((r * f / one : ℕ) : ℚ) * one ≤ r * f := by
        exact_mod_cast Nat.div_mul_le_self (r * f) one
      have hup : (r * f : ℚ) < ((r * f / one : ℕ) + 1) * one := by
        exact_mod_cast Nat.lt_mul_of_div_lt (Nat.lt_succ_self (r * f / one)) hone
      generalize ((r * f / one : ℕ) : ℚ) = q at hlow hhigh hdown hup
      have hdown : q ≤ f / one * r := by
        rw [div_mul_eq_mul_div, le_div_iff₀ hpos, mul_comm (f : ℚ)]
        exact hdown
      have hup : f / one * r - 1 ≤ q := by
        rw [sub_le_iff_le_add, div_mul_eq_mul_div, div_le_iff₀ hpos, mul_comm (f : ℚ)]
        exact hup.le
      constructor
      · have hmul := mul_le_mul_of_nonneg_left hup hnn
        linarith
      · have hmul := mul_le_mul_of_nonneg_left hdown hnn
        linarith
    · simp only [if_neg hodd, one_mul]
      obtain ⟨hlow, hhigh⟩ := ih hrest (n / 2) r
      exact ⟨by linarith, hhigh⟩

/-- Each entry's square is within a relative `1 / grain` of the next, with a
slack that grows by one grain for every entry still to come. -/
def NearSquares (one grain : ℕ) : List ℕ → Prop
  | [] => True
  | [_] => True
  | f :: g :: rest =>
    g * one * (grain + rest.length + 1) ≤ f * f * (grain + rest.length + 2) ∧
      NearSquares one grain (g :: rest)

instance decidableNearSquares (one grain : ℕ) : ∀ fs, Decidable (NearSquares one grain fs)
  | [] => inferInstanceAs (Decidable True)
  | [_] => inferInstanceAs (Decidable True)
  | _ :: g :: rest =>
    have := decidableNearSquares one grain (g :: rest)
    inferInstanceAs (Decidable (_ ∧ NearSquares one grain (g :: rest)))

/-- One more in the exponent costs the first entry, up to the slack. -/
theorem exact_succ_le {grain : ℕ} (hone : 0 < one) (hgrain : 0 < grain) {f : ℕ}
    (hnear : NearSquares one grain (f :: fs)) {n : ℕ} (hn : n + 1 < 2 ^ (fs.length + 1)) :
    exact one (f :: fs) (n + 1) ≤
      f / one * ((grain + fs.length + 1) / grain) * exact one (f :: fs) n := by
  have hpos : (0 : ℚ) < one := by exact_mod_cast hone
  have hgpos : (0 : ℚ) < grain := by exact_mod_cast hgrain
  induction fs generalizing f n with
  | nil =>
    have hz : n = 0 := by simp at hn; omega
    subst hz
    have hslack : (1 : ℚ) ≤ (grain + 1) / grain := by
      rw [le_div_iff₀ hgpos]
      linarith
    have hf : (0 : ℚ) ≤ f / one := by positivity
    have hmul := mul_le_mul_of_nonneg_left hslack hf
    simpa [exact] using hmul
  | cons g rest ih =>
    have hlen : ((g :: rest).length : ℚ) = rest.length + 1 := by simp
    have hcons : ∀ n, exact one (f :: g :: rest) n =
        (if n % 2 = 1 then (f : ℚ) / one else 1) * exact one (g :: rest) (n / 2) := fun _ => rfl
    rw [hlen, hcons, hcons]
    rcases Nat.mod_two_eq_zero_or_one n with heven | hodd
    · have hnext : (n + 1) % 2 = 1 := by omega
      have hhalf : (n + 1) / 2 = n / 2 := by omega
      rw [if_pos hnext, if_neg (by omega), hhalf, one_mul]
      apply mul_le_mul_of_nonneg_right _ (exact_nonneg _ _)
      apply le_mul_of_one_le_right (by positivity)
      rw [le_div_iff₀ hgpos]
      linarith [Nat.cast_nonneg (α := ℚ) rest.length]
    · have hnext : ¬ (n + 1) % 2 = 1 := by omega
      have hhalf : (n + 1) / 2 = n / 2 + 1 := by omega
      rw [if_neg hnext, if_pos hodd, hhalf, one_mul]
      obtain ⟨hsquare, hrest⟩ := hnear
      have hbound : n / 2 + 1 < 2 ^ (rest.length + 1) := by
        rw [List.length_cons, Nat.pow_succ] at hn
        omega
      apply (ih hrest hbound).trans
      rw [← mul_assoc]
      apply mul_le_mul_of_nonneg_right _ (exact_nonneg _ _)
      have hsquare : (g : ℚ) * one * (grain + rest.length + 1) ≤
          f * f * (grain + rest.length + 2) := by exact_mod_cast hsquare
      rw [div_mul_div_comm, div_mul_div_comm, div_mul_div_comm, div_le_div_iff₀ (by positivity)
        (by positivity)]
      have hscale := mul_le_mul_of_nonneg_right hsquare (by positivity : (0 : ℚ) ≤ one * grain)
      linarith

end BinaryProducts
