import Mathlib.Algebra.Order.Floor.Div
import Mathlib.Tactic.Linarith

/-!
# Checked arithmetic on bounded words

A word below `n` is a `Fin n`. Each operation returns `none` exactly when the
exact result does not fit, so its specification is an equation over `Nat`.
-/

namespace CheckedWords

variable {n : ℕ}

def checkedAdd (a b : Fin n) : Option (Fin n) :=
  if h : a.val + b.val < n then some ⟨a.val + b.val, h⟩ else none

def checkedSub (a b : Fin n) : Option (Fin n) :=
  if b ≤ a then some ⟨a.val - b.val, by omega⟩ else none

def checkedMul (a b : Fin n) : Option (Fin n) :=
  if h : a.val * b.val < n then some ⟨a.val * b.val, h⟩ else none

def checkedDiv (a b : Fin n) : Option (Fin n) :=
  if b.val = 0 then none else some ⟨a.val / b.val, (Nat.div_le_self _ _).trans_lt a.isLt⟩

def checkedRem (a b : Fin n) : Option (Fin n) :=
  if b.val = 0 then none else some ⟨a.val % b.val, (Nat.mod_le _ _).trans_lt a.isLt⟩

theorem checkedAdd_eq_some_iff {a b c : Fin n} :
    checkedAdd a b = some c ↔ a.val + b.val = c.val := by
  simp only [checkedAdd]
  split
  · simp [Fin.ext_iff]
  · rename_i h
    simp only [reduceCtorEq, false_iff]
    intro he
    exact h (he ▸ c.isLt)

theorem checkedAdd_eq_none_iff {a b : Fin n} :
    checkedAdd a b = none ↔ n ≤ a.val + b.val := by
  simp only [checkedAdd]
  split
  · simp only [reduceCtorEq, false_iff]
    omega
  · simp only [true_iff]
    omega

theorem checkedSub_eq_some_iff {a b c : Fin n} :
    checkedSub a b = some c ↔ c.val + b.val = a.val := by
  simp only [checkedSub]
  split
  · rename_i h
    have hle : b.val ≤ a.val := h
    simp only [Option.some.injEq, Fin.ext_iff]
    omega
  · rename_i h
    simp only [reduceCtorEq, false_iff]
    have hlt : ¬ b.val ≤ a.val := h
    omega

theorem checkedSub_eq_none_iff {a b : Fin n} :
    checkedSub a b = none ↔ a.val < b.val := by
  simp only [checkedSub]
  split <;> simp <;> omega

theorem checkedMul_eq_some_iff {a b c : Fin n} :
    checkedMul a b = some c ↔ a.val * b.val = c.val := by
  simp only [checkedMul]
  split
  · simp [Fin.ext_iff]
  · rename_i h
    simp only [reduceCtorEq, false_iff]
    intro he
    exact h (he ▸ c.isLt)

theorem checkedDiv_eq_some_iff {a b c : Fin n} :
    checkedDiv a b = some c ↔ b.val ≠ 0 ∧ a.val / b.val = c.val := by
  simp only [checkedDiv]
  split
  · simp [*]
  · simp [*, Fin.ext_iff]

theorem checkedRem_eq_some_iff {a b c : Fin n} :
    checkedRem a b = some c ↔ b.val ≠ 0 ∧ a.val % b.val = c.val := by
  simp only [checkedRem]
  split
  · simp [*]
  · simp [*, Fin.ext_iff]

/-- The quotient, raised by one exactly when there is a remainder, is the ceiling. -/
theorem div_add_rem_step_eq_ceilDiv (a : ℕ) {b : ℕ} (hb : 0 < b) :
    (if a % b = 0 then a / b else a / b + 1) = a ⌈/⌉ b := by
  have hdecomp := Nat.div_add_mod a b
  apply le_antisymm
  · split
    · rename_i hz
      have hle : a ≤ b * (a ⌈/⌉ b) := (ceilDiv_le_iff_le_mul hb).mp le_rfl
      exact (Nat.div_le_iff_le_mul_add_pred hb).mpr (by omega)
    · rename_i hnz
      by_contra hlt
      have hle : a ⌈/⌉ b ≤ a / b := by omega
      have hmul : a ≤ b * (a / b) := (ceilDiv_le_iff_le_mul hb).mp hle
      omega
  · rw [ceilDiv_le_iff_le_mul hb]
    split
    · omega
    · have hlt := Nat.mod_lt a hb
      rw [Nat.mul_add]
      omega

/-- Dividing twice and rounding down each time rounds down once. -/
theorem floor_floor (a b c : ℕ) : a / b / c = a / (b * c) := Nat.div_div_eq_div_mul a b c

/-- Dividing twice and rounding up each time rounds up once. -/
theorem ceil_ceil (a : ℕ) {b c : ℕ} (hb : 0 < b) (hc : 0 < c) :
    (a ⌈/⌉ b) ⌈/⌉ c = a ⌈/⌉ (b * c) := by
  apply le_antisymm
  · rw [ceilDiv_le_iff_le_mul hc, ceilDiv_le_iff_le_mul hb, ← mul_assoc]
    exact (ceilDiv_le_iff_le_mul (Nat.mul_pos hb hc)).mp le_rfl
  · rw [ceilDiv_le_iff_le_mul (Nat.mul_pos hb hc), mul_assoc]
    exact (ceilDiv_le_iff_le_mul hb).mp ((ceilDiv_le_iff_le_mul hc).mp le_rfl)

/-- Among the integers too, the ceiling is the least factor that covers `x`. -/
theorem ceilDiv_isLeast (x : ℕ) {y : ℕ} (hy : 0 < y) :
    IsLeast {a : ℤ | (x : ℤ) ≤ a * y} (x ⌈/⌉ y : ℕ) := by
  constructor
  · have hcover : x ≤ y * (x ⌈/⌉ y) := (ceilDiv_le_iff_le_mul hy).mp le_rfl
    have hcover : (x : ℤ) ≤ y * (x ⌈/⌉ y : ℕ) := by exact_mod_cast hcover
    exact hcover.trans_eq (mul_comm _ _)
  · intro a ha
    have hcover : (x : ℤ) ≤ a * y := ha
    have hpos : 0 ≤ a := by
      by_contra hneg
      have : a * y < 0 := Int.mul_neg_of_neg_of_pos (by omega) (by exact_mod_cast hy)
      omega
    obtain ⟨n, rfl⟩ := Int.eq_ofNat_of_zero_le hpos
    refine Int.ofNat_le.mpr ((ceilDiv_le_iff_le_mul hy).mpr ?_)
    rw [mul_comm]
    exact_mod_cast hcover

end CheckedWords
