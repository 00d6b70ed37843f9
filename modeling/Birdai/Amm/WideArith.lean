import Birdai.Base.CheckedWords
import Birdai.Base.Outcomes

/-!
# Checked 256-bit arithmetic

The errors of the arithmetic crate and the `CheckedU256` newtype, with the word
operations of the underlying `U256` behind it. A left shift drops the bits that
leave the word; every other operation is exact or an error.
-/

namespace WideArith

open CheckedWords Outcomes

abbrev U64 := Fin (2 ^ 64)

abbrev U128 := Fin (2 ^ 128)

abbrev U256 := Fin (2 ^ 256)

instance u64_neZero : NeZero (2 ^ 64) := ⟨by decide⟩

instance u128_neZero : NeZero (2 ^ 128) := ⟨by decide⟩

instance u256_neZero : NeZero (2 ^ 256) := ⟨by decide⟩

inductive AmmError where
  | overflow (op : String)
  | divByZero (op : String)
  | invalidFeeRate (rate : U64)
  | zeroLiquidity
  | invalidSqrtPrice (sqrtPrice : U128)
  | invalidTick (tick min max : ℤ)
  | unreachablePriceLimit (current limit : U128)
  | noProgress (remaining : U128)
  | tooManyCrossings (limit : ℕ)
  deriving DecidableEq, Repr

/-- An unsigned 256-bit integer whose operations are checked. -/
structure CheckedU256 where
  inner : U256
  deriving DecidableEq, Repr

namespace CheckedU256

def val (x : CheckedU256) : ℕ := x.inner.val

theorem val_lt (x : CheckedU256) : x.val < 2 ^ 256 := x.inner.isLt

@[ext] theorem ext {x y : CheckedU256} (h : x.val = y.val) : x = y := by
  cases x
  cases y
  exact congrArg CheckedU256.mk (Fin.ext h)

def ofNat (n : ℕ) (h : n < 2 ^ 256) : CheckedU256 := ⟨⟨n, h⟩⟩

@[simp] theorem val_ofNat (n : ℕ) (h : n < 2 ^ 256) : (ofNat n h).val = n := rfl

def zero : CheckedU256 := ofNat 0 (by decide)

def one : CheckedU256 := ofNat 1 (by decide)

def maxValue : CheckedU256 := ofNat (2 ^ 256 - 1) (by decide)

def fromU128 (value : U128) : CheckedU256 := ofNat value.val (value.isLt.trans (by decide))

def fromU64 (value : U64) : CheckedU256 := ofNat value.val (value.isLt.trans (by decide))

def isZero (x : CheckedU256) : Bool := x.val = 0

def toU128 (x : CheckedU256) : Except AmmError U128 :=
  if h : x.val < 2 ^ 128 then .ok ⟨x.val, h⟩ else .error (.overflow "narrow to u128")

def checkedAdd (x rhs : CheckedU256) : Except AmmError CheckedU256 :=
  okOr ((CheckedWords.checkedAdd x.inner rhs.inner).map mk) (.overflow "add")

def checkedSub (x rhs : CheckedU256) : Except AmmError CheckedU256 :=
  okOr ((CheckedWords.checkedSub x.inner rhs.inner).map mk) (.overflow "sub")

def checkedMul (x rhs : CheckedU256) : Except AmmError CheckedU256 :=
  okOr ((CheckedWords.checkedMul x.inner rhs.inner).map mk) (.overflow "mul")

def checkedDiv (x rhs : CheckedU256) : Except AmmError CheckedU256 :=
  if rhs.isZero then .error (.divByZero "div")
  else okOr ((CheckedWords.checkedDiv x.inner rhs.inner).map mk) (.divByZero "div")

def checkedDivRem (x rhs : CheckedU256) : Except AmmError (CheckedU256 × CheckedU256) :=
  if rhs.isZero then .error (.divByZero "div_rem")
  else do
    let quotient ← okOr (CheckedWords.checkedDiv x.inner rhs.inner) (.divByZero "div_rem")
    let remainder ← okOr (CheckedWords.checkedRem x.inner rhs.inner) (.divByZero "div_rem")
    .ok (⟨quotient⟩, ⟨remainder⟩)

def checkedDivCeil (x rhs : CheckedU256) : Except AmmError CheckedU256 := do
  let (quotient, remainder) ← x.checkedDivRem rhs
  if remainder.isZero then .ok quotient else quotient.checkedAdd one

/-- `U256::checked_shl` refuses only a shift of the whole width or more. -/
def checkedShl (x : CheckedU256) (bits : ℕ) : Except AmmError CheckedU256 :=
  if bits < 256 then .ok (ofNat (x.val * 2 ^ bits % 2 ^ 256) (Nat.mod_lt _ (by decide)))
  else .error (.overflow "shl")

def checkedShr (x : CheckedU256) (bits : ℕ) : Except AmmError CheckedU256 :=
  if 256 ≤ bits then .ok zero
  else .ok (ofNat (x.val / 2 ^ bits) ((Nat.div_le_self _ _).trans_lt x.val_lt))

@[simp] theorem val_zero : zero.val = 0 := rfl

@[simp] theorem val_one : one.val = 1 := rfl

@[simp] theorem val_maxValue : maxValue.val = 2 ^ 256 - 1 := rfl

@[simp] theorem val_fromU128 (value : U128) : (fromU128 value).val = value.val := rfl

@[simp] theorem val_fromU64 (value : U64) : (fromU64 value).val = value.val := rfl

theorem toU128_eq_ok_iff {x : CheckedU256} {v : U128} : x.toU128 = .ok v ↔ x.val = v.val := by
  unfold toU128
  split
  · simp [Fin.ext_iff]
  · rename_i h
    simp only [reduceCtorEq, false_iff]
    intro he
    exact h (he ▸ v.isLt)

theorem checkedAdd_eq_ok_iff {x y z : CheckedU256} :
    x.checkedAdd y = .ok z ↔ x.val + y.val = z.val := by
  rw [checkedAdd, okOr_eq_ok_iff, Option.map_eq_some_iff]
  constructor
  · rintro ⟨w, hw, rfl⟩
    exact checkedAdd_eq_some_iff.mp hw
  · intro h
    exact ⟨z.inner, checkedAdd_eq_some_iff.mpr h, rfl⟩

theorem checkedMul_eq_ok_iff {x y z : CheckedU256} :
    x.checkedMul y = .ok z ↔ x.val * y.val = z.val := by
  rw [checkedMul, okOr_eq_ok_iff, Option.map_eq_some_iff]
  constructor
  · rintro ⟨w, hw, rfl⟩
    exact checkedMul_eq_some_iff.mp hw
  · intro h
    exact ⟨z.inner, checkedMul_eq_some_iff.mpr h, rfl⟩

theorem checkedDiv_eq_ok_iff {x y z : CheckedU256} :
    x.checkedDiv y = .ok z ↔ y.val ≠ 0 ∧ x.val / y.val = z.val := by
  unfold checkedDiv isZero
  by_cases hy : y.val = 0
  · simp [hy]
  · simp only [hy, decide_false, Bool.false_eq_true, ↓reduceIte]
    rw [okOr_eq_ok_iff, Option.map_eq_some_iff]
    constructor
    · rintro ⟨w, hw, rfl⟩
      exact checkedDiv_eq_some_iff.mp hw
    · intro h
      exact ⟨z.inner, checkedDiv_eq_some_iff.mpr h, rfl⟩

theorem checkedDivRem_eq_ok_iff {x y q r : CheckedU256} :
    x.checkedDivRem y = .ok (q, r) ↔
      y.val ≠ 0 ∧ x.val / y.val = q.val ∧ x.val % y.val = r.val := by
  unfold checkedDivRem isZero
  by_cases hy : y.val = 0
  · simp [hy]
  · simp only [hy, decide_false, Bool.false_eq_true, ↓reduceIte]
    constructor
    · intro h
      obtain ⟨w, hw, h⟩ := bind_eq_ok_iff.mp h
      obtain ⟨t, ht, h⟩ := bind_eq_ok_iff.mp h
      cases h
      exact ⟨hy, (checkedDiv_eq_some_iff.mp (okOr_eq_ok_iff.mp hw)).2,
        (checkedRem_eq_some_iff.mp (okOr_eq_ok_iff.mp ht)).2⟩
    · rintro ⟨_, hq, hr⟩
      refine bind_eq_ok_iff.mpr ⟨q.inner, okOr_eq_ok_iff.mpr ?_, ?_⟩
      · exact checkedDiv_eq_some_iff.mpr ⟨hy, hq⟩
      · refine bind_eq_ok_iff.mpr ⟨r.inner, okOr_eq_ok_iff.mpr ?_, rfl⟩
        exact checkedRem_eq_some_iff.mpr ⟨hy, hr⟩

/-- The ceiling needs no room above the quotient: a quotient with a remainder
is below the dividend. -/
theorem checkedDivCeil_eq_ok_iff {x y z : CheckedU256} :
    x.checkedDivCeil y = .ok z ↔ y.val ≠ 0 ∧ x.val ⌈/⌉ y.val = z.val := by
  by_cases hy : y.val = 0
  · unfold checkedDivCeil checkedDivRem isZero
    simp [hy]
  · have hpos : 0 < y.val := Nat.pos_of_ne_zero hy
    have hstep := div_add_rem_step_eq_ceilDiv x.val hpos
    let q := ofNat (x.val / y.val) ((Nat.div_le_self _ _).trans_lt x.val_lt)
    let r := ofNat (x.val % y.val) ((Nat.mod_le _ _).trans_lt x.val_lt)
    have hqr : x.checkedDivRem y = .ok (q, r) := checkedDivRem_eq_ok_iff.mpr ⟨hy, rfl, rfl⟩
    rw [checkedDivCeil, hqr, ok_bind]
    dsimp only [isZero]
    by_cases hr : x.val % y.val = 0
    · have hz : r.val = 0 := hr
      rw [if_pos hr] at hstep
      simp only [hz, decide_true, ↓reduceIte, Except.ok.injEq]
      constructor
      · rintro rfl
        exact ⟨hy, hstep.symm⟩
      · intro h
        exact CheckedU256.ext (hstep.trans h.2)
    · have hz : r.val ≠ 0 := hr
      rw [if_neg hr] at hstep
      simp only [hz, decide_false, Bool.false_eq_true, ↓reduceIte]
      rw [checkedAdd_eq_ok_iff, val_one, ← hstep]
      exact ⟨fun h => ⟨hy, h⟩, fun h => h.2⟩

theorem checkedShl_eq_ok_iff {x z : CheckedU256} {bits : ℕ} (hbits : bits < 256) :
    x.checkedShl bits = .ok z ↔ x.val * 2 ^ bits % 2 ^ 256 = z.val := by
  rw [checkedShl, if_pos hbits, Except.ok.injEq]
  constructor
  · rintro rfl
    exact (val_ofNat _ _).symm
  · intro h
    exact CheckedU256.ext ((val_ofNat _ _).trans h)

/-- A 128-bit operand has room for the fixed-point shift. -/
theorem checkedShl_fromU128_eq_ok_iff {v : U128} {z : CheckedU256} :
    (fromU128 v).checkedShl 64 = .ok z ↔ v.val * 2 ^ 64 = z.val := by
  have hlt : v.val * 2 ^ 64 < 2 ^ 256 := by
    have := v.isLt
    omega
  rw [checkedShl_eq_ok_iff (by decide), val_fromU128, Nat.mod_eq_of_lt hlt]

theorem checkedShr_eq_ok_iff {x z : CheckedU256} {bits : ℕ} (hbits : bits < 256) :
    x.checkedShr bits = .ok z ↔ x.val / 2 ^ bits = z.val := by
  rw [checkedShr, if_neg (by omega), Except.ok.injEq]
  constructor
  · rintro rfl
    exact (val_ofNat _ _).symm
  · intro h
    exact CheckedU256.ext ((val_ofNat _ _).trans h)

end CheckedU256

end WideArith
