import Birdai.Amm.PricingSpecs

/-!
# Expressions over the checked words

Every tree the operations of `CheckedU256` build, its value as the code computes
it and over exact naturals. The two agree, on all that the evaluation comes to,
exactly when none of the left shifts it comes to drops a bit.
-/

namespace WideExpressions

open WideArith CheckedWords Outcomes SwapExactIn PricingSpecs

/-- The two word types the operations pass between them. -/
inductive Width where
  | narrow
  | wide
  deriving DecidableEq, Repr

def Width.bits : Width → ℕ
  | narrow => 128
  | wide => 256

abbrev Width.Word : Width → Type
  | narrow => U128
  | wide => CheckedU256

def Width.val : (w : Width) → w.Word → ℕ
  | narrow, v => Fin.val v
  | wide, v => CheckedU256.val v

theorem Width.val_injective (w : Width) : Function.Injective w.val := by
  cases w with
  | narrow => exact fun _ _ h => Fin.ext h
  | wide => exact fun _ _ h => CheckedU256.ext h

theorem Width.val_lt (w : Width) (v : w.Word) : w.val v < 2 ^ w.bits := by
  cases w with
  | narrow => exact Fin.isLt v
  | wide => exact CheckedU256.val_lt v

theorem Width.exists_val (w : Width) {n : ℕ} (h : n < 2 ^ w.bits) : ∃ v, w.val v = n := by
  cases w with
  | narrow => exact ⟨⟨n, h⟩, rfl⟩
  | wide => exact ⟨.ofNat n h, rfl⟩

/-! ### The binary operations -/

inductive Op where
  | checkedAdd
  | checkedSub
  | checkedMul
  | checkedDiv
  | checkedDivCeil
  deriving DecidableEq, Repr

def Op.run : Op → CheckedU256 → CheckedU256 → Except AmmError CheckedU256
  | checkedAdd => CheckedU256.checkedAdd
  | checkedSub => CheckedU256.checkedSub
  | checkedMul => CheckedU256.checkedMul
  | checkedDiv => CheckedU256.checkedDiv
  | checkedDivCeil => CheckedU256.checkedDivCeil

/-- The operation over the naturals, where it has a value. -/
def Op.exact : Op → ℕ → ℕ → Option ℕ
  | checkedAdd, a, b => some (a + b)
  | checkedSub, a, b => if b ≤ a then some (a - b) else none
  | checkedMul, a, b => some (a * b)
  | checkedDiv, a, b => if b = 0 then none else some (a / b)
  | checkedDivCeil, a, b => if b = 0 then none else some (a ⌈/⌉ b)

theorem checkedSub_eq_ok_iff {x y z : CheckedU256} :
    x.checkedSub y = .ok z ↔ z.val + y.val = x.val := by
  rw [CheckedU256.checkedSub, okOr_eq_ok_iff, Option.map_eq_some_iff]
  constructor
  · rintro ⟨w, hw, rfl⟩
    exact checkedSub_eq_some_iff.mp hw
  · intro h
    exact ⟨z.inner, checkedSub_eq_some_iff.mpr h, rfl⟩

/-- Every binary operation is exact or an error. -/
theorem Op.run_eq_ok_iff (o : Op) {x y z : CheckedU256} :
    o.run x y = .ok z ↔ o.exact x.val y.val = some z.val := by
  cases o with
  | checkedAdd => exact CheckedU256.checkedAdd_eq_ok_iff.trans Option.some_inj.symm
  | checkedSub =>
    refine checkedSub_eq_ok_iff.trans ?_
    simp only [Op.exact]
    split
    · rw [Option.some_inj]
      omega
    · simp only [reduceCtorEq, iff_false]
      omega
  | checkedMul => exact CheckedU256.checkedMul_eq_ok_iff.trans Option.some_inj.symm
  | checkedDiv =>
    refine CheckedU256.checkedDiv_eq_ok_iff.trans ?_
    simp only [Op.exact, Option.ite_none_left_eq_some, Option.some_inj, ne_eq]
  | checkedDivCeil =>
    refine CheckedU256.checkedDivCeil_eq_ok_iff.trans ?_
    simp only [Op.exact, Option.ite_none_left_eq_some, Option.some_inj, ne_eq]

/-! ### Trees -/

/-- A tree of operations, by the word it returns. A narrow word is the caller's own or
a wide one brought back, and a shift takes any count of bits. -/
inductive Expr : Width → Type where
  | word (value : U128) : Expr .narrow
  | fromU64 (value : U64) : Expr .wide
  | fromU128 (x : Expr .narrow) : Expr .wide
  | zero : Expr .wide
  | one : Expr .wide
  | maxValue : Expr .wide
  | op (o : Op) (x y : Expr .wide) : Expr .wide
  | checkedShl (x : Expr .wide) (bits : ℕ) : Expr .wide
  | checkedShr (x : Expr .wide) (bits : ℕ) : Expr .wide
  | toU128 (x : Expr .wide) : Expr .narrow

namespace Expr

/-- The tree as the code evaluates it. -/
def eval : {w : Width} → Expr w → Except AmmError w.Word
  | _, word value => .ok value
  | _, fromU64 value => .ok (.fromU64 value)
  | _, fromU128 x => do
    let value ← x.eval
    .ok (.fromU128 value)
  | _, zero => .ok .zero
  | _, one => .ok .one
  | _, maxValue => .ok .maxValue
  | _, op o x y => do
    let left ← x.eval
    let right ← y.eval
    o.run left right
  | _, checkedShl x bits => do
    let value ← x.eval
    value.checkedShl bits
  | _, checkedShr x bits => do
    let value ← x.eval
    value.checkedShr bits
  | _, toU128 x => do
    let value ← x.eval
    value.toU128

/-- The tree over exact naturals, where it has a value. -/
def exact : {w : Width} → Expr w → Option ℕ
  | _, word value => some value.val
  | _, fromU64 value => some value.val
  | _, fromU128 x => x.exact
  | _, zero => some 0
  | _, one => some 1
  | _, maxValue => some (2 ^ 256 - 1)
  | _, op o x y => do
    let left ← x.exact
    let right ← y.exact
    o.exact left right
  | _, checkedShl x bits => x.exact.map (· * 2 ^ bits)
  | _, checkedShr x bits => x.exact.map (· / 2 ^ bits)
  | _, toU128 x => x.exact

/-- A value that its word holds. -/
def held (w : Width) (n : ℕ) : Option ℕ := if n < 2 ^ w.bits then some n else none

/-- The exact value of a tree whose every part is held by its word. -/
def bounded : {w : Width} → Expr w → Option ℕ
  | _, word value => some value.val
  | _, fromU64 value => some value.val
  | _, fromU128 x => x.bounded
  | _, zero => some 0
  | _, one => some 1
  | _, maxValue => some (2 ^ 256 - 1)
  | _, op o x y => do
    let left ← x.bounded
    let right ← y.bounded
    let n ← o.exact left right
    held .wide n
  | _, checkedShl x bits => do
    let n ← x.bounded
    if bits < 256 then held .wide (n * 2 ^ bits) else none
  | _, checkedShr x bits => x.bounded.map (· / 2 ^ bits)
  | _, toU128 x => do
    let n ← x.bounded
    held .narrow n

/-- The parts of a tree that its evaluation comes to, the tree itself among them. A right
operand is evaluated only behind a left one that has a value. -/
inductive Reached : {v w : Width} → Expr v → Expr w → Prop where
  | refl {w : Width} (e : Expr w) : Reached e e
  | fromU128 {w : Width} {s : Expr w} {x : Expr .narrow} (h : Reached s x) :
      Reached s (.fromU128 x)
  | left {w : Width} {s : Expr w} {o : Op} {x y : Expr .wide} (h : Reached s x) :
      Reached s (.op o x y)
  | right {w : Width} {s : Expr w} {o : Op} {x y : Expr .wide} {value : CheckedU256}
      (hx : x.eval = .ok value) (h : Reached s y) : Reached s (.op o x y)
  | checkedShl {w : Width} {s : Expr w} {x : Expr .wide} {bits : ℕ} (h : Reached s x) :
      Reached s (.checkedShl x bits)
  | checkedShr {w : Width} {s : Expr w} {x : Expr .wide} {bits : ℕ} (h : Reached s x) :
      Reached s (.checkedShr x bits)
  | toU128 {w : Width} {s : Expr w} {x : Expr .wide} (h : Reached s x) : Reached s (.toU128 x)

/-- What the code returns for the tree is its exact value. -/
def Faithful {w : Width} (e : Expr w) : Prop := ∀ v, e.eval = .ok v → e.exact = some (w.val v)

/-- A shift by less than the width moves no bit of its operand out of the word. -/
def Room (x : Expr .wide) (bits : ℕ) : Prop :=
  bits < 256 → ∀ n, x.bounded = some n → n * 2 ^ bits < 2 ^ 256

/-- No left shift drops a bit, in the order of evaluation: what stands behind a left operand
without a value is not asked. -/
def KeepsBits : {w : Width} → Expr w → Prop
  | _, word _ => True
  | _, fromU64 _ => True
  | _, fromU128 x => x.KeepsBits
  | _, zero => True
  | _, one => True
  | _, maxValue => True
  | _, op _ x y => x.KeepsBits ∧ ∀ n, x.bounded = some n → y.KeepsBits
  | _, checkedShl x bits => x.KeepsBits ∧ Room x bits
  | _, checkedShr x _ => x.KeepsBits
  | _, toU128 x => x.KeepsBits

/-- The code returns the exact value of the tree exactly where all its parts fit. -/
def Refines {w : Width} (e : Expr w) : Prop := ∀ v, e.eval = .ok v ↔ e.bounded = some (w.val v)

/-! ### Evaluation against the exact values -/

variable {w : Width}

theorem held_eq_some_iff {n m : ℕ} : held w n = some m ↔ n = m ∧ m < 2 ^ w.bits := by
  unfold held
  split
  · rename_i hn
    rw [Option.some_inj]
    exact ⟨fun h => ⟨h, h ▸ hn⟩, fun h => h.1⟩
  · rename_i hn
    simp only [reduceCtorEq, false_iff, not_and]
    rintro rfl
    exact hn

theorem held_val {n : ℕ} {v : w.Word} : held w n = some (w.val v) ↔ n = w.val v := by
  rw [held_eq_some_iff]
  exact ⟨fun h => h.1, fun h => ⟨h, w.val_lt v⟩⟩

theorem bounded_lt {e : Expr w} {n : ℕ} (h : e.bounded = some n) : n < 2 ^ w.bits := by
  induction e generalizing n with
  | word value => exact Option.some.inj h ▸ value.isLt
  | fromU64 value => exact Option.some.inj h ▸ value.isLt.trans (by decide)
  | fromU128 x ih => exact (ih h).trans (by decide)
  | zero => exact Option.some.inj h ▸ by decide
  | one => exact Option.some.inj h ▸ by decide
  | maxValue => exact Option.some.inj h ▸ by decide
  | op o x y =>
    simp only [bounded, Option.bind_eq_bind, Option.bind_eq_some_iff] at h
    obtain ⟨_, _, _, _, _, _, h⟩ := h
    exact (held_eq_some_iff.mp h).2
  | checkedShl x bits =>
    simp only [bounded, Option.bind_eq_bind, Option.bind_eq_some_iff,
      Option.ite_none_right_eq_some] at h
    obtain ⟨_, _, _, h⟩ := h
    exact (held_eq_some_iff.mp h).2
  | checkedShr x bits ih =>
    obtain ⟨m, hm, rfl⟩ := Option.map_eq_some_iff.mp h
    exact (Nat.div_le_self _ _).trans_lt (ih hm)
  | toU128 x =>
    simp only [bounded, Option.bind_eq_bind, Option.bind_eq_some_iff] at h
    obtain ⟨_, _, h⟩ := h
    exact (held_eq_some_iff.mp h).2

theorem exact_of_bounded {e : Expr w} {n : ℕ} (h : e.bounded = some n) : e.exact = some n := by
  induction e generalizing n with
  | word value => exact h
  | fromU64 value => exact h
  | fromU128 x ih => exact ih h
  | zero => exact h
  | one => exact h
  | maxValue => exact h
  | op o x y ihx ihy =>
    simp only [bounded, Option.bind_eq_bind, Option.bind_eq_some_iff] at h
    obtain ⟨left, hleft, right, hright, m, hm, h⟩ := h
    obtain ⟨rfl, -⟩ := held_eq_some_iff.mp h
    simp only [exact, Option.bind_eq_bind, Option.bind_eq_some_iff]
    exact ⟨left, ihx hleft, right, ihy hright, hm⟩
  | checkedShl x bits ih =>
    simp only [bounded, Option.bind_eq_bind, Option.bind_eq_some_iff,
      Option.ite_none_right_eq_some] at h
    obtain ⟨m, hm, -, h⟩ := h
    obtain ⟨rfl, -⟩ := held_eq_some_iff.mp h
    exact Option.map_eq_some_iff.mpr ⟨m, ih hm, rfl⟩
  | checkedShr x bits ih =>
    obtain ⟨m, hm, rfl⟩ := Option.map_eq_some_iff.mp h
    exact Option.map_eq_some_iff.mpr ⟨m, ih hm, rfl⟩
  | toU128 x ih =>
    simp only [bounded, Option.bind_eq_bind, Option.bind_eq_some_iff] at h
    obtain ⟨m, hm, h⟩ := h
    obtain ⟨rfl, -⟩ := held_eq_some_iff.mp h
    exact ih hm

/-- A tree that is evaluated exactly has a value where all its parts fit. -/
theorem Refines.exists_eval {x : Expr w} (hx : Refines x) {n : ℕ} (h : x.bounded = some n) :
    ∃ v, w.val v = n ∧ x.eval = .ok v := by
  obtain ⟨v, rfl⟩ := w.exists_val (bounded_lt h)
  exact ⟨v, rfl, (hx v).mpr h⟩

/-- What is asked of the value of a part, asked of its exact value. -/
theorem Refines.exists_iff {x : Expr w} (hx : Refines x) {R : w.Word → Prop} {Q : ℕ → Prop}
    (h : ∀ v, x.eval = .ok v → (R v ↔ Q (w.val v))) :
    (∃ v, x.eval = .ok v ∧ R v) ↔ ∃ n, x.bounded = some n ∧ Q n := by
  constructor
  · rintro ⟨v, hv, hr⟩
    exact ⟨w.val v, (hx v).mp hv, (h v hv).mp hr⟩
  · rintro ⟨n, hn, hq⟩
    obtain ⟨v, rfl, hv⟩ := hx.exists_eval hn
    exact ⟨v, hv, (h v hv).mpr hq⟩

theorem Refines.leaf {e : Expr w} {a : w.Word} (heval : e.eval = .ok a)
    (hbounded : e.bounded = some (w.val a)) : Refines e := by
  intro v
  rw [heval, hbounded, Except.ok.injEq, Option.some_inj]
  exact w.val_injective.eq_iff.symm

theorem Refines.fromU128 {x : Expr .narrow} (hx : Refines x) : Refines (.fromU128 x) := by
  intro z
  simp only [eval, bounded, bind_eq_ok_iff, Except.ok.injEq]
  refine (hx.exists_iff (Q := (· = z.val)) fun v _ => CheckedU256.ext_iff).trans ?_
  constructor
  · rintro ⟨_, hn, rfl⟩
    exact hn
  · exact fun h => ⟨_, h, rfl⟩

theorem Refines.toU128 {x : Expr .wide} (hx : Refines x) : Refines (.toU128 x) := by
  intro z
  simp only [eval, bounded, Option.bind_eq_bind, Option.bind_eq_some_iff, bind_eq_ok_iff]
  refine hx.exists_iff fun v _ => ?_
  exact CheckedU256.toU128_eq_ok_iff.trans (held_val (w := .narrow) (v := z)).symm

/-- The right operand has to be exact only where the left one has a value. -/
theorem Refines.op {x y : Expr .wide} (hx : Refines x)
    (hy : ∀ n, x.bounded = some n → Refines y) (o : Op) : Refines (.op o x y) := by
  intro z
  simp only [eval, bounded, Option.bind_eq_bind, Option.bind_eq_some_iff, bind_eq_ok_iff]
  refine hx.exists_iff fun left hleft => (hy _ ((hx left).mp hleft)).exists_iff fun right _ => ?_
  rw [Op.run_eq_ok_iff]
  constructor
  · exact fun h => ⟨_, h, held_val.mpr rfl⟩
  · rintro ⟨n, hn, hheld⟩
    exact hn.trans (congrArg some (held_val.mp hheld))

/-- A shift that keeps its bits is exact. -/
theorem Refines.checkedShl {x : Expr .wide} (hx : Refines x) {bits : ℕ}
    (hroom : Room x bits) : Refines (.checkedShl x bits) := by
  intro z
  simp only [eval, bounded, Option.bind_eq_bind, Option.bind_eq_some_iff, bind_eq_ok_iff,
    Option.ite_none_right_eq_some]
  by_cases hbits : bits < 256
  · constructor
    · rintro ⟨v, hv, hshift⟩
      have hfits : v.val * 2 ^ bits < 2 ^ 256 := hroom hbits _ ((hx v).mp hv)
      rw [CheckedU256.checkedShl_eq_ok_iff hbits, Nat.mod_eq_of_lt hfits] at hshift
      exact ⟨_, (hx v).mp hv, hbits, held_val.mpr hshift⟩
    · rintro ⟨n, hn, -, hheld⟩
      obtain ⟨v, rfl, hv⟩ := hx.exists_eval hn
      refine ⟨v, hv, ?_⟩
      rw [CheckedU256.checkedShl_eq_ok_iff hbits]
      exact (Nat.mod_eq_of_lt (hroom hbits _ hn)).trans (held_val.mp hheld)
  · simp only [CheckedU256.checkedShl, hbits, ↓reduceIte, reduceCtorEq, and_false, exists_false,
      false_and]

theorem Refines.checkedShr {x : Expr .wide} (hx : Refines x) (bits : ℕ) :
    Refines (.checkedShr x bits) := by
  intro z
  simp only [eval, bounded, Option.map_eq_some_iff, bind_eq_ok_iff]
  refine hx.exists_iff fun v _ => ?_
  by_cases hbits : bits < 256
  · exact CheckedU256.checkedShr_eq_ok_iff hbits
  · -- past the width the source answers zero, which is what the quotient is
    have hsmall : v.val < 2 ^ bits :=
      v.val_lt.trans_le (Nat.pow_le_pow_right (by decide) (not_lt.mp hbits))
    rw [CheckedU256.checkedShr, if_pos (not_lt.mp hbits), Except.ok.injEq]
    refine (CheckedU256.ext_iff (x := CheckedU256.zero)).trans ?_
    exact (Nat.div_eq_of_lt hsmall).symm ▸ Iff.rfl

/-- A tree whose shifts keep their bits is evaluated exactly or not at all. -/
theorem refines_of_keepsBits {e : Expr w} (h : KeepsBits e) : Refines e := by
  induction e with
  | word value => exact .leaf rfl rfl
  | fromU64 value => exact .leaf rfl rfl
  | fromU128 x ih => exact (ih h).fromU128
  | zero => exact .leaf rfl rfl
  | one => exact .leaf rfl rfl
  | maxValue => exact .leaf rfl rfl
  | op o x y ihx ihy => exact (ihx h.1).op (fun n hn => ihy (h.2 n hn)) o
  | checkedShl x bits ih => exact (ih h.1).checkedShl h.2
  | checkedShr x bits ih => exact (ih h).checkedShr bits
  | toU128 x ih => exact (ih h).toU128

theorem KeepsBits.reached {v : Width} {s : Expr v} {e : Expr w} (h : KeepsBits e)
    (hs : Reached s e) : KeepsBits s := by
  induction hs with
  | refl => exact h
  | fromU128 _ ih => exact ih h
  | left _ ih => exact ih h.1
  | right hx _ ih => exact ih (h.2 _ ((refines_of_keepsBits h.1 _).mp hx))
  | checkedShl _ ih => exact ih h.1
  | checkedShr _ ih => exact ih h
  | toU128 _ ih => exact ih h

theorem faithful_of_keepsBits {e : Expr w} (h : KeepsBits e) : Faithful e :=
  fun v hv => exact_of_bounded ((refines_of_keepsBits h v).mp hv)

/-- A shift whose operand is evaluated exactly, and whose own answer is exact, has room. -/
theorem room_of_faithful {x : Expr .wide} {bits : ℕ} (hx : Refines x)
    (hfaithful : Faithful (.checkedShl x bits)) : Room x bits := by
  intro hbits n hn
  obtain ⟨v, rfl, hv⟩ := hx.exists_eval hn
  obtain ⟨z, hz⟩ : ∃ z, v.checkedShl bits = .ok z := ⟨_, if_pos hbits⟩
  have heval : (Expr.checkedShl x bits).eval = .ok z := bind_eq_ok_iff.mpr ⟨v, hv, hz⟩
  have hexact := hfaithful z heval
  rw [Expr.exact, exact_of_bounded hn, Option.map_some, Option.some_inj] at hexact
  exact hexact ▸ z.val_lt

/-- Bits are kept when every shift the evaluation comes to, over an operand that keeps its own,
has room. -/
theorem keepsBits_of_shifts {e : Expr w}
    (h : ∀ x bits, Reached (.checkedShl x bits) e → KeepsBits x → Room x bits) : KeepsBits e := by
  induction e with
  | word value => trivial
  | fromU64 value => trivial
  | fromU128 x ih => exact ih fun y bits hy => h y bits hy.fromU128
  | zero => trivial
  | one => trivial
  | maxValue => trivial
  | op o x y ihx ihy =>
    have hx : KeepsBits x := ihx fun z bits hz => h z bits hz.left
    refine ⟨hx, fun n hn => ihy fun z bits hz => ?_⟩
    obtain ⟨value, _, hvalue⟩ := (refines_of_keepsBits hx).exists_eval hn
    exact h z bits (.right hvalue hz)
  | checkedShl x bits ih =>
    have hx : KeepsBits x := ih fun y bits hy => h y bits hy.checkedShl
    exact ⟨hx, h x bits (.refl _) hx⟩
  | checkedShr x bits ih => exact ih fun y bits hy => h y bits hy.checkedShr
  | toU128 x ih => exact ih fun y bits hy => h y bits hy.toU128

/-- A tree and all that its evaluation comes to are evaluated exactly if and only if none of
the left shifts on the way drops a bit. -/
theorem reached_faithful_iff_keepsBits (e : Expr w) :
    (∀ (v : Width) (s : Expr v), Reached s e → Faithful s) ↔ KeepsBits e := by
  constructor
  · intro h
    refine keepsBits_of_shifts fun x bits hshift hx => ?_
    exact room_of_faithful (refines_of_keepsBits hx) (h _ _ hshift)
  · exact fun h v s hs => faithful_of_keepsBits (h.reached hs)

/-- Twice the largest word is answered, with its top bit gone. -/
theorem doubled_max_wraps :
    (Expr.checkedShl .maxValue 1).eval = .ok (.ofNat (2 ^ 256 - 2) (by decide)) ∧
    (Expr.checkedShl .maxValue 1).exact = some (2 * (2 ^ 256 - 1)) ∧
    ¬ ∀ (w : Width) (e : Expr w), Faithful e := by
  have heval : (Expr.checkedShl .maxValue 1).eval =
      .ok (.ofNat (2 ^ 256 - 2) (by decide)) := by decide
  have hexact : (Expr.checkedShl .maxValue 1).exact = some (2 * (2 ^ 256 - 1)) := by decide
  refine ⟨heval, hexact, fun h => ?_⟩
  have hwrong := hexact.symm.trans (h _ _ _ heval)
  revert hwrong
  decide

/-! ### The trees of the pricing code -/

section
variable {x y z : Expr .wide} {bits bits' : ℕ}

theorem shl_reached_word (value : U128) : Reached (.checkedShl x bits) (.word value) ↔ False :=
  ⟨nofun, nofun⟩

theorem shl_reached_fromU128 {y : Expr .narrow} :
    Reached (.checkedShl x bits) (.fromU128 y) ↔ Reached (.checkedShl x bits) y := by
  constructor
  · intro h
    cases h with
    | fromU128 h => exact h
  · exact .fromU128

theorem shl_reached_toU128 :
    Reached (.checkedShl x bits) (.toU128 y) ↔ Reached (.checkedShl x bits) y := by
  constructor
  · intro h
    cases h with
    | toU128 h => exact h
  · exact .toU128

theorem shl_reached_op {o : Op} : Reached (.checkedShl x bits) (.op o y z) ↔
    Reached (.checkedShl x bits) y ∨
      (∃ value, y.eval = .ok value) ∧ Reached (.checkedShl x bits) z := by
  constructor
  · intro h
    cases h with
    | left h => exact .inl h
    | right hy h => exact .inr ⟨⟨_, hy⟩, h⟩
  · rintro (h | ⟨⟨_, hy⟩, h⟩)
    · exact .left h
    · exact .right hy h

theorem shl_reached_checkedShl : Reached (.checkedShl x bits) (.checkedShl y bits') ↔
    (x = y ∧ bits = bits') ∨ Reached (.checkedShl x bits) y := by
  constructor
  · intro h
    cases h with
    | refl => exact .inl ⟨rfl, rfl⟩
    | checkedShl h => exact .inr h
  · rintro (⟨rfl, rfl⟩ | h)
    · exact .refl _
    · exact .checkedShl h

end

/-- A left shift of one or of a widened narrow word, by no more than that word's width, keeps
its bits. -/
theorem room_of_narrow {x : Expr .wide} {bits : ℕ} (hbits : bits ≤ 128)
    (hoperand : x = .one ∨ ∃ y, x = .fromU128 y) : Room x bits := by
  intro _ n hn
  have hnarrow : n < 2 ^ 128 := by
    rcases hoperand with rfl | ⟨y, rfl⟩
    · exact Option.some.inj hn ▸ by decide
    · exact bounded_lt (e := y) hn
  calc n * 2 ^ bits
      < 2 ^ 128 * 2 ^ bits := (Nat.mul_lt_mul_right (by positivity)).mpr hnarrow
    _ ≤ 2 ^ 128 * 2 ^ 128 := Nat.mul_le_mul_left _ (Nat.pow_le_pow_right (by decide) hbits)
    _ = 2 ^ 256 := by norm_num

/-- Every left shift the evaluation comes to is a narrow one. -/
def NarrowShifts (e : Expr w) : Prop :=
  ∀ x bits, Reached (.checkedShl x bits) e → bits ≤ 128 ∧ (x = .one ∨ ∃ y, x = .fromU128 y)

theorem keepsBits_of_narrowShifts {e : Expr w} (h : NarrowShifts e) : KeepsBits e :=
  keepsBits_of_shifts fun x bits hx _ => room_of_narrow (h x bits hx).1 (h x bits hx).2

/-- The division the caller's rounding asks for. -/
def division (roundUp : Bool) : Op := if roundUp then .checkedDivCeil else .checkedDiv

theorem run_division (roundUp : Bool) (x y : CheckedU256) :
    (division roundUp).run x y = divRounding x y roundUp := by
  cases roundUp with
  | false => rfl
  | true => rfl

/-- The chain of operations `delta_a` runs on prices in order. -/
def deltaATree (low high liquidity : U128) (roundUp : Bool) : Expr .narrow :=
  .toU128 (.op (division roundUp)
    (.op (division roundUp)
      (.op .checkedMul (.checkedShl (.fromU128 (.word liquidity)) 64)
        (.fromU128 (.word (high - low))))
      (.fromU128 (.word high)))
    (.fromU128 (.word low)))

theorem deltaATree_narrowShifts (low high liquidity : U128) (roundUp : Bool) :
    NarrowShifts (deltaATree low high liquidity roundUp) := by
  intro x bits h
  simp only [deltaATree, shl_reached_toU128, shl_reached_op, shl_reached_checkedShl,
    shl_reached_fromU128, shl_reached_word, or_false, and_false] at h
  obtain ⟨rfl, rfl⟩ := h
  exact ⟨by decide, .inr ⟨_, rfl⟩⟩

theorem deltaATree_faithful (low high liquidity : U128) (roundUp : Bool) :
    Faithful (deltaATree low high liquidity roundUp) :=
  faithful_of_keepsBits (keepsBits_of_narrowShifts (deltaATree_narrowShifts _ _ _ _))

/-- Off its shortcuts `delta_a` is its tree. -/
theorem deltaA_eq_eval {low high liquidity : U128} {roundUp : Bool} (hlow : low ≠ 0)
    (hle : low ≤ high) (hmoves : ¬ (liquidity = 0 ∨ low = high)) :
    deltaA low high liquidity roundUp = (deltaATree low high liquidity roundUp).eval := by
  simp only [deltaA, ordered_of_le hle, if_neg hlow, if_neg hmoves, deltaATree, eval, ok_bind,
    run_division, bind_assoc]
  rfl

end Expr

end WideExpressions
