import Birdai.Base.OrderedKeys
import Birdai.Move.Signatures

/-!
# The swap shape of a signature

The first probe of the classifier: a mutable borrow of the venue, and asset legs on
two of its type parameters.
-/

namespace SwapShape

open MoveTypes Signatures OrderedKeys

inductive EntryEvidence where
  | staticScan
  | observedCall
  deriving DecidableEq

structure SwapEntry where
  module : String
  function : String
  isEntry : Bool
  assetTypeParameters : List U16
  parameters : List String
  returns : List String
  evidence : EntryEvidence
  deriving DecidableEq

def typeParameterOf : OpenSignatureBody → Option U16
  | .typeParameter index => some index
  | _ => none

def mutableVenueBorrow (body : OpenSignatureBody) (reference : Option Reference)
    (venue : StructTag) : Option (List U16) :=
  if reference ≠ some .mutable then none
  else
    match body with
    | .datatype key arguments =>
      if key.package ≠ venue.address ∨ key.module ≠ venue.module ∨ key.name ≠ venue.name then none
      else
        let parameters := arguments.filterMap typeParameterOf
        if parameters.isEmpty then none else some parameters
    | _ => none

def coinTypeParameter (body : OpenSignatureBody) (allowBalance : Bool) : Option U16 :=
  match body with
  | .datatype key arguments =>
    if key.package ≠ suiFramework then none
    else
      let isCoin := key.module = "coin" ∧ key.name = "Coin"
      let isBalance := key.module = "balance" ∧ key.name = "Balance"
      if isCoin ∨ allowBalance ∧ isBalance then arguments.head?.bind typeParameterOf else none
  | _ => none

def assetTypeParameter (body : OpenSignatureBody) : Option U16 := coinTypeParameter body true

def coinInputTypeParameter (body : OpenSignatureBody) : Option U16 := coinTypeParameter body false

def swapShape (moduleName name : String) (definition : FunctionDef) (evidence : EntryEvidence)
    (venue : Option StructTag) : Option SwapEntry := do
  let venue ← venue
  let borrowed := sortDedup (· ≤ ·) (definition.parameters.filterMap fun parameter =>
    mutableVenueBorrow parameter.body parameter.reference venue).flatten
  if borrowed.isEmpty then none
  else
    let assetTypeParameters := sortDedup (· ≤ ·)
      ((definition.parameters.filterMap (assetTypeParameter ·.body) ++
        definition.returns.filterMap (assetTypeParameter ·.body)).filter (· ∈ borrowed))
    if assetTypeParameters.length < 2 then none
    else
      let inputs := (definition.parameters.filterMap (coinInputTypeParameter ·.body)).filter
        (· ∈ borrowed)
      let outputs := (definition.returns.filterMap (assetTypeParameter ·.body)).filter
        (· ∈ borrowed)
      -- a scan also wants one asset taken in and another handed out
      if evidence = .staticScan ∧ ¬∃ input ∈ inputs, ∃ output ∈ outputs, output ≠ input then none
      else
        some
          { module := moduleName
            function := name
            isEntry := definition.isEntry
            assetTypeParameters
            parameters := definition.parameters.map renderSignature
            returns := definition.returns.map renderSignature
            evidence }

/-! ### The definition -/

/-- A `0x2` coin of a type parameter. -/
def CoinOf (body : OpenSignatureBody) (x : U16) : Prop :=
  ∃ rest, body = .datatype ⟨suiFramework, "coin", "Coin"⟩ (.typeParameter x :: rest)

def BalanceOf (body : OpenSignatureBody) (x : U16) : Prop :=
  ∃ rest, body = .datatype ⟨suiFramework, "balance", "Balance"⟩ (.typeParameter x :: rest)

def LegOf (body : OpenSignatureBody) (x : U16) : Prop := CoinOf body x ∨ BalanceOf body x

/-- Two assets of a function that count as exchanged for each other. -/
structure Exchanged (definition : FunctionDef) (evidence : EntryEvidence) (x y : U16) : Prop where
  distinct : x ≠ y
  first : ∃ s ∈ definition.parameters ++ definition.returns, LegOf s.body x
  second : ∃ s ∈ definition.parameters ++ definition.returns, LegOf s.body y
  scanned : evidence = .staticScan →
    (∃ s ∈ definition.parameters, CoinOf s.body x) ∧ ∃ s ∈ definition.returns, LegOf s.body y

/-- A mutable borrow of the venue with this type parameter among its arguments. -/
def BorrowsWith (venue : StructTag) (parameter : OpenSignature) (x : U16) : Prop :=
  parameter.reference = some .mutable ∧ ∃ arguments,
    parameter.body = .datatype ⟨venue.address, venue.module, venue.name⟩ arguments ∧
      .typeParameter x ∈ arguments

/-- One borrow of the venue carries both assets. -/
def IsSwap (definition : FunctionDef) (venue : StructTag) (evidence : EntryEvidence) : Prop :=
  ∃ parameter ∈ definition.parameters, ∃ x y, BorrowsWith venue parameter x ∧
    BorrowsWith venue parameter y ∧ Exchanged definition evidence x y

/-! ### What the probe computes -/

theorem typeParameterOf_eq_some {body : OpenSignatureBody} {x : U16} :
    typeParameterOf body = some x ↔ body = .typeParameter x := by
  cases body <;> simp [typeParameterOf]

theorem mem_filterMap_typeParameterOf {arguments : List OpenSignatureBody} {x : U16} :
    x ∈ arguments.filterMap typeParameterOf ↔ .typeParameter x ∈ arguments := by
  simp only [List.mem_filterMap, typeParameterOf_eq_some]
  exact ⟨fun ⟨_, hmem, heq⟩ => heq ▸ hmem, fun hmem => ⟨_, hmem, rfl⟩⟩

theorem mem_mutableVenueBorrow {parameter : OpenSignature} {venue : StructTag} {x : U16} :
    (∃ borrowed, mutableVenueBorrow parameter.body parameter.reference venue = some borrowed ∧
      x ∈ borrowed) ↔ BorrowsWith venue parameter x := by
  obtain ⟨reference, body⟩ := parameter
  simp only [mutableVenueBorrow]
  by_cases hmutable : reference = some .mutable
  · rw [if_neg (not_not.mpr hmutable)]
    cases body with
    | datatype key arguments =>
      dsimp only
      by_cases hkey : key = ⟨venue.address, venue.module, venue.name⟩
      · subst hkey
        rw [if_neg (by simp)]
        constructor
        · rintro ⟨borrowed, hborrowed, hx⟩
          split at hborrowed
          · cases hborrowed
          · cases hborrowed
            exact ⟨hmutable, arguments, rfl, mem_filterMap_typeParameterOf.mp hx⟩
        · rintro ⟨_, _, heq, hx⟩
          cases heq
          have hx' := mem_filterMap_typeParameterOf.mpr hx
          refine ⟨_, if_neg ?_, hx'⟩
          intro hempty
          rw [List.isEmpty_iff.mp hempty] at hx'
          cases hx'
      · have hother : key.package ≠ venue.address ∨ key.module ≠ venue.module ∨
            key.name ≠ venue.name := by
          by_contra hsame
          push Not at hsame
          obtain ⟨package, module, name⟩ := key
          exact hkey (DatatypeKey.mk.injEq .. ▸ hsame)
        rw [if_pos hother]
        constructor
        · rintro ⟨_, hnone, _⟩
          cases hnone
        · rintro ⟨_, _, heq, _⟩
          cases heq
          exact absurd rfl hkey
    | _ => simp [BorrowsWith]
  · rw [if_pos hmutable]
    simp [BorrowsWith, hmutable]

theorem head?_bind_typeParameterOf {arguments : List OpenSignatureBody} {x : U16} :
    arguments.head?.bind typeParameterOf = some x ↔
      ∃ rest, arguments = .typeParameter x :: rest := by
  cases arguments with
  | nil => simp
  | cons argument rest => simp [typeParameterOf_eq_some]

theorem coinTypeParameter_eq_some {body : OpenSignatureBody} {allowBalance : Bool} {x : U16} :
    coinTypeParameter body allowBalance = some x ↔
      CoinOf body x ∨ allowBalance = true ∧ BalanceOf body x := by
  cases body with
  | datatype key arguments =>
    obtain ⟨package, module, name⟩ := key
    simp only [coinTypeParameter, CoinOf, BalanceOf, OpenSignatureBody.datatype.injEq,
      DatatypeKey.mk.injEq, exists_and_left, ← head?_bind_typeParameterOf]
    by_cases hpackage : package = suiFramework
    · rw [if_neg (not_not.mpr hpackage)]
      split
      · rename_i hkind
        simp only [hpackage, true_and]
        tauto
      · rename_i hkind
        simp only [hpackage, true_and]
        tauto
    · rw [if_pos hpackage]
      simp [hpackage]
  | _ => simp [coinTypeParameter, CoinOf, BalanceOf]

theorem assetTypeParameter_eq_some {body : OpenSignatureBody} {x : U16} :
    assetTypeParameter body = some x ↔ LegOf body x := by
  rw [assetTypeParameter, coinTypeParameter_eq_some, LegOf]
  simp

theorem coinInputTypeParameter_eq_some {body : OpenSignatureBody} {x : U16} :
    coinInputTypeParameter body = some x ↔ CoinOf body x := by
  rw [coinInputTypeParameter, coinTypeParameter_eq_some]
  simp

/-- Some borrow of the venue has this type parameter among its arguments. -/
def Borrowed (definition : FunctionDef) (venue : StructTag) (x : U16) : Prop :=
  ∃ parameter ∈ definition.parameters, BorrowsWith venue parameter x

theorem mem_borrowed {definition : FunctionDef} {venue : StructTag} {x : U16} :
    x ∈ sortDedup (· ≤ ·) (definition.parameters.filterMap fun parameter =>
      mutableVenueBorrow parameter.body parameter.reference venue).flatten ↔
        Borrowed definition venue x := by
  rw [mem_sortDedup, List.mem_flatten]
  simp only [List.mem_filterMap, Borrowed, ← mem_mutableVenueBorrow]
  constructor
  · rintro ⟨borrowed, ⟨parameter, hparameter, hborrow⟩, hx⟩
    exact ⟨parameter, hparameter, borrowed, hborrow, hx⟩
  · rintro ⟨parameter, hparameter, borrowed, hborrow, hx⟩
    exact ⟨borrowed, ⟨parameter, hparameter, hborrow⟩, hx⟩

theorem mem_filter_legs {definition : FunctionDef} {borrowed : List U16} {x : U16} :
    x ∈ (definition.parameters.filterMap (assetTypeParameter ·.body) ++
      definition.returns.filterMap (assetTypeParameter ·.body)).filter (· ∈ borrowed) ↔
        (∃ s ∈ definition.parameters ++ definition.returns, LegOf s.body x) ∧ x ∈ borrowed := by
  rw [← List.filterMap_append, List.mem_filter, List.mem_filterMap, decide_eq_true_eq]
  simp only [assetTypeParameter_eq_some]

theorem mem_filter_inputs {definition : FunctionDef} {borrowed : List U16} {x : U16} :
    x ∈ (definition.parameters.filterMap (coinInputTypeParameter ·.body)).filter (· ∈ borrowed) ↔
      (∃ s ∈ definition.parameters, CoinOf s.body x) ∧ x ∈ borrowed := by
  rw [List.mem_filter, List.mem_filterMap, decide_eq_true_eq]
  simp only [coinInputTypeParameter_eq_some]

theorem mem_filter_outputs {definition : FunctionDef} {borrowed : List U16} {x : U16} :
    x ∈ (definition.returns.filterMap (assetTypeParameter ·.body)).filter (· ∈ borrowed) ↔
      (∃ s ∈ definition.returns, LegOf s.body x) ∧ x ∈ borrowed := by
  rw [List.mem_filter, List.mem_filterMap, decide_eq_true_eq]
  simp only [assetTypeParameter_eq_some]

theorem swapShape_rendered {moduleName name : String} {definition : FunctionDef}
    {evidence : EntryEvidence} {venue : Option StructTag} {entry : SwapEntry}
    (h : swapShape moduleName name definition evidence venue = some entry) :
    entry.parameters = definition.parameters.map renderSignature ∧
      entry.returns = definition.returns.map renderSignature := by
  obtain ⟨venue, _, h⟩ := Option.bind_eq_some_iff.mp h
  dsimp only at h
  split at h
  · cases h
  split at h
  · cases h
  split at h
  · cases h
  cases h
  exact ⟨rfl, rfl⟩

/-- The probe looks for both assets among the arguments of all borrows together. -/
theorem swapShape_isSome_iff (moduleName name : String) (definition : FunctionDef)
    (evidence : EntryEvidence) (venue : StructTag) :
    (swapShape moduleName name definition evidence (some venue)).isSome = true ↔
      ∃ x y, Borrowed definition venue x ∧ Borrowed definition venue y ∧
        Exchanged definition evidence x y := by
  simp only [swapShape, Option.bind_eq_bind, Option.bind_some]
  have hborrowed : ∀ x, _ ↔ Borrowed definition venue x := fun x => mem_borrowed
  revert hborrowed
  generalize sortDedup (· ≤ ·) (definition.parameters.filterMap fun parameter =>
    mutableVenueBorrow parameter.body parameter.reference venue).flatten = borrowed
  intro hborrowed
  constructor
  · intro h
    split at h
    · cases h
    split at h
    · cases h
    rename_i hlength
    split at h
    · cases h
    rename_i hscan
    cases evidence with
    | staticScan =>
      simp only [true_and, not_not] at hscan
      obtain ⟨x, hx, y, hy, hne⟩ := hscan
      obtain ⟨⟨s, hs, hcoin⟩, hx⟩ := mem_filter_inputs.mp hx
      obtain ⟨⟨r, hr, hleg⟩, hy⟩ := mem_filter_outputs.mp hy
      refine ⟨x, y, (hborrowed x).mp hx, (hborrowed y).mp hy, hne.symm, ?_, ?_, ?_⟩
      · exact ⟨s, List.mem_append_left _ hs, .inl hcoin⟩
      · exact ⟨r, List.mem_append_right _ hr, hleg⟩
      · exact fun _ => ⟨⟨s, hs, hcoin⟩, r, hr, hleg⟩
    | observedCall =>
      obtain ⟨x, hx, y, hy, hne⟩ := two_le_length_sortDedup.mp (not_lt.mp hlength)
      obtain ⟨hlegx, hx⟩ := mem_filter_legs.mp hx
      obtain ⟨hlegy, hy⟩ := mem_filter_legs.mp hy
      exact ⟨x, y, (hborrowed x).mp hx, (hborrowed y).mp hy, hne, hlegx, hlegy,
        fun hstatic => absurd hstatic (by decide)⟩
  · rintro ⟨x, y, hx, hy, h⟩
    have hx := (hborrowed x).mpr hx
    have hy := (hborrowed y).mpr hy
    have hnonempty : ¬borrowed.isEmpty = true := by
      intro hempty
      rw [List.isEmpty_iff.mp hempty] at hx
      cases hx
    have hlength := (two_le_length_sortDedup (r := (· ≤ ·))).mpr
      ⟨x, mem_filter_legs.mpr ⟨h.first, hx⟩, y, mem_filter_legs.mpr ⟨h.second, hy⟩, h.distinct⟩
    rw [if_neg hnonempty, if_neg (not_lt.mpr hlength), if_neg]
    · rfl
    · rintro ⟨hstatic, hnone⟩
      obtain ⟨hinput, houtput⟩ := h.scanned hstatic
      exact hnone ⟨x, mem_filter_inputs.mpr ⟨hinput, hx⟩, y,
        mem_filter_outputs.mpr ⟨houtput, hy⟩, h.distinct.symm⟩

/-- Exchanged assets lie in borrows of the venue, and no borrow carries two of them. -/
def SpreadOverBorrows (definition : FunctionDef) (venue : StructTag) (evidence : EntryEvidence) :
    Prop :=
  (∃ p ∈ definition.parameters, ∃ q ∈ definition.parameters, ∃ x y, BorrowsWith venue p x ∧
    BorrowsWith venue q y ∧ Exchanged definition evidence x y) ∧
  ∀ p ∈ definition.parameters, ∀ x y, BorrowsWith venue p x → BorrowsWith venue p y →
    ¬Exchanged definition evidence x y

/-- The probe decides the definition unless a swap's assets are spread over borrows. -/
theorem swapShape_exact_iff (moduleName name : String) (definition : FunctionDef)
    (evidence : EntryEvidence) (venue : StructTag) :
    ((swapShape moduleName name definition evidence (some venue)).isSome = true ↔
      IsSwap definition venue evidence) ↔ ¬SpreadOverBorrows definition venue evidence := by
  rw [swapShape_isSome_iff]
  constructor
  · rintro hexact ⟨⟨p, hp, q, hq, x, y, hx, hy, h⟩, hnone⟩
    obtain ⟨p, hp, x, y, hx, hy, h⟩ := hexact.mp ⟨x, y, ⟨p, hp, hx⟩, ⟨q, hq, hy⟩, h⟩
    exact hnone p hp x y hx hy h
  · intro htogether
    constructor
    · rintro ⟨x, y, ⟨p, hp, hx⟩, ⟨q, hq, hy⟩, h⟩
      by_contra hnone
      exact htogether ⟨⟨p, hp, q, hq, x, y, hx, hy, h⟩, fun p hp x y hx hy h =>
        hnone ⟨p, hp, x, y, hx, hy, h⟩⟩
    · rintro ⟨p, hp, x, y, hx, hy, h⟩
      exact ⟨x, y, ⟨p, hp, hx⟩, ⟨p, hp, hy⟩, h⟩

/-! ### Two hops -/

def pool : StructTag := ⟨30, "pool", "Pool", []⟩

def poolBorrow (x y : U16) : OpenSignature :=
  ⟨some .mutable, .datatype ⟨30, "pool", "Pool"⟩ [.typeParameter x, .typeParameter y]⟩

def coin (x : U16) : OpenSignature :=
  ⟨none, .datatype ⟨suiFramework, "coin", "Coin"⟩ [.typeParameter x]⟩

/-- The pool and both its coins. -/
def swapLegs : List OpenSignature := [poolBorrow 0 1, coin 0, coin 1]

/-- `Coin<T0>` for `Coin<T2>` through `Pool<T0, T1>` and `Pool<T1, T2>`. -/
def twoHops : FunctionDef where
  visibility := .«public»
  isEntry := false
  parameters := [poolBorrow 0 1, poolBorrow 1 2, coin 0]
  returns := [coin 2]


theorem borrowsWith_poolBorrow {x y z : U16} :
    BorrowsWith pool (poolBorrow x y) z ↔ z = x ∨ z = y := by
  constructor
  · rintro ⟨_, arguments, hbody, hz⟩
    cases hbody
    simpa using hz
  · intro hz
    exact ⟨rfl, _, rfl, by simpa using hz⟩

theorem twoHops_exchanged : Exchanged twoHops .staticScan 0 2 where
  distinct := by decide
  first := ⟨coin 0, by simp [twoHops], .inl ⟨[], rfl⟩⟩
  second := ⟨coin 2, by simp [twoHops], .inl ⟨[], rfl⟩⟩
  scanned _ := ⟨⟨coin 0, by simp [twoHops], [], rfl⟩, coin 2, .head _, .inl ⟨[], rfl⟩⟩

theorem twoHops_one_leg {x : U16}
    (h : ∃ s ∈ twoHops.parameters ++ twoHops.returns, LegOf s.body x) : x ≠ 1 := by
  rintro rfl
  obtain ⟨s, hs, hleg⟩ := h
  simp only [twoHops, List.cons_append, List.nil_append, List.mem_cons, List.not_mem_nil,
    or_false] at hs
  rcases hs with rfl | rfl | rfl | rfl <;> rcases hleg with ⟨_, hbody⟩ | ⟨_, hbody⟩ <;>
    simp [poolBorrow, coin] at hbody

/-- A router that hands out an asset its first pool does not hold. No borrow carries both
assets, and the probe finds a swap. -/
theorem twoHops_misread :
    ¬∀ (moduleName name : String) (definition : FunctionDef) (evidence : EntryEvidence)
      (venue : StructTag),
      (swapShape moduleName name definition evidence (some venue)).isSome = true ↔
        IsSwap definition venue evidence := by
  intro hall
  have hsome : (swapShape "router" "swap" twoHops .staticScan (some pool)).isSome = true :=
    (swapShape_isSome_iff ..).mpr ⟨0, 2,
      ⟨poolBorrow 0 1, .head _, borrowsWith_poolBorrow.mpr (.inl rfl)⟩,
      ⟨poolBorrow 1 2, .tail _ (.head _), borrowsWith_poolBorrow.mpr (.inr rfl)⟩,
      twoHops_exchanged⟩
  obtain ⟨p, hp, x, y, hx, hy, h⟩ := (hall "router" "swap" twoHops .staticScan pool).mp hsome
  have hx1 := twoHops_one_leg h.first
  have hy1 := twoHops_one_leg h.second
  have hne := h.distinct
  simp only [twoHops, List.mem_cons, List.not_mem_nil, or_false] at hp
  rcases hp with rfl | rfl | rfl
  · rw [borrowsWith_poolBorrow] at hx hy
    grind
  · rw [borrowsWith_poolBorrow] at hx hy
    grind
  · cases hx.1

end SwapShape
